import LC3.Proofs.Assembly.SecondPass
import LC3.Proofs.Machine.Loading

/-!
The two passes agree on where things are. What the first pass says of addresses holds of the words
that the second pass emits, up to the last cell of memory, and so of the machine that a program is
loaded into. Main statement: `laidOut_of_assemble`.
-/

namespace LC3

/-- Loading the program of a listing puts the words of every statement at its address. -/
theorem Listing.Laid.load {l : Listing} {lines : List Line} {program : Program}
    (laid : l.Laid lines) (emitted : l.program = .ok program) (p : Processor) :
    ∃ q, p.loadProgram program = (.ok (), q) ∧
      ∀ s ∈ l.statements, ∀ ws, s.Emits l.symbols ws → q.memory.Holds s.address ws := by
  obtain ⟨wss, emits, rfl⟩ := Listing.program_eq_ok_iff.mp emitted
  have fits : l.origin.toNat + wss.flatten.length ≤ 0x10000 := by
    rw [Statement.length_flatten_of_emits emits]
    exact laid.fits
  refine ⟨_, p.load_of_fits fits, fun s member ws own => ?_⟩
  obtain ⟨before, vs, after, whole, other, place⟩ :=
    Statement.exists_stretch emits laid.consecutive member
  have held := Memory.holds_setAll p.memory fits
  rw [own.unique other]
  simp only [whole] at held ⊢
  exact held.stretch place

/-- What the words and labels of a program owe to the statements of its listing and to the lines of
its source. -/
structure Program.LaidOut (program : Program) (l : Listing) (lines : List Line) : Prop where
  origin : l.origin = program.origin
  symbols : l.symbols = program.symbols
  /-- The statements are those of the lines that have one, in order. -/
  made : List.Forall₂ Line.Makes (lines.filter Line.hasStatement) l.statements
  consecutive : Statement.Consecutive program.origin.toNat l.statements
  count : program.words.length = Statement.total l.statements
  fits : program.origin.toNat + program.words.length ≤ 0x10000
  emitted : ∀ s ∈ l.statements, ∃ ws, s.Emits program.symbols ws ∧ ws.length = s.size ∧
    (program.words.drop (s.address.toNat - program.origin.toNat)).take s.size = ws
  once : (program.symbols.entries.map Prod.fst).Nodup
  /-- The labels are those that the lines define, in order. -/
  labels : program.symbols.entries.map (fun e => (e.1, e.2.toNat)) =
    (lines.filterMap Line.definition?).map fun (number, label) =>
      (label, program.origin.toNat + Statement.totalBefore number l.statements)
  loaded : ∀ p : Processor, ∃ q, p.loadProgram program = (.ok (), q) ∧
    ∀ s ∈ l.statements, ∀ ws, s.Emits program.symbols ws → q.memory.Holds s.address ws

/-- A program that is assembled is laid out as its source says. -/
theorem laidOut_of_assemble {source : List Char} {program : Program}
    (assembled : assemble source = .ok program) :
    ∃ l, Listing.ofText source = .ok l ∧
      program.LaidOut l (Line.live (Line.ofText source)) := by
  obtain ⟨l, listed, emitted⟩ := assemble_eq_ok_iff.mp assembled
  have laid := Listing.laid_of_ofText listed
  have load := laid.load emitted
  obtain ⟨wss, emits, rfl⟩ := Listing.program_eq_ok_iff.mp emitted
  have count := Statement.length_flatten_of_emits emits
  refine ⟨l, listed, ⟨rfl, rfl, laid.made, laid.consecutive, count, count ▸ laid.fits, ?_,
    l.symbols.distinct, laid.symbols, load⟩⟩
  intro s member
  obtain ⟨before, ws, after, whole, own, place⟩ :=
    Statement.exists_stretch emits laid.consecutive member
  refine ⟨ws, own, own.length, ?_⟩
  simp only [whole, place, Nat.add_sub_cancel_left, List.append_assoc, List.drop_left,
    ← own.length, List.take_left]

/-- A label before its use and one after it, and statements of every kind. -/
def mixedSource : List Char :=
  ".ORIG x3000\nA LD R0, B\n.BLKW 2\nB .FILL A\n.STRINGZ \"hi\"\n.END".toList

theorem laidOut_mixedSource :
    ∃ program, assemble mixedSource = .ok program ∧
      program.words = [0x2002, 0, 0, 0x3000, 0x68, 0x69, 0] ∧
      ∃ l, Listing.ofText mixedSource = .ok l ∧
        program.LaidOut l (Line.live (Line.ofText mixedSource)) :=
  ⟨_, rfl, rfl, laidOut_of_assemble rfl⟩

end LC3
