import LC3.Proofs.Assembly.Arrangement
import LC3.Proofs.Assembly.Disassembly

/-!
A BLKW of no words. It takes no room and moves nothing, but it is a statement as any other and needs
an address. On a line of its own it changes nothing in a program, wherever behind the origin it
stands, unless the statements before it fill memory to its last word: there it is refused. Main
statements: `Formed.insert`, `Holds.program_insert`, `assemble_emptyBlock`.
-/

namespace LC3
namespace Entry

/-- What a BLKW of no words says. -/
def emptyBlock : Entry := ⟨none, .put (.block 0)⟩

variable {entries others : List Entry} {here : Nat} {origin : Word}

theorem fits_emptyBlock_iff : emptyBlock.Fits here ↔ here ≤ 0xFFFF := by
  constructor
  · rintro ⟨-, room⟩
    exact (room _ rfl).1
  · intro inside
    refine ⟨fun label => absurd rfl label, ?_⟩
    rintro _ ⟨⟩
    exact ⟨inside, Nat.le_succ_of_le inside⟩

theorem addressed_insert : addressed here (entries ++ emptyBlock :: others) =
    addressed here entries ++
      (here + total entries, emptyBlock) :: addressed (here + total entries) others := by
  rw [addressed_append, addressed]
  rfl

theorem labels_insert :
    labels here (entries ++ emptyBlock :: others) = labels here (entries ++ others) := by
  rw [labels, addressed_insert, labels, addressed_append]
  simp [emptyBlock]

theorem items_insert : items here (entries ++ emptyBlock :: others) =
    items here entries ++
      (here + total entries, .block 0) :: items (here + total entries) others := by
  rw [items, addressed_insert, List.filterMap_append]
  rfl

/-- A program stays one where an empty block goes in at an address. -/
theorem Formed.insert (h : Formed (entries ++ others) origin) (some : body entries ≠ [])
    (inside : origin.toNat + total (body entries) ≤ 0xFFFF) :
    Formed (entries ++ emptyBlock :: others) origin := by
  obtain ⟨⟨label, rest, split, only⟩, distinct, fits⟩ := h
  rw [body_append some] at split distinct fits
  obtain ⟨e, more, own⟩ := List.exists_cons_of_ne_nil some
  rw [own, List.cons_append] at split
  obtain ⟨rfl, rfl⟩ := List.cons.inj split
  refine ⟨⟨label, more ++ emptyBlock :: others, ?_, ?_⟩, ?_, ?_⟩
  · rw [body_append some, own, List.cons_append]
  · obtain ⟨before, after⟩ := List.forall_mem_append.mp only
    refine List.forall_mem_append.mpr ⟨before, List.forall_mem_cons.mpr ⟨?_, after⟩⟩
    rintro ⟨a, ⟨⟩⟩
  · rw [body_append some]
    simpa [emptyBlock] using distinct
  · rw [addressed_append] at fits
    obtain ⟨before, after⟩ := List.forall_mem_append.mp fits
    rw [body_append some, addressed_insert]
    exact List.forall_mem_append.mpr
      ⟨before, List.forall_mem_cons.mpr ⟨fits_emptyBlock_iff.mpr inside, after⟩⟩

end Entry

namespace Listing

variable {l l' : Listing} {program : Program} {entries others : List Entry}

/-- A listing with an empty block more has the same program. -/
theorem Holds.program_insert (held : l.Holds (entries ++ others))
    (held' : l'.Holds (entries ++ Entry.emptyBlock :: others)) (some : Entry.body entries ≠ [])
    (origin : l'.origin = l.origin) (programmed : l.program = .ok program) :
    l'.program = .ok program := by
  obtain ⟨wss, emits, rfl⟩ := program_eq_ok_iff.mp programmed
  have symbols : l'.symbols = l.symbols := by
    refine SymbolTable.eq_of_entries ?_
    rw [held.symbols, held'.symbols, origin, Entry.body_append some, Entry.body_append some,
      Entry.labels_insert]
  have items := held.items
  have items' := held'.items
  rw [Entry.body_append some, Entry.items_append] at items
  rw [origin, Entry.body_append some, Entry.items_insert] at items'
  obtain ⟨first, later, split, before, after⟩ := List.map_eq_append_iff.mp items
  obtain ⟨first', rest', split', before', rest⟩ := List.map_eq_append_iff.mp items'
  obtain ⟨s, later', rfl, own, after'⟩ := List.map_eq_cons_iff.mp rest
  have block : s.content = .block 0 := Content.item_eq_block_iff.mp (Prod.mk.inj own).2
  rw [split] at emits
  have front := (List.forall₂_take_append _ _ _ emits.flip).flip
  have back := (List.forall₂_drop_append _ _ _ emits.flip).flip
  refine program_eq_ok_iff.mpr
    ⟨wss.take first.length ++ [] :: wss.drop first.length, ?_, ?_⟩
  · rw [split', symbols]
    exact List.rel_append (Statement.emits_of_map_eq front (before.trans before'.symm))
      (.cons (.block block) (Statement.emits_of_map_eq back (after.trans after'.symm)))
  · rw [origin, symbols, List.flatten_append, List.flatten_cons, List.nil_append,
      ← List.flatten_append, List.take_append_drop]

end Listing

namespace Progress

variable {p p' : Progress} {line : Line} {lines others : List Line} {entries : List Entry}
  {origin : Word} {l : Listing} {program : Program} {d : Draft}

/-- What has been read before the origin is blank. -/
theorem beforeOrigin_of_readLine (h : p.readLine line = .ok .beforeOrigin) :
    p = .beforeOrigin ∧ line.tokens = [] := by
  have live : ∀ d, p ≠ .ended d := by
    rintro d rfl
    cases h
  obtain ⟨clause, parsed, reads⟩ := reads_of_readLine live h
  cases reads with
  | blank =>
      obtain ⟨front, back, row, labels, acts⟩ := Clause.exists_gives_iff.mp ⟨_, parsed, .blank⟩
      cases labels
      cases acts
      exact ⟨rfl, List.map_eq_nil_iff.mp row⟩

theorem beforeOrigin_of_foldlM (h : lines.foldlM readLine p = .ok .beforeOrigin) :
    p = .beforeOrigin ∧ ∀ line ∈ lines, line.tokens = [] := by
  induction lines generalizing p with
  | nil =>
      cases h
      exact ⟨rfl, nofun⟩
  | cons line rest ih =>
      obtain ⟨mid, first, later⟩ := Stage.bind_eq_ok.mp ((List.foldlM_cons ..).symm.trans h)
      obtain ⟨rfl, blank⟩ := ih later
      obtain ⟨start, own⟩ := beforeOrigin_of_readLine first
      exact ⟨start, List.forall_mem_cons.mpr ⟨own, blank⟩⟩

theorem Holds.of_listing? (h : p.Holds entries) (own : p.listing? = some l) :
    Entry.Formed entries l.origin ∧ l.Holds entries := by
  cases p with
  | beforeOrigin => cases own
  | within d | ended d =>
      cases own
      exact ⟨h.1, h.2.symbols, h.2.items⟩

theorem Holds.exists_listing? (h : p.Holds entries) (formed : Entry.Formed entries origin) :
    ∃ l, p.listing? = some l := by
  cases p with
  | beforeOrigin => exact absurd h formed.body_ne_nil
  | within d | ended d => exact ⟨_, rfl⟩

/-- A reading that goes on to a program gets to the same program by way of an empty block. -/
theorem Holds.exists_insert (held : (within d).Holds entries) (inside : d.counter ≤ 0xFFFF)
    (block : Entry.emptyBlock.Of Piece.IsDatum line.row)
    (read : lines.foldlM readLine (.within d) = .ok p') (listed : p'.listing? = some l)
    (programmed : l.program = .ok program) (rows : others.map Line.row = lines.map Line.row) :
    ∃ p'' l', (line :: others).foldlM readLine (.within d) = .ok p'' ∧ p''.listing? = some l' ∧
      l'.program = .ok program := by
  have formed : Entry.Formed entries d.origin := held.1
  have some := formed.body_ne_nil
  obtain ⟨more, told, held'⟩ := held.run (fun _ => nofun) read
  obtain ⟨whole, holds⟩ := held'.of_listing? listed
  have same : d.origin = l.origin := formed.unique (whole.of_append some)
  have room : l.origin.toNat + Entry.total (Entry.body entries) ≤ 0xFFFF := by
    rw [← same, ← held.2.counter]
    exact inside
  have inserted := whole.insert some room
  have opens : Entry.Opens (entries ++ [Entry.emptyBlock] ++ more) :=
    .inr ⟨l.origin, by simpa using inserted⟩
  obtain ⟨mid, first, heldMid, ends⟩ := held.exists_step (fun _ => nofun) block opens.of_append
  have live : ∀ d, mid ≠ .ended d := fun d ended =>
    nomatch block.act_eq_stop_iff.mpr (ends.mp ⟨d, ended⟩)
  obtain ⟨p'', later, heldAll⟩ := heldMid.exists_run live (rows ▸ told) opens
  rw [List.append_assoc, List.singleton_append] at heldAll
  obtain ⟨l', own⟩ := heldAll.exists_listing? inserted
  obtain ⟨formed', holds'⟩ := heldAll.of_listing? own
  refine ⟨p'', l', ?_, own, holds.program_insert holds' some (formed'.unique inserted) programmed⟩
  rw [List.foldlM_cons, first]
  exact later

end Progress

/-- The text is one line with a BLKW and a literal of value zero, and has no label. -/
structure IsEmptyBlock (text : List Char) (head count : Token) : Prop where
  line : Line.ofText text = [⟨1, [head, count]⟩]
  directive : head.piece.IsDirective .block
  zero : count.number = .ok 0

/-- The first pass gets to the end of the text within a program that goes up to the last word of
memory. -/
def FillsMemory (text : List Char) : Prop :=
  ∃ d, (Line.ofText text).foldlM Progress.readLine .beforeOrigin = .ok (.within d) ∧
    d.counter = 0x10000

instance (text : List Char) : Decidable (FillsMemory text) :=
  match read : (Line.ofText text).foldlM Progress.readLine .beforeOrigin with
  | .ok (.within d) => decidable_of_iff (d.counter = 0x10000)
      ⟨fun full => ⟨d, read, full⟩, fun ⟨_, own, full⟩ => by cases read.symm.trans own; exact full⟩
  | .ok .beforeOrigin => isFalse fun ⟨_, own, _⟩ => nomatch read.symm.trans own
  | .ok (.ended _) => isFalse fun ⟨_, own, _⟩ => nomatch read.symm.trans own
  | .error _ => isFalse fun ⟨_, own, _⟩ => nomatch read.symm.trans own

namespace IsEmptyBlock

variable {text : List Char} {head count : Token}

theorem isWord (h : IsEmptyBlock text head count) : count.piece.IsWord 0 :=
  ⟨0, Token.number_eq_ok_iff.mp h.zero, by decide, rfl⟩

theorem acts (h : IsEmptyBlock text head count) :
    Entry.emptyBlock.Of Piece.IsDatum [head.piece, count.piece] :=
  ⟨[], _, rfl, .none, .block h.directive h.isWord⟩

theorem closed (h : IsEmptyBlock text head count) : ¬ OpensAtEnd text := by
  intro opened
  obtain ⟨before, -, alone⟩ := Line.exists_ofText_append_of_opensAtEnd opened
  obtain ⟨line, split, t, member, kind⟩ := alone [] ['"'] rfl
  rw [List.append_nil, h.line] at split
  have own : line ∈ [(⟨1, [head, count]⟩ : Line)] :=
    split ▸ List.mem_append_right _ List.mem_cons_self
  obtain rfl := List.mem_singleton.mp own
  have others : ∀ t ∈ [head, count], t.kind ≠ .stringLiteral false := by
    have first : head.kind = .directive := h.directive.1
    have second : count.kind ≠ .stringLiteral false := by
      have number : count.kind = .hexLiteral ∨ count.kind = .decimalLiteral :=
        (Token.number_eq_ok_iff.mp h.zero).kind
      rcases number with kind | kind <;> simp [kind]
    simp [first, second]
  exact others t member kind

/-- The lines of a text with the block on a line of its own. -/
theorem ofText_insert {before : List Char} (h : IsEmptyBlock text head count)
    (closed : ¬ OpensAtEnd before) (after : List Char) : ∃ others,
    Line.ofText (before ++ '\n' :: (text ++ '\n' :: after)) = Line.ofText before ++
      Line.shift (byteLength before + 1) (Line.ofText before).length ⟨1, [head, count]⟩ :: others ∧
      others.map Line.row = (Line.ofText after).map Line.row := by
  rw [Line.ofText_append_newline closed, Line.ofText_append_newline h.closed, h.line,
    List.singleton_append, List.map_cons]
  refine ⟨_, rfl, ?_⟩
  simp only [List.map_map, Function.comp_def, Line.row_shift]

end IsEmptyBlock

/-- Where memory is full there is no address for an empty block. -/
theorem Draft.readLine_eq_error {d : Draft} {line : Line} {head count : Token}
    (full : d.counter = 0x10000) (tokens : line.tokens = [head, count])
    (directive : head.piece.IsDirective .block) (zero : count.piece.IsWord 0) :
    (Progress.within d).readLine line =
      .error ⟨⟨head.span, .outOfRange .address 0x10000 .words⟩, line.number⟩ := by
  have clause : Clause.ofTokens line.tokens = .ok (.directive none head .block [count]) :=
    tokens ▸ Line.ofTokens_of_directive directive.1 directive.2 _
  have pushed : d.push line.number head (.block 0) =
      .error ⟨head.span, .outOfRange .address 0x10000 .words⟩ := by
    rw [push, full]
    rfl
  have refused : (Progress.within d).readClause line.number (.directive none head .block [count]) =
      .error ⟨head.span, .outOfRange .address 0x10000 .words⟩ := by
    simp only [Progress.readClause, Progress.readDirective, Progress.draft, Clause.single,
      Token.blockCount_eq_ok_iff.mpr zero, Stage.ok_bind, place, defineSome, pushed]
    rfl
  rw [Progress.readLine_within, clause, Except.bind, refused]
  rfl

section Insertion

variable {before after text : List Char} {head count : Token} {program : Program}

/-- The counter within a program is at most just past the end of memory. -/
theorem Draft.counter_le {d : Draft}
    (read : (Line.ofText before).foldlM Progress.readLine .beforeOrigin = .ok (.within d)) :
    d.counter ≤ 0x10000 := by
  have start : Progress.beforeOrigin.Laid [] := ⟨rfl, rfl⟩
  have laid := start.run (fun _ => nofun) (Line.ordered_ofText before) read
  exact laid.fits

/-- A line with an empty block behind the origin changes nothing in a program, unless the text
before it fills memory. -/
theorem assemble_insert (block : IsEmptyBlock text head count) (closed : ¬ OpensAtEnd before)
    (opened : ∃ line ∈ Line.ofText before, ∃ t ∈ line.tokens, t.piece.IsDirective .origin)
    (room : ¬ FillsMemory before) (assembled : assemble (before ++ '\n' :: after) = .ok program) :
    assemble (before ++ '\n' :: (text ++ '\n' :: after)) = .ok program := by
  obtain ⟨l, listed, programmed⟩ := assemble_eq_ok_iff.mp assembled
  obtain ⟨p, read, own⟩ := Listing.ofText_eq_ok_iff.mp listed
  rw [Line.ofText_append_newline closed, List.foldlM_append] at read
  obtain ⟨mid, first, rest⟩ := Stage.bind_eq_ok.mp read
  obtain ⟨others, lines, rows⟩ := block.ofText_insert closed after
  suffices goes : ∃ p' l', (Line.ofText (before ++ '\n' :: (text ++ '\n' :: after))).foldlM
      Progress.readLine .beforeOrigin = .ok p' ∧ p'.listing? = some l' ∧
        l'.program = .ok program by
    obtain ⟨p', l', read', own', programmed'⟩ := goes
    exact assemble_eq_ok_iff.mpr ⟨l', Listing.ofText_eq_ok_iff.mpr ⟨p', read', own'⟩, programmed'⟩
  rw [lines, List.foldlM_append, first, Stage.ok_bind]
  cases mid with
  | beforeOrigin =>
      obtain ⟨line, member, t, inside, -⟩ := opened
      rw [(Progress.beforeOrigin_of_foldlM first).2 line member] at inside
      cases inside
  | ended d =>
      rw [Progress.foldlM_readLine_ended] at rest
      cases rest
      exact ⟨_, l, Progress.foldlM_readLine_ended d _, own, programmed⟩
  | within d =>
      have start : Progress.beforeOrigin.Holds [] := rfl
      obtain ⟨entries, -, held⟩ := start.run (fun _ => nofun) first
      have inside : d.counter ≤ 0xFFFF := by
        have le := Draft.counter_le first
        have other : d.counter ≠ 0x10000 := fun full => room ⟨d, first, full⟩
        omega
      refine held.exists_insert inside block.acts rest own programmed ?_
      rw [rows, List.map_map]
      exact List.map_congr_left fun line _ => (Line.row_shift ..).symm

/-- It is refused where the text before it fills memory. -/
theorem assemble_insert_of_fillsMemory (block : IsEmptyBlock text head count)
    (closed : ¬ OpensAtEnd before) (full : FillsMemory before) (after : List Char) :
    assemble (before ++ '\n' :: (text ++ '\n' :: after)) = .error
      ⟨⟨(head.shift (byteLength before + 1)).span, .outOfRange .address 0x10000 .words⟩,
        (Line.ofText before).length + 1⟩ := by
  obtain ⟨d, first, counter⟩ := full
  obtain ⟨others, lines, -⟩ := block.ofText_insert closed after
  have refused : (Progress.within d).readLine (Line.shift (byteLength before + 1)
      (Line.ofText before).length ⟨1, [head, count]⟩) = .error
        ⟨⟨(head.shift (byteLength before + 1)).span, .outOfRange .address 0x10000 .words⟩,
          (Line.ofText before).length + 1⟩ :=
    Draft.readLine_eq_error counter rfl block.directive block.isWord
  refine assemble_eq_error_of_foldlM ?_
  rw [lines, List.foldlM_append, first, Stage.ok_bind, List.foldlM_cons]
  exact Stage.bind_eq_error.mpr (.inl refused)

/-- On a line of its own behind the origin an empty block changes nothing in a program, except where
the text before it fills memory: there it is refused. -/
theorem assemble_emptyBlock (block : IsEmptyBlock text head count) (closed : ¬ OpensAtEnd before)
    (opened : ∃ line ∈ Line.ofText before, ∃ t ∈ line.tokens, t.piece.IsDirective .origin)
    (assembled : assemble (before ++ '\n' :: after) = .ok program) :
    (¬ FillsMemory before →
      assemble (before ++ '\n' :: (text ++ '\n' :: after)) = .ok program) ∧
    (FillsMemory before → assemble (before ++ '\n' :: (text ++ '\n' :: after)) = .error
      ⟨⟨(head.shift (byteLength before + 1)).span, .outOfRange .address 0x10000 .words⟩,
        (Line.ofText before).length + 1⟩) :=
  ⟨fun room => assemble_insert block closed opened room assembled,
    fun full => assemble_insert_of_fillsMemory block closed full after⟩

end Insertion

/-- A load of a label below it. -/
def aheadFront : List Char := ".ORIG x3000\nLD R0, A".toList

def aheadBack : List Char := "A .FILL #7\n.END".toList

def aheadProgram : Program := ⟨0x3000, [0x2000, 7], ⟨[(['A'], 0x3001)], by decide⟩⟩

/-- The last word of memory is taken. -/
def fullFront : List Char := ".ORIG xFFFE\n.BLKW 2".toList

def fullProgram : Program := ⟨0xFFFE, [0, 0], .empty⟩

theorem assemble_emptyBlock_aheadProgram :
    assemble (aheadFront ++ '\n' :: aheadBack) = .ok aheadProgram ∧
      assemble (aheadFront ++ '\n' :: ("\t.blkw x-0 ; none".toList ++ '\n' :: aheadBack)) =
        .ok aheadProgram ∧
      assemble (fullFront ++ '\n' :: ("\t.blkw x-0 ; none".toList ++ '\n' :: ".END".toList)) =
        .error ⟨⟨⟨21, 5⟩, .outOfRange .address 0x10000 .words⟩, 3⟩ := by
  have block : IsEmptyBlock "\t.blkw x-0 ; none".toList ⟨.directive, 1, ".blkw".toList⟩
      ⟨.hexLiteral, 7, "x-0".toList⟩ := ⟨rfl, by decide, rfl⟩
  have ahead : assemble (aheadFront ++ '\n' :: aheadBack) = .ok aheadProgram := rfl
  have full : assemble (fullFront ++ '\n' :: ".END".toList) = .ok fullProgram := rfl
  exact ⟨ahead, (assemble_emptyBlock block (by decide) (by decide) ahead).1 (by decide),
    (assemble_emptyBlock block (by decide) (by decide) full).2 (by decide)⟩

/-- An empty block is no exception where everything else needs an address. -/
theorem not_forall_assemble_insert : ¬ ∀ (before after text : List Char) (head count : Token)
    (program : Program), IsEmptyBlock text head count → ¬ OpensAtEnd before →
      (∃ line ∈ Line.ofText before, ∃ t ∈ line.tokens, t.piece.IsDirective .origin) →
        assemble (before ++ '\n' :: after) = .ok program →
          assemble (before ++ '\n' :: (text ++ '\n' :: after)) = .ok program := by
  intro neutral
  have block : IsEmptyBlock ".BLKW 0".toList ⟨.directive, 0, ".BLKW".toList⟩
      ⟨.decimalLiteral, 6, "0".toList⟩ := ⟨rfl, by decide, rfl⟩
  have kept := neutral fullFront ".END".toList _ _ _ fullProgram block (by decide) (by decide) rfl
  have refused : assemble (fullFront ++ '\n' :: (".BLKW 0".toList ++ '\n' :: ".END".toList)) =
      .error ⟨⟨⟨20, 5⟩, .outOfRange .address 0x10000 .words⟩, 3⟩ := rfl
  cases refused.symm.trans kept

end LC3
