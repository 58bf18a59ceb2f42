import LC3.Assembly.Encoding
import LC3.Proofs.Assembly.FirstPass

/-!
The words of a program. Every statement emits as many words as its size says, and they stand as far
into the program as the statement lies behind the origin. Main statements: `words_eq_ok_iff`,
`exists_stretch`.
-/

namespace LC3
namespace Statement

variable {s : Statement} {symbols : SymbolTable} {ws : List Word}

/-- The words that stand for a statement once labels have addresses. -/
inductive Emits (symbols : SymbolTable) (s : Statement) : List Word → Prop
  | instruction {m operands w} (content : s.content = .instruction m operands)
      (encoded : s.instructionWord symbols m operands = .ok w) : Emits symbols s [w]
  | literal {v span} (content : s.content = .fill (.literal v) span)
      (within : -0x8000 ≤ v ∧ v ≤ 0xFFFF) : Emits symbols s [BitVec.ofInt 16 v]
  | label {name a span} (content : s.content = .fill (.label name) span)
      (defined : symbols.find? name = some a) : Emits symbols s [a]
  | block {count} (content : s.content = .block count) :
      Emits symbols s (List.replicate count.toNat 0)
  | string {characters} (content : s.content = .string characters) :
      Emits symbols s (characters ++ [0])

theorem words_eq_ok_iff : s.words symbols = .ok ws ↔ s.Emits symbols ws := by
  constructor
  · intro h
    unfold words at h
    cases content : s.content with
    | instruction m operands =>
        rw [content] at h
        obtain ⟨w, encoded, rfl⟩ := Stage.map_eq_ok.mp h
        exact .instruction content encoded
    | fill datum span =>
        rw [content] at h
        obtain ⟨w, filled, rfl⟩ := Stage.map_eq_ok.mp h
        cases datum with
        | literal v =>
            simp only [Datum.fill] at filled
            split at filled
            · next within => cases filled; exact .literal content within
            · cases filled
        | label name =>
            simp only [Datum.fill, Datum.address] at filled
            split at filled
            · next defined => cases filled; exact .label content defined
            · cases filled
    | block count =>
        rw [content] at h
        cases h
        exact .block content
    | string characters =>
        rw [content] at h
        cases h
        exact .string content
  · intro h
    cases h with
    | instruction content encoded => simp only [words, content, encoded, Except.map]
    | @literal v span content within =>
        have within : v ∈ Interval.fills := within
        simp only [words, content, Datum.fill, if_pos within, Except.map]
    | label content defined =>
        simp only [words, content, Datum.fill, Datum.address, defined, Except.map]
    | block content => simp only [words, content]
    | string content => simp only [words, content]

theorem Emits.length (h : s.Emits symbols ws) : ws.length = s.size := by
  cases h with
  | instruction content => rw [size, content]; rfl
  | literal content => rw [size, content]; rfl
  | label content => rw [size, content]; rfl
  | block content => rw [size, content]; exact List.length_replicate
  | string content => rw [size, content]; exact List.length_append

theorem Emits.unique {vs : List Word} (h : s.Emits symbols ws) (g : s.Emits symbols vs) :
    ws = vs :=
  Except.ok.inj ((words_eq_ok_iff.mpr h).symm.trans (words_eq_ok_iff.mpr g))

theorem Emits.encoded {m : Mnemonic} {operands : List Operand} (h : s.Emits symbols ws)
    (content : s.content = .instruction m operands) :
    ∃ w, ws = [w] ∧ s.instructionWord symbols m operands = .ok w := by
  have emitted := words_eq_ok_iff.mpr h
  rw [words, content] at emitted
  obtain ⟨w, encoded, rfl⟩ := Stage.map_eq_ok.mp emitted
  exact ⟨w, rfl, encoded⟩

variable {statements : List Statement} {wss : List (List Word)} {start : Nat}

theorem length_flatten_of_emits (h : List.Forall₂ (Emits symbols) statements wss) :
    wss.flatten.length = total statements := by
  induction h with
  | nil => rfl
  | cons emits _ ih => rw [List.flatten_cons, List.length_append, emits.length, ih, total_cons]

/-- The words of a statement stand behind those of the statements before it. -/
theorem exists_stretch (h : List.Forall₂ (Emits symbols) statements wss)
    (consecutive : Consecutive start statements) (member : s ∈ statements) :
    ∃ before ws after, wss.flatten = before ++ ws ++ after ∧ s.Emits symbols ws ∧
      s.address.toNat = start + before.length := by
  induction h generalizing start with
  | nil => cases member
  | @cons first ws rest wss emits _ ih =>
      rcases List.mem_cons.mp member with rfl | later
      · exact ⟨[], ws, wss.flatten, rfl, emits, consecutive.1⟩
      · obtain ⟨before, vs, after, whole, own, place⟩ := ih consecutive.2 later
        refine ⟨ws ++ before, vs, after, ?_, own, ?_⟩
        · simp only [List.flatten_cons, whole, List.append_assoc]
        · rw [place, List.length_append, emits.length, Nat.add_assoc]

end Statement

/-- A program is the origin and the labels of its listing and the words of its statements. -/
theorem Listing.program_eq_ok_iff {l : Listing} {program : Program} :
    l.program = .ok program ↔
      ∃ wss, List.Forall₂ (Statement.Emits l.symbols) l.statements wss ∧
        program = ⟨l.origin, wss.flatten, l.symbols⟩ := by
  simp only [Listing.program, Stage.bind_eq_ok, Stage.mapM_eq_ok_iff, Stage.mapError_eq_ok,
    Statement.words_eq_ok_iff, pure, Except.pure, Except.ok.injEq]
  exact exists_congr fun wss => and_congr_right fun _ => eq_comm

theorem assemble_eq_ok_iff {source : List Char} {program : Program} :
    assemble source = .ok program ↔
      ∃ l, Listing.ofText source = .ok l ∧ l.program = .ok program :=
  Stage.bind_eq_ok

/-- A source whose lines are not read is not assembled. -/
theorem assemble_eq_error_of_foldlM {source : List Char} {d : Diagnostic}
    (h : (Line.ofText source).foldlM Progress.readLine .beforeOrigin = .error d) :
    assemble source = .error d :=
  Stage.bind_eq_error.mpr (.inl (Stage.bind_eq_error.mpr (.inl h)))

end LC3
