import LC3.Proofs.Word.Numeral
import LC3.Proofs.Word.Pattern

/-!
Texts of digits. Digits are read from the left, and the first character that is none, or with which
the number reaches 2 to the 63rd, says what is wrong; a text without such a character is the number
that its digits are, however many zeros stand in front. A word in hexadecimal has one mark in front
of its digits or none. Main statements: `digit?_eq_some_iff`, `accumulate_singleton_eq_error_iff`,
`accumulate_eq_error_iff`, `readsNumerals`.
-/

namespace LC3
namespace Literal

/-- The character is this digit, a letter in either case. -/
def IsDigit (radix : Nat) (c : Char) (d : Nat) : Prop :=
  d < radix ∧ (c = Nat.digitChar d ∨ c = (Nat.digitChar d).toUpper)

instance (radix : Nat) (c : Char) (d : Nat) : Decidable (IsDigit radix c d) :=
  inferInstanceAs (Decidable (_ ∧ _))

/-- Digits, the first of which counts most, and the number that they are. -/
def Magnitude (radix : Nat) (text : List Char) (n : Nat) : Prop :=
  text ≠ [] ∧ ∃ digits, List.Forall₂ (IsDigit radix) text digits ∧
    n = Nat.ofDigits radix digits.reverse

theorem IsDigit.digit? {radix d : Nat} {c : Char} (h : IsDigit radix c d)
    (small : radix ≤ 16) : Numeral.digit? radix c = some d := by
  obtain ⟨below, same⟩ := h
  have bound : d < 16 := Nat.lt_of_lt_of_le below small
  interval_cases d
  all_goals
    rcases same with rfl | rfl
    all_goals exact if_pos below

end Literal

namespace Numeral

open Literal (IsDigit Magnitude)

/-- Behind these characters this one ends the reading of digits: it is none, or with it the number
reaches 2 to the 63rd. -/
inductive Stops (radix : Nat) (before : List Char) (c : Char) : CodecError → Prop
  | invalid (other : ∀ d, ¬ IsDigit radix c d) : Stops radix before c (.invalidDigit c radix)
  | overflow {n} (number : Magnitude radix (before ++ [c]) n) (large : 2 ^ 63 ≤ n) :
      Stops radix before c (.overflow 0x7FFFFFFFFFFFFFFF 64 .signed)

/-- No character of the text ends the reading of it. -/
def Unstopped (radix : Nat) (text : List Char) : Prop :=
  ∀ before c after e, text = before ++ c :: after → ¬ Stops radix before c e

/-- What becomes of a text that is read as digits. -/
structure ReadsDigits (radix : Nat) (text : List Char) : Prop where
  empty : text = [] → value radix text = .error .empty
  /-- The error is that of the first character that ends the reading. -/
  stopped : text ≠ [] → ∀ e, value radix text = .error e ↔
    ∃ before c after, text = before ++ c :: after ∧ Unstopped radix before ∧ Stops radix before c e
  /-- A text in which there is none has a number, and that is what is read. -/
  whole : text ≠ [] → Unstopped radix text →
    ∃ n, Magnitude radix text n ∧ n < 2 ^ 63 ∧ value radix text = .ok n
  read : ∀ n, value radix text = .ok n ↔ Magnitude radix text n ∧ n < 2 ^ 63

variable {radix v n d : Nat} {c : Char} {text before mark body : List Char} {digits : List Nat}
  {e : CodecError}

theorem toNat_digitChar_of_ten_le (large : 10 ≤ d) (bound : d < 16) :
    (Nat.digitChar d).toNat = 87 + d ∧ (Nat.digitChar d).toUpper.toNat = 55 + d := by
  interval_cases d
  all_goals exact ⟨rfl, rfl⟩

/-- The range that a character is in says how far its number is from the digit. -/
theorem isDigit_of_digit? (small : radix ≤ 16) (read : digit? radix c = some d) :
    IsDigit radix c d := by
  simp only [digit?, Option.ite_none_right_eq_some, Option.some.injEq] at read
  obtain ⟨below, value⟩ := read
  rw [value] at below
  have bound : d < 16 := Nat.lt_of_lt_of_le below small
  refine ⟨below, ?_⟩
  split at value
  · next range =>
      have least : 48 ≤ c.toNat := range.1
      have most : c.toNat ≤ 57 := range.2
      change c.toNat - 48 = d at value
      left
      apply Char.toNat_inj.mp
      rw [Nat.toNat_digitChar_of_lt_ten (by omega)]
      omega
  · split at value
    · next range =>
        have least : 97 ≤ c.toNat := range.1
        change c.toNat - 97 + 10 = d at value
        left
        apply Char.toNat_inj.mp
        rw [(toNat_digitChar_of_ten_le (by omega) bound).1]
        omega
    · split at value
      · next range =>
          have least : 65 ≤ c.toNat := range.1
          change c.toNat - 65 + 10 = d at value
          right
          apply Char.toNat_inj.mp
          rw [(toNat_digitChar_of_ten_le (by omega) bound).2]
          omega
      · exact absurd below (value ▸ Nat.lt_irrefl _)

theorem digit?_eq_some_iff (small : radix ≤ 16) : digit? radix c = some d ↔ IsDigit radix c d :=
  ⟨isDigit_of_digit? small, fun own => own.digit? small⟩

theorem not_spells_cons (none : digit? radix c = none) : ¬ Spells radix (c :: text) digits := by
  rintro ⟨⟩
  simp_all

theorem Spells.unique {others : List Nat} (h : Spells radix text digits)
    (h' : Spells radix text others) : digits = others :=
  Relator.RightUnique.forall₂ (fun _ _ _ read read' => Option.some.inj (read.symm.trans read')) h h'

theorem positional_eq_ofDigits (radix : Nat) (digits : List Nat) :
    positional radix 0 digits = Nat.ofDigits radix digits.reverse := by
  simp only [positional, Nat.ofDigits_eq_foldr, List.foldr_reverse, Nat.cast_id, Nat.mul_comm,
    Nat.add_comm]

theorem magnitude_iff (small : radix ≤ 16) : Magnitude radix text n ↔
    text ≠ [] ∧ ∃ digits, Spells radix text digits ∧ n = positional radix 0 digits := by
  simp only [Magnitude, Spells, digit?_eq_some_iff small, positional_eq_ofDigits]

/-- Behind a number that has been read, a digit counts one and the number the radix. -/
theorem magnitude_concat_iff (pos : 0 < radix) (small : radix ≤ 16)
    (read : accumulate radix 0 before = .ok v) (digit : digit? radix c = some d) :
    Magnitude radix (before ++ [c]) n ↔ n = v * radix + d := by
  obtain ⟨digits, spelled, rfl, -⟩ := (accumulate_eq_ok_iff pos (by decide)).mp read
  have own : Spells radix (before ++ [c]) (digits ++ [d]) :=
    List.rel_append spelled (.cons digit .nil)
  have value : positional radix 0 (digits ++ [d]) = positional radix 0 digits * radix + d := by
    simp only [positional, List.foldl_append, List.foldl_cons, List.foldl_nil]
  rw [magnitude_iff small, ← value]
  constructor
  · rintro ⟨-, others, spelled', rfl⟩
    rw [own.unique spelled']
  · rintro rfl
    exact ⟨by simp, _, own, rfl⟩

theorem unstopped_nil : Unstopped radix [] := by
  intro before c after e split
  cases before <;> cases split

theorem unstopped_concat : Unstopped radix (text ++ [c]) ↔
    Unstopped radix text ∧ ∀ e, ¬ Stops radix text c e := by
  constructor
  · intro none
    constructor
    · intro before d after e split
      exact none before d (after ++ [c]) e (by simp [split])
    · intro e
      exact none text c [] e rfl
  · rintro ⟨none, last⟩ before d after e split
    obtain rfl | ⟨after, x, rfl⟩ := after.eq_nil_or_concat'
    · obtain ⟨rfl, same⟩ := List.append_inj' split rfl
      cases same
      exact last e
    · rw [← List.cons_append, ← List.append_assoc] at split
      obtain ⟨rfl, -⟩ := List.append_inj' split rfl
      exact none before d after e rfl

theorem accumulate_append (radix v : Nat) (before after : List Char) :
    accumulate radix v (before ++ after) =
      accumulate radix v before >>= fun n => accumulate radix n after := by
  induction before generalizing v with
  | nil => rw [accumulate, Stage.ok_bind, List.nil_append]
  | cons c before ih =>
      rw [List.cons_append, accumulate, accumulate]
      cases digit? radix c with
      | none => rfl
      | some d =>
          dsimp only
          split
          · exact ih _
          · rfl

/-- One more character is refused behind a number exactly where it ends the reading. -/
theorem accumulate_singleton_eq_error_iff (pos : 0 < radix) (small : radix ≤ 16)
    (read : accumulate radix 0 before = .ok v) :
    accumulate radix v [c] = .error e ↔ Stops radix before c e := by
  rw [accumulate]
  cases digit : digit? radix c with
  | none =>
      have other (d : Nat) : ¬ IsDigit radix c d := by
        intro own
        rw [(digit?_eq_some_iff small).mpr own] at digit
        cases digit
      constructor
      · rintro ⟨⟩
        exact .invalid other
      · rintro (_ | ⟨number, -⟩)
        · rfl
        · obtain ⟨-, digits, spelled, -⟩ := number
          obtain ⟨d, -, own⟩ := Stage.exists_of_forall₂_left spelled (x := c) (by simp)
          exact absurd own (other d)
  | some d =>
      have own : IsDigit radix c d := (digit?_eq_some_iff small).mp digit
      have number {n : Nat} : Magnitude radix (before ++ [c]) n ↔ n = v * radix + d :=
        magnitude_concat_iff pos small read digit
      dsimp only
      split
      · next below =>
          refine iff_of_false (fun refused => by cases refused) ?_
          rintro (other | ⟨whole, large⟩)
          · exact other d own
          · rw [number.mp whole] at large
            exact absurd below (Nat.not_lt.mpr large)
      · next above =>
          constructor
          · rintro ⟨⟩
            exact .overflow (number.mpr rfl) (Nat.le_of_not_lt above)
          · rintro (other | -)
            · exact absurd own (other d)
            · rfl

theorem exists_accumulate_iff (pos : 0 < radix) (small : radix ≤ 16) :
    (∃ n, accumulate radix 0 text = .ok n) ↔ Unstopped radix text := by
  induction text using List.reverseRecOn with
  | nil => exact iff_of_true ⟨0, rfl⟩ unstopped_nil
  | append_singleton text c ih =>
      rw [unstopped_concat, ← ih, accumulate_append]
      constructor
      · rintro ⟨n, read⟩
        obtain ⟨v, first, last⟩ := Stage.bind_eq_ok.mp read
        refine ⟨⟨v, first⟩, ?_⟩
        intro e stops
        rw [(accumulate_singleton_eq_error_iff pos small first).mpr stops] at last
        cases last
      · rintro ⟨⟨v, first⟩, last⟩
        rw [first, Stage.ok_bind]
        cases step : accumulate radix v [c] with
        | error e =>
            have stops := (accumulate_singleton_eq_error_iff pos small first).mp step
            exact absurd stops (last e)
        | ok n => exact ⟨n, rfl⟩

/-- What is wrong with a text is the first character that ends the reading. -/
theorem accumulate_eq_error_iff (pos : 0 < radix) (small : radix ≤ 16) :
    accumulate radix 0 text = .error e ↔ ∃ before c after, text = before ++ c :: after ∧
      Unstopped radix before ∧ Stops radix before c e := by
  constructor
  · intro refused
    induction text using List.reverseRecOn with
    | nil => cases refused
    | append_singleton text c ih =>
        rw [accumulate_append, Stage.bind_eq_error] at refused
        rcases refused with earlier | ⟨v, first, last⟩
        · obtain ⟨before, d, after, rfl, none, stops⟩ := ih earlier
          exact ⟨before, d, after ++ [c], by simp, none, stops⟩
        · have none := (exists_accumulate_iff pos small).mp ⟨v, first⟩
          have stops := (accumulate_singleton_eq_error_iff pos small first).mp last
          exact ⟨text, c, [], rfl, none, stops⟩
  · rintro ⟨before, c, after, rfl, none, stops⟩
    obtain ⟨v, first⟩ := (exists_accumulate_iff pos small).mpr none
    have last := (accumulate_singleton_eq_error_iff pos small first).mpr stops
    rw [List.append_cons, accumulate_append, accumulate_append, first, Stage.ok_bind, last]
    rfl

theorem value_of_ne_nil (some : text ≠ []) : value radix text = accumulate radix 0 text :=
  if_neg (by simpa using some)

theorem value_eq_ok_iff_magnitude (pos : 0 < radix) (small : radix ≤ 16) :
    value radix text = .ok n ↔ Magnitude radix text n ∧ n < 2 ^ 63 := by
  rw [value_eq_ok_iff pos, magnitude_iff small]
  constructor
  · rintro ⟨some, digits, spelled, value, below⟩
    exact ⟨⟨some, digits, spelled, value⟩, below⟩
  · rintro ⟨⟨some, digits, spelled, value⟩, below⟩
    exact ⟨some, digits, spelled, value, below⟩

theorem readsDigits (pos : 0 < radix) (small : radix ≤ 16) (text : List Char) :
    ReadsDigits radix text where
  empty := by
    rintro rfl
    rfl
  stopped some e := by
    rw [value_of_ne_nil some]
    exact accumulate_eq_error_iff pos small
  whole some none := by
    obtain ⟨n, read⟩ := (exists_accumulate_iff pos small).mpr none
    rw [← value_of_ne_nil some] at read
    obtain ⟨number, below⟩ := (value_eq_ok_iff_magnitude pos small).mp read
    exact ⟨n, number, below, read⟩
  read n := value_eq_ok_iff_magnitude pos small

theorem exists_hexMark (text : List Char) :
    ∃ mark ∈ [[], ['x'], ['X'], ['0', 'x'], ['0', 'X']], text = mark ++ dropHexPrefix text := by
  unfold dropHexPrefix
  split
  · exact ⟨['0', 'x'], by simp, rfl⟩
  · exact ⟨['0', 'X'], by simp, rfl⟩
  · exact ⟨['x'], by simp, rfl⟩
  · exact ⟨['X'], by simp, rfl⟩
  · exact ⟨[], by simp, rfl⟩

/-- No mark is dropped from a text of digits: that of a zero and a letter has a letter that is no
digit. -/
theorem dropHexPrefix_of_spells (spelled : Spells 16 text digits) : dropHexPrefix text = text := by
  unfold dropHexPrefix
  split
  · obtain _ | ⟨-, rest⟩ := spelled
    exact absurd rest (not_spells_cons rfl)
  · obtain _ | ⟨-, rest⟩ := spelled
    exact absurd rest (not_spells_cons rfl)
  · exact absurd spelled (not_spells_cons rfl)
  · exact absurd spelled (not_spells_cons rfl)
  · rfl

theorem dropHexPrefix_append (marked : mark ∈ [[], ['x'], ['X'], ['0', 'x'], ['0', 'X']])
    (bare : dropHexPrefix body = body) : dropHexPrefix (mark ++ body) = body := by
  simp only [List.mem_cons, List.not_mem_nil, or_false] at marked
  rcases marked with rfl | rfl | rfl | rfl | rfl
  · exact bare
  · rfl
  · rfl
  · rfl
  · rfl

end Numeral

theorem Word.ofHex?_eq_ok_iff {text : List Char} {w : Word} : Word.ofHex? text = .ok w ↔
    ∃ mark ∈ [[], ['x'], ['X'], ['0', 'x'], ['0', 'X']], ∃ body n, text = mark ++ body ∧
      Literal.Magnitude 16 body n ∧ n ≤ 0xFFFF ∧ w.toNat = n := by
  have value {digits : List Char} {n : Nat} :
      Numeral.value 16 digits = .ok n ↔ Literal.Magnitude 16 digits n ∧ n < 2 ^ 63 :=
    Numeral.value_eq_ok_iff_magnitude (by decide) (by decide)
  simp only [Word.ofHex?, Stage.bind_eq_ok, value, Word.encode_natCast_eq_ok_iff]
  constructor
  · rintro ⟨n, ⟨number, -⟩, same⟩
    obtain ⟨mark, marked, whole⟩ := Numeral.exists_hexMark text
    have word := w.isLt
    exact ⟨mark, marked, _, n, whole, number, by omega, same⟩
  · rintro ⟨mark, marked, body, n, rfl, number, fits, same⟩
    obtain ⟨-, digits, spelled, -⟩ := (Numeral.magnitude_iff (by decide)).mp number
    rw [Numeral.dropHexPrefix_append marked (Numeral.dropHexPrefix_of_spells spelled)]
    exact ⟨n, ⟨number, by omega⟩, same⟩

/-- How texts are read as numbers: digits of a radix, and words in hexadecimal. -/
structure ReadsNumerals (text : List Char) : Prop where
  digits : ∀ radix ∈ [2, 10, 16], Numeral.ReadsDigits radix text
  hexadecimal : ∀ w, Word.ofHex? text = .ok w ↔
    ∃ mark ∈ [[], ['x'], ['X'], ['0', 'x'], ['0', 'X']], ∃ body n, text = mark ++ body ∧
      Literal.Magnitude 16 body n ∧ n ≤ 0xFFFF ∧ w.toNat = n

theorem readsNumerals (text : List Char) : ReadsNumerals text where
  digits radix usual := by
    have bounds : 0 < radix ∧ radix ≤ 16 := by
      simp only [List.mem_cons, List.not_mem_nil, or_false] at usual
      omega
    exact Numeral.readsDigits bounds.1 bounds.2 text
  hexadecimal w := Word.ofHex?_eq_ok_iff

/-- A zero and a mark are a mark and no digits; a mark and a zero are a number. -/
example : Word.ofHex? ['0', 'x'] = .error .empty ∧ Word.ofHex? ['x', '0'] = .ok 0 := by decide

end LC3
