import Mathlib
import LC3.Word.Numeral
import LC3.Proofs.Stage

/-!
Numerals and their values. A text of digits has its positional value, as long as that is below the
limit, so a number written in decimal and a word written in hexadecimal are read back. Main
statements: `value_eq_ok_iff`, `value_toDigits`, `value_hexDigits`.
-/

namespace LC3
namespace Numeral

variable {radix v n : Nat} {text : List Char} {digits : List Nat}

/-- The value of digits that follow a prefix of value `v`. -/
def positional (radix v : Nat) (digits : List Nat) : Nat :=
  digits.foldl (fun v d => v * radix + d) v

/-- The characters of the text are these digits. -/
def Spells (radix : Nat) : List Char → List Nat → Prop :=
  List.Forall₂ fun c d => digit? radix c = some d

theorem le_positional (pos : 0 < radix) : v ≤ positional radix v digits := by
  induction digits generalizing v with
  | nil => exact Nat.le_refl v
  | cons d rest ih =>
      calc v ≤ v * radix := Nat.le_mul_of_pos_right v pos
        _ ≤ v * radix + d := Nat.le_add_right ..
        _ ≤ positional radix v (d :: rest) := ih

/-- The value never falls, so a prefix that has reached the limit stays there. -/
theorem accumulate_eq_ok_iff (pos : 0 < radix) (small : v < limit) :
    accumulate radix v text = .ok n ↔
      ∃ digits, Spells radix text digits ∧ n = positional radix v digits ∧ n < limit := by
  induction text generalizing v with
  | nil =>
      simp only [accumulate, Except.ok.injEq, Spells, List.forall₂_nil_left_iff, exists_eq_left,
        positional, List.foldl_nil]
      constructor
      · rintro rfl
        exact ⟨rfl, small⟩
      · rintro ⟨rfl, -⟩
        rfl
  | cons c rest ih =>
      simp only [accumulate, Spells, List.forall₂_cons_left_iff]
      cases digit : digit? radix c with
      | none => simp
      | some d =>
          by_cases below : v * radix + d < limit
          · simp only [below, if_true, ih below]
            constructor
            · rintro ⟨digits, spelled, value⟩
              exact ⟨d :: digits, ⟨d, digits, rfl, spelled, rfl⟩, value⟩
            · rintro ⟨_, ⟨d', digits, same, spelled, rfl⟩, value⟩
              cases same
              exact ⟨digits, spelled, value⟩
          · simp only [below, if_false, reduceCtorEq, false_iff]
            rintro ⟨_, ⟨d', digits, same, -, rfl⟩, rfl, fits⟩
            cases same
            exact below (Nat.lt_of_le_of_lt (le_positional pos) fits)

/-- A text has a value where it is some digits, and the value is the positional one. -/
theorem value_eq_ok_iff (pos : 0 < radix) :
    value radix text = .ok n ↔ text ≠ [] ∧
      ∃ digits, Spells radix text digits ∧ n = positional radix 0 digits ∧ n < limit := by
  cases text with
  | nil => simp [value]
  | cons c rest =>
      simp only [value, List.isEmpty_cons, Bool.false_eq_true, if_false, ne_eq, reduceCtorEq,
        not_false_eq_true, true_and]
      exact accumulate_eq_ok_iff pos (by decide)

theorem digit?_of_isDigit {c : Char} (h : c.isDigit = true) :
    digit? 10 c = some (c.toNat - '0'.toNat) := by
  have range : '0' ≤ c ∧ c ≤ '9' := by
    simpa [Char.isDigit, Char.le_def] using h
  have small : c.toNat - '0'.toNat < 10 := by
    have high : c.toNat ≤ 57 := range.2
    change c.toNat - 48 < 10
    omega
  simp only [digit?, range, and_self, if_true, small]

theorem spells_toDigits (n : Nat) :
    Spells 10 (Nat.toDigits 10 n) ((Nat.toDigits 10 n).map fun c => c.toNat - '0'.toNat) := by
  rw [Spells, List.forall₂_map_right_iff, List.forall₂_same]
  intro c member
  exact digit?_of_isDigit (Nat.isDigit_of_mem_toDigits (by decide) (by decide) member)

theorem value_toDigits (small : n < limit) : value 10 (Nat.toDigits 10 n) = .ok n := by
  refine (value_eq_ok_iff (by decide)).mpr
    ⟨Nat.toDigits_ne_nil, _, spells_toDigits n, ?_, small⟩
  calc n = Nat.ofDigitChars 10 (Nat.toDigits 10 n) 0 :=
        (Nat.ofDigitChars_toDigits (by decide) (by decide)).symm
    _ = positional 10 0 ((Nat.toDigits 10 n).map fun c => c.toNat - '0'.toNat) := by
        simp only [Nat.ofDigitChars_eq_foldl, positional, List.foldl_map, Nat.mul_comm]

@[simp] theorem digit?_hexDigit (nibble : BitVec 4) :
    digit? 16 (hexDigit nibble) = some nibble.toNat := by
  revert nibble
  decide

theorem value_hexDigits (w : Word) : value 16 w.hexDigits = .ok w.toNat := by
  refine (value_eq_ok_iff (by decide)).mpr
    ⟨by simp [Word.hexDigits], [12, 8, 4, 0].map fun low => (w.extractLsb' low 4).toNat, ?_, ?_, ?_⟩
  · rw [Spells, Word.hexDigits, List.forall₂_map_left_iff, List.forall₂_map_right_iff,
      List.forall₂_same]
    exact fun low _ => digit?_hexDigit _
  · simp only [positional, List.map_cons, List.map_nil, List.foldl_cons, List.foldl_nil,
      BitVec.extractLsb'_toNat, Nat.shiftRight_eq_div_pow]
    have := w.isLt
    omega
  · exact Nat.lt_trans w.isLt (by decide)

end Numeral
end LC3
