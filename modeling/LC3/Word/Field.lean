import LC3.Word.Codec

/-!
Fields inside a word. Bit 15 is the most significant, and a field is the inclusive range of bits
from `high` down to `low`. Reading shifts the field down. Main statement: `getLsbD_insert`, writing
changes the bits of the field to those of the value and leaves every other bit alone.
-/

namespace LC3

/-- The bits `high` down to `low` of a word, both included. -/
structure BitRange where
  high : Nat
  low : Nat
  low_le_high : low ≤ high := by decide
  high_lt : high < 16 := by decide
  deriving DecidableEq

namespace BitRange

def ofBits? (high low : Nat) : Except BitError BitRange :=
  if h : low ≤ high ∧ high < 16 then .ok ⟨high, low, h.1, h.2⟩ else .error (.range high low)

def width (r : BitRange) : Width :=
  ⟨r.high - r.low + 1, by omega, by have := r.high_lt; omega⟩

/-- Ones in the field and zeros elsewhere. -/
def mask (r : BitRange) : Word := (BitVec.allOnes r.width.bits).setWidth 16 <<< r.low

/-- The field, shifted down and extended to a word. -/
def extract (r : BitRange) (s : Signedness) (word : Word) : Word :=
  match s with
  | .unsigned => ((word >>> r.low).setWidth r.width.bits).setWidth 16
  | .signed => r.width.signExtend (word >>> r.low)

/-- The word with the low bits of `value` written into the field. -/
def insert (r : BitRange) (word value : Word) : Word :=
  (word &&& ~~~r.mask) ||| ((value <<< r.low) &&& r.mask)

theorem getLsbD_mask (r : BitRange) (i : Nat) :
    r.mask.getLsbD i = decide (r.low ≤ i ∧ i ≤ r.high) := by
  have h := r.low_le_high
  have := r.high_lt
  simp only [mask, width, BitVec.getLsbD_shiftLeft, BitVec.getLsbD_setWidth, BitVec.getLsbD_allOnes]
  rw [Bool.eq_iff_iff]
  simp only [Bool.and_eq_true, Bool.not_eq_true', decide_eq_true_eq, decide_eq_false_iff_not]
  omega

/-- Writing a field changes its own bits and no others. -/
theorem getLsbD_insert (r : BitRange) (word value : Word) (i : Nat) :
    (r.insert word value).getLsbD i =
      if r.low ≤ i ∧ i ≤ r.high then value.getLsbD (i - r.low) else word.getLsbD i := by
  have hh := r.high_lt
  simp only [insert, BitVec.getLsbD_or, BitVec.getLsbD_and, BitVec.getLsbD_not,
    BitVec.getLsbD_shiftLeft, getLsbD_mask]
  by_cases h : r.low ≤ i ∧ i ≤ r.high
  · simp [h, show i < 16 by omega, show ¬ i < r.low by omega]
  · by_cases h16 : i < 16
    · simp [h, h16]
    · simp [h, h16, BitVec.getLsbD_of_ge word i (Nat.le_of_not_lt h16)]

end BitRange
end LC3
