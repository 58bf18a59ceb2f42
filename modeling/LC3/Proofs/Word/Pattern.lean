import Mathlib
import LC3.Word.Field

/-!
Patterns of a width and the numbers they denote. Within the bounds of the width, encoding and
decoding are inverse to each other. Main statements: `decode_of_encode`, `encode_decode`, and for
fields inside a word `extract_eq_iff`.
-/

namespace LC3
namespace Word

theorem toNat_mem_of_le (w : Word) {i : Interval} (low : i.min ≤ 0) (high : 0xFFFF ≤ i.max) :
    (w.toNat : Int) ∈ i := by
  have := w.isLt
  exact Interval.mem_iff.mpr ⟨by omega, by omega⟩

theorem ofInt_toNat (w : Word) : BitVec.ofInt 16 w.toNat = w := by
  rw [BitVec.ofInt_natCast, BitVec.ofNat_toNat, BitVec.setWidth_eq]

end Word

namespace Width

variable {w : Width} {s : Signedness}

theorem ofNat?_eq_ok_iff {bits : Nat} : ofNat? bits = .ok w ↔ w.bits = bits := by
  constructor
  · intro read
    rw [ofNat?] at read
    split at read
    · cases read
      rfl
    · cases read
  · rintro rfl
    exact dif_pos ⟨w.pos, w.le_word⟩

theorem natCast_count (w : Width) : (w.count : Int) = 2 ^ w.bits := by
  simp [count, Nat.one_shiftLeft]

theorem natCast_count_half (w : Width) : ((w.count / 2 : Nat) : Int) = 2 ^ (w.bits - 1) := by
  have double : w.count = 2 ^ (w.bits - 1) * 2 := by
    rw [count, Nat.one_shiftLeft, Nat.two_pow_pred_mul_two w.pos]
  rw [double, Nat.mul_div_cancel _ (by decide)]
  simp

theorem mem_bounds_unsigned {v : Int} : v ∈ w.bounds .unsigned ↔ 0 ≤ v ∧ v < 2 ^ w.bits := by
  simp only [Interval.mem_iff, bounds, natCast_count]
  omega

theorem mem_bounds_signed {v : Int} :
    v ∈ w.bounds .signed ↔ -2 ^ (w.bits - 1) ≤ v ∧ v < 2 ^ (w.bits - 1) := by
  simp only [Interval.mem_iff, bounds, natCast_count_half]
  omega

theorem setWidth_setWidth_bits (w : Width) (x : BitVec w.bits) :
    (x.setWidth 16).setWidth w.bits = x := by
  rw [BitVec.setWidth_setWidth_of_le x w.le_word, BitVec.setWidth_eq]

theorem encode_eq_ok_iff {v : Int} {word : Word} :
    w.encode s v = .ok word ↔ v ∈ w.bounds s ∧ word = (BitVec.ofInt w.bits v).setWidth 16 := by
  unfold encode
  split
  · next h => simp only [h, true_and, Except.ok.injEq, eq_comm]
  · next h => simp only [h, false_and, reduceCtorEq]

theorem encode_eq_error_iff {v : Int} {e : CodecError} :
    w.encode s v = .error e ↔ v ∉ w.bounds s ∧ e = .overflow v w.bits s := by
  unfold encode
  split
  · next h => simp only [h, not_true_eq_false, false_and, reduceCtorEq]
  · next h => simp only [h, not_false_eq_true, true_and, Except.error.injEq, eq_comm]

theorem decode_mem_bounds (w : Width) (s : Signedness) (word : Word) :
    w.decode s word ∈ w.bounds s := by
  cases s with
  | unsigned =>
      have below : ((word.setWidth w.bits).toNat : Int) < 2 ^ w.bits := by
        exact_mod_cast (word.setWidth w.bits).isLt
      exact mem_bounds_unsigned.mpr ⟨Int.natCast_nonneg _, below⟩
  | signed => exact mem_bounds_signed.mpr ⟨BitVec.le_toInt _, BitVec.toInt_lt⟩

/-- A number that some signed field can denote is denoted by a whole word too. -/
theorem toInt_ofInt_of_mem_bounds {v : Int} (within : v ∈ w.bounds .signed) :
    (BitVec.ofInt 16 v).toInt = v := by
  obtain ⟨low, high⟩ := mem_bounds_signed.mp within
  have narrow : (2 : Int) ^ (w.bits - 1) ≤ 2 ^ 15 :=
    pow_le_pow_right₀ (by decide) (by have := w.le_word; omega)
  exact BitVec.toInt_ofInt_eq_self (by decide) (by simp only [Nat.reduceSub]; omega)
    (by simp only [Nat.reduceSub]; omega)

theorem decode_of_encode {v : Int} {word : Word} (h : w.encode s v = .ok word) :
    w.decode s word = v := by
  obtain ⟨within, rfl⟩ := encode_eq_ok_iff.mp h
  cases s with
  | unsigned =>
      obtain ⟨low, high⟩ := mem_bounds_unsigned.mp within
      have small : v % ((2 ^ w.bits : Nat) : Int) = v := by
        exact Int.emod_eq_of_lt low (by exact_mod_cast high)
      simp only [decode, setWidth_setWidth_bits, BitVec.toNat_ofInt, small]
      exact Int.toNat_of_nonneg low
  | signed =>
      obtain ⟨low, high⟩ := mem_bounds_signed.mp within
      simp only [decode, setWidth_setWidth_bits]
      exact BitVec.toInt_ofInt_eq_self w.pos low high

theorem encode_decode (w : Width) (s : Signedness) (word : Word) :
    w.encode s (w.decode s word) = .ok ((word.setWidth w.bits).setWidth 16) := by
  refine encode_eq_ok_iff.mpr ⟨decode_mem_bounds w s word, ?_⟩
  cases s with
  | unsigned => simp only [decode, BitVec.ofInt_natCast, BitVec.ofNat_toNat, BitVec.setWidth_eq]
  | signed => simp only [decode, BitVec.ofInt_toInt]

/-- A word without bits above the width is the pattern of what it denotes. -/
theorem encode_decode_of_narrow {word : Word} (narrow : ∀ i, w.bits ≤ i → word.getLsbD i = false) :
    w.encode s (w.decode s word) = .ok word := by
  rw [encode_decode]
  congr 1
  apply BitVec.eq_of_getLsbD_eq
  intro i hi
  by_cases h : i < w.bits
  · simp [h, hi]
  · simp [h, narrow i (Nat.le_of_not_lt h)]

theorem getLsbD_of_encode {v : Int} {word : Word} (h : w.encode s v = .ok word) {i : Nat}
    (above : w.bits ≤ i) : word.getLsbD i = false := by
  obtain ⟨-, rfl⟩ := encode_eq_ok_iff.mp h
  simp only [BitVec.getLsbD_setWidth, BitVec.getLsbD_of_ge _ i above, Bool.and_false]

end Width

theorem Word.encode_natCast_eq_ok_iff {word : Word} {n : Nat} :
    Width.encode 16 .unsigned n = .ok word ↔ word.toNat = n := by
  have whole : Width.decode 16 .unsigned word = word.toNat := by
    rw [Width.decode]
    exact_mod_cast congrArg BitVec.toNat (BitVec.setWidth_eq word)
  constructor
  · intro written
    have same := Width.decode_of_encode written
    rw [whole] at same
    exact_mod_cast same
  · rintro rfl
    rw [← whole]
    exact Width.encode_decode_of_narrow fun i above => BitVec.getLsbD_of_ge word i above

namespace BitRange

theorem getLsbD_extract (r : BitRange) (word : Word) (i : Nat) :
    (r.extract .unsigned word).getLsbD i =
      (decide (i < r.width.bits) && word.getLsbD (r.low + i)) := by
  have fits := r.width.le_word
  simp only [extract, BitVec.getLsbD_setWidth, BitVec.getLsbD_ushiftRight]
  by_cases h : i < r.width.bits
  · simp [h, show i < 16 by omega]
  · simp [h]

theorem getLsbD_extract_sub {r : BitRange} {i : Nat} (word : Word) (low : r.low ≤ i)
    (high : i ≤ r.high) : (r.extract .unsigned word).getLsbD (i - r.low) = word.getLsbD i := by
  have inside : i - r.low < r.width.bits := by simp only [width]; omega
  rw [getLsbD_extract, decide_eq_true inside, Bool.true_and, Nat.add_sub_cancel' low]

/-- A field is equal to a value of its width exactly where they agree bit by bit. -/
theorem extract_eq_iff {r : BitRange} {word value : Word}
    (narrow : ∀ i, r.width.bits ≤ i → value.getLsbD i = false) :
    r.extract .unsigned word = value ↔
      ∀ i, r.low ≤ i → i ≤ r.high → word.getLsbD i = value.getLsbD (i - r.low) := by
  have ordered := r.low_le_high
  constructor
  · rintro rfl i low high
    exact (getLsbD_extract_sub word low high).symm
  · intro same
    apply BitVec.eq_of_getLsbD_eq
    intro i _
    rw [getLsbD_extract]
    by_cases h : i < r.width.bits
    · have inside : r.low + i ≤ r.high := by simp only [width] at h; omega
      rw [decide_eq_true h, Bool.true_and, same _ (Nat.le_add_right _ _) inside,
        Nat.add_sub_cancel_left]
    · rw [decide_eq_false h, Bool.false_and, narrow i (Nat.le_of_not_lt h)]

end BitRange
end LC3
