import LC3.Proofs.Word.Pattern

/-!
Fields of a width as masks. Encoding keeps the bits under the mask, and a sign is extended by the
negative of the sign bit; so the numbers within the bounds and the patterns of the width correspond
one to one, at every width alike. Main statements: `signExtend_eq_or`, `signExtend_eq_iff`,
`bijects`.
-/

namespace LC3
namespace Width

variable {w : Width} {s : Signedness} {v : Int} {word x : Word}

/-- Ones in the field and zeros above it. -/
def mask (w : Width) : Word := BitVec.ofNat 16 (w.count - 1)

/-- The highest bit of the field. -/
def signBit (w : Width) : Word := 1#16 <<< (w.bits - 1)

theorem getLsbD_mask (w : Width) (i : Nat) : w.mask.getLsbD i = decide (i < w.bits) := by
  have fits := w.le_word
  rw [mask, count, Nat.one_shiftLeft, BitVec.getLsbD_ofNat, Nat.testBit_two_pow_sub_one]
  by_cases inside : i < w.bits
  · simp [inside, show i < 16 by omega]
  · simp [inside]

theorem and_mask (w : Width) (word : Word) :
    word &&& w.mask = (word.setWidth w.bits).setWidth 16 := by
  apply BitVec.eq_of_getLsbD_eq
  intro i inside
  rw [BitVec.getLsbD_and, getLsbD_mask]
  simp [inside, Bool.and_comm]

theorem toNat_and_mask (w : Width) (word : Word) :
    (word &&& w.mask).toNat = word.toNat % 2 ^ w.bits := by
  rw [and_mask, BitVec.toNat_setWidth_of_le w.le_word, BitVec.toNat_setWidth]

/-- The negative of the highest bit, where the word has it, is ones from there on. -/
theorem getLsbD_neg_and_signBit (w : Width) (word : Word) {i : Nat} (inside : i < 16) :
    (-(word &&& w.signBit)).getLsbD i =
      (decide (w.bits - 1 ≤ i) && word.getLsbD (w.bits - 1)) := by
  have pos := w.pos
  have fits := w.le_word
  have alone : word &&& w.signBit =
      if word.getLsbD (w.bits - 1) then BitVec.twoPow 16 (w.bits - 1) else 0 :=
    BitVec.and_twoPow word (w.bits - 1)
  rw [alone]
  cases word.getLsbD (w.bits - 1) with
  | false => simp
  | true =>
      have earlier : (∃ j < i, (BitVec.twoPow 16 (w.bits - 1)).getLsbD j = true) ↔
          w.bits - 1 < i := by
        simp [show w.bits - 1 < 16 by omega]
      simp only [if_true, BitVec.getLsbD_neg, earlier]
      rcases Nat.lt_trichotomy (w.bits - 1) i with below | same | above
      · simp [inside, below, below.ne', below.le]
      · simp [inside, same]
      · simp [above.ne', Nat.lt_asymm above, Nat.not_le.mpr above]

/-- A sign is extended by the masked bits with the negative of the highest one over them. -/
theorem signExtend_eq_or (w : Width) (word : Word) :
    w.signExtend word = word &&& w.mask ||| ~~~(word &&& w.signBit) + 1 := by
  have pos := w.pos
  have sign : (word.setWidth w.bits).msb = word.getLsbD (w.bits - 1) := by
    rw [BitVec.msb_eq_getLsbD_last, BitVec.getLsbD_setWidth, decide_eq_true (by omega),
      Bool.true_and]
  have negative : ~~~(word &&& w.signBit) + 1 = -(word &&& w.signBit) :=
    (BitVec.neg_eq_not_add _).symm
  apply BitVec.eq_of_getLsbD_eq
  intro i inside
  rw [signExtend, BitVec.getLsbD_signExtend, sign, BitVec.getLsbD_setWidth, negative,
    BitVec.getLsbD_or, BitVec.getLsbD_and, getLsbD_mask, getLsbD_neg_and_signBit w word inside]
  by_cases own : i < w.bits
  · by_cases top : i = w.bits - 1
    · subst top
      simp [own, inside]
    · simp [own, inside, show ¬ w.bits - 1 ≤ i by omega]
  · simp [own, inside, show w.bits - 1 ≤ i by omega]

/-- A number and its low bits as a word have the same pattern. -/
theorem setWidth_ofInt (w : Width) (v : Int) :
    (BitVec.ofInt 16 v).setWidth w.bits = BitVec.ofInt w.bits v := by
  have divides : ((2 ^ w.bits : Nat) : Int) ∣ (2 ^ 16 : Nat) :=
    Int.natCast_dvd_natCast.mpr (Nat.pow_dvd_pow 2 w.le_word)
  have whole : 0 ≤ v % ((2 ^ 16 : Nat) : Int) := Int.emod_nonneg v (by decide)
  apply BitVec.eq_of_toNat_eq
  rw [BitVec.toNat_setWidth, BitVec.toNat_ofInt, BitVec.toNat_ofInt]
  apply Int.ofNat_inj.mp
  rw [Int.natCast_emod, Int.toNat_of_nonneg whole, Int.emod_emod_of_dvd v divides,
    Int.toNat_of_nonneg (Int.emod_nonneg v (by positivity))]

theorem and_mask_ofInt (w : Width) (v : Int) :
    BitVec.ofInt 16 v &&& w.mask = (BitVec.ofInt w.bits v).setWidth 16 := by
  rw [and_mask, setWidth_ofInt]

theorem toNat_modEq_of_encode (h : w.encode s v = .ok word) :
    (word.toNat : Int) ≡ v [ZMOD 2 ^ w.bits] := by
  obtain ⟨-, rfl⟩ := encode_eq_ok_iff.mp h
  have count : ((2 ^ w.bits : Nat) : Int) = 2 ^ w.bits := by push_cast; rfl
  rw [BitVec.toNat_setWidth_of_le w.le_word, BitVec.toNat_ofInt,
    Int.toNat_of_nonneg (Int.emod_nonneg v (by positivity)), count]
  exact Int.mod_modEq v _

theorem decode_modEq (w : Width) (s : Signedness) (word : Word) :
    w.decode s word ≡ word.toNat [ZMOD 2 ^ w.bits] := by
  have count : ((2 ^ w.bits : Nat) : Int) = 2 ^ w.bits := by push_cast; rfl
  rw [← count]
  cases s with
  | unsigned =>
      rw [decode, BitVec.toNat_setWidth, Int.natCast_emod]
      exact Int.mod_modEq _ _
  | signed =>
      rw [decode, BitVec.toInt_setWidth]
      exact Int.bmod_emod

/-- The numbers within the bounds of a width are no two of one residue. -/
theorem eq_of_modEq {a b : Int} (same : a ≡ b [ZMOD 2 ^ w.bits]) (first : a ∈ w.bounds s)
    (second : b ∈ w.bounds s) : a = b := by
  have double : (2 : Int) ^ w.bits = 2 * 2 ^ (w.bits - 1) := by
    rw [← pow_succ', Nat.sub_add_cancel w.pos]
  have near : |b - a| < 2 ^ w.bits := by
    rw [abs_lt]
    cases s with
    | unsigned =>
        rw [mem_bounds_unsigned] at first second
        constructor <;> omega
    | signed =>
        rw [mem_bounds_signed] at first second
        constructor <;> omega
  have none := Int.eq_zero_of_abs_lt_dvd same.dvd near
  omega

/-- An extension keeps the low bits. -/
theorem setWidth_signExtend (w : Width) (word : Word) :
    (w.signExtend word).setWidth w.bits = word.setWidth w.bits := by
  apply BitVec.eq_of_getLsbD_eq
  intro i inside
  have fits := w.le_word
  rw [signExtend, BitVec.getLsbD_setWidth, BitVec.getLsbD_signExtend, if_pos inside]
  simp [inside, show i < 16 by omega]

theorem toInt_signExtend (w : Width) (word : Word) :
    (w.signExtend word).toInt = w.decode .signed word :=
  BitVec.toInt_signExtend_of_le w.le_word

theorem signExtend_eq_iff (w : Width) (word x : Word) : x = w.signExtend word ↔
    x.toInt ≡ word.toNat [ZMOD 2 ^ w.bits] ∧ x.toInt ∈ w.bounds .signed := by
  rw [← BitVec.toInt_inj, toInt_signExtend]
  constructor
  · intro same
    rw [same]
    exact ⟨decode_modEq w .signed word, decode_mem_bounds w .signed word⟩
  · rintro ⟨same, within⟩
    exact eq_of_modEq (same.trans (decode_modEq w .signed word).symm) within
      (decode_mem_bounds w .signed word)

theorem toNat_lt_of_encode (h : w.encode s v = .ok word) : word.toNat < 2 ^ w.bits := by
  obtain ⟨-, rfl⟩ := encode_eq_ok_iff.mp h
  rw [BitVec.toNat_setWidth_of_le w.le_word]
  exact BitVec.isLt _

/-- What a word denotes is encoded as its low bits. -/
theorem encode_decode_eq_ok_iff {pattern : Word} :
    w.encode s (w.decode s word) = .ok pattern ↔ pattern.toNat = word.toNat % 2 ^ w.bits := by
  rw [encode_decode, ← and_mask, Except.ok.injEq, ← BitVec.toNat_inj, toNat_and_mask, eq_comm]

theorem natCast_mem_bounds_iff {n : Nat} : (n : Int) ∈ w.bounds .unsigned ↔ n < 2 ^ w.bits := by
  rw [mem_bounds_unsigned, and_iff_right (Int.natCast_nonneg n)]
  exact_mod_cast Iff.rfl

theorem ofPattern_eq_error_iff {e : CodecError} : w.ofPattern word = .error e ↔
    2 ^ w.bits ≤ word.toNat ∧ e = .overflow word.toNat w.bits .unsigned := by
  rw [← not_lt, ← natCast_mem_bounds_iff, ofPattern]
  split
  · next within => simp [within]
  · next beyond => simp [beyond, eq_comm]

theorem ofPattern_eq_ok_iff :
    w.ofPattern word = .ok v ↔ word.toNat < 2 ^ w.bits ∧ v = w.decode .signed word := by
  rw [← natCast_mem_bounds_iff, ofPattern]
  split
  · next within => simp [within, eq_comm]
  · next beyond => simp [beyond]

/-- A bare pattern is read as the one number that it is written for. -/
theorem ofPattern_eq_ok_iff_toPattern : w.ofPattern word = .ok v ↔ w.toPattern v = .ok word := by
  rw [ofPattern_eq_ok_iff, toPattern]
  constructor
  · rintro ⟨narrow, rfl⟩
    rw [encode_decode_eq_ok_iff, Nat.mod_eq_of_lt narrow]
  · intro written
    exact ⟨toNat_lt_of_encode written, (decode_of_encode written).symm⟩

/-- The numbers that a width can denote and the patterns of that width correspond one to one. -/
structure Bijects (w : Width) : Prop where
  bounds : w.bounds .unsigned = ⟨0, 2 ^ w.bits - 1⟩ ∧
    w.bounds .signed = ⟨-2 ^ (w.bits - 1), 2 ^ (w.bits - 1) - 1⟩
  accepts : ∀ s v, (∃ word, w.encode s v = .ok word) ↔ v ∈ w.bounds s
  refuses : ∀ s v e, w.encode s v = .error e ↔ v ∉ w.bounds s ∧ e = .overflow v w.bits s
  encoded : ∀ s v word, w.encode s v = .ok word → word.toNat < 2 ^ w.bits ∧
    (word.toNat : Int) ≡ v [ZMOD 2 ^ w.bits] ∧ w.decode s word = v
  decoded : ∀ s word, w.decode s word ∈ w.bounds s ∧ ∃ pattern : Word,
    w.encode s (w.decode s word) = .ok pattern ∧ pattern.toNat = word.toNat % 2 ^ w.bits
  /-- A sign is extended to the one word that reads, within the bounds, as the low bits do. -/
  extended : ∀ word x : Word, x = w.signExtend word ↔
    x.toInt ≡ word.toNat [ZMOD 2 ^ w.bits] ∧ x.toInt ∈ w.bounds .signed
  /-- Bits above the width make no difference to it. -/
  above : ∀ word word' : Word, word.toNat % 2 ^ w.bits = word'.toNat % 2 ^ w.bits →
    w.signExtend word = w.signExtend word'
  patterns : ∀ v word, w.ofPattern word = .ok v ↔ w.toPattern v = .ok word
  refused : ∀ word e, w.ofPattern word = .error e ↔
    2 ^ w.bits ≤ word.toNat ∧ e = .overflow word.toNat w.bits .unsigned
  /-- All of it comes down to masks. -/
  masked : (∀ s v word, w.encode s v = .ok word → word = BitVec.ofInt 16 v &&& w.mask) ∧
    ∀ word, w.decode .unsigned word = (word &&& w.mask).toNat ∧
      w.decode .signed word = (w.signExtend (word &&& w.mask)).toInt ∧
        w.signExtend word = word &&& w.mask ||| ~~~(word &&& w.signBit) + 1

theorem bijects (w : Width) : w.Bijects where
  bounds := by
    constructor
    · rw [bounds, natCast_count]
    · rw [bounds, natCast_count_half]
  accepts s v := by
    simp only [encode_eq_ok_iff, exists_and_left, exists_eq, and_true]
  refuses s v e := encode_eq_error_iff
  encoded s v word h := ⟨toNat_lt_of_encode h, toNat_modEq_of_encode h, decode_of_encode h⟩
  decoded s word :=
    ⟨decode_mem_bounds w s word, _, encode_decode w s word, by rw [← and_mask, toNat_and_mask]⟩
  extended := signExtend_eq_iff w
  above word word' same := by
    have low : word.setWidth w.bits = word'.setWidth w.bits := by
      apply BitVec.eq_of_toNat_eq
      rw [BitVec.toNat_setWidth, BitVec.toNat_setWidth, same]
    rw [signExtend, signExtend, low]
  patterns v word := ofPattern_eq_ok_iff_toPattern
  refused word e := ofPattern_eq_error_iff
  masked := by
    constructor
    · intro s v word h
      rw [and_mask_ofInt]
      exact (encode_eq_ok_iff.mp h).2
    · intro word
      have low : (word &&& w.mask).setWidth w.bits = word.setWidth w.bits := by
        rw [and_mask, setWidth_setWidth_bits]
      refine ⟨?_, ?_, signExtend_eq_or w word⟩
      · rw [decode, toNat_and_mask, BitVec.toNat_setWidth]
      · rw [toInt_signExtend, decode, decode, low]

end Width
end LC3
