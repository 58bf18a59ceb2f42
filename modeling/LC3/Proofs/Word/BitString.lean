import LC3.Proofs.Word.Digits

/-!
Words as bit strings. A text of zeros and ones is a pattern of as many bits, and is read as the
number of that pattern; the two readers part only where the text is longer than a word. Main
statements: `value_eq_ok_iff`, `decode_weight`, `readsBits`.
-/

namespace LC3
namespace Bits

/-- The bits as they are written, the most significant first. -/
def text (bits : List Bool) : List Char := bits.map fun b => if b then '1' else '0'

/-- The pattern of these bits, as a number without sign. -/
def weight (bits : List Bool) : Nat := (BitVec.ofBoolListBE bits).toNat

/-- The number that the bits denote at the width that they have. -/
def number (s : Signedness) (bits : List Bool) : Int :=
  match s with
  | .unsigned => (BitVec.ofBoolListBE bits).toNat
  | .signed => (BitVec.ofBoolListBE bits).toInt

variable {bits high low : List Bool} {string : List Char} {s : Signedness} {n : Nat}

theorem length_text (bits : List Bool) : (text bits).length = bits.length := List.length_map _

theorem text_append (high low : List Bool) : text (high ++ low) = text high ++ text low :=
  List.map_append

theorem weight_cons (b : Bool) (bits : List Bool) :
    weight (b :: bits) = b.toNat * 2 ^ bits.length + weight bits := by
  rw [weight, BitVec.ofBoolListBE, BitVec.toNat_cons', Nat.shiftLeft_eq]
  rfl

theorem weight_lt (bits : List Bool) : weight bits < 2 ^ bits.length := BitVec.isLt _

theorem weight_append (high low : List Bool) :
    weight (high ++ low) = weight high * 2 ^ low.length + weight low := by
  induction high with
  | nil => simp [weight, BitVec.ofBoolListBE]
  | cons b high ih =>
      rw [List.cons_append, weight_cons, weight_cons, ih, List.length_append, Nat.pow_add]
      ring

theorem weight_eq_zero_iff : weight bits = 0 ↔ bits = List.replicate bits.length false := by
  induction bits with
  | nil => exact iff_of_true rfl rfl
  | cons b bits ih =>
      rw [weight_cons, Nat.add_eq_zero_iff, ih, List.length_cons, List.replicate_succ,
        List.cons.injEq]
      cases b with
      | false => simp
      | true => simp

theorem weight_zeros (n : Nat) : weight (List.replicate n false) = 0 := by
  rw [weight_eq_zero_iff, List.length_replicate]

theorem text_zeros (n : Nat) : text (List.replicate n false) = List.replicate n '0' :=
  List.map_replicate

theorem digit?_eq_some_iff {c : Char} {d : Nat} :
    Numeral.digit? 2 c = some d ↔ ∃ b : Bool, c = (if b then '1' else '0') ∧ d = b.toNat := by
  rw [Numeral.digit?_eq_some_iff (by decide)]
  constructor
  · rintro ⟨small, same⟩
    interval_cases d
    · exact ⟨false, or_self_iff.mp same, rfl⟩
    · exact ⟨true, or_self_iff.mp same, rfl⟩
  · rintro ⟨b, rfl, rfl⟩
    cases b with
    | false => exact ⟨by decide, .inl rfl⟩
    | true => exact ⟨by decide, .inl rfl⟩

theorem spells_iff {digits : List Nat} : Numeral.Spells 2 string digits ↔
    ∃ bits, string = text bits ∧ digits = bits.map Bool.toNat := by
  induction string generalizing digits with
  | nil =>
      rw [Numeral.Spells, List.forall₂_nil_left_iff]
      constructor
      · rintro rfl
        exact ⟨[], rfl, rfl⟩
      · rintro ⟨bits, empty, rfl⟩
        rw [List.map_eq_nil_iff.mp empty.symm, List.map_nil]
  | cons c rest ih =>
      rw [Numeral.Spells, List.forall₂_cons_left_iff]
      constructor
      · rintro ⟨d, digits, first, later, rfl⟩
        obtain ⟨b, rfl, rfl⟩ := digit?_eq_some_iff.mp first
        obtain ⟨bits, rfl, rfl⟩ := ih.mp later
        exact ⟨b :: bits, rfl, rfl⟩
      · rintro ⟨bits, written, rfl⟩
        obtain ⟨b, bits, rfl, rfl, rfl⟩ := List.map_eq_cons_iff.mp written.symm
        exact ⟨_, _, digit?_eq_some_iff.mpr ⟨b, rfl, rfl⟩, ih.mpr ⟨bits, rfl, rfl⟩, rfl⟩

theorem positional_eq (v : Nat) (bits : List Bool) :
    Numeral.positional 2 v (bits.map Bool.toNat) = v * 2 ^ bits.length + weight bits := by
  induction bits generalizing v with
  | nil => simp [Numeral.positional, weight, BitVec.ofBoolListBE]
  | cons b bits ih =>
      rw [List.map_cons, Numeral.positional, List.foldl_cons, ← Numeral.positional, ih, weight_cons,
        List.length_cons, Nat.pow_succ]
      ring

/-- A binary numeral is some bits, and its value is theirs. -/
theorem value_eq_ok_iff : Numeral.value 2 string = .ok n ↔
    ∃ bits, string = text bits ∧ bits ≠ [] ∧ n = weight bits ∧ n < Numeral.limit := by
  rw [Numeral.value_eq_ok_iff (by decide)]
  constructor
  · rintro ⟨some, digits, spelled, value, small⟩
    obtain ⟨bits, rfl, rfl⟩ := spells_iff.mp spelled
    rw [positional_eq, Nat.zero_mul, Nat.zero_add] at value
    exact ⟨bits, rfl, fun none => some (by rw [none]; rfl), value, small⟩
  · rintro ⟨bits, rfl, some, value, small⟩
    refine ⟨fun none => some (List.map_eq_nil_iff.mp none), _, spells_iff.mpr ⟨bits, rfl, rfl⟩, ?_,
      small⟩
    rw [positional_eq, Nat.zero_mul, Nat.zero_add, value]

theorem number_unsigned (bits : List Bool) : number .unsigned bits = weight bits := rfl

theorem number_signed (bits : List Bool) :
    number .signed bits = Int.bmod (weight bits) (2 ^ bits.length) :=
  BitVec.toInt_eq_toNat_bmod _

theorem length_last (enough : n ≤ bits.length) : (bits.drop (bits.length - n)).length = n := by
  rw [List.length_drop]
  omega

/-- The low bits of a weight are the last of its bits. -/
theorem weight_mod (enough : n ≤ bits.length) :
    weight bits % 2 ^ n = weight (bits.drop (bits.length - n)) := by
  have split := weight_append (bits.take (bits.length - n)) (bits.drop (bits.length - n))
  have small := weight_lt (bits.drop (bits.length - n))
  rw [List.take_append_drop, length_last enough] at split
  rw [length_last enough] at small
  rw [split, Nat.mul_add_mod', Nat.mod_eq_of_lt small]

theorem decode_weight (w : Width) (s : Signedness) (enough : w.bits ≤ bits.length) :
    w.decode s (BitVec.ofNat 16 (weight bits)) =
      number s (bits.drop (bits.length - w.bits)) := by
  have low : (BitVec.ofNat 16 (weight bits)).toNat % 2 ^ w.bits =
      weight (bits.drop (bits.length - w.bits)) := by
    rw [BitVec.toNat_ofNat, Nat.mod_mod_of_dvd _ (Nat.pow_dvd_pow 2 w.le_word), weight_mod enough]
  cases s with
  | unsigned => rw [Width.decode, BitVec.toNat_setWidth, low, number_unsigned]
  | signed =>
      rw [Width.decode, BitVec.toInt_setWidth, number_signed, length_last enough, ← low,
        Int.natCast_emod, Int.emod_bmod]

end Bits

namespace Word

variable {text : List Char} {bits : List Bool} {s : Signedness} {v : Int} {word : Word}

/-- A bit string is read at the width that its digits, counted in 32 bits, come to. -/
theorem ofBits?_text (some : bits ≠ []) (small : Bits.weight bits < Numeral.limit) :
    ofBits? s (Bits.text bits) =
      if 16 < bits.length % 2 ^ 32 then .ok (.error (.overflow (Bits.weight bits) 16 s))
      else (Width.ofNat? (bits.length % 2 ^ 32)).map fun w =>
        .ok (Bits.number s (bits.drop (bits.length - w.bits))) := by
  have known := Bits.value_eq_ok_iff.mpr ⟨bits, rfl, some, rfl, small⟩
  simp only [ofBits?, known, Bits.length_text, Nat.reducePow]
  split
  · rfl
  · apply Stage.map_congr_of_ok
    intro w width
    have count := Width.ofNat?_eq_ok_iff.mp width
    rw [Bits.decode_weight w s (by rw [count]; exact Nat.mod_le _ _)]

theorem exists_error_or_bits (s : Signedness) (text : List Char) :
    (∃ cause, ofBits? s text = .ok (.error cause)) ∨
      ∃ bits, text = Bits.text bits ∧ bits ≠ [] ∧ Bits.weight bits < Numeral.limit := by
  cases known : Numeral.value 2 text with
  | error cause => exact .inl ⟨cause, by rw [ofBits?, known]⟩
  | ok value =>
      obtain ⟨bits, same, some, rfl, small⟩ := Bits.value_eq_ok_iff.mp known
      exact .inr ⟨bits, same, some, small⟩

theorem ofBits?_eq_ok_iff : ofBits? s text = .ok (.ok v) ↔
    ∃ bits, ∃ w : Width, text = Bits.text bits ∧ Bits.weight bits < Numeral.limit ∧
      w.bits = bits.length % 2 ^ 32 ∧ v = Bits.number s (bits.drop (bits.length - w.bits)) := by
  constructor
  · intro read
    rcases exists_error_or_bits s text with ⟨cause, refused⟩ | ⟨bits, rfl, some, small⟩
    · cases read.symm.trans refused
    · rw [ofBits?_text some small] at read
      split at read
      · cases read
      · obtain ⟨w, width, same⟩ := Stage.map_eq_ok.mp read
        exact ⟨bits, w, rfl, small, Width.ofNat?_eq_ok_iff.mp width, (Except.ok.inj same).symm⟩
  · rintro ⟨bits, w, rfl, small, count, rfl⟩
    have narrow := w.le_word
    have some : bits ≠ [] := by
      rintro rfl
      exact w.pos.ne' count
    rw [ofBits?_text some small, if_neg (by omega), ← count, Width.ofNat?_eq_ok_iff.mpr rfl]
    rfl

/-- Below four gigabytes, exactly the texts of one to sixteen zeros and ones are read. -/
theorem ofBits?_eq_ok_iff_of_lt (short : text.length < 2 ^ 32) : ofBits? s text = .ok (.ok v) ↔
    ∃ bits, text = Bits.text bits ∧ bits ≠ [] ∧ bits.length ≤ 16 ∧ v = Bits.number s bits := by
  rw [ofBits?_eq_ok_iff]
  constructor
  · rintro ⟨bits, w, rfl, small, count, rfl⟩
    rw [Bits.length_text] at short
    rw [Nat.mod_eq_of_lt short] at count
    have narrow := w.le_word
    refine ⟨bits, rfl, ?_, by omega, ?_⟩
    · rintro rfl
      exact w.pos.ne' count
    · rw [count, Nat.sub_self, List.drop_zero]
  · rintro ⟨bits, rfl, some, narrow, rfl⟩
    have small : Bits.weight bits < Numeral.limit :=
      calc Bits.weight bits < 2 ^ bits.length := Bits.weight_lt bits
        _ ≤ 2 ^ 16 := Nat.pow_le_pow_right (by decide) narrow
        _ ≤ Numeral.limit := by decide
    refine ⟨bits, ⟨bits.length, List.length_pos_iff.mpr some, narrow⟩, rfl, small, ?_, ?_⟩
    · rw [Bits.length_text] at short
      exact (Nat.mod_eq_of_lt short).symm
    · rw [Nat.sub_self, List.drop_zero]

/-- Texts of that size have digits to be counted, so there is always an answer. -/
theorem exists_ofBits?_eq_ok (s : Signedness) (short : text.length < 2 ^ 32) :
    ∃ r, ofBits? s text = .ok r := by
  rcases exists_error_or_bits s text with ⟨cause, refused⟩ | ⟨bits, rfl, some, small⟩
  · exact ⟨.error cause, refused⟩
  · rw [Bits.length_text] at short
    rw [ofBits?_text some small, Nat.mod_eq_of_lt short]
    split
    · exact ⟨_, rfl⟩
    · next narrow =>
      have pos : 0 < bits.length := List.length_pos_iff.mpr some
      have width : Width.ofNat? bits.length = .ok ⟨bits.length, pos, Nat.le_of_not_lt narrow⟩ :=
        Width.ofNat?_eq_ok_iff.mpr rfl
      rw [width]
      exact ⟨_, rfl⟩

/-- Any number of digits is read as a word, as long as their value is that of one. -/
theorem ofBinary?_eq_ok_iff : ofBinary? text = .ok word ↔
    ∃ bits, text = Bits.text bits ∧ bits ≠ [] ∧ Bits.weight bits = word.toNat := by
  have small := word.isLt
  rw [ofBinary?, Stage.bind_eq_ok]
  constructor
  · rintro ⟨value, known, written⟩
    obtain ⟨bits, rfl, some, rfl, -⟩ := Bits.value_eq_ok_iff.mp known
    exact ⟨bits, rfl, some, (encode_natCast_eq_ok_iff.mp written).symm⟩
  · rintro ⟨bits, rfl, some, same⟩
    have known : Numeral.value 2 (Bits.text bits) = .ok (Bits.weight bits) :=
      Bits.value_eq_ok_iff.mpr ⟨bits, rfl, some, rfl, by rw [same, Numeral.limit]; omega⟩
    exact ⟨_, known, encode_natCast_eq_ok_iff.mpr same.symm⟩

/-- Where no word has as many digits, the two readers agree. -/
theorem ofBinary?_eq_ok_iff_ofBits? (narrow : text.length ≤ 16) :
    ofBinary? text = .ok word ↔ ofBits? .unsigned text = .ok (.ok word.toNat) := by
  rw [ofBinary?_eq_ok_iff, ofBits?_eq_ok_iff_of_lt (by omega)]
  constructor
  · rintro ⟨bits, rfl, some, same⟩
    rw [Bits.length_text] at narrow
    exact ⟨bits, rfl, some, narrow, by rw [← same, Bits.number_unsigned]⟩
  · rintro ⟨bits, rfl, some, -, same⟩
    rw [Bits.number_unsigned, Int.natCast_inj] at same
    exact ⟨bits, rfl, some, same.symm⟩

/-- A longer text is one of sixteen digits with zeros in front. -/
theorem ofBinary?_eq_ok_iff_zeros (long : 16 < text.length) : ofBinary? text = .ok word ↔
    ∃ n last, text = List.replicate n '0' ++ last ∧ last.length = 16 ∧
      ofBinary? last = .ok word := by
  simp only [ofBinary?_eq_ok_iff]
  constructor
  · rintro ⟨bits, rfl, some, same⟩
    rw [Bits.length_text] at long
    obtain ⟨high, low, rfl, count⟩ : ∃ high low, bits = high ++ low ∧ low.length = 16 := by
      refine ⟨_, _, (List.take_append_drop (bits.length - 16) bits).symm, ?_⟩
      rw [List.length_drop]
      omega
    rw [Bits.weight_append, count] at same
    have clear : Bits.weight high = 0 := by
      have small := word.isLt
      omega
    have zeros := Bits.weight_eq_zero_iff.mp clear
    refine ⟨high.length, Bits.text low, ?_, ?_, low, rfl, ?_, ?_⟩
    · rw [Bits.text_append, ← Bits.text_zeros, ← zeros]
    · rw [Bits.length_text, count]
    · rintro rfl
      cases count
    · rw [← same, clear, Nat.zero_mul, Nat.zero_add]
  · rintro ⟨n, last, rfl, count, bits, rfl, some, same⟩
    refine ⟨List.replicate n false ++ bits, ?_, ?_, ?_⟩
    · rw [Bits.text_append, Bits.text_zeros]
    · intro none
      exact some (List.append_eq_nil_iff.mp none).2
    · rw [Bits.weight_append, Bits.weight_zeros, Nat.zero_mul, Nat.zero_add, same]

/-- What the two readers make of a text. Up to sixteen characters it is one bit string to both of
them; `ofBinary?` also takes longer ones, where only zeros stand in front. -/
structure ReadsBits (text : List Char) : Prop where
  answers : text.length < 2 ^ 32 → ∀ s, ∃ r, ofBits? s text = .ok r
  read : text.length < 2 ^ 32 → ∀ s v, ofBits? s text = .ok (.ok v) ↔
    ∃ bits, text = Bits.text bits ∧ bits ≠ [] ∧ bits.length ≤ 16 ∧ v = Bits.number s bits
  wrapped : ∀ s v, ofBits? s text = .ok (.ok v) ↔
    ∃ bits, ∃ w : Width, text = Bits.text bits ∧ Bits.weight bits < Numeral.limit ∧
      w.bits = bits.length % 2 ^ 32 ∧ v = Bits.number s (bits.drop (bits.length - w.bits))
  binary : ∀ word, ofBinary? text = .ok word ↔
    ∃ bits, text = Bits.text bits ∧ bits ≠ [] ∧ Bits.weight bits = word.toNat
  agree : text.length ≤ 16 → ∀ word,
    ofBinary? text = .ok word ↔ ofBits? .unsigned text = .ok (.ok word.toNat)
  zeros : 16 < text.length → ∀ word, ofBinary? text = .ok word ↔
    ∃ n last, text = List.replicate n '0' ++ last ∧ last.length = 16 ∧
      ofBinary? last = .ok word

theorem readsBits (text : List Char) : ReadsBits text where
  answers short s := exists_ofBits?_eq_ok s short
  read short _ _ := ofBits?_eq_ok_iff_of_lt short
  wrapped _ _ := ofBits?_eq_ok_iff
  binary _ := ofBinary?_eq_ok_iff
  agree narrow _ := ofBinary?_eq_ok_iff_ofBits? narrow
  zeros long _ := ofBinary?_eq_ok_iff_zeros long

/-- Seventeen zeros are a word to one reader and too long for the other. -/
theorem read_seventeen_zeros : ofBinary? (List.replicate 17 '0') = .ok 0 ∧
    ofBits? .unsigned (List.replicate 17 '0') = .ok (.error (.overflow 0 16 .unsigned)) := by
  decide

end Word
end LC3
