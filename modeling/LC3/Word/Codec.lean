/-!
Machine words and the two readings of a field of bits. A field is `w` bits wide with `1 ≤ w ≤ 16`;
its bits denote a number either unsigned or in two's complement. Encoding is defined exactly on the
interval of numbers that the field can denote.
-/

namespace LC3

/-- Sixteen bits. Offsets and immediates are words too, read in two's complement. -/
abbrev Word := BitVec 16

/-- How the bits of a field denote a number. -/
inductive Signedness where
  | unsigned
  | signed
  deriving DecidableEq, Repr

def Signedness.name : Signedness → String
  | .unsigned => "unsigned"
  | .signed => "signed"

/-- The integers from `min` to `max`, both included. -/
structure Interval where
  min : Int
  max : Int
  deriving DecidableEq, Repr

namespace Interval

instance : Membership Int Interval := ⟨fun i v => i.min ≤ v ∧ v ≤ i.max⟩

theorem mem_iff {i : Interval} {v : Int} : v ∈ i ↔ i.min ≤ v ∧ v ≤ i.max := Iff.rfl

instance (i : Interval) (v : Int) : Decidable (v ∈ i) :=
  inferInstanceAs (Decidable (i.min ≤ v ∧ v ≤ i.max))

def text (i : Interval) : String := s!"{i.min}..={i.max}"

/-- The unsigned reading of all words, and so all memory addresses. -/
def words : Interval := ⟨0, 0xFFFF⟩

end Interval

/-- A request for bits that a word does not have. -/
inductive BitError where
  | width (bits : Nat)
  | range (high low : Nat)
  deriving DecidableEq, Repr

def BitError.message : BitError → String
  | .width bits => s!"field width {bits} is outside 1..=16"
  | .range high low => s!"bit range {high}..={low} is not inside a word"

/-- Why a text or a number has no encoding. -/
inductive CodecError where
  | overflow (value : Int) (bits : Nat) (signedness : Signedness)
  | invalidDigit (digit : Char) (radix : Nat)
  | empty
  deriving DecidableEq, Repr

def CodecError.message : CodecError → String
  | .overflow value bits signedness =>
    s!"value {value} does not fit in {bits} {signedness.name} bits"
  | .invalidDigit digit radix => s!"invalid digit `{digit}` for radix {radix}"
  | .empty => "expected at least one digit"

structure Width where
  bits : Nat
  pos : 0 < bits := by decide
  le_word : bits ≤ 16 := by decide
  deriving DecidableEq

namespace Width

instance : OfNat Width 1 := ⟨{ bits := 1 }⟩
instance : OfNat Width 3 := ⟨{ bits := 3 }⟩
instance : OfNat Width 4 := ⟨{ bits := 4 }⟩
instance : OfNat Width 5 := ⟨{ bits := 5 }⟩
instance : OfNat Width 6 := ⟨{ bits := 6 }⟩
instance : OfNat Width 8 := ⟨{ bits := 8 }⟩
instance : OfNat Width 9 := ⟨{ bits := 9 }⟩
instance : OfNat Width 11 := ⟨{ bits := 11 }⟩
instance : OfNat Width 12 := ⟨{ bits := 12 }⟩
instance : OfNat Width 16 := ⟨{ bits := 16 }⟩

def ofNat? (bits : Nat) : Except BitError Width :=
  if h : 0 < bits ∧ bits ≤ 16 then .ok ⟨bits, h.1, h.2⟩ else .error (.width bits)

/-- How many patterns a field of this width has. -/
def count (w : Width) : Nat := 1 <<< w.bits

/-- The numbers that a field of this width can denote. -/
def bounds (w : Width) : Signedness → Interval
  | .unsigned => ⟨0, (w.count : Int) - 1⟩
  | .signed => ⟨-((w.count / 2 : Nat) : Int), ((w.count / 2 : Nat) : Int) - 1⟩

/-- The field of this width that denotes `v`, in the low bits of a word. -/
def encode (w : Width) (s : Signedness) (v : Int) : Except CodecError Word :=
  if v ∈ w.bounds s then .ok ((BitVec.ofInt w.bits v).setWidth 16)
  else .error (.overflow v w.bits s)

/-- The number that the low bits of a word denote; the bits above the field are not looked at. -/
def decode (w : Width) (s : Signedness) (word : Word) : Int :=
  match s with
  | .unsigned => (word.setWidth w.bits).toNat
  | .signed => (word.setWidth w.bits).toInt

/-- The word that reads in two's complement as the low bits of `word` do. -/
def signExtend (w : Width) (word : Word) : Word := (word.setWidth w.bits).signExtend 16

/-- Two's complement at this width, as a bare pattern. -/
def toPattern (w : Width) (v : Int) : Except CodecError Word := w.encode .signed v

/-- Reads a bare pattern, which must not have bits above the width. -/
def ofPattern (w : Width) (pattern : Word) : Except CodecError Int :=
  if (pattern.toNat : Int) ∈ w.bounds .unsigned then .ok (w.decode .signed pattern)
  else .error (.overflow pattern.toNat w.bits .unsigned)

end Width
end LC3
