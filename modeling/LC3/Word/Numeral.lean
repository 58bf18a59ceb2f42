import LC3.Word.Codec

/-!
Words as text. Digits are read from the left, so the first character that is no digit of the radix,
or the first prefix whose value reaches 2 to the 63rd, decides the error. Hexadecimal words are
written as in assembly source: an x and four digits.
-/

namespace LC3

namespace Numeral

/-- The value of a digit, letters in either case standing for ten and above. -/
def digit? (radix : Nat) (c : Char) : Option Nat :=
  let value :=
    if '0' ≤ c ∧ c ≤ '9' then c.toNat - '0'.toNat
    else if 'a' ≤ c ∧ c ≤ 'z' then c.toNat - 'a'.toNat + 10
    else if 'A' ≤ c ∧ c ≤ 'Z' then c.toNat - 'A'.toNat + 10
    else radix
  if value < radix then some value else none

/-- Every numeral is below this value; one that reaches it has overflowed. -/
def limit : Nat := 0x8000000000000000

def overflow : CodecError := .overflow (limit - 1) 64 .signed

/-- Reads the digits that follow a prefix of value `value`. -/
def accumulate (radix : Nat) : Nat → List Char → Except CodecError Nat
  | value, [] => .ok value
  | value, c :: rest =>
    match digit? radix c with
    | none => .error (.invalidDigit c radix)
    | some d =>
      if value * radix + d < limit then accumulate radix (value * radix + d) rest
      else .error overflow

/-- The positional value of a text of digits, without prefix or sign. -/
def value (radix : Nat) (digits : List Char) : Except CodecError Nat :=
  if digits.isEmpty then .error .empty else accumulate radix 0 digits

/-- The text after one hexadecimal prefix, if there is one. -/
def dropHexPrefix : List Char → List Char
  | '0' :: 'x' :: rest => rest
  | '0' :: 'X' :: rest => rest
  | 'x' :: rest => rest
  | 'X' :: rest => rest
  | text => text

/-- One of the sixteen digits, letters in upper case. -/
def hexDigit (nibble : BitVec 4) : Char :=
  if nibble.toNat < 10 then Char.ofNat ('0'.toNat + nibble.toNat)
  else Char.ofNat ('A'.toNat + (nibble.toNat - 10))

/-- The number in binary without leading zeros, behind the mark `0b`. -/
def binaryText (n : Nat) : String := "0b" ++ String.ofList (Nat.toDigits 2 n)

end Numeral

namespace Word

/-- Reads a bit string of at most sixteen digits; when signed, its first digit is the sign. The
digits are counted in 32 bits, and a count that comes out as zero is no width. -/
def ofBits? (s : Signedness) (text : List Char) : Except BitError (Except CodecError Int) :=
  match Numeral.value 2 text with
  | .error cause => .ok (.error cause)
  | .ok value =>
    let count := text.length % 0x100000000
    if 16 < count then .ok (.error (.overflow value 16 s))
    else (Width.ofNat? count).map fun width => .ok (width.decode s (BitVec.ofNat 16 value))

/-- Reads a word in hexadecimal, with or without a prefix. -/
def ofHex? (text : List Char) : Except CodecError Word := do
  let value ← Numeral.value 16 (Numeral.dropHexPrefix text)
  Width.encode 16 .unsigned value

def ofBinary? (text : List Char) : Except CodecError Word := do
  let value ← Numeral.value 2 text
  Width.encode 16 .unsigned value

def hexDigits (w : Word) : List Char :=
  [12, 8, 4, 0].map fun low => Numeral.hexDigit (w.extractLsb' low 4)

/-- The word as it is written in assembly source. -/
def hexText (w : Word) : List Char := 'x' :: w.hexDigits

def hex (w : Word) : String := String.ofList w.hexText

/-- All sixteen bits, the most significant first. -/
def binaryText (w : Word) : List Char :=
  (List.range 16).reverse.map fun i => if w.getLsbD i then '1' else '0'

def binary (w : Word) : String := String.ofList w.binaryText

end Word
end LC3
