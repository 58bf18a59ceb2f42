import LC3.Format.Opcode
import LC3.Word.Numeral

/-!
Instruction words taken apart and put together. The parts of a word are its opcode, the number of
its layout and its field values. Putting together checks the fields from the most significant end
and passes over fields that the layout does not have; taking apart may check the constant bits.
-/

namespace LC3

inductive Decoding where
  | strict
  | lenient
  deriving DecidableEq, Repr

/-- The opcode, layout and fields of an instruction word. -/
structure Parts where
  opcode : Opcode
  mode : Nat
  fields : FieldSet
  deriving DecidableEq

/-- Why a word is no instruction. -/
inductive DecodeError where
  | unknownOpcode (opcode : Opcode)
  | constantBits (opcode : Opcode) (range : BitRange) (expected found : Word)
  deriving DecidableEq

def DecodeError.message : DecodeError → String
  | .unknownOpcode o => s!"opcode {o.name} has no format"
  | .constantBits o r expected found =>
    s!"{o.name} expects {Numeral.binaryText expected.toNat} in bits {r.high}..={r.low}, " ++
      s!"found {Numeral.binaryText found.toNat}"

/-- Why parts make no word. -/
inductive EncodeError where
  | unknownOpcode (opcode : Opcode)
  | unknownMode (opcode : Opcode) (mode : Nat)
  | missingField (field : FieldName)
  | overflow (field : FieldName) (value : Int) (bounds : Interval)
  deriving DecidableEq, Repr

def EncodeError.message : EncodeError → String
  | .unknownOpcode o => s!"opcode {o.name} has no format"
  | .unknownMode o mode => s!"{o.name} has no layout {mode}"
  | .missingField f => s!"field {f.name} was not provided"
  | .overflow f value bounds => s!"{f.name} value {value} is outside {bounds.text}"

/-- The pattern that a segment holds under some field values. -/
def Segment.pattern (fields : FieldSet) : Segment → Except EncodeError Word
  | .constant _ pattern => .ok (pattern.setWidth 16)
  | .field f =>
    match fields.get f.name with
    | none => .error (.missingField f.name)
    | some v =>
      match f.width.encode f.signedness v with
      | .ok bits => .ok bits
      | .error _ => .error (.overflow f.name v f.bounds)

namespace Placement

def write (fields : FieldSet) (word : Word) (p : Placement) : Except EncodeError Word :=
  (p.segment.pattern fields).map (p.range.insert word)

/-- The pattern that the segment must hold and the one found instead, if they differ. -/
def mismatch? (word : Word) (p : Placement) : Option (Word × Word) :=
  match p.segment with
  | .field _ => none
  | .constant _ pattern =>
    let expected := pattern.setWidth 16
    let found := p.range.extract .unsigned word
    if found = expected then none else some (expected, found)

/-- The value of the field, if the segment is one. -/
def read (word : Word) (fields : FieldSet) (p : Placement) : FieldSet :=
  match p.segment with
  | .constant _ _ => fields
  | .field f => fields.set f.name (f.width.decode f.signedness (p.range.extract .unsigned word))

end Placement

namespace Layout

/-- Writes every segment over `base`, stopping at the first field that has no pattern. -/
def write (l : Layout) (fields : FieldSet) (base : Word) : Except EncodeError Word :=
  l.placed.foldlM (fun word p => p.write fields word) base

/-- The first segment from the most significant end whose constant bits are wrong. -/
def mismatch? (l : Layout) (word : Word) : Option (BitRange × Word × Word) :=
  l.placed.findSome? fun p => (p.mismatch? word).map fun m => (p.range, m)

def read (l : Layout) (word : Word) : FieldSet :=
  l.placed.foldl (fun fields p => p.read word fields) .empty

end Layout

namespace Parts

def encode (p : Parts) : Except EncodeError Word :=
  match p.opcode.format? with
  | none => .error (.unknownOpcode p.opcode)
  | some format =>
    match format.layouts[p.mode]? with
    | none => .error (.unknownMode p.opcode p.mode)
    | some layout => layout.write p.fields p.opcode.base

def decode (d : Decoding) (word : Word) : Except DecodeError Parts :=
  let opcode := Opcode.of word
  match opcode.format? with
  | none => .error (.unknownOpcode opcode)
  | some format =>
    let layout := format.layoutOf word
    let parts := ⟨opcode, format.modeOf word, layout.read word⟩
    match d, layout.mismatch? word with
    | .strict, some (range, expected, found) => .error (.constantBits opcode range expected found)
    | _, _ => .ok parts

end Parts
end LC3
