import LC3.Format.Parts
import LC3.Register

/-!
Instructions with typed operands. Offsets and immediates are whole words in two's complement;
whether one fits its field is decided when the instruction is encoded. Giving types to the parts of
a word reads the fields in the order in which the instruction lists them.
-/

namespace LC3

inductive SecondSource where
  | register (sr2 : Register)
  | immediate (imm5 : Word)
  deriving DecidableEq, Repr

inductive Instruction where
  | add (dr sr1 : Register) (src2 : SecondSource)
  | and (dr sr1 : Register) (src2 : SecondSource)
  | not (dr sr : Register)
  /-- Of `nzp` the low three bits count: negative, zero, positive. -/
  | br (nzp offset : Word)
  | jmp (base : Register)
  | jsr (offset : Word)
  | jsrr (base : Register)
  | ld (dr : Register) (offset : Word)
  | ldi (dr : Register) (offset : Word)
  | ldr (dr base : Register) (offset : Word)
  | lea (dr : Register) (offset : Word)
  | st (sr : Register) (offset : Word)
  | sti (sr : Register) (offset : Word)
  | str (sr base : Register) (offset : Word)
  | rti
  | trap (vector : BitVec 8)
  deriving DecidableEq, Repr

/-- Why parts make no instruction. Only the first cause arises for the parts of a word. -/
inductive InstructionError where
  | undecodable (cause : DecodeError)
  | missingField (opcode : Opcode) (field : FieldName)
  | registerIndex (index : Nat)
  deriving DecidableEq

def InstructionError.message : InstructionError → String
  | .undecodable cause => cause.message
  | .missingField o f =>
    s!"internal error: entered unreachable code: {o.name} layout has no {f.name}"
  | .registerIndex index => s!"register index {index} does not fit in 3 bits"

def Register.ofIndex (index : Nat) : Except InstructionError Register :=
  if h : index < 8 then .ok ⟨index, h⟩ else .error (.registerIndex index)

namespace Parts

def value (p : Parts) (f : FieldName) : Except InstructionError Int :=
  match p.fields.get f with
  | some v => .ok v
  | none => .error (.missingField p.opcode f)

/-- A field as a word, by the low sixteen bits of its value. -/
def word (p : Parts) (f : FieldName) : Except InstructionError Word :=
  (p.value f).map (BitVec.ofInt 16)

def register (p : Parts) (f : FieldName) : Except InstructionError Register := do
  Register.ofIndex (← p.word f).toNat

/-- Layout 0 of ADD and AND has a register as second source, any other an immediate. -/
def secondSource (p : Parts) : Except InstructionError SecondSource :=
  if p.mode = 0 then (p.register .sr2).map .register else (p.word .imm5).map .immediate

end Parts

namespace Instruction

/-- Layout 1 of the JSR opcode is JSR, any other JSRR. -/
def ofParts (p : Parts) : Except InstructionError Instruction :=
  match p.opcode with
  | .add => do return .add (← p.register .dr) (← p.register .sr1) (← p.secondSource)
  | .and => do return .and (← p.register .dr) (← p.register .sr1) (← p.secondSource)
  | .not => do return .not (← p.register .dr) (← p.register .sr)
  | .br => do
    let nzp := (← p.word .n) <<< 2 ||| (← p.word .z) <<< 1 ||| (← p.word .p)
    return .br nzp (← p.word .pcOffset9)
  | .jmp => do return .jmp (← p.register .baseR)
  | .jsr =>
    if p.mode = 1 then do return .jsr (← p.word .pcOffset11)
    else do return .jsrr (← p.register .baseR)
  | .ld => do return .ld (← p.register .dr) (← p.word .pcOffset9)
  | .ldi => do return .ldi (← p.register .dr) (← p.word .pcOffset9)
  | .ldr => do return .ldr (← p.register .dr) (← p.register .baseR) (← p.word .offset6)
  | .lea => do return .lea (← p.register .dr) (← p.word .pcOffset9)
  | .st => do return .st (← p.register .sr) (← p.word .pcOffset9)
  | .sti => do return .sti (← p.register .sr) (← p.word .pcOffset9)
  | .str => do return .str (← p.register .sr) (← p.register .baseR) (← p.word .offset6)
  | .rti => .ok .rti
  | .trap => do return .trap (BitVec.ofInt 8 (← p.value .trapVector8))
  | .reserved => .error (.undecodable (.unknownOpcode .reserved))

def decode (d : Decoding) (word : Word) : Except InstructionError Instruction :=
  match Parts.decode d word with
  | .ok p => ofParts p
  | .error cause => .error (.undecodable cause)

/-- The value of bit `i` of the condition bits as a field. -/
def conditionBit (nzp : Word) (i : Nat) : Int := if nzp.getLsbD i then 1 else 0

def arithmetic (o : Opcode) (dr sr1 : Register) : SecondSource → Parts
  | .register sr2 => ⟨o, 0, .ofList [(.dr, dr.val), (.sr1, sr1.val), (.sr2, sr2.val)]⟩
  | .immediate imm5 => ⟨o, 1, .ofList [(.dr, dr.val), (.sr1, sr1.val), (.imm5, imm5.toInt)]⟩

def toParts : Instruction → Parts
  | .add dr sr1 src2 => arithmetic .add dr sr1 src2
  | .and dr sr1 src2 => arithmetic .and dr sr1 src2
  | .not dr sr => ⟨.not, 0, .ofList [(.dr, dr.val), (.sr, sr.val)]⟩
  | .br nzp offset =>
    ⟨.br, 0, .ofList [(.n, conditionBit nzp 2), (.z, conditionBit nzp 1), (.p, conditionBit nzp 0),
      (.pcOffset9, offset.toInt)]⟩
  | .jmp base => ⟨.jmp, 0, .ofList [(.baseR, base.val)]⟩
  | .jsr offset => ⟨.jsr, 1, .ofList [(.pcOffset11, offset.toInt)]⟩
  | .jsrr base => ⟨.jsr, 0, .ofList [(.baseR, base.val)]⟩
  | .ld dr offset => ⟨.ld, 0, .ofList [(.dr, dr.val), (.pcOffset9, offset.toInt)]⟩
  | .ldi dr offset => ⟨.ldi, 0, .ofList [(.dr, dr.val), (.pcOffset9, offset.toInt)]⟩
  | .ldr dr base offset =>
    ⟨.ldr, 0, .ofList [(.dr, dr.val), (.baseR, base.val), (.offset6, offset.toInt)]⟩
  | .lea dr offset => ⟨.lea, 0, .ofList [(.dr, dr.val), (.pcOffset9, offset.toInt)]⟩
  | .st sr offset => ⟨.st, 0, .ofList [(.sr, sr.val), (.pcOffset9, offset.toInt)]⟩
  | .sti sr offset => ⟨.sti, 0, .ofList [(.sr, sr.val), (.pcOffset9, offset.toInt)]⟩
  | .str sr base offset =>
    ⟨.str, 0, .ofList [(.sr, sr.val), (.baseR, base.val), (.offset6, offset.toInt)]⟩
  | .rti => ⟨.rti, 0, .empty⟩
  | .trap vector => ⟨.trap, 0, .ofList [(.trapVector8, vector.toNat)]⟩

def encode (i : Instruction) : Except EncodeError Word := i.toParts.encode

/-- The register that an instruction writes together with the condition codes. -/
def destination? : Instruction → Option Register
  | .add dr _ _ | .and dr _ _ | .not dr _ => some dr
  | .ld dr _ | .ldi dr _ | .ldr dr _ _ | .lea dr _ => some dr
  | .br _ _ | .jmp _ | .jsr _ | .jsrr _ => none
  | .st _ _ | .sti _ _ | .str _ _ _ => none
  | .rti | .trap _ => none

end Instruction
end LC3
