import LC3.Assembly.Listing
import LC3.Instruction
import LC3.Program

/-!
The second pass: words for the statements of a listing. A mnemonic has a signature, which says the
layout of the instruction, the fields it fixes and what its operands fill. A label in an instruction
counts from the word after it, a label in a FILL is an address.
-/

namespace LC3

inductive Slot where
  | register (field : FieldName)
  | value (field : FieldName)
  /-- A value, where a register would be taken for JSRR. -/
  | callTarget (field : FieldName)
  deriving DecidableEq, Repr

def Slot.field : Slot → FieldName
  | .register f => f
  | .value f => f
  | .callTarget f => f

/-- How the operands of a mnemonic make an instruction. -/
structure Signature where
  opcode : Opcode
  mode : Nat := 0
  fixed : List (FieldName × Int) := []
  slots : List Slot
  deriving DecidableEq, Repr

namespace Signature

/-- ADD and AND take a register or a value as third operand. -/
def arithmetic (opcode : Opcode) (operands : List Operand) : Signature :=
  match operands with
  | [_, _, ⟨.register _, _⟩] =>
    { opcode, mode := 0, slots := [.register .dr, .register .sr1, .register .sr2] }
  | _ => { opcode, mode := 1, slots := [.register .dr, .register .sr1, .value .imm5] }

def branch (test : BranchTest) : Signature where
  opcode := .br
  fixed := [(.n, Instruction.conditionBit test.bits 2), (.z, Instruction.conditionBit test.bits 1),
    (.p, Instruction.conditionBit test.bits 0)]
  slots := [.value .pcOffset9]

/-- The signature of a mnemonic where some operands follow it. -/
def of (operands : List Operand) : Mnemonic → Signature
  | .add => arithmetic .add operands
  | .and => arithmetic .and operands
  | .not => { opcode := .not, slots := [.register .dr, .register .sr] }
  | .br test => branch test
  | .jmp => { opcode := .jmp, slots := [.register .baseR] }
  | .ret => { opcode := .jmp, fixed := [(.baseR, Register.link.val)], slots := [] }
  | .jsr => { opcode := .jsr, mode := 1, slots := [.callTarget .pcOffset11] }
  | .jsrr => { opcode := .jsr, mode := 0, slots := [.register .baseR] }
  | .ld => { opcode := .ld, slots := [.register .dr, .value .pcOffset9] }
  | .ldi => { opcode := .ldi, slots := [.register .dr, .value .pcOffset9] }
  | .ldr => { opcode := .ldr, slots := [.register .dr, .register .baseR, .value .offset6] }
  | .lea => { opcode := .lea, slots := [.register .dr, .value .pcOffset9] }
  | .st => { opcode := .st, slots := [.register .sr, .value .pcOffset9] }
  | .sti => { opcode := .sti, slots := [.register .sr, .value .pcOffset9] }
  | .str => { opcode := .str, slots := [.register .sr, .register .baseR, .value .offset6] }
  | .rti => { opcode := .rti, slots := [] }
  | .trap => { opcode := .trap, slots := [.value .trapVector8] }
  | .service s => { opcode := .trap, fixed := [(.trapVector8, s.vector.toNat)], slots := [] }

end Signature

namespace Datum

def address (symbols : SymbolTable) (span : Span) (name : Label) : Except Complaint Word :=
  match symbols.find? name with
  | some a => .ok a
  | none => .error ⟨span, .undefinedSymbol name⟩

/-- The number for a field of the instruction at `here`. -/
def relativeTo (here : Word) (symbols : SymbolTable) (span : Span) : Datum → Except Complaint Int
  | .literal v => .ok v
  | .label name => (address symbols span name).map fun a => (a.toNat : Int) - (here.toNat + 1)

def fill (symbols : SymbolTable) (span : Span) : Datum → Except Complaint Word
  | .literal v =>
    if v ∈ Interval.fills then .ok (BitVec.ofInt 16 v)
    else .error ⟨span, .outOfRange .fill v .fills⟩
  | .label name => address symbols span name

end Datum

/-- The value that an operand gives to the field of its slot. -/
def Slot.fill (here : Word) (symbols : SymbolTable) (s : Slot) (o : Operand) :
    Except Complaint Int :=
  match s, o.value with
  | .register _, .register r => .ok r.val
  | .register f, .datum _ => .error ⟨o.span, .grammar (.registerExpected f)⟩
  | .value _, .datum d => d.relativeTo here symbols o.span
  | .value _, .register r => .error ⟨o.span, .grammar (.valueExpected r)⟩
  | .callTarget _, .datum d => d.relativeTo here symbols o.span
  | .callTarget _, .register _ => .error ⟨o.span, .grammar .callTargetRegister⟩

/-- A field value and the place that a complaint about it points at. -/
structure Assignment where
  field : FieldName
  value : Int
  span : Span
  deriving DecidableEq, Repr

namespace Signature

def assign (here : Word) (symbols : SymbolTable) (s : Signature) (operands : List Operand) :
    Except Complaint (List Assignment) :=
  (s.slots.zip operands).mapM fun (slot, o) =>
    (slot.fill here symbols o).map fun v => ⟨slot.field, v, o.span⟩

def parts (s : Signature) (assigned : List Assignment) : Parts :=
  ⟨s.opcode, s.mode, .ofList (s.fixed ++ assigned.map fun a => (a.field, a.value))⟩

end Signature

/-- The place that gave a field its value: an operand, or else the mnemonic. -/
def Assignment.spanOf (mnemonic : Span) (assigned : List Assignment) (f : FieldName) : Span :=
  ((assigned.find? fun a => a.field = f).map Assignment.span).getD mnemonic

namespace Statement

/-- The word of an instruction: first the number of operands must be right, then each operand from
the left, then the range of each field. -/
def instructionWord (s : Statement) (symbols : SymbolTable) (m : Mnemonic)
    (operands : List Operand) : Except Complaint Word :=
  let signature := Signature.of operands m
  let expected := signature.slots.length
  if operands.length = expected then do
    let assigned ← signature.assign s.address symbols operands
    match (signature.parts assigned).encode with
    | .ok word => .ok word
    | .error (.overflow f value bounds) =>
      .error ⟨Assignment.spanOf s.span assigned f, .outOfRange (.field f) value bounds⟩
    | .error cause => .error ⟨s.span, .unencodable cause⟩
  else
    let span := (operands[expected]?.map Operand.span).getD s.span
    .error ⟨span, .grammar (.operandCount expected operands.length)⟩

def words (symbols : SymbolTable) (s : Statement) : Except Complaint (List Word) :=
  match s.content with
  | .instruction m operands => (s.instructionWord symbols m operands).map fun w => [w]
  | .fill datum span => (datum.fill symbols span).map fun w => [w]
  | .block count => .ok (List.replicate count.toNat 0)
  | .string characters => .ok (characters ++ [0])

end Statement

def Listing.program (l : Listing) : Except Diagnostic Program := do
  let words ← l.statements.mapM fun s => (s.words l.symbols).mapError (·.onLine s.line)
  return ⟨l.origin, words.flatten, l.symbols⟩

def assemble (source : List Char) : Except Diagnostic Program := do
  (← Listing.ofText source).program

end LC3
