import LC3.Format.Layout

/-!
The sixteen opcodes and the formats of their instructions. One opcode is reserved and has no format.
-/

namespace LC3

/-- What the top four bits of an instruction say. -/
inductive Opcode where
  | br | add | ld | st | jsr | and | ldr | str
  | rti | not | ldi | sti | jmp | reserved | lea | trap
  deriving DecidableEq, Repr

namespace Opcode

def name : Opcode → String
  | .br => "Br"
  | .add => "Add"
  | .ld => "Ld"
  | .st => "St"
  | .jsr => "Jsr"
  | .and => "And"
  | .ldr => "Ldr"
  | .str => "Str"
  | .rti => "Rti"
  | .not => "Not"
  | .ldi => "Ldi"
  | .sti => "Sti"
  | .jmp => "Jmp"
  | .reserved => "Reserved"
  | .lea => "Lea"
  | .trap => "Trap"

/-- Every opcode, at the position that is its tag. -/
def all : List Opcode :=
  [.br, .add, .ld, .st, .jsr, .and, .ldr, .str,
    .rti, .not, .ldi, .sti, .jmp, .reserved, .lea, .trap]

def tag : Opcode → BitVec 4
  | .br => 0
  | .add => 1
  | .ld => 2
  | .st => 3
  | .jsr => 4
  | .and => 5
  | .ldr => 6
  | .str => 7
  | .rti => 8
  | .not => 9
  | .ldi => 10
  | .sti => 11
  | .jmp => 12
  | .reserved => 13
  | .lea => 14
  | .trap => 15

def ofTag (tag : BitVec 4) : Opcode :=
  match tag.toNat with
  | 0 => .br
  | 1 => .add
  | 2 => .ld
  | 3 => .st
  | 4 => .jsr
  | 5 => .and
  | 6 => .ldr
  | 7 => .str
  | 8 => .rti
  | 9 => .not
  | 10 => .ldi
  | 11 => .sti
  | 12 => .jmp
  | 13 => .reserved
  | 14 => .lea
  | _ => .trap

@[simp] theorem ofTag_tag (o : Opcode) : ofTag o.tag = o := by cases o <;> rfl

def of (word : Word) : Opcode := ofTag (word.extractLsb' 12 4)

/-- The word of an opcode whose other bits are clear. -/
def base (o : Opcode) : Word := o.tag.setWidth 16 <<< 12

end Opcode

namespace Layout

/-- BR: the three condition bits and an offset. -/
def branch : Layout where
  segments := [.flag .n, .flag .z, .flag .p, .signed .pcOffset9 9]

def registers : Layout where
  segments := [.register .dr, .register .sr1, .zeros 3, .register .sr2]

def immediate : Layout where
  segments := [.register .dr, .register .sr1, .ones 1, .signed .imm5 5]

def complement : Layout where
  segments := [.register .dr, .register .sr, .ones 6]

/-- A register read or written at an offset from the program counter. -/
def relative (f : FieldName) : Layout where
  segments := [.register f, .signed .pcOffset9 9]

/-- A register read or written at an offset from a base register. -/
def based (f : FieldName) : Layout where
  segments := [.register f, .register .baseR, .signed .offset6 6]

/-- JMP and JSRR: an address held in a register. -/
def indirect : Layout where
  segments := [.zeros 3, .register .baseR, .zeros 6]

/-- JSR: a long offset. -/
def call : Layout where
  segments := [.ones 1, .signed .pcOffset11 11]

def bare : Layout where
  segments := [.zeros 12]

def vector : Layout where
  segments := [.zeros 4, .field ⟨.trapVector8, 8, .unsigned⟩]

end Layout

/-- The format of the instructions of an opcode; the reserved one has none. -/
def Opcode.format? : Opcode → Option Format
  | .br => some (.uniform .branch)
  | .add => some (.selected 5 .registers .immediate)
  | .ld => some (.uniform (.relative .dr))
  | .st => some (.uniform (.relative .sr))
  | .jsr => some (.selected 11 .indirect .call)
  | .and => some (.selected 5 .registers .immediate)
  | .ldr => some (.uniform (.based .dr))
  | .str => some (.uniform (.based .sr))
  | .rti => some (.uniform .bare)
  | .not => some (.uniform .complement)
  | .ldi => some (.uniform (.relative .dr))
  | .sti => some (.uniform (.relative .sr))
  | .jmp => some (.uniform .indirect)
  | .reserved => none
  | .lea => some (.uniform (.relative .dr))
  | .trap => some (.uniform .vector)

end LC3
