import LC3.Word.Codec

/-!
The words that name instructions and directives. They are matched without regard to ASCII case; a
trap alias stands for TRAP with a fixed vector, and the suffix of BR for the conditions it tests.
-/

namespace LC3

inductive BranchTest where
  | n | z | p | nz | zp | np | nzp
  deriving DecidableEq, Repr

namespace BranchTest

def name : BranchTest → String
  | .n => "N"
  | .z => "Z"
  | .p => "P"
  | .nz => "Nz"
  | .zp => "Zp"
  | .np => "Np"
  | .nzp => "Nzp"

/-- The condition bits: negative, zero, positive. -/
def bits : BranchTest → Word
  | .n => 0b100
  | .z => 0b010
  | .p => 0b001
  | .nz => 0b110
  | .zp => 0b011
  | .np => 0b101
  | .nzp => 0b111

end BranchTest

inductive Service where
  | getc | out | puts | input | putsp | halt
  deriving DecidableEq, Repr

namespace Service

def name : Service → String
  | .getc => "Getc"
  | .out => "Out"
  | .puts => "Puts"
  | .input => "In"
  | .putsp => "Putsp"
  | .halt => "Halt"

def vector : Service → BitVec 8
  | .getc => 0x20
  | .out => 0x21
  | .puts => 0x22
  | .input => 0x23
  | .putsp => 0x24
  | .halt => 0x25

end Service

inductive Mnemonic where
  | add | and | not
  | br (test : BranchTest)
  | jmp | ret | jsr | jsrr
  | ld | ldi | ldr | lea | st | sti | str
  | rti | trap
  | service (service : Service)
  deriving DecidableEq, Repr

namespace Mnemonic

def name : Mnemonic → String
  | .add => "Add"
  | .and => "And"
  | .not => "Not"
  | .br test => s!"Br({test.name})"
  | .jmp => "Jmp"
  | .ret => "Ret"
  | .jsr => "Jsr"
  | .jsrr => "Jsrr"
  | .ld => "Ld"
  | .ldi => "Ldi"
  | .ldr => "Ldr"
  | .lea => "Lea"
  | .st => "St"
  | .sti => "Sti"
  | .str => "Str"
  | .rti => "Rti"
  | .trap => "Trap(Generic)"
  | .service s => s!"Trap({s.name})"

/-- Every spelling, in capitals. -/
def spellings : List (List Char × Mnemonic) :=
  [(['A', 'D', 'D'], .add),
   (['A', 'N', 'D'], .and),
   (['N', 'O', 'T'], .not),
   (['B', 'R'], .br .nzp),
   (['B', 'R', 'N', 'Z', 'P'], .br .nzp),
   (['B', 'R', 'N'], .br .n),
   (['B', 'R', 'Z'], .br .z),
   (['B', 'R', 'P'], .br .p),
   (['B', 'R', 'N', 'Z'], .br .nz),
   (['B', 'R', 'Z', 'P'], .br .zp),
   (['B', 'R', 'N', 'P'], .br .np),
   (['J', 'M', 'P'], .jmp),
   (['R', 'E', 'T'], .ret),
   (['J', 'S', 'R'], .jsr),
   (['J', 'S', 'R', 'R'], .jsrr),
   (['L', 'D'], .ld),
   (['L', 'D', 'I'], .ldi),
   (['L', 'D', 'R'], .ldr),
   (['L', 'E', 'A'], .lea),
   (['S', 'T'], .st),
   (['S', 'T', 'I'], .sti),
   (['S', 'T', 'R'], .str),
   (['R', 'T', 'I'], .rti),
   (['T', 'R', 'A', 'P'], .trap),
   (['G', 'E', 'T', 'C'], .service .getc),
   (['O', 'U', 'T'], .service .out),
   (['P', 'U', 'T', 'S'], .service .puts),
   (['I', 'N'], .service .input),
   (['P', 'U', 'T', 'S', 'P'], .service .putsp),
   (['H', 'A', 'L', 'T'], .service .halt)]

def ofName? (text : List Char) : Option Mnemonic := spellings.lookup (text.map Char.toUpper)

end Mnemonic

/-- The statements that are not instructions. -/
inductive Directive where
  | origin | stop | string | block | fill
  deriving DecidableEq, Repr

namespace Directive

def name : Directive → String
  | .origin => ".ORIG"
  | .stop => ".END"
  | .string => ".STRINGZ"
  | .block => ".BLKW"
  | .fill => ".FILL"

/-- Every spelling, in capitals and with its point. -/
def spellings : List (List Char × Directive) :=
  [(['.', 'O', 'R', 'I', 'G'], .origin),
   (['.', 'E', 'N', 'D'], .stop),
   (['.', 'S', 'T', 'R', 'I', 'N', 'G', 'Z'], .string),
   (['.', 'B', 'L', 'K', 'W'], .block),
   (['.', 'F', 'I', 'L', 'L'], .fill)]

def ofName? (text : List Char) : Option Directive := spellings.lookup (text.map Char.toUpper)

end Directive
end LC3
