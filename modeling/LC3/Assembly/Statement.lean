import LC3.Assembly.Literal
import LC3.Assembly.Mnemonic

/-!
Statements of a program: what takes up words, at an address. Labels in operands are still names.
-/

namespace LC3

/-- A number in an operand, given as such or by a label. -/
inductive Datum where
  | literal (value : Int)
  | label (name : Label)
  deriving DecidableEq, Repr

inductive OperandValue where
  | register (register : Register)
  | datum (datum : Datum)
  deriving DecidableEq, Repr

structure Operand where
  value : OperandValue
  span : Span
  deriving DecidableEq, Repr

namespace Operand

/-- A name is a register or else a label. -/
def ofToken (t : Token) : Except Complaint Operand :=
  match t.role with
  | .identifier =>
    match Register.ofName? t.text with
    | some r => .ok ⟨.register r, t.span⟩
    | none => .ok ⟨.datum (.label t.text), t.span⟩
  | .hexLiteral | .decimalLiteral => t.number.map fun v => ⟨.datum (.literal v), t.span⟩
  | .stringLiteral _ => .error (t.complain .stringOperand)
  | _ => .error (t.complain (.unexpectedOperand t.kind))

end Operand

inductive Content where
  | instruction (mnemonic : Mnemonic) (operands : List Operand)
  | fill (datum : Datum) (span : Span)
  /-- Some words of zero. -/
  | block (count : Word)
  /-- Some characters and a zero. -/
  | string (characters : List Word)
  deriving DecidableEq, Repr

def Content.size : Content → Nat
  | .instruction _ _ => 1
  | .fill _ _ => 1
  | .block count => count.toNat
  | .string characters => characters.length + 1

/-- A statement; its span is that of its mnemonic or directive. -/
structure Statement where
  line : Nat
  address : Word
  span : Span
  content : Content
  deriving DecidableEq, Repr

def Statement.size (s : Statement) : Nat := s.content.size

end LC3
