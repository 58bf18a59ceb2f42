import LC3.Assembly.Statement
import LC3.Source.Line

/-!
The form of a line on its own: an optional label with an optional colon, and then nothing, a
mnemonic or a directive with the tokens after it.
-/

namespace LC3

inductive Clause where
  | blank
  | label (label : Token)
  | instruction (label : Option Token) (head : Token) (mnemonic : Mnemonic) (operands : List Token)
  | directive (label : Option Token) (head : Token) (directive : Directive) (operands : List Token)
  deriving DecidableEq, Repr

namespace Clause

def dropColon : List Token → List Token
  | t :: rest => if t.kind = .colon then rest else t :: rest
  | [] => []

/-- A name that is no mnemonic labels its line, and must not be a register. -/
def splitLabel : List Token → Except Complaint (Option Token × List Token)
  | [] => .ok (none, [])
  | t :: rest =>
    if t.role = .identifier ∧ Mnemonic.ofName? t.text = none then
      if Register.ofName? t.text = none then .ok (some t, dropColon rest)
      else .error (t.complain (.registerAsLabel t.text))
    else .ok (none, t :: rest)

def ofRest (label : Option Token) : List Token → Except Complaint Clause
  | [] => .ok (label.elim .blank .label)
  | head :: operands =>
    match head.role with
    | .identifier =>
      match Mnemonic.ofName? head.text with
      | some m => .ok (.instruction label head m operands)
      | none => .error (head.complain (.unknownInstruction head.text))
    | .directive =>
      match Directive.ofName? head.text with
      | some d => .ok (.directive label head d operands)
      | none => .error (head.complain (.unknownDirective head.text))
    | kind => .error (head.complain (.unexpectedStart kind))

def ofTokens (tokens : List Token) : Except Complaint Clause := do
  let (name, rest) ← splitLabel tokens
  ofRest name rest

def single (head : Token) : List Token → Except Complaint Token
  | [t] => .ok t
  | [] => .error (head.complain (.operandMissing head.text))
  | _ :: extra :: _ => .error (extra.complain (.extraOperand extra.kind))

def fillDatum (t : Token) : Except Complaint Datum := do
  match (← Operand.ofToken t).value with
  | .datum d => return d
  | .register _ => throw (t.complain .fillRegister)

def blockCount (t : Token) : Except Complaint Word :=
  if t.role = .hexLiteral ∨ t.role = .decimalLiteral then t.unsignedWord .block
  else .error (t.complain .blockSize)

end Clause
end LC3
