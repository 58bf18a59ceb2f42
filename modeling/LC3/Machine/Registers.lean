import LC3.Register
import LC3.Word.Codec

/-!
The registers of the processor. The low three bits of the status register are the condition codes;
writing a result to a general register sets exactly one of them and keeps the other status bits.
Main statement: `condition?_writeResult`, the condition after a result is its sign.
-/

namespace LC3

inductive Condition where
  | negative
  | zero
  | positive
  deriving DecidableEq, Repr

namespace Condition

def name : Condition → String
  | .negative => "N"
  | .zero => "Z"
  | .positive => "P"

def bits : Condition → Word
  | .negative => 0b100
  | .zero => 0b010
  | .positive => 0b001

/-- The sign of a word in two's complement. -/
def of (value : Word) : Condition :=
  if value.toInt < 0 then .negative else if value.toInt = 0 then .zero else .positive

/-- The status bits that hold conditions. -/
def mask : Word := 0b111

end Condition

structure Registers where
  general : Vector Word 8
  pc : Word
  ir : Word
  psr : Word
  deriving DecidableEq

namespace Registers

def zero : Registers := ⟨Vector.replicate 8 0, 0, 0, 0⟩

def get (r : Registers) (register : Register) : Word := r.general.get register

def set (r : Registers) (register : Register) (value : Word) : Registers :=
  { r with general := r.general.set register.val value register.isLt }

/-- The condition in the status register, if there is exactly one. -/
def condition? (r : Registers) : Option Condition :=
  let flags := r.psr &&& Condition.mask
  if flags = Condition.negative.bits then some .negative
  else if flags = Condition.zero.bits then some .zero
  else if flags = Condition.positive.bits then some .positive
  else none

def setCondition (r : Registers) (c : Condition) : Registers :=
  { r with psr := (r.psr &&& ~~~Condition.mask) ||| c.bits }

/-- Writes a result and sets the condition codes by it. -/
def writeResult (r : Registers) (register : Register) (value : Word) : Registers :=
  (r.set register value).setCondition (.of value)

theorem get_zero (register : Register) : zero.get register = 0 := by
  simp [zero, get, Vector.get]

theorem get_set (r : Registers) (a b : Register) (value : Word) :
    (r.set a value).get b = if b = a then value else r.get b := by
  simp only [get, set, Vector.get, Fin.ext_iff, eq_comm (a := b.val)]
  exact Vector.getElem_set ..

@[simp] theorem get_setCondition (r : Registers) (c : Condition) (register : Register) :
    (r.setCondition c).get register = r.get register := rfl

theorem get_writeResult (r : Registers) (a b : Register) (value : Word) :
    (r.writeResult a value).get b = if b = a then value else r.get b := get_set r a b value

/-- Replacing the condition codes leaves no other flag. -/
theorem flags_setCondition (r : Registers) (c : Condition) :
    (r.setCondition c).psr &&& Condition.mask = c.bits := by
  have own : c.bits &&& Condition.mask = c.bits := by cases c <;> decide
  apply BitVec.eq_of_getLsbD_eq
  intro i hi
  have bit := congrArg (·.getLsbD i) own
  simp only [setCondition, BitVec.getLsbD_and, BitVec.getLsbD_or, BitVec.getLsbD_not, hi] at bit ⊢
  cases hm : Condition.mask.getLsbD i <;> cases hc : c.bits.getLsbD i <;> simp_all

theorem condition?_setCondition (r : Registers) (c : Condition) :
    (r.setCondition c).condition? = some c := by
  simp only [condition?, flags_setCondition]
  cases c <;> decide

/-- After a result is written, the condition is its sign. -/
theorem condition?_writeResult (r : Registers) (register : Register) (value : Word) :
    (r.writeResult register value).condition? = some (.of value) := by
  exact condition?_setCondition (r.set register value) (.of value)

end Registers
end LC3
