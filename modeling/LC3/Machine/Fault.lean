import LC3.Program
import LC3.Word.Numeral

/-!
What stops a processor or refuses a program.
-/

namespace LC3

/-- A failure of a load, a step or a run. The last one does not arise in a step. -/
inductive Fault where
  | unsupported (word pc : Word)
  | outOfMemory (address : Int) (pc : Word)
  | image (cause : ImageError)
  | noAddress (pc : Word)
  deriving DecidableEq, Repr

namespace Fault

def message : Fault → String
  | .unsupported word pc => s!"Unsupported instruction {Word.hex word} at {Word.hex pc}"
  | .outOfMemory address pc =>
    s!"Address {address} is outside memory (instruction at {Word.hex pc})"
  | .image cause => cause.message
  | .noAddress pc => s!"internal error: the instruction at {Word.hex pc} has no address"

def code : Fault → String
  | .unsupported _ _ => "sim::unsupported_opcode"
  | .outOfMemory _ _ => "sim::memory_out_of_range"
  | .image cause => cause.code
  | .noAddress _ => "sim::internal"

def help? : Fault → Option String
  | .unsupported _ _ =>
    some "opcode 1101 is reserved; other opcodes must keep their constant bits"
  | .outOfMemory _ _ | .image _ | .noAddress _ => none

end Fault
end LC3
