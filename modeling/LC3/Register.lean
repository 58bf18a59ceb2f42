/-!
The eight general registers and how source text names them.
-/

namespace LC3

abbrev Register := Fin 8

namespace Register

/-- The stack pointer of RTI. -/
def stack : Register := 6

/-- Where calls and traps leave the address to return to. -/
def link : Register := 7

def name (r : Register) : String := "R" ++ toString r.val

/-- A register is named by an R in either case and one digit below 8. -/
def ofName? : List Char → Option Register
  | [letter, digit] =>
    if (letter = 'r' ∨ letter = 'R') ∧ '0' ≤ digit ∧ digit ≤ '7' then
      some (Fin.ofNat 8 (digit.toNat - '0'.toNat))
    else none
  | _ => none

end Register
end LC3
