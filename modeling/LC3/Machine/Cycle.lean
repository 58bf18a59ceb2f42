import LC3.Instruction
import LC3.Machine.Fault
import LC3.Machine.Memory
import LC3.Machine.Registers

/-!
The phases of an instruction cycle up to the last one, storing. The fetch writes two registers, even
where it fails; the phases after it only read the machine, and each sees what the phases before it
found: the registers after the fetch, the effective address, the operands. So an instruction whose
operand is also its destination uses the old value.
-/

namespace LC3

structure Operands where
  first : Word := 0
  second : Word := 0
  deriving DecidableEq, Repr

/-- What an instruction does to the machine. -/
inductive Effect where
  | nothing
  | result (dr : Register) (value : Word)
  | cell (address value : Word)
  /-- With `link`, the address of the next instruction is kept in the link register. -/
  | jump (target : Word) (link : Bool)
  | trap (target : Word) (halt : Bool)
  | interruptReturn (pc psr stack : Word)
  deriving DecidableEq, Repr

namespace Cycle

/-- The trap vector that halts the processor. -/
def haltVector : BitVec 8 := 0x25

/-- Takes the instruction at the program counter, which then moves on and must not leave memory. -/
def fetch (m : Memory) (r : Registers) : Except Fault Unit × Registers :=
  let taken := { r with ir := m.get r.pc }
  if r.pc = 0xFFFF then (.error (.outOfMemory 0x10000 r.pc), taken)
  else (.ok (), { taken with pc := r.pc + 1 })

def decode (d : Decoding) (word pc : Word) : Except Fault Instruction :=
  match Instruction.decode d word with
  | .ok i => .ok i
  | .error _ => .error (.unsupported word pc)

/-- The address that an instruction computes, which may lie outside memory. -/
def effectiveAddress? (r : Registers) : Instruction → Option Int
  | .br _ offset | .jsr offset => some (r.pc.toNat + offset.toInt)
  | .ld _ offset | .ldi _ offset | .lea _ offset => some (r.pc.toNat + offset.toInt)
  | .st _ offset | .sti _ offset => some (r.pc.toNat + offset.toInt)
  | .ldr _ base offset | .str _ base offset => some ((r.get base).toNat + offset.toInt)
  | .trap vector => some vector.toNat
  | .add _ _ _ | .and _ _ _ | .not _ _ | .jmp _ | .jsrr _ | .rti => none

def read (m : Memory) (pc : Word) (address : Int) : Except Fault Word :=
  (m.read address).mapError fun e => .outOfMemory e.address pc

def readEffective (m : Memory) (pc : Word) : Option Int → Except Fault Word
  | some address => read m pc address
  | none => .error (.noAddress pc)

def sourceValue (r : Registers) : SecondSource → Word
  | .register sr2 => r.get sr2
  | .immediate imm5 => imm5

/-- Reads the operands of the instruction at `pc`. -/
def fetchOperands (m : Memory) (r : Registers) (pc : Word) (address : Option Int) :
    Instruction → Except Fault Operands
  | .add _ sr1 src2 | .and _ sr1 src2 => .ok ⟨r.get sr1, sourceValue r src2⟩
  | .not _ sr | .st sr _ | .str sr _ _ => .ok { first := r.get sr }
  | .jmp base | .jsrr base => .ok { first := r.get base }
  | .ld _ _ | .ldr _ _ _ | .trap _ => (readEffective m pc address).map fun w => { first := w }
  | .ldi _ _ => do
    let pointer ← readEffective m pc address
    return ⟨← read m pc pointer.toNat, pointer⟩
  | .sti sr _ => do
    let pointer ← readEffective m pc address
    return ⟨r.get sr, pointer⟩
  | .rti => do
    let stack : Int := (r.get .stack).toNat
    return ⟨← read m pc stack, ← read m pc (stack + 1)⟩
  | .br _ _ | .jsr _ | .lea _ _ => .ok {}

/-- The effective address as a word, for a program counter, a register or a store. -/
def target (pc : Word) : Option Int → Except Fault Word
  | some address =>
    if address ∈ Interval.words then .ok (BitVec.ofInt 16 address)
    else .error (.outOfMemory address pc)
  | none => .error (.noAddress pc)

/-- The effect of the instruction at `pc`. -/
def execute (r : Registers) (pc : Word) (address : Option Int) (operands : Operands) :
    Instruction → Except Fault Effect
  | .add dr _ _ => .ok (.result dr (operands.first + operands.second))
  | .and dr _ _ => .ok (.result dr (operands.first &&& operands.second))
  | .not dr _ => .ok (.result dr (~~~operands.first))
  | .br nzp _ =>
    if nzp &&& r.psr &&& Condition.mask = 0 then .ok .nothing
    else (target pc address).map fun a => .jump a false
  | .jmp _ => .ok (.jump operands.first false)
  | .jsr _ => (target pc address).map fun a => .jump a true
  | .jsrr _ => .ok (.jump operands.first true)
  | .ld dr _ | .ldi dr _ | .ldr dr _ _ => .ok (.result dr operands.first)
  | .lea dr _ => (target pc address).map (.result dr)
  | .st _ _ | .str _ _ _ => (target pc address).map fun a => .cell a operands.first
  | .sti _ _ => .ok (.cell operands.second operands.first)
  | .trap vector => .ok (.trap operands.first (vector == haltVector))
  | .rti => .ok (.interruptReturn operands.first operands.second (r.get .stack + 2))

/-- The phases between the fetch and storing, for the instruction fetched from `pc`. -/
def plan (d : Decoding) (m : Memory) (r : Registers) (pc : Word) : Except Fault Effect := do
  let i ← decode d r.ir pc
  let address := effectiveAddress? r i
  let operands ← fetchOperands m r pc address i
  execute r pc address operands i

end Cycle
end LC3
