import LC3.Assembly.Encoding
import LC3.Config
import LC3.Machine.Cycle

/-!
The processor. An operation answers with a result and the state after it; one that fails leaves the
state as it was. A run repeats steps until the processor halts, a step fails or the limit of the
settings is reached, whichever is first, and finds a halt before the limit.
-/

namespace LC3

structure Processor where
  config : Config
  registers : Registers
  memory : Memory
  /-- Instructions retired since the last load or reset. -/
  cycles : Nat
  halted : Bool

inductive Status where
  | running
  | halted
  deriving DecidableEq, Repr

inductive Stop where
  | halted
  | cycleLimit
  deriving DecidableEq, Repr

namespace Processor

def new (config : Config) : Processor := ⟨config, .zero, .zero, 0, false⟩

def reset (p : Processor) : Processor := .new p.config

def halt (p : Processor) : Processor := { p with halted := true }

def resume (p : Processor) : Processor := { p with halted := false }

/-- Writes words from the origin on and goes there. All else in memory and registers stays. -/
def load (p : Processor) (origin : Word) (words : List Word) : Except Fault Unit × Processor :=
  match p.memory.load origin words with
  | .ok memory =>
    (.ok (), { p with memory, registers.pc := origin, cycles := 0, halted := false })
  | .error e => (.error (.outOfMemory e.address p.registers.pc), p)

def loadProgram (p : Processor) (program : Program) : Except Fault Unit × Processor :=
  p.load program.origin program.words

def loadImage (p : Processor) (image : List Word) : Except Fault Unit × Processor :=
  match Program.ofImage image with
  | .ok program => p.loadProgram program
  | .error cause => (.error (.image cause), p)

def store (p : Processor) : Effect → Status × Processor
  | .nothing => (.running, p)
  | .result dr value => (.running, { p with registers := p.registers.writeResult dr value })
  | .cell address value => (.running, { p with memory := p.memory.set address value })
  | .jump target link =>
    let registers := if link then p.registers.set .link p.registers.pc else p.registers
    (.running, { p with registers := { registers with pc := target } })
  | .trap target halt =>
    let registers := p.registers.set .link p.registers.pc
    (if halt then .halted else .running,
      { p with registers := { registers with pc := target }, halted := halt || p.halted })
  | .interruptReturn pc psr stack =>
    let registers := p.registers.set .stack stack
    (.running, { p with registers := { registers with pc, psr } })

/-- One instruction cycle. Where it fails, the registers are as the fetch left them. -/
def cycle (p : Processor) : Except Fault Status × Processor :=
  match Cycle.fetch p.memory p.registers with
  | (.error fault, registers) => (.error fault, { p with registers })
  | (.ok (), registers) =>
    let fetched := { p with registers }
    match Cycle.plan p.config.features.decoding p.memory registers p.registers.pc with
    | .error fault => (.error fault, fetched)
    | .ok effect =>
      let (status, after) := fetched.store effect
      (.ok status, { after with cycles := after.cycles + 1 })

/-- Sets the two registers that a fetch writes. -/
def setFetch (p : Processor) (pc ir : Word) : Processor :=
  { p with registers := { p.registers with pc, ir } }

@[simp] theorem setFetch_setFetch (p : Processor) (pc ir : Word) :
    (p.setFetch pc ir).setFetch p.registers.pc p.registers.ir = p := rfl

/-- One instruction cycle, unless the processor is halted. The fetch of a cycle that fails is
undone. -/
def step (p : Processor) : Except Fault Status × Processor :=
  if p.halted then (.ok .halted, p)
  else
    match p.cycle with
    | (.ok status, after) => (.ok status, after)
    | (.error fault, after) => (.error fault, after.setFetch p.registers.pc p.registers.ir)

/-- The settings allow no more instructions in a run that began at this count of cycles. -/
def isSpent (p : Processor) (start : Nat) : Bool :=
  p.config.maxCycles.any fun limit => limit ≤ p.cycles - start

/-- Repeats steps, in a run that began at the count of cycles `start`. There is no answer where it
would take `fuel` steps or more. -/
def runFrom (start : Nat) : (fuel : Nat) → Processor → Option (Except Fault Stop × Processor)
  | 0, _ => none
  | fuel + 1, p =>
    if p.halted then some (.ok .halted, p)
    else if p.isSpent start then some (.ok .cycleLimit, p)
    else
      match p.step with
      | (.error fault, after) => some (.error fault, after)
      | (.ok _, after) => runFrom start fuel after

/-- More steps than a run without a limit can be waited for. -/
def horizon : Nat := 0x10000000000000000

/-- Runs within the limit of the settings. Without a limit there is no answer where the program
neither halts nor fails before the horizon. -/
def run (p : Processor) : Option (Except Fault Stop × Processor) :=
  p.runFrom p.cycles (p.config.maxCycles.getD horizon + 1)

end Processor
end LC3
