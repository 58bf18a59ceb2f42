import Mathlib
import LC3.Machine.Processor

/-!
The instruction set, told from the state before an instruction alone. Every register and every cell
on the right of a rule is the one before the instruction, whatever the instruction writes. Addresses
are integers until they are used, and one outside memory is the fault. Main statement:
`step_eq_directStep`, the phases of the cycle come to the same.
-/

namespace LC3

/-- The condition codes of a result: negative, zero, positive. -/
def Word.flags (value : Word) : Word :=
  if value = 0 then 0b010 else if value.msb then 0b100 else 0b001

/-- The condition codes of a word read in two's complement. -/
theorem Word.flags_eq (value : Word) : value.flags =
    if value.toInt < 0 then 0b100 else if value.toInt = 0 then 0b010 else 0b001 := by
  have sign : value.toInt < 0 ↔ value.msb = true := by rw [BitVec.msb_eq_toInt]; simp
  have zero : value.toInt = 0 ↔ value = 0 := by
    rw [← BitVec.toInt_zero (w := 16), BitVec.toInt_inj]; rfl
  unfold Word.flags
  by_cases h : value = 0
  · subst h; decide
  · simp only [sign, zero, h, if_false]

namespace Processor

/-- There are registers, so that a number names one. -/
local instance registers_ne_zero : NeZero 8 := ⟨by decide⟩

/-- The state after an instruction that does nothing. -/
def next (p : Processor) : Processor :=
  { p with
    registers := { p.registers with ir := p.memory.get p.registers.pc, pc := p.registers.pc + 1 }
    cycles := p.cycles + 1 }

/-- A result goes to a register, and its condition codes to the low three bits of the status. -/
def result (p : Processor) (dr : Register) (value : Word) : Processor :=
  { p.next with
    registers :=
      { p.next.registers.set dr value with psr := p.registers.psr &&& 0xFFF8 ||| value.flags } }

def write (p : Processor) (address value : Word) : Processor :=
  { p.next with memory := p.memory.set address value }

def jump (p : Processor) (target : Word) : Processor := { p.next with registers.pc := target }

/-- A jump that leaves the address of the next instruction in R7. -/
def call (p : Processor) (target : Word) : Processor :=
  { p.next with registers := { p.next.registers.set 7 (p.registers.pc + 1) with pc := target } }

/-- The program counter and then the status come off the stack, to which R6 points. -/
def interruptReturn (p : Processor) (psr : Word) : Processor :=
  let stack := p.registers.get 6
  { p.next with
    registers := { p.next.registers.set 6 (stack + 2) with pc := p.memory.get stack, psr } }

section Reading

variable (p : Processor) (dr r : Register) (a b value target psr : Word)

@[simp] theorem get_next : p.next.registers.get r = p.registers.get r := rfl

@[simp] theorem pc_next : p.next.registers.pc = p.registers.pc + 1 := rfl

@[simp] theorem psr_next : p.next.registers.psr = p.registers.psr := rfl

@[simp] theorem memory_next : p.next.memory = p.memory := rfl

@[simp] theorem get_result : (p.result dr value).registers.get r =
    if r = dr then value else p.registers.get r := Registers.get_set p.next.registers dr r value

@[simp] theorem pc_result : (p.result dr value).registers.pc = p.registers.pc + 1 := rfl

@[simp] theorem psr_result : (p.result dr value).registers.psr =
    p.registers.psr &&& 0xFFF8 ||| value.flags := rfl

@[simp] theorem memory_result : (p.result dr value).memory = p.memory := rfl

@[simp] theorem get_write : (p.write a value).registers.get r = p.registers.get r := rfl

@[simp] theorem pc_write : (p.write a value).registers.pc = p.registers.pc + 1 := rfl

@[simp] theorem psr_write : (p.write a value).registers.psr = p.registers.psr := rfl

@[simp] theorem cell_write : (p.write a value).memory.get b =
    if b = a then value else p.memory.get b := p.memory.get_set a b value

@[simp] theorem get_jump : (p.jump target).registers.get r = p.registers.get r := rfl

@[simp] theorem pc_jump : (p.jump target).registers.pc = target := rfl

@[simp] theorem psr_jump : (p.jump target).registers.psr = p.registers.psr := rfl

@[simp] theorem memory_jump : (p.jump target).memory = p.memory := rfl

@[simp] theorem get_call : (p.call target).registers.get r =
    if r = 7 then p.registers.pc + 1 else p.registers.get r :=
  Registers.get_set p.next.registers 7 r (p.registers.pc + 1)

@[simp] theorem pc_call : (p.call target).registers.pc = target := rfl

@[simp] theorem psr_call : (p.call target).registers.psr = p.registers.psr := rfl

@[simp] theorem memory_call : (p.call target).memory = p.memory := rfl

@[simp] theorem get_interruptReturn : (p.interruptReturn psr).registers.get r =
    if r = 6 then p.registers.get 6 + 2 else p.registers.get r :=
  Registers.get_set p.next.registers 6 r (p.registers.get 6 + 2)

@[simp] theorem pc_interruptReturn : (p.interruptReturn psr).registers.pc =
    p.memory.get (p.registers.get 6) := rfl

@[simp] theorem psr_interruptReturn : (p.interruptReturn psr).registers.psr = psr := rfl

@[simp] theorem memory_interruptReturn : (p.interruptReturn psr).memory = p.memory := rfl

end Reading

def relative (p : Processor) (offset : Word) : Int := p.registers.pc.toNat + 1 + offset.toInt

def based (p : Processor) (base : Register) (offset : Word) : Int :=
  (p.registers.get base).toNat + offset.toInt

def source (p : Processor) : SecondSource → Word
  | .register sr2 => p.registers.get sr2
  | .immediate imm5 => imm5

/-- What comes of an address, if it is one. -/
def atAddress (address : Int) (f : Word → Processor) : Except Int (Status × Processor) :=
  if 0 ≤ address ∧ address ≤ 0xFFFF then .ok (.running, f (BitVec.ofInt 16 address))
  else .error address

/-- The result of an instruction and the state after it, or the address outside memory. -/
def perform (p : Processor) : Instruction → Except Int (Status × Processor)
  | .add dr sr1 src2 => .ok (.running, p.result dr (p.registers.get sr1 + p.source src2))
  | .and dr sr1 src2 => .ok (.running, p.result dr (p.registers.get sr1 &&& p.source src2))
  | .not dr sr => .ok (.running, p.result dr (~~~p.registers.get sr))
  | .br nzp offset =>
    if nzp &&& p.registers.psr &&& 0b111 = 0 then .ok (.running, p.next)
    else atAddress (p.relative offset) p.jump
  | .jmp base => .ok (.running, p.jump (p.registers.get base))
  | .jsr offset => atAddress (p.relative offset) p.call
  | .jsrr base => .ok (.running, p.call (p.registers.get base))
  | .ld dr offset => atAddress (p.relative offset) fun a => p.result dr (p.memory.get a)
  | .ldi dr offset =>
    atAddress (p.relative offset) fun a => p.result dr (p.memory.get (p.memory.get a))
  | .ldr dr base offset => atAddress (p.based base offset) fun a => p.result dr (p.memory.get a)
  | .lea dr offset => atAddress (p.relative offset) fun a => p.result dr a
  | .st sr offset => atAddress (p.relative offset) fun a => p.write a (p.registers.get sr)
  | .sti sr offset =>
    atAddress (p.relative offset) fun a => p.write (p.memory.get a) (p.registers.get sr)
  | .str sr base offset => atAddress (p.based base offset) fun a => p.write a (p.registers.get sr)
  | .trap vector =>
    let target := p.memory.get (vector.setWidth 16)
    if vector = 0x25 then .ok (.halted, { p.call target with halted := true })
    else .ok (.running, p.call target)
  | .rti =>
    atAddress ((p.registers.get 6).toNat + 1) fun a => p.interruptReturn (p.memory.get a)

/-- An address outside memory is a fault at the instruction, and nothing has happened. -/
def settle (p : Processor) : Except Int (Status × Processor) → Except Fault Status × Processor
  | .ok (status, after) => (.ok status, after)
  | .error address => (.error (.outOfMemory address p.registers.pc), p)

/-- One instruction, in terms of the state before it. -/
def directStep (p : Processor) : Except Fault Status × Processor :=
  let pc := p.registers.pc
  let word := p.memory.get pc
  if pc = 0xFFFF then (.error (.outOfMemory 0x10000 pc), p)
  else
    match Instruction.decode p.config.features.decoding word with
    | .error _ => (.error (.unsupported word pc), p)
    | .ok i => p.settle (p.perform i)

variable {p : Processor} {i : Instruction}

theorem atAddress_toNat (a : Word) (f : Word → Processor) :
    atAddress a.toNat f = .ok (.running, f a) := by
  have := a.isLt
  rw [atAddress, if_pos (by omega), BitVec.ofInt_natCast, BitVec.ofNat_toNat, BitVec.setWidth_eq]

/-- An integer is the address of a cell or lies outside memory. -/
theorem exists_address_or (address : Int) :
    (∃ a : Word, address = a.toNat) ∨ ¬ (0 ≤ address ∧ address ≤ 0xFFFF) := by
  by_cases inside : 0 ≤ address ∧ address ≤ 0xFFFF
  · refine .inl ⟨BitVec.ofInt 16 address, ?_⟩
    rw [BitVec.toNat_ofInt]
    omega
  · exact .inr inside

theorem atAddress_eq_ok_iff {address : Int} {f : Word → Processor} {result : Status × Processor} :
    atAddress address f = .ok result ↔ ∃ a : Word, address = a.toNat ∧ result = (.running, f a) := by
  constructor
  · intro reached
    obtain ⟨a, rfl⟩ | outside := exists_address_or address
    · rw [atAddress_toNat, Except.ok.injEq] at reached
      exact ⟨a, rfl, reached.symm⟩
    · rw [atAddress, if_neg outside] at reached
      cases reached
  · rintro ⟨a, rfl, rfl⟩
    exact atAddress_toNat a f

theorem bits_conditionOf (value : Word) : (Condition.of value).bits = value.flags := by
  rw [value.flags_eq, Condition.of]
  split
  · rfl
  · split
    · rfl
    · rfl

theorem toNat_next_pc (inside : p.registers.pc ≠ 0xFFFF) :
    (p.registers.pc + 1).toNat = p.registers.pc.toNat + 1 := by
  have := p.registers.pc.isLt
  have : p.registers.pc.toNat ≠ 0xFFFF := fun h => inside (BitVec.eq_of_toNat_eq h)
  rw [BitVec.toNat_add]
  simp
  omega

def effect (p : Processor) (i : Instruction) : Except Fault Effect := do
  let address := Cycle.effectiveAddress? p.next.registers i
  let operands ← Cycle.fetchOperands p.memory p.next.registers p.registers.pc address i
  Cycle.execute p.next.registers p.registers.pc address operands i

/-- The state that the last phase of an instruction leaves. -/
def finish (p : Processor) : Except Fault Effect → Except Fault Status × Processor
  | .error fault => (.error fault, p)
  | .ok e => (.ok (p.next.store e).1, (p.next.store e).2)

theorem fetch_eq (inside : p.registers.pc ≠ 0xFFFF) :
    Cycle.fetch p.memory p.registers = (.ok (), p.next.registers) := by
  simp only [Cycle.fetch, if_neg inside]
  rfl

/-- The last phase leaves the cycle count alone. -/
theorem store_next (p : Processor) (e : Effect) :
    p.next.store e =
      let (status, after) := { p with registers := p.next.registers }.store e
      (status, { after with cycles := after.cycles + 1 }) := by
  cases e <;> rfl

theorem step_eq_effect (running : p.halted = false) (inside : p.registers.pc ≠ 0xFFFF)
    (decoded : Instruction.decode p.config.features.decoding (p.memory.get p.registers.pc) =
      .ok i) :
    p.step = p.finish (p.effect i) := by
  have read : Cycle.decode p.config.features.decoding p.next.registers.ir p.registers.pc =
      .ok i := by
    simp only [Cycle.decode, next, decoded]
  have planned : Cycle.plan p.config.features.decoding p.memory p.next.registers p.registers.pc =
      p.effect i := by
    simp only [Cycle.plan, read, effect, bind, Except.bind]
  rw [step, if_neg (by rw [running]; decide), cycle, fetch_eq inside]
  simp only [planned]
  cases p.effect i with
  | error fault => rfl
  | ok e => rw [finish, store_next]

theorem relative_eq (inside : p.registers.pc ≠ 0xFFFF) (offset : Word) :
    (p.next.registers.pc.toNat : Int) + offset.toInt = p.relative offset := by
  simp only [next, relative, toNat_next_pc inside]
  omega

theorem finish_target {address : Int} {effect : Word → Effect} {after : Word → Processor}
    (stored : ∀ a, p.next.store (effect a) = (.running, after a)) :
    p.finish ((Cycle.target p.registers.pc (some address)).map effect) =
      p.settle (atAddress address after) := by
  simp only [Cycle.target, atAddress, Interval.mem_iff, Interval.words]
  split
  · simp only [Except.map, finish, settle, stored]
  · rfl

theorem finish_read {address : Int} {effect : Word → Effect} {after : Word → Processor}
    (stored : ∀ w, p.next.store (effect w) = (.running, after w)) :
    p.finish ((Cycle.read p.memory p.registers.pc address).map effect) =
      p.settle (atAddress address fun a => after (p.memory.get a)) := by
  simp only [Cycle.read, Memory.read, atAddress, Interval.mem_iff, Interval.words]
  split
  · simp only [Except.mapError, Except.map, finish, settle, stored]
  · rfl

theorem read_word (m : Memory) (pc a : Word) : Cycle.read m pc a.toNat = .ok (m.get a) := by
  have := a.isLt
  have inside : (a.toNat : Int) ∈ Interval.words := by
    simp only [Interval.mem_iff, Interval.words]; omega
  simp only [Cycle.read, Memory.read, if_pos inside, BitVec.ofInt_natCast, BitVec.ofNat_toNat,
    BitVec.setWidth_eq]
  rfl

theorem target_toNat (pc a : Word) : Cycle.target pc (some a.toNat) = .ok a := by
  have := a.isLt
  have inside : (a.toNat : Int) ∈ Interval.words := by
    simp only [Interval.mem_iff, Interval.words]; omega
  rw [Cycle.target, if_pos inside, BitVec.ofInt_natCast, BitVec.ofNat_toNat, BitVec.setWidth_eq]

theorem read_eq_ok_iff {m : Memory} {pc value : Word} {address : Int} :
    Cycle.read m pc address = .ok value ↔ ∃ a : Word, address = a.toNat ∧ value = m.get a := by
  constructor
  · intro reached
    obtain ⟨a, rfl⟩ | outside := exists_address_or address
    · rw [read_word, Except.ok.injEq] at reached
      exact ⟨a, rfl, reached.symm⟩
    · have outside : address ∉ Interval.words := outside
      rw [Cycle.read, Memory.read, if_neg outside] at reached
      cases reached
  · rintro ⟨a, rfl, rfl⟩
    exact read_word m pc a

theorem store_result (p : Processor) (dr : Register) (value : Word) :
    p.next.store (.result dr value) = (.running, p.result dr value) := by
  simp only [store, Registers.writeResult, Registers.setCondition, bits_conditionOf]
  rfl

theorem store_cell (p : Processor) (sr : Register) (a : Word) :
    p.next.store (.cell a (p.registers.get sr)) = (.running, p.write a (p.registers.get sr)) := rfl

theorem store_interruptReturn (p : Processor) (psr : Word) :
    p.next.store (.interruptReturn (p.memory.get (p.registers.get 6)) psr
      (p.registers.get 6 + 2)) = (.running, p.interruptReturn psr) := rfl

theorem effect_br (inside : p.registers.pc ≠ 0xFFFF) (nzp offset : Word) :
    p.effect (.br nzp offset) =
      if nzp &&& p.registers.psr &&& 0b111 = 0 then .ok .nothing
      else (Cycle.target p.registers.pc (some (p.relative offset))).map fun a => .jump a false := by
  rw [← relative_eq inside]
  rfl

theorem effect_jsr (inside : p.registers.pc ≠ 0xFFFF) (offset : Word) :
    p.effect (.jsr offset) =
      (Cycle.target p.registers.pc (some (p.relative offset))).map fun a => .jump a true := by
  rw [← relative_eq inside]
  rfl

theorem effect_ld (inside : p.registers.pc ≠ 0xFFFF) (dr : Register) (offset : Word) :
    p.effect (.ld dr offset) =
      (Cycle.read p.memory p.registers.pc (p.relative offset)).map (.result dr) := by
  simp only [effect, Cycle.effectiveAddress?, Cycle.fetchOperands, Cycle.readEffective,
    Cycle.execute, relative_eq inside]
  cases Cycle.read p.memory p.registers.pc (p.relative offset) <;> rfl

theorem effect_ldi (inside : p.registers.pc ≠ 0xFFFF) (dr : Register) (offset : Word) :
    p.effect (.ldi dr offset) =
      (Cycle.read p.memory p.registers.pc (p.relative offset)).map
        fun pointer => .result dr (p.memory.get pointer) := by
  simp only [effect, Cycle.effectiveAddress?, Cycle.fetchOperands, Cycle.readEffective,
    Cycle.execute, relative_eq inside, read_word]
  cases Cycle.read p.memory p.registers.pc (p.relative offset) <;> rfl

theorem effect_ldr (p : Processor) (dr base : Register) (offset : Word) :
    p.effect (.ldr dr base offset) =
      (Cycle.read p.memory p.registers.pc (p.based base offset)).map (.result dr) := by
  simp only [effect, Cycle.effectiveAddress?, Cycle.fetchOperands, Cycle.readEffective,
    Cycle.execute]
  change (Except.map _ (Cycle.read _ _ (p.based base offset)) >>= _) = _
  cases Cycle.read p.memory p.registers.pc (p.based base offset) <;> rfl

theorem effect_lea (inside : p.registers.pc ≠ 0xFFFF) (dr : Register) (offset : Word) :
    p.effect (.lea dr offset) =
      (Cycle.target p.registers.pc (some (p.relative offset))).map (.result dr) := by
  rw [← relative_eq inside]
  rfl

theorem effect_st (inside : p.registers.pc ≠ 0xFFFF) (sr : Register) (offset : Word) :
    p.effect (.st sr offset) =
      (Cycle.target p.registers.pc (some (p.relative offset))).map
        fun a => .cell a (p.registers.get sr) := by
  rw [← relative_eq inside]
  rfl

theorem effect_sti (inside : p.registers.pc ≠ 0xFFFF) (sr : Register) (offset : Word) :
    p.effect (.sti sr offset) =
      (Cycle.read p.memory p.registers.pc (p.relative offset)).map
        fun pointer => .cell pointer (p.registers.get sr) := by
  simp only [effect, Cycle.effectiveAddress?, Cycle.fetchOperands, Cycle.readEffective,
    Cycle.execute, relative_eq inside]
  cases Cycle.read p.memory p.registers.pc (p.relative offset) <;> rfl

theorem effect_str (p : Processor) (sr base : Register) (offset : Word) :
    p.effect (.str sr base offset) =
      (Cycle.target p.registers.pc (some (p.based base offset))).map
        fun a => .cell a (p.registers.get sr) := rfl

theorem effect_rti (p : Processor) :
    p.effect .rti =
      (Cycle.read p.memory p.registers.pc ((p.registers.get 6).toNat + 1)).map
        fun psr => .interruptReturn (p.memory.get (p.registers.get 6)) psr
          (p.registers.get 6 + 2) := by
  simp only [effect, Cycle.fetchOperands, get_next, Register.stack]
  rw [read_word]
  cases Cycle.read p.memory p.registers.pc ((p.registers.get 6).toNat + 1) with
  | error fault => rfl
  | ok psr =>
      simp only [bind, Except.bind, Cycle.execute, pure, Except.pure, Except.map, get_next,
        Register.stack]

theorem effect_trap (p : Processor) (vector : BitVec 8) :
    p.effect (.trap vector) =
      .ok (.trap (p.memory.get (vector.setWidth 16)) (vector == Cycle.haltVector)) := by
  have address : ((vector.setWidth 16 : Word).toNat : Int) = vector.toNat := by
    rw [BitVec.toNat_setWidth_of_le (by decide)]
  simp only [effect, Cycle.effectiveAddress?, Cycle.fetchOperands, Cycle.readEffective, ← address]
  rw [read_word]
  rfl

theorem finish_result (dr : Register) (value : Word) :
    p.finish (.ok (.result dr value)) = p.settle (.ok (.running, p.result dr value)) := by
  simp only [finish, store_result, settle]

/-- The phases after the fetch leave what the instruction set says. -/
theorem finish_effect (inside : p.registers.pc ≠ 0xFFFF) :
    p.finish (p.effect i) = p.settle (p.perform i) := by
  cases i with
  | add dr sr1 src2 =>
      cases src2 with
      | register sr2 => exact finish_result dr _
      | immediate imm5 => exact finish_result dr _
  | and dr sr1 src2 =>
      cases src2 with
      | register sr2 => exact finish_result dr _
      | immediate imm5 => exact finish_result dr _
  | not dr sr => exact finish_result dr _
  | br nzp offset =>
      rw [effect_br inside, perform]
      split
      · rfl
      · exact finish_target fun a => rfl
  | jmp base => rfl
  | jsr offset =>
      rw [effect_jsr inside]
      exact finish_target fun a => rfl
  | jsrr base => rfl
  | ld dr offset =>
      rw [effect_ld inside]
      exact finish_read (store_result p dr)
  | ldi dr offset =>
      rw [effect_ldi inside]
      exact finish_read fun pointer => store_result p dr (p.memory.get pointer)
  | ldr dr base offset =>
      rw [effect_ldr]
      exact finish_read (store_result p dr)
  | lea dr offset =>
      rw [effect_lea inside]
      exact finish_target (store_result p dr)
  | st sr offset =>
      rw [effect_st inside]
      exact finish_target (store_cell p sr)
  | sti sr offset =>
      rw [effect_sti inside]
      exact finish_read (store_cell p sr)
  | str sr base offset =>
      rw [effect_str]
      exact finish_target (store_cell p sr)
  | rti =>
      rw [effect_rti]
      exact finish_read (store_interruptReturn p)
  | trap vector =>
      rw [effect_trap, perform]
      by_cases halts : vector = 0x25
      · subst halts
        rfl
      · have other : (vector == Cycle.haltVector) = false := by simpa [Cycle.haltVector] using halts
        rw [if_neg halts, other]
        rfl

theorem step_of_halted (halted : p.halted = true) : p.step = (.ok .halted, p) := by
  rw [step, if_pos halted]

theorem step_of_last (running : p.halted = false) (last : p.registers.pc = 0xFFFF) :
    p.step = (.error (.outOfMemory 0x10000 p.registers.pc), p) := by
  rw [step, if_neg (by rw [running]; decide), cycle]
  simp only [Cycle.fetch, if_pos last]
  rfl

theorem step_of_undecodable {cause : InstructionError} (running : p.halted = false)
    (inside : p.registers.pc ≠ 0xFFFF)
    (undecodable : Instruction.decode p.config.features.decoding (p.memory.get p.registers.pc) =
      .error cause) :
    p.step = (.error (.unsupported (p.memory.get p.registers.pc) p.registers.pc), p) := by
  have read : Cycle.decode p.config.features.decoding p.next.registers.ir p.registers.pc =
      .error (.unsupported (p.memory.get p.registers.pc) p.registers.pc) := by
    simp only [Cycle.decode, next, undecodable]
  rw [step, if_neg (by rw [running]; decide), cycle, fetch_eq inside]
  simp only [Cycle.plan, read, bind, Except.bind]
  rfl

theorem step_of_decode (running : p.halted = false) (inside : p.registers.pc ≠ 0xFFFF)
    (decoded : Instruction.decode p.config.features.decoding (p.memory.get p.registers.pc) =
      .ok i) :
    p.step = p.settle (p.perform i) := by
  rw [← finish_effect inside, step_eq_effect running inside decoded]

theorem directStep_of_decode (inside : p.registers.pc ≠ 0xFFFF)
    (decoded : Instruction.decode p.config.features.decoding (p.memory.get p.registers.pc) =
      .ok i) :
    p.directStep = p.settle (p.perform i) := by
  simp only [directStep, if_neg inside, decoded]

/-- The phases of the cycle come to what the instruction set says of the state before them. -/
theorem step_eq_directStep (p : Processor) (running : p.halted = false) :
    p.step = p.directStep := by
  unfold directStep
  by_cases last : p.registers.pc = 0xFFFF
  · rw [step_of_last running last, if_pos last]
  · rw [if_neg last]
    cases decoded : Instruction.decode p.config.features.decoding
      (p.memory.get p.registers.pc) with
    | ok i => exact step_of_decode running last decoded
    | error cause => exact step_of_undecodable running last decoded

/-- A machine about to call through R7, where calls leave the address to return to. -/
def callingThroughLink : Processor where
  config := {}
  registers := { Registers.zero.set 7 0x4000 with pc := 0x3000 }
  memory := Memory.zero.set 0x3000 0x41C0
  cycles := 0
  halted := false

theorem step_callingThroughLink :
    callingThroughLink.halted = false ∧ callingThroughLink.step = callingThroughLink.directStep ∧
      ∃ q, callingThroughLink.directStep = (.ok .running, q) ∧ q.registers.pc = 0x4000 ∧
        (∀ r, q.registers.get r = if r = 7 then 0x3001 else 0) ∧ q.registers.psr = 0 ∧
          ∀ a, q.memory.get a = if a = 0x3000 then 0x41C0 else 0 := by
  have cell (a : Word) : callingThroughLink.memory.get a = if a = 0x3000 then 0x41C0 else 0 := by
    rw [callingThroughLink, Memory.get_set, Memory.get_zero]
  have register (r : Register) :
      callingThroughLink.registers.get r = if r = 7 then 0x4000 else 0 := by
    rw [← Registers.get_zero r]
    exact Registers.get_set Registers.zero 7 r 0x4000
  have decoded : Instruction.decode callingThroughLink.config.features.decoding
      (callingThroughLink.memory.get 0x3000) = .ok (.jsrr 7) := by
    rw [cell]
    rfl
  refine ⟨rfl, step_eq_directStep _ rfl, callingThroughLink.call 0x4000, ?_, rfl, ?_, rfl, cell⟩
  · rw [directStep_of_decode (by decide) decoded, perform, register]
    rfl
  · intro r
    rw [get_call, register]
    split
    · rfl
    · rfl

end Processor
end LC3
