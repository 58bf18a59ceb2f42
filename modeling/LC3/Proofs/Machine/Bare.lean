import LC3.Proofs.Format.Canonical
import LC3.Proofs.Machine.Semantics
import LC3.Proofs.Machine.Stepping

/-!
The machine without what its types promise. Registers and cells are arrays of any size, and whatever
is looked up, in them or in a table of formats, may be missing. Main statement: `unbroken`, a step
of this machine finds all that it looks up, and so is a step of the processor.
-/

namespace LC3

/-- Why a bare machine stops: a fault, or something that it looks up is missing. -/
inductive Failure where
  | fault (cause : Fault)
  | missingLayout (opcode : Opcode) (mode : Nat)
  | missingField (opcode : Opcode) (field : FieldName)
  | registerIndex (index : Nat)
  | missingAddress (i : Instruction)
  | missingRegister (index : Nat)
  | missingCell (index : Nat)

structure Bare where
  config : Config
  general : Array Word
  cells : Array Word
  pc : Word
  ir : Word
  psr : Word
  cycles : Nat
  halted : Bool

namespace Bare

def element (missing : Nat → Failure) (words : Array Word) (index : Nat) : Except Failure Word :=
  match words[index]? with
  | some word => .ok word
  | none => .error (missing index)

def replace (missing : Nat → Failure) (words : Array Word) (index : Nat) (word : Word) :
    Except Failure (Array Word) :=
  if inside : index < words.size then .ok (words.set index word inside)
  else .error (missing index)

def register (b : Bare) (r : Register) : Except Failure Word :=
  element .missingRegister b.general r.val

def setRegister (b : Bare) (r : Register) (value : Word) : Except Failure Bare :=
  (replace .missingRegister b.general r.val value).map fun general => { b with general }

def setCell (b : Bare) (address value : Word) : Except Failure Bare :=
  (replace .missingCell b.cells address.toNat value).map fun cells => { b with cells }

/-- An address outside memory is a fault of the instruction at `pc`; any other has a cell. -/
def read (b : Bare) (pc : Word) (address : Int) : Except Failure Word :=
  if address ∈ Interval.words then element .missingCell b.cells address.toNat
  else .error (.fault (.outOfMemory address pc))

/-- The parts of a word, by the layout that its format has under the number of its mode. -/
def parts (d : Decoding) (word : Word) : Except Failure (Except DecodeError Parts) :=
  let opcode := Opcode.of word
  match opcode.format? with
  | none => .ok (.error (.unknownOpcode opcode))
  | some format =>
    match format.layouts[format.modeOf word]? with
    | none => .error (.missingLayout opcode (format.modeOf word))
    | some layout =>
      match d, layout.mismatch? word with
      | .strict, some (range, expected, found) =>
        .ok (.error (.constantBits opcode range expected found))
      | _, _ => .ok (.ok ⟨opcode, format.modeOf word, layout.read word⟩)

def decode (d : Decoding) (word pc : Word) : Except Failure Instruction := do
  match ← parts d word with
  | .error _ => throw (.fault (.unsupported word pc))
  | .ok p =>
    match Instruction.ofParts p with
    | .ok i => return i
    | .error (.undecodable _) => throw (.fault (.unsupported word pc))
    | .error (.missingField opcode field) => throw (.missingField opcode field)
    | .error (.registerIndex index) => throw (.registerIndex index)

def effectiveAddress? (b : Bare) : Instruction → Except Failure (Option Int)
  | .br _ offset | .jsr offset => .ok (some (b.pc.toNat + offset.toInt))
  | .ld _ offset | .ldi _ offset | .lea _ offset => .ok (some (b.pc.toNat + offset.toInt))
  | .st _ offset | .sti _ offset => .ok (some (b.pc.toNat + offset.toInt))
  | .ldr _ base offset | .str _ base offset =>
    (b.register base).map fun address => some (address.toNat + offset.toInt)
  | .trap vector => .ok (some vector.toNat)
  | .add _ _ _ | .and _ _ _ | .not _ _ | .jmp _ | .jsrr _ | .rti => .ok none

/-- The address that this instruction must have computed. -/
def demand (i : Instruction) : Option Int → Except Failure Int
  | some address => .ok address
  | none => .error (.missingAddress i)

def source (b : Bare) : SecondSource → Except Failure Word
  | .register sr2 => b.register sr2
  | .immediate imm5 => .ok imm5

def operands (b : Bare) (pc : Word) (address : Option Int) (i : Instruction) :
    Except Failure Operands :=
  match i with
  | .add _ sr1 src2 | .and _ sr1 src2 => do return ⟨← b.register sr1, ← b.source src2⟩
  | .not _ sr | .st sr _ | .str sr _ _ => do return { first := ← b.register sr }
  | .jmp base | .jsrr base => do return { first := ← b.register base }
  | .ld _ _ | .ldr _ _ _ | .trap _ => do return { first := ← b.read pc (← demand i address) }
  | .ldi _ _ => do
    let pointer ← b.read pc (← demand i address)
    return ⟨← b.read pc pointer.toNat, pointer⟩
  | .sti sr _ => do
    let value ← b.register sr
    return ⟨value, ← b.read pc (← demand i address)⟩
  | .rti => do
    let stack ← b.register .stack
    return ⟨← b.read pc stack.toNat, ← b.read pc (stack.toNat + 1)⟩
  | .br _ _ | .jsr _ | .lea _ _ => .ok {}

def target (i : Instruction) (pc : Word) (address : Option Int) : Except Failure Word := do
  let address ← demand i address
  if address ∈ Interval.words then return BitVec.ofInt 16 address
  else throw (.fault (.outOfMemory address pc))

def execute (b : Bare) (pc : Word) (address : Option Int) (operands : Operands)
    (i : Instruction) : Except Failure Effect :=
  match i with
  | .add dr _ _ => .ok (.result dr (operands.first + operands.second))
  | .and dr _ _ => .ok (.result dr (operands.first &&& operands.second))
  | .not dr _ => .ok (.result dr (~~~operands.first))
  | .br nzp _ =>
    if nzp &&& b.psr &&& Condition.mask = 0 then .ok .nothing
    else (target i pc address).map fun a => .jump a false
  | .jmp _ => .ok (.jump operands.first false)
  | .jsr _ => (target i pc address).map fun a => .jump a true
  | .jsrr _ => .ok (.jump operands.first true)
  | .ld dr _ | .ldi dr _ | .ldr dr _ _ => .ok (.result dr operands.first)
  | .lea dr _ => (target i pc address).map (.result dr)
  | .st _ _ | .str _ _ _ => (target i pc address).map fun a => .cell a operands.first
  | .sti _ _ => .ok (.cell operands.second operands.first)
  | .trap vector => .ok (.trap operands.first (vector == Cycle.haltVector))
  | .rti =>
    (b.register .stack).map fun stack =>
      .interruptReturn operands.first operands.second (stack + 2)

def store (b : Bare) : Effect → Except Failure (Status × Bare)
  | .nothing => .ok (.running, b)
  | .result dr value =>
    (b.setRegister dr value).map fun b =>
      (.running, { b with psr := (b.psr &&& ~~~Condition.mask) ||| (Condition.of value).bits })
  | .cell address value => (b.setCell address value).map fun b => (.running, b)
  | .jump target true =>
    (b.setRegister .link b.pc).map fun b => (.running, { b with pc := target })
  | .jump target false => .ok (.running, { b with pc := target })
  | .trap target halt =>
    (b.setRegister .link b.pc).map fun b =>
      (if halt then .halted else .running, { b with pc := target, halted := halt || b.halted })
  | .interruptReturn pc psr stack =>
    (b.setRegister .stack stack).map fun b => (.running, { b with pc, psr })

/-- The phases between decoding and storing, for the instruction fetched from `pc`. -/
def effect (b : Bare) (pc : Word) (i : Instruction) : Except Failure Effect := do
  let address ← b.effectiveAddress? i
  let operands ← b.operands pc address i
  b.execute pc address operands i

/-- One instruction cycle, unless the machine is halted. Nothing is left of one that fails. -/
def step (b : Bare) : Except Failure (Status × Bare) :=
  if b.halted then .ok (.halted, b)
  else do
    let word ← b.read b.pc b.pc.toNat
    if b.pc = 0xFFFF then throw (.fault (.outOfMemory 0x10000 b.pc))
    else
      let fetched := { b with ir := word, pc := b.pc + 1 }
      let i ← decode b.config.features.decoding word b.pc
      let effect ← fetched.effect b.pc i
      let (status, after) ← fetched.store effect
      return (status, { after with cycles := after.cycles + 1 })

end Bare

namespace Processor

/-- The processor without the promise that it has eight registers and 65536 cells. -/
def bare (p : Processor) : Bare where
  config := p.config
  general := p.registers.general.toArray
  cells := p.memory.cells.toArray
  pc := p.registers.pc
  ir := p.registers.ir
  psr := p.registers.psr
  cycles := p.cycles
  halted := p.halted

/-- Nothing that a step looks up is missing, nor anything that decoding does, whatever the word. -/
structure Unbroken (p : Processor) : Prop where
  decodes_iff : ∀ d word, (∃ i, Instruction.decode d word = .ok i) ↔
    ∃ parts, Parts.decode d word = .ok parts
  /-- A word is refused for its opcode or its constant bits, not for a field or a register. -/
  refused : ∀ d word e, Instruction.decode d word = .error e →
    ∃ cause, e = .undecodable cause ∧ Parts.decode d word = .error cause
  layouts : ∀ d word, Bare.parts d word = .ok (Parts.decode d word)
  addressed : ∀ pc, p.step.1 ≠ .error (.noAddress pc)
  step : p.bare.step =
    (p.step.1.mapError .fault).map fun status => (status, p.step.2.bare)

variable {p : Processor} {i : Instruction} {d : Decoding} {word : Word}

theorem Bare.element_of_getElem? {missing : Nat → Failure} {words : Array Word} {index : Nat}
    (found : words[index]? = some word) : Bare.element missing words index = .ok word := by
  rw [Bare.element, found]

theorem Bare.replace_of_lt {missing : Nat → Failure} {words : Array Word} {index : Nat}
    (inside : index < words.size) (value : Word) :
    Bare.replace missing words index value = .ok (words.set index value inside) :=
  dif_pos inside

theorem register_bare (p : Processor) (r : Register) :
    p.bare.register r = .ok (p.registers.get r) := by
  have inside : r.val < p.registers.general.toArray.size := by simp [r.isLt]
  exact Bare.element_of_getElem? (Array.getElem?_eq_getElem inside)

theorem setRegister_bare (p : Processor) (r : Register) (value : Word) :
    p.bare.setRegister r value = .ok { p with registers := p.registers.set r value }.bare := by
  have inside : r.val < p.bare.general.size := by simp [bare, r.isLt]
  rw [Bare.setRegister, Bare.replace_of_lt inside]
  rfl

theorem setCell_bare (p : Processor) (a value : Word) :
    p.bare.setCell a value = .ok { p with memory := p.memory.set a value }.bare := by
  have inside : a.toNat < p.bare.cells.size := by simp [bare, a.isLt]
  rw [Bare.setCell, Bare.replace_of_lt inside]
  rfl

theorem read_bare (p : Processor) (pc : Word) (address : Int) :
    p.bare.read pc address = (Cycle.read p.memory pc address).mapError .fault := by
  obtain ⟨a, rfl⟩ | outside := exists_address_or address
  · have inside : a.toNat < p.memory.cells.toArray.size := by simp [a.isLt]
    have own : (a.toNat : Int) ∈ Interval.words :=
      Word.toNat_mem_of_le a (by decide) (by decide)
    rw [read_word, Bare.read, if_pos own]
    exact Bare.element_of_getElem? (Array.getElem?_eq_getElem inside)
  · have outside : address ∉ Interval.words := outside
    rw [Bare.read, if_neg outside, Cycle.read, Memory.read, if_neg outside]
    rfl

theorem Bare.parts_eq (d : Decoding) (word : Word) :
    Bare.parts d word = .ok (Parts.decode d word) := by
  unfold Bare.parts Parts.decode
  cases known : (Opcode.of word).format? with
  | none => simp [known]
  | some format =>
      simp only [known, format.layouts_modeOf word]
      cases d with
      | lenient => rfl
      | strict => cases (format.layoutOf word).mismatch? word <;> rfl

/-- Whatever parts a word has, they make an instruction. -/
theorem exists_decode_iff :
    (∃ i, Instruction.decode d word = .ok i) ↔ ∃ parts, Parts.decode d word = .ok parts := by
  constructor
  · rintro ⟨i, decoded⟩
    exact ⟨i.toParts, Instruction.parts_of_decode decoded⟩
  · rintro ⟨p, parts⟩
    obtain ⟨l, of⟩ := Parts.exists_of_decode parts
    obtain ⟨i, made⟩ := Instruction.exists_ofParts of
    exact ⟨i, Instruction.decode_eq_ok_iff.mpr ⟨p, parts, made⟩⟩

theorem undecodable_of_decode {e : InstructionError}
    (refused : Instruction.decode d word = .error e) :
    ∃ cause, e = .undecodable cause ∧ Parts.decode d word = .error cause := by
  cases parts : Parts.decode d word with
  | ok p =>
      obtain ⟨i, decoded⟩ := exists_decode_iff.mpr ⟨p, parts⟩
      rw [refused] at decoded
      cases decoded
  | error cause =>
      rw [Instruction.decode, parts] at refused
      cases refused
      exact ⟨cause, rfl, rfl⟩

theorem Bare.decode_eq (d : Decoding) (word pc : Word) :
    Bare.decode d word pc = (Cycle.decode d word pc).mapError .fault := by
  rw [Bare.decode, parts_eq, Cycle.decode]
  cases decoded : Instruction.decode d word with
  | ok i =>
      obtain ⟨p, parts, made⟩ := Instruction.decode_eq_ok_iff.mp decoded
      simp only [parts, made, bind, Except.bind]
      rfl
  | error e =>
      obtain ⟨cause, rfl, parts⟩ := undecodable_of_decode decoded
      rw [parts]
      rfl

theorem effectiveAddress?_bare (p : Processor) (i : Instruction) :
    p.bare.effectiveAddress? i = .ok (Cycle.effectiveAddress? p.registers i) := by
  cases i with
  | ldr r base offset | str r base offset =>
      rw [Bare.effectiveAddress?, register_bare]
      rfl
  | _ => rfl

theorem operands_bare (p : Processor) (pc : Word) (i : Instruction) :
    p.bare.operands pc (Cycle.effectiveAddress? p.registers i) i =
      (Cycle.fetchOperands p.memory p.registers pc (Cycle.effectiveAddress? p.registers i)
        i).mapError .fault := by
  cases i with
  | add dr sr1 src2 | and dr sr1 src2 =>
      cases src2 with
      | register sr2 =>
          simp only [Bare.operands, Bare.source, register_bare]
          rfl
      | immediate imm5 =>
          simp only [Bare.operands, Bare.source, register_bare]
          rfl
  | not r sr | jmp r | jsrr r | st r offset | str r base offset =>
      simp only [Bare.operands, register_bare]
      rfl
  | ld dr offset | ldr dr base offset | trap vector =>
      simp only [Bare.operands, Cycle.effectiveAddress?, Bare.demand, Stage.ok_bind, read_bare,
        Cycle.fetchOperands, Cycle.readEffective]
      cases Cycle.read p.memory pc _ <;> rfl
  | ldi dr offset =>
      simp only [Bare.operands, Cycle.effectiveAddress?, Bare.demand, Stage.ok_bind, read_bare,
        Cycle.fetchOperands, Cycle.readEffective, read_word]
      cases Cycle.read p.memory pc _ <;> rfl
  | sti sr offset =>
      simp only [Bare.operands, register_bare, Cycle.effectiveAddress?, Bare.demand, Stage.ok_bind,
        read_bare, Cycle.fetchOperands, Cycle.readEffective]
      cases Cycle.read p.memory pc _ <;> rfl
  | rti =>
      simp only [Bare.operands, register_bare, Stage.ok_bind, read_bare, Cycle.fetchOperands,
        read_word]
      cases Cycle.read p.memory pc ((p.registers.get .stack).toNat + 1) <;> rfl
  | br nzp offset => rfl
  | jsr offset | lea dr offset => rfl

theorem target_bare (i : Instruction) (pc : Word) (address : Int) :
    Bare.target i pc (some address) = (Cycle.target pc (some address)).mapError .fault := by
  simp only [Bare.target, Bare.demand, Cycle.target, bind, Except.bind]
  split
  · rfl
  · rfl

theorem execute_bare (p : Processor) (pc : Word) (operands : Operands) (i : Instruction) :
    p.bare.execute pc (Cycle.effectiveAddress? p.registers i) operands i =
      (Cycle.execute p.registers pc (Cycle.effectiveAddress? p.registers i) operands
        i).mapError .fault := by
  cases i with
  | br nzp offset =>
      simp only [Bare.execute, Cycle.effectiveAddress?, Cycle.execute, target_bare, bare]
      split
      · rfl
      · cases Cycle.target pc _ <;> rfl
  | jsr offset | lea r offset | st r offset | str r base offset =>
      simp only [Bare.execute, Cycle.effectiveAddress?, Cycle.execute, target_bare]
      cases Cycle.target pc _ <;> rfl
  | rti =>
      simp only [Bare.execute, register_bare]
      rfl
  | _ => rfl

theorem store_bare (p : Processor) (e : Effect) :
    p.bare.store e = .ok ((p.store e).1, (p.store e).2.bare) := by
  cases e with
  | nothing => rfl
  | result dr value =>
      rw [Bare.store, setRegister_bare]
      rfl
  | cell address value =>
      rw [Bare.store, setCell_bare]
      rfl
  | jump target link =>
      cases link with
      | true =>
          have linked : p.bare.setRegister .link p.bare.pc = _ :=
            setRegister_bare p .link p.registers.pc
          rw [Bare.store, linked]
          rfl
      | false => rfl
  | trap target halt =>
      have linked : p.bare.setRegister .link p.bare.pc = _ :=
        setRegister_bare p .link p.registers.pc
      rw [Bare.store, linked]
      rfl
  | interruptReturn pc psr stack =>
      rw [Bare.store, setRegister_bare]
      rfl

theorem step_ne_noAddress (p : Processor) (pc : Word) : p.step.1 ≠ .error (.noAddress pc) := by
  cases halted : p.halted with
  | true =>
      rw [step_of_halted halted]
      nofun
  | false =>
      by_cases last : p.registers.pc = 0xFFFF
      · rw [step_of_last halted last]
        nofun
      · cases decoded : Instruction.decode p.config.features.decoding
            (p.memory.get p.registers.pc) with
        | error cause =>
            rw [step_of_undecodable halted last decoded]
            nofun
        | ok i =>
            rw [step_of_decode halted last decoded]
            cases p.perform i with
            | ok result => nofun
            | error address => nofun

theorem effect_bare (p : Processor) (i : Instruction) :
    { p with registers := p.next.registers }.bare.effect p.registers.pc i =
      (p.effect i).mapError .fault := by
  rw [Bare.effect, effectiveAddress?_bare, Stage.ok_bind, operands_bare, effect]
  cases Cycle.fetchOperands p.memory p.next.registers p.registers.pc
      (Cycle.effectiveAddress? p.next.registers i) i with
  | error fault => rfl
  | ok operands => exact execute_bare { p with registers := p.next.registers } _ operands i

theorem finish_bare (p : Processor) (result : Except Fault Effect) :
    (do
      let effect ← result.mapError Failure.fault
      let (status, after) ← { p with registers := p.next.registers }.bare.store effect
      return (status, { after with cycles := after.cycles + 1 })) =
        ((p.finish result).1.mapError .fault).map fun status =>
          (status, (p.finish result).2.bare) := by
  cases result with
  | error fault => rfl
  | ok e =>
      have stored := store_bare { p with registers := p.next.registers } e
      simp only [Except.mapError, Stage.ok_bind, stored, finish, store_next]
      rfl

theorem step_bare (p : Processor) :
    p.bare.step = (p.step.1.mapError .fault).map fun status => (status, p.step.2.bare) := by
  cases halted : p.halted with
  | true =>
      rw [step_of_halted halted, Bare.step, if_pos (show p.bare.halted = true from halted)]
      rfl
  | false =>
      have running : ¬ p.bare.halted = true := by
        rw [bare, halted]
        exact Bool.false_ne_true
      have fetched : p.bare.read p.bare.pc p.bare.pc.toNat = .ok (p.memory.get p.registers.pc) := by
        rw [read_bare, bare, read_word]
        rfl
      rw [Bare.step, if_neg running, fetched, Stage.ok_bind]
      by_cases last : p.registers.pc = 0xFFFF
      · rw [if_pos (show p.bare.pc = 0xFFFF from last), step_of_last halted last]
        rfl
      · rw [if_neg (show p.bare.pc ≠ 0xFFFF from last), Bare.decode_eq]
        cases decoded : Instruction.decode p.config.features.decoding
            (p.memory.get p.registers.pc) with
        | error cause =>
            have refused : Cycle.decode p.bare.config.features.decoding
                (p.memory.get p.registers.pc) p.bare.pc =
                .error (.unsupported (p.memory.get p.registers.pc) p.registers.pc) := by
              rw [Cycle.decode, bare, decoded]
            rw [step_of_undecodable halted last decoded, refused]
            rfl
        | ok i =>
            have known : Cycle.decode p.bare.config.features.decoding
                (p.memory.get p.registers.pc) p.bare.pc = .ok i := by
              rw [Cycle.decode, bare, decoded]
            rw [step_eq_effect halted last decoded, ← finish_bare, ← effect_bare, known]
            rfl

theorem unbroken (p : Processor) : p.Unbroken where
  decodes_iff _ _ := exists_decode_iff
  refused _ _ _ := undecodable_of_decode
  layouts := Bare.parts_eq
  addressed := p.step_ne_noAddress
  step := p.step_bare

end Processor
end LC3
