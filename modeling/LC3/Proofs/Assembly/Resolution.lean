import LC3.Proofs.Assembly.Denotation
import LC3.Proofs.Assembly.Layout
import LC3.Proofs.Format.Canonical
import LC3.Proofs.Machine.Semantics

/-!
Labels at work. An instruction with a label, run where the program puts it, computes exactly the
address that the label has, and that is what registers and cells show afterwards. Main statements:
`Access.leaves_after`, `step_of_assemble`.
-/

namespace LC3

/-- There are registers, so that a number names one. -/
local instance registers_ne_zero : NeZero 8 := ⟨by decide⟩

def Mnemonic.isRelative : Mnemonic → Bool
  | .br _ | .jsr | .ld | .ldi | .lea | .st | .sti => true
  | _ => false

/-- The status has the condition code of a letter of the suffix. -/
def BranchTest.Holds (test : BranchTest) (psr : Word) : Prop :=
  'N' ∈ test.letters ∧ psr.getLsbD 2 ∨ 'Z' ∈ test.letters ∧ psr.getLsbD 1 ∨
    'P' ∈ test.letters ∧ psr.getLsbD 0

instance (test : BranchTest) (psr : Word) : Decidable (test.Holds psr) :=
  inferInstanceAs (Decidable (_ ∨ _))

theorem BranchTest.flags_eq_zero_iff (test : BranchTest) (psr : Word) :
    test.flags &&& psr &&& 0b111 = 0 ↔ ¬ test.Holds psr := by
  have bits (n z p : Bool) :
      let bit (b : Bool) : Word := if b then 1 else 0
      test.flags &&& (bit n <<< 2 ||| bit z <<< 1 ||| bit p) = 0 ↔
        ¬ ('N' ∈ test.letters ∧ n ∨ 'Z' ∈ test.letters ∧ z ∨ 'P' ∈ test.letters ∧ p) := by
    revert n z p
    cases test
    all_goals decide
  rw [BitVec.and_assoc, ← Instruction.nzp_of_flags psr]
  exact bits _ _ _

/-- What a mnemonic does with the address of its label. -/
inductive Access where
  | branch (test : BranchTest)
  | call
  | load (dr : Register)
  | loadIndirect (dr : Register)
  | address (dr : Register)
  | store (sr : Register)
  | storeIndirect (sr : Register)
  deriving DecidableEq

namespace Access

def of? : Mnemonic → List OperandValue → Option Access
  | .br test, [_] => some (.branch test)
  | .jsr, [_] => some .call
  | .ld, [.register dr, _] => some (.load dr)
  | .ldi, [.register dr, _] => some (.loadIndirect dr)
  | .lea, [.register dr, _] => some (.address dr)
  | .st, [.register sr, _] => some (.store sr)
  | .sti, [.register sr, _] => some (.storeIndirect sr)
  | _, _ => none

variable (p : Processor) (target : Word)

/-- Where the program goes on after an instruction whose label has the address `target`. -/
def pc : Access → Word
  | .branch test => if test.Holds p.registers.psr then target else p.registers.pc + 1
  | .call => target
  | .load _ | .loadIndirect _ | .address _ => p.registers.pc + 1
  | .store _ | .storeIndirect _ => p.registers.pc + 1

/-- The word in a general register after it. -/
def register (r : Register) : Access → Word
  | .call => if r = 7 then p.registers.pc + 1 else p.registers.get r
  | .load dr => if r = dr then p.memory.get target else p.registers.get r
  | .loadIndirect dr =>
    if r = dr then p.memory.get (p.memory.get target) else p.registers.get r
  | .address dr => if r = dr then target else p.registers.get r
  | .branch _ | .store _ | .storeIndirect _ => p.registers.get r

/-- The word in a cell after it. -/
def cell (a : Word) : Access → Word
  | .store sr => if a = target then p.registers.get sr else p.memory.get a
  | .storeIndirect sr => if a = p.memory.get target then p.registers.get sr else p.memory.get a
  | .branch _ | .call | .load _ | .loadIndirect _ | .address _ => p.memory.get a

/-- The status after it: a register that is loaded sets the condition codes. -/
def psr : Access → Word
  | .load _ => p.registers.psr &&& 0xFFF8 ||| (p.memory.get target).flags
  | .loadIndirect _ => p.registers.psr &&& 0xFFF8 ||| (p.memory.get (p.memory.get target)).flags
  | .address _ => p.registers.psr &&& 0xFFF8 ||| target.flags
  | .branch _ | .call | .store _ | .storeIndirect _ => p.registers.psr

/-- What is read in the state `q` after an instruction whose label has the address `target`. -/
structure Leaves (access : Access) (q : Processor) : Prop where
  pc : q.registers.pc = access.pc p target
  register : ∀ r, q.registers.get r = access.register p target r
  cell : ∀ a, q.memory.get a = access.cell p target a
  psr : q.registers.psr = access.psr p target
  ir : q.registers.ir = p.memory.get p.registers.pc
  cycles : q.cycles = p.cycles + 1
  halted : q.halted = p.halted
  config : q.config = p.config

/-- The state after it. -/
def after : Access → Processor
  | .branch test => if test.Holds p.registers.psr then p.jump target else p.next
  | .call => p.call target
  | .load dr => p.result dr (p.memory.get target)
  | .loadIndirect dr => p.result dr (p.memory.get (p.memory.get target))
  | .address dr => p.result dr target
  | .store sr => p.write target (p.registers.get sr)
  | .storeIndirect sr => p.write (p.memory.get target) (p.registers.get sr)

theorem leaves_after (access : Access) : Leaves p target access (access.after p target) := by
  cases access with
  | branch test =>
      by_cases holds : test.Holds p.registers.psr
      · have goes : (branch test).pc p target = target := if_pos holds
        rw [after, if_pos holds]
        exact ⟨(p.pc_jump target).trans goes.symm, fun r => p.get_jump r target, fun _ => rfl,
          p.psr_jump target, rfl, rfl, rfl, rfl⟩
      · have stays : (branch test).pc p target = p.registers.pc + 1 := if_neg holds
        rw [after, if_neg holds]
        exact ⟨p.pc_next.trans stays.symm, fun r => p.get_next r, fun _ => rfl, p.psr_next, rfl,
          rfl, rfl, rfl⟩
  | call =>
      exact ⟨p.pc_call target, fun r => p.get_call r target, fun _ => rfl, p.psr_call target, rfl,
        rfl, rfl, rfl⟩
  | load dr | loadIndirect dr | address dr =>
      exact ⟨p.pc_result dr _, fun r => p.get_result dr r _, fun _ => rfl, p.psr_result dr _, rfl,
        rfl, rfl, rfl⟩
  | store sr | storeIndirect sr =>
      exact ⟨p.pc_write _ _, fun r => p.get_write r _ _, fun a => p.cell_write _ a _,
        p.psr_write _ _, rfl, rfl, rfl, rfl⟩

end Access

namespace Processor

variable {p : Processor} {here t offset : Word} {symbols : SymbolTable} {name : Label} {w : Width}

/-- The offset to a label leads from the instruction to the address of the label. -/
theorem atAddress_of_gives (given : Datum.Gives here symbols w (.label name) offset) :
    ∃ t, symbols.find? name = some t ∧ ∀ p : Processor, p.registers.pc = here →
      ∀ f, atAddress (p.relative offset) f = .ok (.running, f t) := by
  obtain ⟨t, found, distance⟩ := Option.map_eq_some_iff.mp given.1
  refine ⟨t, found, fun p here f => ?_⟩
  have reached : p.relative offset = t.toNat := by
    rw [relative, here, ← distance]
    omega
  rw [reached, atAddress_toNat]

end Processor

/-- What the mnemonics of a register and an offset from the program counter access. -/
theorem Mnemonic.Relative.exists_access {m : Mnemonic} {make : Register → Word → Instruction}
    (family : m.Relative make) : ∃ access : Register → Access,
      (∀ r value, Access.of? m [.register r, value] = some (access r)) ∧
        ∀ (p : Processor) r offset, p.perform (make r offset) =
          Processor.atAddress (p.relative offset) fun a => (access r).after p a := by
  cases family with
  | ld => exact ⟨.load, fun _ _ => rfl, fun _ _ _ => rfl⟩
  | ldi => exact ⟨.loadIndirect, fun _ _ => rfl, fun _ _ _ => rfl⟩
  | lea => exact ⟨.address, fun _ _ => rfl, fun _ _ _ => rfl⟩
  | st => exact ⟨.store, fun _ _ => rfl, fun _ _ _ => rfl⟩
  | sti => exact ⟨.storeIndirect, fun _ _ => rfl, fun _ _ _ => rfl⟩

/-- A branch goes to its address if its condition holds, and on to the next instruction if not. -/
theorem Processor.perform_br {p : Processor} {offset target : Word} {test : BranchTest}
    (reach : ∀ f, atAddress (p.relative offset) f = .ok (.running, f target)) :
    p.perform (.br test.flags offset) = .ok (.running, Access.after p target (.branch test)) := by
  rw [perform, Access.after, reach]
  by_cases holds : test.Holds p.registers.psr
  · rw [if_pos holds, if_neg (mt (test.flags_eq_zero_iff p.registers.psr).mp (not_not_intro holds))]
  · rw [if_neg holds, if_pos ((test.flags_eq_zero_iff p.registers.psr).mpr holds)]

namespace Denotes

variable {here : Word} {symbols : SymbolTable} {m : Mnemonic} {values : List OperandValue}
  {i : Instruction} {name : Label}

/-- The instruction of a mnemonic with an offset accesses the address to which the offset leads. -/
theorem exists_access (denotes : Denotes here symbols m values i)
    (relative : m.isRelative = true) :
    ∃ (access : Access) (d : Datum) (w : Width) (offset : Word),
      Access.of? m values = some access ∧
        (∀ name, .datum (.label name) ∈ values → .label name = d) ∧
          d.Gives here symbols w offset ∧ ∀ (p : Processor) target,
            (∀ f, Processor.atAddress (p.relative offset) f = .ok (.running, f target)) →
              p.perform i = .ok (.running, access.after p target) := by
  cases denotes with
  | @br test d offset given =>
      refine ⟨.branch test, d, 9, offset, rfl, fun name used => ?_, given, fun p target reach => ?_⟩
      · simpa using used
      · exact Processor.perform_br reach
  | @jsr d offset given =>
      refine ⟨.call, d, 11, offset, rfl, fun name used => ?_, given, fun p target reach => ?_⟩
      · simpa using used
      · exact reach p.call
  | @relative m make r d offset family given =>
      obtain ⟨access, chosen, performed⟩ := family.exists_access
      refine ⟨access r, d, 9, offset, chosen r _, fun name used => ?_, given,
        fun p target reach => ?_⟩
      · simpa using used
      · rw [performed, reach]
  | registers family | immediate family | based family | indirect family =>
      cases family <;> cases relative
  | _ => cases relative

theorem perform_label (denotes : Denotes here symbols m values i) (relative : m.isRelative = true)
    (used : .datum (.label name) ∈ values) :
    ∃ access t, Access.of? m values = some access ∧ symbols.find? name = some t ∧
      ∀ p : Processor, p.registers.pc = here →
        p.perform i = .ok (.running, access.after p t) := by
  obtain ⟨access, d, w, offset, chosen, label, given, performed⟩ := denotes.exists_access relative
  obtain rfl := label name used
  obtain ⟨t, found, reach⟩ := Processor.atAddress_of_gives given
  exact ⟨access, t, chosen, found, fun p here => performed p t (reach p here)⟩

end Denotes

/-- The processor is about to run the word at an address. -/
structure Processor.At (p : Processor) (a w : Word) : Prop where
  running : p.halted = false
  pc : p.registers.pc = a
  word : p.memory.get a = w

/-- Wherever a program uses a label, one step from there accesses the address of the label. -/
theorem step_of_assemble {source : List Char} {program : Program}
    (assembled : assemble source = .ok program) :
    ∃ l, Listing.ofText source = .ok l ∧ ∀ s ∈ l.statements, s.address ≠ 0xFFFF →
      ∀ m operands, s.content = .instruction m operands → m.isRelative = true →
        ∀ name, .datum (.label name) ∈ operands.map Operand.value →
          ∃ access t w, Access.of? m (operands.map Operand.value) = some access ∧
            program.symbols.find? name = some t ∧
            (∀ p : Processor, (p.loadProgram program).2.memory.get s.address = w) ∧
            ∀ p : Processor, p.At s.address w →
              ∃ q, p.step = (.ok .running, q) ∧ access.Leaves p t q := by
  obtain ⟨l, listed, emitted⟩ := assemble_eq_ok_iff.mp assembled
  have laid := Listing.laid_of_ofText listed
  have load := laid.load emitted
  obtain ⟨wss, emits, rfl⟩ := Listing.program_eq_ok_iff.mp emitted
  refine ⟨l, listed, fun s member inside m operands content relative name used => ?_⟩
  obtain ⟨-, ws, -, -, own, -⟩ := Statement.exists_stretch emits laid.consecutive member
  obtain ⟨w, rfl, encoded⟩ := own.encoded content
  obtain ⟨i, denotes, decoded⟩ := Statement.exists_denotes encoded
  obtain ⟨access, t, chosen, found, performed⟩ := denotes.perform_label relative used
  refine ⟨access, t, w, chosen, found, fun p => ?_, fun p ready => ?_⟩
  · obtain ⟨q, loaded, held⟩ := load p
    rw [loaded]
    simpa using (held s member [w] own).get 0 w rfl
  · have read : Instruction.decode p.config.features.decoding (p.memory.get p.registers.pc) =
        .ok i := by
      rw [ready.pc, ready.word]
      exact Instruction.decode_of_strict decoded _
    refine ⟨access.after p t, ?_, access.leaves_after p t⟩
    rw [Processor.step_of_decode ready.running (ready.pc ▸ inside) read, performed p ready.pc]
    rfl

def forwardSource : List Char := ".ORIG x3000\nLD R7, A\nHALT\nA .FILL 5".toList

def forwardProgram : Program := ⟨0x3000, [0x2E01, 0xF025, 5], ⟨[(['A'], 0x3002)], by decide⟩⟩

/-- The load in `forwardSource`. -/
def forwardLoad : Statement where
  line := 2
  address := 0x3000
  span := ⟨12, 2⟩
  content := .instruction .ld [⟨.register 7, ⟨15, 2⟩⟩, ⟨.datum (.label ['A']), ⟨19, 1⟩⟩]

theorem memory_forwardProgram (p : Processor) :
    (p.loadProgram forwardProgram).2.memory =
      ((p.memory.set 0x3000 0x2E01).set 0x3001 0xF025).set 0x3002 5 := rfl

theorem step_forwardLoad :
    assemble forwardSource = .ok forwardProgram ∧
      ∃ l, Listing.ofText forwardSource = .ok l ∧ forwardLoad ∈ l.statements ∧
        ∀ p : Processor, let loaded := (p.loadProgram forwardProgram).2
          loaded.At 0x3000 0x2E01 ∧ ∃ q, loaded.step = (.ok .running, q) ∧
            q.registers.get 7 = 5 ∧ q.registers.pc = 0x3001 ∧
              (∀ r, r ≠ 7 → q.registers.get r = p.registers.get r) ∧
                ∀ a, q.memory.get a = loaded.memory.get a := by
  have assembled : assemble forwardSource = .ok forwardProgram := rfl
  obtain ⟨l, listed, steps⟩ := step_of_assemble assembled
  have member : forwardLoad ∈ l.statements := by
    cases listed
    exact List.mem_cons_self
  obtain ⟨access, t, w, chosen, found, held, stepped⟩ :=
    steps forwardLoad member (by decide) .ld _ rfl rfl ['A'] (by decide)
  obtain rfl : Access.load 7 = access := Option.some.inj chosen
  obtain rfl : (0x3002 : Word) = t := Option.some.inj found
  refine ⟨assembled, l, listed, member, fun p => ?_⟩
  have word : (p.loadProgram forwardProgram).2.memory.get 0x3000 = 0x2E01 := by
    rw [memory_forwardProgram, Memory.get_set, if_neg (by decide), Memory.get_set,
      if_neg (by decide), Memory.get_set, if_pos rfl]
  obtain rfl : w = 0x2E01 := (held p).symm.trans word
  have ready : (p.loadProgram forwardProgram).2.At 0x3000 0x2E01 := ⟨rfl, rfl, word⟩
  obtain ⟨q, step, leaves⟩ := stepped _ ready
  refine ⟨ready, q, step, ?_, ?_, fun r other => ?_, leaves.cell⟩
  · rw [leaves.register 7, Access.register, if_pos rfl, memory_forwardProgram, Memory.get_set,
      if_pos rfl]
  · rw [leaves.pc, Access.pc, ready.pc]
    rfl
  · rw [leaves.register r, Access.register, if_neg other]
    rfl

end LC3
