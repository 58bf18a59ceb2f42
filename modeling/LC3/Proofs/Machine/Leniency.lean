import LC3.Proofs.Format.Canonical
import LC3.Proofs.Machine.Loading
import LC3.Proofs.Machine.Running
import LC3.Proofs.Machine.Semantics

/-!
Constant bits left unchecked. A processor that does not check them does whatever one that checks
them does, as long as that one finds instructions, and itself refuses words of the reserved opcode
only. With the canonical word of its instruction in the place of a word with wrong constant bits,
the processor that checks them takes the same step. Main statement: `lenient_extends_strict`.
-/

namespace LC3
namespace Processor

/-- The processor with constant bits of instructions left unchecked, or checked. -/
def withLenient (p : Processor) (lenient : Bool) : Processor :=
  { p with config := { p.config with features := { p.config.features with lenient } } }

/-- The result is no complaint about a word that is no instruction. -/
def Supported {α : Type} (result : Except Fault α) : Prop :=
  ∀ word pc, result ≠ .error (.unsupported word pc)

theorem supported_ok {α : Type} (value : α) : Supported (.ok value) := by
  intro word pc unsupported
  cases unsupported

variable {p q mid : Processor} {i : Instruction} {c : Word}

/-- What is left of an instruction once its effect is known is no matter of the settings. -/
theorem finish_withLenient (p : Processor) (outcome : Except Fault Effect) (lenient : Bool) :
    (p.withLenient lenient).finish outcome =
      ((p.finish outcome).1, (p.finish outcome).2.withLenient lenient) := by
  cases outcome with
  | error fault => rfl
  | ok e => cases e <;> rfl

theorem step_withLenient (strict : p.config.features.lenient = false)
    (supported : Supported p.step.1) :
    (p.withLenient true).step = (p.step.1, p.step.2.withLenient true) := by
  cases halted : p.halted with
  | true =>
      rw [step_of_halted halted]
      exact step_of_halted (p := p.withLenient true) halted
  | false =>
      by_cases last : p.registers.pc = 0xFFFF
      · rw [step_of_last halted last]
        exact step_of_last (p := p.withLenient true) halted last
      · cases decoded : Instruction.decode p.config.features.decoding
          (p.memory.get p.registers.pc) with
        | error cause =>
            rw [step_of_undecodable halted last decoded] at supported
            exact absurd rfl (supported _ _)
        | ok i =>
            have strictly : p.config.features.decoding = .strict := by simp [Features.decoding, strict]
            have alike := Instruction.decode_of_strict (strictly ▸ decoded) .lenient
            rw [step_eq_effect halted last decoded,
              step_eq_effect (p := p.withLenient true) halted last alike]
            exact finish_withLenient p (p.effect i) true

theorem Retires.withLenient {k : Nat} (h : Retires k p q)
    (strict : p.config.features.lenient = false) :
    Retires k (p.withLenient true) (q.withLenient true) := by
  induction h with
  | none => exact .none
  | @step k p mid q status running stepped _ ih =>
      have known : Supported p.step.1 := by rw [stepped]; exact supported_ok status
      have stepped' : (p.withLenient true).step = (.ok status, mid.withLenient true) := by
        rw [step_withLenient strict known, stepped]
      exact .step running stepped' (ih (step_ok_config running stepped ▸ strict))

theorem runFrom_withLenient {start fuel : Nat} (strict : p.config.features.lenient = false)
    (supported : ∀ result ∈ p.runFrom start fuel, Supported result.1) :
    (p.withLenient true).runFrom start fuel =
      (p.runFrom start fuel).map fun r => (r.1, r.2.withLenient true) := by
  induction fuel generalizing p with
  | zero => rfl
  | succ fuel ih =>
      have halt : (p.withLenient true).halted = p.halted := rfl
      have spend : (p.withLenient true).isSpent start = p.isSpent start := rfl
      rw [runFrom] at supported
      rw [runFrom, runFrom, halt, spend]
      split
      · rfl
      · next running =>
        replace running : p.halted = false := Bool.eq_false_iff.mpr running
        rw [if_neg (by rw [running]; decide)] at supported
        split
        · rfl
        · next more =>
          rw [if_neg more] at supported
          cases stepped : p.step with
          | mk result mid =>
              rw [stepped] at supported
              cases result with
              | error fault =>
                  have known : Supported p.step.1 := fun word pc unsupported => by
                    rw [stepped] at unsupported
                    cases unsupported
                    exact supported _ rfl word pc rfl
                  rw [step_withLenient strict known, stepped]
                  rfl
              | ok status =>
                  have known : Supported p.step.1 := by rw [stepped]; exact supported_ok status
                  rw [step_withLenient strict known, stepped]
                  exact ih (step_ok_config running stepped ▸ strict) supported

/-- A step that leaves constant bits unchecked finds no instruction in a word of the reserved opcode,
and only there. -/
theorem step_unsupported_iff (lenient : p.config.features.lenient = true) :
    (∃ word pc, p.step.1 = .error (.unsupported word pc)) ↔ p.halted = false ∧
      p.registers.pc ≠ 0xFFFF ∧ (p.memory.get p.registers.pc).extractLsb' 12 4 = 0b1101 := by
  have decoding : p.config.features.decoding = .lenient := by simp [Features.decoding, lenient]
  constructor
  · rintro ⟨word, pc, failed⟩
    cases halted : p.halted with
    | true =>
        rw [step_of_halted halted] at failed
        cases failed
    | false =>
        by_cases last : p.registers.pc = 0xFFFF
        · rw [step_of_last halted last] at failed
          cases failed
        · refine ⟨rfl, last, ?_⟩
          by_contra other
          obtain ⟨i, decoded⟩ := Instruction.exists_decode_lenient_iff.mpr other
          rw [step_of_decode halted last (decoding ▸ decoded)] at failed
          cases performed : p.perform i with
          | ok result => rw [performed] at failed; cases failed
          | error address => rw [performed] at failed; cases failed
  · rintro ⟨running, inside, reserved⟩
    cases decoded : Instruction.decode .lenient (p.memory.get p.registers.pc) with
    | ok i => exact absurd reserved (Instruction.exists_decode_lenient_iff.mp ⟨i, decoded⟩)
    | error cause => exact ⟨_, _, by rw [step_of_undecodable running inside (decoding ▸ decoded)]⟩

/-- The instruction reads the cell at this address before it does anything else. -/
inductive Loads (p : Processor) : Instruction → Word → Prop
  | ld {dr offset} {a : Word} (place : p.relative offset = a.toNat) : Loads p (.ld dr offset) a
  | pointer {dr offset} {a : Word} (place : p.relative offset = a.toNat) :
      Loads p (.ldi dr offset) a
  | pointed {dr offset} {a : Word} (place : p.relative offset = a.toNat) :
      Loads p (.ldi dr offset) (p.memory.get a)
  | ldr {dr base offset} {a : Word} (place : p.based base offset = a.toNat) :
      Loads p (.ldr dr base offset) a
  | sti {sr offset} {a : Word} (place : p.relative offset = a.toNat) : Loads p (.sti sr offset) a
  | trap {vector} : Loads p (.trap vector) (vector.setWidth 16)
  | returnAddress : Loads p .rti (p.registers.get 6)
  | returnStatus {a : Word} (place : ((p.registers.get 6).toNat + 1 : Int) = a.toNat) :
      Loads p .rti a

/-- The instruction writes the cell at this address. -/
inductive Stores (p : Processor) : Instruction → Word → Prop
  | st {sr offset} {a : Word} (place : p.relative offset = a.toNat) : Stores p (.st sr offset) a
  | sti {sr offset} {a : Word} (place : p.relative offset = a.toNat) :
      Stores p (.sti sr offset) (p.memory.get a)
  | str {sr base offset} {a : Word} (place : p.based base offset = a.toNat) :
      Stores p (.str sr base offset) a

/-- The processor that checks constant bits, with another word in one cell. -/
def recode (p : Processor) (a word : Word) : Processor :=
  { p.withLenient false with memory := p.memory.set a word }

def withIr (p : Processor) (word : Word) : Processor :=
  { p with registers := { p.registers with ir := word } }

/-- A cell that is not read may hold another word. -/
theorem read_set {m : Memory} {pc here word : Word} {address : Int}
    (apart : ∀ a : Word, address = a.toNat → a ≠ here) :
    Cycle.read (m.set here word) pc address = Cycle.read m pc address := by
  obtain ⟨a, rfl⟩ | outside := exists_address_or address
  · rw [read_word, read_word, Memory.get_set, if_neg (apart a rfl)]
  · have outside : address ∉ Interval.words := outside
    rw [Cycle.read, Cycle.read, Memory.read, Memory.read, if_neg outside, if_neg outside]

/-- An instruction that does not read its own cell has the same effect whatever that cell holds. -/
theorem effect_recode (inside : p.registers.pc ≠ 0xFFFF) (apart : ¬ p.Loads i p.registers.pc) :
    (p.recode p.registers.pc c).effect i = p.effect i := by
  have inside' : (p.recode p.registers.pc c).registers.pc ≠ 0xFFFF := inside
  have other {a : Word} (loads : p.Loads i a) : a ≠ p.registers.pc := fun same => apart (same ▸ loads)
  have get {a : Word} (loads : p.Loads i a) :
      (p.recode p.registers.pc c).memory.get a = p.memory.get a := by
    rw [recode, Memory.get_set, if_neg (other loads)]
  cases i with
  | add dr sr1 src2 | and dr sr1 src2 => rfl
  | not dr sr => rfl
  | jmp base | jsrr base => rfl
  | br nzp offset => rfl
  | jsr offset | lea dr offset | st sr offset => rfl
  | str sr base offset => rfl
  | ld dr offset =>
      rw [effect_ld inside, effect_ld inside']
      exact congrArg (Except.map _) (read_set fun a place => other (.ld place))
  | ldr dr base offset =>
      rw [effect_ldr, effect_ldr]
      exact congrArg (Except.map _) (read_set fun a place => other (.ldr place))
  | sti sr offset =>
      rw [effect_sti inside, effect_sti inside']
      exact congrArg (Except.map _) (read_set fun a place => other (.sti place))
  | ldi dr offset =>
      rw [effect_ldi inside, effect_ldi inside']
      refine Eq.trans (congrArg (Except.map _) (read_set fun a place => other (.pointer place))) ?_
      apply Stage.map_congr_of_ok
      intro pointer reached
      obtain ⟨a, place, rfl⟩ := read_eq_ok_iff.mp reached
      exact congrArg (Effect.result dr) (get (.pointed place))
  | trap vector =>
      rw [effect_trap, effect_trap, get .trap]
  | rti =>
      rw [effect_rti, effect_rti]
      refine Eq.trans (congrArg (Except.map _) (read_set fun a place => other (.returnStatus place))) ?_
      apply Stage.map_congr_of_ok
      intro psr _
      exact congrArg (Effect.interruptReturn · psr _) (get .returnAddress)

theorem target_eq_ok_iff {pc a : Word} {address : Int} :
    Cycle.target pc (some address) = .ok a ↔ address = a.toNat := by
  constructor
  · intro reached
    obtain ⟨b, rfl⟩ | outside := exists_address_or address
    · rw [target_toNat, Except.ok.injEq] at reached
      rw [reached]
    · have outside : address ∉ Interval.words := outside
      rw [Cycle.target, if_neg outside] at reached
      cases reached
  · rintro rfl
    exact target_toNat pc a

theorem map_ne_cell {x : Except Fault Word} {f : Word → Effect} {a value : Word}
    (other : ∀ b, f b ≠ .cell a value) : x.map f ≠ .ok (.cell a value) := by
  intro stored
  obtain ⟨b, -, same⟩ := Stage.map_eq_ok.mp stored
  exact other b same

/-- The cells that an instruction writes are those of its effect. -/
theorem exists_effect_cell_iff (inside : p.registers.pc ≠ 0xFFFF) {a : Word} :
    (∃ value, p.effect i = .ok (.cell a value)) ↔ p.Stores i a := by
  constructor
  · rintro ⟨value, stored⟩
    cases i with
    | st sr offset =>
        rw [effect_st inside] at stored
        obtain ⟨b, reached, same⟩ := Stage.map_eq_ok.mp stored
        cases same
        exact .st (target_eq_ok_iff.mp reached)
    | str sr base offset =>
        rw [effect_str] at stored
        obtain ⟨b, reached, same⟩ := Stage.map_eq_ok.mp stored
        cases same
        exact .str (target_eq_ok_iff.mp reached)
    | sti sr offset =>
        rw [effect_sti inside] at stored
        obtain ⟨pointer, reached, same⟩ := Stage.map_eq_ok.mp stored
        cases same
        obtain ⟨b, place, rfl⟩ := read_eq_ok_iff.mp reached
        exact .sti place
    | add dr sr1 src2 | and dr sr1 src2 => cases stored
    | not dr sr => cases stored
    | jmp base | jsrr base => cases stored
    | trap vector => rw [effect_trap] at stored; cases stored
    | br nzp offset =>
        rw [effect_br inside] at stored
        split at stored
        · cases stored
        · exact absurd stored (map_ne_cell fun _ same => by cases same)
    | jsr offset =>
        rw [effect_jsr inside] at stored
        exact absurd stored (map_ne_cell fun _ same => by cases same)
    | ld dr offset =>
        rw [effect_ld inside] at stored
        exact absurd stored (map_ne_cell fun _ same => by cases same)
    | ldi dr offset =>
        rw [effect_ldi inside] at stored
        exact absurd stored (map_ne_cell fun _ same => by cases same)
    | ldr dr base offset =>
        rw [effect_ldr] at stored
        exact absurd stored (map_ne_cell fun _ same => by cases same)
    | lea dr offset =>
        rw [effect_lea inside] at stored
        exact absurd stored (map_ne_cell fun _ same => by cases same)
    | rti =>
        rw [effect_rti] at stored
        exact absurd stored (map_ne_cell fun _ same => by cases same)
  · intro stores
    cases stores with
    | @st sr offset _ place =>
        refine ⟨_, (effect_st inside sr offset).trans (Stage.map_eq_ok.mpr ⟨a, ?_, rfl⟩)⟩
        exact target_eq_ok_iff.mpr place
    | @str sr base offset _ place =>
        refine ⟨_, (effect_str p sr base offset).trans (Stage.map_eq_ok.mpr ⟨a, ?_, rfl⟩)⟩
        exact target_eq_ok_iff.mpr place
    | @sti sr offset b place =>
        refine ⟨_, (effect_sti inside sr offset).trans (Stage.map_eq_ok.mpr ⟨_, ?_, rfl⟩)⟩
        exact read_eq_ok_iff.mpr ⟨b, place, rfl⟩

/-- The step of the processor with the canonical word in the place of another, told from the step
with that other. -/
structure StepsAlike (p : Processor) (i : Instruction) (c : Word) (result : Except Fault Status)
    (q q' : Processor) : Prop where
  /-- Where no instruction is retired, nothing has happened to either. -/
  idle : (p.halted = true ∨ ∃ fault, result = .error fault) →
    q = p.withLenient true ∧ q' = p.recode p.registers.pc c
  /-- An instruction that writes its own cell leaves no other difference than the word fetched. -/
  overwritten : p.halted = false → (∃ status, result = .ok status) → p.Stores i p.registers.pc →
    q' = (q.withLenient false).withIr c
  kept : p.halted = false → (∃ status, result = .ok status) → ¬ p.Stores i p.registers.pc →
    q' = (q.recode p.registers.pc c).withIr c

theorem stepsAlike_of_idle {result : Except Fault Status}
    (idle : p.halted = false → ∀ status, result ≠ .ok status) :
    p.StepsAlike i c result (p.withLenient true) (p.recode p.registers.pc c) where
  idle _ := ⟨rfl, rfl⟩
  overwritten running := by
    rintro ⟨status, retired⟩
    exact absurd retired (idle running status)
  kept running := by
    rintro ⟨status, retired⟩
    exact absurd retired (idle running status)

theorem next_recode (p : Processor) (c : Word) :
    (p.recode p.registers.pc c).next =
      ((p.withLenient true).next.recode p.registers.pc c).withIr c := by
  have fetched : (p.memory.set p.registers.pc c).get p.registers.pc = c := by
    rw [Memory.get_set, if_pos rfl]
  simp only [next, recode, withLenient, fetched]
  rfl

theorem store_recode {e : Effect} {a : Word} (other : ∀ value, e ≠ .cell a value) :
    ((q.recode a c).withIr c).store e =
      ((q.store e).1, ((q.store e).2.recode a c).withIr c) := by
  cases e with
  | cell b value =>
      have apart : a ≠ b := fun same => other value (same ▸ rfl)
      simp only [store, withIr, recode, Memory.set_comm q.memory apart]
      rfl
  | nothing => rfl
  | result dr value => rfl
  | jump target link => cases link <;> rfl
  | trap target halt => rfl
  | interruptReturn pc psr stack => rfl

theorem store_recode_cell (a value : Word) :
    ((q.recode a c).withIr c).store (.cell a value) =
      (.running, (((q.store (.cell a value)).2).withLenient false).withIr c) := by
  simp only [store, withIr, recode, Memory.set_set]
  rfl

/-- One effect leaves both processors alike. -/
theorem finish_recode (running : p.halted = false) (inside : p.registers.pc ≠ 0xFFFF) :
    ∃ result q q', (p.withLenient true).finish (p.effect i) = (result, q) ∧
      (p.recode p.registers.pc c).finish (p.effect i) = (result, q') ∧
        p.StepsAlike i c result q q' := by
  cases effect : p.effect i with
  | error fault => exact ⟨_, _, _, rfl, rfl, stepsAlike_of_idle fun _ _ => by simp⟩
  | ok e =>
      have retired (s : Status) :
          ¬ (p.halted = true ∨ ∃ fault, Except.ok s = (.error fault : Except Fault Status)) := by
        simp [running]
      simp only [finish, next_recode]
      by_cases own : ∃ value, e = .cell p.registers.pc value
      · obtain ⟨value, rfl⟩ := own
        rw [store_recode_cell]
        refine ⟨_, _, _, rfl, rfl, fun idle => absurd idle (retired _), fun _ _ _ => rfl, ?_⟩
        intro _ _ kept
        exact absurd ((exists_effect_cell_iff inside).mp ⟨value, effect⟩) kept
      · have other : ∀ value, e ≠ .cell p.registers.pc value := not_exists.mp own
        rw [store_recode other]
        refine ⟨_, _, _, rfl, rfl, fun idle => absurd idle (retired _), ?_, fun _ _ _ => rfl⟩
        intro _ _ stores
        obtain ⟨value, same⟩ := (exists_effect_cell_iff inside).mpr stores
        exact absurd (Except.ok.inj (effect.symm.trans same)) (other value)

theorem step_recode
    (decoded : Instruction.decode .lenient (p.memory.get p.registers.pc) = .ok i)
    (written : i.encode = .ok c) (apart : ¬ p.Loads i p.registers.pc) :
    ∃ result q q', (p.withLenient true).step = (result, q) ∧
      (p.recode p.registers.pc c).step = (result, q') ∧ p.StepsAlike i c result q q' := by
  cases halted : p.halted with
  | true =>
      refine ⟨_, _, _, step_of_halted (p := p.withLenient true) halted,
        step_of_halted (p := p.recode p.registers.pc c) halted, ?_⟩
      exact stepsAlike_of_idle fun running => by simp [halted] at running
  | false =>
      by_cases last : p.registers.pc = 0xFFFF
      · refine ⟨_, _, _, step_of_last (p := p.withLenient true) halted last,
          step_of_last (p := p.recode p.registers.pc c) halted last, ?_⟩
        exact stepsAlike_of_idle fun _ _ => by simp
      · have fetched : (p.recode p.registers.pc c).memory.get p.registers.pc = c := by
          rw [recode, Memory.get_set, if_pos rfl]
        have canonical := Instruction.decode_canonical decoded written
        rw [← fetched] at canonical
        rw [step_eq_effect (p := p.withLenient true) halted last decoded,
          step_eq_effect (p := p.recode p.registers.pc c) halted last canonical,
          effect_recode last apart]
        exact finish_recode halted last

/-- What a processor that leaves constant bits unchecked owes to one that checks them. -/
structure LenientExtends (p : Processor) : Prop where
  step : Supported (p.withLenient false).step.1 → (p.withLenient true).step =
    ((p.withLenient false).step.1, (p.withLenient false).step.2.withLenient true)
  retires : ∀ k q, Retires k (p.withLenient false) q →
    Retires k (p.withLenient true) (q.withLenient true)
  /-- A run without such a complaint is the same run, also where it does not end. -/
  run : (∀ result ∈ (p.withLenient false).run, Supported result.1) → (p.withLenient true).run =
    (p.withLenient false).run.map fun result => (result.1, result.2.withLenient true)
  unsupported_iff : (∃ word pc, (p.withLenient true).step.1 = .error (.unsupported word pc)) ↔
    p.halted = false ∧ p.registers.pc ≠ 0xFFFF ∧
      (p.memory.get p.registers.pc).extractLsb' 12 4 = 0b1101
  /-- The parts of a word are those of the word that they are encoded to, under strict decoding. -/
  canonical : ∀ word parts, Parts.decode .lenient word = .ok parts →
    ∃ l c, parts.opcode.layout? parts.mode = some l ∧ parts.encode = .ok c ∧
      Parts.decode .strict c = .ok parts ∧ l.Canonical word c
  decodes : ∀ word i, Instruction.decode .lenient word = .ok i →
    ∃ c, i.encode = .ok c ∧ Instruction.decode .strict c = .ok i
  recoded : ∀ i c, Instruction.decode .lenient (p.memory.get p.registers.pc) = .ok i →
    i.encode = .ok c → ¬ p.Loads i p.registers.pc →
      ∃ result q q', (p.withLenient true).step = (result, q) ∧
        (p.recode p.registers.pc c).step = (result, q') ∧ p.StepsAlike i c result q q'

theorem lenient_extends_strict (p : Processor) : p.LenientExtends where
  step supported := step_withLenient (p := p.withLenient false) rfl supported
  retires _ _ h := h.withLenient rfl
  run supported := runFrom_withLenient (p := p.withLenient false) rfl supported
  unsupported_iff := step_unsupported_iff (p := p.withLenient true) rfl
  canonical _ _ decoded := Parts.exists_canonical decoded
  decodes word i decoded := by
    have parts := Instruction.parts_of_decode decoded
    obtain ⟨l, c, -, written, -⟩ := Parts.exists_canonical parts
    exact ⟨c, written, Instruction.decode_canonical decoded written⟩
  recoded _ _ := step_recode

end Processor
end LC3
