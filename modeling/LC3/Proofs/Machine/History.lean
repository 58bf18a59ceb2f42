import LC3.Proofs.Machine.Running
import LC3.Proofs.Machine.Semantics

/-!
Histories. What a processor has done is told by the instructions that have retired, each with the
states around it. Main statements: `Retired.outcome`, the ways in which an instruction can leave the
status and the halt; `exists_passes_iff`, steps that succeed are those of a history.
-/

namespace LC3

/-- An instruction that has retired, with the states before and after it. -/
structure Retired where
  before : Processor
  instruction : Instruction
  status : Status
  after : Processor
  running : before.halted = false
  decoded : Instruction.decode before.config.features.decoding
    (before.memory.get before.registers.pc) = .ok instruction
  stepped : before.step = (.ok status, after)

namespace Processor

/-- What an instruction can do to the status and to the halt. -/
inductive Outcome (p : Processor) : Instruction → Processor → Prop
  | result {i dr} (value : Word) (destined : i.destination? = some dr) :
      Outcome p i (p.result dr value)
  /-- The status comes off the stack. -/
  | returned : Outcome p .rti (p.interruptReturn (p.memory.get (p.registers.get 6 + 1)))
  | halted (target : Word) : Outcome p (.trap 0x25) { p.call target with halted := true }
  | other {i} {q : Processor} (undestined : i.destination? = none) (stays : i ≠ .rti)
      (runs : i ≠ .trap 0x25) (psr : q.registers.psr = p.registers.psr)
      (halted : q.halted = p.halted) : Outcome p i q

variable {p q : Processor} {i : Instruction} {status : Status}

/-- The outcome of an instruction that uses an address is the same kind for every address. -/
theorem Outcome.atAddress {address : Int} {f : Word → Processor}
    (performed : Processor.atAddress address f = .ok (status, q))
    (outcome : ∀ a, p.Outcome i (f a)) : p.Outcome i q := by
  obtain ⟨a, -, reached⟩ := atAddress_eq_ok_iff.mp performed
  cases reached
  exact outcome a

theorem outcome_of_perform (performed : p.perform i = .ok (status, q)) : p.Outcome i q := by
  cases i with
  | add dr sr1 src2 | and dr sr1 src2 =>
      cases performed
      exact .result _ rfl
  | not dr sr =>
      cases performed
      exact .result _ rfl
  | ld dr offset | ldi dr offset | lea dr offset =>
      rw [perform] at performed
      exact .atAddress performed fun a => .result _ rfl
  | ldr dr base offset =>
      rw [perform] at performed
      exact .atAddress performed fun a => .result _ rfl
  | br nzp offset =>
      rw [perform] at performed
      split at performed
      · cases performed
        exact .other rfl (by simp) (by simp) rfl rfl
      · exact .atAddress performed fun a => .other rfl (by simp) (by simp) rfl rfl
  | jmp base | jsrr base =>
      cases performed
      exact .other rfl (by simp) (by simp) rfl rfl
  | jsr offset | st sr offset | sti sr offset =>
      rw [perform] at performed
      exact .atAddress performed fun a => .other rfl (by simp) (by simp) rfl rfl
  | str sr base offset =>
      rw [perform] at performed
      exact .atAddress performed fun a => .other rfl (by simp) (by simp) rfl rfl
  | rti =>
      rw [perform] at performed
      obtain ⟨a, above, reached⟩ := atAddress_eq_ok_iff.mp performed
      cases reached
      have place : p.registers.get 6 + 1 = a := by
        have := a.isLt
        have one : (1 : Word).toNat = 1 := rfl
        apply BitVec.eq_of_toNat_eq
        rw [BitVec.toNat_add, one]
        omega
      rw [← place]
      exact .returned
  | trap vector =>
      rw [perform] at performed
      split at performed
      · next halts =>
        cases performed
        subst halts
        exact .halted _
      · next other =>
        cases performed
        exact .other rfl (by simp) (fun same => other (Instruction.trap.inj same)) rfl rfl

end Processor

namespace Retired

variable {e e' : Retired}

theorem inside (e : Retired) : e.before.registers.pc ≠ 0xFFFF := by
  intro last
  have stepped := e.stepped
  rw [Processor.step_of_last e.running last] at stepped
  cases stepped

theorem performed (e : Retired) :
    e.before.perform e.instruction = .ok (e.status, e.after) := by
  have stepped := e.stepped
  rw [Processor.step_of_decode e.running e.inside e.decoded] at stepped
  cases performed : e.before.perform e.instruction with
  | error address =>
      rw [performed] at stepped
      cases stepped
  | ok result =>
      rw [performed, Processor.settle, Prod.mk.injEq, Except.ok.injEq] at stepped
      exact congrArg Except.ok (Prod.ext stepped.1 stepped.2)

theorem outcome (e : Retired) : e.before.Outcome e.instruction e.after :=
  Processor.outcome_of_perform e.performed

/-- The state before an instruction settles which one it is and what comes after. -/
theorem eq_of_before_eq (same : e.before = e'.before) : e = e' := by
  cases e with | mk before instruction status after running decoded stepped =>
  cases e' with | mk before' instruction' status' after' running' decoded' stepped' =>
  obtain rfl : before = before' := same
  rw [decoded] at decoded'
  rw [stepped] at stepped'
  cases decoded'
  cases stepped'
  rfl

end Retired

namespace Processor

/-- The instructions of the history retire one after another, from the first state to the last. -/
inductive Passes : Processor → List Retired → Processor → Prop
  | none {p} : Passes p [] p
  | retire (e : Retired) {history q} (rest : Passes e.after history q) :
      Passes e.before (e :: history) q

/-- There is a step from `p` to `q` that does not fail. -/
def Succeeds (p q : Processor) : Prop := ∃ status, p.step = (.ok status, q)

variable {p q r : Processor} {status : Status} {k : Nat}

/-- A step that succeeds in a processor that is not halted retires an instruction. -/
theorem exists_retired (running : p.halted = false) (stepped : p.step = (.ok status, q)) :
    ∃ e : Retired, e.before = p ∧ e.after = q := by
  by_cases last : p.registers.pc = 0xFFFF
  · rw [step_of_last running last] at stepped
    cases stepped
  · cases decoded : Instruction.decode p.config.features.decoding
      (p.memory.get p.registers.pc) with
    | error cause =>
        rw [step_of_undecodable running last decoded] at stepped
        cases stepped
    | ok i => exact ⟨⟨p, i, status, q, running, decoded, stepped⟩, rfl, rfl⟩

namespace Passes

variable {history before after : List Retired} {e : Retired}

theorem cons_iff : p.Passes (e :: history) q ↔ e.before = p ∧ e.after.Passes history q := by
  constructor
  · intro h
    cases h with
    | retire _ rest => exact ⟨rfl, rest⟩
  · rintro ⟨rfl, rest⟩
    exact .retire e rest

theorem append_iff :
    p.Passes (before ++ after) q ↔ ∃ mid, p.Passes before mid ∧ mid.Passes after q := by
  induction before generalizing p with
  | nil =>
      constructor
      · intro h
        exact ⟨p, .none, h⟩
      · rintro ⟨mid, ⟨⟩, h⟩
        exact h
  | cons e before ih => simp only [List.cons_append, cons_iff, ih, exists_and_left, and_assoc]

theorem retires (h : p.Passes history q) : Retires history.length p q := by
  induction h with
  | none => exact .none
  | retire e _ ih => exact .step e.running e.stepped ih

/-- What every instruction keeps, the history keeps. -/
theorem keeps {α : Type} {f : Processor → α} (h : p.Passes history q)
    (kept : ∀ e ∈ history, f e.after = f e.before) : f q = f p := by
  induction h with
  | none => rfl
  | retire e _ ih =>
      rw [ih fun x later => kept x (List.mem_cons_of_mem e later)]
      exact kept e List.mem_cons_self

theorem eq_of_length_eq {history' : List Retired} (h : p.Passes history q)
    (h' : p.Passes history' r) (same : history.length = history'.length) :
    history = history' := by
  induction h generalizing history' with
  | none => exact (List.length_eq_zero_iff.mp same.symm).symm
  | retire e _ ih =>
      cases history' with
      | nil => cases same
      | cons e' history' =>
          obtain ⟨start, rest⟩ := cons_iff.mp h'
          obtain rfl := Retired.eq_of_before_eq start
          rw [ih rest (Nat.succ.inj same)]

/-- One history leads from a state to another. -/
theorem unique {history' : List Retired} (h : p.Passes history q) (h' : p.Passes history' q) :
    history = history' := by
  apply eq_of_length_eq h h'
  have counted := h.retires.cycles
  have counted' := h'.retires.cycles
  omega

end Passes

theorem exists_passes_of_retires (h : Retires k p q) : ∃ history, p.Passes history q := by
  induction h with
  | none => exact ⟨[], .none⟩
  | step running stepped _ ih =>
      obtain ⟨e, rfl, rfl⟩ := exists_retired running stepped
      obtain ⟨history, rest⟩ := ih
      exact ⟨e :: history, .retire e rest⟩

/-- Steps that succeed are those of a history; the steps of a halted processor add nothing. -/
theorem exists_passes_iff :
    (∃ history, p.Passes history q) ↔ Relation.ReflTransGen Succeeds p q := by
  constructor
  · rintro ⟨history, passed⟩
    induction passed with
    | none => exact .refl
    | retire e _ ih => exact .head ⟨e.status, e.stepped⟩ ih
  · intro steps
    induction steps using Relation.ReflTransGen.head_induction_on with
    | refl => exact ⟨[], .none⟩
    | @head p mid first _ ih =>
        obtain ⟨status, stepped⟩ := first
        cases halted : p.halted with
        | true =>
            rw [step_of_halted halted] at stepped
            cases stepped
            exact ih
        | false =>
            obtain ⟨e, rfl, rfl⟩ := exists_retired halted stepped
            obtain ⟨history, rest⟩ := ih
            exact ⟨e :: history, .retire e rest⟩

theorem exists_passes_of_run {answer : Except Fault Stop} (ran : p.run = some (answer, q)) :
    ∃ history, p.Passes history q := by
  obtain ⟨k, runs, -⟩ := run_eq_some_iff.mp ran
  exact exists_passes_of_retires runs.retires

end Processor
end LC3
