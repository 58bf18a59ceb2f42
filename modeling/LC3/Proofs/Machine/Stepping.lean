import Mathlib
import LC3.Machine.Processor

/-!
What one step changes besides what its instruction does. A step that fails has been undone, one that
succeeds has been counted, and the settings stay. Main statements: `step_error_eq`,
`step_ok_cycles`, `step_withLimit`.
-/

namespace LC3
namespace Processor

variable {p q : Processor} {fault : Fault} {status : Status}

theorem exists_setFetch_of_fetch {outcome : Except Fault Unit} {registers : Registers}
    (h : Cycle.fetch p.memory p.registers = (outcome, registers)) :
    ∃ pc ir, { p with registers } = p.setFetch pc ir := by
  unfold Cycle.fetch at h
  split at h
  · cases h
    exact ⟨_, _, rfl⟩
  · cases h
    exact ⟨_, _, rfl⟩

/-- A cycle that fails has written no more than the fetch does, wherever it fails. -/
theorem exists_setFetch_of_cycle_error (h : p.cycle = (.error fault, q)) :
    ∃ pc ir, q = p.setFetch pc ir := by
  unfold cycle at h
  split at h
  · next fetched =>
    cases h
    exact exists_setFetch_of_fetch fetched
  · next registers fetched =>
    simp only at h
    split at h
    · cases h
      exact exists_setFetch_of_fetch fetched
    · cases h

theorem step_error_eq (h : p.step = (.error fault, q)) : q = p := by
  unfold step at h
  split at h
  · cases h
  · split at h
    · cases h
    · next failed =>
      cases h
      obtain ⟨pc, ir, rfl⟩ := exists_setFetch_of_cycle_error failed
      exact p.setFetch_setFetch pc ir

theorem store_config (p : Processor) (e : Effect) : (p.store e).2.config = p.config := by
  cases e <;> rfl

theorem store_cycles (p : Processor) (e : Effect) : (p.store e).2.cycles = p.cycles := by
  cases e <;> rfl

theorem cycle_ok (h : p.cycle = (.ok status, q)) :
    q.config = p.config ∧ q.cycles = p.cycles + 1 := by
  unfold cycle at h
  split at h
  · cases h
  · simp only at h
    split at h
    · cases h
    · cases h
      exact ⟨store_config _ _, by rw [store_cycles]⟩

theorem cycle_of_step_ok (running : p.halted = false) (h : p.step = (.ok status, q)) :
    p.cycle = (.ok status, q) := by
  rw [step, if_neg (by rw [running]; decide)] at h
  split at h
  · next done => rw [done, h]
  · cases h

theorem step_ok_config (running : p.halted = false) (h : p.step = (.ok status, q)) :
    q.config = p.config :=
  (cycle_ok (cycle_of_step_ok running h)).1

theorem step_ok_cycles (running : p.halted = false) (h : p.step = (.ok status, q)) :
    q.cycles = p.cycles + 1 :=
  (cycle_ok (cycle_of_step_ok running h)).2

/-- The processor with another limit for its runs. -/
def withLimit (p : Processor) (limit : Option Nat) : Processor :=
  { p with config := { p.config with maxCycles := limit } }

theorem cycle_withLimit (p : Processor) (limit : Option Nat) :
    (p.withLimit limit).cycle = (p.cycle.1, p.cycle.2.withLimit limit) := by
  simp only [cycle, withLimit]
  split
  · rfl
  · split
    · rfl
    · next effect _ => cases effect <;> rfl

theorem step_withLimit (p : Processor) (limit : Option Nat) :
    (p.withLimit limit).step = (p.step.1, p.step.2.withLimit limit) := by
  have same : (p.withLimit limit).halted = p.halted := rfl
  simp only [step, same, cycle_withLimit]
  split
  · rfl
  · rcases p.cycle with ⟨status | fault, after⟩
    · rfl
    · rfl

end Processor
end LC3
