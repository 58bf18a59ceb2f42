import LC3.Proofs.Machine.Stepping

/-!
Runs are repeated steps. A run ends where the processor is halted, where the limit is reached or
where a step fails, whichever comes first on the way. So an operation that fails leaves the state
before it, and runs with limits come one behind the other. Main statements: `run_eq_some_iff`,
`failures_undone`, `run_repeats_step`.
-/

namespace LC3
namespace Processor

/-- `k` instructions take `p` to `q`. None of them fails, and none is run by a halted processor. -/
inductive Retires : Nat → Processor → Processor → Prop
  | none {p} : Retires 0 p p
  | step {k p mid q status} (running : p.halted = false) (stepped : p.step = (.ok status, mid))
      (rest : Retires k mid q) : Retires (k + 1) p q

variable {p q r mid : Processor} {k m : Nat}

namespace Retires

theorem config (h : Retires k p q) : q.config = p.config := by
  induction h with
  | none => rfl
  | step running stepped _ ih => rw [ih, step_ok_config running stepped]

theorem cycles (h : Retires k p q) : q.cycles = p.cycles + k := by
  induction h with
  | none => rfl
  | step running stepped _ ih => rw [ih, step_ok_cycles running stepped]; omega

theorem trans (first : Retires m p q) (second : Retires k q r) : Retires (m + k) p r := by
  induction first with
  | none => rwa [Nat.zero_add]
  | step running stepped _ ih =>
      rw [Nat.succ_add]
      exact .step running stepped (ih second)

theorem withLimit (h : Retires k p q) (limit : Option Nat) :
    Retires k (p.withLimit limit) (q.withLimit limit) := by
  induction h with
  | none => exact .none
  | step running stepped _ ih => exact .step running (by rw [step_withLimit, stepped]) ih

end Retires

/-- How a run ends in the state `q`, where `count` instructions have retired since the call. -/
inductive Ends (limit : Option Nat) (count : Nat) (q : Processor) : Except Fault Stop → Prop
  | halted (halted : q.halted = true) : Ends limit count q (.ok .halted)
  | spent (running : q.halted = false) (spent : limit = some count) :
      Ends limit count q (.ok .cycleLimit)
  | failed {fault} (running : q.halted = false) (unspent : limit ≠ some count)
      (failed : q.step = (.error fault, q)) : Ends limit count q (.error fault)

/-- Where `done` instructions of a run have led to `p`, it retires `k` more and ends in `q`. -/
structure RunsTo (done k : Nat) (p : Processor) (answer : Except Fault Stop) (q : Processor) :
    Prop where
  retires : Retires k p q
  within : ∀ limit ∈ p.config.maxCycles, done + k ≤ limit
  ends : Ends p.config.maxCycles (done + k) q answer

variable {done limit start fuel : Nat} {answer : Except Fault Stop} {status : Status}
  {fault : Fault}

/-- `done` instructions have retired since the count was `start`, and the limit allows as many. -/
structure Counted (start done : Nat) (p : Processor) : Prop where
  cycles : p.cycles = start + done
  within : ∀ limit ∈ p.config.maxCycles, done ≤ limit

theorem Counted.isSpent_iff (h : Counted start done p) :
    p.isSpent start = true ↔ p.config.maxCycles = some done := by
  have count : p.cycles - start = done := by rw [h.cycles, Nat.add_sub_cancel_left]
  have within := h.within
  rw [isSpent, count]
  cases limited : p.config.maxCycles with
  | none => simp
  | some limit =>
      have := within limit limited
      simp only [Option.any_some, decide_eq_true_eq, Option.some.injEq]
      omega

theorem Counted.step (h : Counted start done p) (running : p.halted = false)
    (unspent : p.config.maxCycles ≠ some done) (stepped : p.step = (.ok status, mid)) :
    Counted start (done + 1) mid where
  cycles := by rw [step_ok_cycles running stepped, h.cycles, Nat.add_assoc]
  within limit limited := by
    rw [step_ok_config running stepped] at limited
    have other : limit ≠ done := fun same => unspent (same ▸ limited)
    have := h.within limit limited
    omega

theorem RunsTo.step (running : p.halted = false) (stepped : p.step = (.ok status, mid))
    (rest : RunsTo (done + 1) k mid answer q) : RunsTo done (k + 1) p answer q := by
  obtain ⟨retires, within, ends⟩ := rest
  rw [step_ok_config running stepped, Nat.succ_add_eq_add_succ] at within ends
  exact ⟨.step running stepped retires, within, ends⟩

theorem exists_runsTo_of_runFrom (counted : Counted start done p)
    (h : p.runFrom start fuel = some (answer, q)) : ∃ k < fuel, RunsTo done k p answer q := by
  induction fuel generalizing p done with
  | zero => cases h
  | succ fuel ih =>
      rw [runFrom] at h
      split at h
      · next halted =>
        cases h
        exact ⟨0, Nat.succ_pos _, .none, counted.within, .halted halted⟩
      · next running =>
        replace running : p.halted = false := Bool.eq_false_iff.mpr running
        split at h
        · next spent =>
          cases h
          exact ⟨0, Nat.succ_pos _, .none, counted.within,
            .spent running (counted.isSpent_iff.mp spent)⟩
        · next more =>
          have unspent := mt counted.isSpent_iff.mpr more
          split at h
          · next failed =>
            cases h
            obtain rfl := step_error_eq failed
            exact ⟨0, Nat.succ_pos _, .none, counted.within, .failed running unspent failed⟩
          · next stepped =>
            obtain ⟨k, short, runs⟩ := ih (counted.step running unspent stepped) h
            exact ⟨k + 1, Nat.succ_lt_succ short, runs.step running stepped⟩

theorem runFrom_of_runsTo (counted : Counted start done p) (h : RunsTo done k p answer q)
    (short : k < fuel) : p.runFrom start fuel = some (answer, q) := by
  induction k generalizing p done fuel with
  | zero =>
      obtain ⟨fuel, rfl⟩ := Nat.exists_eq_add_one.mpr short
      obtain ⟨retires, -, ends⟩ := h
      cases retires
      rw [runFrom]
      cases ends with
      | halted halted => rw [if_pos halted]
      | spent running spent =>
          rw [if_neg (by rw [running]; decide), if_pos (counted.isSpent_iff.mpr spent)]
      | failed running unspent failed =>
          rw [if_neg (by rw [running]; decide), if_neg (mt counted.isSpent_iff.mp unspent), failed]
  | succ k ih =>
      obtain ⟨fuel, rfl⟩ := Nat.exists_eq_add_one.mpr (Nat.zero_lt_of_lt short)
      obtain ⟨retires, within, ends⟩ := h
      cases retires with
      | step running stepped rest =>
          have unspent : p.config.maxCycles ≠ some done := fun spent => by
            have := within done spent
            omega
          rw [runFrom, if_neg (by rw [running]; decide),
            if_neg (mt counted.isSpent_iff.mp unspent), stepped]
          rw [← step_ok_config running stepped, ← Nat.succ_add_eq_add_succ] at within ends
          exact ih (counted.step running unspent stepped) ⟨rest, within, ends⟩
            (Nat.lt_of_succ_lt_succ short)

/-- A run with a limit ends. -/
theorem exists_runFrom (counted : Counted start done p) (limited : p.config.maxCycles = some limit)
    (enough : limit ≤ done + fuel) : ∃ result, p.runFrom start (fuel + 1) = some result := by
  induction fuel generalizing p done with
  | zero =>
      have spent : p.config.maxCycles = some done := by
        rw [limited, Nat.le_antisymm enough (counted.within limit limited)]
        rfl
      rw [runFrom, if_pos (counted.isSpent_iff.mpr spent)]
      split
      · exact ⟨_, rfl⟩
      · exact ⟨_, rfl⟩
  | succ fuel ih =>
      rw [runFrom]
      split
      · exact ⟨_, rfl⟩
      · next running =>
        replace running : p.halted = false := Bool.eq_false_iff.mpr running
        split
        · exact ⟨_, rfl⟩
        · next unspent =>
          split
          · exact ⟨_, rfl⟩
          · next stepped =>
            refine ih (counted.step running (mt counted.isSpent_iff.mpr unspent) stepped) ?_ ?_
            · rw [step_ok_config running stepped, limited]
            · rwa [Nat.succ_add_eq_add_succ]

theorem counted_start (p : Processor) : Counted p.cycles 0 p := ⟨rfl, fun _ _ => Nat.zero_le _⟩

/-- A run answers with where it ends on the way of steps, and within the horizon where there is no
limit. -/
theorem run_eq_some_iff :
    p.run = some (answer, q) ↔
      ∃ k, RunsTo 0 k p answer q ∧ (p.config.maxCycles = none → k ≤ horizon) := by
  constructor
  · intro h
    obtain ⟨k, short, runs⟩ := exists_runsTo_of_runFrom p.counted_start h
    refine ⟨k, runs, fun unlimited => ?_⟩
    rw [unlimited] at short
    exact Nat.le_of_lt_succ short
  · rintro ⟨k, runs, near⟩
    refine runFrom_of_runsTo p.counted_start runs (Nat.lt_succ_of_le ?_)
    cases limited : p.config.maxCycles with
    | none => exact near limited
    | some limit =>
        have := runs.within limit limited
        rwa [Nat.zero_add] at this

theorem run_of_runsTo (limited : p.config.maxCycles = some limit) (h : RunsTo 0 k p answer q) :
    p.run = some (answer, q) :=
  run_eq_some_iff.mpr ⟨k, h, fun unlimited => by rw [limited] at unlimited; cases unlimited⟩

theorem exists_run (limited : p.config.maxCycles = some limit) : ∃ result, p.run = some result := by
  rw [run, limited]
  exact exists_runFrom p.counted_start limited (Nat.le_add_left _ _)

/-- What the operations of a processor owe to the state before them where they fail. -/
structure FailuresUndone (p : Processor) : Prop where
  step : ∀ fault q, p.step = (.error fault, q) → q = p
  load : ∀ origin words fault q, p.load origin words = (.error fault, q) → q = p
  loadProgram : ∀ program fault q, p.loadProgram program = (.error fault, q) → q = p
  loadImage : ∀ image fault q, p.loadImage image = (.error fault, q) → q = p
  /-- A run that fails has kept what its successful steps did, and fails again at once. -/
  run : ∀ fault q, p.run = some (.error fault, q) →
    ∃ k, Retires k p q ∧ q.step = (.error fault, q) ∧ q.cycles = p.cycles + k ∧
      q.run = some (.error fault, q)

theorem load_error_eq {origin : Word} {words : List Word}
    (h : p.load origin words = (.error fault, q)) : q = p := by
  unfold load at h
  split at h
  · cases h
  · cases h
    rfl

/-- The state in which a step of a run fails is one in which a run fails. -/
theorem run_of_failed (h : RunsTo 0 k p (.error fault) q) : q.run = some (.error fault, q) := by
  obtain ⟨retires, within, ends⟩ := h
  rw [← retires.config] at within ends
  cases ends with
  | failed running unspent failed =>
      have unspent : q.config.maxCycles ≠ some 0 := fun spent => by
        obtain rfl : k = 0 := by have := within 0 spent; omega
        exact unspent spent
      have again : RunsTo 0 0 q (.error fault) q :=
        ⟨.none, fun _ _ => Nat.zero_le _, .failed running unspent failed⟩
      exact run_eq_some_iff.mpr ⟨0, again, fun _ => Nat.zero_le _⟩

theorem failures_undone (p : Processor) : p.FailuresUndone where
  step _ _ := step_error_eq
  load _ _ _ _ := load_error_eq
  loadProgram _ _ _ := load_error_eq
  loadImage image fault q h := by
    unfold loadImage at h
    split at h
    · exact load_error_eq h
    · cases h
      rfl
  run fault q h := by
    obtain ⟨k, runs, -⟩ := run_eq_some_iff.mp h
    cases runs.ends with
    | failed _ _ failed => exact ⟨k, runs.retires, failed, runs.retires.cycles, run_of_failed runs⟩

theorem Ends.withLimit {limit limit' : Option Nat} {count count' : Nat}
    (h : Ends limit count q answer) (same : limit = some count ↔ limit' = some count') (l : Option Nat) :
    Ends limit' count' (q.withLimit l) answer := by
  cases h with
  | halted halted => exact .halted halted
  | spent running spent => exact .spent running (same.mp spent)
  | failed running unspent failed =>
      exact .failed running (mt same.mpr unspent) (by rw [step_withLimit, failed])

/-- What runs owe to steps and to each other. -/
structure RunsBySteps (p : Processor) : Prop where
  /-- A run with a limit ends. -/
  ends : ∀ n, ∃ answer q, (p.withLimit (some n)).run = some (answer, q)
  /-- It ends where steps first lead to a halt, to the limit or to a failure. -/
  first : ∀ n answer q, (p.withLimit (some n)).run = some (answer, q) ↔
    ∃ k, RunsTo 0 k (p.withLimit (some n)) answer q
  /-- A run that reaches its limit can be taken up by another. -/
  composes : ∀ m n q, (p.withLimit (some m)).run = some (.ok .cycleLimit, q) →
    ∃ answer q', (q.withLimit (some n)).run = some (answer, q') ∧
      (p.withLimit (some (m + n))).run = some (answer, q'.withLimit (some (m + n)))
  unlimited : ∀ answer q, (p.withLimit none).run = some (answer, q) ↔
    ∃ k ≤ horizon, RunsTo 0 k (p.withLimit none) answer q
  /-- Limits that are not reached make no difference. -/
  outlasts : ∀ k answer q, RunsTo 0 k (p.withLimit none) answer q →
    ∀ n > k, (p.withLimit (some n)).run = some (answer, q.withLimit (some n))

theorem run_repeats_step (p : Processor) : p.RunsBySteps where
  ends n := by
    obtain ⟨⟨answer, q⟩, h⟩ := exists_run (p := p.withLimit (some n)) rfl
    exact ⟨answer, q, h⟩
  first n answer q := by
    constructor
    · intro h
      obtain ⟨k, runs, -⟩ := run_eq_some_iff.mp h
      exact ⟨k, runs⟩
    · rintro ⟨k, runs⟩
      exact run_of_runsTo rfl runs
  composes m n q h := by
    obtain ⟨j, reached, -⟩ := run_eq_some_iff.mp h
    obtain ⟨⟨answer, q'⟩, second⟩ := exists_run (p := q.withLimit (some n)) rfl
    obtain ⟨k, runs, -⟩ := run_eq_some_iff.mp second
    obtain rfl : m = j := by
      cases reached.ends with
      | spent _ spent => exact (Option.some.inj spent).trans (Nat.zero_add j)
    refine ⟨answer, q', second, run_of_runsTo (k := m + k) rfl ⟨?_, ?_, ?_⟩⟩
    · exact (reached.retires.withLimit _).trans (runs.retires.withLimit _)
    · rintro limit ⟨⟩
      have := runs.within n rfl
      omega
    · exact runs.ends.withLimit (by simp [withLimit]) _
  unlimited answer q := by
    rw [run_eq_some_iff]
    constructor
    · rintro ⟨k, runs, near⟩
      exact ⟨k, near rfl, runs⟩
    · rintro ⟨k, near, runs⟩
      exact ⟨k, runs, fun _ => near⟩
  outlasts k answer q h n more := by
    refine run_of_runsTo (k := k) rfl ⟨h.retires.withLimit (some n), ?_, ?_⟩
    · rintro limit ⟨⟩
      omega
    · exact h.ends.withLimit (by simp [withLimit, Nat.ne_of_gt more]) _

end Processor
end LC3
