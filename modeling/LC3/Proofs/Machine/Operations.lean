import LC3.Proofs.Machine.History

/-!
The cycle count and the halt over any sequence of operations, those from outside among them. Both
are told by the log of what has happened: the count by the instructions that retired since the last
load or reset, the halt by what happened since the last load, reset or resumption. Main statement:
`log_told`.
-/

namespace LC3

/-- The ways to load a program. -/
inductive Loading where
  | words (origin : Word) (words : List Word)
  | program (program : Program)
  | image (image : List Word)

/-- What can be done to a processor. A write to memory may be refused. -/
inductive Operation where
  | load (loading : Loading)
  | step
  | run
  | halt
  | resume
  | reset
  | writeRegisters (write : Registers → Registers)
  | writeMemory (write : Memory → Except OutOfMemory Memory)

/-- What can happen to the cycle count and the halt. -/
inductive Event where
  | load
  | reset
  | halt
  | resume
  | retire (i : Instruction)
  deriving DecidableEq

namespace Event

/-- The cycle count begins again. -/
def restarts : Event → Bool
  | .load | .reset => true
  | .halt | .resume | .retire _ => false

/-- A halt is over. -/
def wakes : Event → Bool
  | .load | .reset | .resume => true
  | .halt | .retire _ => false

def retires : Event → Bool
  | .retire _ => true
  | .load | .reset | .halt | .resume => false

def halts : Event → Bool
  | .halt => true
  | .retire i => i = .trap 0x25
  | .load | .reset | .resume => false

/-- The events of the log after the last with which something begins. -/
def since (begins : Event → Bool) (log : List Event) : List Event :=
  log.rtakeWhile fun e => !begins e

theorem since_concat (begins : Event → Bool) (log : List Event) (e : Event) :
    since begins (log ++ [e]) = if begins e then [] else since begins log ++ [e] := by
  rw [since, List.rtakeWhile_concat]
  cases begins e <;> rfl

end Event

/-- What is told of an instruction that retires. -/
def Retired.event (e : Retired) : Event := .retire e.instruction

namespace Processor

/-- The log tells the cycle count and the halt. -/
structure Accounts (log : List Event) (p : Processor) : Prop where
  cycles : p.cycles = (Event.since Event.restarts log).countP Event.retires
  halted : p.halted = true ↔ ∃ e ∈ Event.since Event.wakes log, e.halts = true

def place (p : Processor) : Loading → Except Fault Unit × Processor
  | .words origin words => p.load origin words
  | .program program => p.loadProgram program
  | .image image => p.loadImage image

/-- The operation takes `p` to `q`, and the events happen on the way. Failures are none. -/
inductive Takes (p : Processor) : Operation → List Event → Processor → Prop
  | load {loading q} (loaded : p.place loading = (.ok (), q)) : Takes p (.load loading) [.load] q
  | loadFails {loading fault q} (failed : p.place loading = (.error fault, q)) :
      Takes p (.load loading) [] q
  | step {e : Retired} (here : e.before = p) : Takes p .step [e.event] e.after
  | stepFails {fault q} (failed : p.step = (.error fault, q)) : Takes p .step [] q
  | stepHalted {status q} (halted : p.halted = true) (stepped : p.step = (.ok status, q)) :
      Takes p .step [] q
  | run {answer history q} (ran : p.run = some (answer, q)) (passed : p.Passes history q) :
      Takes p .run (history.map Retired.event) q
  | halt : Takes p .halt [.halt] p.halt
  | resume : Takes p .resume [.resume] p.resume
  | reset : Takes p .reset [.reset] p.reset
  | writeRegisters {write} :
      Takes p (.writeRegisters write) [] { p with registers := write p.registers }
  | writeMemory {write memory} (written : write p.memory = .ok memory) :
      Takes p (.writeMemory write) [] { p with memory }
  | writeFails {write e} (refused : write p.memory = .error e) : Takes p (.writeMemory write) [] p

/-- The operations take `p` to `q`, one after another, and the log is what happens. -/
inductive Undergoes (p : Processor) : List Operation → List Event → Processor → Prop
  | none : Undergoes p [] [] p
  | next {ops log q op events r} (before : Undergoes p ops log q) (taken : q.Takes op events r) :
      Undergoes p (ops ++ [op]) (log ++ events) r

variable {p q r : Processor} {i : Instruction} {e : Event} {log events : List Event}
  {op : Operation} {ops : List Operation}

theorem Accounts.event (h : Accounts log p)
    (cycles : q.cycles = if e.restarts then 0 else p.cycles + if e.retires then 1 else 0)
    (halted : q.halted = (!e.wakes && (e.halts || p.halted))) : Accounts (log ++ [e]) q where
  cycles := by
    rw [cycles, Event.since_concat]
    cases e.restarts with
    | true => rfl
    | false =>
        rw [h.cycles, if_neg Bool.false_ne_true, if_neg Bool.false_ne_true,
          List.countP_append, List.countP_singleton]
  halted := by
    rw [halted, Event.since_concat]
    cases e.wakes with
    | true => simp
    | false => simp [h.halted, or_and_right, exists_or, or_comm]

theorem Outcome.halted_eq (h : p.Outcome i q) (running : p.halted = false) :
    q.halted = decide (i = .trap 0x25) := by
  cases h with
  | result value destined =>
      have other : i ≠ .trap 0x25 := by
        rintro rfl
        cases destined
      rw [decide_eq_false other]
      exact running
  | returned => exact running
  | halted => rfl
  | other _ _ runs _ halted => rw [halted, running, decide_eq_false runs]

theorem Accounts.retired {e : Retired} (h : Accounts log e.before) :
    Accounts (log ++ [e.event]) e.after := by
  apply h.event
  · exact step_ok_cycles e.running e.stepped
  · rw [e.outcome.halted_eq e.running, e.running]
    simp [Retired.event, Event.wakes, Event.halts]

theorem Accounts.passed {history : List Retired} (h : Accounts log p)
    (passed : p.Passes history q) : Accounts (log ++ history.map Retired.event) q := by
  induction passed generalizing log with
  | none => rwa [List.map_nil, List.append_nil]
  | retire e _ ih =>
      rw [List.map_cons, List.append_cons]
      exact ih h.retired

theorem place_cases {loading : Loading} {result : Except Fault Unit}
    (h : p.place loading = (result, q)) :
    (∃ origin words, p.load origin words = (result, q)) ∨
      ∃ cause, result = .error (.image cause) ∧ q = p := by
  cases loading with
  | words origin words => exact .inl ⟨origin, words, h⟩
  | program program => exact .inl ⟨program.origin, program.words, h⟩
  | image image =>
      rw [place, loadImage] at h
      split at h
      · exact .inl ⟨_, _, h⟩
      · cases h
        exact .inr ⟨_, rfl, rfl⟩

theorem place_error_eq {loading : Loading} {fault : Fault}
    (h : p.place loading = (.error fault, q)) : q = p := by
  obtain ⟨origin, words, loaded⟩ | ⟨cause, -, same⟩ := place_cases h
  · exact load_error_eq loaded
  · exact same

theorem Accounts.placed {loading : Loading} (h : Accounts log p)
    (loaded : p.place loading = (.ok (), q)) : Accounts (log ++ [.load]) q := by
  obtain ⟨origin, words, loaded⟩ | ⟨cause, failed, -⟩ := place_cases loaded
  · rw [load] at loaded
    split at loaded
    · cases loaded
      exact h.event rfl rfl
    · cases loaded
  · cases failed

theorem Accounts.takes (h : Accounts log p) (taken : p.Takes op events q) :
    Accounts (log ++ events) q := by
  cases taken with
  | load loaded => exact h.placed loaded
  | loadFails failed =>
      obtain rfl := place_error_eq failed
      rwa [List.append_nil]
  | step here =>
      subst here
      exact h.retired
  | stepFails failed =>
      obtain rfl := step_error_eq failed
      rwa [List.append_nil]
  | stepHalted halted stepped =>
      rw [step_of_halted halted] at stepped
      cases stepped
      rwa [List.append_nil]
  | run _ passed => exact h.passed passed
  | halt => exact h.event rfl rfl
  | resume => exact h.event rfl rfl
  | reset => exact h.event rfl rfl
  | writeRegisters | writeMemory =>
      rw [List.append_nil]
      exact ⟨h.cycles, h.halted⟩
  | writeFails => rwa [List.append_nil]

theorem accounts_of_undergoes {config : Config} (h : (new config).Undergoes ops log q) :
    Accounts log q := by
  induction h with
  | none => exact ⟨rfl, by simp [new, Event.since]⟩
  | next _ taken ih => exact ih.takes taken

/-- An operation takes a processor somewhere, unless it is a run that never ends. -/
theorem exists_takes_or (p : Processor) (op : Operation) :
    (∃ events q, p.Takes op events q) ∨ op = .run ∧ p.run = none := by
  cases op with
  | load loading =>
      cases placed : p.place loading with
      | mk result q =>
          cases result with
          | ok => exact .inl ⟨_, _, .load placed⟩
          | error fault => exact .inl ⟨_, _, .loadFails placed⟩
  | step =>
      cases stepped : p.step with
      | mk result q =>
          cases result with
          | error fault => exact .inl ⟨_, _, .stepFails stepped⟩
          | ok status =>
              cases halted : p.halted with
              | true => exact .inl ⟨_, _, .stepHalted halted stepped⟩
              | false =>
                  obtain ⟨e, here, -⟩ := exists_retired halted stepped
                  exact .inl ⟨_, _, .step here⟩
  | run =>
      cases ran : p.run with
      | none => exact .inr ⟨rfl, rfl⟩
      | some result =>
          obtain ⟨history, passed⟩ := exists_passes_of_run ran
          exact .inl ⟨_, _, .run ran passed⟩
  | halt => exact .inl ⟨_, _, .halt⟩
  | resume => exact .inl ⟨_, _, .resume⟩
  | reset => exact .inl ⟨_, _, .reset⟩
  | writeRegisters write => exact .inl ⟨_, _, .writeRegisters⟩
  | writeMemory write =>
      cases written : write p.memory with
      | ok memory => exact .inl ⟨_, _, .writeMemory written⟩
      | error e => exact .inl ⟨_, _, .writeFails written⟩

/-- A step retires what leads from the state before it to the state after it. -/
theorem Takes.exists_passes_of_step (h : p.Takes .step events q) :
    p.step.2 = q ∧ ∃ history, p.Passes history q ∧ events = history.map Retired.event := by
  cases h with
  | @step e here =>
      subst here
      exact ⟨congrArg Prod.snd e.stepped, [e], .retire e .none, rfl⟩
  | stepFails failed =>
      obtain rfl := step_error_eq failed
      exact ⟨congrArg Prod.snd failed, [], .none, rfl⟩
  | stepHalted halted stepped =>
      have idle := step_of_halted halted
      rw [stepped] at idle
      cases idle
      exact ⟨congrArg Prod.snd stepped, [], .none, rfl⟩

theorem Takes.unique {events' : List Event} (h : p.Takes op events q)
    (h' : p.Takes op events' r) : events = events' ∧ q = r := by
  cases op with
  | load loading =>
      cases h with
      | load loaded | loadFails loaded =>
          cases h' with
          | load loaded' | loadFails loaded' => grind
  | step =>
      obtain ⟨rfl, history, passed, rfl⟩ := h.exists_passes_of_step
      obtain ⟨rfl, history', passed', rfl⟩ := h'.exists_passes_of_step
      exact ⟨congrArg _ (passed.unique passed'), rfl⟩
  | run =>
      cases h with
      | run ran passed =>
          cases h' with
          | run ran' passed' =>
              rw [ran] at ran'
              cases ran'
              exact ⟨congrArg _ (passed.unique passed'), rfl⟩
  | halt | resume | reset | writeRegisters write =>
      cases h
      cases h'
      exact ⟨rfl, rfl⟩
  | writeMemory write =>
      cases h with
      | writeMemory written | writeFails written =>
          cases h' with
          | writeMemory written' | writeFails written' => grind

theorem Undergoes.unique {log' : List Event} (h : p.Undergoes ops log q)
    (h' : p.Undergoes ops log' r) : log = log' ∧ q = r := by
  induction h generalizing log' r with
  | none =>
      generalize nothing : ([] : List Operation) = ops at h'
      cases h' with
      | none => exact ⟨rfl, rfl⟩
      | next => exact absurd nothing (by simp)
  | @next before log mid op events q _ taken ih =>
      generalize whole : before ++ [op] = ops at h'
      cases h' with
      | none => exact absurd whole (by simp)
      | next earlier taken' =>
          obtain ⟨rfl, last⟩ := List.append_inj' whole rfl
          cases last
          obtain ⟨rfl, rfl⟩ := ih earlier
          obtain ⟨rfl, rfl⟩ := taken.unique taken'
          exact ⟨rfl, rfl⟩

theorem exists_undergoes_or (p : Processor) (ops : List Operation) :
    (∃ log q, p.Undergoes ops log q) ∨
      ∃ before after log q, ops = before ++ .run :: after ∧ p.Undergoes before log q ∧
        q.run = none := by
  induction ops using List.reverseRecOn with
  | nil => exact .inl ⟨[], p, .none⟩
  | append_singleton ops op ih =>
      obtain ⟨log, q, undergone⟩ | ⟨before, after, log, q, split, undergone, endless⟩ := ih
      · obtain ⟨events, r, taken⟩ | ⟨rfl, endless⟩ := q.exists_takes_or op
        · exact .inl ⟨_, r, undergone.next taken⟩
        · exact .inr ⟨ops, [], log, q, rfl, undergone, endless⟩
      · refine .inr ⟨before, after ++ [op], log, q, ?_, undergone, endless⟩
        rw [split, List.append_assoc]
        rfl

/-- What cycle count and halt tell, of a new processor with these settings. -/
structure LogTold (config : Config) : Prop where
  accounts : ∀ ops log q, (new config).Undergoes ops log q → Accounts log q
  /-- Any operations can be done, up to a run that does not end. -/
  undergoes : ∀ ops, (∃ log q, (new config).Undergoes ops log q) ∨
    ∃ before after log q, ops = before ++ .run :: after ∧ (new config).Undergoes before log q ∧
      q.run = none
  unique : ∀ ops log q log' q', (new config).Undergoes ops log q →
    (new config).Undergoes ops log' q' → log = log' ∧ q = q'
  idle : ∀ p : Processor, p.halted = true →
    p.step = (.ok .halted, p) ∧ p.run = some (.ok .halted, p)

theorem run_of_halted (halted : p.halted = true) : p.run = some (.ok .halted, p) := by
  rw [run, runFrom, if_pos halted]

theorem log_told (config : Config) : LogTold config where
  accounts _ _ _ := accounts_of_undergoes
  undergoes := exists_undergoes_or (new config)
  unique _ _ _ _ _ := Undergoes.unique
  idle _ halted := ⟨step_of_halted halted, run_of_halted halted⟩

end Processor
end LC3
