import LC3.Proofs.Machine.History

/-!
The status register over a history. Only an instruction with a destination and an interrupt return
write it, the one its low three bits and the other all of it, so it tells of the last such
instruction and, above the condition codes, of the last interrupt return. Main statement:
`status_told`.
-/

namespace LC3

/-- `x` is the last member with the property, and `before` is what stands before it. -/
def IsLast {α : Type} (P : α → Prop) (xs before : List α) (x : α) : Prop :=
  ∃ after, xs = before ++ x :: after ∧ P x ∧ ∀ y ∈ after, ¬ P y

theorem exists_isLast {α : Type} {P : α → Prop} {xs : List α} (some : ∃ x ∈ xs, P x) :
    ∃ before x, IsLast P xs before x := by
  induction xs using List.reverseRecOn with
  | nil => simp at some
  | append_singleton xs last ih =>
      by_cases holds : P last
      · exact ⟨xs, last, [], rfl, holds, by simp⟩
      · obtain ⟨x, member, found⟩ := some
        have earlier : x ∈ xs := by
          rcases List.mem_append.mp member with earlier | atLast
          · exact earlier
          · exact absurd (List.mem_singleton.mp atLast ▸ found) holds
        obtain ⟨before, y, after, split, last', later⟩ := ih ⟨x, earlier, found⟩
        refine ⟨before, y, after ++ [last], by rw [split, List.append_assoc]; rfl, last', ?_⟩
        intro z member
        rcases List.mem_append.mp member with earlier | atLast
        · exact later z earlier
        · exact List.mem_singleton.mp atLast ▸ holds

theorem IsLast.mem {α : Type} {P : α → Prop} {xs before : List α} {x : α}
    (h : IsLast P xs before x) : x ∈ xs := by
  obtain ⟨after, rfl, -⟩ := h
  simp

theorem IsLast.holds {α : Type} {P : α → Prop} {xs before : List α} {x : α}
    (h : IsLast P xs before x) : P x := by
  obtain ⟨after, -, holds, -⟩ := h
  exact holds

namespace Word

theorem flags_mem (value : Word) :
    value.flags = 0b100 ∨ value.flags = 0b010 ∨ value.flags = 0b001 := by
  rw [flags]
  split
  · exact .inr (.inl rfl)
  · split
    · exact .inl rfl
    · exact .inr (.inr rfl)

theorem above_flags (value : Word) : value.flags &&& 0xFFF8 = 0 := by
  rcases value.flags_mem with code | code | code
  all_goals
    rw [code]
    rfl

theorem flags_flags (value : Word) : value.flags &&& 0b111 = value.flags := by
  rcases value.flags_mem with code | code | code
  all_goals
    rw [code]
    rfl

theorem eq_of_parts {v w : Word} (above : v &&& 0xFFF8 = w &&& 0xFFF8)
    (flags : v &&& 0b111 = w &&& 0b111) : v = w := by
  have whole (u : Word) : (u &&& 0xFFF8) ||| (u &&& 0b111) = u := by
    rw [← BitVec.and_or_distrib_left]
    exact BitVec.and_allOnes
  rw [← whole v, above, flags, whole w]

end Word

namespace Processor

variable {p q : Processor} {i : Instruction} {dr : Register}

theorem flags_result (p : Processor) (dr : Register) (value : Word) :
    (p.result dr value).registers.psr &&& 0b111 = value.flags := by
  have apart : (0xFFF8 : Word) &&& 0b111 = 0 := rfl
  calc (p.result dr value).registers.psr &&& 0b111
      = p.registers.psr &&& (0xFFF8 &&& 0b111) ||| value.flags &&& 0b111 := by
        rw [psr_result, BitVec.and_or_distrib_right, BitVec.and_assoc]
    _ = value.flags := by
        rw [apart, value.flags_flags]
        exact (congrArg (· ||| value.flags) BitVec.and_zero).trans BitVec.zero_or

theorem above_result (p : Processor) (dr : Register) (value : Word) :
    (p.result dr value).registers.psr &&& 0xFFF8 = p.registers.psr &&& 0xFFF8 := by
  calc (p.result dr value).registers.psr &&& 0xFFF8
      = p.registers.psr &&& (0xFFF8 &&& 0xFFF8) ||| value.flags &&& 0xFFF8 := by
        rw [psr_result, BitVec.and_or_distrib_right, BitVec.and_assoc]
    _ = p.registers.psr &&& 0xFFF8 := by
        rw [BitVec.and_self, value.above_flags]
        exact BitVec.or_zero

namespace Outcome

theorem psr_of_rti (h : p.Outcome .rti q) :
    q.registers.psr = p.memory.get (p.registers.get 6 + 1) := by
  cases h with
  | result value destined => cases destined
  | returned => exact p.psr_interruptReturn _
  | other _ stays => exact absurd rfl stays

theorem exists_result (h : p.Outcome i q) (destined : i.destination? = some dr) :
    ∃ value, q = p.result dr value := by
  cases h with
  | result value destined' =>
      rw [destined] at destined'
      cases destined'
      exact ⟨value, rfl⟩
  | returned => cases destined
  | halted => cases destined
  | other undestined =>
      rw [destined] at undestined
      cases undestined

theorem flags (h : p.Outcome i q) (destined : i.destination? = some dr) :
    q.registers.psr &&& 0b111 = (q.registers.get dr).flags := by
  obtain ⟨value, rfl⟩ := h.exists_result destined
  rw [get_result, if_pos rfl]
  exact flags_result p dr value

theorem above (h : p.Outcome i q) (stays : i ≠ .rti) :
    q.registers.psr &&& 0xFFF8 = p.registers.psr &&& 0xFFF8 := by
  cases h with
  | result value destined =>
      exact above_result p _ value
  | returned => exact absurd rfl stays
  | halted => rfl
  | other _ _ _ psr => rw [psr]

theorem psr (h : p.Outcome i q) (stays : i ≠ .rti) (undestined : i.destination? = none) :
    q.registers.psr = p.registers.psr := by
  cases h with
  | result value destined =>
      rw [undestined] at destined
      cases destined
  | returned => exact absurd rfl stays
  | halted => rfl
  | other _ _ _ psr => exact psr

end Outcome
end Processor

namespace Retired

/-- The instruction replaces the whole status. -/
def Returns (e : Retired) : Prop := e.instruction = .rti

def HasDestination (e : Retired) : Prop := e.instruction.destination? ≠ none

def SetsStatus (e : Retired) : Prop := e.Returns ∨ e.HasDestination

theorem HasDestination.not_returns {e : Retired} (h : e.HasDestination) : ¬ e.Returns := by
  intro returns
  rw [HasDestination, show e.instruction = .rti from returns] at h
  exact h rfl

end Retired

namespace Processor

variable {p q : Processor} {history before : List Retired} {e r : Retired}

namespace Passes

theorem psr (h : p.Passes history q) (untouched : ∀ e ∈ history, ¬ e.SetsStatus) :
    q.registers.psr = p.registers.psr := by
  apply h.keeps (f := fun p => p.registers.psr)
  intro e member
  have keeps := not_or.mp (untouched e member)
  exact e.outcome.psr keeps.1 (not_not.mp keeps.2)

theorem above (h : p.Passes history q) (stays : ∀ e ∈ history, ¬ e.Returns) :
    q.registers.psr &&& 0xFFF8 = p.registers.psr &&& 0xFFF8 := by
  apply h.keeps (f := fun p => p.registers.psr &&& 0xFFF8)
  intro e member
  exact e.outcome.above (stays e member)

/-- The history before the last of a kind and the history after it. -/
theorem around {P : Retired → Prop} (h : p.Passes history q) (last : IsLast P history before e) :
    p.Passes before e.before ∧ ∃ after, e.after.Passes after q ∧ ∀ x ∈ after, ¬ P x := by
  obtain ⟨after, rfl, -, others⟩ := last
  obtain ⟨mid, first, second⟩ := append_iff.mp h
  obtain ⟨rfl, rest⟩ := cons_iff.mp second
  exact ⟨first, after, rest, others⟩

theorem psr_of_isLast (h : p.Passes history q)
    (last : IsLast Retired.SetsStatus history before e) :
    q.registers.psr = e.after.registers.psr := by
  obtain ⟨-, after, rest, untouched⟩ := h.around last
  exact rest.psr untouched

theorem above_of_isLast (h : p.Passes history q) (last : IsLast Retired.Returns history before r) :
    q.registers.psr &&& 0xFFF8 = r.after.registers.psr &&& 0xFFF8 := by
  obtain ⟨-, after, rest, stays⟩ := h.around last
  exact rest.above stays

end Passes

/-- What the status tells of the history that led to it. -/
structure StatusTold (p : Processor) (history : List Retired) (q : Processor) : Prop where
  untouched : (∀ e ∈ history, ¬ e.SetsStatus) → q.registers.psr = p.registers.psr
  returned : ∀ before e, IsLast Retired.SetsStatus history before e → e.Returns →
    q.registers.psr = e.before.memory.get (e.before.registers.get 6 + 1)
  /-- The condition codes are the sign of the result in two's complement. -/
  flags : ∀ before e dr, IsLast Retired.SetsStatus history before e →
    e.instruction.destination? = some dr →
    q.registers.psr &&& 0b111 =
      if (e.after.registers.get dr).toInt < 0 then 0b100
      else if (e.after.registers.get dr).toInt = 0 then 0b010
      else 0b001
  /-- A result leaves the bits above the codes as they were at the start or, after interrupt
  returns, as the last of them left them. -/
  above : ∀ before e, IsLast Retired.SetsStatus history before e → e.HasDestination →
    (∀ x ∈ before, ¬ x.Returns) → q.registers.psr &&& 0xFFF8 = p.registers.psr &&& 0xFFF8
  aboveReturn : ∀ before e earlier r, IsLast Retired.SetsStatus history before e →
    e.HasDestination → IsLast Retired.Returns before earlier r →
    q.registers.psr &&& 0xFFF8 = r.after.registers.psr &&& 0xFFF8

theorem Passes.told (h : p.Passes history q) : p.StatusTold history q where
  untouched := h.psr
  returned before e last returns := by
    have outcome := e.outcome
    rw [show e.instruction = .rti from returns] at outcome
    rw [h.psr_of_isLast last]
    exact outcome.psr_of_rti
  flags before e dr last destined := by
    rw [h.psr_of_isLast last, e.outcome.flags destined, Word.flags_eq]
  above before e last destined stays := by
    rw [h.psr_of_isLast last, e.outcome.above destined.not_returns]
    exact (h.around last).1.above stays
  aboveReturn before e earlier r last destined lastReturn := by
    rw [h.psr_of_isLast last, e.outcome.above destined.not_returns]
    exact (h.around last).1.above_of_isLast lastReturn

theorem Passes.psr_eq_zero (h : p.Passes history q) (clear : p.registers.psr = 0)
    (stays : ∀ e ∈ history, ¬ e.Returns) (unwritten : ∀ e ∈ history, ¬ e.HasDestination) :
    q.registers.psr = 0 := by
  rw [h.psr fun e member => not_or.mpr ⟨stays e member, unwritten e member⟩, clear]

theorem Passes.psr_eq_flags (h : p.Passes history q) (clear : p.registers.psr = 0)
    (stays : ∀ e ∈ history, ¬ e.Returns) (written : ∃ e ∈ history, e.HasDestination) :
    q.registers.psr = 0b100 ∨ q.registers.psr = 0b010 ∨ q.registers.psr = 0b001 := by
  obtain ⟨e, member, destined⟩ := written
  have sets : ∃ e ∈ history, e.SetsStatus := ⟨e, member, .inr destined⟩
  obtain ⟨before, j, last⟩ := exists_isLast sets
  have writes : j.HasDestination := last.holds.resolve_left (stays j last.mem)
  obtain ⟨dr, named⟩ := Option.ne_none_iff_exists'.mp writes
  have whole : q.registers.psr = (j.after.registers.get dr).flags := by
    apply Word.eq_of_parts
    · rw [h.above stays, clear, Word.above_flags]
      exact BitVec.zero_and
    · rw [h.psr_of_isLast last, j.outcome.flags named, Word.flags_flags]
  rw [whole]
  exact (j.after.registers.get dr).flags_mem

/-- The processor after loads, those that fail among them. -/
def loadAll (p : Processor) (images : List (Word × List Word)) : Processor :=
  images.foldl (fun p image => (p.load image.1 image.2).2) p

/-- Where the status can be found after steps that succeed. -/
structure StatusIsLastResult (p : Processor) : Prop where
  steps : ∀ q, Relation.ReflTransGen Succeeds p q ↔ ∃ history, p.Passes history q
  runs : ∀ answer q, p.run = some (answer, q) → ∃ history, p.Passes history q
  told : ∀ history q, p.Passes history q → p.StatusTold history q
  /-- After a reset and loads the status is clear until a result is written and exactly one of the
  condition codes from then on, as long as there are no interrupt returns. -/
  fresh : ∀ images history q, (p.reset.loadAll images).Passes history q →
    (∀ e ∈ history, ¬ e.Returns) →
    ((∀ e ∈ history, ¬ e.HasDestination) → q.registers.psr = 0) ∧
      ((∃ e ∈ history, e.HasDestination) →
        q.registers.psr = 0b100 ∨ q.registers.psr = 0b010 ∨ q.registers.psr = 0b001)

theorem psr_loadAll (p : Processor) (images : List (Word × List Word)) :
    (p.loadAll images).registers.psr = p.registers.psr := by
  induction images generalizing p with
  | nil => rfl
  | cons image images ih =>
      rw [loadAll, List.foldl_cons, ← loadAll, ih, load]
      split
      · rfl
      · rfl

theorem status_told (p : Processor) : p.StatusIsLastResult where
  steps q := exists_passes_iff.symm
  runs answer q := exists_passes_of_run
  told history q := Passes.told
  fresh images history q passed stays := by
    have clear : (p.reset.loadAll images).registers.psr = 0 := psr_loadAll p.reset images
    exact ⟨passed.psr_eq_zero clear stays, passed.psr_eq_flags clear stays⟩

end Processor
end LC3
