import Mathlib

/-!
Stages that may fail. A chain of stages succeeds exactly where each of them does.
-/

namespace LC3.Stage

variable {ε δ α β : Type}

/-- Not by reflexivity: as a rule of reduction it would have the kernel compare what follows. -/
theorem ok_bind (a : α) (f : α → Except ε β) : Except.ok a >>= f = f a := by
  simp only [bind, Except.bind]

theorem bind_eq_ok {x : Except ε α} {f : α → Except ε β} {b : β} :
    x >>= f = .ok b ↔ ∃ a, x = .ok a ∧ f a = .ok b := by
  cases x <;> simp [bind, Except.bind]

theorem bind_eq_error {x : Except ε α} {f : α → Except ε β} {e : ε} :
    x >>= f = .error e ↔ x = .error e ∨ ∃ a, x = .ok a ∧ f a = .error e := by
  cases x <;> simp [bind, Except.bind]

theorem map_eq_ok {x : Except ε α} {f : α → β} {b : β} :
    x.map f = .ok b ↔ ∃ a, x = .ok a ∧ f a = b := by
  cases x <;> simp [Except.map]

theorem map_eq_error {x : Except ε α} {f : α → β} {e : ε} :
    x.map f = .error e ↔ x = .error e := by
  cases x <;> simp [Except.map]

theorem map_congr_of_ok {x : Except ε α} {f g : α → β} (same : ∀ a, x = .ok a → f a = g a) :
    x.map f = x.map g := by
  cases x with
  | error e => rfl
  | ok a => exact congrArg Except.ok (same a rfl)

theorem mapError_eq_ok {x : Except ε α} {f : ε → δ} {a : α} :
    x.mapError f = .ok a ↔ x = .ok a := by
  cases x <;> simp [Except.mapError]

theorem mapError_eq_error {x : Except ε α} {f : ε → δ} {e : δ} :
    x.mapError f = .error e ↔ ∃ c, x = .error c ∧ f c = e := by
  cases x <;> simp [Except.mapError]

/-- A stage for each of some inputs succeeds where all of them do, with their results in order. -/
theorem mapM_eq_ok_iff {f : α → Except ε β} {xs : List α} {ys : List β} :
    xs.mapM f = .ok ys ↔ List.Forall₂ (fun x y => f x = .ok y) xs ys := by
  induction xs generalizing ys with
  | nil => cases ys <;> simp [pure, Except.pure]
  | cons x rest ih =>
      simp only [List.mapM_cons, bind_eq_ok, ih, List.forall₂_cons_left_iff]
      constructor
      · rintro ⟨y, first, zs, others, same⟩
        cases same
        exact ⟨y, zs, first, others, rfl⟩
      · rintro ⟨y, zs, first, others, rfl⟩
        exact ⟨y, first, zs, others, rfl⟩

/-- It fails where one of them does and those before it do not. -/
theorem mapM_eq_error_iff {f : α → Except ε β} {xs : List α} {e : ε} :
    xs.mapM f = .error e ↔
      ∃ before x after, xs = before ++ x :: after ∧ (∀ y ∈ before, ∃ b, f y = .ok b) ∧
        f x = .error e := by
  induction xs with
  | nil => simp [pure, Except.pure]
  | cons x rest ih =>
      simp only [List.mapM_cons, bind_eq_error, ih]
      constructor
      · rintro (first | ⟨b, ok, ⟨before, y, after, rfl, sound, failed⟩ | ⟨_, _, h⟩⟩)
        · exact ⟨[], x, rest, rfl, nofun, first⟩
        · exact ⟨x :: before, y, after, rfl, List.forall_mem_cons.mpr ⟨⟨b, ok⟩, sound⟩, failed⟩
        · cases h
      · rintro ⟨before, y, after, split, sound, failed⟩
        cases before with
        | nil =>
            cases split
            exact .inl failed
        | cons z before =>
            cases split
            obtain ⟨⟨b, ok⟩, sound⟩ := List.forall_mem_cons.mp sound
            exact .inr ⟨b, ok, .inl ⟨before, y, after, rfl, sound, failed⟩⟩

theorem exists_of_forall₂_left {R : α → β → Prop} {xs : List α} {ys : List β}
    (h : List.Forall₂ R xs ys) {x : α} (member : x ∈ xs) : ∃ y ∈ ys, R x y := by
  induction h with
  | nil => cases member
  | cons first _ ih =>
      rcases List.mem_cons.mp member with rfl | later
      · exact ⟨_, List.mem_cons_self, first⟩
      · obtain ⟨y, inside, related⟩ := ih later
        exact ⟨y, List.mem_cons_of_mem _ inside, related⟩

/-- Where each element is related to something, lists are related. -/
theorem exists_forall₂ {R : α → β → Prop} {xs : List α} (h : ∀ x ∈ xs, ∃ y, R x y) :
    ∃ ys, List.Forall₂ R xs ys := by
  induction xs with
  | nil => exact ⟨[], .nil⟩
  | cons x rest ih =>
      obtain ⟨⟨y, first⟩, later⟩ := List.forall_mem_cons.mp h
      obtain ⟨ys, others⟩ := ih later
      exact ⟨y :: ys, .cons first others⟩

end LC3.Stage
