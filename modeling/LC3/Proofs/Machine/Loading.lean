import Mathlib
import LC3.Machine.Processor

/-!
Loading. Words that fit from the origin on are all read back there, and every other cell keeps what
it held. Main statements: `holds_setAll`, `get_setAll_of_ne`, `load_of_fits`.
-/

namespace LC3
namespace Memory

variable {m : Memory} {base : Word} {words : List Word}

theorem set_set (m : Memory) (a v w : Word) : (m.set a v).set a w = m.set a w := by
  apply ext_get
  intro b
  simp only [get_set]
  split <;> rfl

theorem set_comm (m : Memory) {a b : Word} (apart : a ≠ b) (v w : Word) :
    (m.set a v).set b w = (m.set b w).set a v := by
  apply ext_get
  intro c
  simp only [get_set]
  split
  · next same => rw [if_neg (same ▸ apart.symm)]
  · rfl

/-- The words stand in consecutive cells from `base` on, none of them past the end. -/
structure Holds (m : Memory) (base : Word) (words : List Word) : Prop where
  fits : base.toNat + words.length ≤ 0x10000
  get : ∀ i w, words[i]? = some w → m.get (base + BitVec.ofNat 16 i) = w

theorem toNat_add_ofNat {i : Nat} (h : base.toNat + i < 0x10000) :
    (base + BitVec.ofNat 16 i).toNat = base.toNat + i := by
  rw [BitVec.toNat_add, BitVec.toNat_ofNat, Nat.add_mod_mod, Nat.mod_eq_of_lt h]

theorem add_one_add_ofNat (base : Word) (i : Nat) :
    base + 1 + BitVec.ofNat 16 i = base + BitVec.ofNat 16 (i + 1) := by
  rw [Nat.add_comm i 1, BitVec.ofNat_add, ← BitVec.add_assoc]
  rfl

/-- Writing several words leaves the cells alone that are none of theirs. -/
theorem get_setAll_of_ne {a : Word}
    (other : ∀ i < words.length, a ≠ base + BitVec.ofNat 16 i) :
    (m.setAll base words).get a = m.get a := by
  induction words generalizing m base with
  | nil => rfl
  | cons w rest ih =>
      have first : a ≠ base := by simpa using other 0 (Nat.zero_lt_succ _)
      rw [setAll, ih, get_set, if_neg first]
      intro i inside
      rw [add_one_add_ofNat]
      exact other (i + 1) (Nat.succ_lt_succ inside)

/-- The words after one come round to its address only past the end of memory. -/
theorem get_setAll {i : Nat} {w : Word} (small : words.length ≤ 0x10000)
    (found : words[i]? = some w) : (m.setAll base words).get (base + BitVec.ofNat 16 i) = w := by
  induction words generalizing m base i with
  | nil => cases found
  | cons v rest ih =>
      rw [List.length_cons] at small
      cases i with
      | zero =>
          cases found
          have apart (i : Nat) (inside : i < rest.length) :
              base + BitVec.ofNat 16 0 ≠ base + 1 + BitVec.ofNat 16 i := by
            rw [add_one_add_ofNat]
            intro same
            have := congrArg BitVec.toNat (add_left_cancel same)
            simp only [BitVec.toNat_ofNat] at this
            omega
          rw [setAll, get_setAll_of_ne apart, get_set, if_pos (BitVec.add_zero base)]
      | succ i =>
          rw [setAll, ← add_one_add_ofNat]
          exact ih (Nat.le_of_succ_le small) found

theorem holds_setAll (m : Memory) (fits : base.toNat + words.length ≤ 0x10000) :
    (m.setAll base words).Holds base words where
  fits
  get _ _ := get_setAll (by omega)

/-- A stretch of the words that a memory holds stands at its own place. -/
theorem Holds.stretch {before ws after : List Word} (h : m.Holds base (before ++ ws ++ after))
    {a : Word} (place : a.toNat = base.toNat + before.length) : m.Holds a ws where
  fits := by
    have := h.fits
    simp only [List.length_append] at this
    omega
  get i w found := by
    have inside := (List.getElem?_eq_some_iff.mp found).1
    have whole : (before ++ ws ++ after)[before.length + i]? = some w := by
      rw [List.append_assoc, List.getElem?_append_right (Nat.le_add_right _ _),
        Nat.add_sub_cancel_left, List.getElem?_append_left inside, found]
    have start : a = base + BitVec.ofNat 16 before.length := by
      apply BitVec.eq_of_toNat_eq
      rw [place, toNat_add_ofNat (place ▸ a.isLt)]
    rw [start, BitVec.add_assoc, ← BitVec.ofNat_add]
    exact h.get _ _ whole

end Memory

namespace Processor

theorem load_of_fits (p : Processor) {origin : Word} {words : List Word}
    (fits : origin.toNat + words.length ≤ 0x10000) :
    p.load origin words = (.ok (), { p with
      memory := p.memory.setAll origin words
      registers.pc := origin, cycles := 0, halted := false }) := by
  simp only [load, Memory.load, if_pos fits]

end Processor
end LC3
