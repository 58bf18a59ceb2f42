import LC3.Proofs.Machine.Loading
import LC3.Proofs.Machine.Status

/-!
Several loads, one after another. A load whose words would pass the end of memory is refused and
changes nothing; each cell holds the word of the last of the others that covers it, and the program
counter is at the origin of the last of them. Main statement: `loads_told`.
-/

namespace LC3

/-- Words for the addresses from an origin on. -/
abbrev Load := Word × List Word

namespace Load

/-- The words end within memory. -/
def Fits (l : Load) : Prop := l.1.toNat + l.2.length ≤ 0x10000

instance (l : Load) : Decidable l.Fits := inferInstanceAs (Decidable (_ ≤ _))

/-- One of the words is for this address. -/
def Covers (a : Word) (l : Load) : Prop :=
  l.Fits ∧ l.1.toNat ≤ a.toNat ∧ a.toNat < l.1.toNat + l.2.length

/-- No address is covered by both. -/
def Apart (l l' : Load) : Prop := ∀ a, ¬ (l.Covers a ∧ l'.Covers a)

instance : Std.Symm Apart := ⟨fun _ _ apart a both => apart a both.symm⟩

end Load

namespace Processor

/-- What several loads, one after another, do to a processor. -/
structure LoadsTold (p : Processor) (loads : List Load) : Prop where
  /-- A load is refused where its words would pass the end of memory, for the address of the last. -/
  refused_iff : ∀ before l after, loads = before ++ l :: after → ∀ fault,
    ((p.loadAll before).load l.1 l.2).1 = .error fault ↔ 0x10000 < l.1.toNat + l.2.length ∧
      fault = .outOfMemory (l.1.toNat + l.2.length - 1) (p.loadAll before).registers.pc
  covered : ∀ a before l, IsLast (Load.Covers a) loads before l →
    l.2[a.toNat - l.1.toNat]? = some ((p.loadAll loads).memory.get a)
  uncovered : ∀ a, (∀ l ∈ loads, ¬ l.Covers a) →
    (p.loadAll loads).memory.get a = p.memory.get a
  counter : ∀ before l, IsLast Load.Fits loads before l → (p.loadAll loads).registers.pc = l.1
  uncounted : (∀ l ∈ loads, ¬ l.Fits) → (p.loadAll loads).registers.pc = p.registers.pc
  /-- Of the registers only the program counter changes. -/
  registers : { (p.loadAll loads).registers with pc := p.registers.pc } = p.registers
  /-- Where no two loads cover an address, their order makes no difference to memory. -/
  unordered : ∀ others, loads.Perm others → loads.Pairwise Load.Apart →
    (p.loadAll loads).memory = (p.loadAll others).memory

variable {p q : Processor} {l : Load} {loads others before after : List Load} {a : Word}
  {fault : Fault}

theorem load_of_not_fits (beyond : ¬ l.Fits) : p.load l.1 l.2 =
    (.error (.outOfMemory (l.1.toNat + l.2.length - 1) p.registers.pc), p) := by
  rw [Load.Fits] at beyond
  simp only [load, Memory.load, if_neg beyond, Nat.cast_add]

theorem load_eq_error_iff : (p.load l.1 l.2).1 = .error fault ↔ ¬ l.Fits ∧
    fault = .outOfMemory (l.1.toNat + l.2.length - 1) p.registers.pc := by
  by_cases fits : l.Fits
  · rw [load_of_fits p fits]
    simp [fits]
  · rw [load_of_not_fits fits]
    simp [fits, eq_comm]

/-- The cells that a load covers hold its words. -/
theorem get_load_of_covers (p : Processor) (covers : l.Covers a) :
    l.2[a.toNat - l.1.toNat]? = some ((p.load l.1 l.2).2.memory.get a) := by
  obtain ⟨fits, start, stop⟩ := covers
  have inside : a.toNat - l.1.toNat < l.2.length := by omega
  have place : a = l.1 + BitVec.ofNat 16 (a.toNat - l.1.toNat) := by
    apply BitVec.eq_of_toNat_eq
    rw [Memory.toNat_add_ofNat] <;> omega
  have small : l.2.length ≤ 0x10000 := Nat.le_of_add_left_le fits
  have found := List.getElem?_eq_getElem inside
  have own : (p.memory.setAll l.1 l.2).get (l.1 + BitVec.ofNat 16 (a.toNat - l.1.toNat)) = _ :=
    Memory.get_setAll small found
  rw [load_of_fits p fits, found]
  dsimp only
  rw [← own, ← place]

theorem get_load_of_not_covers (p : Processor) (other : ¬ l.Covers a) :
    (p.load l.1 l.2).2.memory.get a = p.memory.get a := by
  by_cases fits : l.Fits
  · rw [load_of_fits p fits]
    refine Memory.get_setAll_of_ne fun i inside place => other ⟨fits, ?_⟩
    rw [Load.Fits] at fits
    rw [place, Memory.toNat_add_ofNat (by omega)]
    omega
  · rw [load_of_not_fits fits]

theorem loadAll_append : p.loadAll (before ++ after) = (p.loadAll before).loadAll after :=
  List.foldl_append

theorem loadAll_cons : p.loadAll (l :: after) = ((p.load l.1 l.2).2).loadAll after := rfl

/-- What every load keeps, all of them keep. -/
theorem keeps_loadAll {α : Type} {f : Processor → α}
    (kept : ∀ l ∈ loads, ∀ q : Processor, f (q.load l.1 l.2).2 = f q) :
    f (p.loadAll loads) = f p := by
  induction loads generalizing p with
  | nil => rfl
  | cons l rest ih =>
      obtain ⟨first, later⟩ := List.forall_mem_cons.mp kept
      rw [loadAll_cons, ih later, first]

theorem get_loadAll_of_not_covers (none : ∀ l ∈ loads, ¬ l.Covers a) :
    (p.loadAll loads).memory.get a = p.memory.get a :=
  keeps_loadAll (f := fun q => q.memory.get a) fun l member q =>
    get_load_of_not_covers q (none l member)

theorem get_loadAll_of_isLast (last : IsLast (Load.Covers a) loads before l) :
    l.2[a.toNat - l.1.toNat]? = some ((p.loadAll loads).memory.get a) := by
  obtain ⟨after, rfl, covers, later⟩ := last
  rw [loadAll_append, loadAll_cons, get_loadAll_of_not_covers later]
  exact get_load_of_covers _ covers

theorem loadAll_of_not_fits (none : ∀ l ∈ loads, ¬ l.Fits) : p.loadAll loads = p :=
  keeps_loadAll (f := id) fun l member _ => congrArg Prod.snd (load_of_not_fits (none l member))

theorem pc_loadAll_of_isLast (last : IsLast Load.Fits loads before l) :
    (p.loadAll loads).registers.pc = l.1 := by
  obtain ⟨after, rfl, fits, later⟩ := last
  rw [loadAll_append, loadAll_cons, loadAll_of_not_fits later, load_of_fits _ fits]

/-- Loads that cover no address twice leave the same memory in any order. -/
theorem memory_loadAll_of_perm (perm : loads.Perm others) (apart : loads.Pairwise Load.Apart) :
    (p.loadAll loads).memory = (p.loadAll others).memory := by
  apply Memory.ext_get
  intro a
  by_cases some : ∃ l ∈ loads, l.Covers a
  · obtain ⟨before, l, last⟩ := exists_isLast some
    obtain ⟨before', l', last'⟩ : ∃ before' l', IsLast (Load.Covers a) others before' l' :=
      exists_isLast (some.imp fun l own => ⟨perm.mem_iff.mp own.1, own.2⟩)
    have only : l = l' := by
      by_contra other
      exact apart.forall last.mem (perm.mem_iff.mpr last'.mem) other a ⟨last.holds, last'.holds⟩
    subst only
    exact Option.some.inj ((get_loadAll_of_isLast last).symm.trans (get_loadAll_of_isLast last'))
  · have none : ∀ l ∈ loads, ¬ l.Covers a := fun l member covers => some ⟨l, member, covers⟩
    rw [get_loadAll_of_not_covers none,
      get_loadAll_of_not_covers fun l member => none l (perm.mem_iff.mpr member)]

/-- Several loads leave the words of the last that covers each cell and go to the last origin. -/
theorem loads_told (p : Processor) (loads : List Load) : p.LoadsTold loads where
  refused_iff before l after _ fault := by
    rw [load_eq_error_iff, Load.Fits, Nat.not_le]
  covered _ _ _ := get_loadAll_of_isLast
  uncovered _ := get_loadAll_of_not_covers
  counter _ _ := pc_loadAll_of_isLast
  uncounted none := by rw [loadAll_of_not_fits none]
  registers := by
    refine keeps_loadAll (f := fun q => { q.registers with pc := p.registers.pc }) fun l _ q => ?_
    by_cases fits : l.Fits
    · rw [load_of_fits q fits]
    · rw [load_of_not_fits fits]
  unordered _ := memory_loadAll_of_perm

end Processor
end LC3
