import LC3.Word.Codec

/-!
Memory: one word at each of the 65536 addresses. Every word is an address; a wider number may be
none. Loading several words writes all of them or, where they would pass the end, none. Main
statements: `get_set`, a write is read back at its address and nowhere else, and `ext_get`, memories
that read the same are equal.
-/

namespace LC3

/-- A number that is no address. -/
structure OutOfMemory where
  address : Int
  deriving DecidableEq, Repr

def OutOfMemory.message (e : OutOfMemory) : String := s!"address {e.address} is outside memory"

structure Memory where
  cells : Vector Word 65536

namespace Memory

def zero : Memory := ⟨Vector.replicate 65536 0⟩

def get (m : Memory) (a : Word) : Word :=
  have : a.toNat < 65536 := a.isLt
  m.cells[a.toNat]

def set (m : Memory) (a value : Word) : Memory := ⟨m.cells.set a.toNat value a.isLt⟩

@[simp] theorem get_zero (a : Word) : zero.get a = 0 := by simp [zero, get]

theorem get_set (m : Memory) (a b value : Word) :
    (m.set a value).get b = if b = a then value else m.get b := by
  simp only [get, set, Vector.getElem_set, BitVec.toNat_eq, eq_comm (a := b.toNat)]

/-- Memories with equal words at every address are equal. -/
theorem ext_get {m n : Memory} (h : ∀ a, m.get a = n.get a) : m = n := by
  cases m with | mk c =>
  cases n with | mk d =>
  congr 1
  refine Vector.ext fun i hi => ?_
  have := h (BitVec.ofNat 16 i)
  simpa [get, Nat.mod_eq_of_lt hi] using this

def read (m : Memory) (address : Int) : Except OutOfMemory Word :=
  if address ∈ Interval.words then .ok (m.get (BitVec.ofInt 16 address)) else .error ⟨address⟩

def write (m : Memory) (address : Int) (value : Word) : Except OutOfMemory Memory :=
  if address ∈ Interval.words then .ok (m.set (BitVec.ofInt 16 address) value) else .error ⟨address⟩

def setAll (m : Memory) (base : Word) : List Word → Memory
  | [] => m
  | w :: words => (m.set base w).setAll (base + 1) words

/-- Writes words to the addresses from `base` on, if all of those are addresses. -/
def load (m : Memory) (base : Word) (words : List Word) : Except OutOfMemory Memory :=
  if base.toNat + words.length ≤ 0x10000 then .ok (m.setAll base words)
  else .error ⟨(base.toNat + words.length : Nat) - 1⟩

/-- The words of `length` addresses from `base` on. -/
def slice (m : Memory) (base length : Nat) : List Word := (m.cells.toList.drop base).take length

/-- The addresses whose words are not zero, with those words. -/
def nonzero (m : Memory) : List (Nat × Word) :=
  (m.cells.toList.zipIdx.filter fun (w, _) => w != 0).map fun (w, a) => (a, w)

def text (m : Memory) : String :=
  "Memory \x7b nonzero_cells: " ++ toString m.nonzero.length ++ " \x7d"

end Memory
end LC3
