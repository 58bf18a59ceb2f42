import LC3.Word.Codec

/-!
Labels and their addresses, in the order of their definitions. A label has at most one address.
Main statements: `insert_eq_error_iff`, a definition fails exactly where the label has an address,
and `entries_insert`, one that succeeds goes last.
-/

namespace LC3

abbrev Label := List Char

structure SymbolTable where
  entries : List (Label × Word) := []
  distinct : (entries.map Prod.fst).Nodup := by exact List.nodup_nil
  deriving DecidableEq

namespace SymbolTable

def empty : SymbolTable := {}

def find? (t : SymbolTable) (label : Label) : Option Word := t.entries.lookup label

theorem find?_eq_none_iff {t : SymbolTable} {label : Label} :
    t.find? label = none ↔ label ∉ t.entries.map Prod.fst := by
  simp only [find?, List.lookup_eq_none_iff, List.mem_map, not_exists, not_and]
  exact ⟨fun h e he hl => by have := h e he; simp [hl] at this,
    fun h e he => by simpa using fun hl => h e he hl.symm⟩

/-- Defines a label, or says the address that it has already. -/
def insert (t : SymbolTable) (label : Label) (address : Word) : Except Word SymbolTable :=
  match h : t.find? label with
  | some earlier => .error earlier
  | none => .ok {
      entries := t.entries ++ [(label, address)]
      distinct := by
        rw [List.map_append, List.nodup_append]
        refine ⟨t.distinct, by simp, fun a ha b hb => ?_⟩
        have := find?_eq_none_iff.mp h
        simp only [List.map_cons, List.map_nil, List.mem_singleton] at hb
        exact fun same => this (by rw [← hb, ← same]; exact ha) }

/-- A definition goes after all earlier ones. -/
theorem entries_insert {t u : SymbolTable} {label : Label} {address : Word}
    (h : t.insert label address = .ok u) : u.entries = t.entries ++ [(label, address)] := by
  unfold insert at h
  split at h
  · cases h
  · cases h; rfl

/-- A definition fails exactly where the label has an address. -/
theorem insert_eq_error_iff {t : SymbolTable} {label : Label} {address earlier : Word} :
    t.insert label address = .error earlier ↔ t.find? label = some earlier := by
  unfold insert
  split
  · next h => simp [h]
  · next h => simp [h]

def size (t : SymbolTable) : Nat := t.entries.length

def isEmpty (t : SymbolTable) : Bool := t.entries.isEmpty

end SymbolTable
end LC3
