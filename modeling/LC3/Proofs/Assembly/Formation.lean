import LC3.Proofs.Assembly.Entries

/-!
Entries that make a program. It opens with the only ORIG, no label is defined twice and everything
has an address. Entries that begin a program go on with one more where it is no origin, has a new
label and fits. Main statement: `Formed.concat_iff`.
-/

namespace LC3

namespace Entry

/-- How many words the entry takes. -/
def size (e : Entry) : Nat :=
  match e.act with
  | .put item => item.size
  | _ => 0

def total (entries : List Entry) : Nat := (entries.map size).sum

/-- The entries with their addresses, where the first one is at `here`. -/
def addressed (here : Nat) : List Entry → List (Nat × Entry)
  | [] => []
  | e :: rest => (here, e) :: addressed (here + e.size) rest

/-- The labels with their addresses. -/
def labels (here : Nat) (entries : List Entry) : List (Label × Nat) :=
  (addressed here entries).filterMap fun (a, e) => e.label.map (·, a)

def item? (e : Entry) : Option Item :=
  match e.act with
  | .put item => some item
  | _ => none

/-- The statements with their addresses. -/
def items (here : Nat) (entries : List Entry) : List (Nat × Item) :=
  (addressed here entries).filterMap fun (a, e) => e.item?.map (a, ·)

/-- A label has an address, and a statement has one and ends within memory. -/
def Fits (here : Nat) (e : Entry) : Prop :=
  (e.label ≠ none → here ≤ 0xFFFF) ∧
    ∀ item, e.act = .put item → here ≤ 0xFFFF ∧ here + item.size ≤ 0x10000

def IsOrigin (e : Entry) : Prop := ∃ a, e.act = .origin a

/-- The entries without the blank ones before all others. -/
def body (entries : List Entry) : List Entry := entries.dropWhile (· = blank)

/-- The entries make a program. -/
structure Formed (entries : List Entry) (origin : Word) : Prop where
  /-- Only blank entries come before the origin, and there is no other. -/
  first : ∃ label rest, body entries = ⟨label, .origin origin⟩ :: rest ∧ ∀ e ∈ rest, ¬ e.IsOrigin
  distinct : ((body entries).filterMap label).Nodup
  fits : ∀ x ∈ addressed origin.toNat (body entries), x.2.Fits x.1

/-- The entries make a program or can begin one. -/
def Opens (entries : List Entry) : Prop := body entries = [] ∨ ∃ origin, Formed entries origin

variable {e : Entry} {entries others : List Entry} {here : Nat} {origin : Word}

@[simp] theorem total_nil : total [] = 0 := rfl

@[simp] theorem total_cons (e : Entry) (rest : List Entry) :
    total (e :: rest) = e.size + total rest := by
  simp only [total, List.map_cons, List.sum_cons]

@[simp] theorem total_append (entries others : List Entry) :
    total (entries ++ others) = total entries + total others := by
  simp only [total, List.map_append, List.sum_append]

theorem addressed_append : addressed here (entries ++ others) =
    addressed here entries ++ addressed (here + total entries) others := by
  induction entries generalizing here with
  | nil => rfl
  | cons e rest ih => simp only [List.cons_append, addressed, ih, total_cons, Nat.add_assoc]

theorem labels_append : labels here (entries ++ others) =
    labels here entries ++ labels (here + total entries) others := by
  rw [labels, addressed_append, List.filterMap_append]
  rfl

theorem items_append : items here (entries ++ others) =
    items here entries ++ items (here + total entries) others := by
  rw [items, addressed_append, List.filterMap_append]
  rfl

theorem labels_singleton : labels here [e] = (e.label.map (·, here)).toList := by
  cases own : e.label <;> simp [labels, addressed, own]

theorem items_singleton : items here [e] = (e.item?.map (here, ·)).toList := by
  cases own : e.item? <;> simp [items, addressed, own]

theorem map_fst_labels : (labels here entries).map Prod.fst = entries.filterMap label := by
  induction entries generalizing here with
  | nil => rfl
  | cons e rest ih =>
      have ih := @ih (here + e.size)
      cases own : e.label with
      | none => simpa [labels, addressed, own] using ih
      | some l => simpa [labels, addressed, own] using ih

theorem body_append_of_nil (none : body entries = []) : body (entries ++ others) = body others := by
  rw [body, List.dropWhile_append, ← body, none]
  rfl

theorem body_append (some : body entries ≠ []) :
    body (entries ++ others) = body entries ++ others := by
  rw [body, List.dropWhile_append, ← body, if_neg (by simpa using some)]

theorem Formed.body_ne_nil (h : Formed entries origin) : body entries ≠ [] := by
  obtain ⟨label, rest, split, -⟩ := h.first
  simp [split]

theorem Formed.unique {other : Word} (h : Formed entries origin) (h' : Formed entries other) :
    origin = other := by
  obtain ⟨label, rest, split, -⟩ := h.first
  obtain ⟨label', rest', split', -⟩ := h'.first
  cases split.symm.trans split'
  rfl

theorem Formed.of_append (h : Formed (entries ++ others) origin) (some : body entries ≠ []) :
    Formed entries origin := by
  obtain ⟨⟨label, rest, split, only⟩, distinct, fits⟩ := h
  rw [body_append some] at split distinct fits
  refine ⟨?_, (List.nodup_append.mp (List.filterMap_append .. ▸ distinct)).1, fun x member => ?_⟩
  · obtain ⟨e, more, own⟩ := List.exists_cons_of_ne_nil some
    rw [own, List.cons_append] at split
    obtain ⟨rfl, rfl⟩ := List.cons.inj split
    exact ⟨label, more, own, fun e member => only e (List.mem_append_left _ member)⟩
  · exact fits x (addressed_append ▸ List.mem_append_left _ member)

theorem Opens.of_append (h : Opens (entries ++ others)) : Opens entries := by
  by_cases none : body entries = []
  · exact .inl none
  · rcases h with empty | ⟨origin, formed⟩
    · rw [body_append none] at empty
      exact absurd (List.append_eq_nil_iff.mp empty).1 none
    · exact .inr ⟨origin, formed.of_append none⟩

theorem nodup_filterMap_concat : ((entries ++ [e]).filterMap label).Nodup ↔
    (entries.filterMap label).Nodup ∧ ∀ l ∈ e.label, l ∉ entries.filterMap label := by
  have own : [e].filterMap label = e.label.toList := by
    rw [List.filterMap_cons, List.filterMap_nil]
    cases e.label <;> rfl
  have once : e.label.toList.Nodup := by cases e.label <;> simp
  rw [List.filterMap_append, own, List.nodup_append]
  simp only [once, true_and, Option.mem_toList]
  exact and_congr_right fun _ => ⟨fun h l own member => h l member l own rfl,
    fun h a member b own same => h b own (same ▸ member)⟩

/-- A program goes on with an entry that is no origin, has a new label and fits. -/
theorem Formed.concat_iff (h : Formed entries origin) : Formed (entries ++ [e]) origin ↔
    ¬ e.IsOrigin ∧ (∀ l ∈ e.label, l ∉ (body entries).filterMap label) ∧
      e.Fits (origin.toNat + total (body entries)) := by
  have whole : body (entries ++ [e]) = body entries ++ [e] := body_append h.body_ne_nil
  obtain ⟨⟨label, rest, split, only⟩, distinct, fits⟩ := h
  constructor
  · rintro ⟨⟨label', rest', split', only'⟩, distinct', fits'⟩
    rw [whole] at split' distinct' fits'
    rw [split, List.cons_append] at split'
    obtain ⟨-, rfl⟩ := List.cons.inj split'
    refine ⟨only' e (by simp), (nodup_filterMap_concat.mp distinct').2, ?_⟩
    exact fits' (_, e) (addressed_append ▸ List.mem_append_right _ List.mem_cons_self)
  · rintro ⟨other, new, own⟩
    refine ⟨⟨label, rest ++ [e], by rw [whole, split, List.cons_append], ?_⟩, ?_, ?_⟩
    · exact List.forall_mem_append.mpr ⟨only, List.forall_mem_singleton.mpr other⟩
    · rw [whole]
      exact nodup_filterMap_concat.mpr ⟨distinct, new⟩
    · rw [whole, addressed_append]
      exact List.forall_mem_append.mpr ⟨fits, List.forall_mem_singleton.mpr own⟩

theorem Formed.opens_concat_iff (h : Formed entries origin) :
    Opens (entries ++ [e]) ↔ Formed (entries ++ [e]) origin := by
  refine ⟨fun opens => ?_, fun formed => .inr ⟨origin, formed⟩⟩
  have whole : body (entries ++ [e]) = body entries ++ [e] := body_append h.body_ne_nil
  rcases opens with empty | ⟨other, formed⟩
  · rw [whole] at empty
    exact absurd empty (by simp)
  · obtain ⟨label, rest, split, -⟩ := h.first
    obtain ⟨label', rest', split', -⟩ := formed.first
    rw [whole, split, List.cons_append] at split'
    obtain ⟨same, -⟩ := List.cons.inj split'
    cases same
    exact formed

theorem body_concat_of_nil (none : body entries = []) (some : e ≠ blank) :
    body (entries ++ [e]) = [e] := by
  rw [body_append_of_nil none, body, List.dropWhile_cons_of_neg (by simpa using some)]

/-- An origin alone makes a program. -/
theorem formed_concat_origin (none : body entries = []) (name : Option Label) :
    Formed (entries ++ [⟨name, .origin origin⟩]) origin := by
  have whole : body (entries ++ [⟨name, .origin origin⟩]) = [⟨name, .origin origin⟩] :=
    body_concat_of_nil none (by simp [blank])
  refine ⟨⟨name, [], whole, nofun⟩, ?_, ?_⟩
  · rw [whole, ← List.nil_append [_]]
    exact nodup_filterMap_concat.mpr ⟨List.nodup_nil, by simp⟩
  · rw [whole]
    refine List.forall_mem_singleton.mpr ⟨fun _ => ?_, nofun⟩
    exact Nat.le_of_lt_succ origin.isLt

/-- What begins a program is its origin. -/
theorem opens_concat_of_nil (none : body entries = []) (h : Opens (entries ++ [e])) :
    e = blank ∨ ∃ label origin, e = ⟨label, .origin origin⟩ := by
  by_cases empty : e = blank
  · exact .inl empty
  · have whole := body_concat_of_nil none empty
    rcases h with h | ⟨origin, formed⟩
    · rw [whole] at h
      cases h
    · obtain ⟨label, rest, split, -⟩ := formed.first
      rw [whole] at split
      exact .inr ⟨label, origin, (List.cons.inj split).1⟩

end Entry

end LC3
