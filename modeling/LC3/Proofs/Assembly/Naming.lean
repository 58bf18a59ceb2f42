import LC3.Proofs.Assembly.Relocation

/-!
Labels under other names. What a statement says does not depend on how its labels are called: where
each of them has its address under its new name, the words stay the same, and so do the addresses of
all entries. Main statements: `Formed.rename`, `Emits.renames`, `Holds.program_rename`.
-/

namespace LC3

variable {ρ : Label → Label}

def Datum.rename (ρ : Label → Label) : Datum → Datum
  | .literal v => .literal v
  | .label name => .label (ρ name)

def OperandValue.rename (ρ : Label → Label) : OperandValue → OperandValue
  | .register r => .register r
  | .datum d => .datum (d.rename ρ)

def Item.rename (ρ : Label → Label) : Item → Item
  | .instruction m values => .instruction m (values.map (·.rename ρ))
  | .fill d => .fill (d.rename ρ)
  | .block count => .block count
  | .string characters => .string characters

def Act.rename (ρ : Label → Label) : Act → Act
  | .nothing => .nothing
  | .origin a => .origin a
  | .stop => .stop
  | .put item => .put (item.rename ρ)

/-- The entry with its label and the labels in its operands under other names. -/
def Entry.rename (ρ : Label → Label) (e : Entry) : Entry := ⟨e.label.map ρ, e.act.rename ρ⟩

theorem Datum.rename_id (d : Datum) : d.rename id = d := by
  cases d <;> rfl

theorem OperandValue.rename_id (v : OperandValue) : v.rename id = v := by
  cases v with
  | register => rfl
  | datum d => exact congrArg _ d.rename_id

theorem Item.rename_id (item : Item) : item.rename id = item := by
  cases item with
  | instruction m values => simp only [rename, OperandValue.rename_id, List.map_id']
  | fill d => exact congrArg _ d.rename_id
  | block | string => rfl

@[simp] theorem Item.size_rename (item : Item) : (item.rename ρ).size = item.size := by
  cases item <;> rfl

namespace Entry

variable {e : Entry} {entries : List Entry} {here : Nat} {origin : Word}

theorem rename_eq_blank_iff : e.rename ρ = blank ↔ e = blank := by
  obtain ⟨label, act⟩ := e
  cases label <;> cases act <;> simp [rename, blank, Act.rename]

theorem isOrigin_rename_iff : (e.rename ρ).IsOrigin ↔ e.IsOrigin := by
  obtain ⟨label, act⟩ := e
  cases act <;> simp [IsOrigin, rename, Act.rename]

theorem item?_rename (e : Entry) : (e.rename ρ).item? = e.item?.map (·.rename ρ) := by
  obtain ⟨label, act⟩ := e
  cases act <;> rfl

@[simp] theorem size_rename (e : Entry) : (e.rename ρ).size = e.size := by
  obtain ⟨label, act⟩ := e
  cases act with
  | nothing | origin | stop => rfl
  | put item => exact item.size_rename

theorem fits_rename_iff : (e.rename ρ).Fits here ↔ e.Fits here := by
  obtain ⟨label, act⟩ := e
  cases label <;> cases act <;> simp [Fits, rename, Act.rename]

theorem body_map_rename : body (entries.map (rename ρ)) = (body entries).map (rename ρ) := by
  rw [body, List.dropWhile_map, body]
  congr 2
  funext e
  simp [rename_eq_blank_iff]

theorem addressed_map_rename : addressed here (entries.map (rename ρ)) =
    (addressed here entries).map fun x => (x.1, x.2.rename ρ) := by
  induction entries generalizing here with
  | nil => rfl
  | cons e rest ih => simp only [List.map_cons, addressed, ih, size_rename]

theorem labels_map_rename : labels here (entries.map (rename ρ)) =
    (labels here entries).map fun x => (ρ x.1, x.2) := by
  rw [labels, addressed_map_rename, List.filterMap_map, labels, List.map_filterMap]
  congr 1
  funext x
  simp only [Function.comp_apply, rename, Option.map_map]
  rfl

theorem items_map_rename : items here (entries.map (rename ρ)) =
    (items here entries).map fun x => (x.1, x.2.rename ρ) := by
  rw [items, addressed_map_rename, List.filterMap_map, items, List.map_filterMap]
  congr 1
  funext x
  simp only [Function.comp_apply, item?_rename, Option.map_map]
  rfl

theorem filterMap_label_map_rename :
    (entries.map (rename ρ)).filterMap label = (entries.filterMap label).map ρ := by
  rw [List.filterMap_map, List.map_filterMap]
  rfl

/-- Entries make a program under other names as well, unless two labels get the same one. -/
theorem Formed.rename (h : Formed entries origin)
    (apart : Set.InjOn ρ {name | name ∈ (body entries).filterMap label}) :
    Formed (entries.map (Entry.rename ρ)) origin := by
  obtain ⟨⟨name, rest, split, only⟩, distinct, fits⟩ := h
  refine ⟨⟨name.map ρ, rest.map (Entry.rename ρ), ?_, ?_⟩, ?_, ?_⟩
  · rw [body_map_rename, split]
    rfl
  · simpa [isOrigin_rename_iff] using only
  · rw [body_map_rename, filterMap_label_map_rename]
    exact distinct.map_on fun a inside b inside' same => apart inside inside' same
  · rw [body_map_rename, addressed_map_rename, List.forall_mem_map]
    exact fun x inside => fits_rename_iff.mpr (fits x inside)

end Entry

namespace SymbolTable

variable {symbols symbols' : SymbolTable}

/-- Each label of the first table has its address in the second one, under its other name. -/
def Renames (ρ : Label → Label) (symbols symbols' : SymbolTable) : Prop :=
  ∀ name a, symbols.find? name = some a → symbols'.find? (ρ name) = some a

theorem lookup_map_rename {β : Type} {xs : List (Label × β)} {name : Label}
    (apart : ∀ l ∈ xs.map Prod.fst, ρ name = ρ l → name = l) :
    (xs.map fun x => (ρ x.1, x.2)).lookup (ρ name) = xs.lookup name := by
  induction xs with
  | nil => rfl
  | cons x rest ih =>
      obtain ⟨l, v⟩ := x
      obtain ⟨first, apart⟩ := List.forall_mem_cons.mp apart
      have same : (ρ name == ρ l) = (name == l) := by
        by_cases own : name = l
        · simp [own]
        · rw [beq_false_of_ne own, beq_false_of_ne fun same => own (first same)]
      simp only [List.map_cons, List.lookup_cons, same, ih apart]

theorem renames_of_entries (apart : Set.InjOn ρ {name | name ∈ symbols.entries.map Prod.fst})
    (same : symbols'.entries = symbols.entries.map fun e => (ρ e.1, e.2)) :
    symbols.Renames ρ symbols' := by
  intro name a found
  have inside : name ∈ symbols.entries.map Prod.fst := by
    by_contra none
    cases found.symm.trans (find?_eq_none_iff.mpr none)
  rw [find?, same, lookup_map_rename fun l member own => apart inside member own]
  exact found

/-- Tables are told apart by the numbers of their addresses. -/
theorem entries_eq_of_map_toNat {xs ys : List (Label × Word)}
    (same : xs.map (fun e => (e.1, e.2.toNat)) = ys.map fun e => (e.1, e.2.toNat)) : xs = ys :=
  List.map_injective_iff.mpr (fun _ _ own => by simp_all [Prod.ext_iff, BitVec.toNat_inj]) same

end SymbolTable

variable {symbols symbols' : SymbolTable}

theorem Slot.Takes.renames {here : Word} {slot : Slot} {value : OperandValue} {v : Int}
    (h : slot.Takes here symbols value v) (table : symbols.Renames ρ symbols') :
    slot.Takes here symbols' (value.rename ρ) v := by
  have datum {d : Datum} (given : d.value? here symbols = some v) :
      (d.rename ρ).value? here symbols' = some v := by
    cases d with
    | literal n => exact given
    | label name =>
        obtain ⟨a, found, distance⟩ := Option.map_eq_some_iff.mp given
        exact Option.map_eq_some_iff.mpr ⟨a, table name a found, distance⟩
  cases h with
  | register => exact .register
  | value given => exact .value (datum given)
  | callTarget given => exact .callTarget (datum given)

theorem Slot.TakeAll.renames {here : Word} {slots : List Slot} {values : List OperandValue}
    {given : List (FieldName × Int)} (h : TakeAll here symbols slots values given)
    (table : symbols.Renames ρ symbols') :
    TakeAll here symbols' slots (values.map (·.rename ρ)) given := by
  induction h with
  | nil => exact .nil
  | cons first _ ih => exact .cons (first.renames table) ih

/-- The form of an instruction does not depend on the names of labels. -/
theorem Signature.of_renames {operands operands' : List Operand} (m : Mnemonic)
    (same : operands'.map Operand.value = (operands.map Operand.value).map (·.rename ρ)) :
    of operands' m = of operands m := by
  have values : List.Forall₂ (· = ·) ((operands.map Operand.value).map (·.rename ρ))
      (operands'.map Operand.value) := List.forall₂_eq_eq_eq ▸ same.symm
  rw [List.forall₂_map_left_iff, List.forall₂_map_left_iff, List.forall₂_map_right_iff] at values
  have agree : List.Forall₂ (fun x y => OperandValue.Agree 0 0 .empty .empty x.value y.value)
      operands operands' := by
    refine values.imp fun x y own => ?_
    rw [← own]
    match x.value with
    | .register r => exact .register
    | .datum (.literal v) => exact .datum rfl
    | .datum (.label name) => exact .datum rfl
  exact of_of_agree m agree

namespace Statement

variable {s s' : Statement} {ws : List Word}

/-- A statement emits the same words at its address where its labels have theirs, whatever they are
called. -/
theorem Emits.renames (h : s.Emits symbols ws) (table : symbols.Renames ρ symbols')
    (item : s'.content.item = s.content.item.rename ρ) (address : s'.address = s.address) :
    s'.Emits symbols' ws := by
  cases h with
  | @instruction m operands w content encoded =>
      rw [content] at item
      obtain ⟨operands', content', values⟩ := Content.item_eq_instruction_iff.mp item
      obtain ⟨given, taken, encoded⟩ := takeAll_of_instructionWord encoded
      have taken := taken.renames table
      rw [← Signature.of_renames m values] at taken encoded
      rw [← values, ← address] at taken
      exact .instruction content' (instructionWord_of_takeAll taken encoded)
  | literal content within =>
      rw [content] at item
      obtain ⟨span, content'⟩ := Content.item_eq_fill_iff.mp item
      exact .literal content' within
  | label content defined =>
      rw [content] at item
      obtain ⟨span, content'⟩ := Content.item_eq_fill_iff.mp item
      exact .label content' (table _ _ defined)
  | block content =>
      rw [content] at item
      exact .block (Content.item_eq_block_iff.mp item)
  | string content =>
      rw [content] at item
      exact .string (Content.item_eq_string_iff.mp item)

/-- Statements that say the same under other names at the same addresses emit the same words. -/
theorem emits_of_map_rename {statements statements' : List Statement} {wss : List (List Word)}
    (emits : List.Forall₂ (Emits symbols) statements wss) (table : symbols.Renames ρ symbols')
    (same : statements'.map (fun s => (s.address.toNat, s.content.item)) =
      statements.map fun s => (s.address.toNat, s.content.item.rename ρ)) :
    List.Forall₂ (Emits symbols') statements' wss := by
  induction emits generalizing statements' with
  | nil =>
      obtain rfl := List.map_eq_nil_iff.mp same
      exact .nil
  | cons first _ ih =>
      obtain ⟨s', later, rfl, own, others⟩ := List.map_eq_cons_iff.mp same
      obtain ⟨address, item⟩ := Prod.mk.inj own
      exact .cons (first.renames table item (BitVec.eq_of_toNat_eq address)) (ih others)

end Statement

namespace Listing

variable {l l' : Listing} {entries : List Entry} {program : Program}

/-- The listing of the entries under other names has the same words, and its labels are the same
under these names. -/
theorem Holds.program_rename (held : l.Holds entries)
    (held' : l'.Holds (entries.map (Entry.rename ρ))) (origin : l'.origin = l.origin)
    (apart : Set.InjOn ρ {name | name ∈ l.symbols.entries.map Prod.fst})
    (programmed : l.program = .ok program) :
    ∃ renamed, l'.program = .ok renamed ∧ renamed.origin = program.origin ∧
      renamed.words = program.words ∧
        renamed.symbols.entries = program.symbols.entries.map fun e => (ρ e.1, e.2) := by
  obtain ⟨wss, emits, rfl⟩ := program_eq_ok_iff.mp programmed
  have entries : l'.symbols.entries = l.symbols.entries.map fun e => (ρ e.1, e.2) := by
    refine SymbolTable.entries_eq_of_map_toNat ?_
    have labels := held'.symbols
    rw [origin, Entry.body_map_rename, Entry.labels_map_rename, ← held.symbols] at labels
    rw [labels, List.map_map, List.map_map]
    rfl
  have statements : l'.statements.map (fun s => (s.address.toNat, s.content.item)) =
      l.statements.map fun s => (s.address.toNat, s.content.item.rename ρ) := by
    have items := held'.items
    rw [origin, Entry.body_map_rename, Entry.items_map_rename, ← held.items, List.map_map] at items
    exact items
  have table := SymbolTable.renames_of_entries apart entries
  exact ⟨⟨l'.origin, wss.flatten, l'.symbols⟩, program_eq_ok_iff.mpr
    ⟨wss, Statement.emits_of_map_rename emits table statements, rfl⟩, origin, rfl, entries⟩

end Listing
end LC3
