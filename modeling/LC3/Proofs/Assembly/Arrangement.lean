import LC3.Proofs.Assembly.Capitals
import LC3.Proofs.Assembly.Extension

/-!
What a source says apart from its arrangement. Blanks, commas, comments and empty lines say nothing,
nor does the case of a keyword or a number, nor the colon behind a label. A label of a statement may
as well stand on the line before it. Sources with nothing else between them assemble to the same
program. Main statements: `Of.gives_parts`, `exists_of_gives`, `formed_flatMap_parts_iff`,
`assemble_iff_of_arrangement_eq`.
-/

namespace LC3

/-- A label, where there is one, and what stands behind it. -/
structure Part where
  label : Option Label
  rest : List Piece
  deriving DecidableEq, Repr

namespace Row

def dropColon : List Piece → List Piece
  | p :: rest => if p.kind = .colon then rest else p :: rest
  | [] => []

/-- The row starts with a mnemonic or with a directive other than ORIG. -/
def opensStatement : List Piece → Bool
  | p :: _ =>
    decide p.IsName && (Mnemonic.ofName? p.text).isSome ||
      p.kind == .directive && (Directive.ofName? p.text).any (· != .origin)
  | [] => false

/-- The row without its arrangement: the label of a statement stands alone, whatever makes no
difference is in capitals, and the colon behind a label is left out. -/
def parts : List Piece → List Part
  | [] => []
  | p :: rest =>
    if p.IsLabel then
      if opensStatement (dropColon rest) then
        [⟨some p.text, []⟩, ⟨none, (dropColon rest).map Piece.fold⟩]
      else [⟨some p.text, (dropColon rest).map Piece.fold⟩]
    else [⟨none, (p :: rest).map Piece.fold⟩]

end Row

/-- What the lines of a source say up to the END, without their arrangement. -/
def arrangement (source : List Char) : List Part :=
  (Line.upToEnd (Piece.rows (Piece.ofText source))).flatMap Row.parts

namespace Entry

/-- The entry, with the label of a statement on its own. -/
def parts : Entry → List Entry
  | ⟨none, .nothing⟩ => []
  | ⟨some l, .put item⟩ => [⟨some l, .nothing⟩, ⟨none, .put item⟩]
  | ⟨some l, .stop⟩ => [⟨some l, .nothing⟩, ⟨none, .stop⟩]
  | e => [e]

end Entry

/-- The part gives the entry. -/
def Part.Gives (part : Part) (e : Entry) : Prop :=
  e.label = part.label ∧ Entry.Acts Piece.IsDatum part.rest e.act

namespace Entry

variable {p : Piece} {row rest : List Piece} {e : Entry} {act : Act} {xs : List Entry}

theorem Acts.not_isLabel (h : Acts Piece.IsDatum (p :: rest) act) : ¬ p.IsLabel := by
  rintro ⟨name, other, -⟩
  rcases h.head with ⟨m, -, own⟩ | ⟨d, own⟩
  · cases own.symm.trans other
  · exact name.not_isDirective own

theorem Acts.dropColon (h : Acts Piece.IsDatum row act) : Row.dropColon row = row := by
  cases row with
  | nil => rfl
  | cons p rest =>
      refine if_neg fun colon => ?_
      rcases h.head with ⟨m, name | ⟨name, -⟩, -⟩ | ⟨d, own, -⟩
      · cases colon.symm.trans name
      · cases colon.symm.trans name
      · cases colon.symm.trans own

/-- A row with a label gives the label and what stands behind it, or behind its colon. -/
theorem of_cons_of_isLabel (label : p.IsLabel) : e.Of Piece.IsDatum (p :: rest) ↔
    e.label = some p.text ∧ Acts Piece.IsDatum (Row.dropColon rest) e.act := by
  obtain ⟨name, act⟩ := e
  constructor
  · rintro ⟨front, back, split, labels, acts⟩
    cases labels with
    | none =>
        obtain rfl : p :: rest = back := split
        exact absurd label acts.not_isLabel
    | bare =>
        obtain ⟨rfl, rfl⟩ := List.cons.inj split
        exact ⟨rfl, acts.dropColon.symm ▸ acts⟩
    | @colon _ q own mark =>
        obtain ⟨rfl, later⟩ := List.cons.inj split
        obtain rfl : rest = q :: back := later
        have bare : Row.dropColon (q :: back) = back := if_pos mark
        exact ⟨rfl, bare.symm ▸ acts⟩
  · rintro ⟨rfl, acts⟩
    cases rest with
    | nil => exact ⟨[p], [], rfl, .bare label, acts⟩
    | cons q rest =>
        rw [Row.dropColon] at acts
        split at acts
        · next mark => exact ⟨[p, q], rest, rfl, .colon label mark, acts⟩
        · exact ⟨[p], q :: rest, rfl, .bare label, acts⟩

theorem of_cons_of_not_isLabel (other : ¬ p.IsLabel) : e.Of Piece.IsDatum (p :: rest) ↔
    e.label = none ∧ Acts Piece.IsDatum (p :: rest) e.act := by
  obtain ⟨name, act⟩ := e
  constructor
  · rintro ⟨front, back, split, labels, acts⟩
    cases labels with
    | none =>
        obtain rfl : p :: rest = back := split
        exact ⟨rfl, acts⟩
    | bare own | colon own mark =>
        obtain ⟨rfl, -⟩ := List.cons.inj split
        exact absurd own other
  · rintro ⟨rfl, acts⟩
    exact ⟨[], p :: rest, rfl, .none, acts⟩

/-- A row starts with a mnemonic or a directive other than ORIG where it puts a statement in place
or ends the program. -/
theorem Acts.opensStatement_iff (h : Acts Piece.IsDatum row act) :
    Row.opensStatement row = true ↔ act = .stop ∨ ∃ item, act = .put item := by
  have directive {p : Piece} {d : Directive} {rest : List Piece} (own : p.IsDirective d) :
      Row.opensStatement (p :: rest) = (d != .origin) := by
    simp [Row.opensStatement, Piece.IsName, own.1, own.2]
  cases h with
  | nothing => simp [Row.opensStatement]
  | instruction head => simp [Row.opensStatement, head.1, head.2]
  | origin head | stop head | fill head | block head | string head => simp [directive head]

theorem forall_values_parts_iff : (∀ x ∈ e.parts, ∀ v ∈ x.act.values, v.Definable) ↔
    ∀ v ∈ e.act.values, v.Definable := by
  obtain ⟨label, act⟩ := e
  cases label <;> cases act <;> simp [parts, Act.values]

/-- The parts of a row give the parts of its entry. -/
theorem Of.gives_parts (h : e.Of Piece.IsDatum row) (definable : ∀ v ∈ e.act.values, v.Definable) :
    List.Forall₂ Part.Gives (Row.parts row) e.parts := by
  cases row with
  | nil =>
      obtain rfl := of_nil_iff.mp h
      exact .nil
  | cons p rest =>
      obtain ⟨name, act⟩ := e
      rw [Row.parts]
      split
      · next label =>
        obtain ⟨rfl, acts⟩ := (of_cons_of_isLabel label).mp h
        have folded := (acts_fold_iff definable).mpr acts
        split
        · next opens =>
          obtain rfl | ⟨item, rfl⟩ := acts.opensStatement_iff.mp opens
          · exact .cons ⟨rfl, .nothing⟩ (.cons ⟨rfl, folded⟩ .nil)
          · exact .cons ⟨rfl, .nothing⟩ (.cons ⟨rfl, folded⟩ .nil)
        · next other =>
          have plain := mt acts.opensStatement_iff.mpr other
          cases act with
          | nothing | origin => exact .cons ⟨rfl, folded⟩ .nil
          | stop | put => simp at plain
      · next other =>
        obtain ⟨rfl, acts⟩ := (of_cons_of_not_isLabel other).mp h
        have folded := (acts_fold_iff definable).mpr acts
        cases act with
        | nothing => cases acts
        | origin | stop | put => exact .cons ⟨rfl, folded⟩ .nil

/-- A part alone gives one entry, with its label, that acts as what stands behind it. -/
theorem exists_of_gives_fold {name : Option Label}
    (h : List.Forall₂ Part.Gives [⟨name, row.map Piece.fold⟩] xs)
    (definable : ∀ x ∈ xs, ∀ v ∈ x.act.values, v.Definable) :
    ∃ act, xs = [⟨name, act⟩] ∧ Acts Piece.IsDatum row act := by
  obtain ⟨⟨l, act⟩, _, ⟨named, folded⟩, ⟨⟩, rfl⟩ := List.forall₂_cons_left_iff.mp h
  cases named
  exact ⟨act, rfl, (acts_fold_iff (definable _ List.mem_cons_self)).mp folded⟩

/-- What the parts of a row give are the parts of an entry that the row gives. -/
theorem exists_of_gives (h : List.Forall₂ Part.Gives (Row.parts row) xs)
    (definable : ∀ x ∈ xs, ∀ v ∈ x.act.values, v.Definable) :
    ∃ e : Entry, e.Of Piece.IsDatum row ∧ e.parts = xs := by
  cases row with
  | nil =>
      cases h
      exact ⟨blank, of_nil_iff.mpr rfl, rfl⟩
  | cons p rest =>
      rw [Row.parts] at h
      split at h
      · next label =>
        split at h
        · next opens =>
          obtain ⟨⟨l, alone⟩, _, ⟨named, empty⟩, later, rfl⟩ := List.forall₂_cons_left_iff.mp h
          cases named
          cases empty
          obtain ⟨act, rfl, acts⟩ :=
            exists_of_gives_fold later fun x member => definable x (List.mem_cons_of_mem _ member)
          refine ⟨⟨some p.text, act⟩, (of_cons_of_isLabel label).mpr ⟨rfl, acts⟩, ?_⟩
          obtain rfl | ⟨item, rfl⟩ := acts.opensStatement_iff.mp opens <;> rfl
        · next other =>
          obtain ⟨act, rfl, acts⟩ := exists_of_gives_fold h definable
          refine ⟨⟨some p.text, act⟩, (of_cons_of_isLabel label).mpr ⟨rfl, acts⟩, ?_⟩
          have plain := mt acts.opensStatement_iff.mpr other
          cases act with
          | nothing | origin => rfl
          | stop | put => simp at plain
      · next other =>
        obtain ⟨act, rfl, acts⟩ := exists_of_gives_fold h definable
        refine ⟨⟨none, act⟩, (of_cons_of_not_isLabel other).mpr ⟨rfl, acts⟩, ?_⟩
        cases act with
        | nothing => cases acts
        | origin | stop | put => rfl

/-- The parts of rows give the parts of their entries. -/
theorem gives_flatMap {rows : List (List Piece)} {es : List Entry}
    (h : List.Forall₂ (fun row e => e.Of Piece.IsDatum row) rows es)
    (definable : ∀ e ∈ es, ∀ v ∈ e.act.values, v.Definable) :
    List.Forall₂ Part.Gives (rows.flatMap Row.parts) (es.flatMap parts) := by
  induction h with
  | nil => exact .nil
  | cons own _ ih =>
      obtain ⟨first, definable⟩ := List.forall_mem_cons.mp definable
      exact List.rel_append (own.gives_parts first) (ih definable)

theorem exists_of_gives_flatMap {rows : List (List Piece)}
    (h : List.Forall₂ Part.Gives (rows.flatMap Row.parts) xs)
    (definable : ∀ x ∈ xs, ∀ v ∈ x.act.values, v.Definable) :
    ∃ es, List.Forall₂ (fun row e => e.Of Piece.IsDatum row) rows es ∧ es.flatMap parts = xs := by
  induction rows generalizing xs with
  | nil =>
      cases h
      exact ⟨[], .nil, rfl⟩
  | cons row rows ih =>
      rw [List.flatMap_cons] at h
      have split := xs.take_append_drop (Row.parts row).length
      have first := List.forall₂_take_append _ _ _ h.flip
      have later := List.forall₂_drop_append _ _ _ h.flip
      rw [← split] at definable
      obtain ⟨own, others⟩ := List.forall_mem_append.mp definable
      obtain ⟨e, given, parts⟩ := exists_of_gives first.flip own
      obtain ⟨es, told, rest⟩ := ih later.flip others
      exact ⟨e :: es, .cons given told, by rw [List.flatMap_cons, parts, rest, split]⟩

/-- What does not depend on blank entries does not depend on those before the program. -/
theorem apply_body {α : Type} {f : List Entry → α} (skips : ∀ es, f (blank :: es) = f es)
    (es : List Entry) : f (body es) = f es := by
  induction es with
  | nil => rfl
  | cons e es ih =>
      by_cases empty : e = blank
      · subst empty
        rw [skips, ← ih, body, List.dropWhile_cons_of_pos (by simp)]
        rfl
      · rw [body, List.dropWhile_cons_of_neg (by simpa using empty)]

variable {es : List Entry} {here : Nat} {origin : Word}

theorem labels_body : labels here (body es) = labels here es :=
  apply_body (f := labels here) (fun _ => rfl) es

theorem items_body : items here (body es) = items here es :=
  apply_body (f := items here) (fun _ => rfl) es

theorem filterMap_label_body : (body es).filterMap label = es.filterMap label :=
  apply_body (f := List.filterMap label) (fun _ => rfl) es

theorem flatMap_parts_body : (body es).flatMap parts = es.flatMap parts :=
  apply_body (f := List.flatMap parts) (fun _ => rfl) es

theorem fits_body : (∀ x ∈ addressed here (body es), x.2.Fits x.1) ↔
    ∀ x ∈ addressed here es, x.2.Fits x.1 := by
  have skips (es : List Entry) : (∀ x ∈ addressed here (blank :: es), x.2.Fits x.1) =
      ∀ x ∈ addressed here es, x.2.Fits x.1 := by
    simp [addressed, Fits, blank, size]
  exact (apply_body (f := fun es => ∀ x ∈ addressed here es, x.2.Fits x.1) skips es).to_iff

theorem total_parts (e : Entry) : total e.parts = e.size := by
  obtain ⟨label, act⟩ := e
  cases label <;> cases act <;> simp [parts, size]

theorem labels_parts (here : Nat) (e : Entry) : labels here e.parts = labels here [e] := by
  obtain ⟨label, act⟩ := e
  cases label <;> cases act <;> rfl

theorem items_parts (here : Nat) (e : Entry) : items here e.parts = items here [e] := by
  obtain ⟨label, act⟩ := e
  cases label <;> cases act <;> rfl

theorem fits_parts_iff : (∀ x ∈ addressed here e.parts, x.2.Fits x.1) ↔ e.Fits here := by
  obtain ⟨label, act⟩ := e
  cases label <;> cases act <;> simp [parts, addressed, Fits, size]

theorem isOrigin_parts_iff : (∀ x ∈ e.parts, ¬ x.IsOrigin) ↔ ¬ e.IsOrigin := by
  obtain ⟨label, act⟩ := e
  cases label <;> cases act <;> simp [parts, IsOrigin]

theorem parts_eq_origin_iff {name : Option Label} {xs : List Entry} :
    e.parts = ⟨name, .origin origin⟩ :: xs ↔ e = ⟨name, .origin origin⟩ ∧ xs = [] := by
  obtain ⟨label, act⟩ := e
  cases label <;> cases act <;> simp [parts]

theorem exists_parts_cons (other : e ≠ blank) : ∃ x xs, e.parts = x :: xs ∧ x ≠ blank := by
  obtain ⟨label, act⟩ := e
  cases label <;> cases act <;> simp_all [parts, blank]

/-- What is read off entries one behind the other is read off their parts as well. -/
theorem apply_flatMap_parts {α : Type} {f : Nat → List Entry → List α}
    (append : ∀ here xs ys, f here (xs ++ ys) = f here xs ++ f (here + total xs) ys)
    (own : ∀ here e, f here (parts e) = f here [e]) (here : Nat) (es : List Entry) :
    f here (es.flatMap parts) = f here es := by
  induction es generalizing here with
  | nil => rfl
  | cons e es ih =>
      calc f here ((e :: es).flatMap parts) = f here e.parts ++ f (here + total e.parts) es := by
            rw [List.flatMap_cons, append, ih]
        _ = f here [e] ++ f (here + total [e]) es := by
            rw [own, total_parts, total_cons, total_nil, Nat.add_zero]
        _ = f here (e :: es) := (append here [e] es).symm

theorem labels_flatMap_parts : labels here (es.flatMap parts) = labels here es :=
  apply_flatMap_parts (f := labels) (fun _ _ _ => labels_append) labels_parts here es

theorem items_flatMap_parts : items here (es.flatMap parts) = items here es :=
  apply_flatMap_parts (f := items) (fun _ _ _ => items_append) items_parts here es

theorem fits_flatMap_parts : (∀ x ∈ addressed here (es.flatMap parts), x.2.Fits x.1) ↔
    ∀ x ∈ addressed here es, x.2.Fits x.1 := by
  induction es generalizing here with
  | nil => exact .rfl
  | cons e es ih =>
      rw [List.flatMap_cons, addressed_append, List.forall_mem_append, fits_parts_iff, total_parts,
        ih, addressed, List.forall_mem_cons]

/-- The parts of entries open with an origin where the entries do, and have no other there either. -/
theorem opened_flatMap_parts_iff :
    (∃ name rest, body (es.flatMap parts) = ⟨name, .origin origin⟩ :: rest ∧
      ∀ e ∈ rest, ¬ e.IsOrigin) ↔
    ∃ name rest, body es = ⟨name, .origin origin⟩ :: rest ∧ ∀ e ∈ rest, ¬ e.IsOrigin := by
  rw [← flatMap_parts_body]
  cases split : body es with
  | nil => simp [body]
  | cons e rest =>
      have other : e ≠ blank := by
        have stop := List.head?_dropWhile_not (· = blank) es
        rw [← body, split] at stop
        simpa using stop
      obtain ⟨x, xs, own, some⟩ := exists_parts_cons other
      have whole : body ((e :: rest).flatMap parts) = x :: (xs ++ rest.flatMap parts) := by
        rw [List.flatMap_cons, own, List.cons_append, body,
          List.dropWhile_cons_of_neg (by simpa using some)]
      rw [whole]
      constructor
      · rintro ⟨name, tail, same, only⟩
        obtain ⟨rfl, rfl⟩ := List.cons.inj same
        obtain ⟨rfl, rfl⟩ := parts_eq_origin_iff.mp own
        refine ⟨name, rest, rfl, fun r member => isOrigin_parts_iff.mp fun y inside => ?_⟩
        exact only y (List.mem_flatMap.mpr ⟨r, member, inside⟩)
      · rintro ⟨name, tail, same, only⟩
        obtain ⟨rfl, rfl⟩ := List.cons.inj same
        obtain ⟨rfl, rfl⟩ := List.cons.inj (own.symm.trans (parts_eq_origin_iff.mpr ⟨rfl, rfl⟩))
        refine ⟨name, _, rfl, fun y member => ?_⟩
        obtain ⟨r, inside, part⟩ := List.mem_flatMap.mp member
        exact isOrigin_parts_iff.mpr (only r inside) y part

/-- Entries make a program where their parts do. -/
theorem formed_flatMap_parts_iff : Formed (es.flatMap parts) origin ↔ Formed es origin := by
  have labels : (es.flatMap parts).filterMap label = es.filterMap label := by
    have own (es : List Entry) : (Entry.labels 0 es).map Prod.fst = es.filterMap label :=
      map_fst_labels
    rw [← own, labels_flatMap_parts, own]
  constructor
  · rintro ⟨first, distinct, fits⟩
    rw [filterMap_label_body, labels, ← filterMap_label_body] at distinct
    rw [fits_body, fits_flatMap_parts, ← fits_body] at fits
    exact ⟨opened_flatMap_parts_iff.mp first, distinct, fits⟩
  · rintro ⟨first, distinct, fits⟩
    refine ⟨opened_flatMap_parts_iff.mpr first, ?_, ?_⟩
    · rwa [filterMap_label_body, labels, ← filterMap_label_body]
    · rwa [fits_body, fits_flatMap_parts, ← fits_body]

theorem Of.isLabel {name : Label} (h : e.Of Piece.IsDatum row) (named : e.label = some name) :
    ∃ p : Piece, p.IsLabel ∧ p.text = name := by
  obtain ⟨front, back, -, labels, -⟩ := h
  rw [named] at labels
  cases labels with
  | bare own | colon own => exact ⟨_, own, rfl⟩

theorem exists_mem_items {item : Item} (member : e ∈ es) (put : e.act = .put item) :
    ∃ a, (a, item) ∈ items here es := by
  induction es generalizing here with
  | nil => cases member
  | cons f es ih =>
      have whole : items here ([f] ++ es) = _ := items_append
      rcases List.mem_cons.mp member with rfl | later
      · have own : e.item? = some item := by rw [item?, put]
        exact ⟨here, whole ▸ List.mem_append_left _ (by simp [items_singleton, own])⟩
      · obtain ⟨a, inside⟩ := @ih (here + total [f]) later
        exact ⟨a, whole ▸ List.mem_append_right _ inside⟩

end Entry

theorem Slot.TakeAll.exists_find? {here : Word} {symbols : SymbolTable} {slots : List Slot}
    {values : List OperandValue} {given : List (FieldName × Int)} {name : Label}
    (h : TakeAll here symbols slots values given) (used : .datum (.label name) ∈ values) :
    ∃ a, symbols.find? name = some a := by
  induction h with
  | nil => cases used
  | cons first _ ih =>
      rcases List.mem_cons.mp used with rfl | later
      · cases first with
        | value distance | callTarget distance =>
            obtain ⟨a, found, -⟩ := Option.map_eq_some_iff.mp distance
            exact ⟨a, found⟩
      · exact ih later

namespace Statement

variable {s : Statement} {symbols : SymbolTable} {ws : List Word} {name : Label}

/-- The labels in the operands of a statement with words have addresses. -/
theorem Emits.exists_find? (h : s.Emits symbols ws)
    (used : .datum (.label name) ∈ (Act.put s.content.item).values) :
    ∃ a, symbols.find? name = some a := by
  cases h with
  | instruction content encoded =>
      rw [content] at used
      obtain ⟨given, taken, -⟩ := takeAll_of_instructionWord encoded
      exact taken.exists_find? used
  | literal content => simp [content, Content.item, Act.values] at used
  | label content defined =>
      rw [content] at used
      cases List.mem_singleton.mp used
      exact ⟨_, defined⟩
  | block content => simp [content, Content.item, Act.values] at used
  | string content => simp [content, Content.item, Act.values] at used

/-- Statements that say the same at the same addresses emit the same words. -/
theorem emits_of_map_eq {statements statements' : List Statement} {wss : List (List Word)}
    (emits : List.Forall₂ (Emits symbols) statements wss)
    (same : statements.map (fun s => (s.address.toNat, s.content.item)) =
      statements'.map fun s => (s.address.toNat, s.content.item)) :
    List.Forall₂ (Emits symbols) statements' wss := by
  have table : symbols.Renames id symbols := fun _ _ found => found
  refine emits_of_map_rename emits table (same.symm.trans ?_)
  simp only [Item.rename_id]

end Statement

theorem SymbolTable.eq_of_entries {symbols symbols' : SymbolTable}
    (h : symbols.entries.map (fun e => (e.1, e.2.toNat)) =
      symbols'.entries.map fun e => (e.1, e.2.toNat)) : symbols = symbols' := by
  have same := entries_eq_of_map_toNat h
  obtain ⟨entries, distinct⟩ := symbols
  cases same
  rfl

namespace Listing

variable {source : List Char} {l l' : Listing} {program : Program} {entries others : List Entry}

/-- The labels that a program names in its operands have addresses. -/
theorem Holds.exists_find? (held : l.Holds entries) (programmed : l.program = .ok program)
    {e : Entry} (member : e ∈ entries) {name : Label}
    (used : .datum (.label name) ∈ e.act.values) : ∃ a, l.symbols.find? name = some a := by
  obtain ⟨wss, emits, -⟩ := program_eq_ok_iff.mp programmed
  obtain ⟨label, act⟩ := e
  cases act with
  | nothing | origin | stop => cases used
  | put item =>
      obtain ⟨a, inside⟩ : ∃ a, (a, item) ∈ Entry.items l.origin.toNat entries :=
        Entry.exists_mem_items member rfl
      rw [← Entry.items_body, ← held.items] at inside
      obtain ⟨s, statement, place⟩ := List.mem_map.mp inside
      obtain ⟨-, rfl⟩ := Prod.mk.inj place
      obtain ⟨ws, -, own⟩ := Stage.exists_of_forall₂_left emits statement
      exact own.exists_find? used

theorem Holds.map_fst_entries (held : l.Holds entries) :
    l.symbols.entries.map Prod.fst = entries.filterMap Entry.label := by
  have labels := congrArg (List.map Prod.fst) held.symbols
  rw [List.map_map, Entry.map_fst_labels, Entry.filterMap_label_body] at labels
  exact labels

/-- What a program is made of names no mnemonic as a label. -/
theorem Holds.definable (held : l.Holds entries) (programmed : l.program = .ok program)
    (told : Entry.Told Piece.IsDatum source entries) :
    ∀ e ∈ entries, ∀ v ∈ e.act.values, v.Definable := by
  intro e member v used name own
  subst own
  obtain ⟨a, found⟩ := held.exists_find? programmed member used
  have known : name ∈ l.symbols.entries.map Prod.fst := by
    by_contra unknown
    cases found.symm.trans (SymbolTable.find?_eq_none_iff.mpr unknown)
  rw [held.map_fst_entries] at known
  obtain ⟨f, source, named⟩ := List.mem_filterMap.mp known
  obtain ⟨row, -, own⟩ := Stage.exists_of_forall₂_left told.flip source
  have own : f.Of Piece.IsDatum row := own
  obtain ⟨p, ⟨-, other, -⟩, rfl⟩ := own.isLabel named
  exact other

/-- Listings of entries with the same parts have the same program. -/
theorem Holds.program_eq_ok (held : l.Holds entries) (held' : l'.Holds others)
    (same : others.flatMap Entry.parts = entries.flatMap Entry.parts)
    (origin : l'.origin = l.origin) (programmed : l.program = .ok program) :
    l'.program = .ok program := by
  obtain ⟨wss, emits, rfl⟩ := program_eq_ok_iff.mp programmed
  have symbols : l'.symbols = l.symbols := by
    refine SymbolTable.eq_of_entries ?_
    rw [held.symbols, held'.symbols, origin, Entry.labels_body, Entry.labels_body,
      ← Entry.labels_flatMap_parts, same, Entry.labels_flatMap_parts]
  have statements : l.statements.map (fun s => (s.address.toNat, s.content.item)) =
      l'.statements.map fun s => (s.address.toNat, s.content.item) := by
    rw [held.items, held'.items, origin, Entry.items_body, Entry.items_body,
      ← Entry.items_flatMap_parts, ← same, Entry.items_flatMap_parts]
  refine program_eq_ok_iff.mpr ⟨wss, ?_, by rw [origin, symbols]⟩
  rw [symbols]
  exact Statement.emits_of_map_eq emits statements

end Listing

variable {source other : List Char} {program : Program}

theorem assemble_of_arrangement_eq (same : arrangement source = arrangement other)
    (assembled : assemble source = .ok program) : assemble other = .ok program := by
  obtain ⟨l, listed, programmed⟩ := assemble_eq_ok_iff.mp assembled
  obtain ⟨entries, told, formed, held⟩ := holds_of_ofText listed
  have definable := held.definable programmed told
  have gives : List.Forall₂ Part.Gives (arrangement other) (entries.flatMap Entry.parts) :=
    same ▸ Entry.gives_flatMap told definable
  obtain ⟨others, told', parts⟩ := Entry.exists_of_gives_flatMap gives fun x member => by
    obtain ⟨e, inside, part⟩ := List.mem_flatMap.mp member
    exact Entry.forall_values_parts_iff.mpr (definable e inside) x part
  have formed' : Entry.Formed others l.origin := by
    rwa [← Entry.formed_flatMap_parts_iff, parts, Entry.formed_flatMap_parts_iff]
  obtain ⟨l', listed', origin, held'⟩ := exists_listing_of_formed told' formed'
  exact assemble_eq_ok_iff.mpr ⟨l', listed', held.program_eq_ok held' parts origin programmed⟩

/-- Sources that differ in their arrangement alone assemble to the same program or not at all. -/
theorem assemble_iff_of_arrangement_eq (same : arrangement source = arrangement other)
    (program : Program) : assemble source = .ok program ↔ assemble other = .ok program :=
  ⟨assemble_of_arrangement_eq same, assemble_of_arrangement_eq same.symm⟩

/-- Labels with colons, on the lines of their statements, and small letters. -/
def tightSource : List Char :=
  ".orig x3000\nxloop: add r0,r0,#-1\nEnd: .fill 0X1f\nbrp xloop\n.end".toList

/-- Labels without colons, on lines of their own, and capitals. -/
def looseSource : List Char :=
  "; x\n.ORIG X3000\nxloop\n\n ADD  R0 R0 #-1\nEnd\n.FILL 0x1F\nBRP\txloop\n.END\n?".toList

def loopProgram : Program where
  origin := 0x3000
  words := [0x103F, 0x001F, 0x03FD]
  symbols := ⟨[("xloop".toList, 0x3000), ("End".toList, 0x3001)], by decide⟩

theorem assemble_looseSource : arrangement tightSource = arrangement looseSource ∧
    assemble tightSource = .ok loopProgram ∧ assemble looseSource = .ok loopProgram := by
  have same : arrangement tightSource = arrangement looseSource := by decide +kernel
  have assembled : assemble tightSource = .ok loopProgram := rfl
  exact ⟨same, assembled, (assemble_iff_of_arrangement_eq same loopProgram).mp assembled⟩

end LC3
