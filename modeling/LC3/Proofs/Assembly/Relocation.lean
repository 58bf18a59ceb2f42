import LC3.Proofs.Assembly.Agreement
import LC3.Proofs.Assembly.Rebasing
import LC3.Proofs.Assembly.SecondPass

/-!
Programs at another origin. Where entries differ in nothing but the origin, all addresses move by the
same distance, so labels are as far from instructions as before, and of the words only those that are
addresses of labels move. Main statement: `moved_of_assemble`.
-/

namespace LC3

/-- The second of two addresses is as far from origin `b` as the first is from `a`. -/
def Word.Moves (a b x y : Word) : Prop := (y.toNat : Int) - x.toNat = (b.toNat : Int) - a.toNat

namespace Entry

variable {e e' : Entry} {n : Nat} {entries others rest : List Entry} {a b : Word}
  {label : Option Label} {here there : Nat}

theorem end_le_of_mem_addressed {x : Nat × Entry} (member : x ∈ addressed here entries) :
    x.1 + x.2.size ≤ here + total entries := by
  induction entries generalizing here with
  | nil => cases member
  | cons e rest ih =>
      rw [total_cons]
      rcases List.mem_cons.mp member with rfl | later
      · dsimp only
        omega
      · have := ih later
        omega

theorem fits_of_end_le (inside : here + e.size ≤ 0xFFFF) : e.Fits here := by
  refine ⟨fun _ => by omega, fun item put => ?_⟩
  have size : e.size = item.size := by rw [Entry.size, put]
  omega

/-- A program goes to another origin where it ends within memory there. -/
theorem Formed.moved (h : Formed (opened n label rest a) a)
    (room : b.toNat + total rest ≤ 0xFFFF) : Formed (opened n label rest b) b := by
  obtain ⟨⟨label', rest', split, only⟩, distinct, -⟩ := h
  rw [body_opened] at split distinct
  cases split
  refine ⟨⟨label, rest, body_opened .., only⟩, ?_, fun x member => fits_of_end_le ?_⟩
  · rw [body_opened]
    simpa only [List.filterMap_cons] using distinct
  · rw [body_opened] at member
    have none : (⟨label, .origin b⟩ : Entry).size = 0 := rfl
    have bound := end_le_of_mem_addressed member
    rw [total_cons, none] at bound
    omega

/-- The same label and the same statement. -/
def Like (e e' : Entry) : Prop := e'.label = e.label ∧ e'.item? = e.item?

theorem forall₂_like_opened (n : Nat) (label : Option Label) (rest : List Entry) (a b : Word) :
    List.Forall₂ Like (body (opened n label rest a)) (body (opened n label rest b)) := by
  rw [body_opened, body_opened]
  exact .cons ⟨rfl, rfl⟩ (List.forall₂_same.mpr fun e _ => ⟨rfl, rfl⟩)

theorem size_eq_item? (e : Entry) : e.size = (e.item?.map Item.size).getD 0 := by
  obtain ⟨label, act⟩ := e
  cases act <;> rfl

theorem Like.size (h : e.Like e') : e'.size = e.size := by
  rw [size_eq_item?, size_eq_item?, h.2]

/-- The same entries have addresses that are as far from one origin as from another. -/
theorem forall₂_addressed (same : List.Forall₂ Like entries others) :
    List.Forall₂ (fun x y => y.1 + here = x.1 + there ∧ x.2.Like y.2)
      (addressed here entries) (addressed there others) := by
  induction same generalizing here there with
  | nil => exact .nil
  | cons first _ ih =>
      refine .cons ⟨Nat.add_comm .., first⟩ ?_
      rw [first.size]
      refine ih.imp fun x y moved => ⟨?_, moved.2⟩
      have := moved.1
      omega

/-- What entries alike give at their addresses is related as the addresses are. -/
theorem forall₂_filterMap_addressed {β γ : Type} {f : Entry → Option β} (pair : β → Nat → γ)
    {R : γ → γ → Prop} (keeps : ∀ {e e'}, Like e e' → f e' = f e)
    (related : ∀ v {x y}, y + here = x + there → R (pair v x) (pair v y))
    (same : List.Forall₂ Like entries others) :
    List.Forall₂ R ((addressed here entries).filterMap fun x => (f x.2).map (pair · x.1))
      ((addressed there others).filterMap fun x => (f x.2).map (pair · x.1)) := by
  refine List.rel_filterMap ?_ (forall₂_addressed same)
  rintro x y ⟨moved, like⟩
  dsimp only
  rw [keeps like]
  cases f x.2 with
  | none => exact .none
  | some v => exact .some (related v moved)

theorem forall₂_labels (here there : Nat) (same : List.Forall₂ Like entries others) :
    List.Forall₂ (fun x y => y.1 = x.1 ∧ y.2 + here = x.2 + there)
      (labels here entries) (labels there others) :=
  forall₂_filterMap_addressed (fun l a => (l, a)) (·.1) (fun _ _ _ moved => ⟨rfl, moved⟩) same

theorem forall₂_items (here there : Nat) (same : List.Forall₂ Like entries others) :
    List.Forall₂ (fun x y => y.2 = x.2 ∧ y.1 + here = x.1 + there)
      (items here entries) (items there others) :=
  forall₂_filterMap_addressed (fun i a => (a, i)) (·.2) (fun _ _ _ moved => ⟨rfl, moved⟩) same

theorem sum_items (here : Nat) (entries : List Entry) :
    ((items here entries).map fun x => x.2.size).sum = total entries := by
  induction entries generalizing here with
  | nil => rfl
  | cons e rest ih =>
      rw [← List.singleton_append, items_append, items_singleton, List.map_append, List.sum_append,
        ih, total_append, total_cons, total_nil, size_eq_item?]
      cases e.item? <;> rfl

end Entry

/-- The same labels, with addresses that move along with the origin. -/
def SymbolTable.Moves (a b : Word) (symbols symbols' : SymbolTable) : Prop :=
  List.Forall₂ (fun x y => y.1 = x.1 ∧ Word.Moves a b x.2 y.2) symbols.entries symbols'.entries

/-- The same statement, with an address that moves along with the origin. -/
def Statement.Moves (a b : Word) (s s' : Statement) : Prop :=
  s'.content.item = s.content.item ∧ Word.Moves a b s.address s'.address

variable {a b : Word} {symbols symbols' : SymbolTable}

namespace Listing

variable {l l' : Listing} {entries others : List Entry}

theorem Holds.moves (h : l.Holds entries) (h' : l'.Holds others)
    (same : List.Forall₂ Entry.Like (Entry.body entries) (Entry.body others)) :
    l.symbols.Moves l.origin l'.origin l'.symbols ∧
      List.Forall₂ (Statement.Moves l.origin l'.origin) l.statements l'.statements := by
  have shift {x y a b : Word} (moved : y.toNat + a.toNat = x.toNat + b.toNat) :
      Word.Moves a b x y := by
    rw [Word.Moves]
    omega
  constructor
  · have labels := Entry.forall₂_labels l.origin.toNat l'.origin.toNat same
    rw [← h.symbols, ← h'.symbols, List.forall₂_map_left_iff, List.forall₂_map_right_iff] at labels
    exact labels.imp fun x y moved => ⟨moved.1, shift moved.2⟩
  · have items := Entry.forall₂_items l.origin.toNat l'.origin.toNat same
    rw [← h.items, ← h'.items, List.forall₂_map_left_iff, List.forall₂_map_right_iff] at items
    exact items.imp fun s s' moved => ⟨moved.1, shift moved.2⟩

theorem Holds.total (h : l.Holds entries) :
    Statement.total l.statements = Entry.total (Entry.body entries) := by
  rw [← Entry.sum_items l.origin.toNat, ← h.items, List.map_map, Statement.total]
  exact congrArg List.sum (List.map_congr_left fun s _ => (Content.size_item s.content).symm)

end Listing

theorem lookup_of_forall₂ {α β γ : Type} [BEq α] {R : β → γ → Prop} {xs : List (α × β)}
    {ys : List (α × γ)} (same : List.Forall₂ (fun x y => y.1 = x.1 ∧ R x.2 y.2) xs ys) (name : α) :
    Option.Rel R (xs.lookup name) (ys.lookup name) := by
  induction same with
  | nil => exact .none
  | @cons x y _ _ first _ ih =>
      obtain ⟨l, v⟩ := x
      obtain ⟨l', v'⟩ := y
      obtain ⟨rfl, related⟩ := first
      rw [List.lookup_cons, List.lookup_cons]
      cases name == l' with
      | true => exact .some related
      | false => exact ih

theorem SymbolTable.Moves.find? (h : symbols.Moves a b symbols') (name : Label) :
    Option.Rel (Word.Moves a b) (symbols.find? name) (symbols'.find? name) :=
  lookup_of_forall₂ h name

/-- A label is as far from an instruction as before. -/
theorem Datum.value?_of_moves {here here' : Word} (h : symbols.Moves a b symbols')
    (moved : Word.Moves a b here here') (d : Datum) :
    d.value? here' symbols' = d.value? here symbols := by
  cases d with
  | literal v => rfl
  | label name =>
      have target := h.find? name
      rw [value?, value?]
      generalize symbols.find? name = found at target
      generalize symbols'.find? name = found' at target
      cases target with
      | none => rfl
      | some target =>
          rw [Word.Moves] at target moved
          simp only [Option.map_some, Option.some.injEq]
          omega

theorem OperandValue.agree_of_moves {here here' : Word} (h : symbols.Moves a b symbols')
    (moved : Word.Moves a b here here') (v : OperandValue) : Agree here here' symbols symbols' v v := by
  cases v with
  | register => exact .register
  | datum d => exact .datum (d.value?_of_moves h moved)

namespace Content

variable {c : Content}

theorem item_eq_instruction_iff {m : Mnemonic} {values : List OperandValue} :
    c.item = .instruction m values ↔
      ∃ operands, c = .instruction m operands ∧ operands.map Operand.value = values := by
  cases c <;> simp [item, eq_comm]

theorem item_eq_fill_iff {d : Datum} : c.item = .fill d ↔ ∃ span, c = .fill d span := by
  cases c <;> simp [item]

theorem item_eq_block_iff {count : Word} : c.item = .block count ↔ c = .block count := by
  cases c <;> simp [item]

theorem item_eq_string_iff {characters : List Word} :
    c.item = .string characters ↔ c = .string characters := by
  cases c <;> simp [item]

end Content

namespace Statement

variable {s s' : Statement} {ws : List Word}

/-- The word of the statement is the address of a label. -/
def FillsLabel (s : Statement) : Prop := ∃ name span, s.content = .fill (.label name) span

/-- A statement that moves emits the same words, but for the address of a label, which moves. -/
theorem Emits.moves (h : s.Emits symbols ws) (table : symbols.Moves a b symbols')
    (moved : s.Moves a b s') :
    ∃ ws', s'.Emits symbols' ws' ∧ (¬ s.FillsLabel ∧ ws' = ws ∨
      s.FillsLabel ∧ ∃ w w', ws = [w] ∧ ws' = [w'] ∧ Word.Moves a b w w') := by
  obtain ⟨item, address⟩ := moved
  cases h with
  | @instruction m operands w content encoded =>
      rw [content] at item
      obtain ⟨operands', content', values⟩ := Content.item_eq_instruction_iff.mp item
      have agree : List.Forall₂ (fun x y =>
          OperandValue.Agree s.address s'.address symbols symbols' x.value y.value)
          operands operands' := by
        have same : List.Forall₂ (· = ·) (operands.map Operand.value)
          (operands'.map Operand.value) := List.forall₂_eq_eq_eq ▸ values.symm
        rw [List.forall₂_map_left_iff, List.forall₂_map_right_iff] at same
        exact same.imp fun x y same => same ▸ x.value.agree_of_moves table address
      exact ⟨_, .instruction content' (instructionWord_of_agree encoded agree),
        .inl ⟨by simp [FillsLabel, content], rfl⟩⟩
  | literal content within =>
      rw [content] at item
      obtain ⟨span, content'⟩ := Content.item_eq_fill_iff.mp item
      exact ⟨_, .literal content' within, .inl ⟨by simp [FillsLabel, content], rfl⟩⟩
  | @label name w span content defined =>
      rw [content] at item
      obtain ⟨span', content'⟩ := Content.item_eq_fill_iff.mp item
      have target := table.find? name
      rw [defined] at target
      generalize found : symbols'.find? name = found' at target
      cases target with
      | some target =>
          exact ⟨_, .label content' found, .inr ⟨⟨_, _, content⟩, _, _, rfl, rfl, target⟩⟩
  | block content =>
      rw [content] at item
      have content' := Content.item_eq_block_iff.mp item
      exact ⟨_, .block content', .inl ⟨by simp [FillsLabel, content], rfl⟩⟩
  | string content =>
      rw [content] at item
      have content' := Content.item_eq_string_iff.mp item
      exact ⟨_, .string content', .inl ⟨by simp [FillsLabel, content], rfl⟩⟩

/-- The words of some statements, from an address on, and those of the same statements at another
origin: only the addresses of labels move. -/
structure WordsMove (a b : Word) (statements : List Statement) (start : Nat) (ws ws' : List Word) :
    Prop where
  length : ws'.length = ws.length
  labels : ∀ s ∈ statements, s.FillsLabel → ∃ i w w', s.address.toNat = start + i ∧
    ws[i]? = some w ∧ ws'[i]? = some w' ∧ Word.Moves a b w w'
  others : ∀ i, (∀ s ∈ statements, s.FillsLabel → s.address.toNat ≠ start + i) → ws'[i]? = ws[i]?

/-- The words of one more statement come before those of others. -/
theorem WordsMove.cons {statements : List Statement} {start : Nat} {vs vs' ws' : List Word}
    (h : WordsMove a b statements (start + ws.length) vs vs') (place : s.address.toNat = start)
    (own : ¬ s.FillsLabel ∧ ws' = ws ∨
      s.FillsLabel ∧ ∃ w w', ws = [w] ∧ ws' = [w'] ∧ Word.Moves a b w w') :
    WordsMove a b (s :: statements) start (ws ++ vs) (ws' ++ vs') := by
  have length : ws'.length = ws.length := by
    rcases own with ⟨-, rfl⟩ | ⟨-, w, w', rfl, rfl, -⟩ <;> rfl
  constructor
  · rw [List.length_append, List.length_append, length, h.length]
  · refine List.forall_mem_cons.mpr ⟨fun fills => ?_, fun u member fills => ?_⟩
    · obtain ⟨other, -⟩ | ⟨-, w, w', rfl, rfl, moved⟩ := own
      · exact absurd fills other
      · exact ⟨0, w, w', place, rfl, rfl, moved⟩
    · obtain ⟨i, w, w', address, first, second, moved⟩ := h.labels u member fills
      refine ⟨ws.length + i, w, w', by rw [address, Nat.add_assoc], ?_, ?_, moved⟩
      · rwa [List.getElem?_append_right (by omega), Nat.add_sub_cancel_left]
      · rwa [List.getElem?_append_right (by omega), length, Nat.add_sub_cancel_left]
  · intro i other
    obtain ⟨first, later⟩ := List.forall_mem_cons.mp other
    by_cases inside : i < ws.length
    · rw [List.getElem?_append_left inside, List.getElem?_append_left (length ▸ inside)]
      rcases own with ⟨-, rfl⟩ | ⟨fills, w, w', rfl, -⟩
      · rfl
      · obtain rfl := Nat.lt_one_iff.mp inside
        exact absurd place (first fills)
    · obtain ⟨j, rfl⟩ := Nat.exists_eq_add_of_le (Nat.not_lt.mp inside)
      rw [List.getElem?_append_right (by omega), List.getElem?_append_right (by omega), length,
        Nat.add_sub_cancel_left]
      exact h.others j fun u member fills => by
        rw [Nat.add_assoc]
        exact later u member fills

theorem exists_words_move {statements statements' : List Statement} {wss : List (List Word)}
    {start : Nat} (emits : List.Forall₂ (Emits symbols) statements wss)
    (table : symbols.Moves a b symbols') (consecutive : Consecutive start statements)
    (moved : List.Forall₂ (Moves a b) statements statements') :
    ∃ wss', List.Forall₂ (Emits symbols') statements' wss' ∧
      WordsMove a b statements start wss.flatten wss'.flatten := by
  induction emits generalizing statements' start with
  | nil =>
      cases moved
      exact ⟨[], .nil, rfl, nofun, fun _ _ => rfl⟩
  | cons emits _ ih =>
      obtain ⟨s', rest', first, others, rfl⟩ := List.forall₂_cons_left_iff.mp moved
      obtain ⟨ws', emits', own⟩ := emits.moves table first
      obtain ⟨wss', later, words⟩ := ih consecutive.2 others
      rw [← emits.length] at words
      exact ⟨ws' :: wss', .cons emits' later, words.cons consecutive.1 own⟩

end Statement

variable {source : List Char} {program : Program} {before after : List Char} {t t' : Token}

theorem exists_moved_of_rebases {l : Listing} (rebases : Rebases before after t t' b)
    (listed : Listing.ofText (before ++ t.text ++ after) = .ok l)
    (programmed : l.program = .ok program) (room : b.toNat + program.words.length ≤ 0xFFFF) :
    ∃ moved, assemble (before ++ t'.text ++ after) = .ok moved ∧ moved.origin = b ∧
      program.symbols.Moves program.origin b moved.symbols ∧
      Statement.WordsMove program.origin b l.statements program.origin.toNat program.words
        moved.words := by
  obtain ⟨wss, emits, rfl⟩ := Listing.program_eq_ok_iff.mp programmed
  obtain ⟨entries, told, formed, held⟩ := holds_of_ofText listed
  obtain ⟨n, label, rest, a, rfl, told'⟩ := Entry.exists_told_of_rebases rebases told
  obtain rfl := Entry.origin_of_opened formed
  have length : wss.flatten.length = Entry.total rest := by
    rw [Statement.length_flatten_of_emits emits, held.total, Entry.body_opened, Entry.total_cons]
    exact Nat.zero_add _
  obtain ⟨l', listed', rfl, held'⟩ :=
    exists_listing_of_formed told' (formed.moved (length ▸ room))
  obtain ⟨table, statements⟩ := held.moves held' (Entry.forall₂_like_opened ..)
  obtain ⟨wss', emits', words⟩ :=
    Statement.exists_words_move emits table (Listing.laid_of_ofText listed).consecutive statements
  refine ⟨⟨l'.origin, wss'.flatten, l'.symbols⟩, ?_, rfl, table, words⟩
  exact assemble_eq_ok_iff.mpr ⟨l', listed', Listing.program_eq_ok_iff.mpr ⟨wss', emits', rfl⟩⟩

/-- A source that assembles has a literal for its origin, and by another one in its place the
program goes to any origin from which it ends within memory: all labels move along, and of the
words only those that are addresses of labels. -/
theorem moved_of_assemble (assembled : assemble source = .ok program) :
    ∃ l, Listing.ofText source = .ok l ∧
      (∃ before after t, source = before ++ t.text ++ after ∧ t.Between before after ∧
        OriginLiteral source t) ∧
      ∀ before after t t' b, source = before ++ t.text ++ after → Rebases before after t t' b →
        b.toNat + program.words.length ≤ 0xFFFF →
        ∃ moved, assemble (before ++ t'.text ++ after) = .ok moved ∧ moved.origin = b ∧
          program.symbols.Moves program.origin b moved.symbols ∧
          Statement.WordsMove program.origin b l.statements program.origin.toNat program.words
            moved.words := by
  obtain ⟨l, listed, programmed⟩ := assemble_eq_ok_iff.mp assembled
  refine ⟨l, listed, exists_originLiteral listed, ?_⟩
  rintro before after t t' b rfl rebases room
  exact exists_moved_of_rebases rebases listed programmed room

/-- A program around the literal of its origin: it loads from a label, and a FILL holds the label. -/
def movableBefore : List Char := "; moves\n.ORIG ".toList

def movableAfter : List Char := "\nLD R0, A\nB .BLKW 2\nA .FILL A".toList

def highOrigin : Token := ⟨.hexLiteral, 14, "x3000".toList⟩

def lowOrigin : Token := ⟨.decimalLiteral, 14, "64".toList⟩

theorem moved_movable :
    ∃ program, assemble (movableBefore ++ highOrigin.text ++ movableAfter) = .ok program ∧
      program.words = [0x2002, 0, 0, 0x3003] ∧
      ∃ l, Listing.ofText (movableBefore ++ highOrigin.text ++ movableAfter) = .ok l ∧
        ∃ moved, assemble (movableBefore ++ lowOrigin.text ++ movableAfter) = .ok moved ∧
          moved.origin = 64 ∧ program.symbols.Moves program.origin 64 moved.symbols ∧
          Statement.WordsMove program.origin 64 l.statements program.origin.toNat program.words
            moved.words := by
  have literal : OriginLiteral (movableBefore ++ highOrigin.text ++ movableAfter) highOrigin :=
    ⟨[_], _, _, none, _, rfl, List.forall_mem_singleton.mpr rfl, rfl⟩
  have value : lowOrigin.piece.IsWord 64 :=
    Token.unsignedWord_eq_ok_iff.mp (rfl : lowOrigin.unsignedWord .origin = .ok 64)
  have rebases : Rebases movableBefore movableAfter highOrigin lowOrigin 64 :=
    ⟨literal, ⟨by decide, by decide⟩, ⟨by decide, by decide⟩, value⟩
  obtain ⟨l, listed, -, moves⟩ := moved_of_assemble
    (rfl : assemble (movableBefore ++ highOrigin.text ++ movableAfter) = .ok _)
  exact ⟨_, rfl, by decide, l, listed, moves _ _ _ _ _ rfl rebases (by decide)⟩

end LC3
