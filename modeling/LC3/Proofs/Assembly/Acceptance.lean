import LC3.Proofs.Assembly.FirstPass
import LC3.Proofs.Assembly.Formation

/-!
What the first pass accepts. A text can be listed exactly where its lines up to the first END give
entries that make a program, and the listing then holds what the entries say. Main statements:
`listed_iff`, `holds_of_ofText`.
-/

namespace LC3

/-- A draft agrees with the entries of a program from its origin on. -/
structure Draft.Holds (d : Draft) (entries : List Entry) : Prop where
  counter : d.counter = d.origin.toNat + Entry.total entries
  symbols : d.symbols.entries.map (fun e => (e.1, e.2.toNat)) =
    Entry.labels d.origin.toNat entries
  items : d.statements.toList.map (fun s => (s.address.toNat, s.content.item)) =
    Entry.items d.origin.toNat entries

namespace Draft

variable {d d' : Draft} {entries : List Entry} {label : Option Token} {e : Entry} {number : Nat}
  {head : Token} {content : Content}

theorem holds_start (origin : Word) : (start origin).Holds [] := ⟨rfl, rfl, rfl⟩

theorem Holds.labels (h : d.Holds entries) :
    d.symbols.entries.map Prod.fst = entries.filterMap Entry.label := by
  have same := congrArg (List.map Prod.fst) h.symbols
  rwa [List.map_map, Entry.map_fst_labels] at same

theorem exists_insert_iff {symbols : SymbolTable} {name : Label} {address : Word} :
    (∃ others, symbols.insert name address = .ok others) ↔
      name ∉ symbols.entries.map Prod.fst := by
  rw [← SymbolTable.find?_eq_none_iff]
  cases found : symbols.find? name with
  | none =>
      refine iff_of_true ?_ rfl
      cases inserted : symbols.insert name address with
      | ok others => exact ⟨others, rfl⟩
      | error earlier =>
          rw [SymbolTable.insert_eq_error_iff.mp inserted] at found
          cases found
  | some earlier =>
      rw [SymbolTable.insert_eq_error_iff.mpr found]
      simp

theorem Holds.exists_defineSome_iff (h : d.Holds entries) :
    (∃ d', d.defineSome label = .ok d') ↔ (label.map Token.text ≠ none → d.counter ≤ 0xFFFF) ∧
      ∀ l ∈ label.map Token.text, l ∉ entries.filterMap Entry.label := by
  cases label with
  | none => simp [defineSome]
  | some t =>
      have known : t.text ∉ entries.filterMap Entry.label ↔ ∃ symbols,
          d.symbols.insert t.text (BitVec.ofNat 16 d.counter) = .ok symbols := by
        rw [← h.labels, exists_insert_iff]
      simp only [defineSome, define_eq_ok_iff, Option.map_some, Option.mem_def,
        Option.some.injEq, forall_eq', known]
      simp

/-- A label goes to the end of the table with the address of the next word. -/
theorem defineSome_fields (defined : d.defineSome label = .ok d') :
    d'.origin = d.origin ∧ d'.counter = d.counter ∧ d'.statements = d.statements ∧
      d'.symbols.entries.map (fun e => (e.1, e.2.toNat)) =
        d.symbols.entries.map (fun e => (e.1, e.2.toNat)) ++
          ((label.map Token.text).map (·, d.counter)).toList := by
  cases label with
  | none =>
      cases defined
      simp
  | some t =>
      obtain ⟨inside, symbols, inserted, rfl⟩ := define_eq_ok_iff.mp defined
      have address : (BitVec.ofNat 16 d.counter).toNat = d.counter := by
        rw [BitVec.toNat_ofNat]
        exact Nat.mod_eq_of_lt (Nat.lt_succ_of_le inside)
      refine ⟨rfl, rfl, rfl, ?_⟩
      rw [SymbolTable.entries_insert inserted, List.map_append, List.map_singleton, address]
      rfl

theorem Holds.defineSome (h : d.Holds entries) (defined : d.defineSome label = .ok d')
    (own : e.label = label.map Token.text) (size : e.size = 0) (none : e.item? = none) :
    d'.Holds (entries ++ [e]) := by
  obtain ⟨origin, counter, statements, symbols⟩ := defineSome_fields defined
  constructor
  · rw [counter, origin, h.counter, Entry.total_append, Entry.total_cons, size, Entry.total_nil]
    rfl
  · rw [symbols, origin, h.symbols, Entry.labels_append, Entry.labels_singleton, own, h.counter]
  · rw [statements, origin, h.items, Entry.items_append, Entry.items_singleton, none]
    simp

theorem Holds.place (h : d.Holds entries) (placed : d.place number label head content = .ok d') :
    d'.Holds (entries ++ [⟨label.map Token.text, .put content.item⟩]) := by
  obtain ⟨mid, defined, pushed⟩ := Stage.bind_eq_ok.mp placed
  obtain ⟨origin, counter, statements, symbols⟩ := defineSome_fields defined
  obtain ⟨inside, fits, rfl⟩ := push_eq_ok_iff.mp pushed
  have address : (BitVec.ofNat 16 mid.counter).toNat = d.counter := by
    rw [BitVec.toNat_ofNat, ← counter]
    exact Nat.mod_eq_of_lt (Nat.lt_succ_of_le inside)
  constructor
  · simp only [counter, origin, h.counter, Entry.total_append, Entry.total_cons, Entry.total_nil,
      Entry.size, Content.size_item, Nat.add_zero, Nat.add_assoc]
  · simp only [symbols, origin, h.symbols, Entry.labels_append, Entry.labels_singleton, h.counter]
  · simp only [Array.toList_push, List.map_append, List.map_singleton, address, statements, origin,
      h.items, Entry.items_append, Entry.items_singleton, h.counter]
    rfl

theorem Holds.exists_place_iff (h : d.Holds entries) :
    (∃ d', d.place number label head content = .ok d') ↔
      (⟨label.map Token.text, .put content.item⟩ : Entry).Fits d.counter ∧
        ∀ l ∈ label.map Token.text, l ∉ entries.filterMap Entry.label := by
  have named : (∃ d', d.defineSome label = .ok d') ↔ _ := h.exists_defineSome_iff
  constructor
  · rintro ⟨d', placed⟩
    obtain ⟨mid, defined, pushed⟩ := Stage.bind_eq_ok.mp placed
    obtain ⟨address, new⟩ := named.mp ⟨mid, defined⟩
    obtain ⟨inside, fits, -⟩ := push_eq_ok_iff.mp pushed
    rw [(defineSome_fields defined).2.1] at inside fits
    refine ⟨⟨address, ?_⟩, new⟩
    rintro item ⟨⟩
    exact ⟨inside, (Content.size_item content).symm ▸ fits⟩
  · rintro ⟨⟨address, room⟩, new⟩
    obtain ⟨mid, defined⟩ := named.mpr ⟨address, new⟩
    obtain ⟨inside, fits⟩ := room _ rfl
    rw [Content.size_item, ← (defineSome_fields defined).2.1] at fits
    rw [← (defineSome_fields defined).2.1] at inside
    exact ⟨_, Stage.bind_eq_ok.mpr ⟨mid, defined, push_eq_ok_iff.mpr ⟨inside, fits, rfl⟩⟩⟩

end Draft

namespace Progress

variable {p p' : Progress} {entries : List Entry} {e : Entry} {clause : Clause} {number : Nat}
  {line : Line}

/-- A reading agrees with the entries of the lines that it has passed. -/
def Holds (p : Progress) (entries : List Entry) : Prop :=
  match p with
  | .beforeOrigin => Entry.body entries = []
  | .within d => Entry.Formed entries d.origin ∧ d.Holds (Entry.body entries)
  | .ended d => Entry.Formed entries d.origin ∧ d.Holds (Entry.body entries)

/-- A draft within a program goes on with one more entry. -/
theorem Holds.concat {d d' : Draft} (h : (within d).Holds entries) (same : d'.origin = d.origin)
    (held : d'.Holds (Entry.body entries ++ [e])) (other : ¬ e.IsOrigin)
    (new : ∀ l ∈ e.label, l ∉ (Entry.body entries).filterMap Entry.label)
    (fits : e.Fits d.counter) : (within d').Holds (entries ++ [e]) := by
  obtain ⟨formed, own⟩ := h
  refine ⟨?_, ?_⟩
  · rw [same]
    exact formed.concat_iff.mpr ⟨other, new, own.counter ▸ fits⟩
  · rwa [Entry.body_append formed.body_ne_nil]

/-- A label alone takes no words. -/
theorem Holds.defineSome {d d' : Draft} {name : Option Token} (h : (within d).Holds entries)
    (defined : d.defineSome name = .ok d') (own : e.label = name.map Token.text)
    (plain : e.act = .nothing ∨ e.act = .stop) : (within d').Holds (entries ++ [e]) := by
  obtain ⟨address, new⟩ := h.2.exists_defineSome_iff.mp ⟨d', defined⟩
  have size : e.size = 0 := by
    rcases plain with act | act <;> rw [Entry.size, act]
  have none : e.item? = none := by
    rcases plain with act | act <;> rw [Entry.item?, act]
  refine h.concat (Draft.defineSome_fields defined).1 (h.2.defineSome defined own size none) ?_
    (own ▸ new) ⟨own ▸ address, ?_⟩
  · rintro ⟨a, origin⟩
    rcases plain with act | act <;> cases act.symm.trans origin
  · rintro item put
    rcases plain with act | act <;> cases act.symm.trans put

/-- A clause takes a reading further as the entry that it gives demands. -/
theorem Holds.reads (h : p.Holds entries) (live : ∀ d, p ≠ .ended d)
    (reads : Reads number p clause p') :
    ∃ e, clause.Gives e ∧ p'.Holds (entries ++ [e]) ∧
      ((∃ d, p' = .ended d) ↔ e.act = .stop) := by
  cases reads with
  | blank =>
      refine ⟨.blank, .blank, ?_, by simp [live, Entry.blank]⟩
      cases p with
      | beforeOrigin => exact (Entry.body_append_of_nil h).trans rfl
      | within d =>
          have defined : d.defineSome none = .ok d := rfl
          exact h.defineSome defined rfl (.inl rfl)
      | ended d => exact absurd rfl (live d)
  | label defined =>
      exact ⟨_, .label, h.defineSome defined rfl (.inl rfl), by simp⟩
  | origin only read defined =>
      obtain ⟨origin, -⟩ := Draft.defineSome_fields defined
      refine ⟨_, .origin only read, ⟨?_, ?_⟩, by simp⟩
      · rw [origin]
        exact Entry.formed_concat_origin h _
      · rw [Entry.body_concat_of_nil h (by simp [Entry.blank])]
        exact (Draft.holds_start _).defineSome defined rfl rfl rfl
  | stop defined =>
      have held := h.defineSome (e := ⟨_, .stop⟩) defined rfl (.inr rfl)
      exact ⟨_, .stop, held, by simp⟩
  | @statement d d' clause head content makes placed =>
      obtain ⟨fits, new⟩ := h.2.exists_place_iff.mp ⟨_, placed⟩
      have same : d'.origin = d.origin := by
        obtain ⟨mid, defined, pushed⟩ := Stage.bind_eq_ok.mp placed
        obtain ⟨-, -, rfl⟩ := Draft.push_eq_ok_iff.mp pushed
        exact (Draft.defineSome_fields defined).1
      refine ⟨_, .statement makes, h.concat same (h.2.place placed) ?_ new fits, by simp⟩
      rintro ⟨a, ⟨⟩⟩

/-- A clause whose entry goes on with the program takes the reading further. -/
theorem Holds.exists_reads (h : p.Holds entries) (live : ∀ d, p ≠ .ended d)
    (gives : clause.Gives e) (opens : Entry.Opens (entries ++ [e])) :
    ∃ p', Reads number p clause p' := by
  cases p with
  | ended d => exact absurd rfl (live d)
  | beforeOrigin =>
      rcases Entry.opens_concat_of_nil h opens with rfl | ⟨name, origin, rfl⟩
      · generalize same : Entry.blank = e at gives
        cases gives with
        | blank => exact ⟨_, .blank⟩
        | label => exact absurd (congrArg Entry.label same) nofun
        | origin | stop | statement => exact absurd (congrArg Entry.act same) nofun
      · cases gives with
        | @origin label head tokens t _ only read =>
            obtain ⟨d, defined⟩ := (Draft.holds_start origin).exists_defineSome_iff.mpr
              ⟨fun _ => Nat.le_of_lt_succ origin.isLt, by simp⟩
            exact ⟨_, .origin only read defined⟩
  | within d =>
      obtain ⟨formed, held⟩ := h
      obtain ⟨other, new, fits⟩ := formed.concat_iff.mp (formed.opens_concat_iff.mp opens)
      rw [← held.counter] at fits
      cases gives with
      | blank => exact ⟨_, .blank⟩
      | @label t =>
          have named : (∃ d', d.defineSome (some t) = .ok d') ↔ _ := held.exists_defineSome_iff
          obtain ⟨d', defined⟩ := named.mpr ⟨fits.1, new⟩
          exact ⟨_, .label defined⟩
      | origin => exact absurd ⟨_, rfl⟩ other
      | stop =>
          obtain ⟨d', defined⟩ := held.exists_defineSome_iff.mpr ⟨fits.1, new⟩
          exact ⟨_, .stop defined⟩
      | statement makes =>
          obtain ⟨d', placed⟩ := held.exists_place_iff.mpr ⟨fits, new⟩
          exact ⟨_, .statement makes placed⟩

end Progress

/-- The rows up to the first one with an END. -/
def Line.upToEnd : List (List Piece) → List (List Piece)
  | [] => []
  | row :: rest => if ∃ p ∈ row, p.IsDirective .stop then [row] else row :: upToEnd rest

namespace Progress

variable {p p' : Progress} {entries : List Entry} {e : Entry} {line : Line} {lines : List Line}

/-- One more line is read as the entry that its row gives. -/
theorem Holds.step (h : p.Holds entries) (live : ∀ d, p ≠ .ended d)
    (read : p.readLine line = .ok p') :
    ∃ e, e.Of Piece.IsDatum line.row ∧ p'.Holds (entries ++ [e]) ∧
      ((∃ d, p' = .ended d) ↔ ∃ q ∈ line.row, q.IsDirective .stop) := by
  obtain ⟨clause, parsed, reads⟩ := reads_of_readLine live read
  obtain ⟨e, gives, held, ends⟩ := h.reads live reads
  have own : e.Of Piece.IsDatum line.row := Clause.exists_gives_iff.mp ⟨clause, parsed, gives⟩
  exact ⟨e, own, held, ends.trans own.act_eq_stop_iff⟩

/-- A line is read where the entry of its row goes on with the program. -/
theorem Holds.exists_step (h : p.Holds entries) (live : ∀ d, p ≠ .ended d)
    (own : e.Of Piece.IsDatum line.row) (opens : Entry.Opens (entries ++ [e])) :
    ∃ p', p.readLine line = .ok p' ∧ p'.Holds (entries ++ [e]) ∧
      ((∃ d, p' = .ended d) ↔ ∃ q ∈ line.row, q.IsDirective .stop) := by
  obtain ⟨clause, parsed, gives⟩ := Clause.exists_gives_iff.mpr own
  obtain ⟨p', reads⟩ := h.exists_reads live gives opens
  obtain ⟨e', gives', held, ends⟩ := h.reads live reads
  obtain rfl := gives.unique gives'
  exact ⟨p', readLine_of_reads live parsed reads, held, ends.trans own.act_eq_stop_iff⟩

/-- Lines that are read give entries, up to the END. -/
theorem Holds.run (h : p.Holds entries) (live : ∀ d, p ≠ .ended d)
    (read : lines.foldlM readLine p = .ok p') :
    ∃ others, List.Forall₂ (fun row e => e.Of Piece.IsDatum row)
        (Line.upToEnd (lines.map Line.row)) others ∧ p'.Holds (entries ++ others) := by
  induction lines generalizing p entries with
  | nil =>
      cases read
      exact ⟨[], .nil, by rwa [List.append_nil]⟩
  | cons line rest ih =>
      obtain ⟨mid, first, read⟩ := Stage.bind_eq_ok.mp ((List.foldlM_cons ..).symm.trans read)
      obtain ⟨e, own, held, ends⟩ := h.step live first
      rw [List.map_cons, Line.upToEnd]
      split
      · next stop =>
        obtain ⟨d, rfl⟩ := ends.mpr stop
        rw [foldlM_readLine_ended] at read
        cases read
        exact ⟨[e], .cons own .nil, held⟩
      · next more =>
        obtain ⟨others, given, held⟩ := ih held (fun d ended => more (ends.mp ⟨d, ended⟩)) read
        exact ⟨e :: others, .cons own given, by rwa [List.append_cons]⟩

/-- Lines are read where their entries, up to the END, go on with the program. -/
theorem Holds.exists_run (h : p.Holds entries) (live : ∀ d, p ≠ .ended d) {others : List Entry}
    (given : List.Forall₂ (fun row e => e.Of Piece.IsDatum row)
      (Line.upToEnd (lines.map Line.row)) others)
    (opens : Entry.Opens (entries ++ others)) :
    ∃ p', lines.foldlM readLine p = .ok p' ∧ p'.Holds (entries ++ others) := by
  induction lines generalizing p entries others with
  | nil =>
      cases given
      exact ⟨p, rfl, by rwa [List.append_nil]⟩
  | cons line rest ih =>
      rw [List.map_cons, Line.upToEnd] at given
      split at given
      · next stop =>
        obtain ⟨e, _, own, ⟨⟩, rfl⟩ := List.forall₂_cons_left_iff.mp given
        obtain ⟨mid, first, held, ends⟩ := h.exists_step live own opens
        obtain ⟨d, rfl⟩ := ends.mpr stop
        refine ⟨_, ?_, held⟩
        rw [List.foldlM_cons, first]
        exact foldlM_readLine_ended d rest
      · next more =>
        obtain ⟨e, more', own, later, rfl⟩ := List.forall₂_cons_left_iff.mp given
        rw [List.append_cons] at opens ⊢
        obtain ⟨mid, first, held, ends⟩ := h.exists_step live own opens.of_append
        obtain ⟨p', read, held⟩ := ih held (fun d ended => more (ends.mp ⟨d, ended⟩)) later opens
        refine ⟨p', ?_, held⟩
        rw [List.foldlM_cons, first]
        exact read

end Progress

/-- A listing agrees with the entries of a program. -/
structure Listing.Holds (l : Listing) (entries : List Entry) : Prop where
  symbols : l.symbols.entries.map (fun e => (e.1, e.2.toNat)) =
    Entry.labels l.origin.toNat (Entry.body entries)
  items : l.statements.map (fun s => (s.address.toNat, s.content.item)) =
    Entry.items l.origin.toNat (Entry.body entries)

/-- The entries of the lines of a source up to the END, where `fills` says what a FILL takes. -/
def Entry.Told (fills : Piece → Datum → Prop) (source : List Char) (entries : List Entry) : Prop :=
  List.Forall₂ (fun row e => e.Of fills row) (Line.upToEnd (Piece.rows (Piece.ofText source)))
    entries

variable {source : List Char} {entries : List Entry} {origin : Word}

/-- The listing of a source holds what its entries say. -/
theorem holds_of_ofText {l : Listing} (listed : Listing.ofText source = .ok l) :
    ∃ entries, Entry.Told Piece.IsDatum source entries ∧ Entry.Formed entries l.origin ∧
      l.Holds entries := by
  obtain ⟨p, read, finished⟩ := Stage.bind_eq_ok.mp listed
  have start : Progress.beforeOrigin.Holds [] := rfl
  obtain ⟨entries, given, held⟩ := start.run nofun read
  rw [Line.map_row_ofText] at given
  refine ⟨entries, given, ?_⟩
  cases p with
  | beforeOrigin => cases finished
  | within d | ended d =>
      cases finished
      exact ⟨held.1, held.2.symbols, held.2.items⟩

theorem exists_listing_of_formed (told : Entry.Told Piece.IsDatum source entries)
    (formed : Entry.Formed entries origin) :
    ∃ l, Listing.ofText source = .ok l ∧ l.origin = origin ∧ l.Holds entries := by
  have start : Progress.beforeOrigin.Holds [] := rfl
  rw [Entry.Told, ← Line.map_row_ofText] at told
  obtain ⟨p, read, held⟩ := start.exists_run nofun told (.inr ⟨origin, formed⟩)
  rw [List.nil_append] at held
  cases p with
  | beforeOrigin => exact absurd held formed.body_ne_nil
  | within d | ended d =>
      exact ⟨d.listing, Stage.bind_eq_ok.mpr ⟨_, read, rfl⟩, held.1.unique formed, held.2.symbols,
        held.2.items⟩

/-- The first pass accepts exactly the sources whose lines give the entries of a program. -/
theorem listed_iff (source : List Char) : (∃ l, Listing.ofText source = .ok l) ↔
    ∃ entries origin, Entry.Told Piece.IsDatum source entries ∧ Entry.Formed entries origin := by
  constructor
  · rintro ⟨l, listed⟩
    obtain ⟨entries, told, formed, -⟩ := holds_of_ofText listed
    exact ⟨entries, l.origin, told, formed⟩
  · rintro ⟨entries, origin, told, formed⟩
    obtain ⟨l, listed, -⟩ := exists_listing_of_formed told formed
    exact ⟨l, listed⟩

/-- A number or a name that could label a line, so no mnemonic. -/
def Piece.IsLabelDatum (p : Piece) (d : Datum) : Prop :=
  p.IsLabel ∧ d = .label p.text ∨ ∃ v, p.IsLiteral v ∧ d = .literal v

def fillMnemonicSource : List Char := ".ORIG x3000\n.FILL ADD".toList

/-- A FILL takes a mnemonic as well, which no line can define. -/
theorem listed_fillMnemonic : ¬ ((∃ l, Listing.ofText fillMnemonicSource = .ok l) ↔
    ∃ entries origin, Entry.Told Piece.IsLabelDatum fillMnemonicSource entries ∧
      Entry.Formed entries origin) := by
  have rows : Line.upToEnd (Piece.rows (Piece.ofText fillMnemonicSource)) =
      [[⟨.directive, ".ORIG".toList⟩, ⟨.hexLiteral, "x3000".toList⟩],
        [⟨.directive, ".FILL".toList⟩, ⟨.identifier, "ADD".toList⟩]] := by
    decide
  intro same
  obtain ⟨entries, origin, told, -⟩ := same.mp ⟨_, rfl⟩
  rw [Entry.Told, rows] at told
  obtain ⟨_, _, -, later, -⟩ := List.forall₂_cons_left_iff.mp told
  obtain ⟨⟨name, act⟩, _, ⟨front, back, split, labels, acts⟩, -, -⟩ :=
    List.forall₂_cons_left_iff.mp later
  have head : (⟨.directive, ".FILL".toList⟩ : Piece).IsDirective .fill := by decide
  cases labels with
  | none =>
      obtain rfl := split
      cases acts with
      | instruction own => exact own.1.not_isDirective head
      | origin own | block own | string own => cases own.unique head
      | fill _ given =>
          rcases given with ⟨⟨-, other, -⟩, -⟩ | ⟨v, number, -⟩
          · cases other
          · cases number
  | bare own | colon own =>
      obtain ⟨rfl, -⟩ := List.cons.inj split
      exact own.1.not_isDirective head

end LC3
