import LC3.Proofs.Assembly.Naming
import LC3.Proofs.Source.Continuation

/-!
Programs that go on. A source in which more lines follow begins with the same statements and labels,
at the same addresses, and a statement keeps its words where more labels are defined. Main
statements: `begins_of_ofText`, `Emits.kept`, `begins_of_assemble`.
-/

namespace LC3

/-- The second listing goes on where the first one stops. -/
structure Listing.Begins (l l' : Listing) : Prop where
  origin : l.origin = l'.origin
  statements : l.statements <+: l'.statements
  symbols : l.symbols.entries <+: l'.symbols.entries

namespace Listing.Begins

variable {l l' l'' : Listing}

theorem refl (l : Listing) : l.Begins l := ⟨rfl, List.prefix_refl _, List.prefix_refl _⟩

theorem trans (h : l.Begins l') (h' : l'.Begins l'') : l.Begins l'' :=
  ⟨h.origin.trans h'.origin, h.statements.trans h'.statements, h.symbols.trans h'.symbols⟩

end Listing.Begins

namespace Draft

variable {d d' : Draft} {label : Option Token} {number : Nat} {head : Token} {content : Content}

theorem begins_defineSome (defined : d.defineSome label = .ok d') :
    d.listing.Begins d'.listing := by
  cases label with
  | none =>
      cases defined
      exact .refl _
  | some t =>
      obtain ⟨-, symbols, inserted, rfl⟩ := define_eq_ok_iff.mp defined
      refine ⟨rfl, List.prefix_refl _, ?_⟩
      simp only [listing, SymbolTable.entries_insert inserted, List.prefix_append]

theorem begins_place (placed : d.place number label head content = .ok d') :
    d.listing.Begins d'.listing := by
  obtain ⟨mid, defined, pushed⟩ := Stage.bind_eq_ok.mp placed
  refine (begins_defineSome defined).trans ?_
  obtain ⟨-, -, rfl⟩ := push_eq_ok_iff.mp pushed
  refine ⟨rfl, ?_, List.prefix_refl _⟩
  simp only [listing, Array.toList_push, List.prefix_append]

end Draft

namespace Progress

variable {p p' p'' : Progress} {line : Line} {lines : List Line} {clause : Clause} {number : Nat}

/-- The listing of what has been read, which exists from the origin on. -/
def listing? : Progress → Option Listing
  | beforeOrigin => none
  | within d => some d.listing
  | ended d => some d.listing

/-- What has been read stays in the listing. -/
def Keeps (p p' : Progress) : Prop := ∀ l ∈ p.listing?, ∃ l' ∈ p'.listing?, l.Begins l'

theorem Keeps.trans (h : p.Keeps p') (h' : p'.Keeps p'') : p.Keeps p'' := by
  intro l own
  obtain ⟨l', own', begins⟩ := h l own
  obtain ⟨l'', own'', begins'⟩ := h' l' own'
  exact ⟨l'', own'', begins.trans begins'⟩

theorem keeps_of_draft {d d' : Draft} (begins : d.listing.Begins d'.listing)
    (own : p'.listing? = some d'.listing) : (within d).Keeps p' := by
  rintro _ ⟨⟩
  exact ⟨_, own, begins⟩

theorem Reads.keeps (h : Reads number p clause p') : p.Keeps p' := by
  cases h with
  | blank => exact fun l own => ⟨l, own, .refl l⟩
  | label defined => exact keeps_of_draft (Draft.begins_defineSome defined) rfl
  | origin => exact nofun
  | stop defined => exact keeps_of_draft (Draft.begins_defineSome defined) rfl
  | statement makes placed => exact keeps_of_draft (Draft.begins_place placed) rfl

theorem keeps_of_readLine (h : p.readLine line = .ok p') : p.Keeps p' := by
  by_cases live : ∀ d, p ≠ .ended d
  · obtain ⟨clause, -, reads⟩ := reads_of_readLine live h
    exact reads.keeps
  · simp only [ne_eq, not_forall, not_not] at live
    obtain ⟨d, rfl⟩ := live
    cases h
    exact fun l own => ⟨l, own, .refl l⟩

/-- However many lines are read, what was read before them stays in the listing. -/
theorem keeps_of_foldlM (h : lines.foldlM readLine p = .ok p') : p.Keeps p' := by
  induction lines generalizing p with
  | nil =>
      cases h
      exact fun l own => ⟨l, own, .refl l⟩
  | cons line rest ih =>
      obtain ⟨mid, first, later⟩ := Stage.bind_eq_ok.mp ((List.foldlM_cons ..).symm.trans h)
      exact (keeps_of_readLine first).trans (ih later)

theorem Reads.exists_gives (h : Reads number p clause p') : ∃ e, clause.Gives e := by
  cases h with
  | blank => exact ⟨_, .blank⟩
  | label => exact ⟨_, .label⟩
  | origin only read => exact ⟨_, .origin only read⟩
  | stop => exact ⟨_, .stop⟩
  | statement makes => exact ⟨_, .statement makes⟩

end Progress

/-- A line with an unterminated string literal is only passed over. -/
theorem Progress.exists_ended_of_readLine {p p' : Progress} {line : Line} {t : Token}
    (member : t ∈ line.tokens) (opened : t.kind = .stringLiteral false)
    (h : p.readLine line = .ok p') : ∃ d, p = .ended d := by
  by_contra live
  obtain ⟨clause, parsed, reads⟩ := reads_of_readLine (fun d own => live ⟨d, own⟩) h
  obtain ⟨e, gives⟩ := reads.exists_gives
  have own : e.Of Piece.IsDatum (line.tokens.map Token.piece) :=
    Clause.exists_gives_iff.mp ⟨clause, parsed, gives⟩
  exact (own.writes (List.mem_map_of_mem member)).known.2 opened

namespace Listing

variable {p q : List Char} {l l' : Listing}

theorem ofText_eq_ok_iff : ofText p = .ok l ↔
    ∃ progress : Progress, (Line.ofText p).foldlM Progress.readLine .beforeOrigin = .ok progress ∧
      progress.listing? = some l := by
  rw [ofText, ofLines, Stage.bind_eq_ok]
  refine exists_congr fun progress => and_congr_right fun _ => ?_
  cases progress with
  | beforeOrigin => simp [Progress.listing?, throw, throwThe, MonadExceptOf.throw]
  | within d | ended d => simp [Progress.listing?, pure, Except.pure]

/-- A source that ends with an opening quote and is listed has come to its end before. -/
theorem ofText_append_of_opensAtEnd (opened : OpensAtEnd p) (listed : ofText p = .ok l)
    (more : List Char) : ofText (p ++ more) = .ok l := by
  obtain ⟨before, goes, alone⟩ := Line.exists_ofText_append_of_opensAtEnd opened
  obtain ⟨line, split, t, member, kind⟩ := alone [] ['"'] rfl
  obtain ⟨later, split'⟩ := goes more
  rw [List.append_nil] at split
  obtain ⟨progress, read, own⟩ := ofText_eq_ok_iff.mp listed
  rw [split, List.foldlM_append] at read
  obtain ⟨mid, first, last⟩ := Stage.bind_eq_ok.mp read
  obtain ⟨d, rfl⟩ : ∃ d, mid = .ended d := by
    obtain ⟨_, last, -⟩ := Stage.bind_eq_ok.mp ((List.foldlM_cons ..).symm.trans last)
    exact Progress.exists_ended_of_readLine member kind last
  rw [Progress.foldlM_readLine_ended] at last
  cases last
  refine ofText_eq_ok_iff.mpr ⟨.ended d, ?_, own⟩
  rw [split', List.foldlM_append, first]
  exact Progress.foldlM_readLine_ended d later

/-- The listing of a source with more lines begins with that of the source. -/
theorem begins_of_ofText (listed : ofText p = .ok l) (listed' : ofText (p ++ '\n' :: q) = .ok l') :
    l.Begins l' := by
  by_cases opened : OpensAtEnd p
  · rw [ofText_append_of_opensAtEnd opened listed] at listed'
    cases listed'
    exact .refl l
  · obtain ⟨progress, read, own⟩ := ofText_eq_ok_iff.mp listed
    obtain ⟨progress', read', own'⟩ := ofText_eq_ok_iff.mp listed'
    rw [Line.ofText_append_newline opened, List.foldlM_append, read] at read'
    obtain ⟨other, same, begins⟩ := Progress.keeps_of_foldlM read' l own
    rw [own'] at same
    cases same
    exact begins

end Listing

/-- Each label of the first table has its address in the second one. -/
def SymbolTable.Grows (symbols symbols' : SymbolTable) : Prop :=
  ∀ name a, symbols.find? name = some a → symbols'.find? name = some a

variable {symbols symbols' : SymbolTable}

theorem SymbolTable.grows_of_prefix (h : symbols.entries <+: symbols'.entries) :
    symbols.Grows symbols' := by
  intro name a found
  obtain ⟨more, whole⟩ := h
  rw [find?] at found
  rw [find?, ← whole, List.lookup_append, found]
  rfl

namespace Statement

variable {s s' : Statement} {ws : List Word}

/-- A statement emits the same words wherever it is written, at its address and where its labels
have theirs. -/
theorem Emits.kept (h : s.Emits symbols ws) (table : symbols.Grows symbols')
    (item : s'.content.item = s.content.item) (address : s'.address = s.address) :
    s'.Emits symbols' ws := by
  have table : symbols.Renames id symbols' := table
  exact h.renames table (item.trans s.content.item.rename_id.symm) address

theorem prefix_of_emits {statements statements' : List Statement} {wss wss' : List (List Word)}
    (emits : List.Forall₂ (Emits symbols) statements wss)
    (emits' : List.Forall₂ (Emits symbols') statements' wss') (table : symbols.Grows symbols')
    (begins : statements <+: statements') : wss <+: wss' := by
  induction emits generalizing statements' wss' with
  | nil => exact List.nil_prefix
  | cons first _ ih =>
      obtain ⟨more, rfl⟩ := begins
      cases emits' with
      | cons first' later' =>
          obtain rfl := (first.kept table rfl rfl).unique first'
          exact (List.prefix_cons_inj _).mpr (ih later' (List.prefix_append ..))

end Statement

/-- The second program goes on where the first one stops. -/
structure Program.Begins (program extended : Program) : Prop where
  origin : program.origin = extended.origin
  words : program.words <+: extended.words
  symbols : program.symbols.entries <+: extended.symbols.entries

/-- More lines change nothing in the program of the lines before them. -/
theorem begins_of_assemble {p q : List Char} {program extended : Program}
    (assembled : assemble p = .ok program)
    (assembled' : assemble (p ++ '\n' :: q) = .ok extended) : program.Begins extended := by
  obtain ⟨l, listed, programmed⟩ := assemble_eq_ok_iff.mp assembled
  obtain ⟨l', listed', programmed'⟩ := assemble_eq_ok_iff.mp assembled'
  obtain ⟨wss, emits, rfl⟩ := Listing.program_eq_ok_iff.mp programmed
  obtain ⟨wss', emits', rfl⟩ := Listing.program_eq_ok_iff.mp programmed'
  have begins := Listing.begins_of_ofText listed listed'
  have words := Statement.prefix_of_emits emits emits'
    (SymbolTable.grows_of_prefix begins.symbols) begins.statements
  obtain ⟨more, rfl⟩ := words
  exact ⟨begins.origin, by simp, begins.symbols⟩

/-- The last label has no statement, and the load looks ahead to it. -/
def danglingSource : List Char := ".ORIG x3000\nA LD R0, B\nB".toList

def danglingProgram : Program :=
  ⟨0x3000, [0x2000], ⟨[(['A'], 0x3000), (['B'], 0x3001)], by decide⟩⟩

/-- Two more words, and a label of its own. -/
def moreSource : List Char := "C .FILL A\n.STRINGZ \"\"".toList

def moreProgram : Program where
  origin := 0x3000
  words := [0x2000, 0x3000, 0]
  symbols := ⟨[(['A'], 0x3000), (['B'], 0x3001), (['C'], 0x3001)], by decide⟩

theorem begins_danglingSource : assemble danglingSource = .ok danglingProgram ∧
    assemble (danglingSource ++ '\n' :: moreSource) = .ok moreProgram ∧
      danglingProgram.Begins moreProgram := by
  have assembled : assemble danglingSource = .ok danglingProgram := rfl
  have assembled' : assemble (danglingSource ++ '\n' :: moreSource) = .ok moreProgram := rfl
  exact ⟨assembled, assembled', begins_of_assemble assembled assembled'⟩

end LC3
