import LC3.Proofs.Assembly.Arrangement
import LC3.Proofs.Source.Junctions

/-!
Sources with other labels. Where each label up to the END is written as another name that could label
a line, and no two as the same one, the text is cut at the same places, its lines say the same with
these names, and the program is the same but for the names in its table. Main statements:
`cut_of_renames`, `told_renameLabels`, `assemble_renameLabels`.
-/

namespace LC3

/-- The name is one token, and a line takes it for a label. -/
def Label.Valid (name : Label) : Prop :=
  ∃ t, tokenize name = [t] ∧ t.role = .identifier ∧ Mnemonic.ofName? name = none ∧
    Register.ofName? name = none

namespace Piece

/-- The pieces up to the end of the line that has an END, and the pieces behind. -/
def splitEnd (ended : Bool) : List Piece → List Piece × List Piece
  | [] => ([], [])
  | p :: rest =>
    if ended && p.isNewline then ([], p :: rest)
    else
      let parts := splitEnd (ended || decide (p.IsDirective .stop)) rest
      (p :: parts.1, parts.2)

def relabel (ρ : Label → Label) (p : Piece) : List Char := if p.IsLabel then ρ p.text else p.text

end Piece

/-- The source with other names for its labels, in definitions and in operands. Behind the line of
the END, which nothing looks at, it stays as it is. -/
def renameLabels (ρ : Label → Label) (source : List Char) : List Char :=
  let parts := Piece.splitEnd false (Piece.ofText source)
  parts.1.flatMap (Piece.relabel ρ) ++ Piece.join parts.2

namespace Piece

/-- A label under its other name, or a piece that is no label. -/
inductive Renames (ρ : Label → Label) : Piece → Piece → Prop
  | label {p q} (own : p.IsLabel) (other : q.IsLabel) (text : q.text = ρ p.text)
      (alone : q.Before []) : Renames ρ p q
  | same {p} (plain : ¬ p.IsLabel) : Renames ρ p p

variable {ρ : Label → Label} {p q : Piece} {pieces others : List Piece} {rest : List Char}
  {ended : Bool} {d : Directive}

theorem IsLabel.isNewline (h : p.IsLabel) : p.isNewline = false := by
  rcases h.1.kind with kind | kind <;> rw [Piece.isNewline, kind] <;> rfl

theorem IsLabel.isSignificant (h : p.IsLabel) : p.isSignificant = true := by
  rcases h.1.kind with kind | kind <;> rw [Piece.isSignificant, kind] <;> rfl

namespace Renames

theorem isNewline (h : Renames ρ p q) : q.isNewline = p.isNewline := by
  cases h with
  | label own other => rw [own.isNewline, other.isNewline]
  | same => rfl

theorem isSignificant (h : Renames ρ p q) : q.isSignificant = p.isSignificant := by
  cases h with
  | label own other => rw [own.isSignificant, other.isSignificant]
  | same => rfl

theorem isDirective_iff (h : Renames ρ p q) : q.IsDirective d ↔ p.IsDirective d := by
  cases h with
  | label own other => exact iff_of_false other.1.not_isDirective own.1.not_isDirective
  | same => exact .rfl

theorem text_eq (h : Renames ρ p q) : q.text = p.relabel ρ := by
  cases h with
  | label own _ text => rw [text, relabel, if_pos own]
  | same plain => rw [relabel, if_neg plain]

end Renames

/-- A valid name is a piece that takes the place of a label. -/
theorem exists_renames (valid : p.IsLabel → Label.Valid (ρ p.text)) : ∃ q, Renames ρ p q := by
  by_cases own : p.IsLabel
  · obtain ⟨t, token, role, mnemonic, register⟩ := valid own
    have cut := cut_ofText (ρ p.text)
    have whole := join_ofText (ρ p.text)
    rw [ofText, token] at cut whole
    have text : t.piece.text = ρ p.text := by simpa using whole
    have named : t.piece.IsLabel :=
      ⟨Token.role_eq_identifier_iff.mp role, text ▸ mnemonic, text ▸ register⟩
    exact ⟨t.piece, .label own named text (by simpa [Cut] using cut)⟩
  · exact ⟨p, .same own⟩

theorem join_eq_of_renames (h : List.Forall₂ (Renames ρ) pieces others) :
    join others = pieces.flatMap (relabel ρ) := by
  induction h with
  | nil => rfl
  | cons first _ ih => rw [join_cons, first.text_eq, ih, List.flatMap_cons]

/-- What follows starts with the same character, or with a name both times. -/
theorem head_of_renames (h : List.Forall₂ (Renames ρ) pieces others) (cut : Cut rest pieces) :
    (join others ++ rest).head? = (join pieces ++ rest).head? ∨
      Lexeme.startsWith isNameChar (join pieces ++ rest) = true ∧
        Lexeme.startsWith isNameChar (join others ++ rest) = true := by
  cases h with
  | nil => exact .inl rfl
  | cons first later =>
      rw [join_cons, join_cons, List.append_assoc, List.append_assoc]
      cases first with
      | label own other text alone =>
          exact .inr ⟨cut.1.startsWith_text own.1.kind _, alone.startsWith_text other.1.kind _⟩
      | same plain =>
          obtain ⟨⟨c, more, text, -⟩, -⟩ := cut
          rw [text]
          exact .inl rfl

/-- Under other names a text is cut at the same places. No unknown token is in it, as a dash would
belong to a label in front of it that becomes a single x. -/
theorem cut_of_renames (h : List.Forall₂ (Renames ρ) pieces others) (cut : Cut rest pieces)
    (known : ∀ p ∈ pieces, p.kind ≠ .unknown)
    (dash : Lexeme.startsWith (· == '-') rest = false) : Cut rest others := by
  induction h with
  | nil => trivial
  | @cons p q pieces others first later ih =>
      obtain ⟨own, behind⟩ := cut
      obtain ⟨-, known⟩ := List.forall_mem_cons.mp known
      have head := head_of_renames later behind
      refine ⟨?_, ih behind known⟩
      cases first with
      | label label other text alone =>
          have ends := own.startsWith_isNameChar label.1.kind
          have same : (join others ++ rest).head? = (join pieces ++ rest).head? := by
            rcases head with same | ⟨name, -⟩
            · exact same
            · rw [ends] at name
              cases name
          refine alone.of_ends other.1.kind ((Lexeme.startsWith_congr same).trans ends)
            ((Lexeme.startsWith_congr same).trans ?_)
          cases pieces with
          | nil => exact dash
          | cons r pieces =>
              rw [join_cons, List.append_assoc]
              exact behind.1.startsWith_dash (known r List.mem_cons_self) _
      | same plain =>
          rcases head with same | ⟨name, name'⟩
          · exact own.of_head same
          · exact own.of_name name name'

theorem splitEnd_append (ended : Bool) (pieces : List Piece) :
    (splitEnd ended pieces).1 ++ (splitEnd ended pieces).2 = pieces := by
  induction pieces generalizing ended with
  | nil => rfl
  | cons p rest ih =>
      rw [splitEnd]
      split
      · rfl
      · exact congrArg (p :: ·) (ih _)

/-- Behind the END a line feed comes first. -/
theorem startsWith_dash_splitEnd (cut : Cut [] pieces) (ended : Bool) :
    Lexeme.startsWith (· == '-') (join (splitEnd ended pieces).2) = false := by
  induction pieces generalizing ended with
  | nil => rfl
  | cons p rest ih =>
      rw [splitEnd]
      split
      · next stop =>
        obtain ⟨-, feed⟩ := Bool.and_eq_true_iff.mp stop
        rw [cut.1.eq_newline_of_kind (beq_iff_eq.mp feed)]
        rfl
      · exact ih cut.2 _

/-- Other names for labels do not move the END. -/
theorem splitEnd_of_renames (h : List.Forall₂ (Renames ρ) (splitEnd ended pieces).1 others) :
    splitEnd ended (others ++ (splitEnd ended pieces).2) = (others, (splitEnd ended pieces).2) := by
  induction pieces generalizing ended others with
  | nil =>
      cases h
      rfl
  | cons p rest ih =>
      rw [splitEnd] at h ⊢
      split at h
      · next stop =>
        cases h
        simp only [stop, if_true, List.nil_append]
        rw [splitEnd, if_pos stop]
      · next more =>
        obtain ⟨q, later, first, renames, rfl⟩ := List.forall₂_cons_left_iff.mp h
        have flag : (ended || decide (q.IsDirective .stop)) =
            (ended || decide (p.IsDirective .stop)) := by
          simp only [first.isDirective_iff]
        rw [if_neg more, List.cons_append, splitEnd, first.isNewline, if_neg more, flag,
          ih renames]

section Rows

theorem rows_cons_of_isNewline (feed : p.isNewline = true) :
    rows (p :: pieces) = [] :: rows pieces := by
  have kind : p.kind = .newline := beq_iff_eq.mp feed
  have kept : p.isSignificant = true := by rw [isSignificant, kind]; rfl
  rw [rows, List.filter_cons_of_pos kept, List.splitOnP_cons_eq_if_modifyHead, if_pos feed]
  rfl

theorem rows_cons_of_not_isSignificant (blank : p.isSignificant = false) :
    rows (p :: pieces) = rows pieces := by
  rw [rows, List.filter_cons_of_neg (by simp [blank])]
  rfl

theorem rows_cons (inner : p.isNewline = false) (kept : p.isSignificant = true) :
    rows (p :: pieces) = (rows pieces).modifyHead (p :: ·) := by
  rw [rows, List.filter_cons_of_pos kept, List.splitOnP_cons_eq_if_modifyHead,
    if_neg (by simp [inner])]
  rfl

theorem IsDirective.isSignificant (h : p.IsDirective d) :
    p.isSignificant = true ∧ p.isNewline = false := by
  rw [Piece.isSignificant, Piece.isNewline, h.1]
  exact ⟨rfl, rfl⟩

/-- The rows up to the END are those of the pieces up to the end of its line. -/
theorem rows_splitEnd (ended : Bool) (pieces : List Piece) : rows (splitEnd ended pieces).1 =
    if ended then (rows pieces).take 1 else Line.upToEnd (rows pieces) := by
  induction pieces generalizing ended with
  | nil => cases ended <;> simp [splitEnd, rows, Line.upToEnd]
  | cons p rest ih =>
      rw [splitEnd]
      by_cases feed : p.isNewline = true
      · have plain : ¬ p.IsDirective .stop := fun own => by simp [own.isSignificant.2] at feed
        cases ended with
        | true =>
            rw [feed, rows_cons_of_isNewline feed]
            rfl
        | false => simp [feed, plain, rows_cons_of_isNewline feed, ih, Line.upToEnd]
      · have inner := Bool.eq_false_of_not_eq_true feed
        simp only [inner, Bool.and_false, Bool.false_eq_true, if_false]
        by_cases kept : p.isSignificant = true
        · obtain ⟨row, others, split⟩ := List.exists_cons_of_ne_nil
            (List.splitOnP_ne_nil isNewline (rest.filter isSignificant))
          have split : rows rest = row :: others := split
          rw [rows_cons inner kept, rows_cons inner kept, ih, split]
          cases ended with
          | true => simp
          | false =>
              by_cases stop : p.IsDirective .stop
              · simp [stop, Line.upToEnd]
              · have same : (∃ q ∈ p :: row, q.IsDirective .stop) ↔
                    ∃ q ∈ row, q.IsDirective .stop := by simp [stop]
                simp only [stop, decide_false, Bool.or_self, Bool.false_eq_true, if_false,
                  Line.upToEnd, same, List.modifyHead_cons]
                split <;> rfl
        · have blank := Bool.eq_false_of_not_eq_true kept
          have plain : ¬ p.IsDirective .stop := fun own => kept own.isSignificant.1
          rw [rows_cons_of_not_isSignificant blank, rows_cons_of_not_isSignificant blank, ih]
          simp [plain]

theorem upToEnd_rows (pieces : List Piece) :
    Line.upToEnd (rows pieces) = rows (splitEnd false pieces).1 := by
  rw [rows_splitEnd, if_neg Bool.false_ne_true]

theorem rows_of_renames (h : List.Forall₂ (Renames ρ) pieces others) :
    List.Forall₂ (List.Forall₂ (Renames ρ)) (rows pieces) (rows others) := by
  refine forall₂_splitOnP isNewline Renames.isNewline (List.rel_filter ?_ h)
  intro p q renames
  simp only [renames.isSignificant]

/-- A piece of the program that says something stands in one of the rows. -/
theorem exists_row (member : p ∈ pieces) (kept : p.isSignificant = true)
    (inner : p.isNewline = false) : ∃ row ∈ rows pieces, p ∈ row := by
  have inside : p ∈ (rows pieces).flatten := by
    rw [rows, flatten_splitOnP, List.mem_filter, List.mem_filter]
    exact ⟨⟨member, kept⟩, by rw [inner]; rfl⟩
  exact List.mem_flatten.mp inside

end Rows

end Piece

namespace Entry

/-- The entry defines the label, or an operand of it is the label. -/
def Names (e : Entry) (name : Label) : Prop :=
  e.label = some name ∨ .datum (.label name) ∈ e.act.values

end Entry

namespace Piece

variable {ρ : Label → Label} {p q : Piece} {v : OperandValue} {m : Mnemonic} {d : Directive}
  {n : Int} {characters : List Word}

theorem IsMnemonic.not_isLabel (h : p.IsMnemonic m) : ¬ p.IsLabel := fun own =>
  nomatch h.2.symm.trans own.2.1

theorem IsLiteral.not_isLabel (h : p.IsLiteral n) : ¬ p.IsLabel := fun own => h.not_isName own.1

theorem IsString.not_isLabel (h : p.IsString characters) : ¬ p.IsLabel := by
  intro own
  rcases own.1.kind with kind | kind <;> cases h.1.symm.trans kind

theorem Renames.eq_of_not_isLabel (h : Renames ρ p q) (plain : ¬ p.IsLabel) : q = p := by
  cases h with
  | label own => exact absurd own plain
  | same => rfl

theorem Renames.isOperand (h : Renames ρ p q) (given : p.IsOperand v) (definable : v.Definable) :
    q.IsOperand (v.rename ρ) := by
  cases given with
  | register name named =>
      have plain : ¬ p.IsLabel := fun own => nomatch named.symm.trans own.2.2
      rw [h.eq_of_not_isLabel plain]
      exact .register name named
  | label name other =>
      cases h with
      | label own named text =>
          rw [OperandValue.rename, Datum.rename, ← text]
          exact .label named.1 named.2.2
      | same plain => exact absurd ⟨name, definable _ rfl, other⟩ plain
  | literal number =>
      rw [h.eq_of_not_isLabel number.not_isLabel]
      exact .literal number

theorem isOperands_of_renames {pieces others : List Piece} {values : List OperandValue}
    (given : List.Forall₂ IsOperand pieces values) (definable : ∀ v ∈ values, v.Definable)
    (same : List.Forall₂ (Renames ρ) pieces others) :
    List.Forall₂ IsOperand others (values.map (·.rename ρ)) := by
  induction given generalizing others with
  | nil =>
      cases same
      exact .nil
  | cons own _ ih =>
      obtain ⟨first, definable⟩ := List.forall_mem_cons.mp definable
      cases same with
      | cons renames later => exact .cons (renames.isOperand own first) (ih definable later)

end Piece

namespace Entry

variable {ρ : Label → Label} {e : Entry} {row row' front : List Piece} {p : Piece} {act : Act}
  {name : Option Label}

/-- A label in a row is the one that the entry defines, or an operand of it. -/
theorem Writes.names (h : e.Writes p) (label : p.IsLabel) : e.Names p.text := by
  cases h with
  | label _ named => exact .inl named
  | colon mark => rcases label.1.kind with kind | kind <;> cases mark.symm.trans kind
  | mnemonic own => exact absurd label own.not_isLabel
  | directive own => exact absurd own label.1.not_isDirective
  | operand own used =>
      cases own with
      | register _ named => cases named.symm.trans label.2.2
      | label => exact .inr used
      | literal number => exact absurd label number.not_isLabel
  | word own =>
      obtain ⟨n, number, -⟩ := own
      exact absurd label number.not_isLabel
  | string own => exact absurd label own.not_isLabel

theorem Labels.renames (h : Labels front name)
    (same : List.Forall₂ (Piece.Renames ρ) front row') : Labels row' (name.map ρ) := by
  have label {p q : Piece} (own : p.IsLabel) (renames : Piece.Renames ρ p q) :
      q.IsLabel ∧ (some p.text).map ρ = some q.text := by
    cases renames with
    | label _ other text => exact ⟨other, congrArg some text.symm⟩
    | same plain => exact absurd own plain
  cases h with
  | none =>
      cases same
      exact .none
  | bare own =>
      rcases same with _ | ⟨first, _ | _⟩
      obtain ⟨named, text⟩ := label own first
      rw [text]
      exact .bare named
  | colon own mark =>
      rcases same with _ | ⟨first, _ | ⟨second, _ | _⟩⟩
      obtain ⟨named, text⟩ := label own first
      have plain : ¬ Piece.IsLabel _ := fun other => by
        rcases other.1.kind with kind | kind <;> cases mark.symm.trans kind
      rw [second.eq_of_not_isLabel plain, text]
      exact .colon named mark

theorem Acts.renames (h : Acts Piece.IsDatum row act) (definable : ∀ v ∈ act.values, v.Definable)
    (same : List.Forall₂ (Piece.Renames ρ) row row') : Acts Piece.IsDatum row' (act.rename ρ) := by
  have word {p q : Piece} {w : Word} (given : p.IsWord w) (renames : Piece.Renames ρ p q) :
      q.IsWord w := by
    obtain ⟨n, number, value⟩ := given
    rw [renames.eq_of_not_isLabel number.not_isLabel]
    exact ⟨n, number, value⟩
  cases h with
  | nothing =>
      cases same
      exact .nothing
  | @instruction p m pieces values head given =>
      obtain ⟨q, others, first, later, rfl⟩ := List.forall₂_cons_left_iff.mp same
      rw [first.eq_of_not_isLabel head.not_isLabel]
      exact .instruction head (Piece.isOperands_of_renames given definable later)
  | origin head given =>
      rcases same with _ | ⟨first, _ | ⟨second, _ | _⟩⟩
      exact .origin (first.isDirective_iff.mpr head) (word given second)
  | stop head =>
      rcases same with _ | ⟨first, _ | _⟩
      exact .stop (first.isDirective_iff.mpr head)
  | fill head given =>
      rcases same with _ | ⟨first, _ | ⟨second, _ | _⟩⟩
      exact .fill (first.isDirective_iff.mpr head)
        (second.isOperand given (definable _ List.mem_cons_self))
  | block head given =>
      rcases same with _ | ⟨first, _ | ⟨second, _ | _⟩⟩
      exact .block (first.isDirective_iff.mpr head) (word given second)
  | string head given =>
      rcases same with _ | ⟨first, _ | ⟨second, _ | _⟩⟩
      rw [second.eq_of_not_isLabel given.not_isLabel]
      exact .string (first.isDirective_iff.mpr head) given

/-- A row with other labels gives the entry with these names. -/
theorem Of.renames (h : e.Of Piece.IsDatum row) (definable : ∀ v ∈ e.act.values, v.Definable)
    (same : List.Forall₂ (Piece.Renames ρ) row row') : (e.rename ρ).Of Piece.IsDatum row' := by
  obtain ⟨front, back, rfl, labels, acts⟩ := h
  have first := List.forall₂_take_append _ _ _ same.flip
  have later := List.forall₂_drop_append _ _ _ same.flip
  exact ⟨_, _, (List.take_append_drop ..).symm, labels.renames first.flip,
    acts.renames definable later.flip⟩

theorem forall₂_of_renames {rows rows' : List (List Piece)} {entries : List Entry}
    (told : List.Forall₂ (fun row e => Of Piece.IsDatum row e) rows entries)
    (definable : ∀ e ∈ entries, ∀ v ∈ e.act.values, v.Definable)
    (same : List.Forall₂ (List.Forall₂ (Piece.Renames ρ)) rows rows') :
    List.Forall₂ (fun row e => Of Piece.IsDatum row e) rows' (entries.map (rename ρ)) := by
  induction told generalizing rows' with
  | nil =>
      cases same
      exact .nil
  | cons own _ ih =>
      obtain ⟨first, definable⟩ := List.forall_mem_cons.mp definable
      cases same with
      | cons renames later => exact .cons (own.renames first renames) (ih definable later)

end Entry

variable {ρ : Label → Label} {source : List Char} {entries : List Entry} {program : Program}

/-- The lines of the source with other labels say the same with these names. -/
theorem told_renameLabels (told : Entry.Told Piece.IsDatum source entries)
    (definable : ∀ e ∈ entries, ∀ v ∈ e.act.values, v.Definable)
    (valid : ∀ e ∈ entries, ∀ name, e.Names name → Label.Valid (ρ name)) :
    Entry.Told Piece.IsDatum (renameLabels ρ source) (entries.map (Entry.rename ρ)) := by
  have cut := Piece.cut_ofText source
  have dash := Piece.startsWith_dash_splitEnd cut false
  have whole := Piece.splitEnd_append false (Piece.ofText source)
  have ending {others : List Piece} (renames : List.Forall₂ (Piece.Renames ρ)
      (Piece.splitEnd false (Piece.ofText source)).1 others) := Piece.splitEnd_of_renames renames
  rw [Entry.Told, Piece.upToEnd_rows] at told
  rw [renameLabels]
  generalize Piece.splitEnd false (Piece.ofText source) = parts at dash whole ending told ⊢
  obtain ⟨live, dead⟩ := parts
  rw [← whole] at cut
  obtain ⟨front, back⟩ := Piece.cut_append.mp cut
  rw [List.append_nil] at front
  have writes {p : Piece} (member : p ∈ live) (kept : p.isSignificant = true)
      (inner : p.isNewline = false) : ∃ e ∈ entries, e.Writes p := by
    obtain ⟨row, inside, own⟩ := Piece.exists_row member kept inner
    obtain ⟨e, listed, given⟩ := Stage.exists_of_forall₂_left told inside
    exact ⟨e, listed, Entry.Of.writes given own⟩
  have known : ∀ p ∈ live, p.kind ≠ .unknown := by
    intro p member unknown
    obtain ⟨e, -, own⟩ := writes member (by rw [Piece.isSignificant, unknown]; rfl)
      (by rw [Piece.isNewline, unknown]; rfl)
    exact own.known.1 unknown
  obtain ⟨live', renames⟩ : ∃ live', List.Forall₂ (Piece.Renames ρ) live live' := by
    refine Stage.exists_forall₂ fun p member => Piece.exists_renames fun label => ?_
    obtain ⟨e, listed, own⟩ := writes member label.isSignificant label.isNewline
    exact valid e listed p.text (own.names label)
  have cut' : Piece.Cut [] (live' ++ dead) := Piece.cut_append.mpr
    ⟨by simpa using Piece.cut_of_renames renames front known dash, back⟩
  have text : live.flatMap (Piece.relabel ρ) ++ Piece.join dead = Piece.join (live' ++ dead) := by
    rw [Piece.join_append, Piece.join_eq_of_renames renames]
  rw [Entry.Told, text, Piece.ofText_join cut', Piece.upToEnd_rows, ending renames]
  exact Entry.forall₂_of_renames told definable (Piece.rows_of_renames renames)

/-- Label names are only names: under other valid names, no two of them the same, a source that
assembles does so with the same origin and words, and each label has its address. -/
theorem assemble_renameLabels (source : List Char) (ρ : Label → Label) (program : Program)
    (assembled : assemble source = .ok program)
    (valid : ∀ e ∈ program.symbols.entries, Label.Valid (ρ e.1))
    (apart : Set.InjOn ρ {name | name ∈ program.symbols.entries.map Prod.fst}) :
    (∃ entries, Entry.Told Piece.IsDatum source entries ∧
      Entry.Told Piece.IsDatum (renameLabels ρ source) (entries.map (Entry.rename ρ))) ∧
    ∃ renamed, assemble (renameLabels ρ source) = .ok renamed ∧ renamed.origin = program.origin ∧
      renamed.words = program.words ∧
        renamed.symbols.entries = program.symbols.entries.map fun e => (ρ e.1, e.2) := by
  obtain ⟨l, listed, programmed⟩ := assemble_eq_ok_iff.mp assembled
  obtain ⟨entries, told, formed, held⟩ := holds_of_ofText listed
  have symbols : program.symbols = l.symbols := by
    obtain ⟨wss, -, rfl⟩ := Listing.program_eq_ok_iff.mp programmed
    rfl
  rw [symbols] at valid apart
  have named : ∀ e ∈ entries, ∀ name, e.Names name → Label.Valid (ρ name) := by
    intro e member name names
    have known : name ∈ l.symbols.entries.map Prod.fst := by
      rcases names with own | used
      · rw [held.map_fst_entries]
        exact List.mem_filterMap.mpr ⟨e, member, own⟩
      · obtain ⟨a, found⟩ := held.exists_find? programmed member used
        by_contra unknown
        cases found.symm.trans (SymbolTable.find?_eq_none_iff.mpr unknown)
    obtain ⟨x, inside, rfl⟩ := List.mem_map.mp known
    exact valid x inside
  have told' := told_renameLabels told (held.definable programmed told) named
  have distinct : Set.InjOn ρ {name | name ∈ (Entry.body entries).filterMap Entry.label} := by
    rwa [Entry.filterMap_label_body, ← held.map_fst_entries]
  obtain ⟨l', listed', origin, held'⟩ := exists_listing_of_formed told' (formed.rename distinct)
  obtain ⟨renamed, programmed', same⟩ := held.program_rename held' origin apart programmed
  exact ⟨⟨entries, told, told'⟩, renamed, assemble_eq_ok_iff.mpr ⟨l', listed', programmed'⟩, same⟩

/-- A label in each of its places, and one that is only the mark of a hexadecimal number. -/
def countdownSource : List Char :=
  ".ORIG x3000\nloop: ADD R0,R0,#-1\nBRp loop ; loop\nLD R1,x\nx .FILL loop\n.END\nloop ?".toList

def countdownProgram : Program where
  origin := 0x3000
  words := [0x103F, 0x03FE, 0x2200, 0x3000]
  symbols := ⟨[("loop".toList, 0x3000), ("x".toList, 0x3003)], by decide⟩

/-- One label gets a name that starts as a hexadecimal number does, the other one its old name. -/
def transferNames (name : Label) : Label :=
  if name = "loop".toList then "xfer".toList else "loop".toList

theorem assemble_renameLabels_countdown :
    assemble countdownSource = .ok countdownProgram ∧
      (∀ e ∈ countdownProgram.symbols.entries, Label.Valid (transferNames e.1)) ∧
      Set.InjOn transferNames {name | name ∈ countdownProgram.symbols.entries.map Prod.fst} ∧
      renameLabels transferNames countdownSource =
        (".ORIG x3000\nxfer: ADD R0,R0,#-1\nBRp xfer ; loop\nLD R1,loop\nloop .FILL xfer\n" ++
          ".END\nloop ?").toList ∧
      ∃ renamed, assemble (renameLabels transferNames countdownSource) = .ok renamed ∧
        renamed.words = countdownProgram.words ∧
          renamed.symbols.entries = [("xfer".toList, 0x3000), ("loop".toList, 0x3003)] := by
  have assembled : assemble countdownSource = .ok countdownProgram := rfl
  have valid : ∀ e ∈ countdownProgram.symbols.entries, Label.Valid (transferNames e.1) :=
    List.forall_mem_cons.mpr ⟨⟨_, rfl, rfl, rfl, rfl⟩,
      List.forall_mem_singleton.mpr ⟨_, rfl, rfl, rfl, rfl⟩⟩
  have apart : Set.InjOn transferNames
      {name | name ∈ countdownProgram.symbols.entries.map Prod.fst} := by
    have two : ∀ a ∈ ["loop".toList, "x".toList], ∀ b ∈ ["loop".toList, "x".toList],
        transferNames a = transferNames b → a = b := by decide
    exact fun a member b member' => two a member b member'
  obtain ⟨-, renamed, again, -, words, symbols⟩ :=
    assemble_renameLabels countdownSource transferNames countdownProgram assembled valid apart
  exact ⟨assembled, valid, apart, rfl, renamed, again, words, symbols⟩

end LC3
