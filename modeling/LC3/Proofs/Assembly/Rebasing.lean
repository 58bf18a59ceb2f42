import LC3.Proofs.Assembly.Acceptance
import LC3.Proofs.Source.Replacement

/-!
Sources with another origin. A source that is listed has one literal for its origin, in the first
line with tokens, and where nothing but this literal changes, the lines give the same entries but for
the origin. Main statements: `exists_originLiteral`, `exists_told_of_rebases`.
-/

namespace LC3

/-- The literal of the origin: the operand of an ORIG with only empty lines before its own. -/
def OriginLiteral (source : List Char) (t : Token) : Prop :=
  ∃ before line after label head, Line.ofText source = before ++ line :: after ∧
    (∀ l ∈ before, l.tokens = []) ∧
    Clause.ofTokens line.tokens = .ok (.directive label head .origin [t])

/-- The literal of the origin stands between two texts, and another token of value `b` would. -/
structure Rebases (before after : List Char) (t t' : Token) (b : Word) : Prop where
  literal : OriginLiteral (before ++ t.text ++ after) t
  place : t.Between before after
  place' : t'.Between before after
  value : t'.piece.IsWord b

namespace Clause

variable {tokens operands : List Token} {label : Option Token} {head t : Token} {d : Directive}
  {e : Entry}

theorem exists_of_directive (h : ofTokens tokens = .ok (.directive label head d operands)) :
    ∃ front, tokens = front ++ head :: operands ∧
      Entry.Labels (front.map Token.piece) (label.map Token.text) ∧ head.piece.IsDirective d := by
  obtain ⟨⟨name, rest⟩, split, parsed⟩ := Stage.bind_eq_ok.mp h
  obtain ⟨front, rfl, labels⟩ := labels_of_splitLabel split
  cases ofRest_eq_ok_iff.mp parsed with
  | directive role named =>
      exact ⟨front, rfl, labels, Token.role_eq_directive_iff.mp role, named⟩

theorem exists_origin_of_of (h : ofTokens tokens = .ok (.directive label head .origin [t]))
    (own : e.Of Piece.IsDatum (tokens.map Token.piece)) :
    ∃ a, e = ⟨label.map Token.text, .origin a⟩ := by
  obtain ⟨clause, parsed, gives⟩ := exists_gives_iff.mpr own
  obtain rfl := Except.ok.inj (parsed.symm.trans h)
  cases gives with
  | origin => exact ⟨_, rfl⟩
  | statement makes => cases makes

end Clause

theorem Piece.IsWord.kind {p : Piece} {w : Word} (h : p.IsWord w) :
    p.isNewline = false ∧ p.isSignificant = true := by
  obtain ⟨v, literal, -⟩ := h
  cases literal <;> exact ⟨rfl, rfl⟩

theorem Line.upToEnd_blanks (n : Nat) (rows : List (List Piece)) :
    upToEnd (List.replicate n [] ++ rows) = List.replicate n [] ++ upToEnd rows := by
  induction n with
  | zero => rfl
  | succ n ih =>
      rw [List.replicate_succ, List.cons_append, upToEnd, if_neg (by simp), ih]
      rfl

namespace Entry

/-- Some blank entries, an origin and the entries behind it. -/
def opened (n : Nat) (label : Option Label) (rest : List Entry) (origin : Word) : List Entry :=
  List.replicate n blank ++ ⟨label, .origin origin⟩ :: rest

variable {e : Entry} {n : Nat} {entries rest : List Entry} {a b : Word} {label : Option Label}

theorem of_nil_iff : e.Of Piece.IsDatum [] ↔ e = blank := by
  constructor
  · rintro ⟨front, back, split, labels, acts⟩
    obtain ⟨rfl, rfl⟩ := List.append_eq_nil_iff.mp split.symm
    obtain ⟨label, act⟩ := e
    cases labels
    cases acts
    rfl
  · rintro rfl
    exact ⟨[], [], rfl, .none, .nothing⟩

theorem of_blank_iff {row : List Piece} : blank.Of Piece.IsDatum row ↔ row = [] := by
  constructor
  · rintro ⟨front, back, rfl, labels, acts⟩
    cases labels
    cases acts
    rfl
  · rintro rfl
    exact of_nil_iff.mpr rfl

theorem forall₂_blanks_iff {rows : List (List Piece)} :
    List.Forall₂ (fun row e => e.Of Piece.IsDatum row) (List.replicate n [] ++ rows) entries ↔
      ∃ rest, entries = List.replicate n blank ++ rest ∧
        List.Forall₂ (fun row e => e.Of Piece.IsDatum row) rows rest := by
  induction n generalizing entries with
  | zero => simp
  | succ n ih =>
      simp only [List.replicate_succ, List.cons_append, List.forall₂_cons_left_iff, of_nil_iff, ih]
      constructor
      · rintro ⟨_, _, rfl, ⟨rest, rfl, given⟩, rfl⟩
        exact ⟨rest, rfl, given⟩
      · rintro ⟨rest, rfl, given⟩
        exact ⟨_, _, rfl, ⟨rest, rfl, given⟩, rfl⟩

/-- Where the literal of the origin gives way to another, only the origin is told otherwise. -/
theorem exists_told_of_rebases {before after : List Char} {t t' : Token}
    (rebases : Rebases before after t t' b)
    (told : Told Piece.IsDatum (before ++ t.text ++ after) entries) :
    ∃ n label rest a, entries = opened n label rest a ∧
      Told Piece.IsDatum (before ++ t'.text ++ after) (opened n label rest b) := by
  obtain ⟨lines, line, tail, label, head, split, empty, parsed⟩ := rebases.literal
  obtain ⟨front, tokens, labels, origin⟩ := Clause.exists_of_directive parsed
  have concat (u : Token) : front ++ [head, u] = (front ++ [head]) ++ u :: [] := by simp
  have blanks : lines.map Line.row = List.replicate lines.length [] :=
    List.map_eq_replicate_iff.mpr fun l member => congrArg (List.map Token.piece) (empty l member)
  have rows := Line.rows_of_replace split (tokens.trans (concat t)) rebases.place.start
    rebases.place' rebases.value.kind.1 rebases.value.kind.2
  rw [blanks, ← concat] at rows
  rw [Told, ← Line.map_row_ofText, split, List.map_append, List.map_cons, blanks,
    Line.upToEnd_blanks] at told
  obtain ⟨others, rfl, given⟩ := forall₂_blanks_iff.mp told
  have own : (⟨label.map Token.text, .origin b⟩ : Entry).Of Piece.IsDatum
      ((front ++ [head, t']).map Token.piece) :=
    ⟨_, _, List.map_append, labels, .origin origin rebases.value⟩
  have live : ¬ ∃ p ∈ (front ++ [head, t']).map Token.piece, p.IsDirective .stop := by
    intro stop
    cases own.act_eq_stop_iff.mpr stop
  rw [Line.upToEnd] at given
  split at given
  · next stop =>
    obtain ⟨e, _, first, -, -⟩ := List.forall₂_cons_left_iff.mp given
    obtain ⟨a, rfl⟩ := Clause.exists_origin_of_of parsed first
    cases first.act_eq_stop_iff.mpr stop
  · obtain ⟨e, rest, first, later, rfl⟩ := List.forall₂_cons_left_iff.mp given
    obtain ⟨a, rfl⟩ := Clause.exists_origin_of_of parsed first
    refine ⟨lines.length, _, rest, a, rfl, ?_⟩
    rw [Told, rows, Line.upToEnd_blanks, Line.upToEnd, if_neg live]
    exact forall₂_blanks_iff.mpr ⟨_, rfl, .cons own later⟩

@[simp] theorem body_opened (n : Nat) (label : Option Label) (rest : List Entry) (origin : Word) :
    body (opened n label rest origin) = ⟨label, .origin origin⟩ :: rest := by
  induction n with
  | zero => exact List.dropWhile_cons_of_neg (by simp [blank])
  | succ n ih =>
      rw [opened, List.replicate_succ, List.cons_append, body, List.dropWhile_cons_of_pos (by simp)]
      exact ih

theorem origin_of_opened (h : Formed (opened n label rest a) b) : a = b := by
  obtain ⟨_, _, split, -⟩ := h.first
  rw [body_opened] at split
  cases split
  rfl

theorem Formed.exists_opened (h : Formed entries origin) :
    ∃ n label rest, entries = opened n label rest origin := by
  obtain ⟨label, rest, split, -⟩ := h.first
  have blanks : ∀ e ∈ entries.takeWhile (· = blank), e = blank := fun e member => by
    simpa using List.mem_takeWhile_imp member
  have whole : entries.takeWhile (· = blank) ++ body entries = entries :=
    List.takeWhile_append_dropWhile
  rw [List.eq_replicate_of_mem blanks, split] at whole
  exact ⟨_, label, rest, whole.symm⟩

/-- The origin is told by the first line with tokens. -/
theorem exists_line_of_opened {lines : List Line}
    (told : List.Forall₂ (fun row e => e.Of Piece.IsDatum row)
      (Line.upToEnd (lines.map Line.row)) (opened n label rest origin)) :
    ∃ before line after, lines = before ++ line :: after ∧ (∀ l ∈ before, l.tokens = []) ∧
      (⟨label, .origin origin⟩ : Entry).Of Piece.IsDatum line.row := by
  induction n generalizing lines with
  | zero =>
      cases lines with
      | nil => cases told
      | cons line tail =>
          refine ⟨[], line, tail, rfl, nofun, ?_⟩
          rw [List.map_cons, Line.upToEnd] at told
          split at told <;> exact (List.forall₂_cons.mp told).1
  | succ n ih =>
      cases lines with
      | nil => cases told
      | cons line tail =>
          rw [List.map_cons, Line.upToEnd] at told
          split at told
          · next stop =>
            have first := (List.forall₂_cons.mp told).1
            rw [of_blank_iff.mp first] at stop
            simp at stop
          · obtain ⟨first, later⟩ := List.forall₂_cons.mp told
            have empty : line.tokens = [] := List.map_eq_nil_iff.mp (of_blank_iff.mp first)
            obtain ⟨before, own, after, rfl, blanks, given⟩ := ih later
            exact ⟨line :: before, own, after, rfl, List.forall_mem_cons.mpr ⟨empty, blanks⟩, given⟩

end Entry

/-- A source that is listed has a literal for its origin. -/
theorem exists_originLiteral {source : List Char} {l : Listing}
    (listed : Listing.ofText source = .ok l) :
    ∃ before after t, source = before ++ t.text ++ after ∧ t.Between before after ∧
      OriginLiteral source t := by
  obtain ⟨entries, told, formed, -⟩ := holds_of_ofText listed
  obtain ⟨n, label, rest, rfl⟩ := formed.exists_opened
  rw [Entry.Told, ← Line.map_row_ofText] at told
  obtain ⟨lines, line, tail, split, empty, given⟩ := Entry.exists_line_of_opened told
  obtain ⟨clause, parsed, gives⟩ := Clause.exists_gives_iff.mpr given
  cases gives with
  | @origin label head tokens t a only read =>
      obtain rfl := Clause.single_eq_ok_iff.mp only
      obtain ⟨front, tokens, -⟩ := Clause.exists_of_directive parsed
      have inside : line ∈ Line.ofText source := by simp [split]
      have own : t ∈ line.tokens := by simp [tokens]
      have member := List.mem_of_mem_filter (Line.mem_filter_of_mem_ofText inside own).1
      obtain ⟨before, after, rfl, start, -⟩ := exists_of_mem_tokenize member
      exact ⟨before, after, t, rfl, ⟨member, start⟩, lines, line, tail, label, head, split, empty,
        parsed⟩

end LC3
