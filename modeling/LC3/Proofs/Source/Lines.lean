import LC3.Proofs.Source.Pieces
import LC3.Source.Line

/-!
Lines put together from pieces. The lines of a text are the pieces between its line feeds, and a
line of words with blanks between them has these words as its tokens. Main statements:
`map_pieces_ofText`, `map_words_ofText`.
-/

namespace LC3
namespace Line

/-- Lines of pieces, with line feeds between them. -/
def pieces (first : List Piece) (later : List (List Piece)) : List Piece :=
  first ++ later.flatMap (.newline :: ·)

variable {tokens : List Token} {first : List Piece} {later : List (List Piece)}

theorem split_append {before after : List Token} (inner : ∀ t ∈ before, t.kind ≠ .newline) :
    split (before ++ after) = (before ++ (split after).1, (split after).2) := by
  induction before with
  | nil => rfl
  | cons t before ih =>
      obtain ⟨own, inner⟩ := List.forall_mem_cons.mp inner
      have later := ih inner
      simp only [split] at later
      simp only [split, List.cons_append, List.foldr_cons, later, own, if_false]

theorem split_cons_of_newline {t : Token} (h : t.kind = .newline) (rest : List Token) :
    split (t :: rest) = ([], (split rest).1 :: (split rest).2) := by
  simp only [split, List.foldr_cons, h, if_true]

theorem kind_ne_newline_of_map_piece (h : tokens.map Token.piece = first)
    (inner : ∀ p ∈ first, p.kind ≠ .newline) : ∀ t ∈ tokens, t.kind ≠ .newline := by
  subst h
  simpa [Token.piece] using inner

theorem map_piece_split (h : tokens.map Token.piece = pieces first later)
    (inner : ∀ line ∈ first :: later, ∀ p ∈ line, p.kind ≠ .newline) :
    (split tokens).1.map Token.piece = first ∧
      (split tokens).2.map (List.map Token.piece) = later := by
  induction later generalizing tokens first with
  | nil =>
      obtain ⟨own, -⟩ := List.forall_mem_cons.mp inner
      rw [pieces, List.flatMap_nil, List.append_nil] at h
      have whole : split (tokens ++ []) = (tokens ++ [], []) :=
        split_append (kind_ne_newline_of_map_piece h own)
      rw [List.append_nil] at whole
      rw [whole]
      exact ⟨h, rfl⟩
  | cons line later ih =>
      obtain ⟨own, inner⟩ := List.forall_mem_cons.mp inner
      rw [pieces, List.flatMap_cons, List.cons_append] at h
      obtain ⟨before, after, rfl, same, h⟩ := List.map_eq_append_iff.mp h
      obtain ⟨t, rest, rfl, feed, h⟩ := List.map_eq_cons_iff.mp h
      obtain ⟨first', later'⟩ := ih h inner
      have kind : t.kind = .newline := congrArg Piece.kind feed
      rw [split_append (kind_ne_newline_of_map_piece same own), split_cons_of_newline kind]
      exact ⟨by simpa using same, by simp [first', later']⟩

theorem filter_pieces : (pieces first later).filter Piece.isSignificant =
    pieces (first.filter Piece.isSignificant) (later.map (List.filter Piece.isSignificant)) := by
  have feed (line : List Piece) : (Piece.newline :: line).filter Piece.isSignificant =
      .newline :: line.filter Piece.isSignificant := List.filter_cons_of_pos rfl
  simp only [pieces, List.filter_append, List.filter_flatMap, feed, List.flatMap_map]

theorem map_tokens_ofTokens (tokens : List Token) : (ofTokens tokens).map Line.tokens =
    (split (tokens.filter Token.isSignificant)).1 ::
      (split (tokens.filter Token.isSignificant)).2 := by
  simp only [ofTokens, List.map_map, Function.comp_def]
  exact List.zipIdx_map_fst ..

/-- The lines of a text are the lines of its pieces, without blanks and comments. -/
theorem map_pieces_ofText (cut : Piece.Cut [] (pieces first later))
    (inner : ∀ line ∈ first :: later, ∀ p ∈ line, p.kind ≠ .newline) :
    ((ofText (Piece.join (pieces first later))).map Line.tokens).map (List.map Token.piece) =
      (first :: later).map (List.filter Piece.isSignificant) := by
  have significant :
      ((tokenize (Piece.join (pieces first later))).filter Token.isSignificant).map Token.piece =
      pieces (first.filter Piece.isSignificant) (later.map (List.filter Piece.isSignificant)) := by
    conv => rhs; rw [← filter_pieces, ← Piece.map_piece_tokenize cut, List.filter_map]
    rfl
  have plain : ∀ line ∈ (first :: later).map (List.filter Piece.isSignificant), ∀ p ∈ line,
      p.kind ≠ .newline := by
    intro _ member p inside
    obtain ⟨line, source, rfl⟩ := List.mem_map.mp member
    exact inner line source p (List.mem_of_mem_filter inside)
  obtain ⟨same, others⟩ := map_piece_split significant plain
  rw [ofText, map_tokens_ofTokens, List.map_cons, same, others, List.map_cons]

/-- A head and operands on one line, with blanks before the operands. -/
def written (head : Piece) (operands : List (List Char × Piece)) : List Piece :=
  head :: operands.flatMap fun o => [⟨.whitespace, o.1⟩, o.2]

/-- Something that separates tokens of one line. -/
def IsBlank (text : List Char) : Prop := text ≠ [] ∧ text.all isSeparator = true

instance (text : List Char) : Decidable (IsBlank text) :=
  inferInstanceAs (Decidable (text ≠ [] ∧ text.all isSeparator = true))

/-- A token that does not take a blank along and does not end the line. -/
structure IsWord (p : Piece) : Prop where
  whole : p.Before []
  ends : p.kind.endsAtBoundary = true
  inner : p.kind ≠ .newline

instance (p : Piece) : Decidable (IsWord p) :=
  decidable_of_iff (p.Before [] ∧ p.kind.endsAtBoundary = true ∧ p.kind ≠ .newline)
    ⟨fun h => ⟨h.1, h.2.1, h.2.2⟩, fun h => ⟨h.whole, h.ends, h.inner⟩⟩

variable {p head : Piece} {operands : List (List Char × Piece)} {rest : List Char}

theorem IsWord.isSignificant (h : IsWord p) : p.isSignificant = true := by
  have ends := h.ends
  unfold Piece.isSignificant
  cases kind : p.kind <;> rw [kind] at ends <;> first | rfl | cases ends

theorem IsBlank.boundary {text : List Char} (h : IsBlank text) :
    Lexeme.Boundary (text ++ rest) := by
  obtain ⟨c, more, rfl⟩ := List.exists_cons_of_ne_nil h.1
  rintro _ ⟨⟩
  exact .inl (List.all_eq_true.mp h.2 c List.mem_cons_self)

@[simp] theorem written_cons (o : List Char × Piece) : written head (o :: operands) =
    head :: ⟨.whitespace, o.1⟩ :: written o.2 operands := rfl

/-- The line is cut at its words and blanks wherever it ends with a boundary. -/
theorem cut_written (word : IsWord head) (words : ∀ o ∈ operands, IsBlank o.1 ∧ IsWord o.2)
    (boundary : Lexeme.Boundary rest) : Piece.Cut rest (written head operands) := by
  induction operands generalizing head with
  | nil => exact ⟨word.whole.of_boundary word.ends boundary, trivial⟩
  | cons o operands ih =>
      obtain ⟨⟨blank, next⟩, words⟩ := List.forall_mem_cons.mp words
      rw [written_cons]
      refine ⟨word.whole.of_boundary word.ends ?_, ?_, ih next words⟩
      · rw [Piece.join_cons, List.append_assoc]
        exact blank.boundary
      · refine Piece.before_whitespace blank.1 (List.all_eq_true.mp blank.2) ?_
        rw [written, Piece.join_cons, List.append_assoc]
        exact next.whole.startsWith_isSeparator next.ends _

theorem filter_written (word : IsWord head) (words : ∀ o ∈ operands, IsWord o.2) :
    (written head operands).filter Piece.isSignificant = head :: operands.map Prod.snd := by
  induction operands generalizing head with
  | nil => exact List.filter_cons_of_pos word.isSignificant
  | cons o operands ih =>
      obtain ⟨next, words⟩ := List.forall_mem_cons.mp words
      rw [written_cons, List.filter_cons_of_pos word.isSignificant,
        List.filter_cons_of_neg Bool.false_ne_true, ih next words, List.map_cons]

theorem inner_of_mem_written (word : IsWord head) (words : ∀ o ∈ operands, IsWord o.2) :
    ∀ p ∈ written head operands, p.kind ≠ .newline := by
  induction operands generalizing head with
  | nil => simpa [written] using word.inner
  | cons o operands ih =>
      obtain ⟨next, words⟩ := List.forall_mem_cons.mp words
      rw [written_cons]
      exact List.forall_mem_cons.mpr ⟨word.inner, List.forall_mem_cons.mpr ⟨nofun, ih next words⟩⟩

theorem cut_pieces (cut : ∀ line ∈ first :: later, ∀ rest, Lexeme.Boundary rest →
    Piece.Cut rest line) : Piece.Cut [] (pieces first later) := by
  induction later generalizing first with
  | nil =>
      rw [pieces, List.flatMap_nil, List.append_nil]
      exact cut first List.mem_cons_self [] nofun
  | cons line later ih =>
      obtain ⟨own, others⟩ := List.forall_mem_cons.mp cut
      refine Piece.cut_append.mpr ⟨own _ ?_, Piece.before_newline _, ih others⟩
      rintro _ ⟨⟩
      exact .inr rfl

/-- A line of words with blanks between them. -/
structure Written where
  head : Piece
  operands : List (List Char × Piece)
  word : IsWord head
  words : ∀ o ∈ operands, IsBlank o.1 ∧ IsWord o.2

namespace Written

def pieces (l : Written) : List Piece := written l.head l.operands

/-- The words alone. -/
def bare (l : Written) : List Piece := l.head :: l.operands.map Prod.snd

def text (l : Written) : List Char := Piece.join l.pieces

/-- The text of some lines with line feeds between them. -/
def lines (first : Written) (later : List Written) : List Char :=
  first.text ++ later.flatMap fun l => '\n' :: l.text

theorem lines_eq (first : Written) (later : List Written) :
    lines first later = Piece.join (Line.pieces first.pieces (later.map pieces)) := by
  rw [lines, Line.pieces, Piece.join_append]
  congr 1
  induction later with
  | nil => rfl
  | cons l later ih =>
      rw [List.flatMap_cons, ih, List.map_cons, List.flatMap_cons, Piece.join_append]
      rfl

/-- The lines of such a text are the words of each line. -/
theorem map_words_ofText (first : Written) (later : List Written) :
    ((ofText (lines first later)).map Line.tokens).map (List.map Token.piece) =
      (first :: later).map bare := by
  have line : ∀ l ∈ first.pieces :: later.map pieces, ∃ w : Written, l = w.pieces := by
    simp
  rw [lines_eq, map_pieces_ofText, ← List.map_cons (f := pieces), List.map_map]
  · exact List.map_congr_left fun l _ => filter_written l.word fun o member => (l.words o member).2
  · refine cut_pieces fun l member rest boundary => ?_
    obtain ⟨w, rfl⟩ := line l member
    exact cut_written w.word w.words boundary
  · intro l member
    obtain ⟨w, rfl⟩ := line l member
    exact inner_of_mem_written w.word fun o member => (w.words o member).2

end Written
end Line
end LC3
