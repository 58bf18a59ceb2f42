import LC3.Proofs.Source.Rows

/-!
A token in the place of another. Where one token of a text gives way to a text that is one token
there, all other pieces stay, and so do all rows but for that token. Main statement:
`Line.rows_of_replace`.
-/

namespace LC3

theorem Piece.pairwise_place {rest : List Char} {pieces : List Piece} (cut : Cut rest pieces)
    (start : Nat) : (place start pieces).Pairwise fun t u => t.start < u.start := by
  induction pieces generalizing start with
  | nil => exact .nil
  | cons p pieces ih =>
      refine List.pairwise_cons.mpr ⟨fun u member => ?_, ih cut.2 _⟩
      obtain ⟨c, more, text, -⟩ := cut.1
      have := c.utf8Size_pos
      have later := le_start_of_mem_place member
      rw [text, byteLength_cons] at later
      dsimp only
      omega

/-- No token comes twice, as no other token starts where it does. -/
theorem nodup_tokenize (source : List Char) : (tokenize source).Nodup := by
  rw [Piece.tokenize_eq_place]
  refine (Piece.pairwise_place (Piece.cut_ofText source) 0).imp fun less same => ?_
  rw [same] at less
  exact Nat.lt_irrefl _ less

/-- An element that comes once is in the same part of two splits of a list. -/
theorem part_unique {α : Type} {before before' after after' : List (List α)} {part part' : List α}
    {x : α} (same : before ++ part :: after = before' ++ part' :: after')
    (once : (before ++ part :: after).flatten.Nodup) (inside : x ∈ part) (inside' : x ∈ part') :
    before = before' ∧ part = part' ∧ after = after' := by
  have apart {front middle back : List (List α)} {a b : List α}
      (split : before ++ part :: after = front ++ a :: (middle ++ b :: back)) (first : x ∈ a)
      (second : x ∈ b) : False := by
    rw [split, List.flatten_append, List.flatten_cons] at once
    obtain ⟨-, once, -⟩ := List.nodup_append.mp once
    exact (List.nodup_append.mp once).2.2 x first x (by simp [second]) rfl
  rcases List.append_eq_append_iff.mp same with ⟨middle, rfl, rest⟩ | ⟨middle, rfl, rest⟩
  · cases middle with
    | nil => exact ⟨by simp, List.cons.inj rest⟩
    | cons y middle =>
        obtain ⟨rfl, rfl⟩ := List.cons.inj rest
        exact (apart rfl inside inside').elim
  · cases middle with
    | nil =>
        obtain ⟨rfl, rfl⟩ := List.cons.inj rest
        exact ⟨by simp, rfl, rfl⟩
    | cons y middle =>
        obtain ⟨rfl, rfl⟩ := List.cons.inj rest
        exact (apart (List.append_assoc before' (part' :: middle) _) inside' inside).elim

/-- The text of the token is a token between two texts, this one. -/
structure Token.Between (before after : List Char) (t : Token) : Prop where
  member : t ∈ tokenize (before ++ t.text ++ after)
  start : t.start = byteLength before

variable {before after : List Char} {first later : List Token} {t t' : Token}

/-- The pieces on both sides of a token are those of the texts there. -/
theorem cuts_around (split : tokenize (before ++ t.text ++ after) = first ++ t :: later)
    (start : t.start = byteLength before) :
    (∃ rest, Piece.Cut rest (first.map Token.piece)) ∧ Piece.Cut [] (later.map Token.piece) ∧
      Piece.join (first.map Token.piece) = before ∧ Piece.join (later.map Token.piece) = after := by
  have cut := Piece.cut_ofText (before ++ t.text ++ after)
  have whole := Piece.join_ofText (before ++ t.text ++ after)
  rw [Piece.ofText, split, List.map_append, List.map_cons] at cut whole
  obtain ⟨front, -, back⟩ := Piece.cut_append.mp cut
  rw [Piece.join_append, Piece.join_cons, List.append_assoc] at whole
  obtain ⟨same, rest⟩ := append_eq_append_of_byteLength_eq whole
    ((start_of_tokenize split).symm.trans start)
  have own : t.piece.text = t.text := rfl
  rw [own, List.append_cancel_left_eq] at rest
  exact ⟨⟨_, front⟩, back, same, rest⟩

/-- No piece but that of the token changes where another stands in its place. -/
theorem ofText_of_between (split : tokenize (before ++ t.text ++ after) = first ++ t :: later)
    (start : t.start = byteLength before) (between : t'.Between before after) :
    Piece.ofText (before ++ t'.text ++ after) =
      first.map Token.piece ++ t'.piece :: later.map Token.piece := by
  obtain ⟨first', later', split'⟩ := List.append_of_mem between.member
  obtain ⟨⟨rest, front⟩, back, same, behind⟩ := cuts_around split start
  obtain ⟨⟨rest', front'⟩, back', same', behind'⟩ := cuts_around split' between.start
  rw [Piece.ofText, split', List.map_append, List.map_cons,
    Piece.eq_of_join_eq front' front (same'.trans same.symm),
    Piece.eq_of_join_eq back' back (behind'.trans behind.symm)]

namespace Line

/-- The tokens of lines are significant and end no line. -/
theorem mem_filter_of_mem_ofText {source : List Char} {line : Line}
    (inside : line ∈ ofText source) (member : t ∈ line.tokens) :
    t ∈ (tokenize source).filter Token.isSignificant ∧ t.isNewline = false := by
  have part : line.tokens ∈ (ofText source).map Line.tokens := List.mem_map_of_mem inside
  rw [map_tokens_ofText] at part
  have own := List.mem_flatten_of_mem part member
  rw [flatten_splitOnP, List.mem_filter] at own
  simpa using own

/-- The rows of a text in which another token stands for one of a line are those of the text, but
for that token. -/
theorem rows_of_replace {lines tail : List Line} {line : Line} {front back : List Token}
    (split : ofText (before ++ t.text ++ after) = lines ++ line :: tail)
    (tokens : line.tokens = front ++ t :: back) (start : t.start = byteLength before)
    (between : t'.Between before after) (inner : t'.piece.isNewline = false)
    (significant : t'.piece.isSignificant = true) :
    Piece.rows (Piece.ofText (before ++ t'.text ++ after)) =
      lines.map row ++ (front ++ t' :: back).map Token.piece :: tail.map row := by
  have inside : line ∈ ofText (before ++ t.text ++ after) := by
    rw [split]
    simp
  have own : t ∈ line.tokens := by simp [tokens]
  obtain ⟨kept, other⟩ := mem_filter_of_mem_ofText inside own
  obtain ⟨first, later, cut⟩ := List.append_of_mem (List.mem_of_mem_filter kept)
  have filtered : (tokenize (before ++ t.text ++ after)).filter Token.isSignificant =
      first.filter Token.isSignificant ++ t :: later.filter Token.isSignificant := by
    rw [cut, List.filter_append, List.filter_cons_of_pos (List.mem_filter.mp kept).2]
  obtain ⟨lines', front', back', tail', parts⟩ := exists_splitOnP_append Token.isNewline
    (first.filter Token.isSignificant) (later.filter Token.isSignificant)
  have whole : lines' ++ (front' ++ t :: back') :: tail' =
      lines.map Line.tokens ++ line.tokens :: tail.map Line.tokens := by
    rw [← parts t other, ← filtered, ← map_tokens_ofText, split, List.map_append, List.map_cons]
  have once : (lines' ++ (front' ++ t :: back') :: tail').flatten.Nodup := by
    rw [← parts t other, flatten_splitOnP, ← filtered]
    exact ((nodup_tokenize _).filter _).filter _
  obtain ⟨rfl, same, rfl⟩ := part_unique whole once (by simp) own
  rw [List.flatten_append, List.flatten_cons] at once
  have part := (List.nodup_append.mp (List.nodup_append.mp once).2.1).1
  rw [List.nodup_middle, List.nodup_cons, List.mem_append, not_or] at part
  obtain ⟨rfl, -, rfl⟩ :=
    (List.append_cons_inj_of_notMem part.1.1 part.1.2).mp (same.trans tokens)
  have rows := congrArg (List.map (List.map Token.piece)) (parts t' inner)
  rw [List.map_append, List.map_cons, List.map_map, List.map_map] at rows
  rw [Piece.rows, ofText_of_between cut start between, List.filter_append,
    List.filter_cons_of_pos (by exact significant), List.filter_map, List.filter_map,
    ← List.map_cons, ← List.map_append]
  exact (map_splitOnP Token.piece Piece.isNewline _).symm.trans rows

end Line
end LC3
