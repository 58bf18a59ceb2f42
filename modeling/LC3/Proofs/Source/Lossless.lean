import LC3.Proofs.Source.Numbering

/-!
Nothing of a source is lost in its tokens. Read one after another until the end of the file, they
stand side by side from the first byte to the last, and each of them alone is read as itself. Main
statement: `lossless_tokenize`.
-/

namespace LC3

/-- The text from a place in it on. -/
theorem dropBytes_append (s t : List Char) : dropBytes (byteLength s) (s ++ t) = t := by
  induction s with
  | nil => exact dropBytes.eq_1 t
  | cons c s ih =>
      obtain ⟨n, size, rest⟩ := exists_byteLength_cons c s
      rw [size, List.cons_append, dropBytes, rest, ih]

theorem Span.slice_append (before text after : List Char) :
    (⟨byteLength before, byteLength text⟩ : Span).slice (before ++ text ++ after) = text := by
  rw [slice, List.append_assoc, dropBytes_append, takeBytes_append]

/-- The kind of the end of the file is left to the end of the file. -/
theorem Lexeme.kind_ne_endOfFile (c : Char) (rest : List Char) : (of c rest).kind ≠ .endOfFile := by
  intro h
  simp only [of, apply_ite Lexeme.kind, ite_eq_iff, reduceCtorEq, and_false, or_false] at h

namespace Cursor

/-- Read one after another until the end of the file comes, the tokens from here on are these. -/
inductive Yields : Cursor → List Token → Prop
  | ended {c} (eof : c.nextToken.1.kind = .endOfFile) : Yields c []
  | token {c tokens} (more : c.nextToken.1.kind ≠ .endOfFile)
      (rest : Yields c.nextToken.2 tokens) : Yields c (c.nextToken.1 :: tokens)

variable {c : Cursor}

theorem kind_nextToken_iff : c.nextToken.1.kind = .endOfFile ↔ c.rest = [] := by
  unfold nextToken
  split
  · next empty => exact iff_of_true rfl empty
  · next d rest some => exact iff_of_false (Lexeme.kind_ne_endOfFile d rest) (by rw [some]; simp)

/-- Every token that is read leaves fewer characters. -/
theorem yields_tokens (c : Cursor) : c.Yields c.tokens := by
  induction length : c.rest.length using Nat.strong_induction_on generalizing c with
  | _ n ih =>
      by_cases empty : c.rest = []
      · rw [tokens_of_rest_nil empty]
        exact .ended (kind_nextToken_iff.mpr empty)
      · rw [tokens_eq_cons empty]
        apply Yields.token (mt kind_nextToken_iff.mp empty)
        exact ih _ (length ▸ length_rest_nextToken empty) _ rfl

end Cursor

/-- What the tokens of a source owe to its text. -/
structure Lossless (source : List Char) : Prop where
  /-- Reading comes to the end of the file. -/
  ends : (Cursor.ofText source).Yields (tokenize source)
  nonempty : ∀ t ∈ tokenize source, 0 < t.span.length
  first : ∀ t after, tokenize source = t :: after → t.span.start = 0
  adjacent : ∀ before t u after, tokenize source = before ++ t :: u :: after →
    u.span.start = t.span.stop
  last : ∀ before t, tokenize source = before ++ [t] → t.span.stop = byteLength source
  /-- A token starts and stops between two characters, and its text is what stands there. -/
  boundaries : ∀ t ∈ tokenize source, ∃ before after, source = before ++ t.text ++ after ∧
    t.span.start = byteLength before ∧ t.span.stop = byteLength (before ++ t.text) ∧
      t.span.slice source = t.text
  joined : (tokenize source).flatMap (fun t => t.span.slice source) = source
  /-- The text of a token is that token and no other. -/
  again : ∀ t ∈ tokenize source, tokenize t.text = [{ t with start := 0 }]

variable {source : List Char} {t u : Token} {before after : List Token}

theorem exists_slice_of_mem_tokenize (h : t ∈ tokenize source) :
    ∃ before after, source = before ++ t.text ++ after ∧ t.span.start = byteLength before ∧
      t.span.stop = byteLength (before ++ t.text) ∧ t.span.slice source = t.text := by
  obtain ⟨before, after, whole, start, -⟩ := exists_of_mem_tokenize h
  refine ⟨before, after, whole, start, ?_, ?_⟩
  · rw [Span.stop, byteLength_append, ← start]
    rfl
  · rw [Token.span, start, whole]
    exact Span.slice_append before t.text after

theorem stop_of_tokenize (split : tokenize source = before ++ t :: after) :
    t.span.stop = byteLength (Piece.join ((before ++ [t]).map Token.piece)) := by
  have start := start_of_tokenize split
  rw [List.map_append, Piece.join_append, byteLength_append, ← start]
  simp [Span.stop, Token.span, Token.piece]

theorem start_eq_stop_of_tokenize (split : tokenize source = before ++ t :: u :: after) :
    u.span.start = t.span.stop := by
  have next : tokenize source = (before ++ [t]) ++ u :: after := by simp [split]
  rw [stop_of_tokenize split]
  exact start_of_tokenize next

theorem join_tokenize (source : List Char) : (tokenize source).flatMap Token.text = source := by
  have whole := Piece.join_ofText source
  rwa [Piece.join, Piece.ofText, List.flatMap_map] at whole

theorem tokenize_text (h : t ∈ tokenize source) : tokenize t.text = [{ t with start := 0 }] := by
  obtain ⟨before, after, -, -, piece⟩ := exists_of_mem_tokenize h
  have alone : Piece.Cut [] [t.piece] := ⟨piece.alone, trivial⟩
  have whole := Piece.tokens_join alone 0
  rw [Piece.join_cons, Piece.join_nil, List.append_nil] at whole
  exact whole

theorem lossless_tokenize (source : List Char) : Lossless source where
  ends := Cursor.yields_tokens (.ofText source)
  nonempty t member := by
    obtain ⟨before, after, -, -, c, more, text, -⟩ := exists_of_mem_tokenize member
    have text : t.text = c :: more := text
    have := c.utf8Size_pos
    simp only [Token.span, text, byteLength_cons]
    omega
  first t after split := by
    have split : tokenize source = [] ++ t :: after := split
    exact start_of_tokenize split
  adjacent before t u after := start_eq_stop_of_tokenize
  last before t split := by
    rw [stop_of_tokenize split, ← split]
    exact congrArg byteLength (Piece.join_ofText source)
  boundaries t member := exists_slice_of_mem_tokenize member
  joined := by
    refine Eq.trans (List.flatMap_congr fun t member => ?_) (join_tokenize source)
    obtain ⟨before, after, -, -, -, slice⟩ := exists_slice_of_mem_tokenize member
    exact slice
  again t member := tokenize_text member

end LC3
