import LC3.Proofs.Source.Cutting

/-!
Line feeds and tokens. The tokens on both sides of a line feed are those of the two texts, and no
token has a line feed in it, unless a string literal opens at the very end of a line: it takes the
line feed along. Main statement: `tokenizedByLine`.
-/

namespace LC3
namespace Lexeme

variable {c : Char} {text rest : List Char}

theorem quoted_pos (some : rest ≠ []) : 0 < (quoted 0 rest).2 := by
  have spec := quoted_spec some
  generalize quoted 0 rest = result at spec
  cases spec with
  | closed => exact Nat.succ_pos _
  | opened nonempty => exact List.length_pos_of_ne_nil nonempty

theorem newline_not_mem_of_run {p : Char → Bool} (stop : p '\n' = false)
    (whole : run p text = text.length) : '\n' ∉ text := by
  intro member
  have same := (List.takeWhile_prefix p).eq_of_length whole
  have own := List.takeWhile_eq_self_iff.mp same _ member
  rw [stop] at own
  cases own

theorem newline_not_mem_of_signedRun {p : Char → Bool} (stop : p '\n' = false)
    (whole : signedRun p text = text.length) : '\n' ∉ text := by
  cases text with
  | nil => exact List.not_mem_nil
  | cons c text =>
      rw [signedRun] at whole
      split at whole
      · next sign =>
        have other : '\n' ≠ c := by
          rintro rfl
          rw [stop] at sign
          cases sign
        exact List.not_mem_cons_of_ne_of_not_mem other
          (newline_not_mem_of_run rfl (Nat.succ.inj whole))
      · exact newline_not_mem_of_run rfl whole

theorem newline_not_mem_of_quoted (whole : (quoted 0 text).2 = text.length) :
    '\n' ∉ text.tail := by
  by_cases some : text = []
  · rw [some]
    exact List.not_mem_nil
  · have spec := quoted_spec some
    generalize quoted 0 text = result at spec whole
    cases spec with
    | @closed body rest inside inner =>
        obtain rfl : rest = [] := List.eq_nil_of_length_eq_zero (by simpa using whole)
        exact inner
    | @opened line after some inner ends opened =>
        obtain rfl : after = [] := List.eq_nil_of_length_eq_zero (by simpa using whole)
        rwa [List.append_nil]

/-- A token that is the whole text has no line feed behind its first character, except a string
literal directly behind the quote. -/
theorem Rule.newline_of_mem {r : Rule} (feed : r.endsAtFeed = true)
    (whole : (r.lexeme text).more = text.length) (member : '\n' ∈ text) :
    r = .quoted ∧ '\n' ∉ text.tail := by
  cases r with
  | alone kind =>
      rw [List.eq_nil_of_length_eq_zero whole.symm] at member
      cases member
  | run kind p =>
      have stop : p '\n' = false := by simpa [endsAtFeed] using feed
      exact absurd member (newline_not_mem_of_run stop whole)
  | signed kind signs =>
      have stop : signs '\n' = false := by simpa [endsAtFeed] using feed
      exact absurd member (newline_not_mem_of_signedRun stop whole)
  | quoted => exact ⟨rfl, newline_not_mem_of_quoted whole⟩

end Lexeme

namespace Piece

variable {p : Piece} {pieces : List Piece} {rest : List Char}

theorem Before.alone (h : p.Before rest) : p.Before [] := by
  have cut : Cut rest [p] := ⟨h, trivial⟩
  exact cut.alone.1

theorem newline_of_before {more : List Char} (text : p.text = '\n' :: more) (h : p.Before rest) :
    p = newline := by
  obtain ⟨c, others, same, lexeme⟩ := h
  obtain ⟨rfl, rfl⟩ := List.cons.inj (text.symm.trans same)
  obtain ⟨kind, none⟩ := Lexeme.mk.inj lexeme
  obtain rfl := List.eq_nil_of_length_eq_zero none.symm
  obtain ⟨_, _⟩ := p
  cases text
  cases kind
  rfl

/-- A line feed is a piece on its own or stands directly behind the quote of a string literal. -/
theorem Before.newline_of_mem (h : p.Before rest) (member : '\n' ∈ p.text) :
    p = newline ∨ ∃ more, p.text = '"' :: '\n' :: more ∧ '\n' ∉ more := by
  obtain ⟨c, more, text, lexeme⟩ := h.alone
  by_cases first : c = '\n'
  · subst first
    exact .inl (newline_of_before text h)
  · rw [List.append_nil, Lexeme.of_eq] at lexeme
    have inside : '\n' ∈ more := by simpa [text, Ne.symm first] using member
    obtain ⟨quoted, alone⟩ := Lexeme.Rule.newline_of_mem (Lexeme.endsAtFeed_rule ..)
      (congrArg Lexeme.more lexeme) inside
    obtain rfl := Lexeme.eq_of_rule_eq_quoted quoted
    obtain ⟨d, others, rfl⟩ := List.exists_cons_of_ne_nil (List.ne_nil_of_mem inside)
    rcases List.mem_cons.mp inside with rfl | later
    · exact .inr ⟨others, text, alone⟩
    · exact absurd later alone

/-- The pieces on both sides of a line feed are those of the two texts, unless the text before it
ends with an opening quote. -/
theorem ofText_append_newline_iff (a b : List Char) :
    ofText (a ++ '\n' :: b) = ofText a ++ newline :: ofText b ↔ ¬ EndsOpen (ofText a) := by
  have behind : join (newline :: ofText b) ++ [] = '\n' :: b := by
    rw [join_cons, join_ofText, List.append_nil]
    rfl
  constructor
  · rintro same ⟨p, last, quote⟩
    have cut := cut_ofText (a ++ '\n' :: b)
    rw [same, cut_append, behind] at cut
    obtain ⟨init, split⟩ := List.getLast?_eq_some_iff.mp last
    rw [split, cut_append] at cut
    obtain ⟨c, more, text, lexeme⟩ := cut.1.2.1
    obtain ⟨rfl, rfl⟩ := List.cons.inj (quote.symm.trans text)
    have none : (Lexeme.quoted 0 ('\n' :: b)).2 = 0 := congrArg Lexeme.more lexeme
    have := Lexeme.quoted_pos (List.cons_ne_nil '\n' b)
    omega
  · intro closed
    have first : Cut ('\n' :: b) (ofText a) := by
      refine (cut_ofText a).congr ?_ fun _ => closed
      rintro _ ⟨⟩
      exact .inl rfl
    have cut : Cut [] (ofText a ++ newline :: ofText b) :=
      cut_append.mpr ⟨behind ▸ first, before_newline _, cut_ofText b⟩
    have whole := ofText_join cut
    rwa [join_append, join_ofText, ← List.append_nil (join (newline :: ofText b)), behind] at whole

end Piece

/-- The token this many bytes further on. -/
def Token.shift (n : Nat) (t : Token) : Token := { t with start := n + t.start }

theorem Piece.place_shift (n start : Nat) (pieces : List Piece) :
    place (n + start) pieces = (place start pieces).map (Token.shift n) := by
  induction pieces generalizing start with
  | nil => rfl
  | cons p pieces ih =>
      rw [place, place, Nat.add_assoc, ih]
      rfl

/-- The last token of the text is the opening quote of a string literal and nothing more. -/
def OpensAtEnd (text : List Char) : Prop := ∃ t ∈ (tokenize text).getLast?, t.text = ['"']

instance (text : List Char) : Decidable (OpensAtEnd text) :=
  inferInstanceAs (Decidable (∃ t ∈ (tokenize text).getLast?, t.text = ['"']))

theorem Piece.endsOpen_ofText_iff {text : List Char} :
    EndsOpen (ofText text) ↔ OpensAtEnd text := by
  simp only [EndsOpen, OpensAtEnd, ofText, List.getLast?_map, Option.mem_map]
  constructor
  · rintro ⟨_, ⟨t, last, rfl⟩, quote⟩
    exact ⟨t, last, quote⟩
  · rintro ⟨t, last, quote⟩
    exact ⟨_, ⟨t, last, rfl⟩, quote⟩

theorem tokenize_append_newline_iff (a b : List Char) :
    tokenize (a ++ '\n' :: b) = tokenize a ++
        ⟨.newline, byteLength a, ['\n']⟩ :: (tokenize b).map (Token.shift (byteLength a + 1)) ↔
      ¬ OpensAtEnd a := by
  have placed : tokenize a ++
      ⟨.newline, byteLength a, ['\n']⟩ :: (tokenize b).map (Token.shift (byteLength a + 1)) =
      Piece.place 0 (Piece.ofText a ++ .newline :: Piece.ofText b) := by
    rw [Piece.place_append, Piece.place, Piece.join_ofText, ← Piece.tokenize_eq_place,
      Piece.tokenize_eq_place b, ← Piece.place_shift, Nat.zero_add]
    rfl
  rw [placed, Piece.tokenize_eq_place, ← Piece.endsOpen_ofText_iff,
    ← Piece.ofText_append_newline_iff a b]
  constructor
  · intro same
    have pieces := congrArg (List.map Token.piece) same
    rwa [Piece.map_piece_place, Piece.map_piece_place] at pieces
  · exact congrArg _

/-- A token of a source is a piece of it in front of the rest. -/
theorem exists_of_mem_tokenize {source : List Char} {t : Token} (h : t ∈ tokenize source) :
    ∃ before after, source = before ++ t.text ++ after ∧ t.start = byteLength before ∧
      t.piece.Before after := by
  rw [Piece.tokenize_eq_place] at h
  obtain ⟨before, after, split, place⟩ := Piece.exists_of_mem_place h
  have cut := Piece.cut_ofText source
  have whole := Piece.join_ofText source
  rw [split, Piece.cut_append] at cut
  rw [split, Piece.join_append, Piece.join_cons, ← List.append_assoc] at whole
  exact ⟨_, _, whole.symm, by rw [place, Nat.zero_add], by simpa using cut.2.1⟩

/-- A string literal is read up to its closing quote or the end of its line. -/
theorem eq_of_quoted {t : Token} {before text : List Char} {result : Bool × Nat}
    (quoted : Lexeme.Quoted text result) (h : t ∈ tokenize (before ++ '"' :: text))
    (place : t.start = byteLength before) :
    t = ⟨.stringLiteral result.1, byteLength before, '"' :: text.take result.2⟩ := by
  obtain ⟨front, after, split, start, c, more, own, lexeme⟩ := exists_of_mem_tokenize h
  rw [List.append_assoc] at split
  obtain ⟨-, rest⟩ := append_eq_append_of_byteLength_eq split (place.symm.trans start)
  have own : t.text = c :: more := own
  rw [own, List.cons_append] at rest
  obtain ⟨rfl, rfl⟩ := List.cons.inj rest
  have same : (⟨.stringLiteral (Lexeme.quoted 0 (more ++ after)).1,
      (Lexeme.quoted 0 (more ++ after)).2⟩ : Lexeme) = ⟨t.kind, more.length⟩ := lexeme
  rw [quoted.quoted_eq, Lexeme.mk.injEq] at same
  obtain ⟨kind, start', text⟩ := t
  cases own
  rw [same.2, List.take_left, same.1]
  exact congrArg (Token.mk _ · _) place

/-- What the tokens of a source owe to its lines. -/
structure TokenizedByLine (source : List Char) : Prop where
  /-- The tokens on both sides of a line feed are those of the two texts, unless the text before it
  ends with an opening quote. -/
  append : ∀ a b, source = a ++ '\n' :: b →
    (tokenize source = tokenize a ++
        ⟨.newline, byteLength a, ['\n']⟩ :: (tokenize b).map (Token.shift (byteLength a + 1)) ↔
      ¬ OpensAtEnd a)
  /-- A line feed that is no token stands directly behind the opening quote of a literal. -/
  feeds : ∀ t ∈ tokenize source, t.kind ≠ .newline → '\n' ∈ t.text →
    ∃ more, t.text = '"' :: '\n' :: more ∧ '\n' ∉ more
  /-- Where the rest of its line closes a literal, it ends with the closing quote. -/
  closed : ∀ before body after, source = before ++ '"' :: (body ++ '"' :: after) →
    Literal.Body body → '\n' ∉ (body ++ ['"']).tail → ∀ t ∈ tokenize source,
      t.start = byteLength before →
        t = ⟨.stringLiteral true, byteLength before, '"' :: (body ++ ['"'])⟩
  /-- Where it does not, the literal is unterminated and ends with the line. -/
  opened : ∀ before line after, source = before ++ '"' :: (line ++ after) → line ≠ [] →
    '\n' ∉ line.tail → Lexeme.LineEnd after → ¬ Literal.Closes line → ∀ t ∈ tokenize source,
      t.start = byteLength before → t = ⟨.stringLiteral false, byteLength before, '"' :: line⟩

theorem tokenizedByLine (source : List Char) : TokenizedByLine source where
  append := by
    rintro a b rfl
    exact tokenize_append_newline_iff a b
  feeds t member other feed := by
    obtain ⟨before, after, -, -, piece⟩ := exists_of_mem_tokenize member
    refine (piece.newline_of_mem feed).resolve_left fun same => other ?_
    exact congrArg Piece.kind same
  closed := by
    rintro before body after rfl inside inner t member place
    rw [eq_of_quoted (.closed inside inner) member place]
    simp [List.take_append]
  opened := by
    rintro before line after rfl some inner ends opened t member place
    rw [eq_of_quoted (.opened some inner ends opened) member place, List.take_left]

/-- A quote at the end of its line takes the line feed along. -/
theorem tokenize_quote_newline : tokenize ['"', '\n'] ≠ tokenize ['"'] ++
    ⟨.newline, byteLength ['"'], ['\n']⟩ ::
      (tokenize []).map (Token.shift (byteLength ['"'] + 1)) := by
  decide

end LC3
