import LC3.Proofs.Source.Rows

/-!
Texts that go on. Behind a line feed a text goes on with lines of its own, and behind an opening
quote at its end it goes on in its last line, so the lines before that one stay. Main statements:
`ofText_append_newline`, `exists_ofText_append_of_opensAtEnd`.
-/

namespace LC3

namespace Line

/-- Lines with these tokens, numbered from `n` on. -/
def numbered (n : Nat) : List (List Token) → List Line
  | [] => []
  | tokens :: rest => ⟨n, tokens⟩ :: numbered (n + 1) rest

/-- The line this many bytes and lines further on. -/
def shift (bytes lines : Nat) (line : Line) : Line :=
  ⟨lines + line.number, line.tokens.map (Token.shift bytes)⟩

/-- A line says the same wherever it stands. -/
theorem row_shift (bytes lines : Nat) (line : Line) : (line.shift bytes lines).row = line.row :=
  List.map_map

variable {n : Nat} {parts others : List (List Token)}

@[simp] theorem length_numbered : (numbered n parts).length = parts.length := by
  induction parts generalizing n with
  | nil => rfl
  | cons tokens rest ih => exact congrArg Nat.succ ih

theorem numbered_append :
    numbered n (parts ++ others) = numbered n parts ++ numbered (n + parts.length) others := by
  induction parts generalizing n with
  | nil => rfl
  | cons tokens rest ih =>
      rw [List.cons_append, numbered, ih, numbered, List.length_cons, Nat.add_right_comm,
        Nat.add_assoc]
      rfl

theorem numbered_shift (bytes lines : Nat) :
    numbered (lines + n) (parts.map (List.map (Token.shift bytes))) =
      (numbered n parts).map (shift bytes lines) := by
  induction parts generalizing n with
  | nil => rfl
  | cons tokens rest ih =>
      rw [List.map_cons, numbered, Nat.add_assoc, ih]
      rfl

theorem zipIdx_eq_numbered :
    (parts.zipIdx n).map (fun x => (⟨x.2, x.1⟩ : Line)) = numbered n parts := by
  induction parts generalizing n with
  | nil => rfl
  | cons tokens rest ih => exact congrArg _ ih

theorem ofText_eq_numbered (source : List Char) : ofText source =
    numbered 1 (((tokenize source).filter Token.isSignificant).splitOnP Token.isNewline) := by
  rw [← split_eq_splitOnP, ← zipIdx_eq_numbered]
  rfl

/-- Behind a line feed that is a token there are the lines of the text behind it. -/
theorem ofText_append_newline {a : List Char} (closed : ¬ OpensAtEnd a) (b : List Char) :
    ofText (a ++ '\n' :: b) =
      ofText a ++ (ofText b).map (shift (byteLength a + 1) (ofText a).length) := by
  have kept (t : Token) : (t.shift (byteLength a + 1)).isSignificant = t.isSignificant := rfl
  have feeds (t : Token) : (t.shift (byteLength a + 1)).isNewline = t.isNewline := rfl
  have later : (((tokenize b).map (Token.shift (byteLength a + 1))).filter
      Token.isSignificant).splitOnP Token.isNewline =
      (((tokenize b).filter Token.isSignificant).splitOnP Token.isNewline).map
        (List.map (Token.shift (byteLength a + 1))) := by
    rw [List.filter_map]
    exact (map_splitOnP (Token.shift (byteLength a + 1)) Token.isNewline _).symm
  rw [ofText_eq_numbered, (tokenize_append_newline_iff a b).mpr closed, List.filter_append,
    List.filter_cons_of_pos (by rfl), List.splitOnP_append_cons _ _ rfl, later, numbered_append,
    ofText_eq_numbered a, ofText_eq_numbered b, ← numbered_shift, length_numbered, Nat.add_comm 1]

end Line

variable {source : List Char}

/-- Behind an opening quote at the end of a text the pieces before the quote stay. -/
theorem Piece.ofText_append_of_endsOpen (opened : EndsOpen (ofText source)) :
    ∃ init, ofText source = init ++ [⟨.stringLiteral false, ['"']⟩] ∧
      ∀ more, ofText (source ++ more) = init ++ ofText ('"' :: more) := by
  obtain ⟨⟨kind, text⟩, last, rfl⟩ := opened
  obtain ⟨init, split⟩ := List.getLast?_eq_some_iff.mp last
  have cut := cut_ofText source
  have whole := join_ofText source
  rw [split, join_append, join_cons, join_nil, List.append_nil] at whole
  rw [split, cut_append] at cut
  obtain ⟨front, ⟨c, rest, text, lexeme⟩, -⟩ := cut
  obtain ⟨rfl, rfl⟩ := List.cons.inj text
  obtain rfl : .stringLiteral false = kind := congrArg Lexeme.kind lexeme
  refine ⟨init, split, fun more => ?_⟩
  have like : Lexeme.Likewise ['"'] ('"' :: more) := fun c first => .inr first
  have cut : Cut [] (init ++ ofText ('"' :: more)) := by
    rw [cut_append, join_ofText, List.append_nil]
    exact ⟨front.congr like (fun none => by cases none), cut_ofText _⟩
  have same := ofText_join cut
  rwa [join_append, join_ofText, ← List.singleton_append, ← List.append_assoc, whole] at same

theorem OpensAtEnd.getLast? (opened : OpensAtEnd source) : source.getLast? = some '"' := by
  obtain ⟨init, split, -⟩ := Piece.ofText_append_of_endsOpen (Piece.endsOpen_ofText_iff.mpr opened)
  have whole := Piece.join_ofText source
  rw [split, Piece.join_append] at whole
  simp [← whole]

/-- A text that ends with an opening quote goes on in its last line. Where that is all there is, the
literal is in the line and has no end. -/
theorem Line.exists_ofText_append_of_opensAtEnd (opened : OpensAtEnd source) :
    ∃ before, (∀ more, ∃ later, ofText (source ++ more) = before ++ later) ∧
      ∀ more text, Piece.ofText ('"' :: more) = [⟨.stringLiteral false, text⟩] →
        ∃ line, ofText (source ++ more) = before ++ [line] ∧
          ∃ t ∈ line.tokens, t.kind = .stringLiteral false := by
  obtain ⟨init, -, parts⟩ := Piece.ofText_append_of_endsOpen (Piece.endsOpen_ofText_iff.mpr opened)
  obtain ⟨before, front, lines⟩ := exists_splitOnP_front Token.isNewline
    ((Piece.place 0 init).filter Token.isSignificant)
  have place (more : List Char) : (tokenize (source ++ more)).filter Token.isSignificant =
      (Piece.place 0 init).filter Token.isSignificant ++ (Piece.place
        (0 + byteLength (Piece.join init)) (Piece.ofText ('"' :: more))).filter
          Token.isSignificant := by
    rw [Piece.tokenize_eq_place, parts, Piece.place_append, List.filter_append]
  refine ⟨numbered 1 before, fun more => ?_, fun more text alone => ?_⟩
  · obtain ⟨back, after, rest⟩ := List.exists_cons_of_ne_nil (List.splitOnP_ne_nil Token.isNewline
      ((Piece.place (0 + byteLength (Piece.join init)) (Piece.ofText ('"' :: more))).filter
        Token.isSignificant))
    refine ⟨numbered (1 + before.length) ((front ++ back) :: after), ?_⟩
    rw [ofText_eq_numbered, place, lines _ _ _ rest, numbered_append]
  · have last : ofText (source ++ more) = numbered 1 before ++ [⟨1 + before.length,
        front ++ [⟨.stringLiteral false, 0 + byteLength (Piece.join init), text⟩]⟩] := by
      rw [ofText_eq_numbered, place, alone, lines _ _ [] rfl, numbered_append]
      rfl
    exact ⟨_, last, _, List.mem_append_right _ List.mem_cons_self, rfl⟩

end LC3
