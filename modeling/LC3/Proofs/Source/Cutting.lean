import LC3.Proofs.Source.Lookahead

/-!
The one way in which a text is cut. Every text is cut into the pieces of its tokens, and a cut stays
one where the text behind it is taken away, so there is no other. Main statements: `cut_ofText`,
`eq_of_join_eq`.
-/

namespace LC3
namespace Piece

/-- The pieces of the tokens of a text. -/
def ofText (text : List Char) : List Piece := (tokenize text).map Token.piece

/-- The last piece is the opening quote of a string literal and nothing more. -/
def EndsOpen (pieces : List Piece) : Prop := ∃ p ∈ pieces.getLast?, p.text = ['"']

variable {p : Piece} {pieces others : List Piece} {text rest rest' : List Char} {start : Nat}

theorem exists_cut (text : List Char) : ∃ pieces, Cut [] pieces ∧ join pieces = text := by
  induction length : text.length using Nat.strong_induction_on generalizing text with
  | _ n ih =>
      cases text with
      | nil => exact ⟨[], trivial, rfl⟩
      | cons c rest =>
          have shorter : (rest.drop (Lexeme.of c rest).more).length < n := by
            rw [← length, List.length_drop, List.length_cons]
            omega
          obtain ⟨pieces, cut, whole⟩ := ih _ shorter _ rfl
          have inside : (Lexeme.of c rest).more ≤ rest.length := by
            rw [Lexeme.of_eq]
            exact Lexeme.Rule.more_le ..
          refine ⟨⟨(Lexeme.of c rest).kind, c :: rest.take (Lexeme.of c rest).more⟩ :: pieces,
            ⟨⟨c, _, rfl, ?_⟩, cut⟩, ?_⟩
          · rw [List.append_nil, whole, List.take_append_drop, List.length_take,
              Nat.min_eq_left inside]
          · rw [join_cons, whole, List.cons_append, List.take_append_drop]

theorem ofText_join (cut : Cut [] pieces) : ofText (join pieces) = pieces :=
  map_piece_tokenize cut

theorem cut_ofText (text : List Char) : Cut [] (ofText text) := by
  obtain ⟨pieces, cut, rfl⟩ := exists_cut text
  rwa [ofText_join cut]

@[simp] theorem join_ofText (text : List Char) : join (ofText text) = text := by
  obtain ⟨pieces, cut, rfl⟩ := exists_cut text
  rw [ofText_join cut]

theorem tokenize_eq_place (text : List Char) : tokenize text = place 0 (ofText text) := by
  have whole := tokens_join (cut_ofText text) 0
  rwa [join_ofText] at whole

theorem EndsOpen.cons (h : EndsOpen pieces) : EndsOpen (p :: pieces) := by
  obtain ⟨q, last, quote⟩ := h
  refine ⟨q, ?_, quote⟩
  rw [List.getLast?_cons, Option.mem_def.mp last]
  rfl

theorem eq_nil_of_join_eq_nil (cut : Cut rest pieces) (h : join pieces = []) : pieces = [] := by
  cases pieces with
  | nil => rfl
  | cons p pieces =>
      obtain ⟨⟨c, more, text, -⟩, -⟩ := cut
      rw [join_cons, text] at h
      cases h

/-- A cut in front of some text is one in front of a text that begins in the same way, in front of a
line feed and at the end of the text. -/
theorem Cut.congr (like : Lexeme.Likewise rest rest') (closed : rest = [] → ¬ EndsOpen pieces)
    (cut : Cut rest pieces) : Cut rest' pieces := by
  induction pieces with
  | nil => trivial
  | cons p pieces ih =>
      obtain ⟨⟨c, more, text, lexeme⟩, others⟩ := cut
      refine ⟨⟨c, more, text, ?_⟩, ih (fun none opened => closed none opened.cons) others⟩
      have quote : c = '"' → more ++ join pieces ++ rest ≠ [] := by
        rintro rfl empty
        obtain ⟨rfl, none, rfl⟩ : more = [] ∧ join pieces = [] ∧ rest = [] := by simpa using empty
        obtain rfl := eq_nil_of_join_eq_nil others none
        exact closed rfl ⟨p, rfl, text⟩
      rw [← List.append_assoc] at lexeme ⊢
      rw [Lexeme.of_append_congr like quote (by rw [lexeme]; simp), lexeme]

theorem Cut.alone (cut : Cut rest pieces) : Cut [] pieces := by
  by_cases none : rest = []
  · rwa [← none]
  · exact cut.congr (fun _ first => absurd first (by simp)) fun empty => absurd empty none

/-- Two cuts of one text are the same, whatever is behind the text. -/
theorem eq_of_join_eq (first : Cut rest pieces) (second : Cut rest' others)
    (same : join pieces = join others) : pieces = others := by
  rw [← ofText_join first.alone, same, ofText_join second.alone]

theorem place_append (start : Nat) (pieces others : List Piece) :
    place start (pieces ++ others) =
      place start pieces ++ place (start + byteLength (join pieces)) others := by
  induction pieces generalizing start with
  | nil => rfl
  | cons p pieces ih =>
      simp only [List.cons_append, place, ih, join_cons, byteLength_append, Nat.add_assoc]

theorem exists_of_mem_place {t : Token} (h : t ∈ place start pieces) :
    ∃ before after, pieces = before ++ t.piece :: after ∧
      t.start = start + byteLength (join before) := by
  induction pieces generalizing start with
  | nil => cases h
  | cons p pieces ih =>
      rcases List.mem_cons.mp h with rfl | later
      · exact ⟨[], pieces, rfl, rfl⟩
      · obtain ⟨before, after, rfl, place⟩ := ih later
        refine ⟨p :: before, after, rfl, ?_⟩
        rw [place, join_cons, byteLength_append, Nat.add_assoc]

end Piece

theorem byteLength_eq_zero_iff {text : List Char} : byteLength text = 0 ↔ text = [] := by
  cases text with
  | nil => exact iff_of_true rfl rfl
  | cons c text =>
      have := c.utf8Size_pos
      simp only [byteLength_cons, reduceCtorEq, iff_false]
      omega

/-- A place in a text divides it in one way. -/
theorem append_eq_append_of_byteLength_eq {a b a' b' : List Char} (same : a ++ b = a' ++ b')
    (place : byteLength a = byteLength a') : a = a' ∧ b = b' := by
  rcases List.append_eq_append_iff.mp same with ⟨more, rfl, rfl⟩ | ⟨more, rfl, rfl⟩
  all_goals
    rw [byteLength_append] at place
    obtain rfl := byteLength_eq_zero_iff.mp (by omega : byteLength more = 0)
    simp

end LC3
