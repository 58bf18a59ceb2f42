import LC3.Proofs.Source.Lines
import LC3.Proofs.Source.Numbering

/-!
Rows: what lines say, without their places. The rows of a text are its pieces without blanks and
comments, split at the newlines, so a piece that ends no line stands in one row between pieces that
do not depend on it. Main statements: `map_row_ofText`, `exists_splitOnP_front`,
`exists_splitOnP_append`.
-/

namespace LC3
namespace Piece

/-- The pieces of each line, without blanks and comments. -/
def rows (pieces : List Piece) : List (List Piece) :=
  (pieces.filter isSignificant).splitOnP isNewline

end Piece

namespace Line

/-- The pieces of a line. -/
def row (line : Line) : List Piece := line.tokens.map Token.piece

theorem split_eq_splitOnP (tokens : List Token) :
    (split tokens).1 :: (split tokens).2 = tokens.splitOnP Token.isNewline := by
  induction tokens with
  | nil => rfl
  | cons t rest ih =>
      rw [List.splitOnP_cons_eq_if_modifyHead, ← ih]
      by_cases newline : t.kind = .newline
      · have feed : t.isNewline = true := beq_iff_eq.mpr newline
        rw [split_cons_of_newline newline, if_pos feed]
      · have inner : ∀ u ∈ [t], u.kind ≠ .newline := List.forall_mem_singleton.mpr newline
        have cons : split (t :: rest) = (t :: (split rest).1, (split rest).2) := split_append inner
        have other : ¬ t.isNewline = true := fun own => newline (beq_iff_eq.mp own)
        rw [cons, if_neg other, List.modifyHead_cons]

theorem map_tokens_ofText (source : List Char) : (ofText source).map Line.tokens =
    ((tokenize source).filter Token.isSignificant).splitOnP Token.isNewline := by
  rw [ofText, map_tokens_ofTokens, split_eq_splitOnP]

theorem map_splitOnP {α β : Type} (f : α → β) (p : β → Bool) (xs : List α) :
    (xs.splitOnP fun x => p (f x)).map (List.map f) = (xs.map f).splitOnP p := by
  induction xs with
  | nil => rfl
  | cons x rest ih =>
      rw [List.map_cons, List.splitOnP_cons_eq_if_modifyHead, List.splitOnP_cons_eq_if_modifyHead, ← ih]
      split
      · rfl
      · generalize List.splitOnP _ rest = parts
        cases parts <;> rfl

/-- The rows of a text are those of its pieces. -/
theorem map_row_ofText (source : List Char) :
    (ofText source).map row = Piece.rows (Piece.ofText source) := by
  have same : (ofText source).map row = ((ofText source).map Line.tokens).map (List.map _) :=
    (List.map_map ..).symm
  rw [same, map_tokens_ofText, Piece.rows, Piece.ofText, List.filter_map]
  exact map_splitOnP Token.piece Piece.isNewline _

end Line

variable {α : Type} (p : α → Bool)

theorem flatten_splitOnP (xs : List α) :
    (xs.splitOnP p).flatten = xs.filter fun x => !p x := by
  induction xs with
  | nil => rfl
  | cons x rest ih =>
      rw [List.splitOnP_cons_eq_if_modifyHead, List.filter_cons, ← ih]
      cases own : p x with
      | true => rfl
      | false =>
          obtain ⟨part, parts, split⟩ := List.exists_cons_of_ne_nil (List.splitOnP_ne_nil p rest)
          rw [split]
          rfl

/-- Lists that separate at the same places have related parts. -/
theorem forall₂_splitOnP {R : α → α → Prop} (same : ∀ {x y}, R x y → p y = p x) {xs ys : List α}
    (h : List.Forall₂ R xs ys) : List.Forall₂ (List.Forall₂ R) (xs.splitOnP p) (ys.splitOnP p) := by
  induction h with
  | nil => exact .cons .nil .nil
  | @cons x y xs ys first _ ih =>
      rw [List.splitOnP_cons_eq_if_modifyHead, List.splitOnP_cons_eq_if_modifyHead, same first]
      split
      · exact .cons .nil ih
      · generalize List.splitOnP p xs = parts at ih
        generalize List.splitOnP p ys = others at ih
        cases ih with
        | nil => exact .nil
        | cons own later => exact .cons (.cons first own) later

/-- What stands in front of a place is in the same parts whatever follows. -/
theorem exists_splitOnP_front (xs : List α) :
    ∃ before front, ∀ ys back after, ys.splitOnP p = back :: after →
      (xs ++ ys).splitOnP p = before ++ (front ++ back) :: after := by
  induction xs with
  | nil => exact ⟨[], [], fun _ _ _ split => split⟩
  | cons x xs ih =>
      obtain ⟨before, front, parts⟩ := ih
      cases own : p x with
      | true =>
          refine ⟨[] :: before, front, fun ys back after split => ?_⟩
          rw [List.cons_append, List.splitOnP_cons_eq_if_modifyHead, own, parts ys back after split]
          rfl
      | false =>
          have cons (ys back after) (split : ys.splitOnP p = back :: after) :
              (x :: xs ++ ys).splitOnP p =
                (before ++ (front ++ back) :: after).modifyHead (x :: ·) := by
            rw [List.cons_append, List.splitOnP_cons_eq_if_modifyHead, own,
              parts ys back after split]
            rfl
          cases before with
          | nil => exact ⟨[], x :: front, cons⟩
          | cons part before => exact ⟨(x :: part) :: before, front, cons⟩

/-- An element that separates nothing stands in one part, and what else is in the parts does not
depend on it. -/
theorem exists_splitOnP_append (xs ys : List α) :
    ∃ before front back after, ∀ x, p x = false →
      (xs ++ x :: ys).splitOnP p = before ++ (front ++ x :: back) :: after := by
  obtain ⟨before, front, parts⟩ := exists_splitOnP_front p xs
  obtain ⟨back, after, split⟩ := List.exists_cons_of_ne_nil (List.splitOnP_ne_nil p ys)
  refine ⟨before, front, back, after, fun x inner => parts _ _ _ ?_⟩
  rw [List.splitOnP_cons_eq_if_modifyHead, inner, split]
  rfl

end LC3
