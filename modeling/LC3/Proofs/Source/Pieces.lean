import Mathlib
import LC3.Source.Cursor

/-!
Texts put together from pieces. A token ends at the boundary of a blank or a line feed, and where
each piece is one token in front of what follows it, the tokens of the text are the pieces. Main
statements: `of_append`, `map_piece_tokenize`.
-/

namespace LC3

/-- A token of this kind ends where a blank or a line feed follows. -/
def TokenKind.endsAtBoundary : TokenKind → Bool
  | .whitespace | .comment | .stringLiteral _ => false
  | _ => true

namespace Lexeme

/-- The text ends or goes on with a character that separates tokens or lines. -/
def Boundary (text : List Char) : Prop :=
  ∀ c ∈ text.head?, isSeparator c = true ∨ c = '\n'

variable {p : Char → Bool} {c : Char} {text rest : List Char}

theorem Boundary.startsWith (h : Boundary rest)
    (apart : p ' ' = false ∧ p '\t' = false ∧ p '\r' = false ∧ p ',' = false ∧ p '\n' = false) :
    startsWith p rest = false := by
  cases rest with
  | nil => rfl
  | cons c rest =>
      obtain ⟨blank, tab, carriage, comma, feed⟩ := apart
      have first := h c rfl
      simp only [isSeparator, Bool.or_eq_true, beq_iff_eq] at first
      rcases first with (((rfl | rfl) | rfl) | rfl) | rfl <;> assumption

theorem run_of_all (all : ∀ c ∈ text, p c = true) : run p text = text.length := by
  rw [run, List.takeWhile_eq_self_iff.mpr all]

theorem run_append (stop : startsWith p rest = false) : run p (text ++ rest) = run p text := by
  induction text with
  | nil =>
      cases rest with
      | nil => rfl
      | cons c rest => simpa [run, List.takeWhile_cons, startsWith] using stop
  | cons c text ih =>
      simp only [run, List.cons_append, List.takeWhile_cons] at ih ⊢
      split
      · simpa using ih
      · rfl

theorem startsWith_append (stop : startsWith p rest = false) :
    startsWith p (text ++ rest) = startsWith p text := by
  cases text with
  | nil => exact stop
  | cons c text => rfl

theorem signedRun_append (stop : startsWith p rest = false)
    (ends : startsWith isNameChar rest = false) :
    signedRun p (text ++ rest) = signedRun p text := by
  cases text with
  | nil =>
      cases rest with
      | nil => rfl
      | cons c rest =>
          have sign : p c = false := stop
          simp only [List.nil_append, signedRun, sign, Bool.false_eq_true, if_false]
          exact (run_append ends : run isNameChar ([] ++ c :: rest) = 0)
  | cons c text =>
      have whole : run isNameChar (c :: text ++ rest) = run isNameChar (c :: text) :=
        run_append ends
      simp only [List.cons_append] at whole
      simp only [List.cons_append, signedRun, run_append ends, whole]

theorem signedRun_of_all (all : ∀ c ∈ text, isNameChar c = true)
    (apart : ∀ c, isNameChar c = true → p c = false) : signedRun p text = text.length := by
  cases text with
  | nil => rfl
  | cons c text =>
      have sign := apart c (all c List.mem_cons_self)
      simp only [signedRun, sign, Bool.false_eq_true, if_false]
      exact run_of_all all

/-- What follows a boundary makes no difference to a token before it. -/
theorem of_append (ends : (of c text).kind.endsAtBoundary = true) (boundary : Boundary rest) :
    of c (text ++ rest) = of c text := by
  have name := boundary.startsWith (p := isNameChar) (by decide)
  have minus := boundary.startsWith (p := (· == '-')) (by decide)
  have sign := boundary.startsWith (p := fun d => d == '-' || d == '+') (by decide)
  have hex := boundary.startsWith (p := fun d => isHexDigit d || d == '-') (by decide)
  have mark := boundary.startsWith (p := fun d => d == 'x' || d == 'X') (by decide)
  unfold of at ends ⊢
  simp only [run_append name, signedRun_append minus name, signedRun_append sign name,
    startsWith_append hex, startsWith_append mark]
  by_cases comment : c = ';'
  · subst comment
    cases ends
  by_cases string : c = '"'
  · subst string
    cases ends
  by_cases newline : c = '\n'
  · subst newline
    rfl
  by_cases blank : isSeparator c = true
  · simp only [comment, newline, blank, if_true, if_false] at ends
    cases ends
  simp only [comment, newline, blank, string, Bool.false_eq_true, if_false]

end Lexeme

/-- A token without its place. -/
structure Piece where
  kind : TokenKind
  text : List Char
  deriving DecidableEq, Repr

def Token.piece (t : Token) : Piece := ⟨t.kind, t.text⟩

namespace Piece

def newline : Piece := ⟨.newline, ['\n']⟩

/-- The text that some pieces make up. -/
def join (pieces : List Piece) : List Char := pieces.flatMap text

def isSignificant (p : Piece) : Bool := p.kind != .whitespace && p.kind != .comment

/-- In front of this text the piece is one token. -/
def Before (rest : List Char) (p : Piece) : Prop :=
  ∃ c more, p.text = c :: more ∧ Lexeme.of c (more ++ rest) = ⟨p.kind, more.length⟩

instance (rest : List Char) (p : Piece) : Decidable (p.Before rest) :=
  match text : p.text with
  | [] => isFalse fun ⟨c, more, same, _⟩ => by rw [text] at same; cases same
  | c :: more =>
    decidable_of_iff (Lexeme.of c (more ++ rest) = ⟨p.kind, more.length⟩)
      ⟨fun lexeme => ⟨c, more, text, lexeme⟩, fun ⟨d, others, same, lexeme⟩ => by
        rw [text] at same; cases same; exact lexeme⟩

/-- Each piece is one token in front of the pieces that follow it and of this text. -/
def Cut (rest : List Char) : List Piece → Prop
  | [] => True
  | p :: pieces => p.Before (join pieces ++ rest) ∧ Cut rest pieces

variable {p : Piece} {pieces others : List Piece} {rest : List Char}

@[simp] theorem join_nil : join [] = [] := rfl

@[simp] theorem join_cons (p : Piece) (pieces : List Piece) :
    join (p :: pieces) = p.text ++ join pieces := rfl

@[simp] theorem join_append (pieces others : List Piece) :
    join (pieces ++ others) = join pieces ++ join others := List.flatMap_append

theorem cut_append :
    Cut rest (pieces ++ others) ↔ Cut (join others ++ rest) pieces ∧ Cut rest others := by
  induction pieces with
  | nil => simp [Cut]
  | cons p pieces ih => simp [Cut, ih, and_assoc]

theorem before_newline (rest : List Char) : newline.Before rest := ⟨'\n', [], rfl, rfl⟩

theorem Before.of_boundary (alone : p.Before []) (ends : p.kind.endsAtBoundary = true)
    (boundary : Lexeme.Boundary rest) : p.Before rest := by
  obtain ⟨c, more, text, lexeme⟩ := alone
  rw [List.append_nil] at lexeme
  exact ⟨c, more, text, by rw [Lexeme.of_append (by rw [lexeme]; exact ends) boundary, lexeme]⟩

/-- A blank ends where something else begins. -/
theorem before_whitespace {text : List Char} (blank : text ≠ [])
    (separators : ∀ c ∈ text, isSeparator c = true)
    (other : Lexeme.startsWith isSeparator rest = false) :
    (⟨.whitespace, text⟩ : Piece).Before rest := by
  obtain ⟨c, more, rfl⟩ := List.exists_cons_of_ne_nil blank
  obtain ⟨first, separators⟩ := List.forall_mem_cons.mp separators
  refine ⟨c, more, rfl, ?_⟩
  have comment : c ≠ ';' := by rintro rfl; cases first
  have feed : c ≠ '\n' := by rintro rfl; cases first
  simp only [Lexeme.of, comment, feed, first, if_true, if_false, Lexeme.run_append other,
    Lexeme.run_of_all separators]

theorem Before.startsWith_isSeparator (h : p.Before rest) (ends : p.kind.endsAtBoundary = true)
    (after : List Char) : Lexeme.startsWith isSeparator (p.text ++ after) = false := by
  obtain ⟨c, more, text, lexeme⟩ := h
  rw [text, List.cons_append, Lexeme.startsWith]
  by_contra blank
  rw [Bool.not_eq_false] at blank
  have comment : c ≠ ';' := by rintro rfl; cases blank
  have feed : c ≠ '\n' := by rintro rfl; cases blank
  simp only [Lexeme.of, comment, feed, blank, if_true, if_false, Lexeme.mk.injEq] at lexeme
  rw [← lexeme.1] at ends
  cases ends

end Piece

namespace Cursor

/-- All tokens from a place on. -/
def tokens (c : Cursor) : List Token := tokensInto [] c.rest.length c

variable {c : Cursor} {read : List Token} {n : Nat}

theorem tokens_of_rest_nil (h : c.rest = []) : c.tokens = [] := by
  simp [tokens, tokensInto, h]

theorem length_rest_nextToken (h : c.rest ≠ []) :
    c.nextToken.2.rest.length < c.rest.length := by
  unfold nextToken
  split
  · next none => exact absurd none h
  · next d rest some => simp [some]

theorem tokensInto_succ (h : c.rest ≠ []) :
    tokensInto read (n + 1) c = tokensInto (c.nextToken.1 :: read) n c.nextToken.2 := by
  simp [tokensInto, isAtEnd, h]

/-- More steps than there are characters make no difference. -/
theorem tokensInto_eq (enough : c.rest.length ≤ n) :
    tokensInto read n c = read.reverse ++ c.tokens := by
  induction length : c.rest.length using Nat.strong_induction_on generalizing c read n with
  | _ m ih =>
      by_cases empty : c.rest = []
      · rw [tokens_of_rest_nil empty, List.append_nil]
        cases n <;> simp [tokensInto, isAtEnd, empty]
      · have shorter := length_rest_nextToken empty
        obtain ⟨k, rfl⟩ := Nat.exists_eq_succ_of_ne_zero (n := m) (by omega)
        obtain ⟨n, rfl⟩ := Nat.exists_eq_succ_of_ne_zero (n := n) (by omega)
        rw [tokens, length, tokensInto_succ empty, tokensInto_succ empty,
          ih _ (by omega) (c := c.nextToken.2) (n := n) (by omega) rfl,
          ih _ (by omega) (c := c.nextToken.2) (n := k) (by omega) rfl]
        simp

theorem tokens_eq_cons (h : c.rest ≠ []) : c.tokens = c.nextToken.1 :: c.nextToken.2.tokens := by
  have shorter := length_rest_nextToken h
  obtain ⟨k, length⟩ := Nat.exists_eq_succ_of_ne_zero (n := c.rest.length) (by omega)
  rw [tokens, length, tokensInto_succ h, tokensInto_eq (by omega)]
  rfl

end Cursor

namespace Piece

variable {pieces : List Piece} {p : Piece} {rest : List Char}

/-- A piece is the next token, and reading goes on behind it. -/
theorem Before.nextToken (h : p.Before rest) (start : Nat) :
    (⟨start, [], p.text ++ rest⟩ : Cursor).nextToken =
      (⟨p.kind, start, p.text⟩, ⟨start + byteLength p.text, [], rest⟩) := by
  obtain ⟨c, more, text, lexeme⟩ := h
  simp only [Cursor.nextToken, text, List.cons_append, lexeme, List.nil_append, List.take_left,
    List.drop_left]

/-- Pieces as tokens, one behind the other from a place on. -/
def place (start : Nat) : List Piece → List Token
  | [] => []
  | p :: pieces => ⟨p.kind, start, p.text⟩ :: place (start + byteLength p.text) pieces

theorem map_piece_place (start : Nat) : (place start pieces).map Token.piece = pieces := by
  induction pieces generalizing start with
  | nil => rfl
  | cons p pieces ih => exact congrArg (p :: ·) (ih _)

theorem tokens_join (cut : Cut [] pieces) (start : Nat) :
    (⟨start, [], join pieces⟩ : Cursor).tokens = place start pieces := by
  induction pieces generalizing start with
  | nil => rfl
  | cons p pieces ih =>
      obtain ⟨first, others⟩ := cut
      rw [List.append_nil] at first
      have some : p.text ++ join pieces ≠ [] := by
        obtain ⟨c, more, text, -⟩ := first
        simp [text]
      rw [join_cons, Cursor.tokens_eq_cons some, first.nextToken]
      exact congrArg (_ :: ·) (ih others _)

theorem map_piece_tokenize (cut : Cut [] pieces) :
    (tokenize (join pieces)).map Token.piece = pieces := by
  have whole : tokenize (join pieces) = place 0 pieces := tokens_join cut 0
  rw [whole, map_piece_place]

end Piece

end LC3
