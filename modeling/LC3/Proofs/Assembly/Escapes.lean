import LC3.Proofs.Assembly.Grammar

/-!
Escapes in string literals. Between its quotes a closed literal is a row of single characters and of
backslashes with one character each, in one way only, and resolving escapes goes over the same row:
it never meets a backslash with nothing behind it. Main statements: `write_injective`,
`unescape_eq_of_unescape?`, `exists_atoms_of_mem_tokenize`.
-/

namespace LC3
namespace Literal

/-- A unit of what stands between quotes: a character other than a quote and a backslash, or a
backslash and whatever character is behind it. -/
inductive Atom where
  | plain (c : Char) (quote : c ≠ '"') (backslash : c ≠ '\\')
  | pair (c : Char)

namespace Atom

def written : Atom → List Char
  | plain c _ _ => [c]
  | pair c => ['\\', c]

/-- The characters that a unit stands for. -/
def meaning : Atom → List Char
  | plain c _ _ => [c]
  | pair 'n' => ['\n']
  | pair 't' => ['\t']
  | pair 'r' => ['\r']
  | pair '\\' => ['\\']
  | pair '"' => ['"']
  | pair c => ['\\', c]

theorem meaning_pair (c : Char) :
    (pair c).meaning = (escape? c).elim ['\\', c] fun d => [d] := by
  unfold escape?
  split
  · rfl
  · rfl
  · rfl
  · rfl
  · rfl
  · next feed tab carriage backslash quote => exact meaning.eq_7 c feed tab carriage backslash quote

end Atom

def write (atoms : List Atom) : List Char := atoms.flatMap Atom.written

def meaning (atoms : List Atom) : List Char := atoms.flatMap Atom.meaning

/-- What `unescape` makes of a text, where it does not come to a backslash at the very end. -/
def unescape? : List Char → Option (List Char)
  | '\\' :: c :: rest =>
    match escape? c with
    | some d => (unescape? rest).map (d :: ·)
    | none => (unescape? rest).map ('\\' :: c :: ·)
  | ['\\'] => none
  | c :: rest => (unescape? rest).map (c :: ·)
  | [] => some []

variable {atoms others : List Atom} {text done resolved : List Char} {c : Char}

theorem exists_atoms_of_body (h : Body text) : ∃ atoms, text = write atoms := by
  induction h with
  | nil => exact ⟨[], rfl⟩
  | plain quote backslash _ ih =>
      obtain ⟨atoms, rfl⟩ := ih
      exact ⟨.plain _ quote backslash :: atoms, rfl⟩
  | pair _ ih =>
      obtain ⟨atoms, rfl⟩ := ih
      exact ⟨.pair _ :: atoms, rfl⟩

/-- The first character says whether a unit has a second one, so no text is two rows of units. -/
theorem write_injective : Function.Injective write := by
  intro atoms
  induction atoms with
  | nil =>
      intro others same
      cases others with
      | nil => rfl
      | cons a others => cases a <;> cases same
  | cons a atoms ih =>
      intro others same
      cases others with
      | nil => cases a <;> cases same
      | cons b others =>
          cases a with
          | plain c quote backslash =>
              cases b with
              | plain d =>
                  obtain ⟨rfl, rest⟩ := List.cons.inj same
                  rw [ih rest]
              | pair d => exact absurd (List.cons.inj same).1 backslash
          | pair c =>
              cases b with
              | plain d quote backslash => exact absurd (List.cons.inj same).1.symm backslash
              | pair d =>
                  obtain ⟨rfl, rest⟩ := List.cons.inj (List.cons.inj same).2
                  rw [ih rest]

theorem unescape?_write (atoms : List Atom) : unescape? (write atoms) = some (meaning atoms) := by
  induction atoms with
  | nil => rfl
  | cons a atoms ih =>
      have rest : unescape? (atoms.flatMap Atom.written) = some (meaning atoms) := ih
      rw [write, List.flatMap_cons, meaning, List.flatMap_cons, ← meaning]
      cases a with
      | plain c quote backslash =>
          rw [Atom.written, List.singleton_append, unescape?.eq_3, rest]
          · rfl
          · intro d more same
            exact absurd same backslash
          · intro same
            exact absurd same backslash
      | pair c =>
          rw [Atom.written, List.cons_append, List.singleton_append, unescape?.eq_1,
            Atom.meaning_pair, rest]
          cases escape? c with
          | none => rfl
          | some d => rfl

example : unescape? ['\\', '\\', '\\'] = none := rfl

/-- Escapes are resolved alike as long as no backslash stands at the end. -/
theorem unescapeInto_eq_of_unescape? (h : unescape? text = some resolved) :
    unescapeInto done text = done.reverse ++ resolved := by
  fun_induction unescape? text generalizing done resolved with
  | case1 c rest d stands ih =>
      obtain ⟨later, known, rfl⟩ := Option.map_eq_some_iff.mp h
      rw [unescapeInto.eq_1, stands]
      dsimp only
      rw [ih known, List.reverse_cons, List.append_assoc]
      rfl
  | case2 c rest other ih =>
      obtain ⟨later, known, rfl⟩ := Option.map_eq_some_iff.mp h
      rw [unescapeInto.eq_1, other]
      dsimp only
      rw [ih known, List.reverse_cons, List.reverse_cons, List.append_assoc, List.append_assoc]
      rfl
  | case3 => cases h
  | case4 c rest pair alone ih =>
      obtain ⟨later, known, rfl⟩ := Option.map_eq_some_iff.mp h
      rw [unescapeInto.eq_2 _ _ _ pair, ih known, List.reverse_cons, List.append_assoc]
      rfl
  | case5 =>
      cases h
      exact (List.append_nil _).symm

theorem unescape_eq_of_unescape? (h : unescape? text = some resolved) : unescape text = resolved :=
  unescapeInto_eq_of_unescape? h

end Literal

theorem Lexeme.eq_quote_of_kind {c : Char} {rest : List Char} {closed : Bool}
    (h : (of c rest).kind = .stringLiteral closed) : c = '"' := by
  by_contra other
  simp only [of, other, if_false, apply_ite Lexeme.kind, ite_eq_iff, reduceCtorEq, and_false,
    or_false] at h

/-- A closed literal is a row of units between quotes. -/
theorem Piece.Before.exists_atoms {p : Piece} {rest : List Char} (h : p.Before rest)
    (closed : p.kind = .stringLiteral true) :
    ∃ atoms, p.text = '"' :: (Literal.write atoms ++ ['"']) := by
  obtain ⟨c, more, text, lexeme⟩ := h
  rw [closed] at lexeme
  obtain rfl := Lexeme.eq_quote_of_kind (congrArg Lexeme.kind lexeme)
  have quoted : Lexeme.quoted 0 (more ++ rest) = (true, more.length) := by
    have kind : TokenKind.stringLiteral (Lexeme.quoted 0 (more ++ rest)).1 = .stringLiteral true :=
      congrArg Lexeme.kind lexeme
    exact Prod.ext (TokenKind.stringLiteral.inj kind) (congrArg Lexeme.more lexeme)
  have some : more ++ rest ≠ [] := by
    intro none
    rw [none] at quoted
    cases quoted
  have spec := Lexeme.quoted_spec some
  rw [quoted] at spec
  generalize whole : more ++ rest = ahead at spec
  generalize result : (true, more.length) = ends at spec
  cases spec with
  | @closed body after inside inner =>
      obtain ⟨atoms, rfl⟩ := Literal.exists_atoms_of_body inside
      have count : more.length = (Literal.write atoms).length + 1 := congrArg Prod.snd result
      have split : more ++ rest = (Literal.write atoms ++ ['"']) ++ after := by
        rw [whole, List.append_assoc, List.singleton_append]
      obtain ⟨rfl, -⟩ := List.append_inj split (by rw [count, List.length_append]; rfl)
      exact ⟨atoms, text⟩
  | opened => cases result

namespace Token

variable {t : Token} {source : List Char} {atoms : List Literal.Atom}

theorem exists_atoms_of_mem_tokenize (member : t ∈ tokenize source)
    (closed : t.kind = .stringLiteral true) :
    ∃ atoms, t.text = '"' :: (Literal.write atoms ++ ['"']) := by
  obtain ⟨before, after, -, -, piece⟩ := exists_of_mem_tokenize member
  exact piece.exists_atoms closed

/-- A closed literal has the quotes that its characters stand between. -/
def Quotes (t : Token) : Prop :=
  t.kind = .stringLiteral true → ∃ body, Literal.quotedBody? t.text = some body

theorem quotes_of_mem_tokenize (member : t ∈ tokenize source) : t.Quotes := by
  intro closed
  obtain ⟨atoms, text⟩ := exists_atoms_of_mem_tokenize member closed
  exact ⟨_, quotedBody?_eq_some_iff.mpr text⟩

end Token
end LC3
