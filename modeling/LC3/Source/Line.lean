import LC3.Source.Cursor

/-!
Lines of assembly source: the tokens between newline tokens, without blanks and comments.
-/

namespace LC3

/-- The significant tokens of a line; lines are numbered from 1. -/
structure Line where
  number : Nat
  tokens : List Token
  deriving DecidableEq, Repr

namespace Line

/-- The tokens before the first newline token, and the lists of tokens after each one. -/
def split (tokens : List Token) : List Token × List (List Token) :=
  tokens.foldr
    (fun t (first, later) =>
      if t.kind = .newline then ([], first :: later) else (t :: first, later))
    ([], [])

/-- There is a last line also where the text ends with a line feed. -/
def ofTokens (tokens : List Token) : List Line :=
  let (first, later) := split (tokens.filter Token.isSignificant)
  (first :: later).zipIdx 1 |>.map fun (tokens, number) => ⟨number, tokens⟩

def ofText (source : List Char) : List Line := ofTokens (tokenize source)

end Line
end LC3
