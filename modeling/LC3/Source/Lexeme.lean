import LC3.Source.Token

/-!
The rules by which source text is cut into tokens. A rule looks at the first character and at what
follows, and says the kind of the token and how many more characters belong to it.
-/

namespace LC3

/-- A token's kind, and how many characters it has after the first. -/
structure Lexeme where
  kind : TokenKind
  more : Nat
  deriving DecidableEq, Repr

namespace Lexeme

def run (p : Char → Bool) (text : List Char) : Nat := (text.takeWhile p).length

def startsWith (p : Char → Bool) : List Char → Bool
  | c :: _ => p c
  | [] => false

/-- A sign, if it is one of `signs`, and a run of name characters. -/
def signedRun (signs : Char → Bool) : List Char → Nat
  | c :: rest => if signs c then run isNameChar rest + 1 else run isNameChar (c :: rest)
  | [] => 0

/-- A string literal after its opening quote and `n` more characters: whether it is closed, and how
many characters follow the opening quote. A backslash takes the next character with it, and a line
feed ends the literal except directly after the opening quote. -/
def quoted (n : Nat) : List Char → Bool × Nat
  | [] => (false, n)
  | '"' :: _ => (true, n + 1)
  | '\\' :: d :: rest =>
    if d = '\n' then (false, n + 1)
    else if startsWith (· == '\n') rest then (false, n + 2)
    else quoted (n + 2) rest
  | _ :: rest => if startsWith (· == '\n') rest then (false, n + 1) else quoted (n + 1) rest

/-- The token that starts with `c` where `rest` follows. -/
def of (c : Char) (rest : List Char) : Lexeme :=
  if c = ';' then ⟨.comment, run (· != '\n') rest⟩
  else if c = '\n' then ⟨.newline, 0⟩
  else if isSeparator c then ⟨.whitespace, run isSeparator rest⟩
  else if c = ':' then ⟨.colon, 0⟩
  else if (c = 'x' ∨ c = 'X') ∧ startsWith (fun d => isHexDigit d || d == '-') rest then
    ⟨.hexLiteral, signedRun (· == '-') rest⟩
  else if c = '0' ∧ startsWith (fun d => d == 'x' || d == 'X') rest then
    ⟨.hexLiteral, run isNameChar rest⟩
  else if c.isDigit then ⟨.decimalLiteral, run isNameChar rest⟩
  else if isNameChar c then ⟨.identifier, run isNameChar rest⟩
  else if c = '#' then ⟨.decimalLiteral, signedRun (fun d => d == '-' || d == '+') rest⟩
  else if c = '.' then ⟨.directive, run isNameChar rest⟩
  else if c = '"' then
    let (closed, more) := quoted 0 rest
    ⟨.stringLiteral closed, more⟩
  else ⟨.unknown, 0⟩

end Lexeme
end LC3
