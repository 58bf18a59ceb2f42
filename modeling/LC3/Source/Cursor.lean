import LC3.Source.Lexeme

/-!
A place in a source text from which tokens are read. The cursor remembers the characters passed
since the current token started; reading a token takes them along. Main statements: no operation
changes the `extent`, the bytes before the token, those passed in it and those left.
-/

namespace LC3

/-- `taken` are the characters of the current token so far, which starts `start` bytes into the
source, and `rest` is what follows them. -/
structure Cursor where
  start : Nat
  taken : List Char
  rest : List Char
  deriving DecidableEq, Repr

namespace Cursor

def ofText (source : List Char) : Cursor := ⟨0, [], source⟩

def position (c : Cursor) : Nat := byteLength c.taken

def first? (c : Cursor) : Option Char := c.rest.head?

def isAtEnd (c : Cursor) : Bool := c.rest.isEmpty

/-- Passes one character, if one is left. -/
def bump (c : Cursor) : Option Char × Cursor :=
  match c.rest with
  | [] => (none, c)
  | d :: rest => (some d, { c with taken := c.taken ++ [d], rest })

def takeWhile (p : Char → Bool) (c : Cursor) : Cursor :=
  { c with taken := c.taken ++ c.rest.takeWhile p, rest := c.rest.dropWhile p }

/-- Starts a new token here. -/
def flush (c : Cursor) : Cursor := ⟨c.start + c.position, [], c.rest⟩

/-- The token that starts at `start` and ends with the lexeme ahead, and the cursor after it. At the
end of the source the token is empty and the cursor stays as it is. -/
def nextToken (c : Cursor) : Token × Cursor :=
  match c.rest with
  | [] => (⟨.endOfFile, c.start, []⟩, c)
  | d :: rest =>
    let lexeme := Lexeme.of d rest
    let text := c.taken ++ d :: rest.take lexeme.more
    (⟨lexeme.kind, c.start, text⟩, ⟨c.start + byteLength text, [], rest.drop lexeme.more⟩)

/-- The bytes before the current token, those passed in it and those left. -/
def extent (c : Cursor) : Nat := c.start + c.position + byteLength c.rest

theorem extent_bump (c : Cursor) : c.bump.2.extent = c.extent := by
  unfold bump
  split
  · rfl
  · next d rest h => simp [extent, position, h]; omega

theorem extent_takeWhile (p : Char → Bool) (c : Cursor) : (c.takeWhile p).extent = c.extent := by
  have h : byteLength c.rest =
      byteLength (c.rest.takeWhile p) + byteLength (c.rest.dropWhile p) := by
    rw [← byteLength_append, List.takeWhile_append_dropWhile]
  simp only [extent, position, takeWhile, byteLength_append]
  omega

theorem extent_flush (c : Cursor) : c.flush.extent = c.extent := by
  simp [extent, position, flush]

theorem extent_nextToken (c : Cursor) : c.nextToken.2.extent = c.extent := by
  unfold nextToken
  split
  · rfl
  · next d rest h =>
    have split (n : Nat) :
        byteLength rest = byteLength (rest.take n) + byteLength (rest.drop n) := by
      rw [← byteLength_append, List.take_append_drop]
    have := split (Lexeme.of d rest).more
    simp only [extent, position, h, byteLength_append, byteLength_cons, byteLength_nil]
    omega

/-- Reads at most `n` tokens, which go before `read` in reverse. -/
def tokensInto (read : List Token) : Nat → Cursor → List Token
  | 0, _ => read.reverse
  | n + 1, c =>
    if c.isAtEnd then read.reverse
    else tokensInto (c.nextToken.1 :: read) n c.nextToken.2

end Cursor

/-- All tokens of a source text. Each has a character, so they are no more than its characters. -/
def tokenize (source : List Char) : List Token :=
  Cursor.tokensInto [] source.length (.ofText source)

end LC3
