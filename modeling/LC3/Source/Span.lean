/-!
Places in a source text. A text is a list of characters, and places in it are counted in bytes of
its UTF-8 form.
-/

namespace LC3

/-- How many bytes a text takes. -/
def byteLength (text : List Char) : Nat := text.foldr (fun c n => c.utf8Size + n) 0

@[simp] theorem byteLength_nil : byteLength [] = 0 := rfl

@[simp] theorem byteLength_cons (c : Char) (text : List Char) :
    byteLength (c :: text) = c.utf8Size + byteLength text := rfl

@[simp] theorem byteLength_append (s t : List Char) :
    byteLength (s ++ t) = byteLength s + byteLength t := by
  induction s with
  | nil => simp
  | cons c s ih => simp [ih, Nat.add_assoc]

/-- The text from byte `n` on, or from the next character that starts there or later. -/
def dropBytes : Nat → List Char → List Char
  | 0, text => text
  | _, [] => []
  | n + 1, c :: text => dropBytes (n + 1 - c.utf8Size) text

/-- Adds to `taken`, which is in reverse, the characters that start in the next `n` bytes. -/
def takeBytesInto (taken : List Char) : Nat → List Char → List Char
  | 0, _ => taken.reverse
  | _, [] => taken.reverse
  | n + 1, c :: text => takeBytesInto (c :: taken) (n + 1 - c.utf8Size) text

/-- The text up to byte `n`. -/
def takeBytes (n : Nat) (text : List Char) : List Char := takeBytesInto [] n text

/-- A stretch of a source text. -/
structure Span where
  start : Nat
  length : Nat
  deriving DecidableEq, Repr

namespace Span

def stop (s : Span) : Nat := s.start + s.length

def isEmpty (s : Span) : Bool := s.length == 0

/-- The part of a text that the span covers. -/
def slice (s : Span) (text : List Char) : List Char := takeBytes s.length (dropBytes s.start text)

end Span
end LC3
