import LC3.Assembly.SymbolTable

/-!
Machine programs and their object images. An image is the origin followed by the words of the
program, as words or as bytes with the high byte of each word first; it carries no labels.
-/

namespace LC3

abbrev Byte := BitVec 8

/-- Words to be loaded from the origin on, and the labels they were assembled with. -/
structure Program where
  origin : Word
  words : List Word
  symbols : SymbolTable := .empty
  deriving DecidableEq

/-- Why an image holds no program. -/
inductive ImageError where
  | empty
  | misaligned (length : Nat)
  deriving DecidableEq, Repr

def ImageError.message : ImageError → String
  | .empty => "Object image is empty, expected an origin word"
  | .misaligned length => s!"Object image is {length} bytes, which is not aligned to 16 bits"

def ImageError.code : ImageError → String
  | .empty => "sim::image_too_short"
  | .misaligned _ => "sim::misaligned_image"

/-- The high byte and then the low byte. -/
def Word.bytes (w : Word) : List Byte := [w.extractLsb' 8 8, w.extractLsb' 0 8]

/-- Adds the words of pairs of bytes to `done`, which is in reverse; an odd last byte is dropped. -/
def Word.ofBytesInto (done : List Word) : List Byte → List Word
  | high :: low :: rest => ofBytesInto ((high ++ low) :: done) rest
  | _ => done.reverse

def Word.ofBytes (bytes : List Byte) : List Word := ofBytesInto [] bytes

namespace Program

def image (p : Program) : List Word := p.origin :: p.words

def imageBytes (p : Program) : List Byte := p.image.flatMap Word.bytes

def ofImage : List Word → Except ImageError Program
  | [] => .error .empty
  | origin :: words => .ok { origin, words }

/-- Reads the bytes of an image, of which there must be an even number. -/
def ofImageBytes (bytes : List Byte) : Except ImageError Program :=
  if bytes.length % 2 = 0 then ofImage (Word.ofBytes bytes) else .error (.misaligned bytes.length)

end Program
end LC3
