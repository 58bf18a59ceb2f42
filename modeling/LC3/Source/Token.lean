import LC3.Word.Numeral
import LC3.Source.Span

/-!
Tokens of assembly source. A token keeps its text, so that the texts of all tokens together are the
source.
-/

namespace LC3

inductive TokenKind where
  | identifier
  | hexLiteral
  | decimalLiteral
  | stringLiteral (terminated : Bool)
  | comment
  | directive
  | colon
  | newline
  | whitespace
  | unknown
  | endOfFile
  deriving DecidableEq, Repr

def TokenKind.name : TokenKind → String
  | .identifier => "identifier"
  | .hexLiteral => "hex literal"
  | .decimalLiteral => "decimal literal"
  | .stringLiteral _ => "string literal"
  | .comment => "comment"
  | .directive => "directive"
  | .colon => "colon"
  | .newline => "end of line"
  | .whitespace => "whitespace"
  | .unknown => "unknown token"
  | .endOfFile => "end of file"

/-- A character of a name or of a number. -/
def isNameChar (c : Char) : Bool := c.isAlphanum || c == '_'

/-- A character that separates tokens of one line. Commas say nothing more than blanks do. -/
def isSeparator (c : Char) : Bool := c == ' ' || c == '\t' || c == '\r' || c == ','

def isHexDigit (c : Char) : Bool := (Numeral.digit? 16 c).isSome

/-- A piece of source text that starts `start` bytes into it. -/
structure Token where
  kind : TokenKind
  start : Nat
  text : List Char
  deriving DecidableEq, Repr

namespace Token

def span (t : Token) : Span := ⟨t.start, byteLength t.text⟩

/-- A name such as xfer, which starts as a hexadecimal literal does. -/
def isHexShapedName (text : List Char) : Bool :=
  match text with
  | c :: rest => (c == 'x' || c == 'X') && rest.all isNameChar && rest.any (fun d => !isHexDigit d)
  | [] => false

/-- The kind that a line takes the token for. -/
def role (t : Token) : TokenKind :=
  match t.kind with
  | .hexLiteral => if isHexShapedName t.text then .identifier else .hexLiteral
  | kind => kind

def isSignificant (t : Token) : Bool := t.kind != .whitespace && t.kind != .comment

end Token
end LC3
