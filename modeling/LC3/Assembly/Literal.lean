import LC3.Assembly.Diagnostic

/-!
The values of literals. A numeral has an optional prefix for its radix, an optional sign and
digits, and its value is a 32-bit integer. A string has each of its characters as one word, after
the escapes for line feed, tab, carriage return, backslash and quote have been resolved; a backslash
before any other character stands for itself.
-/

namespace LC3

namespace Interval

/-- The values of numerals. -/
def literals : Interval := ⟨-0x80000000, 0x7FFFFFFF⟩

/-- A word read unsigned or in two's complement. -/
def fills : Interval := ⟨-0x8000, 0xFFFF⟩

end Interval

namespace Literal

/-- Whether a minus sign comes first, and the digits after the sign. -/
def splitSign : List Char → Bool × List Char
  | '-' :: digits => (true, digits)
  | '+' :: digits => (false, digits)
  | digits => (false, digits)

def dropNumberSign : List Char → List Char
  | '#' :: rest => rest
  | text => text

/-- What a backslash and this character stand for, where that is not the two of them. -/
def escape? : Char → Option Char
  | 'n' => some '\n'
  | 't' => some '\t'
  | 'r' => some '\r'
  | '\\' => some '\\'
  | '"' => some '"'
  | _ => none

/-- Adds a text with its escapes resolved to `done`, which is in reverse. -/
def unescapeInto (done : List Char) : List Char → List Char
  | '\\' :: c :: rest =>
    match escape? c with
    | some d => unescapeInto (d :: done) rest
    | none => unescapeInto (c :: '\\' :: done) rest
  | c :: rest => unescapeInto (c :: done) rest
  | [] => done.reverse

def unescape (text : List Char) : List Char := unescapeInto [] text

def quotedBody? : List Char → Option (List Char)
  | '"' :: rest => if rest.getLast? = some '"' then some rest.dropLast else none
  | _ => none

end Literal

namespace Token

/-- The value of digits in a radix with an optional sign, for a token that holds them. -/
def signedValue (t : Token) (radix : Nat) (body : List Char) : Except Complaint Int :=
  let (negative, digits) := Literal.splitSign body
  match Numeral.value radix digits with
  | .error cause => .error (t.complain (.invalidLiteral t.text cause))
  | .ok magnitude =>
    let value : Int := if negative then -magnitude else magnitude
    if value ∈ Interval.literals then .ok value
    else .error ⟨t.span, .outOfRange .literal value .literals⟩

def number (t : Token) : Except Complaint Int :=
  match t.kind with
  | .hexLiteral => t.signedValue 16 (Numeral.dropHexPrefix t.text)
  | .decimalLiteral => t.signedValue 10 (Literal.dropNumberSign t.text)
  | kind => .error (t.complain (.literalExpected kind))

def unsignedWord (t : Token) (quantity : Quantity) : Except Complaint Word := do
  let value ← t.number
  if value ∈ Interval.words then return BitVec.ofInt 16 value
  else throw ⟨t.span, .outOfRange quantity value .words⟩

def character (t : Token) (c : Char) : Except Complaint Word :=
  if c.toNat ≤ 0xFFFF then .ok (BitVec.ofNat 16 c.toNat)
  else .error ⟨t.span, .outOfRange .character c.toNat .words⟩

def characters (t : Token) : Except Complaint (List Word) :=
  match t.kind with
  | .stringLiteral false => .error (t.complain .stringUnterminated)
  | .stringLiteral true =>
    match Literal.quotedBody? t.text with
    | some body => (Literal.unescape body).mapM t.character
    | none => .error (t.complain .stringMalformed)
  | kind => .error (t.complain (.stringExpected kind))

end Token
end LC3
