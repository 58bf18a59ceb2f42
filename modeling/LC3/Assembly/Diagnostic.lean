import LC3.Assembly.SymbolTable
import LC3.Format.Parts
import LC3.Register
import LC3.Source.Token

/-!
What can be wrong with assembly source. A complaint points at a span and states its cause; on a
numbered line it is a diagnostic. Wording, advice and codes are functions of the cause.
-/

namespace LC3

/-- A number in a program that has bounds. -/
inductive Quantity where
  | origin
  | block
  | fill
  | character
  | literal
  | address
  | field (field : FieldName)
  deriving DecidableEq, Repr

def Quantity.name : Quantity → String
  | .origin => ".ORIG"
  | .block => ".BLKW"
  | .fill => ".FILL"
  | .character => ".STRINGZ character"
  | .literal => "literal"
  | .address => "address"
  | .field f => f.name

/-- A line that is not formed as its first word demands. -/
inductive SyntaxError where
  | registerAsLabel (text : List Char)
  | unknownInstruction (text : List Char)
  | unknownDirective (text : List Char)
  | unexpectedStart (kind : TokenKind)
  | originExpected
  | originTwice
  | originMissing
  | operandMissing (directive : List Char)
  | extraOperand (kind : TokenKind)
  | fillRegister
  | blockSize
  | stringOperand
  | unexpectedOperand (kind : TokenKind)
  | literalExpected (kind : TokenKind)
  | invalidLiteral (text : List Char) (cause : CodecError)
  | stringExpected (kind : TokenKind)
  | stringUnterminated
  | stringMalformed
  | operandCount (expected found : Nat)
  | registerExpected (field : FieldName)
  | valueExpected (found : Register)
  | callTargetRegister
  deriving DecidableEq, Repr

namespace SyntaxError

def message : SyntaxError → String
  | .registerAsLabel text => s!"Register {String.ofList text} cannot be used as a label"
  | .unknownInstruction text => s!"Unknown instruction `{String.ofList text}`"
  | .unknownDirective text => s!"Unknown directive `{String.ofList text}`"
  | .unexpectedStart kind => s!"Unexpected {kind.name}"
  | .originExpected => "Expected .ORIG before the first statement"
  | .originTwice => "Origin set twice"
  | .originMissing => "Missing .ORIG directive"
  | .operandMissing directive => s!"Expected an operand after {String.ofList directive}"
  | .extraOperand kind => s!"Unexpected {kind.name}"
  | .fillRegister => ".FILL expects a literal or a label"
  | .blockSize => ".BLKW expects a numeric literal"
  | .stringOperand => "String literals are only allowed after .STRINGZ"
  | .unexpectedOperand kind => s!"Unexpected {kind.name}"
  | .literalExpected kind => s!"Expected a numeric literal, found {kind.name}"
  | .invalidLiteral text cause => s!"Invalid literal `{String.ofList text}`: {cause.message}"
  | .stringExpected kind => s!".STRINGZ expects a string literal, found {kind.name}"
  | .stringUnterminated => "Unterminated string literal"
  | .stringMalformed => "Malformed string literal"
  | .operandCount expected found => s!"Expected {expected} operands, found {found}"
  | .registerExpected field => s!"Expected a register for {field.name}"
  | .valueExpected found => s!"Expected a literal or label, found register {Register.name found}"
  | .callTargetRegister => "JSR takes a label or offset"

def help? : SyntaxError → Option String
  | .unknownInstruction _ => some "a line is an optional label, then an instruction or directive"
  | .unknownDirective _ => some "directives are .ORIG, .FILL, .BLKW, .STRINGZ and .END"
  | .unexpectedStart _ => some "lines should start with a label, instruction, or directive"
  | .originExpected => some "only comments and blank lines may come before .ORIG"
  | .originTwice => some "a program has exactly one .ORIG"
  | .originMissing => some "programs start with a line like `.ORIG x3000`"
  | .extraOperand _ => some "check the number of operands for this directive"
  | .unexpectedOperand _ => some "operands are registers, literals, or labels"
  | .invalidLiteral _ _ => some "literals are written like #10, 10, x1F or 0x1F"
  | .stringUnterminated => some "close the string with `\"` on the same line"
  | .operandCount _ _ => some "check the number of operands for this instruction"
  | .registerExpected _ => some "registers are written R0 to R7"
  | .valueExpected _ => some "check the type of operands allowed for this instruction"
  | .callTargetRegister => some "use JSRR to jump to an address held in a register"
  | .registerAsLabel _ | .operandMissing _ | .fillRegister | .blockSize | .stringOperand
  | .literalExpected _ | .stringExpected _ | .stringMalformed => none

end SyntaxError

/-- Why a program cannot be assembled. The last cause does not arise. -/
inductive Problem where
  | grammar (cause : SyntaxError)
  | undefinedSymbol (label : Label)
  | duplicateSymbol (label : Label) (first : Word)
  | outOfRange (quantity : Quantity) (value : Int) (bounds : Interval)
  | unencodable (cause : EncodeError)
  deriving DecidableEq, Repr

/-- A problem and where in the source it shows. -/
structure Complaint where
  span : Span
  problem : Problem
  deriving DecidableEq, Repr

/-- A complaint about a numbered line. -/
structure Diagnostic extends Complaint where
  line : Nat
  deriving DecidableEq, Repr

def Complaint.onLine (line : Nat) (c : Complaint) : Diagnostic := { c with line }

def Token.complain (t : Token) (cause : SyntaxError) : Complaint := ⟨t.span, .grammar cause⟩

namespace Diagnostic

def message (d : Diagnostic) : String :=
  match d.problem with
  | .grammar cause => cause.message
  | .undefinedSymbol label => s!"Undefined symbol `{String.ofList label}` on line {d.line}"
  | .duplicateSymbol label first =>
    s!"Duplicate label `{String.ofList label}` on line {d.line}, " ++
      s!"already defined at {Word.hex first}"
  | .outOfRange quantity value bounds =>
    s!"Value {value} does not fit in {quantity.name} ({bounds.text}) on line {d.line}"
  | .unencodable cause => s!"internal error: an instruction has no encoding: {cause.message}"

def code (d : Diagnostic) : String :=
  match d.problem with
  | .grammar _ => "parse::syntax"
  | .undefinedSymbol _ => "asm::undefined_symbol"
  | .duplicateSymbol _ _ => "parse::duplicate_label"
  | .outOfRange _ _ _ => "asm::range_overflow"
  | .unencodable _ => "asm::internal"

def help? (d : Diagnostic) : Option String :=
  match d.problem with
  | .grammar cause => cause.help?
  | .undefinedSymbol _ => some "labels must be defined somewhere before `.END`"
  | .duplicateSymbol _ _ => some "prefix labels are only allowed once per file"
  | .outOfRange _ _ _ =>
    some "use a smaller literal or move the label closer to this instruction"
  | .unencodable _ => none

/-- What is written beside the span. -/
def label (d : Diagnostic) : String :=
  match d.problem with
  | .grammar _ => "here"
  | .undefinedSymbol _ => "undefined label"
  | .duplicateSymbol _ _ => "duplicate label"
  | .outOfRange _ _ _ => "out-of-range value"
  | .unencodable _ => "here"

end Diagnostic
end LC3
