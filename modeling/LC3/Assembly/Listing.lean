import LC3.Assembly.Clause

/-!
The first pass: statements with their addresses, and the labels with theirs. A program begins at its
origin and ends at the end of the text or after an END, whatever comes first; what follows an END is
not looked at.
-/

namespace LC3

/-- A program laid out in memory, its operands not yet resolved. -/
structure Listing where
  origin : Word
  statements : List Statement
  symbols : SymbolTable
  deriving DecidableEq

/-- A listing under construction. The next word goes to address `counter`, which may lie just past
the end of memory. -/
structure Draft where
  origin : Word
  counter : Nat
  statements : Array Statement
  symbols : SymbolTable

namespace Draft

def start (origin : Word) : Draft := ⟨origin, origin.toNat, #[], .empty⟩

def listing (d : Draft) : Listing := ⟨d.origin, d.statements.toList, d.symbols⟩

def define (d : Draft) (label : Token) : Except Complaint Draft :=
  if d.counter ≤ 0xFFFF then
    match d.symbols.insert label.text (BitVec.ofNat 16 d.counter) with
    | .ok symbols => .ok { d with symbols }
    | .error first => .error ⟨label.span, .duplicateSymbol label.text first⟩
  else .error ⟨label.span, .outOfRange .address d.counter .words⟩

def defineSome (d : Draft) : Option Token → Except Complaint Draft
  | some label => d.define label
  | none => .ok d

/-- Puts a statement at the next address, which must be one, as must be that of its last word. -/
def push (d : Draft) (line : Nat) (head : Token) (content : Content) : Except Complaint Draft :=
  let stop := d.counter + content.size
  if d.counter > 0xFFFF then .error ⟨head.span, .outOfRange .address d.counter .words⟩
  else if stop > 0x10000 then .error ⟨head.span, .outOfRange .address (stop - 1 : Nat) .words⟩
  else
    let statement := ⟨line, BitVec.ofNat 16 d.counter, head.span, content⟩
    .ok { d with counter := stop, statements := d.statements.push statement }

def place (d : Draft) (line : Nat) (label : Option Token) (head : Token) (content : Content) :
    Except Complaint Draft := do
  let d ← d.defineSome label
  d.push line head content

end Draft

/-- How far a text has been read. -/
inductive Progress where
  | beforeOrigin
  | within (draft : Draft)
  | ended (draft : Draft)

namespace Progress

/-- The draft, which exists from the origin on. -/
def draft (p : Progress) (t : Token) : Except Complaint Draft :=
  match p with
  | .beforeOrigin => .error (t.complain .originExpected)
  | .within d => .ok d
  | .ended d => .ok d

def readDirective (p : Progress) (line : Nat) (label : Option Token) (head : Token)
    (operands : List Token) : Directive → Except Complaint Progress
  | .origin =>
    match p with
    | .beforeOrigin => do
      let origin ← (← Clause.single head operands).unsignedWord .origin
      return .within (← (Draft.start origin).defineSome label)
    | _ => .error (head.complain .originTwice)
  | .stop => do
    let d ← p.draft head
    match operands with
    | extra :: _ => throw (extra.complain (.extraOperand extra.kind))
    | [] => return .ended (← d.defineSome label)
  | .fill => do
    let d ← p.draft head
    let t ← Clause.single head operands
    let datum ← Clause.fillDatum t
    return .within (← d.place line label head (.fill datum t.span))
  | .block => do
    let d ← p.draft head
    let count ← Clause.blockCount (← Clause.single head operands)
    return .within (← d.place line label head (.block count))
  | .string => do
    let d ← p.draft head
    let characters ← (← Clause.single head operands).characters
    return .within (← d.place line label head (.string characters))

def readClause (p : Progress) (line : Nat) : Clause → Except Complaint Progress
  | .blank => .ok p
  | .label label => do return .within (← (← p.draft label).define label)
  | .instruction label head mnemonic operands => do
    let d ← p.draft head
    let operands ← operands.mapM Operand.ofToken
    return .within (← d.place line label head (.instruction mnemonic operands))
  | .directive label head directive operands => p.readDirective line label head operands directive

/-- Reads one more line, unless the program has ended. -/
def readLine (p : Progress) (line : Line) : Except Diagnostic Progress :=
  match p with
  | .ended d => .ok (.ended d)
  | p =>
    ((Clause.ofTokens line.tokens).bind (p.readClause line.number)).mapError (·.onLine line.number)

end Progress

namespace Listing

def ofLines (length : Nat) (lines : List Line) : Except Diagnostic Listing := do
  match ← lines.foldlM Progress.readLine .beforeOrigin with
  | .within d => return d.listing
  | .ended d => return d.listing
  | .beforeOrigin => throw ⟨⟨⟨length, 0⟩, .grammar .originMissing⟩, lines.length⟩

def ofText (source : List Char) : Except Diagnostic Listing :=
  ofLines (byteLength source) (Line.ofText source)

end Listing
end LC3
