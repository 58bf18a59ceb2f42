import LC3.Word.Codec
import LC3.Word.Field
import LC3.Word.Numeral
import LC3.Format.Field
import LC3.Format.Layout
import LC3.Format.Opcode
import LC3.Format.Parts
import LC3.Register
import LC3.Instruction
import LC3.Source.Span
import LC3.Source.Token
import LC3.Source.Lexeme
import LC3.Source.Cursor
import LC3.Source.Line
import LC3.Assembly.SymbolTable
import LC3.Assembly.Diagnostic
import LC3.Assembly.Literal
import LC3.Assembly.Mnemonic
import LC3.Assembly.Statement
import LC3.Assembly.Clause
import LC3.Assembly.Listing
import LC3.Assembly.Encoding
import LC3.Program
import LC3.Text.Blank
import LC3.Config
import LC3.Machine.Fault
import LC3.Machine.Memory
import LC3.Machine.Registers
import LC3.Machine.Cycle
import LC3.Machine.Processor
import LC3.Proofs.Stage
import LC3.Proofs.Word.Pattern
import LC3.Proofs.Word.Masks
import LC3.Proofs.Word.Numeral
import LC3.Proofs.Word.Digits
import LC3.Proofs.Word.BitString
import LC3.Proofs.Format.Placement
import LC3.Proofs.Format.Selection
import LC3.Proofs.Format.RoundTrip
import LC3.Proofs.Format.Typing
import LC3.Proofs.Format.Canonical
import LC3.Proofs.Format.Cells
import LC3.Proofs.Format.Correspondence
import LC3.Proofs.Source.Quoted
import LC3.Proofs.Source.Pieces
import LC3.Proofs.Source.Lookahead
import LC3.Proofs.Source.Cutting
import LC3.Proofs.Source.LineFeeds
import LC3.Proofs.Source.Lines
import LC3.Proofs.Source.Numbering
import LC3.Proofs.Source.Rows
import LC3.Proofs.Source.Junctions
import LC3.Proofs.Source.Replacement
import LC3.Proofs.Source.Lossless
import LC3.Proofs.Source.Boundaries
import LC3.Proofs.Source.Tally
import LC3.Proofs.Source.Continuation
import LC3.Proofs.Machine.Semantics
import LC3.Proofs.Machine.Loading
import LC3.Proofs.Machine.Stepping
import LC3.Proofs.Machine.Bare
import LC3.Proofs.Machine.Running
import LC3.Proofs.Machine.Leniency
import LC3.Proofs.Machine.History
import LC3.Proofs.Machine.Status
import LC3.Proofs.Machine.Operations
import LC3.Proofs.Machine.Images
import LC3.Proofs.Machine.Loads
import LC3.Proofs.Assembly.Reading
import LC3.Proofs.Assembly.FirstPass
import LC3.Proofs.Assembly.SecondPass
import LC3.Proofs.Assembly.Layout
import LC3.Proofs.Assembly.Denotation
import LC3.Proofs.Assembly.Shape
import LC3.Proofs.Assembly.Emission
import LC3.Proofs.Assembly.Grammar
import LC3.Proofs.Assembly.Escapes
import LC3.Proofs.Assembly.Blame
import LC3.Proofs.Assembly.Strings
import LC3.Proofs.Assembly.Soundness
import LC3.Proofs.Assembly.Entries
import LC3.Proofs.Assembly.Formation
import LC3.Proofs.Assembly.Acceptance
import LC3.Proofs.Assembly.Agreement
import LC3.Proofs.Assembly.Rebasing
import LC3.Proofs.Assembly.Relocation
import LC3.Proofs.Assembly.Naming
import LC3.Proofs.Assembly.Extension
import LC3.Proofs.Assembly.Ending
import LC3.Proofs.Assembly.Capitals
import LC3.Proofs.Assembly.Resolution
import LC3.Proofs.Assembly.Writing
import LC3.Proofs.Assembly.Disassembly
import LC3.Proofs.Assembly.Quotation
import LC3.Proofs.Assembly.Arrangement
import LC3.Proofs.Assembly.EmptyBlock
import LC3.Proofs.Assembly.Spelling
import LC3.Proofs.Assembly.Renaming
