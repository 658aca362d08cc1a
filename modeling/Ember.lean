import Ember.Command
import Ember.Command.Directory
import Ember.Command.Directory.Store
import Ember.Command.Files
import Ember.Command.Flags
import Ember.Database
import Ember.Database.Address
import Ember.Database.Image
import Ember.Database.StoreError
import Ember.Datatype
import Ember.Diagnostic
import Ember.Diagnostic.Report
import Ember.Dot
import Ember.Fold
import Ember.Format.Expression
import Ember.Format.Fragment
import Ember.Format.Program
import Ember.Lexeme
import Ember.Location
import Ember.Main
import Ember.Parser.Basic
import Ember.Parser.Expression
import Ember.Parser.Program
import Ember.Parser.Statement
import Ember.Repl
import Ember.Repl.History
import Ember.Run.Eval
import Ember.Run.Machine
import Ember.Run.Session
import Ember.Run.Value
import Ember.SymbolTable
import Ember.Text.Digit
import Ember.Text.Glyph
import Ember.Text.Letter
import Ember.Text.Percent
import Ember.Text.Printable
import Ember.Text.Query
import Ember.Text.Quoted
import Ember.Text.Template
import Ember.Token
import Ember.Token.Cursor
import Ember.Token.Piece
import Ember.Token.Piece.Lemmas
import Ember.Tree
import Ember.Tree.Kind
import Ember.Tree.Literal
import Ember.Tree.Operator
import Ember.Tree.Outline
import Ember.Wat.Host
import Ember.Wat.Instr
import Ember.Wat.Lower
import Ember.Wat.Scope
import Ember.Wat.Text
import Ember.Proofs.Grammar.Expression
import Ember.Proofs.Grammar.Statement
import Ember.Proofs.Grammar.Program
import Ember.Proofs.Parser.Progress
import Ember.Proofs.Parser.Steps
import Ember.Proofs.Parser.Loops
import Ember.Proofs.Parser.Outcome
import Ember.Proofs.Parser.Rules
import Ember.Proofs.Parser.Reading.Expression
import Ember.Proofs.Parser.Reading.Statement
import Ember.Proofs.Parser.Reading.Program
import Ember.Proofs.Parser.Acceptance.Expression
import Ember.Proofs.Parser.Acceptance.Statement
import Ember.Proofs.Parser.Acceptance.Program
import Ember.Proofs.Grammar.DanglingElse
import Ember.Proofs.Lexer.Split
import Ember.Proofs.Parser.Exact
import Ember.Proofs.Fold.Machine
import Ember.Proofs.Fold.Run
import Ember.Proofs.Run.Frames
import Ember.Proofs.Run.Course
import Ember.Proofs.Lexer.Decoding
import Ember.Proofs.Lexer.Extension
import Ember.Proofs.Lexer.Layout
import Ember.Proofs.Parser.Limit
import Ember.Proofs.Lexer.Spelling
import Ember.Proofs.Lexer.Stream
import Ember.Proofs.Parser.Incomplete
import Ember.Proofs.Format.Shape
import Ember.Proofs.Format.Expression
import Ember.Proofs.Format.Statement
import Ember.Proofs.Format.Program
import Ember.Proofs.Lexer.Readable
import Ember.Proofs.Format.Legible
import Ember.Proofs.Format.Spacing
import Ember.Proofs.Format.RoundTrip
import Ember.Proofs.Lexer.RoundTrip
import Ember.Proofs.Format.Brackets
import Ember.Proofs.Format.Fixpoint
import Ember.Proofs.Format.Nesting
import Ember.Proofs.Format.Limit
import Ember.Proofs.Run.Storage
import Ember.Proofs.Wat.Declared
import Ember.Proofs.Run.Lands
import Ember.Proofs.Wat.Faithful
import Ember.Proofs.Wat.Acceptance
import Ember.Proofs.Wat.Execution
import Ember.Proofs.Wat.Operands
import Ember.Proofs.Wat.Supported
import Ember.Proofs.Wat.Agreement
import Ember.Proofs.Wat.Evaluation
import Ember.Proofs.Wat.CallFree
import Ember.Proofs.Wat.Control
import Ember.Proofs.Wat.Simulation
import Ember.Proofs.Wat.Correctness
import Ember.Proofs.Wat.Sexp
import Ember.Proofs.Wat.Validation
import Ember.Proofs.Wat.Spelling
import Ember.Proofs.Wat.Decoding
import Ember.Proofs.Wat.Typing
import Ember.Proofs.Wat.Validity
import Ember.Proofs.Run.Leads
import Ember.Proofs.Run.Stack
import Ember.Proofs.Run.Discipline
import Ember.Proofs.Lexer.Lossless
import Ember.Proofs.Naming.Tree
import Ember.Proofs.Naming.Parser
import Ember.Proofs.Naming.Index
import Ember.Proofs.Naming.Machine
import Ember.Proofs.Naming.Run
import Ember.Proofs.Naming.Independence
import Ember.Proofs.Pieces.Joined
import Ember.Proofs.Pieces.Feeding
import Ember.Proofs.Recovery.Stretch
import Ember.Proofs.Recovery.Steps
import Ember.Proofs.Recovery.Isolation
import Ember.Proofs.Sound.Tree
import Ember.Proofs.Sound.Parser
import Ember.Proofs.Sound.Printing
import Ember.Proofs.Sound.Lower
import Ember.Proofs.Sound.Checked
import Ember.Proofs.Sound.Run
import Ember.Proofs.Sound.Program
import Ember.Proofs.Surface.Frames
import Ember.Proofs.Surface.Forms
import Ember.Proofs.Surface.Meaning
import Ember.Proofs.Run.Lines
import Ember.Proofs.Wat.Output
import Ember.Proofs.Wat.Printing
import Ember.Proofs.Parser.Merging
import Ember.Proofs.Precedence.Row
import Ember.Proofs.Outline.Dump
import Ember.Proofs.Fold.Normal
import Ember.Proofs.Dot.Graph
import Ember.Proofs.Grammar.Settled
import Ember.Proofs.Recovery.Salvage
import Ember.Proofs.Recovery.Derivation
import Ember.Proofs.Outline.Parts
import Ember.Proofs.Dot.Reading
import Ember.Proofs.Format.Explicit
import Ember.Proofs.Grammar.Copies
import Ember.Proofs.Outline.Growth
import Ember.Proofs.Recovery.Shape
import Ember.Proofs.Wat.Refusal
import Ember.Proofs.Run.Root
import Ember.Proofs.Command.Frame
import Ember.Proofs.Outline.Depth
import Ember.Proofs.Wat.Narrowing
import Ember.Proofs.Lexer.Lookahead
