import FieldMapping.Check
import FieldMapping.CommandLine.Directory
import FieldMapping.CommandLine.Host
import FieldMapping.CommandLine.Invocation
import FieldMapping.CommandLine.Item
import FieldMapping.CommandLine.Run
import FieldMapping.Cursor
import FieldMapping.Document
import FieldMapping.Fault
import FieldMapping.Guide
import FieldMapping.Json
import FieldMapping.Log
import FieldMapping.Main
import FieldMapping.Proofs.Check.Modes
import FieldMapping.Proofs.CommandLine.Routes
import FieldMapping.Proofs.Composition.Enclosing
import FieldMapping.Proofs.Composition.Joining
import FieldMapping.Proofs.Fault.Completion
import FieldMapping.Proofs.Fault.Decided
import FieldMapping.Proofs.Fault.Limit
import FieldMapping.Proofs.Fault.Place
import FieldMapping.Proofs.Grammar.Broken
import FieldMapping.Proofs.Grammar.Completing
import FieldMapping.Proofs.Grammar.Failing
import FieldMapping.Proofs.Grammar.Forking
import FieldMapping.Proofs.Grammar.Image
import FieldMapping.Proofs.Grammar.Lacing
import FieldMapping.Proofs.Grammar.Parsing
import FieldMapping.Proofs.Grammar.Reading
import FieldMapping.Proofs.Grammar.Rules
import FieldMapping.Proofs.Invariance.Blanks
import FieldMapping.Proofs.Invariance.Literals
import FieldMapping.Proofs.Invariance.Replacing
import FieldMapping.Proofs.Invariance.Separators
import FieldMapping.Proofs.Json.Grammar
import FieldMapping.Proofs.Json.Recovery
import FieldMapping.Proofs.Json.Spacing
import FieldMapping.Proofs.Json.Writing
import FieldMapping.Proofs.Layout.Deriving
import FieldMapping.Proofs.Layout.Lexeme
import FieldMapping.Proofs.Layout.Lookahead
import FieldMapping.Proofs.Layout.RoundTrip
import FieldMapping.Proofs.Online.Literal
import FieldMapping.Proofs.Online.Parsing
import FieldMapping.Proofs.Online.Quotes
import FieldMapping.Proofs.Online.Reader
import FieldMapping.Proofs.Online.Reading
import FieldMapping.Proofs.Online.Values
import FieldMapping.Proofs.Progress.Agreement
import FieldMapping.Proofs.Progress.Bounds
import FieldMapping.Proofs.Progress.Descent
import FieldMapping.Proofs.Progress.Loops
import FieldMapping.Proofs.Session.Calling
import FieldMapping.Proofs.Session.Depth
import FieldMapping.Proofs.Session.Leaving
import FieldMapping.Proofs.Session.Logging
import FieldMapping.Proofs.Session.Resuming
import FieldMapping.Proofs.Statement.Atoms
import FieldMapping.Proofs.Statement.Shape
import FieldMapping.Proofs.Statement.Tree
import FieldMapping.Proofs.SyntaxError.Caret
import FieldMapping.Proofs.SyntaxError.Position
import FieldMapping.Proofs.SyntaxError.Window
import FieldMapping.Proofs.Text.Boundaries
import FieldMapping.Proofs.Text.Lines
import FieldMapping.Proofs.Text.Pieces
import FieldMapping.Proofs.Text.Trimming
import FieldMapping.Reading.Items
import FieldMapping.Reading.Origin
import FieldMapping.Reading.Value
import FieldMapping.Reading.Walk
import FieldMapping.Scan
import FieldMapping.Statement
import FieldMapping.Statement.Json
import FieldMapping.SyntaxError
import FieldMapping.Text.Bytes
import FieldMapping.Text.Lines
import FieldMapping.Text.Space
import FieldMapping.Token
