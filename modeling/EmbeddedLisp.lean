import EmbeddedLisp.Text.Extent
import EmbeddedLisp.Text.Utf8
import EmbeddedLisp.Text.Blank
import EmbeddedLisp.Text.Visible
import EmbeddedLisp.Text.Quoted
import EmbeddedLisp.Number.Digits
import EmbeddedLisp.Number.Integer
import EmbeddedLisp.Number.Binary64
import EmbeddedLisp.Number.Decimal
import EmbeddedLisp.Number.Shortest
import EmbeddedLisp.Token.Basic
import EmbeddedLisp.Token.Rules
import EmbeddedLisp.Token.Lexer
import EmbeddedLisp.Bindings
import EmbeddedLisp.Value.Signature
import EmbeddedLisp.Value.Basic
import EmbeddedLisp.Value.Equality
import EmbeddedLisp.Value.Text
import EmbeddedLisp.Reader.Literal
import EmbeddedLisp.Reader.Error
import EmbeddedLisp.Reader.Basic
import EmbeddedLisp.Reader.Expression
import EmbeddedLisp.Reader.Parser
import EmbeddedLisp.Environment
import EmbeddedLisp.Evaluation.Error
import EmbeddedLisp.Evaluation.Access
import EmbeddedLisp.Evaluation.Call
import EmbeddedLisp.Evaluation.Basic
import EmbeddedLisp.Output.Writer
import EmbeddedLisp.Output.Sink
import EmbeddedLisp.Builtin.Format
import EmbeddedLisp.Builtin.Basic
import EmbeddedLisp.Session
import EmbeddedLisp.Command.Arguments
import EmbeddedLisp.Command.Repl
import EmbeddedLisp.Command.Perform
import EmbeddedLisp.Main
import EmbeddedLisp.Proofs.Grammar
import EmbeddedLisp.Proofs.Parsing
import EmbeddedLisp.Proofs.Lexing
import EmbeddedLisp.Proofs.Reading
import EmbeddedLisp.Proofs.Numerals
import EmbeddedLisp.Proofs.Literals
import EmbeddedLisp.Proofs.Legible
import EmbeddedLisp.Proofs.OpenQuotes
import EmbeddedLisp.Proofs.Rendering
import EmbeddedLisp.Proofs.RoundTrip
import EmbeddedLisp.Proofs.Forms
import EmbeddedLisp.Proofs.Depth
import EmbeddedLisp.Proofs.Prefixes
import EmbeddedLisp.Proofs.Joining
import EmbeddedLisp.Proofs.Bytes
import EmbeddedLisp.Proofs.Scanning
import EmbeddedLisp.Proofs.Native
import EmbeddedLisp.Proofs.Faultless
import EmbeddedLisp.Proofs.Coupling
import EmbeddedLisp.Proofs.Footprint
import EmbeddedLisp.Proofs.Coincidence
import EmbeddedLisp.Proofs.Commuting
import EmbeddedLisp.Proofs.Scope
import EmbeddedLisp.Proofs.Spacing
import EmbeddedLisp.Proofs.StringUnits
import EmbeddedLisp.Proofs.Calling
import EmbeddedLisp.Proofs.Accounting
import EmbeddedLisp.Proofs.Cursors
import EmbeddedLisp.Proofs.Equality
import EmbeddedLisp.Proofs.Formatting
import EmbeddedLisp.Proofs.Resuming
import EmbeddedLisp.Proofs.Summation
import EmbeddedLisp.Proofs.Narrowing
import EmbeddedLisp.Proofs.Levels
import EmbeddedLisp.Proofs.Locations
