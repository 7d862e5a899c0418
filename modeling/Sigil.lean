import Sigil.Main
import Sigil.Proofs.Command.Ending
import Sigil.Proofs.Command.Outcome
import Sigil.Proofs.Command.Run
import Sigil.Proofs.Command.Session
import Sigil.Proofs.Document.Declaration
import Sigil.Proofs.Document.Declared
import Sigil.Proofs.Document.Expression
import Sigil.Proofs.Document.Name
import Sigil.Proofs.Document.Written
import Sigil.Proofs.Expr.Blame
import Sigil.Proofs.Expr.Comma
import Sigil.Proofs.Expr.Completeness
import Sigil.Proofs.Expr.Data
import Sigil.Proofs.Expr.Extent
import Sigil.Proofs.Expr.Fault
import Sigil.Proofs.Expr.Grammar
import Sigil.Proofs.Expr.Height
import Sigil.Proofs.Expr.Image
import Sigil.Proofs.Expr.Limit
import Sigil.Proofs.Expr.LineEnds
import Sigil.Proofs.Expr.Locality
import Sigil.Proofs.Expr.Place
import Sigil.Proofs.Expr.Reading
import Sigil.Proofs.Expr.Shape
import Sigil.Proofs.Expr.Soundness
import Sigil.Proofs.Expr.Tagged
import Sigil.Proofs.Number.Decimal
import Sigil.Proofs.Number.Nearest
import Sigil.Proofs.Number.Numeral
import Sigil.Proofs.Number.Rounding
import Sigil.Proofs.Number.Text
import Sigil.Proofs.Registry.Appended
import Sigil.Proofs.Registry.Merge
import Sigil.Proofs.Resolve.Access
import Sigil.Proofs.Resolve.Budget
import Sigil.Proofs.Resolve.Compare
import Sigil.Proofs.Resolve.Cycle
import Sigil.Proofs.Resolve.Dependency
import Sigil.Proofs.Resolve.Exhaustion
import Sigil.Proofs.Resolve.FixedPoint
import Sigil.Proofs.Resolve.Flat
import Sigil.Proofs.Resolve.Foreign
import Sigil.Proofs.Resolve.Foreseen
import Sigil.Proofs.Resolve.Form
import Sigil.Proofs.Resolve.Height
import Sigil.Proofs.Resolve.Invariant
import Sigil.Proofs.Resolve.Layers
import Sigil.Proofs.Resolve.Limit
import Sigil.Proofs.Resolve.Live
import Sigil.Proofs.Resolve.Nesting
import Sigil.Proofs.Resolve.Policy
import Sigil.Proofs.Resolve.Reach
import Sigil.Proofs.Resolve.Relevance
import Sigil.Proofs.Resolve.Report
import Sigil.Proofs.Resolve.Residue
import Sigil.Proofs.Resolve.Siblings
import Sigil.Proofs.Resolve.Stages
import Sigil.Proofs.Resolve.Termination
import Sigil.Proofs.Resolve.Trace
import Sigil.Proofs.Resolve.Untouched
import Sigil.Proofs.Resolve.Weight
import Sigil.Proofs.Rows
import Sigil.Proofs.Schema.Accepted
import Sigil.Proofs.Schema.Defect
import Sigil.Proofs.Schema.Fields
import Sigil.Proofs.Schema.Scalar
import Sigil.Proofs.Text.Lines
import Sigil.Proofs.Text.Quoted
import Sigil.Proofs.Text.Row
import Sigil.Proofs.Text.Segment
import Sigil.Proofs.Text.Utf8
import Sigil.Proofs.Token.Canonical
import Sigil.Proofs.Token.Fault
import Sigil.Proofs.Token.Joined
import Sigil.Proofs.Token.Lexes
import Sigil.Proofs.Token.Passed
import Sigil.Proofs.Token.Respaced
import Sigil.Proofs.Token.Spans
import Sigil.Proofs.Token.Spelling
import Sigil.Proofs.Token.Written
