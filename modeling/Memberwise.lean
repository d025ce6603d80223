import Memberwise.Attribute
import Memberwise.Command
import Memberwise.Command.Arguments
import Memberwise.Declaration
import Memberwise.Diagnostic
import Memberwise.Expansion
import Memberwise.Expr
import Memberwise.Generated
import Memberwise.Main
import Memberwise.Member
import Memberwise.Proofs.Accepting
import Memberwise.Proofs.Accessors
import Memberwise.Proofs.Accounting
import Memberwise.Proofs.Annotations
import Memberwise.Proofs.Answering
import Memberwise.Proofs.Bodies
import Memberwise.Proofs.Breaks
import Memberwise.Proofs.Capitals
import Memberwise.Proofs.Checked.Agreement
import Memberwise.Proofs.Checked.Limits
import Memberwise.Proofs.Checked.Readers
import Memberwise.Proofs.Checked.Reading
import Memberwise.Proofs.Checked.Rows
import Memberwise.Proofs.Checked.Scanning
import Memberwise.Proofs.Clauses
import Memberwise.Proofs.Comments
import Memberwise.Proofs.Counting
import Memberwise.Proofs.Cutting
import Memberwise.Proofs.Declarations
import Memberwise.Proofs.Expressions
import Memberwise.Proofs.Faults
import Memberwise.Proofs.Fixing
import Memberwise.Proofs.Following
import Memberwise.Proofs.Fragments
import Memberwise.Proofs.Initializers
import Memberwise.Proofs.Interpolations
import Memberwise.Proofs.Keys
import Memberwise.Proofs.LineEndings
import Memberwise.Proofs.Literals
import Memberwise.Proofs.Locality
import Memberwise.Proofs.Location
import Memberwise.Proofs.Margins
import Memberwise.Proofs.Marking
import Memberwise.Proofs.Members
import Memberwise.Proofs.Nesting
import Memberwise.Proofs.Numerals
import Memberwise.Proofs.Offsets
import Memberwise.Proofs.Openings
import Memberwise.Proofs.Outcomes
import Memberwise.Proofs.Placeholders
import Memberwise.Proofs.Progress
import Memberwise.Proofs.Quoting
import Memberwise.Proofs.Readers
import Memberwise.Proofs.Recasting
import Memberwise.Proofs.Rejections
import Memberwise.Proofs.Relexing
import Memberwise.Proofs.Removal
import Memberwise.Proofs.Rendering
import Memberwise.Proofs.Repeating
import Memberwise.Proofs.Replacing
import Memberwise.Proofs.Requests
import Memberwise.Proofs.Rereading
import Memberwise.Proofs.Retracing
import Memberwise.Proofs.Returns
import Memberwise.Proofs.Rounds
import Memberwise.Proofs.Scanning
import Memberwise.Proofs.Seams
import Memberwise.Proofs.Shapes
import Memberwise.Proofs.Splicing
import Memberwise.Proofs.Stability
import Memberwise.Proofs.Steadiness
import Memberwise.Proofs.Stopping
import Memberwise.Proofs.Taking
import Memberwise.Proofs.Tiling
import Memberwise.ReadError
import Memberwise.Reading.Attributes
import Memberwise.Reading.Expression
import Memberwise.Reading.Outline
import Memberwise.Reading.Property
import Memberwise.Reading.Run
import Memberwise.Reading.Stream
import Memberwise.Sorting
import Memberwise.Synthesis
import Memberwise.Text
import Memberwise.Text.Case
import Memberwise.Text.Json
import Memberwise.Text.Printable
import Memberwise.Text.Terminal
import Memberwise.Token
import Memberwise.Token.Scan
import Memberwise.Token.Lexeme
import Memberwise.Token.Quotation
