import SchemaMerge.Main
import SchemaMerge.Proofs.CommandLine.Frame
import SchemaMerge.Proofs.Diagnostic.Snippet
import SchemaMerge.Proofs.FileTree.Discovery
import SchemaMerge.Proofs.Merge.Absorption
import SchemaMerge.Proofs.Merge.Comparison
import SchemaMerge.Proofs.Merge.Compatible
import SchemaMerge.Proofs.Merge.Conflicts
import SchemaMerge.Proofs.Merge.Contributors
import SchemaMerge.Proofs.Merge.DirectiveLists
import SchemaMerge.Proofs.Merge.FirstConflict
import SchemaMerge.Proofs.Merge.Noninterference
import SchemaMerge.Proofs.Merge.Order
import SchemaMerge.Proofs.Merge.Repetition
import SchemaMerge.Proofs.Printing.DirectiveOrder
import SchemaMerge.Proofs.Printing.IndentPattern
import SchemaMerge.Proofs.Printing.TypeOrder
import SchemaMerge.Proofs.Reading.Append
import SchemaMerge.Proofs.Reading.Breaks
import SchemaMerge.Proofs.Reading.Commas
import SchemaMerge.Proofs.Reading.Comments
import SchemaMerge.Proofs.Reading.Trailing
import SchemaMerge.Proofs.RoundTrip.FixedPoint
import SchemaMerge.Proofs.RoundTrip.Printable
import SchemaMerge.Proofs.RoundTrip.Tokens
import SchemaMerge.Proofs.Token.Integer
import SchemaMerge.Proofs.Token.Lossless
import SchemaMerge.Proofs.Value.Storing
