import Sigil.Decimal.Format
import Sigil.Json.Printer
import Sigil.Json.Reader
import Sigil.Syntax.Parse
import Sigil.Syntax.Stored
import Sigil.Store.Scope
import Sigil.Store.View
import Sigil.Text.Grapheme.Cluster
import Sigil.Eval.Node
import Sigil.CommandLine.Run
import Sigil.Main
import Sigil.Proofs.CommandLine.Emission
import Sigil.Proofs.Containers
import Sigil.Proofs.EarlyReturn
import Sigil.Proofs.Hoisting
import Sigil.Proofs.Immutability
import Sigil.Proofs.Knots
import Sigil.Proofs.Safety.Run
import Sigil.Proofs.Scoping
import Sigil.Proofs.Stored
import Sigil.Proofs.Surface.RoundTrip
import Sigil.Proofs.Tracing
import Sigil.Proofs.Trace.Messages
import Sigil.Proofs.Trace.Levels
import Sigil.Proofs.Trace.File
import Sigil.Proofs.Validity.References
import Sigil.Proofs.Validity.Searches
import Sigil.Proofs.Validity.Evaluation
import Sigil.Proofs.Validity.Sessions
import Sigil.Proofs.Normalization
import Sigil.Proofs.Layout.Comments
import Sigil.Proofs.Layout.Spacing
import Sigil.Proofs.Surface.Dangling
import Sigil.Proofs.Surface.Formula
import Sigil.Proofs.Template.Segments
import Sigil.Proofs.Validity.Visibility
import Sigil.Proofs.Template.Expressions
import Sigil.Proofs.Binders
import Sigil.Proofs.Validity.Redefinition
import Sigil.Proofs.Namespaces.Initialization
import Sigil.Proofs.Renaming.Loops
import Sigil.Proofs.ByValue.Sessions
import Sigil.Proofs.Calls.Arity
import Sigil.Proofs.Renaming.Callbacks
import Sigil.Proofs.Data.Unambiguous
import Sigil.Proofs.Objects
import Sigil.Proofs.Characters.Library
import Sigil.Proofs.Termination.CallFree
