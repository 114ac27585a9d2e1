import XPath.Lazy.Conjunction
import XPath.Lazy.ItemAtomization
import XPath.Lazy.Sequence
import XPath.Nodes.Sort
import XPath.Proofs.Atomic.Division
import XPath.Proofs.Atomic.Spelling
import XPath.Proofs.Expr.Buckets
import XPath.Proofs.Expr.Suspension
import XPath.Proofs.Lazy.Conversion
import XPath.Proofs.Lazy.DeepReflexivity
import XPath.Proofs.Lazy.DeepSymmetry
import XPath.Proofs.Lazy.Peeking
import XPath.Proofs.Lazy.Sources
import XPath.Proofs.Library.Lookup
import XPath.Proofs.Library.Sorting
import XPath.Proofs.Nodes.KeyRuns
import XPath.Proofs.Expr.Comparison
import XPath.Proofs.Expr.Isolation
import XPath.Proofs.Expr.Filtering
import XPath.Proofs.Expr.Positions
import XPath.Proofs.Expr.Steps
import XPath.Proofs.Nodes.CanonicalOrder
import XPath.Proofs.Nodes.Changes
import XPath.Proofs.Lazy.NodeVerdicts
import XPath.Proofs.Library.Editing
import XPath.Proofs.Nodes.Nesting
import XPath.Proofs.Nodes.Identifiers
import XPath.Proofs.Lazy.Atomization
import XPath.Proofs.Library.Flattening
import XPath.Proofs.Lazy.Verdicts
import XPath.Proofs.Lazy.Lengths
import XPath.Proofs.Lazy.Truth
import XPath.Proofs.Expr.ShortCircuit
import XPath.Proofs.Atomic.QualifiedNames
import XPath.Proofs.Time.Clocks
import XPath.Proofs.Time.DurationBounds
import XPath.Proofs.Expr.Histories
import XPath.Proofs.Library.Callables
import XPath.Proofs.Atomic.Instants
import XPath.Proofs.Expr.Ranking
