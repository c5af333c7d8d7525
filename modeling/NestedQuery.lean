import NestedQuery.Main
import NestedQuery.Proofs.Json.Compact
import NestedQuery.Proofs.Json.Distinct
import NestedQuery.Proofs.Json.Forgetting
import NestedQuery.Proofs.Json.Formats
import NestedQuery.Proofs.Json.JoinKeys
import NestedQuery.Proofs.Json.Leaves
import NestedQuery.Proofs.Json.Matching
import NestedQuery.Proofs.Json.Paths
import NestedQuery.Proofs.Json.Sameness
import NestedQuery.Proofs.Json.Writes
import NestedQuery.Proofs.Number.Layout
import NestedQuery.Proofs.Number.Rounding
import NestedQuery.Proofs.Plan.Accounting
import NestedQuery.Proofs.Plan.Changing
import NestedQuery.Proofs.Plan.Compiled
import NestedQuery.Proofs.Plan.Determined
import NestedQuery.Proofs.Plan.Edits
import NestedQuery.Proofs.Plan.Failing
import NestedQuery.Proofs.Plan.FieldLists
import NestedQuery.Proofs.Plan.Fitting
import NestedQuery.Proofs.Plan.Formats
import NestedQuery.Proofs.Plan.Naming
import NestedQuery.Proofs.Plan.Preorder
import NestedQuery.Proofs.Plan.Pruning
import NestedQuery.Proofs.Plan.Reordering
import NestedQuery.Proofs.Plan.Separation
import NestedQuery.Proofs.Plan.Sound
import NestedQuery.Proofs.Plan.Stopping
import NestedQuery.Proofs.Plan.Twin
import NestedQuery.Proofs.Plan.Written
import NestedQuery.Proofs.Resolve.Agreement
import NestedQuery.Proofs.Resolve.Answers
import NestedQuery.Proofs.Resolve.Bookkeeping
import NestedQuery.Proofs.Resolve.Calls
import NestedQuery.Proofs.Resolve.Confinement
import NestedQuery.Proofs.Resolve.Creation
import NestedQuery.Proofs.Resolve.Discipline
import NestedQuery.Proofs.Resolve.Failures
import NestedQuery.Proofs.Resolve.FirstOfList
import NestedQuery.Proofs.Resolve.Handed
import NestedQuery.Proofs.Resolve.Honoured
import NestedQuery.Proofs.Resolve.Isolation
import NestedQuery.Proofs.Resolve.JoinIndex
import NestedQuery.Proofs.Resolve.Kin
import NestedQuery.Proofs.Resolve.Memory
import NestedQuery.Proofs.Resolve.NestedLoops
import NestedQuery.Proofs.Resolve.Operations
import NestedQuery.Proofs.Resolve.OwnParent
import NestedQuery.Proofs.Resolve.Projection
import NestedQuery.Proofs.Resolve.Ranked
import NestedQuery.Proofs.Resolve.Replay
import NestedQuery.Proofs.Resolve.Selection
import NestedQuery.Proofs.Resolve.Shaping
import NestedQuery.Proofs.Resolve.Siblings
import NestedQuery.Proofs.Resolve.Sorting
import NestedQuery.Proofs.Resolve.Stitching
import NestedQuery.Proofs.Resolve.Temporaries
import NestedQuery.Proofs.Resolve.Tour
import NestedQuery.Proofs.Schema.Accepted
import NestedQuery.Proofs.Schema.Formats
import NestedQuery.Proofs.Schema.Registration
import NestedQuery.Proofs.SortedMap
import NestedQuery.Proofs.Text.Dotted
import NestedQuery.Proofs.Text.Pieces
import NestedQuery.Proofs.Resolve.ReadBack
import NestedQuery.Proofs.Schema.WellFormed
