import SplitTraversal.Buffer.Checked
import SplitTraversal.Buffer.Growth
import SplitTraversal.Buffer.Reach
import SplitTraversal.Range.Dialogue
import SplitTraversal.Range.Reach
import SplitTraversal.Sequence.Nodes
import SplitTraversal.Sequence.Reach
import SplitTraversal.Sequence.Resolution
import SplitTraversal.Builder.Draft
import SplitTraversal.Built.Reach
import SplitTraversal.Concat
import SplitTraversal.Search
import SplitTraversal.Session.Run
import SplitTraversal.Proofs.Range.Traversal
import SplitTraversal.Proofs.Range.Arithmetic
import SplitTraversal.Proofs.Range.Interval
import SplitTraversal.Proofs.Range.Split
import SplitTraversal.Proofs.Range.Widening
import SplitTraversal.Proofs.Buffer.Traversal
import SplitTraversal.Proofs.Buffer.Geometry
import SplitTraversal.Proofs.Buffer.Representation
import SplitTraversal.Proofs.Sequence.Traversal
import SplitTraversal.Proofs.Sequence.Association
import SplitTraversal.Proofs.Sequence.Bisimulation
import SplitTraversal.Proofs.Sequence.Conservation
import SplitTraversal.Proofs.Sequence.Estimate
import SplitTraversal.Proofs.Sequence.ExactSize
import SplitTraversal.Proofs.Sequence.Exhaustion
import SplitTraversal.Proofs.Sequence.Guarantees
import SplitTraversal.Proofs.Sequence.Iteration
import SplitTraversal.Proofs.Sequence.Leaves
import SplitTraversal.Proofs.Sequence.Narrowing
import SplitTraversal.Proofs.Sequence.Order
import SplitTraversal.Proofs.Sequence.Unwinding
import SplitTraversal.Proofs.Builder
import SplitTraversal.Proofs.Checkpoint
import SplitTraversal.Proofs.Close
import SplitTraversal.Proofs.Concat
import SplitTraversal.Proofs.Parallel
import SplitTraversal.Proofs.Search
