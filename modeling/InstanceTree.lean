import InstanceTree.RedBlack.Bag
import InstanceTree.Json.Printer
import InstanceTree.Json.Reader
import InstanceTree.Context.Options
import InstanceTree.Value.Order
import InstanceTree.Value.Coding
import InstanceTree.Refusal
import InstanceTree.Forest.Chain
import InstanceTree.Group.Placement
import InstanceTree.Group.Removal
import InstanceTree.Document.Export
import InstanceTree.Operation
import InstanceTree.Forest.View
import InstanceTree.Proofs.RedBlack.Shape
import InstanceTree.Proofs.Yields
import InstanceTree.Proofs.RedBlack.Layout
import InstanceTree.Proofs.RedBlack.Rotation
import InstanceTree.Proofs.RedBlack.Balance
import InstanceTree.Proofs.RedBlack.Insertion
import InstanceTree.Proofs.RedBlack.Deficit
import InstanceTree.Proofs.RedBlack.Traversal
import InstanceTree.Proofs.Edit
import InstanceTree.Proofs.Erasure.Anchored
import InstanceTree.Proofs.Erasure.Blind
import InstanceTree.Proofs.Erasure.Twins
import InstanceTree.Proofs.Group.Checking
import InstanceTree.Proofs.IndexInvariant
import InstanceTree.Proofs.OrderedForest
import InstanceTree.Proofs.ChainInvariant
import InstanceTree.Proofs.Safety
import InstanceTree.Proofs.Atomicity
import InstanceTree.Proofs.Normalization
import InstanceTree.Proofs.RoundTrip
import InstanceTree.Proofs.RedBlack.Ledger
import InstanceTree.Proofs.RedBlack.Accounting
import InstanceTree.Proofs.Transparency
import InstanceTree.Proofs.Disposability
import InstanceTree.Proofs.RedBlack.Unfolding
import InstanceTree.Proofs.RedBlack.Verdict
import InstanceTree.Proofs.RedBlack.Recognition
import InstanceTree.Proofs.RedBlack.Teardown
import InstanceTree.Proofs.ExplicitPlacement
import InstanceTree.Proofs.Capacity
import InstanceTree.Proofs.SubtreeRelease
import InstanceTree.Proofs.Undoing
import InstanceTree.Proofs.LawfulOrder
import InstanceTree.Proofs.ValueDocuments
import InstanceTree.Proofs.RedBlack.Enumeration
import InstanceTree.Proofs.SchemaAdditions
import InstanceTree.Proofs.Overwriting
import InstanceTree.Proofs.PartialImport
