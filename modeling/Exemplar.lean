import Exemplar.Main
import Exemplar.Samples
import Exemplar.Shape.Encoding
import Exemplar.Proofs.Repetition
import Exemplar.Proofs.Tree
import Exemplar.Proofs.Store.Order
import Exemplar.Proofs.Merge.Outcome
import Exemplar.Proofs.Tree.Merging
import Exemplar.Proofs.Store.Unfolding
import Exemplar.Proofs.Merge.Refinement
import Exemplar.Proofs.Inference.Outcome
import Exemplar.Proofs.Store.History
import Exemplar.Proofs.Tree.Soundness
import Exemplar.Proofs.Tree.FixedPoints
import Exemplar.Proofs.Inference.Session
import Exemplar.Proofs.Inference.Tightness
import Exemplar.Proofs.Inference.Items
import Exemplar.Proofs.Definition.Order
import Exemplar.Proofs.Definition.Collection
import Exemplar.Proofs.Definition.Reach
import Exemplar.Proofs.Definition.Inlining
import Exemplar.Proofs.Definition.Naming
import Exemplar.Proofs.Definition.BaseName
import Exemplar.Proofs.Definition.Numbering
import Exemplar.Proofs.Definition.Serialization
import Exemplar.Proofs.Definition.Residue
import Exemplar.Proofs.Definition.WellFormed
import Exemplar.Proofs.Samples
import Exemplar.Proofs.Samples.Failure
import Exemplar.Proofs.Inference.Observations
import Exemplar.Proofs.Shape.Encoding
import Exemplar.Proofs.Tree.Inclusion
import Exemplar.Proofs.Samples.Growth
import Exemplar.Proofs.Samples.Reordering
import Exemplar.Proofs.Merge.Variation
import Exemplar.Proofs.Inference.Marking
import Exemplar.Proofs.Merge.Depth
import Exemplar.Proofs.Merge.Acceptance
import Exemplar.Proofs.Inference.Depth
import Exemplar.Proofs.Definition.Unfolding
import Exemplar.Proofs.Inference.Regular
import Exemplar.Proofs.Definition.Normal
import Exemplar.Proofs.Definition.NormalForm
import Exemplar.Proofs.Definition.Rendering
import Exemplar.Proofs.Samples.NormalForm
import Exemplar.Proofs.Samples.Sharing
import Exemplar.Proofs.Samples.Repetition
import Exemplar.Proofs.Inference.Guards
import Exemplar.Proofs.Json.Blanks
import Exemplar.Proofs.Document
import Exemplar.Proofs.Report
import Exemplar.Proofs.Samples.TypeNames
import Exemplar.Proofs.Definition.FreeNumber
import Exemplar.Proofs.Reply
import Exemplar.Proofs.Options
import Exemplar.Proofs.Options
