import BlockGraph.Proofs.Totality.Calls
import BlockGraph.Proofs.Totality.Descriptors
import BlockGraph.Proofs.Scope.Walks
import BlockGraph.Proofs.Upkeep.Rerun
import BlockGraph.Proofs.Upkeep.Reordering
import BlockGraph.Proofs.Events.Coalescing
import BlockGraph.Proofs.Events.Silence
import BlockGraph.Proofs.Scope.Enumeration
import BlockGraph.Proofs.Upkeep.Growth
import BlockGraph.Proofs.Ty.Text
import BlockGraph.Proofs.Ty.Occurrence
import BlockGraph.Proofs.Workspace.Moving
import BlockGraph.Proofs.Scope.Rendering
import BlockGraph.Proofs.Records.Text
import BlockGraph.Record.Reader
import BlockGraph.Workspace.Save
