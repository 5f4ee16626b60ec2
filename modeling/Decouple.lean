import Decouple.Program.Text
import Decouple.Proofs.Availability
import Decouple.Proofs.WorkerPhis
import Decouple.Proofs.Ownership
import Decouple.Proofs.Arguments
import Decouple.Proofs.Outputs
import Decouple.Proofs.DominanceTrees
import Decouple.Proofs.Convergence
import Decouple.Proofs.LoopEntry
import Decouple.Proofs.WayOut
import Decouple.Proofs.Changes
import Decouple.Proofs.Frame
import Decouple.Proofs.SplitChanges
import Decouple.Proofs.Checking
import Decouple.Proofs.SplitForm
import Decouple.Proofs.WorkerReads
import Decouple.Proofs.Placement
import Decouple.Proofs.Robustness
import Decouple.Proofs.LiveLists
import Decouple.Proofs.Registering
import Decouple.Proofs.Reloads
import Decouple.Proofs.Naming
import Decouple.Proofs.Labels
import Decouple.Proofs.WorkerForm
import Decouple.Proofs.NearestBlocks
import Decouple.Proofs.Relevance
import Decouple.Proofs.Protocol
import Decouple.Proofs.LeavingOrder
import Decouple.Proofs.SweepRuns
import Decouple.Proofs.Dangling
import Decouple.Proofs.Unowned
import Decouple.Proofs.Readers
import Decouple.Proofs.Renamings
import Decouple.Proofs.SlotLaws
