import PolledUart.Call
import PolledUart.Critical.Shared
import PolledUart.Proofs.Pipe
import PolledUart.Proofs.Transfer
import PolledUart.Proofs.Invariant
import PolledUart.Proofs.Port
import PolledUart.Proofs.Conservation
import PolledUart.Proofs.Polling
import PolledUart.Proofs.RoundTrip
import PolledUart.Proofs.PollLoop
import PolledUart.Proofs.Consistency
import PolledUart.Proofs.Independence
import PolledUart.Proofs.WordOrder
import PolledUart.Proofs.Chunking
import PolledUart.Proofs.FailedCalls
import PolledUart.Proofs.Image
import PolledUart.Proofs.Transparency
import PolledUart.Proofs.Forgetting
import PolledUart.Proofs.Handles
import PolledUart.Proofs.Sending
import PolledUart.Proofs.ControlLines
import PolledUart.Proofs.Receiving
import PolledUart.Proofs.RawWords
import PolledUart.Proofs.Opening
import PolledUart.Proofs.Bindings
import PolledUart.Proofs.SharedAccess
import PolledUart.Proofs.RegisterKinds
import PolledUart.Proofs.BulkMoves
import PolledUart.Proofs.NamedRuns
import PolledUart.Proofs.BoundedQueues
import PolledUart.Proofs.ShiftQueue
