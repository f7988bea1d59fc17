import Sinew.Lib.Cursors
import Sinew.Proofs.Accepted
import Sinew.Proofs.Atomic
import Sinew.Proofs.Custody
import Sinew.Proofs.Names
import Sinew.Proofs.Reproducible
import Sinew.Lib.Rely
import Sinew.Proofs.Checksum
import Sinew.Proofs.Corruption
import Sinew.Proofs.Message
import Sinew.Proofs.WireRoundTrip
import Sinew.Proofs.PortableRoundTrip
import Sinew.Proofs.PortableTwice
import Sinew.Proofs.Monitor
import Sinew.Proofs.AskingRuns
import Sinew.Proofs.TurnRuns
import Sinew.Proofs.LaunchRuns
import Sinew.Proofs.Bridge
import Sinew.Proofs.Handles
import Sinew.Proofs.AttachSound
import Sinew.Proofs.Exclusive
import Sinew.Proofs.Exposed
import Sinew.Proofs.RelaxedBridge
import Sinew.Proofs.RelaxedSessions
import Sinew.Proofs.WindowsRuns
import Sinew.Proofs.TwoBits
import Sinew.Proofs.Bswap
