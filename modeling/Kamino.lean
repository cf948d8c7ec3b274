import Kamino.Proofs.LockCalls
import Kamino.Proofs.Residue
import Kamino.Proofs.ReadCalls
import Kamino.Proofs.Replication
import Kamino.Proofs.Rebalance
import Kamino.Proofs.Owners
import Kamino.Proofs.Stalling
import Kamino.Proofs.Views
import Kamino.Proofs.Leave
import Kamino.Proofs.Quiescence
import Kamino.Proofs.Probes
import Kamino.Proofs.Internode
import Kamino.Proofs.Session
import Kamino.Proofs.PubSub
import Kamino.Proofs.Isolation
import Kamino.Proofs.Rmw
import Kamino.Proofs.Glob
import Kamino.Proofs.Remote
import Kamino.Proofs.MultiNode
import Kamino.Proofs.ScanPattern
import Kamino.Proofs.DelReplies
import Kamino.Proofs.Gets
import Kamino.Proofs.Counters
import Kamino.Proofs.Expiry
import Kamino.Proofs.ExportImport
import Kamino.Proofs.TimestampSource
