import NebulaX.Proofs.Representation
import NebulaX.Proofs.PriceTime
import NebulaX.Proofs.ReusedRefs
import NebulaX.Proofs.Isolation
import NebulaX.Proofs.NonInterference
import NebulaX.Proofs.Cancellable
import NebulaX.Proofs.Uncrossed
import NebulaX.Proofs.Conservation
import NebulaX.Proofs.Validity
import NebulaX.Proofs.WalCancel
import NebulaX.Proofs.WalRuns
import NebulaX.Proofs.WalMessages
import NebulaX.Proofs.WalTwice
import NebulaX.Proofs.WalSessions
import NebulaX.Proofs.Checkpoint
import NebulaX.Proofs.SharedRuns
import NebulaX.Proofs.SharedCompaction
import NebulaX.Proofs.Snapshot
import NebulaX.Proofs.OrderMapRuns
import NebulaX.Proofs.Framing
import NebulaX.Proofs.Terminal
import NebulaX.Proofs.Ouch
import NebulaX.Proofs.ByteRing
import NebulaX.Proofs.SendThread
import NebulaX.Proofs.Delivery
import NebulaX.Proofs.FillOrKill
import NebulaX.Proofs.Atomicity
import NebulaX.Proofs.TopOfBook
import NebulaX.Proofs.TradeRecords
import NebulaX.Proofs.ItchWire
import NebulaX.Proofs.MpscRing
import NebulaX.Proofs.ConnTable
import NebulaX.Proofs.PoolThreads
import NebulaX.Proofs.OuchCancel
import NebulaX.Proofs.OuchChecksum
import NebulaX.Proofs.OuchEnter
import NebulaX.Proofs.OuchPrices
import NebulaX.Proofs.MapRuns
import NebulaX.Proofs.BookThreads
import NebulaX.Proofs.Replica
import NebulaX.Proofs.Restart
import NebulaX.Proofs.Logger
import NebulaX.Proofs.ItchServer
