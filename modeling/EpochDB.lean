import EpochDB.Store.Db.Reopen
import EpochDB.Fetch.Schedule
import EpochDB.Exec.Crash
import EpochDB.VmChain.Head
import EpochDB.VmExec.Rebuild
import EpochDB.Store.Builder.Boundaries
import EpochDB.Store.Lifetime.Closed
import EpochDB.Store.Ef.Corrupt
import EpochDB.Store.Sealed.Scan
import EpochDB.Latest.Disk.RoundTrip
import EpochDB.Store.Read.ChainRows
import EpochDB.Store.Mem.Refused
import EpochDB.Store.Receipts.Corrupt
import EpochDB.Store.Misc
import EpochDB.Store.ScanRuns.Schedules
import EpochDB.Store.Container.Split
import EpochDB.Store.Frames
import EpochDB.Rpc.BlockTransactions
import EpochDB.Rpc.GasClock
import EpochDB.Exec.Invisible
import EpochDB.Rpc.SenderNonce
import EpochDB.Rpc.TopicGroups
import EpochDB.Commit.HexPrefix
import EpochDB.Commit.Retained
import EpochDB.Latest.Packed
import EpochDB.Host.Pull
import EpochDB.Fetch.PeerPool
import EpochDB.Store.Resident.Spans
import EpochDB.Fetch.Window
import EpochDB.Fetch.Serve
import EpochDB.Fetch.Consensus.Anchor
import EpochDB.Store.Read.Frontier
