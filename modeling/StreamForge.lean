import StreamForge.Net.WakeupChannel
import StreamForge.Broker.FailedCommit
import StreamForge.Broker.Durability
import StreamForge.Broker.GroupRegistry
import StreamForge.Broker.Generations
import StreamForge.Broker.OffsetRecovery
import StreamForge.Net.TaskBound
import StreamForge.Net.ReadStall
import StreamForge.Net.ServedRequests
import StreamForge.Storage.SizeGuard
import StreamForge.Storage.Holes
import StreamForge.Storage.QuickCheck
import StreamForge.Storage.RecordIntegrity
import StreamForge.Broker.FairShares
import StreamForge.Storage.NoWrap
import StreamForge.Storage.FullScanMarker
import StreamForge.Broker.OffsetBound
import StreamForge.Broker.Acknowledged
import StreamForge.Broker.DryRun
import StreamForge.Broker.FetchedRecords
import StreamForge.Net.ThreadPool
