import CCForge.Channel.Guarantees
import CCForge.Strand.Guarantees
import CCForge.StopSource.Guarantees
import CCForge.Hive.Guarantees
import CCForge.ThreadPool.Guarantees
import CCForge.RunLoop.Guarantees
import CCForge.CountingScope.Guarantees
import CCForge.Timer.DeliveryOrder
import CCForge.Timer.Abandonment
import CCForge.AsyncScope.Guarantees
import CCForge.WhenAll.Guarantees
import CCForge.SpawnFuture.Guarantees
import CCForge.Split.Guarantees
import CCForge.IoCombinators.WhenAny
import CCForge.IoCombinators.WhenAll
import CCForge.AsyncStream.Guarantees
import CCForge.Submdspan.Guarantees
import CCForge.Submdspan.PaddedGuarantees
import CCForge.Submdspan.CanonicalGuarantees
import CCForge.Submdspan.StaticChecks
import CCForge.Submdspan.StaticSlices
import CCForge.Epoll.Watching
import CCForge.Epoll.Guarantees
import CCForge.Iocp.Guarantees
import CCForge.Linalg.SimdGuarantees
import CCForge.Linalg.Solve
import CCForge.Linalg.RankUpdate
import CCForge.Linalg.Transposed
import CCForge.Hive.StorageGuarantees
import CCForge.Buffers.Guarantees
import CCForge.ByteStreams.Guarantees
import CCForge.ByteStreams.WriteGuarantees
import CCForge.Linalg.Norms
import CCForge.Linalg.NormBudget
import CCForge.BasicVec.Shifts
import CCForge.BasicVec.BitRepeat
import CCForge.BasicVec.Rearrangement
import CCForge.BasicVec.GatherScatter
import CCForge.IoUring.Guarantees
import CCForge.UringContext.Guarantees
import CCForge.UringContext.Shutdown
import CCForge.FrameChain.Guarantees
import CCForge.UniqueResource.Guarantees
import CCForge.Senders.Scheduling
import CCForge.FrameChain.Abandonment
import CCForge.Senders.Waiting
import CCForge.Senders.Awaitables
import CCForge.CountingScope.ClientGuarantees
