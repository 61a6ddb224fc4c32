import OcfCache.SpaceLimits
import OcfCache.MetadataSync
import OcfCache.Collision
import OcfCache.RestoreRuns
import OcfCache.PolicySwitch
import OcfCache.AlockAllOrNothing
import OcfCache.EvictionWaiters
import OcfCache.CleanerReport
import OcfCache.CleanerDirty
import OcfCache.OccupancyRuns
import OcfCache.NhitProgress
import OcfCache.CleaningSwitchRuns
import OcfCache.RefcntRuns
import OcfCache.AsyncLockRuns
import OcfCache.UtilsPipelineRuns
import OcfCache.SuperblockRuns
import OcfCache.CompositeRuns
import OcfCache.MetadataIoRuns
import OcfCache.FrontVolumeRuns
import OcfCache.CoreIoRuns
import OcfCache.PrefetchRuns
import OcfCache.HashLockRuns
import OcfCache.LruListRuns
import OcfCache.EvictQuota
import OcfCache.LfuCold
import OcfCache.InitUnwind
import OcfCache.PopulateShards
import OcfCache.AcpCandidate
import OcfCache.AcpInit
import OcfCache.ForwardIo
import OcfCache.MetadataFlush
import OcfCache.SuperblockLoad
import OcfCache.IoClass
import OcfCache.RbUpdate
import OcfCache.NhitCounts
import OcfCache.BackfillThrottle
import OcfCache.CompositeForward
import OcfCache.UtilsIo
import OcfCache.MetadataAtomic
import OcfCache.EngineDiscard
import OcfCache.OverlayLocks
import OcfCache.CacheLock
import OcfCache.PrefetchRange
import OcfCache.RebuildRecovery
import OcfCache.BisectCycle
import OcfCache.LruIterator
import OcfCache.StatusBits
import OcfCache.PageLocks
import OcfCache.Parallelize
