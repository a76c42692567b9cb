import CacheLayer.MemoryWrites
import CacheLayer.MemoryFrequency
import CacheLayer.TtlMap
import CacheLayer.MultiTierExpiry
import CacheLayer.MultiTierCoherence
import CacheLayer.MultiTierOrder
import CacheLayer.LostUpdate
import CacheLayer.Lib.Ledger
import CacheLayer.MemoryLedger
import CacheLayer.SetEffect
import CacheLayer.MemoryPayload
import CacheLayer.RecencyRefinement
import CacheLayer.PolicyMemory
import CacheLayer.MultiTierStats
import CacheLayer.MultiTierFaults
import CacheLayer.Lib.LockOrder
import CacheLayer.Lib.LockProgress
import CacheLayer.Lib.LockExclusion
import CacheLayer.MemoryLocks
import CacheLayer.PolicyRun
import CacheLayer.LfuHistory
import CacheLayer.MultiTierExists
import CacheLayer.MultiTierPromotion
import CacheLayer.MemoryProgress
import CacheLayer.MultiTierProgress
import CacheLayer.MemoryReplies
import CacheLayer.MemoryReads
import CacheLayer.MultiTierSteps
import CacheLayer.MultiTierProjection
import CacheLayer.MemoryPhantoms
import CacheLayer.ConcurrentRequests
import CacheLayer.MultiTierTasks
import CacheLayer.TaskReplies
import CacheLayer.TaskValues
import CacheLayer.TaskProgress
import CacheLayer.TaskAtomicity
import CacheLayer.MemoryOvershoot
import CacheLayer.TaskOvershoot
import CacheLayer.MemorySizing
import CacheLayer.MultiTierSizing
import CacheLayer.MemoryRenewal
import CacheLayer.MemorySnapshots
import CacheLayer.MemoryLockProgress
import CacheLayer.MemoryGuards
