import VirtualSoc.Lib.Transition
import VirtualSoc.Lib.Scan
import VirtualSoc.Lib.Crossbar
import VirtualSoc.Lib.Loop
import VirtualSoc.Lib.Count
import VirtualSoc.Lib.EveryNth
import VirtualSoc.Lib.Mask
import VirtualSoc.Lib.Delta
import VirtualSoc.Lib.Changes
import VirtualSoc.Lib.Convolution
import VirtualSoc.Lib.Quads
import VirtualSoc.Lib.Slots
import VirtualSoc.Lib.Spans
import VirtualSoc.Lib.Tally
import VirtualSoc.Lib.Writes
import VirtualSoc.Lib.Threads
import VirtualSoc.Lib.Atomic
import VirtualSoc.Core.Memory
import VirtualSoc.Core.Frame
import VirtualSoc.Core.Element
import VirtualSoc.Core.Bus
import VirtualSoc.Core.Stats
import VirtualSoc.Core.Quit
import VirtualSoc.Core.ClMetric
import VirtualSoc.Core.Cache
import VirtualSoc.Core.CacheSet
import VirtualSoc.Core.CacheFull
import VirtualSoc.Core.CacheWidth
import VirtualSoc.Core.CacheVictim
import VirtualSoc.Core.MissTable
import VirtualSoc.Cluster.LicInv
import VirtualSoc.Cluster.LicTas
import VirtualSoc.Cluster.LicService
import VirtualSoc.Cluster.LicRead
import VirtualSoc.Cluster.Pic
import VirtualSoc.Cluster.PicInv
import VirtualSoc.Cluster.PicService
import VirtualSoc.Cluster.PicFair
import VirtualSoc.Cluster.PicStats
import VirtualSoc.Cluster.PicPort
import VirtualSoc.Cluster.Semaphore
import VirtualSoc.Cluster.SemaphoreAtomic
import VirtualSoc.Cluster.Platform
import VirtualSoc.Cluster.SharedIData
import VirtualSoc.Cluster.HwsPort
import VirtualSoc.Cluster.HwsCounter
import VirtualSoc.Cluster.HwsBarrier
import VirtualSoc.Cluster.HwsWake
import VirtualSoc.Cluster.HwsHold
import VirtualSoc.Cluster.HwsMask
import VirtualSoc.Cluster.HwsWidth
import VirtualSoc.Cluster.HwsSync
import VirtualSoc.Cluster.Dma
import VirtualSoc.Cluster.DmaEvent
import VirtualSoc.Cluster.DmaCopy
import VirtualSoc.Cluster.DmaMode
import VirtualSoc.Cluster.DmaSchedule
import VirtualSoc.Cluster.DmaDriver
import VirtualSoc.Cluster.DmaJobs
import VirtualSoc.Cluster.DmaMoves
import VirtualSoc.Cluster.Tcdm
import VirtualSoc.Cluster.Cru
import VirtualSoc.Cluster.L3Mux
import VirtualSoc.Cluster.L3MuxInv
import VirtualSoc.Cluster.L3MuxService
import VirtualSoc.Cluster.L3Memory
import VirtualSoc.Gomp.WorkShare
import VirtualSoc.Gomp.WorkShareTeam
import VirtualSoc.Gomp.Single
import VirtualSoc.Gomp.Barrier
import VirtualSoc.Gomp.LockAlloc
import VirtualSoc.Gomp.UserLock
import VirtualSoc.Gomp.SemLock
import VirtualSoc.Gomp.SemBus
import VirtualSoc.Gomp.TeamAlloc
import VirtualSoc.Gomp.TeamAllocInv
import VirtualSoc.Gomp.RegionRuns
import VirtualSoc.Gomp.BarrierHws
import VirtualSoc.Gomp.BarrierHwsInv
import VirtualSoc.Gomp.HwsAsk
import VirtualSoc.Gomp.BarrierLayout
import VirtualSoc.Gomp.ChunkWrap
import VirtualSoc.Gomp.SharedHeap
import VirtualSoc.Fir.Adder
import VirtualSoc.Fir.Filter
import VirtualSoc.Fir.Accelerator
import VirtualSoc.Wcdma.Fir
import VirtualSoc.Wcdma.Receiver
