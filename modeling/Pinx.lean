import Pinx.Foundation.FreeList
import Pinx.Foundation.Fault
import Pinx.Foundation.Transition
import Pinx.Foundation.WordBitmap
import Pinx.Foundation.ShiftRegister
import Pinx.Foundation.Bytes
import Pinx.Foundation.Prog
import Pinx.Foundation.RadixTree
import Pinx.Foundation.Routing
import Pinx.Foundation.Walk
import Pinx.Foundation.Sections
import Pinx.Model.Heap
import Pinx.Model.Pmm
import Pinx.Model.Scheduler
import Pinx.Model.Vmm
import Pinx.Model.Loader
import Pinx.Model.Crc
import Pinx.Model.Ext4
import Pinx.Model.Ext4Files
import Pinx.Model.BlockDevice
import Pinx.Model.Mount
import Pinx.Model.Keyboard
import Pinx.Model.UserMemory
import Pinx.Model.Terminal
import Pinx.Model.SpinLock
import Pinx.Model.SchedulerCode
import Pinx.Analysis.HeapRefinement
import Pinx.Analysis.HeapInvariant
import Pinx.Analysis.HeapDoubleFree
import Pinx.Analysis.HeapRecovery
import Pinx.Analysis.FrameAllocator
import Pinx.Analysis.OneCpuPerTask
import Pinx.Analysis.PageTables
import Pinx.Analysis.MapRefinement
import Pinx.Analysis.RingThree
import Pinx.Analysis.HalvesApart
import Pinx.Analysis.ProgramTag
import Pinx.Analysis.LoaderIsolation
import Pinx.Analysis.LoaderBreach
import Pinx.Analysis.RunQueue
import Pinx.Analysis.KeyDelivery
import Pinx.Analysis.ShiftTracking
import Pinx.Analysis.InputWakeup
import Pinx.Analysis.ConsoleCells
import Pinx.Analysis.SleepDeadlines
import Pinx.Analysis.KernelStacks
import Pinx.Analysis.LockSafety
import Pinx.Analysis.LockedBodies
import Pinx.Analysis.RoundRobin
import Pinx.Analysis.TaskSlots
import Pinx.Analysis.UserPointers
import Pinx.Analysis.UserLayout
import Pinx.Analysis.LayoutCollision
import Pinx.Analysis.UserView
import Pinx.Analysis.LoadedImage
import Pinx.Analysis.SharedPages
import Pinx.Analysis.LoaderTotal
import Pinx.Analysis.Ext4Layout
import Pinx.Analysis.CrcRegister
import Pinx.Analysis.GptTable
import Pinx.Analysis.BlockAddressing
import Pinx.Analysis.MountChecks
import Pinx.Analysis.Ext4Metadata
import Pinx.Analysis.Ext4Accounts
import Pinx.Analysis.BitmapSearch
import Pinx.Analysis.Ext4Sums
import Pinx.Analysis.Ext4Alloc
import Pinx.Analysis.ExtentNodes
import Pinx.Analysis.ExtentTree
import Pinx.Analysis.Ext4Insert
import Pinx.Analysis.LeafTables
import Pinx.Analysis.ExtentAppend
import Pinx.Analysis.RecordGrowth
import Pinx.Analysis.ValidTrees
import Pinx.Analysis.Ext4Ownership
import Pinx.Analysis.Ext4Steps
import Pinx.Analysis.Ext4Calls
import Pinx.Analysis.ExtentWalk
import Pinx.Analysis.DirChain
import Pinx.Analysis.DirScans
import Pinx.Analysis.DirBounds
import Pinx.Analysis.Directories
import Pinx.Analysis.FileReads
import Pinx.Analysis.FileData
import Pinx.Analysis.FileGrowth
import Pinx.Analysis.FileWrites
import Pinx.Analysis.FileOverwrite
import Pinx.Analysis.TidyTrees
import Pinx.Analysis.InodeWrites
import Pinx.Analysis.Ext4Create
import Pinx.Analysis.DirEntries
import Pinx.Analysis.Ext4Runs
import Pinx.Analysis.SuperLocation
import Pinx.Analysis.AllocGuard
import Pinx.Analysis.ExactSearch
import Pinx.Analysis.GroupCount
import Pinx.Analysis.UnsealedVolume
import Pinx.Analysis.InodeFrame
import Pinx.Analysis.BlockCounts
import Pinx.Analysis.DirCreate
import Pinx.Analysis.DirLimits
import Pinx.Analysis.Ext4Safety
import Pinx.Analysis.WriteLimits
import Pinx.Analysis.VolumeRuns
import Pinx.Analysis.BlockClients
