import Loris.Kernel
import Loris.Cut
import Loris.Segments
import Loris.SizeOrder
import Loris.AllocFit
import Loris.AlignedAlloc
import Loris.Expansion
import Loris.Merging
import Loris.FreeInside
import Loris.Contraction
import Loris.FrameOwnership
import Loris.Tasking
import Loris.HeapSteps
import Loris.HeapRuns
import Loris.Termination
import Loris.BestFit
import Loris.AllocFree
import Loris.InOrder
import Loris.ExpandPages
import Loris.Boot
import Loris.ForkQueue
import Loris.Interrupts
import Loris.Initrd
import Loris.InitrdFiles
import Loris.Cloning
import Loris.HeapReady
import Loris.AddressSpaces
import Loris.PhysicalAddresses
import Loris.ForkStack
import Loris.ListRuns
import Loris.AlignedSearch
import Loris.AllocArith
import Loris.AccessTrace
import Loris.FreeProbes
import Loris.FreeNotLive
import Loris.FrameSet
import Loris.FramesBuffer
import Loris.InitrdBounds
import Loris.PageLookup
import Loris.InitrdDirectory
import Loris.Printf
import Loris.InterruptFrame
import Loris.CopyPage
import Loris.CloneTable
import Loris.CloneWrites
import Loris.CloneIsolation
import Loris.RingLog
import Loris.StringOrder
import Loris.Terminal
import Loris.Placement
import Loris.Pic8259
import Loris.InterruptControllers
import Loris.Descriptor
import Loris.DescriptorTables
import Loris.PageWalk
import Loris.Mmu
import Loris.Console
import Loris.FileSystem
import Loris.BelowHeap
import Loris.BootMemory
import Loris.Mounting
import Loris.Backing
import Loris.KernelMain
import Loris.FlatMemory
