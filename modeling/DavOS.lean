import DavOS.GuardedRun
import DavOS.EventHistory
import DavOS.WhileLoop
import DavOS.MachineWord
import DavOS.PathGraph
import DavOS.PathCount
import DavOS.HalfOpen
import DavOS.Kernel
import DavOS.PageTreeNode
import DavOS.PageEntry
import DavOS.FrameStack
import DavOS.FrameAllocator
import DavOS.FrameOwnership
import DavOS.FrameConservation
import DavOS.PageTree
import DavOS.PageTable
import DavOS.MapLevel
import DavOS.PageMapping
import DavOS.PageWalk
import DavOS.SoftwareWalk
import DavOS.PageRights
import DavOS.Paging
import DavOS.PageRanges
import DavOS.TreeStates
import DavOS.AddMapping
import DavOS.PageFault
import DavOS.AllocateAndMap
import DavOS.ByteMemory
import DavOS.LinkedSegment
import DavOS.FreeListAllocator
import DavOS.FreeBlocks
import DavOS.FreeListRelease
import DavOS.FreeListReserve
import DavOS.HeapRuns
import DavOS.HeapExtent
import DavOS.HeapFrames
import DavOS.FreeListLinks
import DavOS.FreeListMerge
import DavOS.FreeListDoubleFree
import DavOS.FreeListFirstFit
import DavOS.FreeListRoundTrip
import DavOS.Vmm
import DavOS.VmmRuns
import DavOS.OffsetReads
import DavOS.PagingInit
import DavOS.InitialMappings
import DavOS.Reclaim
import DavOS.FreeRegions
import DavOS.VmmInit
import DavOS.FlatMemory
import DavOS.DemandPaging
import DavOS.PageSwitch
import DavOS.BootMemory
import DavOS.RingWindow
import DavOS.CircularQueue
import DavOS.CString
import DavOS.MoveSequence
import DavOS.Memmove
import DavOS.Strncmp
import DavOS.Keyboard
import DavOS.KeyboardBuffer
import DavOS.QueueInterrupts
import DavOS.RootSDT
import DavOS.Rsdp
import DavOS.LineBuffer
import DavOS.LineText
import DavOS.LineViewport
import DavOS.Raster
import DavOS.Terminal
import DavOS.LineIndices
import DavOS.LineScroll
import DavOS.TerminalPaint
import DavOS.TerminalBounds
import DavOS.TerminalRepaint
import DavOS.Shell
import DavOS.ShellInput
import DavOS.ShellEcho
import DavOS.UniquePtr
import DavOS.Optional
import DavOS.IDTStructure
import DavOS.Gdt
import DavOS.IdtInit
import DavOS.LocalApic
import DavOS.Pic
import DavOS.EnableApic
import DavOS.KeyboardController
import DavOS.NumberText
import DavOS.Printf
import DavOS.PrintfFormat
import DavOS.PrintfNumbers
import DavOS.HandleCommand
import DavOS.KernelMain
import DavOS.APICManager
import DavOS.MadtEntries
import DavOS.MadtDecode
import DavOS.IoApicRegisters
import DavOS.IoApicRedirect
import DavOS.ApicInitialize
