import XianweiOS.ByteStore
import XianweiOS.HaltingProgram
import XianweiOS.KernelBitmap
import XianweiOS.DeviceIde
import XianweiOS.FsVolume
import XianweiOS.FsInodeTable
import XianweiOS.FsBlockMap
import XianweiOS.FsOwnership
import XianweiOS.FsFreeBlocks
import XianweiOS.FsFileWrite
import XianweiOS.FsFileAppend
import XianweiOS.FsFileRead
import XianweiOS.SlotTable
import XianweiOS.PathTree
import XianweiOS.PathObjects
import XianweiOS.FsDirectory
import XianweiOS.FsDirectorySlots
import XianweiOS.FsDirectoryDelete
import XianweiOS.FsDirectoryTable
import XianweiOS.FsDirectoryMap
import XianweiOS.FsDirectoryRuns
import XianweiOS.FsInodeRelease
import XianweiOS.FsPath
import XianweiOS.FsOpenFiles
import XianweiOS.FsInodeRoundTrip
import XianweiOS.FsSyscalls
import XianweiOS.HolderCount
import XianweiOS.FsFormat
import XianweiOS.FsFormatVolume
import XianweiOS.FsReferenceCounts
import XianweiOS.FsReferenceRuns
import XianweiOS.FsTree
import XianweiOS.FsSearch
import XianweiOS.ShellPath
import XianweiOS.ThreadScheduler
import XianweiOS.ThreadInvariant
import XianweiOS.SyncLock
import XianweiOS.RingBuffer
import XianweiOS.IoQueue
import XianweiOS.IdeChannel
import XianweiOS.ProcessTree
import XianweiOS.FsProcesses
import XianweiOS.FsWriters
import XianweiOS.FsFileLimit
import XianweiOS.FsFilePosition
import XianweiOS.FsLookupFrame
import XianweiOS.FsOpenFailure
import XianweiOS.FsMkdirFailure
import XianweiOS.FsStackLocals
import XianweiOS.FsWorkingDirectory
import XianweiOS.FsDescriptors
import XianweiOS.FsPipes
import XianweiOS.FsStore
import XianweiOS.FsStoreRuns
import XianweiOS.FsConsistentTree
import XianweiOS.FsWholePath
import XianweiOS.MemoryPages
import XianweiOS.MemoryHeap
import XianweiOS.HeapInvariant
import XianweiOS.HeapSafety
import XianweiOS.ProcessMemory
import XianweiOS.ProcessBalance
import XianweiOS.FrameExclusive
import XianweiOS.HeapFork
import XianweiOS.FsHeapTrace
import XianweiOS.FsHeapContext
import XianweiOS.ForkMemory
import XianweiOS.FsTreeInsert
import XianweiOS.FsCreation
import XianweiOS.PipeTransfer
import XianweiOS.MemoryExhaustion
import XianweiOS.PipeCreation
import XianweiOS.ForkFailure
import XianweiOS.FsDirectoryLayout
import XianweiOS.FsDirectoryReading
import XianweiOS.FsFullDisk
import XianweiOS.ExecSegment
import XianweiOS.ExecLoad
import XianweiOS.BitmapFirstFit
import XianweiOS.ConsoleWrite
import XianweiOS.ShellArguments
import XianweiOS.FsBufferSizes
import XianweiOS.FsDescriptorChecks
import XianweiOS.IdeRegisters
import XianweiOS.PartitionScan
import XianweiOS.PartitionLayout
import XianweiOS.LinkedChain
import XianweiOS.KernelList
import XianweiOS.MemoryPools
import XianweiOS.TextStore
import XianweiOS.StringFormat
import XianweiOS.ShellReadline
import XianweiOS.ShellDispatch
import XianweiOS.Keyboard
import XianweiOS.TwoLevelPaging
import XianweiOS.PageTables
import XianweiOS.StackMachine
import XianweiOS.ContextSwitch
import XianweiOS.KernelStacks
import XianweiOS.KernelThreads
import XianweiOS.ThreadRuns
import XianweiOS.FsTreeRemove
import XianweiOS.FsImage
import XianweiOS.FsIntact
import XianweiOS.FsLooked
import XianweiOS.FsNamespace
import XianweiOS.FsShown
import XianweiOS.FsLookCalls
import XianweiOS.FsFileCalls
import XianweiOS.FsTreeCalls
import XianweiOS.FsRemoveCalls
import XianweiOS.LabelledRuns
import XianweiOS.FsSingleWriter
import XianweiOS.HeapLinks
import XianweiOS.HeapIsolation
import XianweiOS.FsFileRuns
import XianweiOS.FsNamespaceRuns
import XianweiOS.FsAllocationRuns
import XianweiOS.FsInodeUse
