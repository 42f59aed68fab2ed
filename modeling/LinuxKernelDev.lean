import LinuxKernelDev.LoopRules
import LinuxKernelDev.DiskImage
import LinuxKernelDev.FsckChecker
import LinuxKernelDev.FsckScanSemantics
import LinuxKernelDev.FsckFirstPass
import LinuxKernelDev.ParentChain
import LinuxKernelDev.FsckVerdict
import LinuxKernelDev.DiskMetadata
import LinuxKernelDev.FsckOwnership
import LinuxKernelDev.FsckReferences
import LinuxKernelDev.FsckDirectoryTree
import LinuxKernelDev.FsckRoot
import LinuxKernelDev.FsckDanglingEntries
import LinuxKernelDev.FsckMetadataOnly
import LinuxKernelDev.RelatedRuns
import LinuxKernelDev.FsckInodeWidth
import LinuxKernelDev.ImageReordering
import LinuxKernelDev.FsckOrderIndependence
import LinuxKernelDev.FsckFaults
import LinuxKernelDev.FsckDiagnosis
import LinuxKernelDev.Lsfs
import LinuxKernelDev.SuperblockLayout
import LinuxKernelDev.AccessLog
import LinuxKernelDev.FsckAccesses
import LinuxKernelDev.FsckReach
import LinuxKernelDev.FsckBounds
import LinuxKernelDev.FsckCompleteness
import LinuxKernelDev.FsckConsistency
import LinuxKernelDev.TransitionRuns
import LinuxKernelDev.RmsScheduler
import LinuxKernelDev.RmsStateInvariant
import LinuxKernelDev.RmsCacheAccounting
import LinuxKernelDev.RmsDispatchOrder
import LinuxKernelDev.RmsAdmission
import LinuxKernelDev.ProfilerArming
import LinuxKernelDev.RingBuffer
import LinuxKernelDev.ProfilerRing
import LinuxKernelDev.MonitorTermination
import LinuxKernelDev.RmsConcurrency
import LinuxKernelDev.RmsLifetime
import LinuxKernelDev.RmsPriority
import LinuxKernelDev.RmsDispatchWakeups
import LinuxKernelDev.RmsYieldWakeups
import LinuxKernelDev.FormattedText
import LinuxKernelDev.StatusListing
import LinuxKernelDev.StatusReads
import LinuxKernelDev.SubstringSearch
import LinuxKernelDev.UserappAdmission
import LinuxKernelDev.ScanFormat
import LinuxKernelDev.RmsCommands
import LinuxKernelDev.ByteMemory
import LinuxKernelDev.LinkedChunks
import LinuxKernelDev.Mkfs
import LinuxKernelDev.MkfsSectors
import LinuxKernelDev.MkfsStorage
import LinuxKernelDev.MkfsBlockAppends
import LinuxKernelDev.MkfsFileSystem
import LinuxKernelDev.MkfsTree
import LinuxKernelDev.MkfsTreeSteps
import LinuxKernelDev.MkfsLinkCalls
import LinuxKernelDev.MkfsHardLinks
import LinuxKernelDev.MkfsMirror
import LinuxKernelDev.MkfsStored
import LinuxKernelDev.MkfsRefinement
import LinuxKernelDev.MkfsRun
import LinuxKernelDev.MkfsNumbers
import LinuxKernelDev.MkfsDemand
import LinuxKernelDev.MkfsEvents
import LinuxKernelDev.MkfsInodeDemand
import LinuxKernelDev.MkfsImage
import LinuxKernelDev.BumpAllocation
import LinuxKernelDev.MkfsSlots
import LinuxKernelDev.MkfsAppends
import LinuxKernelDev.MkfsOperations
import LinuxKernelDev.MkfsFileContents
import LinuxKernelDev.MkfsProgram
import LinuxKernelDev.MkfsConsistency
import LinuxKernelDev.MkfsLinkCounts
import LinuxKernelDev.RootedTree
import LinuxKernelDev.DirectoryWalk
import LinuxKernelDev.LsfsSemantics
import LinuxKernelDev.LsfsChecked
import LinuxKernelDev.MkfsListing
import LinuxKernelDev.KeyedRegistry
import LinuxKernelDev.TrackerList
import LinuxKernelDev.TrackerModule
import LinuxKernelDev.DecimalText
import LinuxKernelDev.TrackerCommands
import LinuxKernelDev.ProfilerSampling
import LinuxKernelDev.ProfilerCommands
import LinuxKernelDev.RmsStatus
import LinuxKernelDev.UserPrograms
import LinuxKernelDev.GhostRuns
import LinuxKernelDev.RmsReleases
import LinuxKernelDev.FsckCorruption
import LinuxKernelDev.LsfsText
import LinuxKernelDev.MkfsPrinted
import LinuxKernelDev.MonitorInterleaving
import LinuxKernelDev.RmsModule
import LinuxKernelDev.RmsUnload
import LinuxKernelDev.RmsUnloadProgress
import LinuxKernelDev.PagedViews
import LinuxKernelDev.ProfilerMapping
