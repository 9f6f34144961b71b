import Darwin.Lib.Run
import Darwin.Lib.BitWords
import Darwin.Lib.Fallible
import Darwin.Hfs.Lockf
import Darwin.Hfs.LockfRanges
import Darwin.Hfs.LockfWaiters
import Darwin.Hfs.VolumeAllocation
import Darwin.Hfs.VolumeScan
import Darwin.Hfs.VolumeContig
import Darwin.Hfs.VolumeAccounting
import Darwin.Hfs.BTreeAllocate
import Darwin.Hfs.NodeMap
import Darwin.Hfs.BTreeExtend
import Darwin.Hfs.NodeMapAccounting
import Darwin.Hfs.FileGrowth
import Darwin.Lib.LinearProbe
import Darwin.Lib.SearchTree
import Darwin.Ipc.Hash
import Darwin.Ipc.Splay
import Darwin.Ipc.SplayTraverse
import Darwin.Lib.IndexList
import Darwin.Lib.Program
import Darwin.Ipc.Entry
import Darwin.Ipc.EntryInvariant
import Darwin.Ipc.EntryOps
import Darwin.Ipc.EntryDealloc
import Darwin.Ipc.EntryGrow
import Darwin.Ipc.EntryRuns
import Darwin.Ipc.ReverseHash
import Darwin.Ipc.GrowHash
import Darwin.Ipc.Right
import Darwin.Lib.SortedSearch
import Darwin.Hfs.BTreeNode
import Darwin.Hfs.BTreeIterate
import Darwin.Hfs.BTreeInsert
import Darwin.Hfs.BTreeSetRecord
import Darwin.Lib.Chain
import Darwin.Ipc.Transit
import Darwin.Lib.Listing
import Darwin.Ipc.Mqueue
import Darwin.Ipc.MqueueArrival
import Darwin.Ipc.MachMsgReceive
import Darwin.Ipc.MqueueRuns
import Darwin.Ipc.MqueueSenders
import Darwin.Ipc.MqueueOrder
import Darwin.Lib.Ranges
import Darwin.Ipc.KmsgBody
import Darwin.Ipc.KmsgCopyin
import Darwin.Ipc.KmsgCopyout
import Darwin.Ipc.Dnrequest
import Darwin.Ipc.RightOps
import Darwin.Lib.Referrers
import Darwin.Vm.Object
import Darwin.Vm.Contents
import Darwin.Vm.Collapse
import Darwin.Vm.References
import Darwin.Vm.Fault
import Darwin.Vm.CopyObject
import Darwin.Vm.CopyRuns
import Darwin.Lib.LinkedRing
import Darwin.Vm.Map
import Darwin.Vm.MapClip
import Darwin.Vm.MapCopy
import Darwin.Vm.MapCopyKept
import Darwin.Vm.MapMove
import Darwin.Vm.MapSize
import Darwin.Hfs.ConvertUTF
import Darwin.Hfs.UtfRoundTrip
import Darwin.Kern.MachLoader
import Darwin.Kern.MachLoaderFailure
import Darwin.Kern.ThreadCall
import Darwin.Kern.ThreadCallQueues
import Darwin.Kern.ThreadCallWakeups
import Darwin.Lib.Ownership
import Darwin.Vm.ObjectCache
import Darwin.Vm.ObjectCacheLoops
import Darwin.Vm.ObjectCacheRuns
import Darwin.Vm.PagerDealloc
import Darwin.Vm.PagerRuns
import Darwin.Hfs.MacRoman
import Darwin.Hfs.UtfRestart
import Darwin.Hfs.FileMapping
import Darwin.Hfs.FileTruncate
import Darwin.Hfs.Balance
import Darwin.Hfs.InsertBudget
import Darwin.Hfs.NodeBytes
import Darwin.Hfs.NodeRotate
import Darwin.Hfs.SimpleReplace
import Darwin.Hfs.UnicodeCompare
import Darwin.Hfs.UtfBounds
import Darwin.Ipc.CopyinUndo
import Darwin.Ipc.KmsgBounds
import Darwin.Ipc.ScatterCheck
import Darwin.Ipc.SplayReach
import Darwin.Kern.MachLoaderStatus
import Darwin.Kern.MachLoaderWalk
import Darwin.Kern.ThreadCallOrder
import Darwin.Netat.Adsp
import Darwin.Netat.AdspAck
import Darwin.Vm.PagerFindpage
import Darwin.Netat.AdspClose
import Darwin.Vm.PagerHipage
import Darwin.Vm.PagerTruncate
import Darwin.Hfs.CheckNode
import Darwin.Hfs.InsertParams
import Darwin.Hfs.NodeEdits
import Darwin.Hfs.SearchNode
import Darwin.Hfs.TreeDescent
import Darwin.Kern.LoadSegment
import Darwin.Lib.KeyedList
import Darwin.Lib.LinkedTree
import Darwin.Netat.RoutingMap
import Darwin.Netat.ZoneCounts
import Darwin.Netat.ZoneRuns
import Darwin.Pdisk.AddRange
import Darwin.Pdisk.MapAdd
import Darwin.Pdisk.MapResize
import Darwin.Pdisk.MapRuns
import Darwin.Vm.MapLookup
import Darwin.Vm.FindEntry
import Darwin.Vm.MapProtect
import Darwin.Ipc.Registry
