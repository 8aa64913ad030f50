import Nmfs.Lib.LittleEndian
import Nmfs.Lib.Stripe
import Nmfs.Lib.Run
import Nmfs.Lib.History
import Nmfs.Lib.Threads
import Nmfs.Lib.FileTree
import Nmfs.Fs.Hierarchy
import Nmfs.Fs.HierarchyCalls
import Nmfs.Fs.HierarchyMoves
import Nmfs.Rados.RadosIo
import Nmfs.Rados.FlatFile
import Nmfs.Rados.ConcurrentWrite
import Nmfs.Rados.StoredFile
import Nmfs.Meta.Uuid
import Nmfs.Meta.Inode
import Nmfs.Meta.Dentry
import Nmfs.Lease.LeaseTable
import Nmfs.Lease.Exclusion
import Nmfs.Lease.Answers
import Nmfs.Lease.Holder
import Nmfs.Lease.Terms
import Nmfs.Lease.Restart
import Nmfs.Manager.Session
import Nmfs.InMemory.DirectoryTable
import Nmfs.Rpc.RpcServer
import Nmfs.Journal.Transaction
import Nmfs.Journal.Record
import Nmfs.Journal.RoundTrip
import Nmfs.Journal.Sync
import Nmfs.Journal.Check
import Nmfs.Journal.Log
import Nmfs.Journal.Recovery
import Nmfs.Journal.Framing
import Nmfs.Journal.CommitCycle
import Nmfs.Journal.Mqueue
import Nmfs.Journal.TransactionFlow
import Nmfs.Journal.CallOrder
import Nmfs.Journal.ExactlyOnce
import Nmfs.Lib.Op
import Nmfs.Journal.JournalTable
import Nmfs.InMemory.DentryTable
import Nmfs.InMemory.ChildMaps
import Nmfs.InMemory.StoredTable
import Nmfs.Fs.FileOps
import Nmfs.Rpc.RemoteSize
import Nmfs.Lib.PartialMap
import Nmfs.Meta.StoredInode
import Nmfs.Fs.DirectoryOps
import Nmfs.Fs.Names
import Nmfs.Fs.Creation
import Nmfs.Fs.Mirror
import Nmfs.Fs.Refinement
import Nmfs.Fs.Takeover
import Nmfs.Fs.Rmdir
import Nmfs.Lib.Namespace
import Nmfs.Util.Path
import Nmfs.Rpc.RenameMessage
import Nmfs.Fs.Cluster
import Nmfs.Fs.RemoteHandle
import Nmfs.Fs.View
import Nmfs.Fs.Moves
import Nmfs.Fs.Placement
import Nmfs.Fs.Sections
import Nmfs.Fs.RenameSteps
import Nmfs.Fs.Entries
import Nmfs.Fs.Effects
import Nmfs.Fs.Ancestry
import Nmfs.Fs.Replacing
import Nmfs.Fs.NamespaceCalls
import Nmfs.Journal.Shutdown
import Nmfs.Rpc.Readdir
import Nmfs.Rpc.InodeRequests
import Nmfs.Rpc.VanishedName
import Nmfs.Rpc.Permission
import Nmfs.Rpc.AttributeRequests
import Nmfs.Rpc.NamespaceRequests
import Nmfs.Fs.JournalCalls
import Nmfs.Fs.Volume
import Nmfs.Fs.VolumeSteps
import Nmfs.Fs.Checkpointers
import Nmfs.Fs.LateCalls
import Nmfs.Fs.PoolNames
import Nmfs.Fs.CrashPoints
import Nmfs.Fs.Course
import Nmfs.Fs.Batching
import Nmfs.InMemory.PathTraversal
import Nmfs.InMemory.Resolution
import Nmfs.Rpc.ReadBack
import Nmfs.InMemory.LeaderAgain
import Nmfs.InMemory.NewDirectory
import Nmfs.Fs.FailedCalls
import Nmfs.Fs.OpenHandles
import Nmfs.Fs.OwnInode
import Nmfs.Fs.NewestInode
import Nmfs.Fs.NameSections
import Nmfs.Fs.StoredNames
import Nmfs.Fs.RaisingCalls
import Nmfs.Util.PathLoops
import Nmfs.Fs.HierarchyRuns
import Nmfs.Fs.Mount
