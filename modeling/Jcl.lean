import Jcl.Lib.WordAlign
import Jcl.Lib.Packing
import Jcl.Machine
import Jcl.MemoryLayoutGenerator
import Jcl.Proofs.MemoryLayout
import Jcl.Proofs.OversizedLayout
import Jcl.Proofs.SmallSlots
import Jcl.FreeList
import Jcl.Lib.Chain
import Jcl.Proofs.FreeList
import Jcl.BinarySearchTree
import Jcl.Lib.Returns
import Jcl.Lib.TaggedWord
import Jcl.Proofs.Bst.Heap
import Jcl.Proofs.Bst.Linked
import Jcl.Proofs.Bst.Rotate
import Jcl.Proofs.Bst.Splice
import Jcl.Lib.RedBlack.Insert
import Jcl.Lib.RedBlack.Delete
import Jcl.Proofs.Bst.FixupInsert
import Jcl.Proofs.Bst.FixupDelete
import Jcl.Lib.RedBlack.Seek
import Jcl.Proofs.Bst.Find
import Jcl.Proofs.Bst.Init
import Jcl.Proofs.Bst.Depth
import Jcl.Lib.RedBlack.Edge
import Jcl.Proofs.Bst.Cache
import Jcl.Proofs.Bst.Order
import Jcl.Proofs.Bst.Update
import Jcl.Proofs.Bst.Storage
import Jcl.Proofs.Bst.Calls
import Jcl.Proofs.Bst.Insertion
import Jcl.Lib.System
import Jcl.Proofs.Bst.Runs
import Jcl.Proofs.Bst.Accounting
import Jcl.Proofs.Bst.Previous
import Jcl.Proofs.Bst.Multimap
import Jcl.Proofs.Bst.Capacity
import Jcl.Proofs.Bst.NodeSlots
import Jcl.LruCache
import Jcl.Proofs.LruCache
import Jcl.Lib.Recency
import Jcl.Proofs.LruKeys
import Jcl.Proofs.Bst.WellFormed
import Jcl.Error
import Jcl.NetSocket
import Jcl.FileIo
import Jcl.Proofs.IoLoop
import Jcl.Proofs.NetSocket
import Jcl.Proofs.FileIo
import Jcl.Lib.StackWalk
import Jcl.Lib.Ledger
import Jcl.Lib.Custody
import Jcl.Resources
import Jcl.FioPath
import Jcl.FileWalk
import Jcl.Wrappers
import Jcl.SocketObjects
import Jcl.SlabAllocator
import Jcl.Spec.DirectoryTree
import Jcl.Spec.WalkRequests
import Jcl.Spec.SlabLayout
import Jcl.Proofs.Resources
import Jcl.Proofs.FioPath
import Jcl.Proofs.FileWalk
import Jcl.Proofs.WalkRuns
import Jcl.Proofs.Ownership
import Jcl.Proofs.PathComposition
import Jcl.Proofs.Wrappers
import Jcl.Proofs.SlabLayout
import Jcl.Proofs.SlabMapping
import Jcl.Proofs.SlabConfig
import Jcl.Proofs.WalkScan
import Jcl.Proofs.WalkStep
import Jcl.Proofs.WalkFailures
import Jcl.Proofs.WalkLifetime
import Jcl.Proofs.SocketObjects
import Jcl.Proofs.SocketRuns
import Jcl.SocketConnections
import Jcl.Proofs.SocketConnections
import Jcl.Proofs.ConnectionRuns
import Jcl.Lib.Paging
import Jcl.Proofs.LruMisses
import Jcl.Proofs.WalkOrder
import Jcl.Proofs.WalkExploration
import Jcl.Proofs.MemoryRuns
import Jcl.Lib.Mappings
import Jcl.Proofs.SlabRuns
import Jcl.Proofs.Bst.Draining
import Jcl.Lib.Cells
import Jcl.Proofs.Bst.NodeBytes
import Jcl.Lib.Keeps
import Jcl.Lib.RedBlack.Rewiring
import Jcl.Proofs.Bst.Rewrites
import Jcl.Proofs.Bst.Locality
import Jcl.Proofs.Bst.Forest
import Jcl.Lib.RedBlack.Amortised
import Jcl.Proofs.Bst.RewriteCost
