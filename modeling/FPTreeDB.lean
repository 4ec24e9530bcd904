import FPTreeDB.Lib.CArray
import FPTreeDB.Lib.SepChain
import FPTreeDB.Lib.Links
import FPTreeDB.Lib.Runs
import FPTreeDB.Lib.ByteStore
import FPTreeDB.Lib.CarryLess
import FPTreeDB.Lib.BinaryField
import FPTreeDB.Lib.Counting
import FPTreeDB.Lib.LevelOrder
import FPTreeDB.Lib.ByteFile
import FPTreeDB.Model.PAllocator
import FPTreeDB.Model.LeafNode
import FPTreeDB.Model.InnerNode
import FPTreeDB.Model.FPTree
import FPTreeDB.Model.Layout
import FPTreeDB.Model.ClHash
import FPTreeDB.Model.Print
import FPTreeDB.Model.Ycsb
import FPTreeDB.Model.Files
import FPTreeDB.Allocator.Pointers
import FPTreeDB.Allocator.Invariant
import FPTreeDB.Allocator.Run
import FPTreeDB.Allocator.Restart
import FPTreeDB.Allocator.Crash
import FPTreeDB.Allocator.Failure
import FPTreeDB.Allocator.Files
import FPTreeDB.Leaf.Bitmap
import FPTreeDB.Leaf.Contents
import FPTreeDB.Leaf.Chain
import FPTreeDB.Leaf.Split
import FPTreeDB.Leaf.Layout
import FPTreeDB.Leaf.Accesses
import FPTreeDB.Inner.Arrays
import FPTreeDB.Hash.Reduction
import FPTreeDB.Hash.ClHash
import FPTreeDB.Hash.Field
import FPTreeDB.Hash.Universal
import FPTreeDB.Tree.Ranged
import FPTreeDB.Tree.Grow
import FPTreeDB.Tree.Insert
import FPTreeDB.Tree.Append
import FPTreeDB.Tree.Repairs
import FPTreeDB.Tree.Rebalance
import FPTreeDB.Tree.Remove
import FPTreeDB.Tree.Store
import FPTreeDB.Tree.LeafOps
import FPTreeDB.Tree.LeafDegree
import FPTreeDB.Tree.Fingerprint
import FPTreeDB.Tree.Map
import FPTreeDB.Tree.WellFormed
import FPTreeDB.Tree.Runs
import FPTreeDB.Tree.Flush
import FPTreeDB.Tree.AllocFailure
import FPTreeDB.Tree.Shape
import FPTreeDB.Tree.Sessions
import FPTreeDB.Tree.Counts
import FPTreeDB.Tree.BulkLoad
import FPTreeDB.Tree.Reopen
import FPTreeDB.Tree.Recovery
import FPTreeDB.Tree.CrashAtomic
import FPTreeDB.Tree.RemoveAtomic
import FPTreeDB.Tree.Progress
import FPTreeDB.Tree.Space
import FPTreeDB.Tree.KeyHash
import FPTreeDB.Tree.Print
import FPTreeDB.Tree.CrashSession
import FPTreeDB.Tree.Ycsb
