import FPTreeDB.Model.Utility

/-!
# Leaves, leaf groups, storage and the process

The state shared by `PAllocator`, `LeafNode` and `FPTree`:

* `LeafImage`: the bytes of one leaf, `| bitmap | pNext | fingerprints | kv |`,
  by field.
* `LeafGroup`: one leaf-group file, `| usedNum | bitmap | leaf 0 | ... |`.
* `Storage`: the data directory as it is on storage.
* `World`: the data members of the allocator singleton, the mapped leaf-group
  files, the storage below them and the DRAM `LeafNode` objects.

A store through a mapped address changes `mem` only. `pmem_persist` and
`pmem_msync` (chosen by `ifPmemAddr`) both make a byte range durable; either is
a `persist*` function here, which copies the range from `mem` to `disk`. Every
change of `disk` goes through `commit`, so that `trace` lists the contents of
the storage after each step that reached it.

A `LeafNode` object is named by its `pPointer`: the code keeps one object for
each leaf it has open.
-/

namespace FPTreeDB

/-- `KeyValue` (fptree.h:54-57). -/
structure KeyValue where
  k : Key
  v : Value
deriving DecidableEq

/-- The bytes of one leaf in NVM, by field (fptree.h:108-128). -/
structure LeafImage where
  bitmap : ℕ → Byte
  pNext : PPointer
  fingerprints : ℕ → Byte
  kv : ℕ → KeyValue

/-- A leaf all of whose bytes are zero. -/
def LeafImage.zero : LeafImage := ⟨fun _ => 0, PPointer.zero, fun _ => 0, fun _ => ⟨0, 0⟩⟩

/-- The contents of one leaf-group file (p_allocator.cpp:260-263). -/
structure LeafGroup where
  usedNum : ℕ
  bitmap : ℕ → Byte
  leaf : ℕ → LeafImage

/-- A leaf group all of whose bytes are zero. -/
def LeafGroup.zero : LeafGroup := ⟨0, fun _ => 0, fun _ => LeafImage.zero⟩

/-- The catalog file: `| maxFileId | freeNum | treeStartLeaf |` (p_allocator.cpp:21-26). -/
structure Catalog where
  maxFileId : ℕ
  freeNum : ℕ
  startLeaf : PPointer
deriving DecidableEq

/-- The data directory on storage; `none` where a file does not exist. A
    leaf-group file that does not exist reads as zeros, which is what
    `pmem_map_file` with `PMEM_FILE_CREATE` gives. -/
structure Storage where
  catalog : Option Catalog
  freeList : Option (List PPointer)
  groups : ℕ → LeafGroup

/-- An empty data directory. -/
def Storage.empty : Storage := ⟨none, none, fun _ => LeafGroup.zero⟩

/-- The DRAM fields of a `LeafNode` object (fptree.h:130-134). -/
structure LeafNode where
  n : ℤ
  prev : Option PPointer
  next : Option PPointer
deriving DecidableEq

/-- The process and its storage. -/
structure World where
  startLeaf : PPointer
  maxFileId : ℕ
  freeNum : ℕ
  freeList : List PPointer
  mem : ℕ → LeafGroup
  disk : Storage
  trace : List Storage
  nodes : PPointer → Option LeafNode

/-- `(p.offset - LEAF_GROUP_HEAD) / calLeafSize()`: the number of the leaf in
    its group. -/
def leafIndex (p : PPointer) : ℕ := sub64 p.offset LEAF_GROUP_HEAD / calLeafSize LEAF_DEGREE

/-- Replace leaf `i` of a group. -/
def LeafGroup.setLeaf (g : LeafGroup) (i : ℕ) (img : LeafImage) : LeafGroup :=
  { g with leaf := Function.update g.leaf i img }

/-- Replace the contents of one leaf-group file. -/
def Storage.setGroup (d : Storage) (f : ℕ) (g : LeafGroup) : Storage :=
  { d with groups := Function.update d.groups f g }

namespace World

/-- The mapped bytes of the leaf at `p`. -/
def leafAt (s : World) (p : PPointer) : LeafImage := (s.mem p.fileId).leaf (leafIndex p)

/-- Store to the mapped bytes of the leaf at `p`. -/
def setLeaf (s : World) (p : PPointer) (img : LeafImage) : World :=
  { s with mem := Function.update s.mem p.fileId ((s.mem p.fileId).setLeaf (leafIndex p) img) }

/-- Store to the header of leaf group `f`. -/
def setHeader (s : World) (f : ℕ) (usedNum : ℕ) (bitmap : ℕ → Byte) : World :=
  { s with mem := Function.update s.mem f { s.mem f with usedNum := usedNum, bitmap := bitmap } }

/-- The storage becomes `d`. -/
def commit (s : World) (d : Storage) : World := { s with disk := d, trace := s.trace ++ [d] }

/-- `pmem_persist` / `pmem_msync` of the leaf at `p`: `LeafNode::persist`
    (fptree.cpp:824-830). -/
def persistLeaf (s : World) (p : PPointer) : World :=
  s.commit (s.disk.setGroup p.fileId
    ((s.disk.groups p.fileId).setLeaf (leafIndex p) (s.leafAt p)))

/-- `pmem_persist` / `pmem_msync` of the header of leaf group `f`. -/
def persistHeader (s : World) (f : ℕ) : World :=
  s.commit (s.disk.setGroup f
    { s.disk.groups f with usedNum := (s.mem f).usedNum, bitmap := (s.mem f).bitmap })

/-- `pmem_persist` / `pmem_msync` of the whole of leaf group `f`. -/
def persistGroup (s : World) (f : ℕ) : World := s.commit (s.disk.setGroup f (s.mem f))

/-- The `LeafNode` object of the leaf at `p` becomes `nd` (`none`: deleted). -/
def setNode (s : World) (p : PPointer) (nd : Option LeafNode) : World :=
  { s with nodes := Function.update s.nodes p nd }

/-- Assign to the fields of the `LeafNode` object at `p`; `none` if there is no
    such object. -/
def modifyNode (s : World) (p : PPointer) (f : LeafNode → LeafNode) : Option World :=
  (s.nodes p).map fun nd => s.setNode p (some (f nd))

end World

end FPTreeDB
