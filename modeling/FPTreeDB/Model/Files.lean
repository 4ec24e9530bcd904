import FPTreeDB.Lib.ByteFile
import FPTreeDB.Model.Layout

/-!
# The allocator's files in bytes

What the methods of `src/p_allocator.cpp` do to the bytes of `p_allocator_catalog` and
`free_list`: files opened with `ios::out` are truncated, `seekp` may go past the end, a
`read` past the end leaves the variable as it is. A `PPointer` is two `uint64_t`.
-/

namespace FPTreeDB

open ByteStore ByteFile

/-- `sizeof(PPointer)`. -/
def PPOINTER_SIZE : ℕ := 16

/-- The `PPointer` with these bytes. -/
def PPointer.ofBytes (bs : List Byte) : PPointer := ⟨ofWord (bs.take 8), ofWord (bs.drop 8)⟩

/-- The bytes of the two files; `none` where a file does not exist. -/
structure ByteDir where
  catalog : Option (List Byte)
  freeList : Option (List Byte)

namespace PAllocator

/-- `persistCatalog` (p_allocator.cpp:247-258). -/
def persistCatalogFile (sys : Sys) (s : World) (dir : ByteDir) : ByteDir :=
  if sys.openCatalog then
    let f := truncated
    let f := f.write (word s.maxFileId)
    let f := f.write (word s.freeNum)
    let f := f.write s.startLeaf.bytes
    { dir with catalog := some f.bytes }
  else dir

/-- What `newLeafGroup` does to `free_list` (p_allocator.cpp:287-304). -/
def newLeafGroupFile (sys : Sys) (s : World) (dir : ByteDir) : ByteDir :=
  if !sys.mapFile || !sys.openFreeList then dir
  else
    let f := truncated.seek (s.freeNum * PPOINTER_SIZE)
    let f := ((groupPointers s.maxFileId).map PPointer.bytes).foldl (fun f bs => f.write bs) f
    { dir with freeList := some f.bytes }

/-- What `getLeaf` does to the files (p_allocator.cpp:133). -/
def getLeafFile (sys : Sys) (s : World) (dir : ByteDir) : ByteDir :=
  if s.freeNum = 0 then newLeafGroupFile sys s dir else dir

/-- What `freeLeaf` does to the files (p_allocator.cpp:207-227). -/
def freeLeafFile (sys : Sys) (p : PPointer) (s : World) (dir : ByteDir) : ByteDir :=
  if !s.ifLeafUsed p then dir
  else
    let dir := if s.startLeaf = p then
        persistCatalogFile sys { s with startLeaf := (s.leafAt p).pNext } dir
      else dir
    if sys.openFreeList then
      let f := truncated.seek (s.freeNum * PPOINTER_SIZE)
      let f := f.write p.bytes
      { dir with freeList := some f.bytes }
    else dir

/-- The data members that the constructor reads from the files (p_allocator.cpp:33-44).
    `members` are the indeterminate values they have before. -/
def readFiles (env : Env) (members : Catalog) (catalog freeList : List Byte) :
    Catalog × List PPointer :=
  let f : Stream := ⟨catalog, 0⟩
  let (maxFileId, f) := f.read 8 (word members.maxFileId)
  let (freeNum, f) := f.read 8 (word members.freeNum)
  let (startLeaf, _) := f.read PPOINTER_SIZE members.startLeaf.bytes
  let freeNum := ofWord freeNum
  (⟨ofWord maxFileId, freeNum, PPointer.ofBytes startLeaf⟩,
    Stream.readRecords PPOINTER_SIZE PPointer.ofBytes freeNum env.junk.bytes ⟨freeList, 0⟩)

/-- `PAllocator::PAllocator` (p_allocator.cpp:27-62) on the bytes of the files and the
    contents of the leaf-group files: the data members and the files afterwards. -/
def openFiles (env : Env) (members : Catalog) (dir : ByteDir) :
    (Catalog × List PPointer) × ByteDir :=
  match dir.catalog, dir.freeList with
  | some catalog, some freeList => (readFiles env members catalog freeList, dir)
  | _, _ =>
    let c : Catalog := ⟨1, 0, PPointer.zero⟩
    let f := (((truncated.write (word c.maxFileId)).write (word c.freeNum)).write c.startLeaf.bytes)
    ((c, []), ⟨some f.bytes, some []⟩)

end PAllocator

end FPTreeDB
