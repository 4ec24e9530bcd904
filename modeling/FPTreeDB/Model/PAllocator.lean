import FPTreeDB.Model.World

/-!
# `PAllocator`

Models of `src/p_allocator.cpp`. The methods of the singleton act on the
`World`; `sys` holds the outcomes of the system calls they make.

Files are opened with `ios::out | ios::binary`, which truncates them, and a seek
past the end followed by a write fills the gap with zero bytes; `free_list` is
only written and read in whole `PPointer`s, so it is a list of them.
-/

namespace FPTreeDB

namespace World

/-- `ifLeafExist` (p_allocator.cpp:199-204). -/
def ifLeafExist (s : World) (p : PPointer) : Bool :=
  if p.fileId = ILLEGAL_FILE_ID ∨ p.fileId ≥ s.maxFileId then false
  else if p.offset ≥ LEAF_GROUP_HEAD + LEAF_GROUP_AMOUNT * calLeafSize LEAF_DEGREE then false
  else if sub64 p.offset LEAF_GROUP_HEAD % calLeafSize LEAF_DEGREE ≠ 0 then false
  else true

/-- The header byte of the leaf at `p`. -/
def headerByte (s : World) (p : PPointer) : Byte := (s.mem p.fileId).bitmap (leafIndex p)

/-- `sizeof(uint64_t) + (p.offset - LEAF_GROUP_HEAD) / calLeafSize()`: the address of
    that byte in the mapped leaf-group file. -/
def headerAddr (p : PPointer) : ℕ := 8 + leafIndex p

/-- `ifLeafFree` (p_allocator.cpp:186-192). -/
def ifLeafFree (s : World) (p : PPointer) : Bool :=
  if s.ifLeafExist p then s.headerByte p == 0 else false

/-- `ifLeafUsed` (p_allocator.cpp:179-182). -/
def ifLeafUsed (s : World) (p : PPointer) : Bool := s.ifLeafExist p && !s.ifLeafFree p

end World

namespace PAllocator

/-- `seekp(pos * sizeof(PPointer))` and `write` of the pointers `ps`. -/
def writeAt (file : List PPointer) (pos : ℕ) (ps : List PPointer) : List PPointer :=
  (file ++ List.replicate (pos - file.length) PPointer.zero).take pos ++ ps ++
    file.drop (pos + ps.length)

/-- Open `free_list`, seek to entry `pos`, write `ps` and close it. -/
def rewriteFreeList (s : World) (pos : ℕ) (ps : List PPointer) : World :=
  let s := s.commit { s.disk with freeList := some [] }
  s.commit { s.disk with freeList := some (writeAt [] pos ps) }

/-- `persistCatalog` (p_allocator.cpp:247-258). -/
def persistCatalog (sys : Sys) (s : World) : World :=
  if sys.openCatalog then
    s.commit { s.disk with catalog := some ⟨s.maxFileId, s.freeNum, s.startLeaf⟩ }
  else s

/-- The pointers to the leaves of group `f`, in the order of the loop in
    `newLeafGroup`. -/
def groupPointers (f : ℕ) : List PPointer :=
  (List.range LEAF_GROUP_AMOUNT).map fun i => ⟨f, LEAF_GROUP_HEAD + i * calLeafSize LEAF_DEGREE⟩

/-- `newLeafGroup` (p_allocator.cpp:265-315). -/
def newLeafGroup (sys : Sys) (s : World) : Bool × World :=
  if !sys.mapFile then (false, s)
  else
    let f := s.maxFileId
    let s := { s with mem := Function.update s.mem f LeafGroup.zero }
    if !sys.openFreeList then (false, s)
    else
      let s := rewriteFreeList s s.freeNum (groupPointers f)
      let s := { s with
        freeList := s.freeList ++ groupPointers f
        freeNum := s.freeNum + LEAF_GROUP_AMOUNT
        maxFileId := f + 1 }
      (true, s.persistGroup f)

/-- `getLeaf` from line 146 on: the free leaf `p` is put to use. -/
def claimLeaf (p : PPointer) (s : World) : World :=
  let s := { s with
    startLeaf := if s.ifLeafUsed s.startLeaf then s.startLeaf else p
    freeList := s.freeList.dropLast
    freeNum := s.freeNum - 1 }
  let s := (s.setLeaf p LeafImage.zero).persistLeaf p
  let g := s.mem p.fileId
  (s.setHeader p.fileId (g.usedNum + 1) (Function.update g.bitmap (leafIndex p) 1)).persistHeader
    p.fileId

/-- `getLeaf` from line 136 on; `none` is the result `false`. `freeList.back()`
    exists because `freeNum = freeList.size()`. -/
def takeLeaf (s : World) : Option PPointer × World :=
  match s.freeList.getLast? with
  | none => (none, s)
  | some p => if !s.ifLeafExist p then (none, s) else (some p, claimLeaf p s)

/-- `getLeaf` (p_allocator.cpp:128-176). -/
def getLeaf (sys : Sys) (s : World) : Option PPointer × World :=
  if s.freeNum = 0 then
    match newLeafGroup sys s with
    | (false, s) => (none, s)
    | (true, s) => takeLeaf s
  else takeLeaf s

/-- `freeLeaf` for a leaf `p` in use (p_allocator.cpp:212-243). When `free_list`
    cannot be opened the code prints an error and goes on; the writes to the
    closed stream do nothing. -/
def releaseLeaf (sys : Sys) (p : PPointer) (s : World) : World :=
  let s := if s.startLeaf = p then
      persistCatalog sys { s with startLeaf := (s.leafAt p).pNext }
    else s
  let s := if sys.openFreeList then rewriteFreeList s s.freeNum [p] else s
  let s := { s with freeList := s.freeList ++ [p], freeNum := s.freeNum + 1 }
  let g := s.mem p.fileId
  (s.setHeader p.fileId (g.usedNum - 1) (Function.update g.bitmap (leafIndex p) 0)).persistHeader
    p.fileId

/-- `freeLeaf` (p_allocator.cpp:207-244). -/
def freeLeaf (sys : Sys) (p : PPointer) (s : World) : Bool × World :=
  if !s.ifLeafUsed p then (false, s) else (true, releaseLeaf sys p s)

/-- The loop of the constructor that reads `freeNum` pointers. A `read` at the
    end of the file leaves `pt` as it is. -/
def readEntries : ℕ → PPointer → List PPointer → List PPointer
  | 0, _, _ => []
  | m + 1, _, pt :: file => pt :: readEntries m pt file
  | m + 1, pt, [] => pt :: readEntries m pt []

/-- `PAllocator::PAllocator` (p_allocator.cpp:27-62), with `initFilePmemAddr`
    mapping the leaf-group files. -/
def construct (env : Env) (sys : Sys) (d : Storage) : World :=
  match d.catalog, d.freeList with
  | some c, some file =>
    { startLeaf := c.startLeaf, maxFileId := c.maxFileId, freeNum := c.freeNum,
      freeList := readEntries c.freeNum env.junk file,
      mem := d.groups, disk := d, trace := [], nodes := fun _ => none }
  | _, _ =>
    let s : World :=
      { startLeaf := PPointer.zero, maxFileId := 1, freeNum := 0, freeList := [],
        mem := d.groups, disk := d, trace := [], nodes := fun _ => none }
    let s := if sys.openFreeList then s.commit { s.disk with freeList := some [] } else s
    persistCatalog sys s

/-- `PAllocator::~PAllocator` (p_allocator.cpp:72-83). -/
def destruct (sys : Sys) (s : World) : World :=
  (List.range' 1 (s.maxFileId - 1)).foldl World.persistGroup (persistCatalog sys s)

end PAllocator

end FPTreeDB
