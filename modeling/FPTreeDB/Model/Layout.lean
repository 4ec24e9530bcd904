import FPTreeDB.Lib.ByteStore
import FPTreeDB.Model.LeafNode

/-!
# The bytes of the leaf-group files

The other modules work on a leaf by field. Here a leaf-group file is an array of
bytes: an address is the distance from `fId2PmAddr[fileId]`, and every place of the
source that computes one has its own definition (the two constructors of
`LeafNode`, the headers, `freeLeaf`, `getPNext`).

`*Log` lists the accesses of a method to the mapped files in the order of the source,
with the values it stores; `Access.exec` is the effect of an access on the bytes and
`Access.apply` its effect by field. A method that has no object to work on is
undefined and has no log.
-/

namespace FPTreeDB

open ByteStore

/-- The length of a mapped leaf-group file (p_allocator.cpp:94, 274). -/
def mappedLen : ℕ := LEAF_GROUP_HEAD + LEAF_GROUP_AMOUNT * calLeafSize LEAF_DEGREE

/-- The bytes of a `PPointer`: two `uint64_t`. -/
def PPointer.bytes (p : PPointer) : List Byte := word p.fileId ++ word p.offset

/-- The pointer with the members of `p` as `uint64_t`. -/
def PPointer.word64 (p : PPointer) : PPointer := ⟨p.fileId % 2 ^ 64, p.offset % 2 ^ 64⟩

/-- The `PPointer` at address `a`. -/
def readPPointer (m : ℕ → Byte) (a : ℕ) : PPointer :=
  ⟨ofWord (load m a 8), ofWord (load m (a + 8) 8)⟩

/-! ## Where the fields of a leaf are -/

/-- The pointers of a `LeafNode` object to the bytes of its leaf (fptree.h:125-128). -/
structure LeafPointers where
  bitmap : ℕ
  pNext : ℕ
  fingerprints : ℕ
  kv : ℕ

/-- `LeafNode::LeafNode(FPTree*)` (fptree.cpp:563-569). -/
def LeafPointers.create (pmemAddr : ℕ) : LeafPointers :=
  let bitmapSize := (LEAF_DEGREE * 2 + 7) / 8
  let bitmap := pmemAddr
  let pNext := bitmap + bitmapSize
  let fingerprints := pNext + 1 * 16
  let kv := fingerprints + LEAF_DEGREE * 2
  ⟨bitmap, pNext, fingerprints, kv⟩

/-- `LeafNode::LeafNode(PPointer, FPTree*)` (fptree.cpp:594-599). -/
def LeafPointers.load (pmemAddr : ℕ) : LeafPointers :=
  let bitmapSize := (LEAF_DEGREE * 2 + 7) / 8
  let bitmap := pmemAddr
  let pNext := bitmap + bitmapSize
  let fingerprints := pNext + 1 * 16
  let kv := fingerprints + LEAF_DEGREE * 2
  ⟨bitmap, pNext, fingerprints, kv⟩

/-- The constructors of `LeafNode`. -/
inductive Ctor where
  | create
  | load

/-- The pointers that a constructor computes from `pmem_addr`. -/
def Ctor.pointers : Ctor → ℕ → LeafPointers
  | create => LeafPointers.create
  | load => LeafPointers.load

/-- A field of a leaf that the methods access as one: a bitmap byte, `*pNext`,
    `fingerprints[i]`, `kv[i].k` or `kv[i].v`. -/
inductive Field where
  | bitmap (i : ℕ)
  | pNext
  | fingerprint (i : ℕ)
  | key (i : ℕ)
  | value (i : ℕ)
deriving DecidableEq

/-- The address of a field. -/
def Field.addr (l : LeafPointers) : Field → ℕ
  | bitmap i => l.bitmap + i
  | pNext => l.pNext
  | fingerprint i => l.fingerprints + i
  | key i => l.kv + i * 16
  | value i => l.kv + i * 16 + 8

/-- The number of bytes of a field. -/
def Field.size : Field → ℕ
  | bitmap _ | fingerprint _ => 1
  | pNext => 16
  | key _ | value _ => 8

/-- The bytes of a field of a leaf. -/
def Field.content (img : LeafImage) : Field → List Byte
  | bitmap i => [img.bitmap i]
  | pNext => img.pNext.bytes
  | fingerprint i => [img.fingerprints i]
  | key i => word (img.kv i).k
  | value i => word (img.kv i).v

/-- A field of a leaf-group file: one of a leaf, `usedNum`, or a byte of the bitmap in
    the header. -/
inductive Cell where
  | field (p : PPointer) (x : Field)
  | usedNum (f : ℕ)
  | headerByte (f i : ℕ)
deriving DecidableEq

/-- The file of a cell. -/
def Cell.fileId : Cell → ℕ
  | field p _ => p.fileId
  | usedNum f | headerByte f _ => f

/-- The address of a cell. `ctor` names the constructor that made the object of a
    leaf, `getLeafPmemAddr` gives `p.offset`, and the header is accessed through
    `uint64_t* pt` and `bitmap_pt = (Byte*)(pt + 1)` (p_allocator.cpp:164-168). -/
def Cell.start (ctor : PPointer → Ctor) : Cell → ℕ
  | field p x => x.addr ((ctor p).pointers p.offset)
  | usedNum _ => 0
  | headerByte _ i => 1 * 8 + i

/-- The number of bytes of a cell. -/
def Cell.size : Cell → ℕ
  | field _ x => x.size
  | usedNum _ => 8
  | headerByte _ _ => 1

/-- The bytes of a cell. -/
def Cell.content (mem : ℕ → LeafGroup) : Cell → List Byte
  | field p x => x.content ((mem p.fileId).leaf (leafIndex p))
  | usedNum f => word (mem f).usedNum
  | headerByte f i => [(mem f).bitmap i]

/-- What `memset`, `pmem_persist` and `pmem_msync` are called on: a leaf, the header
    of a leaf group or all of it. -/
inductive Range where
  | leaf (p : PPointer)
  | header (f : ℕ)
  | group (f : ℕ)
deriving DecidableEq

/-- The file of a range. -/
def Range.fileId : Range → ℕ
  | leaf p => p.fileId
  | header f | group f => f

/-- The address of a range. -/
def Range.start : Range → ℕ
  | leaf p => p.offset
  | header _ | group _ => 0

/-- The number of bytes of a range. -/
def Range.size : Range → ℕ
  | leaf _ => calLeafSize LEAF_DEGREE
  | header _ => LEAF_GROUP_HEAD
  | group _ => mappedLen

/-- The range is taken over from `src`, by field. -/
def Range.copy (src mem : ℕ → LeafGroup) : Range → ℕ → LeafGroup
  | leaf p => Function.update mem p.fileId
      ((mem p.fileId).setLeaf (leafIndex p) ((src p.fileId).leaf (leafIndex p)))
  | header f => Function.update mem f
      { mem f with usedNum := (src f).usedNum, bitmap := (src f).bitmap }
  | group f => Function.update mem f (src f)

/-! ## Accesses -/

/-- A store to a field of a leaf. -/
inductive FieldStore where
  | bitmap (i : ℕ) (b : Byte)
  | pNext (q : PPointer)
  | fingerprint (i : ℕ) (b : Byte)
  | key (i : ℕ) (k : Key)
  | value (i : ℕ) (v : Value)

/-- The field that is stored to. -/
def FieldStore.field : FieldStore → Field
  | bitmap i _ => .bitmap i
  | pNext _ => .pNext
  | fingerprint i _ => .fingerprint i
  | key i _ => .key i
  | value i _ => .value i

/-- The bytes that are stored. -/
def FieldStore.bytes : FieldStore → List Byte
  | bitmap _ b | fingerprint _ b => [b]
  | pNext q => q.bytes
  | key _ k => word k
  | value _ v => word v

/-- The leaf afterwards. -/
def FieldStore.apply (img : LeafImage) : FieldStore → LeafImage
  | bitmap i b => { img with bitmap := Function.update img.bitmap i b }
  | pNext q => { img with pNext := q }
  | fingerprint i b => { img with fingerprints := Function.update img.fingerprints i b }
  | key i k => { img with kv := Function.update img.kv i ⟨k, (img.kv i).v⟩ }
  | value i v => { img with kv := Function.update img.kv i ⟨(img.kv i).k, v⟩ }

/-- An access to the mapped leaf-group files. `readOldNext` is the read of `pNext` in
    `freeLeaf`, `clear` is `memset(.., 0, ..)`. -/
inductive Access where
  | read (c : Cell)
  | readOldNext (p : PPointer)
  | write (p : PPointer) (x : FieldStore)
  | writeUsedNum (f u : ℕ)
  | writeHeaderByte (f i : ℕ) (b : Byte)
  | clear (r : Range)
  | persist (r : Range)

/-- The leaf groups by field: as mapped and on storage. -/
structure Groups where
  mem : ℕ → LeafGroup
  disk : ℕ → LeafGroup

/-- The bytes of the leaf-group files: as mapped and on storage. -/
structure Bytes where
  mem : ℕ → ℕ → Byte
  file : ℕ → ℕ → Byte

/-- The leaf groups of a state. -/
def World.groups (s : World) : Groups := ⟨s.mem, s.disk.groups⟩

namespace Access

/-- The file of an access. -/
def fileId : Access → ℕ
  | read c => c.fileId
  | readOldNext p | write p _ => p.fileId
  | writeUsedNum f _ | writeHeaderByte f _ _ => f
  | clear r | persist r => r.fileId

/-- The address of an access. `freeLeaf` computes the address of `pNext` itself, as
    `getLeafPmemAddr(p) + (LEAF_DEGREE * 2 + 7) / 8` (p_allocator.cpp:214). -/
def start (ctor : PPointer → Ctor) : Access → ℕ
  | read c => c.start ctor
  | readOldNext p => p.offset + (LEAF_DEGREE * 2 + 7) / 8
  | write p x => (Cell.field p x.field).start ctor
  | writeUsedNum f _ => (Cell.usedNum f).start ctor
  | writeHeaderByte f i _ => (Cell.headerByte f i).start ctor
  | clear r | persist r => r.start

/-- The number of bytes of an access. -/
def size : Access → ℕ
  | read c => c.size
  | readOldNext _ => 16
  | write _ x => x.field.size
  | writeUsedNum _ _ => 8
  | writeHeaderByte _ _ _ => 1
  | clear r | persist r => r.size

/-- The bytes `bs` are stored at the place of the access. -/
def storeBytes (ctor : PPointer → Ctor) (a : Access) (bs : List Byte) (b : Bytes) : Bytes :=
  { b with mem := Function.update b.mem a.fileId (store (b.mem a.fileId) (a.start ctor) bs) }

/-- The effect of an access on the bytes. -/
def exec (ctor : PPointer → Ctor) (b : Bytes) : Access → Bytes
  | read _ | readOldNext _ => b
  | write p x => storeBytes ctor (write p x) x.bytes b
  | writeUsedNum f u => storeBytes ctor (writeUsedNum f u) (word u) b
  | writeHeaderByte f i x => storeBytes ctor (writeHeaderByte f i x) [x] b
  | clear r =>
    { b with
      mem := Function.update b.mem r.fileId
        (ByteStore.copy (fun _ => 0) (b.mem r.fileId) r.start r.size) }
  | persist r =>
    { b with
      file := Function.update b.file r.fileId
        (ByteStore.copy (b.mem r.fileId) (b.file r.fileId) r.start r.size) }

/-- The effect of an access by field. -/
def apply (g : Groups) : Access → Groups
  | read _ | readOldNext _ => g
  | write p x =>
    { g with
      mem := Function.update g.mem p.fileId
        ((g.mem p.fileId).setLeaf (leafIndex p) (x.apply ((g.mem p.fileId).leaf (leafIndex p)))) }
  | writeUsedNum f u => { g with mem := Function.update g.mem f { g.mem f with usedNum := u } }
  | writeHeaderByte f i x =>
    { g with
      mem := Function.update g.mem f
        { g.mem f with bitmap := Function.update (g.mem f).bitmap i x } }
  | clear r => { g with mem := r.copy (fun _ => LeafGroup.zero) g.mem }
  | persist r => { g with disk := r.copy g.mem g.disk }

/-- The effect of accesses in a row on the bytes. -/
def execAll (ctor : PPointer → Ctor) (log : List Access) (b : Bytes) : Bytes :=
  log.foldl (exec ctor) b

/-- The effect of accesses in a row by field. -/
def applyAll (log : List Access) (g : Groups) : Groups := log.foldl apply g

end Access

/-- The pointer that `freeLeaf` reads from the leaf at `p` (p_allocator.cpp:214). -/
def Bytes.oldNext (b : Bytes) (p : PPointer) : PPointer :=
  readPPointer (b.mem p.fileId) (p.offset + (LEAF_DEGREE * 2 + 7) / 8)

/-- `getPNext` (utility.cpp:46-59): the pointer read from the file of the leaf. -/
def Bytes.getPNext (b : Bytes) (p : PPointer) : PPointer :=
  readPPointer (b.file p.fileId) ((LEAF_DEGREE * 2 + 7) / 8 + p.offset)

/-! ## The accesses of the allocator -/

namespace PAllocator

/-- `ifLeafUsed` and `ifLeafFree`. -/
def ifLeafUsedLog (p : PPointer) (s : World) : List Access :=
  if s.ifLeafExist p then [.read (.headerByte p.fileId (leafIndex p))] else []

def newLeafGroupLog (sys : Sys) (s : World) : List Access :=
  if !sys.mapFile then []
  else if !sys.openFreeList then [.clear (.group s.maxFileId)]
  else [.clear (.group s.maxFileId), .persist (.group s.maxFileId)]

/-- `(*pt)++` or `(*pt)--`, and the byte of the leaf in the header. -/
def headerLog (p : PPointer) (u : ℕ) (b : Byte) : List Access :=
  [.read (.usedNum p.fileId), .writeUsedNum p.fileId u, .writeHeaderByte p.fileId (leafIndex p) b,
    .persist (.header p.fileId)]

def claimLeafLog (p : PPointer) (s : World) : List Access :=
  ifLeafUsedLog s.startLeaf s ++ [.clear (.leaf p), .persist (.leaf p)] ++
    headerLog p ((s.mem p.fileId).usedNum + 1) 1

def takeLeafLog (s : World) : List Access :=
  match s.freeList.getLast? with
  | none => []
  | some p => if !s.ifLeafExist p then [] else claimLeafLog p s

def getLeafLog (sys : Sys) (s : World) : List Access :=
  if s.freeNum = 0 then
    newLeafGroupLog sys s ++
      if (newLeafGroup sys s).1 then takeLeafLog (newLeafGroup sys s).2 else []
  else takeLeafLog s

def freeLeafLog (p : PPointer) (s : World) : List Access :=
  ifLeafUsedLog p s ++
    if !s.ifLeafUsed p then []
    else (if s.startLeaf = p then [.readOldNext p] else []) ++
      headerLog p ((s.mem p.fileId).usedNum - 1) 0

end PAllocator

/-! ## The accesses of a leaf -/

namespace LeafNode

/-- The loop of `findFirstZero` over the slots that are left. -/
def findFirstZeroLog (p : PPointer) (img : LeafImage) : List ℕ → List Access
  | [] => []
  | i :: is => .read (.field p (.bitmap (i / 8))) ::
      if img.getBit LEAF_DEGREE i then findFirstZeroLog p img is else []

/-- The search loop of `find`, `update` and `remove` over the slots that are left. -/
def findSlotLog (keyHash : Key → Byte) (p : PPointer) (img : LeafImage) (k : Key) :
    List ℕ → List Access
  | [] => []
  | i :: is => .read (.field p (.bitmap (i / 8))) ::
      if img.getBit LEAF_DEGREE i then
        .read (.field p (.fingerprint i)) ::
          if keyHash k == img.fingerprints i then
            .read (.field p (.key i)) ::
              if k == (img.kv i).k then [] else findSlotLog keyHash p img k is
          else findSlotLog keyHash p img k is
      else findSlotLog keyHash p img k is

/-- The count of `LeafNode(PPointer, FPTree*)`. -/
def loadLog (p : PPointer) : List Access :=
  (List.range (bitmapSize LEAF_DEGREE)).map fun i => .read (.field p (.bitmap i))

def findLog (env : Env) (p : PPointer) (k : Key) (s : World) : List Access :=
  findSlotLog env.keyHash p (s.leafAt p) k (List.range (LEAF_DEGREE * 2)) ++
    match (s.leafAt p).findSlot env.keyHash LEAF_DEGREE k with
    | some i => [.read (.field p (.value i))]
    | none => []

/-- `getBit` looks at the bitmap of an index in range only. -/
def getBitLog (p : PPointer) (i : ℕ) : List Access :=
  if i < LEAF_DEGREE * 2 then [.read (.field p (.bitmap (i / 8)))] else []

def printNodeLog (p : PPointer) (img : LeafImage) : List Access :=
  (List.range (LEAF_DEGREE * 2)).flatMap fun i => .read (.field p (.bitmap (i / 8))) ::
    if img.getBit LEAF_DEGREE i then
      [.read (.field p (.key i)), .read (.field p (.value i))]
    else []

def updateLog (env : Env) (p : PPointer) (k : Key) (v : Value) (s : World) : List Access :=
  findSlotLog env.keyHash p (s.leafAt p) k (List.range (LEAF_DEGREE * 2)) ++
    match (s.leafAt p).findSlot env.keyHash LEAF_DEGREE k with
    | some i => [.write p (.value i v), .persist (.leaf p)]
    | none => []

def insertNonFullLog (env : Env) (p : PPointer) (k : Key) (v : Value) (s : World) : List Access :=
  let img := s.leafAt p
  let pos := img.findFirstZero LEAF_DEGREE
  findFirstZeroLog p img (List.range (LEAF_DEGREE * 2)) ++
    if pos ≥ LEAF_DEGREE * 2 then []
    else [.read (.field p (.bitmap (pos / 8))),
      .write p (.bitmap (pos / 8) (img.bitmap (pos / 8) ||| LeafImage.bitMask pos)),
      .write p (.fingerprint pos (env.keyHash k)), .write p (.key pos k), .write p (.value pos v),
      .persist (.leaf p)]

/-- One turn of the loop of `split` that moves the upper half to the new leaf `q`. -/
def moveLog (p q : PPointer) (img : LeafImage) (midKey : Key) (i : ℕ) : List Access :=
  .read (.field p (.key i)) ::
    if (img.kv i).k ≥ midKey then
      [.read (.field p (.fingerprint i)), .write q (.fingerprint i (img.fingerprints i)),
        .read (.field p (.key i)), .read (.field p (.value i)),
        .write q (.key i (img.kv i).k), .write q (.value i (img.kv i).v)]
    else []

def findSplitKeyLog (p : PPointer) : List Access :=
  (List.range (LEAF_DEGREE * 2)).map fun i => .read (.field p (.key i))

/-- The loops of `split` that store the bytes `b` to a bitmap. -/
def bitmapLog (p : PPointer) (b : ℕ → Byte) : List Access :=
  (List.range (bitmapSize LEAF_DEGREE)).map fun i => .write p (.bitmap i (b i))

/-- `split` from `findSplitKey` on, when the new leaf is `q`. -/
def splitBytesLog (p q : PPointer) (img : LeafImage) : List Access :=
  let midKey := img.findSplitKey LEAF_DEGREE
  let newBitmap := img.newBitmap LEAF_DEGREE midKey
  findSplitKeyLog p ++ (List.range (LEAF_DEGREE * 2)).flatMap (moveLog p q img midKey) ++
  bitmapLog q newBitmap ++
  [.read (.field p .pNext), .write q (.pNext img.pNext), .persist (.leaf q)] ++
  bitmapLog p (fun i => ~~~newBitmap i) ++ [.write p (.pNext q), .persist (.leaf p)]

def splitLog (sys : Sys) (p : PPointer) (s : World) : List Access :=
  match s.nodes p with
  | none => []
  | some nd =>
    if nd.n < 2 * LEAF_DEGREE then []
    else PAllocator.getLeafLog sys s ++
      match create sys s with
      | (none, _) => []
      | (some q, s) => splitBytesLog p q (s.leafAt p)

def insertLog (env : Env) (sys : Sys) (p : PPointer) (k : Key) (v : Value) (s : World) :
    List Access :=
  insertNonFullLog env p k v s ++
    match insertNonFull env p k v s with
    | none => []
    | some s =>
      match s.nodes p with
      | none => []
      | some nd => if nd.n ≥ LEAF_DEGREE * 2 then splitLog sys p s else []

def unlinkLog (p : PPointer) (s : World) : List Access :=
  match (s.nodes p).bind LeafNode.prev with
  | some q => [.read (.field p .pNext), .write q (.pNext (s.leafAt p).pNext), .persist (.leaf q)]
  | none => []

def removeLog (env : Env) (sys : Sys) (p : PPointer) (k : Key) (s : World) : List Access :=
  findSlotLog env.keyHash p (s.leafAt p) k (List.range (LEAF_DEGREE * 2)) ++
    match (s.leafAt p).findSlot env.keyHash LEAF_DEGREE k, s.nodes p with
    | some pos, some nd =>
      let img := s.leafAt p
      let s :=
        ((s.setNode p (some { nd with n := nd.n - 1 })).setLeaf p (img.removeAt pos)).persistLeaf p
      [.read (.field p (.bitmap (pos / 8))),
        .write p (.bitmap (pos / 8) (img.bitmap (pos / 8) &&& ~~~LeafImage.bitMask pos)),
        .persist (.leaf p)] ++
      if nd.n - 1 = 0 then
        PAllocator.freeLeafLog p s ++ unlinkLog p (PAllocator.freeLeaf sys p s).2
      else []
    | _, _ => []

end LeafNode

/-! ## Runs -/

/-- The constructors, destructor and methods of `LeafNode` (fptree.h:136-163), but
    `getPPointer`, which accesses no leaf. -/
inductive LeafOp where
  | create
  | load (p : PPointer)
  | insertNonFull (p : PPointer) (k : Key) (v : Value)
  | split (p : PPointer)
  | insert (p : PPointer) (k : Key) (v : Value)
  | update (p : PPointer) (k : Key) (v : Value)
  | remove (p : PPointer) (k : Key)
  | find (p : PPointer) (k : Key)
  | findSplitKey (p : PPointer)
  | printNode (p : PPointer)
  | findFirstZero (p : PPointer)
  | getBit (p : PPointer) (i : ℕ)
  | getKey (p : PPointer) (i : ℕ)
  | getValue (p : PPointer) (i : ℕ)
  | persist (p : PPointer)
  | destroy (p : PPointer)

namespace LeafOp

/-- One operation, where `sys` holds the outcomes of its system calls. The reloading
    constructor reads through a null pointer when the leaf does not exist; `getKey` and
    `getValue` do not check the index. -/
def step (env : Env) : Sys × LeafOp → World → Option World
  | (sys, create), s => some (LeafNode.create sys s).2
  | (_, load p), s => if s.ifLeafExist p then some (LeafNode.load p s) else none
  | (_, insertNonFull p k v), s => LeafNode.insertNonFull env p k v s
  | (sys, split p), s => (LeafNode.split sys p s).map Prod.snd
  | (sys, insert p k v), s => (LeafNode.insert env sys p k v s).map Prod.snd
  | (_, update p k v), s => (LeafNode.update env p k v s).map Prod.snd
  | (sys, remove p k), s => (LeafNode.remove env sys p k false s).map fun r => r.2.2
  | (_, find p k), s => (LeafNode.find env p k s).map fun _ => s
  | (_, findSplitKey p), s | (_, printNode p), s | (_, findFirstZero p), s | (_, getBit p _), s =>
    (s.nodes p).map fun _ => s
  | (_, getKey p i), s | (_, getValue p i), s =>
    if i < LEAF_DEGREE * 2 then (s.nodes p).map fun _ => s else none
  | (_, persist p), s => (s.nodes p).map fun _ => s.persistLeaf p
  | (_, destroy p), s => (s.nodes p).map fun _ => LeafNode.destroy p s

/-- The accesses of one operation. -/
def log (env : Env) : Sys × LeafOp → World → List Access
  | (sys, create), s => PAllocator.getLeafLog sys s
  | (_, load p), _ => LeafNode.loadLog p
  | (_, insertNonFull p k v), s => LeafNode.insertNonFullLog env p k v s
  | (sys, split p), s => LeafNode.splitLog sys p s
  | (sys, insert p k v), s => LeafNode.insertLog env sys p k v s
  | (_, update p k v), s => LeafNode.updateLog env p k v s
  | (sys, remove p k), s => LeafNode.removeLog env sys p k s
  | (_, find p k), s => LeafNode.findLog env p k s
  | (_, findSplitKey p), _ => LeafNode.findSplitKeyLog p
  | (_, printNode p), s => LeafNode.printNodeLog p (s.leafAt p)
  | (_, findFirstZero p), s =>
    LeafNode.findFirstZeroLog p (s.leafAt p) (List.range (LEAF_DEGREE * 2))
  | (_, getBit p i), _ => LeafNode.getBitLog p i
  | (_, getKey p i), _ => [.read (.field p (.key i))]
  | (_, getValue p i), _ => [.read (.field p (.value i))]
  | (_, persist p), _ | (_, destroy p), _ => [.persist (.leaf p)]

/-- The accesses of operations in a row. -/
def runLog (env : Env) : List (Sys × LeafOp) → World → List Access
  | [], _ => []
  | op :: ops, s => log env op s ++ (step env op s).elim [] (runLog env ops)

end LeafOp

end FPTreeDB
