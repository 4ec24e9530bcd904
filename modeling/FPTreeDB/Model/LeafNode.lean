import FPTreeDB.Model.PAllocator

/-!
# `LeafNode`

Models of the `LeafNode` methods of `src/fptree.cpp`. The functions on
`LeafImage` compute on the bytes of one leaf and take the leaf degree `L` as an
argument; the methods in namespace `LeafNode` act on the `World` with
`L = LEAF_DEGREE`.

`none` stands for undefined behaviour: a use of an object that does not exist or
whose fields were never set.
-/

namespace FPTreeDB

namespace LeafImage

/-- `1 << (7 - i % 8)`, as a byte. -/
def bitMask (i : ℕ) : Byte := 1#8 <<< (7 - i % 8)

/-- `bitmap[i / 8] |= (1 << (7 - i % 8))`. -/
def setBitmap (b : ℕ → Byte) (i : ℕ) : ℕ → Byte :=
  Function.update b (i / 8) (b (i / 8) ||| bitMask i)

/-- `bitmap[i / 8] &= ~(1 << (7 - i % 8))`. -/
def clearBitmap (b : ℕ → Byte) (i : ℕ) : ℕ → Byte :=
  Function.update b (i / 8) (b (i / 8) &&& ~~~bitMask i)

/-- `getBit` (fptree.cpp:722-725). -/
def getBit (L : ℕ) (img : LeafImage) (i : ℕ) : Bool :=
  decide (i < L * 2) && (img.bitmap (i / 8) &&& bitMask i != 0)

/-- `findFirstZero` (fptree.cpp:814-820). -/
def findFirstZero (L : ℕ) (img : LeafImage) : ℕ :=
  ((List.range (L * 2)).find? fun i => !img.getBit L i).getD (L * 2)

/-- The search loop of `find`, `update` and `remove` (fptree.cpp:748-752,
    787-796, 803-809): the first slot whose bit is set, whose fingerprint is the
    hash of `k` and whose key is `k`. -/
def findSlot (keyHash : Key → Byte) (L : ℕ) (img : LeafImage) (k : Key) : Option ℕ :=
  (List.range (L * 2)).find? fun i =>
    img.getBit L i && keyHash k == img.fingerprints i && k == (img.kv i).k

/-- The stores of `insertNonFull` to slot `pos` (fptree.cpp:636-640). -/
def insertAt (keyHash : Key → Byte) (img : LeafImage) (pos : ℕ) (k : Key) (v : Value) : LeafImage :=
  { img with
    bitmap := setBitmap img.bitmap pos
    fingerprints := Function.update img.fingerprints pos (keyHash k)
    kv := Function.update img.kv pos ⟨k, v⟩ }

/-- `kv[i].v = v` in `update` (fptree.cpp:790). -/
def updateAt (img : LeafImage) (i : ℕ) (v : Value) : LeafImage :=
  { img with kv := Function.update img.kv i ⟨(img.kv i).k, v⟩ }

/-- The store of `remove` to the bitmap (fptree.cpp:756). -/
def removeAt (img : LeafImage) (pos : ℕ) : LeafImage :=
  { img with bitmap := clearBitmap img.bitmap pos }

/-- `findSplitKey` (fptree.cpp:708-717): the keys of all slots, sorted, and of
    these the one at index `L`. -/
def findSplitKey (L : ℕ) (img : LeafImage) : Key :=
  (((List.range (L * 2)).map fun i => (img.kv i).k).insertionSort (· ≤ ·)).getD L 0

/-- `newBitmap` of `split` (fptree.cpp:656-670). -/
def newBitmap (L : ℕ) (img : LeafImage) (midKey : Key) : ℕ → Byte :=
  (List.range (L * 2)).foldl
    (fun b i => if (img.kv i).k ≥ midKey then setBitmap b i else b) fun _ => 0

/-- The bytes of the new leaf of `split` (fptree.cpp:664-675), which held
    `zero` before. -/
def splitNew (L : ℕ) (img zero : LeafImage) (midKey : Key) : LeafImage where
  bitmap i := if i < bitmapSize L then img.newBitmap L midKey i else zero.bitmap i
  pNext := img.pNext
  fingerprints i :=
    if i < L * 2 ∧ (img.kv i).k ≥ midKey then img.fingerprints i else zero.fingerprints i
  kv i := if i < L * 2 ∧ (img.kv i).k ≥ midKey then img.kv i else zero.kv i

/-- The bytes of the old leaf after `split` (fptree.cpp:678-681). -/
def splitOld (L : ℕ) (img : LeafImage) (midKey : Key) (newPointer : PPointer) : LeafImage :=
  { img with
    bitmap := fun i => if i < bitmapSize L then ~~~(img.newBitmap L midKey i) else img.bitmap i
    pNext := newPointer }

/-- The count of `LeafNode(PPointer, FPTree*)` (fptree.cpp:601-604). -/
def countBits (L : ℕ) (img : LeafImage) : ℕ :=
  ((List.range (bitmapSize L)).map fun i => countOneBits (img.bitmap i)).sum

/-- The smallest key of a leaf as `bulkLoading` computes it (fptree.cpp:941-948). -/
def minKey (L : ℕ) (img : LeafImage) : Key :=
  (List.range (L * 2)).foldl
    (fun m i => if img.getBit L i then (if m ≤ (img.kv i).k then m else (img.kv i).k) else m)
    MAX_KEY

end LeafImage

namespace LeafNode

/-- `LeafNode::LeafNode(FPTree*)` (fptree.cpp:548-577): the pointer of the new
    leaf, or `none` if `getLeaf` failed and the fields of the object stay unset. -/
def create (sys : Sys) (s : World) : Option PPointer × World :=
  match PAllocator.getLeaf sys s with
  | (none, s) => (none, s)
  | (some p, s) => (some p, s.setNode p (some ⟨0, none, none⟩))

/-- `LeafNode::LeafNode(PPointer, FPTree*)` (fptree.cpp:581-611). -/
def load (p : PPointer) (s : World) : World :=
  s.setNode p (some ⟨(s.leafAt p).countBits LEAF_DEGREE, none, none⟩)

/-- `LeafNode::~LeafNode` (fptree.cpp:614-616). -/
def destroy (p : PPointer) (s : World) : World :=
  (s.persistLeaf p).setNode p none

/-- `LeafNode::find` (fptree.cpp:801-811). -/
def find (env : Env) (p : PPointer) (k : Key) (s : World) : Option Value := do
  let _ ← s.nodes p
  let img := s.leafAt p
  match img.findSlot env.keyHash LEAF_DEGREE k with
  | some i => some (img.kv i).v
  | none => some MAX_VALUE

/-- `LeafNode::update` (fptree.cpp:784-798). -/
def update (env : Env) (p : PPointer) (k : Key) (v : Value) (s : World) :
    Option (Bool × World) := do
  let _ ← s.nodes p
  let img := s.leafAt p
  match img.findSlot env.keyHash LEAF_DEGREE k with
  | some i => some (true, (s.setLeaf p (img.updateAt i v)).persistLeaf p)
  | none => some (false, s)

/-- `LeafNode::insertNonFull` (fptree.cpp:629-643). On a full leaf it prints an
    error and returns. -/
def insertNonFull (env : Env) (p : PPointer) (k : Key) (v : Value) (s : World) : Option World := do
  let nd ← s.nodes p
  let img := s.leafAt p
  let pos := img.findFirstZero LEAF_DEGREE
  if pos ≥ LEAF_DEGREE * 2 then some s
  else
    let s := s.setLeaf p (img.insertAt env.keyHash pos k v)
    let s ← s.modifyNode p fun nd' => { nd' with n := nd.n + 1 }
    some (s.persistLeaf p)

/-- The links set by `split` (fptree.cpp:688-696). -/
def linkAfter (p q : PPointer) (s : World) : Option World := do
  let nd ← s.nodes p
  let s ← s.modifyNode q fun x => { x with prev := some p }
  let s ← match nd.next with
    | some r => s.modifyNode r fun x => { x with prev := some q }
    | none => some s
  let s ← s.modifyNode q fun x => { x with next := nd.next }
  s.modifyNode p fun x => { x with next := some q }

/-- `LeafNode::split` (fptree.cpp:646-702): the key and the new leaf of the
    `KeyNode`. When the constructor of the new leaf returned early, the stores
    through its unset pointers are undefined. -/
def split (sys : Sys) (p : PPointer) (s : World) : Option (Option (Key × PPointer) × World) := do
  let nd ← s.nodes p
  if nd.n < 2 * LEAF_DEGREE then some (none, s)
  else
    match create sys s with
    | (none, _) => none
    | (some q, s) => do
      let img := s.leafAt p
      let midKey := img.findSplitKey LEAF_DEGREE
      let s := (s.setLeaf q (img.splitNew LEAF_DEGREE (s.leafAt q) midKey)).persistLeaf q
      let s := (s.setLeaf p (img.splitOld LEAF_DEGREE midKey q)).persistLeaf p
      let s ← s.modifyNode q fun x => { x with n := LEAF_DEGREE }
      let s ← s.modifyNode p fun x => { x with n := LEAF_DEGREE }
      let s ← linkAfter p q s
      some (some (midKey, q), s)

/-- `LeafNode::insert` (fptree.cpp:619-626). -/
def insert (env : Env) (sys : Sys) (p : PPointer) (k : Key) (v : Value) (s : World) :
    Option (Option (Key × PPointer) × World) := do
  let s ← insertNonFull env p k v s
  let nd ← s.nodes p
  if nd.n ≥ LEAF_DEGREE * 2 then split sys p s else some (none, s)

/-- The unlinking of an emptied leaf in `remove` (fptree.cpp:768-775). -/
def unlink (p : PPointer) (s : World) : Option World := do
  let nd ← s.nodes p
  let s ← match nd.prev with
    | some q => do
      let s ← s.modifyNode q fun x => { x with next := nd.next }
      let s := s.setLeaf q { s.leafAt q with pNext := (s.leafAt p).pNext }
      some (s.persistLeaf q)
    | none => some s
  match nd.next with
  | some r => s.modifyNode r fun x => { x with prev := nd.prev }
  | none => some s

/-- `LeafNode::remove` (fptree.cpp:742-780): the return value, the value left in
    `ifDelete`, and the new state. A failing `freeLeaf` is only reported. -/
def remove (env : Env) (sys : Sys) (p : PPointer) (k : Key) (ifDelete : Bool) (s : World) :
    Option (Bool × Bool × World) := do
  let nd ← s.nodes p
  let img := s.leafAt p
  match img.findSlot env.keyHash LEAF_DEGREE k with
  | none => some (false, ifDelete, s)
  | some pos => do
    let s ← s.modifyNode p fun x => { x with n := nd.n - 1 }
    let s := (s.setLeaf p (img.removeAt pos)).persistLeaf p
    if nd.n - 1 = 0 then do
      let s := (PAllocator.freeLeaf sys p s).2
      let s ← unlink p s
      some (true, true, s)
    else some (true, false, s)

end LeafNode

end FPTreeDB
