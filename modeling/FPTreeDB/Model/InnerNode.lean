import FPTreeDB.Lib.CArray
import FPTreeDB.Model.Utility

/-!
# `InnerNode`

Models of the `InnerNode` methods of `src/fptree.cpp` that work on the arrays of
one node, its brothers and its parent. `α` is the type of the entries of
`childrens` (node pointers). `none` is an access outside the arrays
`new Key[2 * d + 1]` and `new Node*[2 * d + 2]`.

A slot that was never written holds an indeterminate value in the source; a
model slot holds `default`.
-/

namespace FPTreeDB

open CArray

/-- `InnerNode` (fptree.h:65-74). -/
structure InnerNode (α : Type) where
  degree : ℕ
  isRoot : Bool
  nKeys : ℕ
  nChild : ℕ
  keys : ℕ → Key
  childrens : ℕ → α

namespace InnerNode

variable {α : Type}

/-- The number of slots of `keys`. -/
def keyCap (n : InnerNode α) : ℕ := 2 * n.degree + 1

/-- The number of slots of `childrens`. -/
def childCap (n : InnerNode α) : ℕ := 2 * n.degree + 2

/-- `InnerNode::InnerNode` (fptree.cpp:12-21). -/
def create [Inhabited α] (d : ℕ) (isRoot : Bool) : InnerNode α :=
  ⟨d, isRoot, 0, 0, fun _ => 0, fun _ => default⟩

/-- The `while (left <= right)` loop of `findIndex`, at most `fuel` turns. -/
def findIndexLoop (keys : ℕ → Key) (k : Key) : ℕ → ℤ → ℤ → ℤ
  | 0, left, _ => left
  | fuel + 1, left, right =>
    if left ≤ right then
      let mid := (left + right) / 2
      if keys mid.toNat > k then findIndexLoop keys k fuel left (mid - 1)
      else findIndexLoop keys k fuel (mid + 1) right
    else left

/-- `findIndex` (fptree.cpp:30-38). Every turn removes at least `mid` from the
    interval, so `nKeys` turns suffice. -/
def findIndex (n : InnerNode α) (k : Key) : ℕ :=
  (findIndexLoop n.keys k n.nKeys 0 ((n.nKeys : ℤ) - 1)).toNat

/-- `keys[nKeys++] = k`. -/
def pushKey (n : InnerNode α) (k : Key) : Option (InnerNode α) := do
  let keys ← write n.keyCap n.keys n.nKeys k
  some { n with keys := keys, nKeys := n.nKeys + 1 }

/-- `childrens[nChild++] = c`. -/
def pushChild (n : InnerNode α) (c : α) : Option (InnerNode α) := do
  let childrens ← write n.childCap n.childrens n.nChild c
  some { n with childrens := childrens, nChild := n.nChild + 1 }

/-- The pointer in slot `i` of `childrens` stays, the node it points to becomes `c`. -/
def setChild (n : InnerNode α) (i : ℤ) (c : α) : InnerNode α :=
  { n with childrens := Function.update n.childrens i.toNat c }

/-- `insertNonFull` (fptree.cpp:46-69). `nodeNKeys` is what the code reads as
    `((InnerNode*)node)->nKeys`; when that is 0 it prints an error and returns. -/
def insertNonFull (n : InnerNode α) (nodeNKeys : ℕ) (k : Key) (node : α) : Option (InnerNode α) :=
  if nodeNKeys = 0 then some n
  else do
    let pos := n.findIndex k
    let keys ← moveDown n.keyCap (pos + 1) pos (n.nKeys - pos) n.keys
    let keys ← write n.keyCap keys pos k
    let childrens ← moveDown n.childCap (pos + 2) (pos + 1) (n.nChild - (pos + 1)) n.childrens
    let childrens ← write n.childCap childrens (pos + 1) node
    some { n with keys := keys, nKeys := n.nKeys + 1,
                  childrens := childrens, nChild := n.nChild + 1 }

/-- `split` (fptree.cpp:196-223): this node afterwards, and the key and node of
    the `KeyNode` (none if the node is not overfull). -/
def split [Inhabited α] (n : InnerNode α) : Option (InnerNode α × Option (Key × InnerNode α)) :=
  if n.nKeys ≤ 2 * n.degree then some (n, none)
  else do
    let d := n.degree
    let newNode : InnerNode α := { create d false with nKeys := d, nChild := d + 1 }
    let keys ← copyUp newNode.keyCap n.keyCap n.keys 0 (d + 1) d newNode.keys
    let childrens ← copyUp newNode.childCap n.childCap n.childrens 0 (d + 1) d newNode.childrens
    let last ← read n.childCap n.childrens (n.nChild - 1)
    let childrens ← write newNode.childCap childrens d last
    let key ← read n.keyCap n.keys d
    some ({ n with nKeys := d, nChild := d + 1 },
      some (key, { newNode with keys := keys, childrens := childrens }))

/-- `removeChild` (fptree.cpp:477-491). -/
def removeChild (n : InnerNode α) (keyIdx childIdx : ℤ) : Option (InnerNode α) :=
  if keyIdx < 0 ∨ keyIdx ≥ n.nKeys ∨ childIdx < 0 ∨ childIdx ≥ n.nChild then some n
  else do
    let keys ← moveUp n.keyCap keyIdx (keyIdx + 1) (n.nKeys - 1 - keyIdx).toNat n.keys
    let childrens ← moveUp n.childCap childIdx (childIdx + 1)
      (n.nChild - 1 - childIdx).toNat n.childrens
    some { n with keys := keys, nKeys := n.nKeys - 1,
                  childrens := childrens, nChild := n.nChild - 1 }

/-- `getBrother` (fptree.cpp:318-331): the pointers `leftBro` and `rightBro`
    (`none`: `NULL`). -/
def getBrother (index : ℤ) (parent : InnerNode α) : Option α × Option α :=
  if index < 0 ∨ index ≥ parent.nChild then (none, none)
  else
    (if index = 0 then none else some (parent.childrens (index - 1).toNat),
     if index = parent.nChild - 1 then none else some (parent.childrens (index + 1).toNat))

/-- The common body of `mergeParentLeft` and `mergeParentRight`: the keys and
    children of `first`, the root's only key, and those of `second` become the
    root's; the pointer `self` goes to the spare slot and `nChild` to 0. -/
def mergeParent (self : α) (first second parent : InnerNode α) : Option (InnerNode α) := do
  let k ← read parent.keyCap parent.keys 0
  let keys ← write parent.keyCap parent.keys first.nKeys k
  let keys ← copyUp parent.keyCap first.keyCap first.keys 0 0 first.nKeys keys
  let keys ← copyUp parent.keyCap second.keyCap second.keys (first.nKeys + 1) 0 second.nKeys keys
  let childrens ← copyUp parent.childCap first.childCap first.childrens 0 0 first.nChild
    parent.childrens
  let childrens ←
    copyUp parent.childCap second.childCap second.childrens first.nChild 0 second.nChild childrens
  let childrens ← write parent.childCap childrens (first.nChild + second.nChild) self
  some { parent with
    keys := keys, nKeys := first.nKeys + second.nKeys + 1, childrens := childrens, nChild := 0 }

/-- `mergeParentLeft` (fptree.cpp:335-360). -/
def mergeParentLeft (self : α) (this parent leftBro : InnerNode α) : Option (InnerNode α) :=
  mergeParent self leftBro this parent

/-- `mergeParentRight` (fptree.cpp:364-383). -/
def mergeParentRight (self : α) (this parent rightBro : InnerNode α) : Option (InnerNode α) :=
  mergeParent self this rightBro parent

/-- `redistributeLeft` (fptree.cpp:387-416): `this`, `leftBro` and `parent`
    afterwards. -/
def redistributeLeft (index : ℤ) (this leftBro parent : InnerNode α) :
    Option (InnerNode α × InnerNode α × InnerNode α) := do
  let moveKeys : ℤ := ((leftBro.nKeys : ℤ) + this.nKeys) / 2 - leftBro.nKeys
  let keys ← moveDown this.keyCap moveKeys 0 this.nKeys this.keys
  let childrens ← moveDown this.childCap moveKeys 0 this.nChild this.childrens
  let pk ← read parent.keyCap parent.keys index
  let keys ← write this.keyCap keys (moveKeys - 1) pk
  let keys ← copyDown this.keyCap leftBro.keyCap leftBro.keys 0 (leftBro.nKeys - moveKeys + 1)
    (moveKeys - 1).toNat keys
  let childrens ← copyDown this.childCap leftBro.childCap leftBro.childrens 0
    (leftBro.nChild - moveKeys) moveKeys.toNat childrens
  let lk ← read leftBro.keyCap leftBro.keys (leftBro.nKeys - moveKeys)
  let pkeys ← write parent.keyCap parent.keys index lk
  some ({ this with keys := keys, nKeys := (this.nKeys + moveKeys).toNat,
                    childrens := childrens, nChild := (this.nChild + moveKeys).toNat },
    { leftBro with nKeys := (leftBro.nKeys - moveKeys).toNat,
                   nChild := (leftBro.nChild - moveKeys).toNat },
    { parent with keys := pkeys })

/-- `redistributeRight` (fptree.cpp:420-442): `this`, `rightBro` and `parent`
    afterwards. -/
def redistributeRight (index : ℤ) (this rightBro parent : InnerNode α) :
    Option (InnerNode α × InnerNode α × InnerNode α) := do
  let moveKeys : ℤ := ((this.nKeys : ℤ) + rightBro.nKeys) / 2 - this.nKeys
  let pk ← read parent.keyCap parent.keys index
  let keys ← write this.keyCap this.keys this.nKeys pk
  let keys ← copyUp this.keyCap rightBro.keyCap rightBro.keys (this.nKeys + 1) 0
    (moveKeys - 1).toNat keys
  let childrens ← copyUp this.childCap rightBro.childCap rightBro.childrens this.nChild 0
    moveKeys.toNat this.childrens
  let rk ← read rightBro.keyCap rightBro.keys (moveKeys - 1)
  let pkeys ← write parent.keyCap parent.keys index rk
  let rkeys ← moveUp rightBro.keyCap 0 moveKeys (rightBro.nKeys - moveKeys).toNat rightBro.keys
  let rchildrens ← moveUp rightBro.childCap 0 moveKeys (rightBro.nChild - moveKeys).toNat
    rightBro.childrens
  some ({ this with keys := keys, nKeys := (this.nKeys + moveKeys).toNat,
                    childrens := childrens, nChild := (this.nChild + moveKeys).toNat },
    { rightBro with keys := rkeys, nKeys := (rightBro.nKeys - moveKeys).toNat,
                    childrens := rchildrens, nChild := (rightBro.nChild - moveKeys).toNat },
    { parent with keys := pkeys })

/-- `mergeLeft` (fptree.cpp:445-455): `leftBro` afterwards. -/
def mergeLeft (this leftBro : InnerNode α) (k : Key) : Option (InnerNode α) := do
  let keys ← write leftBro.keyCap leftBro.keys leftBro.nKeys k
  let keys ← copyUp leftBro.keyCap this.keyCap this.keys (leftBro.nKeys + 1) 0 this.nKeys keys
  let childrens ←
    copyUp leftBro.childCap this.childCap this.childrens leftBro.nChild 0 this.nChild
    leftBro.childrens
  some { leftBro with keys := keys, nKeys := leftBro.nKeys + (this.nKeys + 1),
                      childrens := childrens, nChild := leftBro.nChild + this.nChild }

/-- `mergeRight` (fptree.cpp:458-474): `rightBro` afterwards. -/
def mergeRight (this rightBro : InnerNode α) (k : Key) : Option (InnerNode α) := do
  let keys ← moveDown rightBro.keyCap (this.nKeys + 1) 0 rightBro.nKeys rightBro.keys
  let keys ← write rightBro.keyCap keys this.nKeys k
  let keys ← copyUp rightBro.keyCap this.keyCap this.keys 0 0 this.nKeys keys
  let childrens ← moveDown rightBro.childCap this.nChild 0 rightBro.nChild rightBro.childrens
  let childrens ← copyUp rightBro.childCap this.childCap this.childrens 0 0 this.nChild childrens
  some { rightBro with keys := keys, nKeys := rightBro.nKeys + (this.nKeys + 1),
                       childrens := childrens, nChild := rightBro.nChild + this.nChild }

/-- The keys in use, `keys[0 .. nKeys)`. -/
def liveKeys (n : InnerNode α) : List Key := live n.nKeys n.keys

/-- The children in use, `childrens[0 .. nChild)`. -/
def liveChildren (n : InnerNode α) : List α := live n.nChild n.childrens

end InnerNode

end FPTreeDB
