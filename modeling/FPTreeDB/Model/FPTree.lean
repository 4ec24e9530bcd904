import FPTreeDB.Model.LeafNode
import FPTreeDB.Model.InnerNode

/-!
# `FPTree`

Models of the recursive methods of `src/fptree.cpp`: `find`, `update`, `insert`,
`remove` and `insertLeaf` on nodes, `bulkLoading`, and the public methods of
`FPTree`.

A node pointer is a value of `Node`: a leaf (named by its persistent pointer), an
inner node, or `uninit`, the indeterminate contents of a `childrens` slot that was
never written. The methods return the node afterwards; a method that the code
calls with a pointer to the parent also returns the parent afterwards.
`none` and `.error` stand for undefined behaviour: a use of an indeterminate or
dangling pointer, or an access outside an array.
-/

namespace FPTreeDB

/-- A node pointer (fptree.h:18-37). -/
inductive Node where
  | uninit
  | leaf (p : PPointer)
  | inner (n : InnerNode Node)

instance : Inhabited Node := ⟨.uninit⟩

/-- `KeyNode` (fptree.h:42-45). -/
structure KeyNode where
  key : Key
  node : Node

/-- The tree object (fptree.h:165-188). -/
structure FPTree where
  root : InnerNode Node
  degree : ℕ

namespace Node

/-- `ifLeaf` (fptree.h:29). -/
def ifLeaf : Node → Bool
  | leaf _ => true
  | _ => false

/-- What `((InnerNode*)node)->nKeys` reads. In a `LeafNode` object the bytes at
    the offset of `nKeys` are the low half of `pmem_addr`. -/
def nKeysField (env : Env) : Node → ℕ
  | inner n => n.nKeys
  | leaf p => (env.pmemAddr p.fileId + p.offset) % 2 ^ 32
  | uninit => 0

/-- `delete node`. -/
def delete : Node → World → World
  | leaf p, s => LeafNode.destroy p s
  | _, s => s

/-! ## Lookups -/

/-- A read of slot `index` of the `childrens` array of a node that has `nChild`
    children. -/
structure ChildRead where
  index : ℕ
  nChild : ℕ
deriving DecidableEq

/-- `InnerNode::find` (fptree.cpp:503-509) and `LeafNode::find`: the child slots
    read on the way and the value returned. -/
def find (env : Env) (k : Key) : Node → World → List ChildRead × Option Value
  | uninit, _ => ([], none)
  | leaf p, s => ([], LeafNode.find env p k s)
  | inner n, s =>
    let pos := n.findIndex k
    let r := find env k (n.childrens pos) s
    (⟨pos, n.nChild⟩ :: r.1, r.2)

/-- `InnerNode::update` (fptree.cpp:494-500) and `LeafNode::update`: the child
    slots read on the way, and the value returned with the new state. -/
def update (env : Env) (k : Key) (v : Value) :
    Node → World → List ChildRead × Option (Bool × World)
  | uninit, _ => ([], none)
  | leaf p, s => ([], LeafNode.update env p k v s)
  | inner n, s =>
    let pos := n.findIndex k
    let r := update env k v (n.childrens pos) s
    (⟨pos, n.nChild⟩ :: r.1, r.2)

/-! ## Insertion -/

/-- `keys[nKeys++] = kn.key; childrens[nChild++] = kn.node;`. -/
def pushKeyNode (n : InnerNode Node) (kn : KeyNode) : Option (InnerNode Node) := do
  let n ← n.pushKey kn.key
  n.pushChild kn.node

/-- `if (this->nKeys > 2 * this->degree) newChild = this->split();`. -/
def splitFull (n : InnerNode Node) : Option (InnerNode Node × Option KeyNode) :=
  if n.nKeys > 2 * n.degree then do
    let (n, up) ← n.split
    some (n, up.map fun x => ⟨x.1, .inner x.2⟩)
  else some (n, none)

/-- What a node does with the `KeyNode` a child returns (fptree.cpp:108-119,
    163-170): `insertNonFull`, and `split` when the node is overfull. -/
def addChild (env : Env) (n : InnerNode Node) (newChild : Option KeyNode) :
    Option (InnerNode Node × Option KeyNode) :=
  match newChild with
  | none => some (n, none)
  | some kn => do
    let n ← n.insertNonFull (kn.node.nKeysField env) kn.key kn.node
    splitFull n

/-- The result of `insert` and `insertLeaf` on a node: the returned `KeyNode`,
    the node afterwards, and the argument of `tree->changeRoot` if it was called. -/
structure Inserted where
  newChild : Option KeyNode
  node : Node
  newRoot : Option (InnerNode Node)

/-- The end of `insert` and `insertLeaf` (fptree.cpp:126-135, 182-191): a root
    that was split gets a new root above it. -/
def growRoot (n : InnerNode Node) (newChild : Option KeyNode)
    (newRoot : Option (InnerNode Node)) : Option Inserted :=
  match newChild with
  | some kn =>
    if n.isRoot then do
      let this := Node.inner { n with isRoot := false }
      let root ← (InnerNode.create n.degree true : InnerNode Node).pushKey kn.key
      let root ← root.pushChild this
      let root ← root.pushChild kn.node
      some ⟨none, this, some root⟩
    else some ⟨some kn, .inner n, newRoot⟩
  | none => some ⟨none, .inner n, newRoot⟩

/-- `InnerNode::insert` (fptree.cpp:73-138) and `LeafNode::insert`. -/
def insert (env : Env) (sys : Sys) (k : Key) (v : Value) : Node → World → Option (Inserted × World)
  | uninit, _ => none
  | leaf p, s => do
    let (newChild, s) ← LeafNode.insert env sys p k v s
    some (⟨newChild.map fun x => ⟨x.1, .leaf x.2⟩, .leaf p, none⟩, s)
  | inner n, s =>
    if n.isRoot ∧ n.nKeys = 0 then
      if n.nChild = 0 then
        match LeafNode.create sys s with
        | (none, _) => none
        | (some p, s) => do
          let (_, s) ← LeafNode.insert env sys p k v s
          let n ← n.pushChild (.leaf p)
          some (⟨none, .inner n, none⟩, s)
      else do
        let (r, s) ← insert env sys k v (n.childrens 0) s
        let n := n.setChild 0 r.node
        match r.newChild with
        | none => some (⟨none, .inner n, r.newRoot⟩, s)
        | some kn => do
          let n ← pushKeyNode n kn
          some (⟨none, .inner n, r.newRoot⟩, s)
    else do
      let pos := n.findIndex k
      let (r, s) ← insert env sys k v (n.childrens pos) s
      let (n, newChild) ← addChild env (n.setChild pos r.node) r.newChild
      let r ← growRoot n newChild r.newRoot
      some (r, s)

/-- `InnerNode::insertLeaf` (fptree.cpp:143-194). -/
def insertLeaf (env : Env) (kn : KeyNode) : Node → Option Inserted
  | uninit => none
  | leaf _ => none
  | inner n =>
    if n.isRoot ∧ n.nKeys = 0 then
      if n.nChild = 0 then do
        let n ← n.pushChild kn.node
        some ⟨none, .inner n, none⟩
      else do
        let n ← pushKeyNode n kn
        some ⟨none, .inner n, none⟩
    else
      let pos := n.findIndex kn.key
      if !(n.childrens pos).ifLeaf then do
        let r ← insertLeaf env kn (n.childrens pos)
        let (n, newChild) ← addChild env (n.setChild pos r.node) r.newChild
        growRoot n newChild r.newRoot
      else do
        let n ← pushKeyNode n kn
        let (n, newChild) ← splitFull n
        growRoot n newChild none

/-! ## Removal -/

/-- The ways in which `InnerNode::remove` repairs a node that has too few keys
    (fptree.cpp:283-311). -/
inductive Rebalance where
  | redistributeRight
  | redistributeLeft
  | mergeParentLeft
  | mergeParentRight
  | mergeRight
  | mergeLeft
deriving DecidableEq

/-- `(InnerNode*)` applied to a pointer that may be `NULL`; `none` if it does not
    point to an inner node. -/
def asInner : Option Node → Option (Option (InnerNode Node))
  | none => some none
  | some (inner n) => some (some n)
  | some _ => none

/-- The choice of `InnerNode::remove` between the repairs (fptree.cpp:283-311)
    for a node `this` whose brothers are `leftBro` and `rightBro`. -/
def chooseRebalance (this parent : InnerNode Node) (leftBro rightBro : Option (InnerNode Node)) :
    Rebalance :=
  if rightBro.any fun r => r.nKeys + this.nKeys ≥ 2 * this.degree then .redistributeRight
  else if leftBro.any fun l => l.nKeys + this.nKeys ≥ 2 * this.degree then .redistributeLeft
  else if parent.isRoot ∧ parent.nChild = 2 then
    if leftBro.isSome then .mergeParentLeft else .mergeParentRight
  else if rightBro.isSome then .mergeRight else .mergeLeft

/-- The repair itself: `parent` afterwards, with the nodes below it, and the
    value of `ifDelete`. A `NULL` brother in a branch that uses it is undefined. -/
def applyRebalance (this parent : InnerNode Node) (index : ℤ)
    (leftBro rightBro : Option (InnerNode Node)) : Rebalance → Option (InnerNode Node × Bool)
  | .redistributeRight => do
    let r ← rightBro
    let (this, r, parent) ← this.redistributeRight index r parent
    some ((parent.setChild index (.inner this)).setChild (index + 1) (.inner r), false)
  | .redistributeLeft => do
    let l ← leftBro
    let (this, l, parent) ← this.redistributeLeft index l parent
    some ((parent.setChild index (.inner this)).setChild (index - 1) (.inner l), false)
  | .mergeParentLeft => do
    let l ← leftBro
    let parent ← this.mergeParentLeft (.inner this) parent l
    some (parent, true)
  | .mergeParentRight => do
    let r ← rightBro
    let parent ← this.mergeParentRight (.inner this) parent r
    some (parent, true)
  | .mergeRight => do
    let r ← rightBro
    let k ← CArray.read parent.keyCap parent.keys index
    let r ← this.mergeRight r k
    some (parent.setChild (index + 1) (.inner r), true)
  | .mergeLeft => do
    let l ← leftBro
    let k ← CArray.read parent.keyCap parent.keys (index - 1)
    let l ← this.mergeLeft l k
    some (parent.setChild (index - 1) (.inner l), true)

/-- What `remove` on a node leaves behind: `ifDelete`, the node and its parent
    afterwards, and the repairs made, in order. -/
structure Pruned where
  ifDelete : Bool
  node : Node
  parent : Option (InnerNode Node)
  log : List Rebalance

/-- `InnerNode::remove` from line 269 on: `n` is the node after the deletion of
    one of its children. A repair outside the arrays is an error that carries the
    repairs chosen so far. -/
def finishRemove (n : InnerNode Node) (index : ℤ) (parent : Option (InnerNode Node))
    (log : List Rebalance) : Except (List Rebalance) Pruned :=
  let parent := parent.map fun m => m.setChild index (.inner n)
  if n.nKeys ≥ n.degree then .ok ⟨false, .inner n, parent, log⟩
  else if n.isRoot then .ok ⟨true, .inner n, parent, log⟩
  else
    match parent with
    | none => .error log
    | some m =>
      let bro := InnerNode.getBrother index m
      match asInner bro.1, asInner bro.2 with
      | some leftBro, some rightBro =>
        let choice := chooseRebalance n m leftBro rightBro
        match applyRebalance n m index leftBro rightBro choice with
        | none => .error (log ++ [choice])
        | some (m, ifDelete) => .ok ⟨ifDelete, .inner n, some m, log ++ [choice]⟩
      | _, _ => .error log

/-- `InnerNode::remove` from line 248 on: `n` is the node after the call on the
    child in slot `pos`. -/
def afterChild (n : InnerNode Node) (pos : ℕ) (ifDelete : Bool) (index : ℤ)
    (parent : Option (InnerNode Node)) (log : List Rebalance) : Except (List Rebalance) Pruned :=
  if !ifDelete then .ok ⟨false, .inner n, parent.map fun m => m.setChild index (.inner n), log⟩
  else if n.isRoot ∧ n.nChild = 0 then
    let n := { n with nChild := n.nKeys + 1 }
    .ok ⟨true, .inner n, parent.map fun m => m.setChild index (.inner n), log⟩
  else
    let keyIdx : ℤ := if pos < n.nKeys then pos else pos - 1
    match n.removeChild keyIdx pos with
    | none => .error log
    | some n => finishRemove n index parent log

/-- The objects that `InnerNode::remove` deletes after the call on the child in
    slot `pos` (fptree.cpp:255-265). -/
def deleteChild (n : InnerNode Node) (pos : ℕ) (ifDelete : Bool) (s : World) : World :=
  if !ifDelete then s
  else if n.isRoot ∧ n.nChild = 0 then (n.childrens (n.nKeys + 1)).delete s
  else (n.childrens pos).delete s

/-- The result of `remove`. -/
structure Removed where
  ifRemove : Bool
  pruned : Pruned
  world : World

/-- `InnerNode::remove` (fptree.cpp:228-315) and `LeafNode::remove`. -/
def remove (env : Env) (sys : Sys) (k : Key) :
    Node → ℤ → Option (InnerNode Node) → Bool → World → Except (List Rebalance) Removed
  | uninit, _, _, _, _ => .error []
  | leaf p, _, parent, ifDelete, s =>
    match LeafNode.remove env sys p k ifDelete s with
    | none => .error []
    | some (ifRemove, ifDelete, s) => .ok ⟨ifRemove, ⟨ifDelete, .leaf p, parent, []⟩, s⟩
  | inner n, index, parent, ifDelete, s =>
    if n.isRoot ∧ n.nKeys = 0 then
      if n.nChild > 0 then
        match remove env sys k (n.childrens 0) 0 (some n) ifDelete s with
        | .error log => .error log
        | .ok r =>
          match r.pruned.parent with
          | none => .error r.pruned.log
          | some n =>
            let n' := if r.pruned.ifDelete then { n with nChild := n.nChild - 1 } else n
            let s := if r.pruned.ifDelete then (n.childrens 0).delete r.world else r.world
            .ok ⟨r.ifRemove, ⟨r.pruned.ifDelete, .inner n',
              parent.map fun m => m.setChild index (.inner n'), r.pruned.log⟩, s⟩
      else .ok ⟨false, ⟨ifDelete, .inner n, parent, []⟩, s⟩
    else
      let pos := n.findIndex k
      match remove env sys k (n.childrens pos) pos (some n) ifDelete s with
      | .error log => .error log
      | .ok r =>
        match r.pruned.parent with
        | none => .error r.pruned.log
        | some n =>
          match afterChild n pos r.pruned.ifDelete index parent r.pruned.log with
          | .error log => .error log
          | .ok pruned => .ok ⟨r.ifRemove, pruned, deleteChild n pos r.pruned.ifDelete r.world⟩

/-! ## Deleting a tree -/

/-- `recursiveDelete` (fptree.cpp:833-842). -/
def recursiveDelete : Node → World → World
  | uninit, s => s
  | leaf p, s => LeafNode.destroy p s
  | inner n, s => (List.range n.nChild).foldl (fun s i => recursiveDelete (n.childrens i) s) s

end Node

namespace FPTree

/-- `FPTree::find` (fptree.cpp:887-891). -/
def find (env : Env) (t : FPTree) (k : Key) (s : World) : Option Value :=
  (Node.find env k (.inner t.root) s).2

/-- `FPTree::update` (fptree.cpp:880-885). -/
def update (env : Env) (t : FPTree) (k : Key) (v : Value) (s : World) : Option (Bool × World) :=
  (Node.update env k v (.inner t.root) s).2

/-- The tree after a call on the root that returned `r`: `changeRoot`
    (fptree.cpp:861-863) or the root object itself. -/
def afterInsert (t : FPTree) (r : Node.Inserted) : Option FPTree :=
  match r.newRoot, r.node with
  | some root, _ => some { t with root := root }
  | none, .inner root => some { t with root := root }
  | none, _ => none

/-- `FPTree::insert` (fptree.cpp:865-869). -/
def insert (env : Env) (sys : Sys) (t : FPTree) (k : Key) (v : Value) (s : World) :
    Option (FPTree × World) := do
  let (r, s) ← Node.insert env sys k v (.inner t.root) s
  let t ← t.afterInsert r
  some (t, s)

/-- The result of `FPTree::remove`: the return value, the tree and the state
    afterwards, and the repairs made. -/
structure Removed where
  ifRemove : Bool
  tree : FPTree
  world : World
  log : List Node.Rebalance

/-- `FPTree::remove` (fptree.cpp:871-878). -/
def remove (env : Env) (sys : Sys) (t : FPTree) (k : Key) (s : World) :
    Except (List Node.Rebalance) Removed :=
  match Node.remove env sys k (.inner t.root) (-1) none false s with
  | .error log => .error log
  | .ok r =>
    match r.pruned.node with
    | .inner root => .ok ⟨r.ifRemove, { t with root := root }, r.world, r.pruned.log⟩
    | _ => .error r.pruned.log

/-- The repairs that a call of `remove` chose, whether or not it ran into
    undefined behaviour. -/
def rebalances : Except (List Node.Rebalance) Removed → List Node.Rebalance
  | .error log => log
  | .ok r => r.log

/-- The object set up by one turn of the loop of `bulkLoading` for the leaf at
    `ppt` (fptree.cpp:940, 953-958). -/
def loadLeaf (ppt : PPointer) (oldLeaf : Option PPointer) (s : World) : Option World := do
  let s := LeafNode.load ppt s
  let s ← s.modifyNode ppt fun x => { x with prev := oldLeaf }
  match oldLeaf with
  | some q => s.modifyNode q fun x => { x with next := some ppt }
  | none => some s

/-- The `while (palloc->ifLeafUsed(ppt))` loop of `bulkLoading`
    (fptree.cpp:939-962); `none` after `fuel` turns. -/
def bulkLoop (env : Env) : ℕ → PPointer → Option PPointer → FPTree → World → Option (FPTree × World)
  | 0, _, _, _, _ => none
  | fuel + 1, ppt, oldLeaf, t, s =>
    if s.ifLeafUsed ppt then do
      let s ← loadLeaf ppt oldLeaf s
      let minKey := (s.leafAt ppt).minKey LEAF_DEGREE
      let r ← Node.insertLeaf env ⟨minKey, .leaf ppt⟩ (.inner t.root)
      let t ← t.afterInsert r
      bulkLoop env fuel (s.leafAt ppt).pNext (some ppt) t s
    else some (t, s)

/-- `FPTree::FPTree` (fptree.cpp:844-849) with `bulkLoading` (fptree.cpp:927-964).
    The tree is empty when the start pointer is not in use. -/
def construct (env : Env) (fuel d : ℕ) (s : World) : Option (FPTree × World) :=
  bulkLoop env fuel s.startLeaf none ⟨InnerNode.create d true, d⟩ s

/-- `FPTree::~FPTree` (fptree.cpp:851-853). -/
def destruct (t : FPTree) (s : World) : World := Node.recursiveDelete (.inner t.root) s

end FPTree

end FPTreeDB
