import FPTreeDB.Model.FPTree

/-!
# `printTree`

Models of `InnerNode::printNode`, `LeafNode::printNode` and `FPTree::printTree`
(fptree.cpp). What goes to `cout` is the list of the operands of `<<`. `none` is a use of
an indeterminate or dangling pointer, or an access outside an array.
-/

namespace FPTreeDB

/-- An operand of `cout <<`. -/
inductive Out where
  | text (s : String)
  | number (n : Fin (2 ^ 64))
  | endl
deriving DecidableEq

/-- `NodeLevel` (fptree.h:48-51). -/
structure NodeLevel where
  node : Node
  level : ℕ

namespace InnerNode

variable {α : Type}

/-- `getChildNum` (fptree.h:104). -/
def getChildNum (n : InnerNode α) : ℕ := n.nChild

/-- `getChild` (fptree.cpp:512-517) of an index below `nChild`. -/
def getChild (n : InnerNode α) (idx : ℕ) : Option α := CArray.read n.childCap n.childrens idx

/-- `InnerNode::printNode` (fptree.cpp:528-534). -/
def printNode (n : InnerNode α) : Option (List Out) :=
  if n.nKeys ≤ n.keyCap then
    some ([.text "||#|"] ++
      (List.range n.nKeys).flatMap (fun i => [.text " ", .number (n.keys i), .text " |#|"]) ++
      [.text "|", .text "    "])
  else none

end InnerNode

/-- The body of the loop of `LeafNode::printNode`. -/
def LeafImage.printSlot (img : LeafImage) (i : ℕ) : List Out :=
  if img.getBit LEAF_DEGREE i then
    [.text " ", .number (img.kv i).k, .text " : ", .number (img.kv i).v, .text " |"]
  else []

/-- `LeafNode::printNode` (fptree.cpp:537-545). -/
def LeafNode.printNode (p : PPointer) (s : World) : Option (List Out) := do
  let _ ← s.nodes p
  let img := s.leafAt p
  some ([.text "||"] ++ (List.range (2 * LEAF_DEGREE)).flatMap img.printSlot ++
    [.text "|", .text " ====>> "])

/-- `printNode`. -/
def Node.printNode (s : World) : Node → Option (List Out)
  | uninit => none
  | leaf p => LeafNode.printNode p s
  | inner n => n.printNode

namespace FPTree

/-- The `while` loop of `printTree`, at most `fuel` tests of the queue. -/
def printLoop (s : World) : ℕ → List NodeLevel → ℕ → Option (List Out)
  | 0, _, _ => none
  | _ + 1, [], _ => some []
  | fuel + 1, cur :: q, maxLevel => do
    let line := if cur.level > maxLevel then [Out.endl] else []
    let maxLevel := if cur.level > maxLevel then maxLevel + 1 else maxLevel
    let out ← cur.node.printNode s
    let children ← match cur.node with
      | .inner inner => (List.range inner.getChildNum).mapM inner.getChild
      | _ => some []
    let rest ← printLoop s fuel (q ++ children.map fun node => ⟨node, cur.level + 1⟩) maxLevel
    some (line ++ out ++ rest)

/-- `FPTree::printTree` (fptree.cpp:895-921). -/
def printTree (fuel : ℕ) (t : FPTree) (s : World) : Option (List Out) := do
  let out ← printLoop s fuel [⟨.inner t.root, 0⟩] 0
  some (out ++ [.endl])

end FPTree

end FPTreeDB
