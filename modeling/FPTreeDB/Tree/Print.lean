import FPTreeDB.Lib.LevelOrder
import FPTreeDB.Model.Print
import FPTreeDB.Tree.Reopen

/-!
# `printTree` prints the tree level by level

* `printTree_of_levels`: the queue loop of `printTree` is a walk in level order.
* `Ranged.levels`: the levels below nodes of one height; the last one is the leaves.
* `acts_printTree`: what `printTree` prints after any run; the pairs in it are the stored
  pairs in the order of the leaves.
-/

namespace FPTreeDB

open LevelOrder Node Runs

namespace Node

/-- The children that `printTree` queues. -/
def printed : Node → List Node
  | inner n => n.liveChildren
  | _ => []

/-- What `printTree` does with a node at the front of the queue. -/
def visit (s : World) (c : Node) : Option (List Out × List Node) := do
  let out ← c.printNode s
  let children ← match c with
    | inner n => (List.range n.getChildNum).mapM n.getChild
    | _ => some []
  some (out, children)

/-- What a node prints, nothing when it cannot be printed. -/
def text (s : World) (c : Node) : List Out := (c.printNode s).getD []

end Node

/-- The queue loop is the walk of the library. -/
theorem printLoop_eq_walk (s : World) (fuel : ℕ) (q : List NodeLevel) (maxLevel : ℕ) :
    FPTree.printLoop s fuel q maxLevel =
      walk (Node.visit s) Out.endl fuel (q.map fun x => (x.node, x.level)) maxLevel := by
  induction fuel generalizing q maxLevel with
  | zero => rfl
  | succ fuel ih =>
    cases q with
    | nil => rfl
    | cons cur q =>
      obtain ⟨node, level⟩ := cur
      rw [FPTree.printLoop, List.map_cons, walk, Node.visit]
      dsimp only
      cases node.printNode s with
      | none => rfl
      | some out =>
        cases node with
        | inner n =>
          show (List.mapM n.getChild (List.range n.getChildNum)).bind _ =
            ((List.mapM n.getChild (List.range n.getChildNum)).bind
              fun children => some (out, children)).bind _
          rw [Option.bind_assoc]
          congr 1
          funext children
          simp [ih, Function.comp_def]
        | _ => simp [ih]

/-! ## What a node prints -/

section Nodes

variable {d h : ℕ} {P : LeafPred} {s : World} {n : InnerNode Node} {p : PPointer} {cs : List Node}

theorem mapM_getChild (hcap : n.nChild ≤ n.childCap) :
    (List.range n.getChildNum).mapM n.getChild = some n.liveChildren := by
  have hread : ∀ l : List ℕ, (∀ i ∈ l, i < n.nChild) → l.mapM n.getChild =
      some (l.map n.childrens) := by
    intro l hl
    induction l with
    | nil => rfl
    | cons i l ih =>
      have hi : n.getChild i = some (n.childrens i) :=
        CArray.read_of_lt (lt_of_lt_of_le (hl i List.mem_cons_self) hcap)
      rw [List.mapM_cons, hi, ih fun j hj => hl j (List.mem_cons_of_mem i hj)]
      rfl
  exact hread _ fun i hi => List.mem_range.mp hi

/-- An inner node with its keys and children in its arrays. -/
theorem visit_inner (hkeys : n.nKeys ≤ n.keyCap) (hchild : n.nChild ≤ n.childCap) :
    (inner n).visit s = some ((inner n).text s, (inner n).printed) := by
  have hprint : ∃ out, (inner n).printNode s = some out := by
    rw [printNode, InnerNode.printNode, if_pos hkeys]
    exact ⟨_, rfl⟩
  obtain ⟨out, hout⟩ := hprint
  rw [visit, text, hout]
  show ((List.range n.getChildNum).mapM n.getChild).bind _ = _
  rw [mapM_getChild hchild]
  rfl

theorem Node.Filled.visit {m : ℕ} (hf : Filled d m n) :
    (inner n).visit s = some ((inner n).text s, (inner n).printed) := by
  have hle := hf.nKeys_le
  apply visit_inner
  · rw [InnerNode.keyCap, hf.degree]
    omega
  · rw [InnerNode.childCap, hf.degree, hf.nChild]
    omega

/-- A leaf with an object. -/
theorem visit_leaf (hobj : (s.nodes p).isSome = true) :
    (leaf p).visit s = some ((leaf p).text s, (leaf p).printed) := by
  obtain ⟨nd, hnd⟩ := Option.isSome_iff_exists.mp hobj
  rw [visit, text, printNode, LeafNode.printNode, hnd]
  rfl

/-- The children of the nodes of one level, and so on down to level `h`. -/
def levelsBelow : ℕ → List Node → List (List Node)
  | 0, cs => [cs]
  | h + 1, cs => cs :: levelsBelow h (cs.flatMap printed)

/-- The children of subtrees of height `h + 1` are subtrees of height `h`. -/
theorem Node.Ranged.printed (hr : ∀ c ∈ cs, ∃ lo hi, Ranged d P (h + 1) lo hi c) :
    ∀ c ∈ cs.flatMap printed, ∃ lo hi, Ranged d P h lo hi c := by
  intro c hc
  obtain ⟨c', hc', hc⟩ := List.mem_flatMap.mp hc
  obtain ⟨lo, hi, hr'⟩ := hr c' hc'
  obtain ⟨n, rfl, -, -, hs⟩ := ranged_succ.mp hr'
  obtain ⟨i, hi', rfl⟩ := InnerNode.mem_liveChildren.mp hc
  exact ⟨_, _, (seps_child hs hi').2.1⟩

theorem Node.Ranged.printed_ne_nil (hne : cs ≠ [])
    (hr : ∀ c ∈ cs, ∃ lo hi, Ranged d P (h + 1) lo hi c) :
    cs.flatMap Node.printed ≠ [] := by
  obtain ⟨c, hc⟩ := List.exists_mem_of_ne_nil cs hne
  obtain ⟨lo, hi, hr'⟩ := hr c hc
  obtain ⟨n, rfl, -, hf, -⟩ := ranged_succ.mp hr'
  have hfirst : n.childrens 0 ∈ n.liveChildren :=
    InnerNode.mem_liveChildren.mpr ⟨0, by rw [hf.nChild]; omega, rfl⟩
  exact List.ne_nil_of_mem (List.mem_flatMap.mpr ⟨inner n, hc, hfirst⟩)

theorem Node.Ranged.leaves_printed (hr : ∀ c ∈ cs, ∃ lo hi, Ranged d P (h + 1) lo hi c) :
    (cs.flatMap Node.printed).flatMap leaves = cs.flatMap leaves := by
  rw [List.flatMap_assoc]
  refine List.flatMap_congr fun c hc => ?_
  obtain ⟨lo, hi, hr'⟩ := hr c hc
  obtain ⟨n, rfl, -⟩ := ranged_succ.mp hr'
  exact (leaves_inner n).symm

/-- `printTree` can print the node and queue its children. -/
def Printable (s : World) (c : Node) : Prop := c.visit s = some (c.text s, c.printed)

theorem Node.Ranged.levels (hne : cs ≠ []) (hr : ∀ c ∈ cs, ∃ lo hi, Ranged d P h lo hi c)
    (hobj : ∀ p ∈ cs.flatMap leaves, (s.nodes p).isSome = true) :
    Levels Node.printed cs (levelsBelow h cs) ∧ ∀ l ∈ levelsBelow h cs, ∀ c ∈ l, Printable s c := by
  induction h generalizing cs with
  | zero =>
    have hleaf : ∀ c ∈ cs, ∃ p, c = leaf p := by
      intro c hc
      obtain ⟨lo, hi, hr'⟩ := hr c hc
      obtain ⟨p, rfl, -⟩ := ranged_zero.mp hr'
      exact ⟨p, rfl⟩
    refine ⟨.last hne (List.flatMap_eq_nil_iff.mpr fun c hc => ?_), fun l hl c hc => ?_⟩
    · obtain ⟨p, rfl⟩ := hleaf c hc
      rfl
    · obtain rfl := List.mem_singleton.mp hl
      obtain ⟨p, rfl⟩ := hleaf c hc
      exact visit_leaf (hobj p (List.mem_flatMap.mpr ⟨leaf p, hc, List.mem_singleton_self p⟩))
  | succ h ih =>
    have hbelow := ih (Ranged.printed_ne_nil hne hr) (Ranged.printed hr)
      (by rwa [Ranged.leaves_printed hr])
    refine ⟨.next hne hbelow.1, fun l hl c hc => ?_⟩
    rcases List.mem_cons.mp hl with rfl | hl
    · obtain ⟨lo, hi, hr'⟩ := hr c hc
      obtain ⟨n, rfl, -, hf, -⟩ := ranged_succ.mp hr'
      exact hf.visit
    · exact hbelow.2 l hl c hc

end Nodes

/-! ## Reading the pairs back -/

/-- The numbers printed on both sides of `" : "`. -/
def printedPairs : List Out → List KeyValue
  | .number k :: .text sep :: .number v :: rest =>
    if sep = " : " then ⟨k, v⟩ :: printedPairs rest else printedPairs
      (.text sep :: .number v :: rest)
  | _ :: rest => printedPairs rest
  | [] => []

section Pairs

variable {d h : ℕ} {P : LeafPred} {s : World} {n : InnerNode Node} {p : PPointer} {cs : List Node}

/-- The pairs of a leaf. -/
def pairsAt (s : World) : Node → List KeyValue
  | leaf p => (s.leafAt p).pairs LEAF_DEGREE
  | _ => []

@[simp] theorem printedPairs_text (str : String) (rest : List Out) :
    printedPairs (.text str :: rest) = printedPairs rest := by
  rw [printedPairs]
  simp

@[simp] theorem printedPairs_endl (rest : List Out) :
    printedPairs (.endl :: rest) = printedPairs rest := by
  rw [printedPairs]
  simp

/-- A key of an inner node is not followed by `" : "`. -/
theorem printedPairs_key (k : Key) (rest : List Out) :
    printedPairs (.number k :: .text " |#|" :: rest) = printedPairs rest := by
  cases rest with
  | nil => rfl
  | cons o rest =>
    cases o with
    | number v =>
      rw [printedPairs, if_neg (by decide), printedPairs_text]
    | text str => simp [printedPairs]
    | endl => simp [printedPairs]

theorem printedPairs_pair (k : Key) (v : Value) (rest : List Out) :
    printedPairs (.number k :: .text " : " :: .number v :: rest) = ⟨k, v⟩ :: printedPairs rest := by
  rw [printedPairs, if_pos rfl]

theorem printedPairs_inner (n : InnerNode Node) (rest : List Out) :
    printedPairs ((inner n).text s ++ rest) = printedPairs rest := by
  have hkeys : ∀ (l : List ℕ) (rest : List Out), printedPairs
      (l.flatMap (fun i => [Out.text " ", .number (n.keys i), .text " |#|"]) ++ rest) =
      printedPairs rest := by
    intro l rest
    induction l with
    | nil => rfl
    | cons i l ih =>
      rw [List.flatMap_cons, List.append_assoc]
      simp only [List.cons_append, List.nil_append, printedPairs_text, printedPairs_key]
      exact ih
  rw [text, printNode, InnerNode.printNode]
  split_ifs
  · simp [hkeys]
  · rfl

theorem printedPairs_leaf (hobj : (s.nodes p).isSome = true) (rest : List Out) :
    printedPairs ((leaf p).text s ++ rest) =
      (s.leafAt p).pairs LEAF_DEGREE ++ printedPairs rest := by
  have hslots : ∀ (l : List ℕ) (rest : List Out),
      printedPairs (l.flatMap (s.leafAt p).printSlot ++ rest) =
      (l.filter ((s.leafAt p).getBit LEAF_DEGREE)).map (s.leafAt p).kv ++ printedPairs rest := by
    intro l rest
    induction l with
    | nil => rfl
    | cons i l ih =>
      rw [List.flatMap_cons, List.append_assoc, LeafImage.printSlot]
      split_ifs with hbit
      · rw [List.filter_cons_of_pos hbit]
        simp only [List.cons_append, List.nil_append, printedPairs_text, printedPairs_pair,
          List.map_cons, ih]
      · rw [List.filter_cons_of_neg hbit]
        exact ih
  obtain ⟨nd, hnd⟩ := Option.isSome_iff_exists.mp hobj
  rw [text, printNode, LeafNode.printNode, hnd, LeafImage.pairs, LeafImage.slots,
    Nat.mul_comm LEAF_DEGREE 2]
  simp [hslots]

/-- A node of the levels prints its own pairs. -/
theorem Printable.pairs {c : Node} (hc : Printable s c) (rest : List Out) :
    printedPairs (c.text s ++ rest) = pairsAt s c ++ printedPairs rest := by
  cases c with
  | uninit => rfl
  | inner n => exact printedPairs_inner n rest
  | leaf p =>
    refine printedPairs_leaf ?_ rest
    by_contra hobj
    rw [Bool.not_eq_true, Option.isSome_eq_false_iff, Option.isNone_iff_eq_none] at hobj
    rw [Printable, visit, printNode, LeafNode.printNode, hobj] at hc
    cases hc

theorem printedPairs_level {l : List Node} (hl : ∀ c ∈ l, Printable s c) (rest : List Out) :
    printedPairs (l.flatMap (Node.text s) ++ rest) =
      l.flatMap (pairsAt s) ++ printedPairs rest := by
  induction l with
  | nil => rfl
  | cons c l ih =>
    rw [List.flatMap_cons, List.flatMap_cons, List.append_assoc, (hl c List.mem_cons_self).pairs,
      ih fun c' hc' => hl c' (List.mem_cons_of_mem c hc'), List.append_assoc]

/-- The line ends between the levels hold no pairs. -/
theorem printedPairs_levels {ls : List (List Node)} (hls : ∀ l ∈ ls, ∀ c ∈ l, Printable s c)
    (rest : List Out) :
    printedPairs ([Out.endl].intercalate (ls.map fun l => l.flatMap (Node.text s)) ++ rest) =
      ls.flatten.flatMap (pairsAt s) ++ printedPairs rest := by
  induction ls with
  | nil => rfl
  | cons l ls ih =>
    have hl := hls l List.mem_cons_self
    have hrest := ih fun l' hl' => hls l' (List.mem_cons_of_mem l hl')
    rw [List.map_cons, List.flatten_cons, List.flatMap_append, List.append_assoc]
    by_cases hnil : ls = []
    · subst hnil
      rw [List.map_nil, List.intercalate_singleton, printedPairs_level hl]
      rfl
    · rw [List.intercalate_cons_of_ne_nil (by simpa using hnil), List.append_assoc,
        List.append_assoc, printedPairs_level hl, List.singleton_append, printedPairs_endl, hrest]

/-- Only the last level holds pairs, those of the leaves in their order. -/
theorem Node.Ranged.pairs_levels (hr : ∀ c ∈ cs, ∃ lo hi, Ranged d P h lo hi c) :
    (levelsBelow h cs).flatten.flatMap (pairsAt s) = pairsOf s (cs.flatMap leaves) := by
  induction h generalizing cs with
  | zero =>
    rw [levelsBelow, List.flatten_singleton, pairsOf, List.flatMap_assoc]
    refine List.flatMap_congr fun c hc => ?_
    obtain ⟨lo, hi, hr'⟩ := hr c hc
    obtain ⟨p, rfl, -⟩ := ranged_zero.mp hr'
    show _ = [p].flatMap _
    rw [List.flatMap_singleton]
    rfl
  | succ h ih =>
    have hinner : cs.flatMap (pairsAt s) = [] := by
      refine List.flatMap_eq_nil_iff.mpr fun c hc => ?_
      obtain ⟨lo, hi, hr'⟩ := hr c hc
      obtain ⟨n, rfl, -⟩ := ranged_succ.mp hr'
      rfl
    rw [levelsBelow, List.flatten_cons, List.flatMap_append, hinner, List.nil_append,
      ih (Ranged.printed hr), Ranged.leaves_printed hr]

end Pairs

/-! ## `printTree` -/

section Tree

variable {env : Env} {d h : ℕ} {P : LeafPred} {t : FPTree} {s : World}

/-- The levels of a tree in its store. -/
theorem Inv.levels (hinv : Inv env d t s) : ∃ ls, Levels Node.printed [inner t.root] ls ∧
    (∀ l ∈ ls, ∀ c ∈ l, Printable s c) ∧ ls.flatten.flatMap (pairsAt s) = stored t s := by
  rcases hinv.tree with hempty | ⟨h, hr⟩
  · have hroot : (inner t.root).printed = [] := by
      rw [Node.printed, InnerNode.liveChildren, hempty.nChild]
      rfl
    refine ⟨[[inner t.root]], .last (List.cons_ne_nil _ _) ?_, ?_, ?_⟩
    · rw [List.flatMap_singleton, hroot]
    · intro l hl c hc
      obtain rfl := List.mem_singleton.mp hl
      obtain rfl := List.mem_singleton.mp hc
      exact visit_inner (by rw [hempty.nKeys]; exact Nat.zero_le _)
        (by rw [hempty.nChild]; exact Nat.zero_le _)
    · rw [stored, hempty.leaves_eq]
      rfl
  · have hchildren : ∀ c ∈ t.root.liveChildren, ∃ lo hi,
        Ranged d (leafPred env LEAF_MAX s) h lo hi c := by
      intro c hc
      obtain ⟨i, hi', rfl⟩ := InnerNode.mem_liveChildren.mp hc
      exact ⟨_, _, (seps_child hr.seps hi').2.1⟩
    have hone : t.root.liveChildren ≠ [] := by
      have hpos : 0 < t.root.nChild := by rw [hr.filled.nChild]; omega
      exact List.ne_nil_of_mem (InnerNode.mem_liveChildren.mpr ⟨0, hpos, rfl⟩)
    have hobj : ∀ p ∈ t.root.liveChildren.flatMap leaves, (s.nodes p).isSome = true := by
      intro p hp
      rw [← leaves_inner] at hp
      exact (hinv.store.object p).mpr hp
    have hbelow := Ranged.levels hone hchildren hobj
    refine ⟨[inner t.root] :: levelsBelow h t.root.liveChildren,
      .next (List.cons_ne_nil _ _) ?_, ?_, ?_⟩
    · rw [List.flatMap_singleton]
      exact hbelow.1
    · intro l hl c hc
      rcases List.mem_cons.mp hl with rfl | hl
      · obtain rfl := List.mem_singleton.mp hc
        exact hr.filled.visit
      · exact hbelow.2 l hl c hc
    · rw [List.flatten_cons, List.flatMap_append, Ranged.pairs_levels hchildren, ← leaves_inner]
      rfl

/-- The loop takes a turn for each node and prints a line for each level. -/
theorem printTree_of_levels {ls : List (List Node)} (hls : Levels Node.printed [inner t.root] ls)
    (hvisit : ∀ l ∈ ls, ∀ c ∈ l, Printable s c) (fuel : ℕ) :
    t.printTree fuel s = if ls.flatten.length < fuel then
      some ([Out.endl].intercalate (ls.map fun l => l.flatMap (Node.text s)) ++
        [.endl]) else none := by
  have hwalk : FPTree.printLoop s fuel [⟨.inner t.root, 0⟩] 0 =
      walk (Node.visit s) Out.endl fuel ([inner t.root].map fun c => (c, 0))
      0 := printLoop_eq_walk s fuel _ 0
  rw [FPTree.printTree, hwalk]
  split_ifs with hfuel
  · rw [walk_eq_levels hls hvisit hfuel]
    rfl
  · rw [walk_eq_none hls hvisit (Nat.le_of_not_lt hfuel)]
    rfl

end Tree

/-- `printTree` after any run: one line for each level of the tree, each with its nodes
    from left to right, after as many turns as the tree has nodes; the pairs printed are
    the stored pairs in the order of the leaves, those of the map. -/
theorem acts_printTree (env : Env) (d : ℕ) (hd : 1 ≤ d) (acts : List DbAct)
    (hacts : Allowed DbAct.Pre DbAct.apply acts fun _ => none) (t : FPTree) (s : World)
    (hrun : run (DbAct.step env) acts (emptyDb env d) = some (t, s)) :
    ∃ ls, Levels Node.printed [inner t.root] ls ∧
      (∀ fuel, t.printTree fuel s = if ls.flatten.length < fuel then
        some ([Out.endl].intercalate (ls.map fun l => l.flatMap (Node.text s)) ++
          [.endl]) else none) ∧
      ∀ fuel out, t.printTree fuel s = some out → printedPairs out = stored t s ∧
        Represents (printedPairs out) (runSpec DbAct.apply acts fun _ => none) := by
  have hdb := acts_dbInv env hd acts hacts hrun
  obtain ⟨d', hd', hinv⟩ := hdb.inv
  obtain ⟨ls, hls, hvisit, hpairs⟩ := hinv.levels
  have hprint := printTree_of_levels hls hvisit
  refine ⟨ls, hls, hprint, fun fuel out hout => ?_⟩
  have hout' : out = [Out.endl].intercalate
      (ls.map fun l => l.flatMap (Node.text s)) ++ [.endl] := by
    rw [hprint] at hout
    split_ifs at hout
    exact (Option.some.inj hout).symm
  have hread : printedPairs out = stored t s := by
    rw [hout', printedPairs_levels hvisit, hpairs]
    simp [printedPairs]
  exact ⟨hread, hread ▸ hdb.represents⟩

/-- More pairs than a leaf holds. -/
theorem acts_printTree_split : ∃ t s,
    run (DbAct.step Env.flat) (insertActs (keysBelow 112)) (emptyDb Env.flat 1) = some (t, s) ∧
    ∃ fuel out, t.printTree fuel s = some out ∧ printedPairs out = stored t s ∧
      (printedPairs out).length = LEAF_MAX + 1 := by
  obtain ⟨t, s, hrun, hall, hlen⟩ :=
    @insertActs_store 1 Env.flat le_rfl (keysBelow 112) (keysBelow_nodup (by decide))
  rw [length_keysBelow] at hlen
  obtain ⟨ls, -, hprint, hpairs⟩ :=
    acts_printTree Env.flat 1 le_rfl _ (Allowed.mono (fun _ _ h => h.pre) _ hall) t s hrun
  have hout := hprint (ls.flatten.length + 1)
  rw [if_pos (Nat.lt_succ_self _)] at hout
  have hstored := (hpairs _ _ hout).1
  exact ⟨t, s, hrun, _, _, hout, hstored, by rw [hstored, hlen]; rfl⟩

end FPTreeDB
