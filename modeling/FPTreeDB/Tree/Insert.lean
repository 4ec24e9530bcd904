import FPTreeDB.Tree.Grow

/-!
# Insertion into a search tree

The recursion of `InnerNode::insert`, separated from what happens in the leaf: the
leaf at the end of the route may give way to two leaves, and the new leaf and its
key travel up the tree. `P` is the leaf predicate before the insertion, `Q` the one
after it.

* `Ranged.insert`: below the root.
* `RootRanged.insert`: the whole tree.
-/

namespace FPTreeDB

open SepChain

namespace Node

/-- The `KeyNode` that `LeafNode::insert` returns. -/
def leafKeyNode (nc : Option (Key × PPointer)) : Option KeyNode := nc.map fun x => ⟨x.1, .leaf x.2⟩

section

variable {env : Env} {sys : Sys} {d : ℕ} {P Q : LeafPred} {k : Key} {v : Value} {s s1 : World}
  {p : PPointer} {nc : Option (Key × PPointer)}

/-- What is known of an insertion into the leaf at `p`. -/
structure LeafInsert (env : Env) (sys : Sys) (P Q : LeafPred) (k : Key) (v : Value) (s : World)
    (p : PPointer) (nc : Option (Key × PPointer)) (s1 : World) : Prop where
  result : LeafNode.insert env sys p k v s = some (nc, s1)
  gapP : ∀ a b q, P a b q → Gap a b
  gapQ : ∀ a b q, Q a b q → Gap a b
  leaf : ∀ a b, P a b p → InRange a b k → ∀ d,
    Seps (Ranged d Q 0) a (upKeys (leafKeyNode nc)) (Node.leaf p :: upNodes (leafKeyNode nc)) b
  other : ∀ q, q ≠ p → ∀ a b, P a b q → Q a b q
  field : ∀ kn ∈ leafKeyNode nc, kn.node.nKeysField env ≠ 0

/-- The leaves that take the place of `p`. -/
def newLeaves (p : PPointer) (nc : Option (Key × PPointer)) : List PPointer :=
  p :: nc.toList.map Prod.snd

theorem flatMap_leafKeyNode :
    (Node.leaf p :: upNodes (leafKeyNode nc)).flatMap leaves = newLeaves p nc := by
  cases nc <;> simp [leafKeyNode, newLeaves, leaves]

theorem findIndex_setChild (n : InnerNode Node) (i : ℕ) (c : Node) (k : Key) :
    (n.setChild i c).findIndex k = n.findIndex k := rfl

theorem Filled.setChild {m : ℕ} {n : InnerNode Node} (hf : Filled d m n) (i : ℕ) (c : Node) :
    Filled d m (n.setChild i c) := ⟨hf.degree, hf.le_nKeys, hf.nKeys_le, hf.nChild⟩

theorem liveChildren_setChild_split {n : InnerNode Node} {i : ℕ} (hi : i < n.nChild) (c : Node) :
    (n.setChild i c).liveChildren =
      n.liveChildren.take i ++ c :: n.liveChildren.drop (i + 1) := by
  rw [InnerNode.liveChildren_setChild, List.set_eq_take_append_cons_drop,
    if_pos (by simpa using hi)]

/-- A node after the insertion below its child at `i`: the child's result takes its
    place, and the node that goes up is added right of it. -/
theorem grow_child {h m : ℕ} {lo hi : Option Key} {n : InnerNode Node} {i : ℕ} {up : Option KeyNode}
    {c' : Node} (hgP : ∀ a b q, P a b q → Gap a b) (hgQ : ∀ a b q, Q a b q → Gap a b)
    (hf : Filled d m n) (hs : Seps (Ranged d P h) lo n.liveKeys n.liveChildren hi)
    (hi' : i < n.nChild)
      (hother : ∀ c ∈ n.liveChildren.take i ++ n.liveChildren.drop (i + 1), ∀ a b,
      Ranged d P h a b c → Ranged d Q h a b c)
    (hup : Seps (Ranged d Q h) (low lo (n.liveKeys.take i)) (upKeys up) (c' :: upNodes up)
      (upp (n.liveKeys.drop i) hi))
    (hfield : ∀ kn ∈ up, kn.node.nKeysField env ≠ 0) :
    ∃ n' up' ks cs, addChild env (n.setChild i c') up = some (n', up') ∧
      Grown d n.isRoot ks cs n' up' ∧ n.nKeys ≤ ks.length ∧ Seps (Ranged d Q h) lo ks cs hi ∧
      cs.flatMap leaves = ((n.liveChildren.take i ++
        ((c' :: upNodes up) ++ n.liveChildren.drop (i + 1))).flatMap leaves) := by
  have hseps := seps_replace_child hs hi' hother hup
  cases up with
  | none =>
    refine ⟨n.setChild i c', none, n.liveKeys, _, rfl,
      .fits rfl ((hf.mono (Nat.zero_le m)).setChild i c')
      rfl (liveChildren_setChild_split hi' c'), by simp, ?_, rfl⟩
    simpa using hseps
  | some kn =>
    obtain ⟨n', up', ha, hg⟩ := addChild_spec (hf.setChild i c') (hfield kn rfl)
    have hgap := seps_pair.mp hup
    have hidx : n.findIndex kn.key = i := by
      refine findIndex_of_inRange hgP hs hi' ⟨fun l hl => ?_, fun u hu => ?_⟩
      · exact (Ranged.gap hgQ hgap.1 l hl kn.key rfl).le
      · exact Ranged.gap hgQ hgap.2 kn.key rfl u hu
    have hkeys : (n.setChild i c').liveKeys = n.liveKeys := rfl
    rw [findIndex_setChild, hidx, hkeys, liveChildren_setChild_split hi'] at hg
    have hlen : (n.liveChildren.take i).length = i := by
      rw [List.length_take, InnerNode.length_liveChildren]
      omega
    have htake : (n.liveChildren.take i ++ c' :: n.liveChildren.drop (i + 1)).take (i + 1) =
        n.liveChildren.take i ++ [c'] := by
      rw [List.take_append, hlen, List.take_of_length_le (by omega)]
      simp
    have hdrop : (n.liveChildren.take i ++ c' :: n.liveChildren.drop (i + 1)).drop (i + 1) =
        n.liveChildren.drop (i + 1) := by
      rw [List.drop_append, hlen, List.drop_of_length_le (by omega)]
      simp
    rw [htake, hdrop, List.append_assoc] at hg
    refine ⟨n', up', _, _, ha, hg, ?_, hseps, rfl⟩
    have := hf.nChild
    simp only [List.length_append, List.length_take, List.length_cons, List.length_drop,
      InnerNode.length_liveKeys]
    omega

/-- `InnerNode::insert` below the root. -/
theorem Ranged.insert (hd : 1 ≤ d) (hl : LeafInsert env sys P Q k v s p nc s1) :
    ∀ {h : ℕ} {lo hi : Option Key} {c : Node}, Ranged d P h lo hi c → InRange lo hi k →
      c.route k = some p → c.leaves.Nodup →
      ∃ up c', Node.insert env sys k v c s = some (⟨up, c', none⟩, s1) ∧
        Seps (Ranged d Q h) lo (upKeys up) (c' :: upNodes up) hi ∧
        (∀ kn ∈ up, kn.node.nKeysField env ≠ 0) ∧
        Replaced p (newLeaves p nc) c.leaves ((c' :: upNodes up).flatMap leaves) := by
  intro h
  induction h with
  | zero =>
    intro lo hi c hc hk hr _
    obtain ⟨q, rfl, hq⟩ := ranged_zero.mp hc
    obtain rfl : q = p := Option.some.inj hr
    refine ⟨leafKeyNode nc, .leaf q, ?_, hl.leaf lo hi hq hk d, hl.field, ?_⟩
    · rw [Node.insert, hl.result]
      rfl
    · rw [flatMap_leafKeyNode]
      exact Replaced.single q _
  | succ h ih =>
    intro lo hi c hc hk hr hnd
    obtain ⟨n, rfl, hroot, hf, hs⟩ := ranged_succ.mp hc
    have hi' := hf.findIndex_lt k
    set i := n.findIndex k with hi_def
    obtain ⟨-, hchild, -⟩ := seps_child hs hi'
    obtain ⟨q, hq, hqr⟩ := hchild.exists_route k
    obtain rfl : q = p := Option.some.inj (hqr.symm.trans hr)
    obtain ⟨up, c', hins, hup, hfield, hrep⟩ :=
      ih hchild (inRange_findIndex hl.gapP hs hk) hr (nodup_child hi' hnd)
    obtain ⟨n', up', ks, cs, hadd, hg, hlen, hseps, hleaves⟩ :=
      grow_child hl.gapP hl.gapQ hf hs hi'
        (fun c hc a b hP => hP.mono fun q' hq' =>
          hl.other q' (ne_of_mem_sibling hi' hnd hq hc hq')) hup hfield
    rw [hroot] at hg
    refine ⟨up', .inner n', ?_, hg.seps (hf.le_nKeys.trans hlen) hseps, ?_, ?_⟩
    · rw [Node.insert, if_neg (by simp [hroot])]
      simp only [← hi_def, hins, Option.bind_eq_bind, Option.bind_some, hadd]
      have hr' : n'.isRoot = false := by cases hg <;> assumption
      rw [growRoot_of_not_root hr']
      rfl
    · rintro kn hkn
      rw [Option.mem_def] at hkn
      subst hkn
      exact hg.nKeysField_ne_zero hd
    · rw [hg.leaves, hleaves]
      exact hrep.node hi'

/-! ## The root -/

/-- The leaf below a root without keys. -/
theorem RootRanged.only_leaf {h : ℕ} {n : InnerNode Node} (hr : RootRanged d P h n)
    (h0 : n.nKeys = 0) : h = 0 ∧ n.nChild = 1 ∧ n.liveKeys = [] ∧ ∃ q, n.childrens 0 = .leaf q ∧
      n.liveChildren = [.leaf q] ∧ P none none q := by
  have hc := hr.filled.nChild
  rw [h0] at hc
  obtain rfl := hr.height h0
  have hkeys : n.liveKeys = [] := List.eq_nil_of_length_eq_zero (by simp [h0])
  have hchildren : n.liveChildren = [n.childrens 0] := by
    rw [InnerNode.liveChildren, hc]
    rfl
  have hs := hr.seps
  rw [hkeys, hchildren, seps_singleton] at hs
  obtain ⟨q, hq, hP⟩ := ranged_zero.mp hs
  exact ⟨rfl, hc, hkeys, q, hq, by rw [hchildren, hq], hP⟩

/-- The root that had one leaf, after that leaf gave way to two. -/
theorem insert_second_leaf {n : InnerNode Node} {kn : KeyNode} {c' : Node}
    (hr : RootRanged d P 0 n) (h0 : n.nKeys = 0) (hd : 1 ≤ d)
    (hup : Seps (Ranged d Q 0) none [kn.key] [c', kn.node] none) :
    ∃ n', pushKeyNode (n.setChild 0 c') kn = some n' ∧ RootRanged d Q 0 n' ∧
      n'.liveChildren = [c', kn.node] := by
  obtain ⟨-, hc, hkeys, q, hq, hch, -⟩ := hr.only_leaf h0
  have hset : (n.setChild ((0 : ℕ) : ℤ) c').liveChildren = [c'] := by
    rw [liveChildren_setChild_split (by omega), hch]
    rfl
  obtain ⟨n', h1, h2, h3, h4, h5, h6, h7⟩ := @pushKeyNode_spec (n.setChild ((0 : ℕ) : ℤ) c') kn
    (by simp [InnerNode.setChild, InnerNode.keyCap, h0])
    (by simp [InnerNode.setChild, InnerNode.childCap, hc])
  have hk0 : (n.setChild ((0 : ℕ) : ℤ) c').nKeys = 0 := h0
  have hc0 : (n.setChild ((0 : ℕ) : ℤ) c').nChild = 1 := hc
  have hkeys0 : (n.setChild ((0 : ℕ) : ℤ) c').liveKeys = [] := hkeys
  rw [hset] at h7
  refine ⟨n', h1, ⟨h3.trans hr.isRoot, ⟨h2.trans hr.filled.degree, Nat.zero_le _,
    by omega, by omega⟩,
    fun _ => rfl, ?_⟩, h7⟩
  rw [h6, h7, hkeys0]
  exact hup

/-- `FPTree::insert` into a tree that has a leaf. -/
theorem RootRanged.insert {t : FPTree} {h : ℕ} (hd : 1 ≤ d)
    (hl : LeafInsert env sys P Q k v s p nc s1) (hr : RootRanged d P h t.root)
    (hroute : (inner t.root).route k = some p) (hnd : (inner t.root).leaves.Nodup) :
    ∃ t' h', FPTree.insert env sys t k v s = some (t', s1) ∧ t'.degree = t.degree ∧
      RootRanged d Q h' t'.root ∧
      Replaced p (newLeaves p nc) (inner t.root).leaves (inner t'.root).leaves := by
  have hrange : InRange none none k := by simp [InRange]
  have hi' := hr.filled.findIndex_lt k
  obtain ⟨-, hchild, -⟩ := seps_child hr.seps hi'
  obtain ⟨q, hq, hqr⟩ := hchild.exists_route k
  obtain rfl : q = p := Option.some.inj (hqr.symm.trans hroute)
  obtain ⟨up, c', hins, hup, hfield, hrep⟩ :=
    Ranged.insert hd hl hchild (inRange_findIndex hl.gapP hr.seps hrange) hqr (nodup_child hi' hnd)
  by_cases h0 : t.root.nKeys = 0
  · -- the only leaf
    obtain ⟨rfl, hc, hkeys, q', hq', hch, -⟩ := hr.only_leaf h0
    have hfind : t.root.findIndex k = 0 := by
      have := t.root.findIndex_le k
      omega
    rw [hfind] at hins hrep
    have hup0 : Seps (Ranged d Q 0) none (upKeys up) (c' :: upNodes up) none := by
      simpa [hkeys] using hup
    obtain ⟨n', hnode, hroot', hch'⟩ : ∃ n',
        Node.insert env sys k v (.inner t.root) s = some (⟨none, .inner n', none⟩, s1) ∧
        RootRanged d Q 0 n' ∧ n'.liveChildren = c' :: upNodes up := by
      rw [Node.insert, if_pos ⟨hr.isRoot, h0⟩, if_neg (by omega)]
      simp only [hins, Option.bind_eq_bind, Option.bind_some]
      cases up with
      | none =>
        have hset := @liveChildren_setChild_split t.root 0 (by omega) c'
        rw [hch] at hset
        refine ⟨t.root.setChild 0 c', rfl,
          ⟨hr.isRoot, hr.filled.setChild 0 c', fun _ => rfl, ?_⟩, hset⟩
        have hkeys' : (t.root.setChild 0 c').liveKeys = [] := hkeys
        rw [hkeys']
        exact hset ▸ hup0
      | some kn =>
        obtain ⟨n', h1, h2, h3⟩ := insert_second_leaf hr h0 hd hup0
        exact ⟨n', by simp [h1], h2, h3⟩
    refine ⟨{ t with root := n' }, 0, ?_, rfl, hroot', ?_⟩
    · rw [FPTree.insert, hnode]
      rfl
    · rw [leaves_inner n', hch', leaves_inner, hch]
      rw [hq'] at hrep
      simpa using hrep
  · obtain ⟨n', up', ks, cs, hadd, hg, hlen, hseps, hleaves⟩ :=
      grow_child hl.gapP hl.gapQ hr.filled hr.seps hi'
        (fun c hc a b hP => hP.mono fun q' hq' =>
          hl.other q' (ne_of_mem_sibling hi' hnd hq hc hq')) hup hfield
    rw [hr.isRoot] at hg
    have hks : ks = [] → h = 0 := by
      rintro rfl
      simp only [List.length_nil] at hlen
      omega
    obtain ⟨r, t', h', hgrow, hafter, hdeg, hroot', hlv⟩ := hg.root hd hks hseps t
    refine ⟨t', h', ?_, hdeg, hroot', ?_⟩
    · have hnode : Node.insert env sys k v (.inner t.root) s = some (r, s1) := by
        rw [Node.insert, if_neg (by simp [h0])]
        simp only [hins, Option.bind_eq_bind, Option.bind_some, hadd, hgrow]
      rw [FPTree.insert, hnode]
      simp [hafter]
    · rw [hlv, hleaves]
      exact hrep.node hi'

/-- The first leaf goes to slot 0 of the root. -/
theorem EmptyRoot.pushChild {n : InnerNode Node} (hr : EmptyRoot d n) (hQ : Q none none p) :
    ∃ n', n.pushChild (.leaf p) = some n' ∧ RootRanged d Q 0 n' ∧ n'.liveChildren = [.leaf p] := by
  obtain ⟨n', h1, e1, k1⟩ := @InnerNode.pushChild_spec _ n (.leaf p)
    (by rw [hr.nChild]; simp [InnerNode.childCap])
  have hch : n'.liveChildren = [.leaf p] := by
    have : n.liveChildren = [] := List.eq_nil_of_length_eq_zero (by simp [hr.nChild])
    rw [k1, this]
    rfl
  have hn' : n'.nKeys = 0 ∧ n'.nChild = 1 ∧ n'.degree = d ∧ n'.isRoot = true := by
    rw [e1]
    exact ⟨hr.nKeys, by simp [hr.nChild], hr.degree, hr.isRoot⟩
  have hkeys : n'.liveKeys = [] := List.eq_nil_of_length_eq_zero (by simp [hn'.1])
  refine ⟨n', h1, ⟨hn'.2.2.2, ⟨hn'.2.2.1, Nat.zero_le _, by omega, by omega⟩,
    fun _ => rfl, ?_⟩, hch⟩
  rw [hkeys, hch, seps_singleton]
  exact hQ

/-- `FPTree::insert` into a tree without leaves. -/
theorem EmptyRoot.insert {t : FPTree} {s0 : World} (hr : EmptyRoot d t.root)
    (hc : LeafNode.create sys s = (some p, s0))
    (hi : LeafNode.insert env sys p k v s0 = some (nc, s1)) (hQ : Q none none p) :
    ∃ t', FPTree.insert env sys t k v s = some (t', s1) ∧ t'.degree = t.degree ∧
      RootRanged d Q 0 t'.root ∧ (inner t'.root).leaves = [p] := by
  obtain ⟨n', h1, hroot, hch⟩ := hr.pushChild hQ
  refine ⟨{ t with root := n' }, ?_, rfl, hroot, ?_⟩
  · have hnode : Node.insert env sys k v (.inner t.root) s =
        some (⟨none, .inner n', none⟩, s1) := by
      rw [Node.insert, if_pos ⟨hr.isRoot, hr.nKeys⟩, if_pos hr.nChild]
      simp [hc, hi, h1]
    rw [FPTree.insert, hnode]
    rfl
  · rw [leaves_inner, hch]
    rfl

end

end Node

end FPTreeDB
