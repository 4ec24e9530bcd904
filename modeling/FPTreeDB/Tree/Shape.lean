import FPTreeDB.Tree.Append
import FPTreeDB.Tree.Remove

/-!
# The shape of the tree, whatever the keys

`Ranged` with a leaf predicate that ignores the key range says how many keys and children
every inner node has and at which height the leaves are, and nothing about the order of
the keys. That much holds also when a key is inserted that is already stored: the new
leaf of a split may then end up anywhere below its parent, so that the leaves of the tree
are those of the chain up to their order.

* `Shape.insert`, `RootShape.insert`: an insertion adds the new leaf.
* `Shape.insertLeaf`, `RootShape.insertLeaf`: so does one turn of bulk loading.
* `RootShape.remove`: a removal takes out the leaf that was deleted.
-/

namespace FPTreeDB

open SepChain

namespace Node

/-- The leaf predicate that every leaf satisfies. -/
def anyLeaf : LeafPred := fun _ _ _ => True

/-- A subtree of height `h`. -/
def Shape (d h : ℕ) (c : Node) : Prop := Ranged d anyLeaf h none none c

/-- The root of a tree that has a leaf. -/
abbrev RootShape (d h : ℕ) (n : InnerNode Node) : Prop := RootRanged d anyLeaf h n

variable {env : Env} {sys : Sys} {d h m : ℕ} {P : LeafPred} {lo hi : Option Key}
  {n n' : InnerNode Node} {k key : Key} {v : Value} {s s1 : World} {p : PPointer}
  {nc : Option (Key × PPointer)} {ks : List Key} {cs : List Node} {t : FPTree}

theorem ranged_anyLeaf (d : ℕ) : ∀ h : ℕ, Ranged d anyLeaf h = fun _ _ c => Shape d h c := by
  intro h
  induction h with
  | zero =>
    funext lo hi c
    refine propext ?_
    rw [Shape, ranged_zero, ranged_zero]
    rfl
  | succ h ih =>
    funext lo hi c
    refine propext ?_
    rw [Shape, ranged_succ, ranged_succ, ih]
    simp only [seps_const]

/-- Children in a chain without ranges. -/
theorem seps_shape : Seps (Ranged d anyLeaf h) lo ks cs hi ↔
    cs.length = ks.length + 1 ∧ ∀ c ∈ cs, Shape d h c := by
  rw [ranged_anyLeaf, seps_const]

theorem RootRanged.shape (hr : RootRanged d P h n) : RootShape d h n :=
  hr.mono fun _ _ _ _ _ => trivial

theorem RootRanged.shape_child (hr : RootShape d h n) : ∀ c ∈ n.liveChildren, Shape d h c :=
  (seps_shape.mp hr.seps).2

theorem Shape.leaf (d : ℕ) (p : PPointer) : Shape d 0 (.leaf p) := ranged_zero.mpr ⟨p, rfl, trivial⟩

theorem shape_succ {c : Node} :
    Shape d (h + 1) c ↔ ∃ n, c = inner n ∧ n.isRoot = false ∧ Filled d d n ∧
    ∀ c' ∈ n.liveChildren, Shape d h c' := by
  rw [Shape, ranged_succ]
  constructor
  · rintro ⟨n, rfl, hr, hf, hs⟩
    exact ⟨n, rfl, hr, hf, (seps_shape.mp hs).2⟩
  · rintro ⟨n, rfl, hr, hf, hs⟩
    exact ⟨n, rfl, hr, hf, seps_shape.mpr ⟨by simp [hf.nChild], hs⟩⟩

/-! ## One node -/

/-- The children of a node after one of them was replaced and one was added. -/
theorem grow_shape {i : ℕ} {up : Option KeyNode} {c' : Node} (hf : Filled d m n)
    (hs : ∀ c ∈ n.liveChildren, Shape d h c) (hi' : i < n.nChild)
    (hup : ∀ c ∈ c' :: upNodes up, Shape d h c) (hfield : ∀ kn ∈ up, kn.node.nKeysField env ≠ 0) :
    ∃ n' up' ks cs, addChild env (n.setChild i c') up = some (n', up') ∧
      Grown d n.isRoot ks cs n' up' ∧
      n.nKeys ≤ ks.length ∧ Seps (Ranged d anyLeaf h) none ks cs none ∧
      cs.Perm (n.liveChildren.take i ++ ((c' :: upNodes up) ++ n.liveChildren.drop (i + 1))) := by
  have hset := liveChildren_setChild_split hi' c'
  have hsides : ∀ c ∈ n.liveChildren.take i ++ ((c' :: upNodes up) ++ n.liveChildren.drop (i + 1)),
      Shape d h c := by
    intro c hc
    simp only [List.mem_append] at hc
    rcases hc with hc | hc | hc
    · exact hs c (List.mem_of_mem_take hc)
    · exact hup c hc
    · exact hs c (List.mem_of_mem_drop hc)
  cases up with
  | none =>
    refine ⟨n.setChild i c', none, n.liveKeys, _, rfl,
      .fits rfl ((hf.mono (Nat.zero_le m)).setChild i c')
      rfl hset, by simp, seps_shape.mpr ⟨?_, hsides⟩, List.Perm.refl _⟩
    have hc := hf.nChild
    simp only [List.length_append, List.length_take, List.length_cons, List.length_drop,
      InnerNode.length_liveKeys, InnerNode.length_liveChildren]
    omega
  | some kn =>
    obtain ⟨n', up', ha, hg⟩ := addChild_spec (hf.setChild i c') (hfield kn rfl)
    have hle := (n.setChild i c').findIndex_le kn.key
    have hk : (n.setChild i c').nKeys = n.nKeys := rfl
    have hc : (n.setChild i c').nChild = n.nChild := rfl
    have hfc := hf.nChild
    -- the new child goes to some place among the others
    have hperm : ((n.setChild i c').liveChildren.take ((n.setChild i c').findIndex kn.key + 1) ++
        kn.node :: (n.setChild i c').liveChildren.drop
        ((n.setChild i c').findIndex kn.key + 1)).Perm
        (n.liveChildren.take i ++ ((c' :: upNodes (some kn)) ++ n.liveChildren.drop (i + 1))) := by
      refine List.perm_middle.trans ?_
      rw [List.take_append_drop, hset]
      refine (List.Perm.cons _ List.perm_middle).trans ?_
      refine (List.Perm.swap _ _ _).trans ?_
      refine List.Perm.trans ?_ List.perm_middle.symm
      exact List.Perm.cons _ List.perm_middle.symm
    refine ⟨n', up', _, _, ha, hg, ?_,
      seps_shape.mpr ⟨?_, fun c hc => hsides c (hperm.mem_iff.mp hc)⟩, hperm⟩
    · simp only [List.length_append, List.length_take, List.length_cons, List.length_drop,
        InnerNode.length_liveKeys]
      omega
    · simp only [List.length_append, List.length_take, List.length_cons, List.length_drop,
        InnerNode.length_liveKeys, InnerNode.length_liveChildren]
      omega

/-- The leaves after the child at `i` got the further leaves `r`. -/
theorem perm_leaves_child {i : ℕ} {ms : List Node} {r : List PPointer} (hi' : i < n.nChild)
    (hperm : (ms.flatMap leaves).Perm ((n.childrens i).leaves ++ r))
    (hcs : cs.Perm (n.liveChildren.take i ++ (ms ++ n.liveChildren.drop (i + 1)))) :
    (cs.flatMap leaves).Perm ((inner n).leaves ++ r) := by
  refine (hcs.flatMap_right _).trans ?_
  rw [leaves_split hi', List.flatMap_append, List.flatMap_append, List.append_assoc]
  refine List.Perm.append_left _ ?_
  refine (hperm.append_right _).trans ?_
  rw [List.append_assoc, List.append_assoc]
  exact List.Perm.append_left _ List.perm_append_comm

/-- What a call on a child leaves behind: the child, the node that goes up, and the
    further leaves `r`. -/
structure ChildGrown (env : Env) (d h : ℕ) (c : Node) (r : List PPointer) (up : Option KeyNode)
    (c' : Node) : Prop where
  shape : ∀ x ∈ c' :: upNodes up, Shape d h x
  field : ∀ kn ∈ up, kn.node.nKeysField env ≠ 0
  leaves : ((c' :: upNodes up).flatMap Node.leaves).Perm (c.leaves ++ r)

/-- A node below the root after the call on its child at `i`. -/
theorem ChildGrown.node {i : ℕ} {up : Option KeyNode} {c' : Node} {r : List PPointer} (hd : 1 ≤ d)
    (hroot : n.isRoot = false) (hf : Filled d d n) (hs : ∀ c ∈ n.liveChildren, Shape d h c)
    (hi' : i < n.nChild) (hg : ChildGrown env d h (n.childrens i) r up c') :
    ∃ n' up', addChild env (n.setChild i c') up = some (n', up') ∧
      growRoot n' up' none = some ⟨up', .inner n', none⟩ ∧
      ChildGrown env d (h + 1) (inner n) r up' (inner n') := by
  obtain ⟨n', up', ks, cs, hadd, hgr, hlen, hseps, hcs⟩ := grow_shape hf hs hi' hg.shape hg.field
  rw [hroot] at hgr
  have hr' : n'.isRoot = false := by cases hgr <;> assumption
  refine ⟨n', up', hadd, growRoot_of_not_root hr', ?_, ?_, ?_⟩
  · exact (seps_shape.mp (hgr.seps (hf.le_nKeys.trans hlen) hseps)).2
  · rintro kn hkn
    rw [Option.mem_def] at hkn
    subst hkn
    exact hgr.nKeysField_ne_zero hd
  · rw [hgr.leaves]
    exact perm_leaves_child hi' hg.leaves hcs

/-- The root after the call on its child at `i`. -/
theorem ChildGrown.root {i : ℕ} {up : Option KeyNode} {c' : Node} {r : List PPointer} (hd : 1 ≤ d)
    (hr : RootShape d h t.root) (h0 : t.root.nKeys ≠ 0) (hi' : i < t.root.nChild)
    (hg : ChildGrown env d h (t.root.childrens i) r up c') :
    ∃ n' up' x t' h', addChild env (t.root.setChild i c') up = some (n', up') ∧
      growRoot n' up' none = some x ∧ t.afterInsert x = some t' ∧ t'.degree = t.degree ∧
      RootShape d h' t'.root ∧ (inner t'.root).leaves.Perm ((inner t.root).leaves ++ r) := by
  obtain ⟨n', up', ks, cs, hadd, hgr, hlen, hseps, hcs⟩ :=
    grow_shape hr.filled hr.shape_child hi' hg.shape hg.field
  rw [hr.isRoot] at hgr
  have hks : ks = [] → h = 0 := by
    rintro rfl
    simp only [List.length_nil] at hlen
    omega
  obtain ⟨x, t', h', hgrow, hafter, hdeg, hroot', hlv⟩ := hgr.root hd hks hseps t
  refine ⟨n', up', x, t', h', hadd, hgrow, hafter, hdeg, hroot', ?_⟩
  rw [hlv]
  exact perm_leaves_child hi' hg.leaves hcs

/-- A root without keys has one child, a leaf; afterwards it may have two. -/
theorem ChildGrown.only {up : Option KeyNode} {c' : Node} {r : List PPointer} (hd : 1 ≤ d)
    (hr : RootShape d 0 n) (h0 : n.nKeys = 0) (hg : ChildGrown env d 0 (n.childrens 0) r up c') :
    ∃ n', (up.elim (some (n.setChild 0 c')) fun kn => pushKeyNode (n.setChild 0 c') kn) = some n' ∧
      RootShape d 0 n' ∧ (inner n').leaves.Perm ((inner n).leaves ++ r) := by
  obtain ⟨-, hc, hkeys, q, hq, hch, -⟩ := hr.only_leaf h0
  have hleaves : (inner n).leaves = (n.childrens 0).leaves := by rw [leaves_inner, hch, hq]; simp
  cases up with
  | none =>
    have hset := @liveChildren_setChild_split n 0 (by omega) c'
    rw [hch] at hset
    refine ⟨n.setChild 0 c', rfl, ⟨hr.isRoot, hr.filled.setChild 0 c', fun _ => rfl,
      seps_shape.mpr ?_⟩, ?_⟩
    · refine ⟨by simp [hr.filled.nChild, InnerNode.setChild], fun c hc => hg.shape c ?_⟩
      rw [show (n.setChild 0 c').liveChildren = [c'] from hset] at hc
      simpa using hc
    · rw [leaves_inner, show (n.setChild 0 c').liveChildren = [c'] from hset, hleaves]
      exact hg.leaves
  | some kn =>
    obtain ⟨n', h1, h2, h3⟩ := @insert_second_leaf d anyLeaf anyLeaf n kn c' hr h0 hd
      (seps_shape.mpr ⟨rfl, hg.shape⟩)
    refine ⟨n', h1, h2, ?_⟩
    rw [leaves_inner, h3, hleaves]
    exact hg.leaves

/-! ## Insertion -/

/-- The leaf that a split brings, if any. -/
def splitLeaves (nc : Option (Key × PPointer)) : List PPointer := nc.toList.map Prod.snd

/-- `InnerNode::insert` below the root. -/
theorem Shape.insert (hd : 1 ≤ d) (hres : LeafNode.insert env sys p k v s = some (nc, s1))
    (hfield : ∀ kn ∈ leafKeyNode nc, kn.node.nKeysField env ≠ 0) :
    ∀ {h : ℕ} {c : Node}, Shape d h c → c.route k = some p →
      ∃ up c', Node.insert env sys k v c s = some (⟨up, c', none⟩, s1) ∧
        ChildGrown env d h c (splitLeaves nc) up c' := by
  intro h
  induction h with
  | zero =>
    intro c hc hr
    obtain ⟨q, rfl, -⟩ := ranged_zero.mp hc
    obtain rfl : q = p := Option.some.inj hr
    refine ⟨leafKeyNode nc, .leaf q, ?_, fun x hx => ?_, hfield, ?_⟩
    · rw [Node.insert, hres]
      rfl
    · cases nc with
      | none =>
        obtain rfl := List.mem_singleton.mp hx
        exact Shape.leaf d q
      | some y =>
        rcases List.mem_cons.mp hx with rfl | hx
        · exact Shape.leaf d q
        · obtain rfl := List.mem_singleton.mp hx
          exact Shape.leaf d y.2
    · rw [flatMap_leafKeyNode]
      exact List.Perm.refl _
  | succ h ih =>
    intro c hc hr
    obtain ⟨n, rfl, hroot, hf, hs⟩ := shape_succ.mp hc
    have hi' := hf.findIndex_lt k
    have hchild := hs _ (InnerNode.mem_liveChildren.mpr ⟨_, hi', rfl⟩)
    obtain ⟨up, c', hins, hg⟩ := ih hchild hr
    obtain ⟨n', up', hadd, hgrow, hg'⟩ := hg.node hd hroot hf hs hi'
    refine ⟨up', .inner n', ?_, hg'⟩
    rw [Node.insert, if_neg (by simp [hroot])]
    simp only [hins, Option.bind_eq_bind, Option.bind_some, hadd, hgrow]

/-- `FPTree::insert` into a tree that has a leaf. -/
theorem RootRanged.shape_insert (hd : 1 ≤ d) (hr : RootShape d h t.root)
    (hroute : (inner t.root).route k = some p)
    (hres : LeafNode.insert env sys p k v s = some (nc, s1))
    (hfield : ∀ kn ∈ leafKeyNode nc, kn.node.nKeysField env ≠ 0) :
    ∃ t' h', t.insert env sys k v s = some (t', s1) ∧ t'.degree = t.degree ∧
      RootShape d h' t'.root ∧
      (inner t'.root).leaves.Perm ((inner t.root).leaves ++ splitLeaves nc) := by
  have hi' := hr.filled.findIndex_lt k
  have hchild := hr.shape_child _ (InnerNode.mem_liveChildren.mpr ⟨_, hi', rfl⟩)
  obtain ⟨up, c', hins, hg⟩ := Shape.insert hd hres hfield hchild hroute
  by_cases h0 : t.root.nKeys = 0
  · obtain ⟨rfl, hc, -⟩ := hr.only_leaf h0
    have hfind : t.root.findIndex k = 0 := by
      have := t.root.findIndex_le k
      omega
    rw [hfind] at hins hg
    obtain ⟨n', hn, hroot', hlv⟩ := hg.only hd hr h0
    refine ⟨{ t with root := n' }, 0, ?_, rfl, hroot', hlv⟩
    have hnode : Node.insert env sys k v (.inner t.root) s =
        some (⟨none, .inner n', none⟩, s1) := by
      rw [Node.insert, if_pos ⟨hr.isRoot, h0⟩, if_neg (by omega)]
      simp only [hins, Option.bind_eq_bind, Option.bind_some]
      cases up with
      | none =>
        obtain rfl := Option.some.inj hn
        rfl
      | some kn =>
        rw [Option.elim_some] at hn
        simp only [hn, Option.bind_some]
    rw [FPTree.insert, hnode]
    rfl
  · obtain ⟨n', up', x, t', h', hadd, hgrow, hafter, hdeg, hroot', hlv⟩ := hg.root hd hr h0 hi'
    refine ⟨t', h', ?_, hdeg, hroot', hlv⟩
    have hnode : Node.insert env sys k v (.inner t.root) s = some (x, s1) := by
      rw [Node.insert, if_neg (by simp [h0])]
      simp only [hins, Option.bind_eq_bind, Option.bind_some, hadd, hgrow]
    rw [FPTree.insert, hnode]
    simp [hafter]

/-! ## Bulk loading -/

/-- A node above the leaves after a leaf was appended to it. -/
theorem append_shape (hf : Filled d m n) (hs : ∀ c ∈ n.liveChildren, Shape d 0 c) :
    ∃ n1 n' up, pushKeyNode n ⟨key, .leaf p⟩ = some n1 ∧ splitFull n1 = some (n', up) ∧
      Grown d n.isRoot (n.liveKeys ++ [key]) (n.liveChildren ++ [.leaf p]) n' up ∧
      Seps (Ranged d anyLeaf 0) none (n.liveKeys ++ [key]) (n.liveChildren ++ [.leaf p]) none := by
  have hd := hf.degree
  have hk := hf.nKeys_le
  have hc := hf.nChild
  obtain ⟨n1, h1, e1, e2, e3, e4, e5, e6⟩ := @pushKeyNode_spec n ⟨key, .leaf p⟩
    (by rw [InnerNode.keyCap]; omega) (by rw [InnerNode.childCap]; omega)
  obtain ⟨n', up, h2, hg⟩ := @splitFull_spec d n1 (by omega) (by omega) (by omega)
  rw [e2, e5, e6] at hg
  refine ⟨n1, n', up, h1, h2, hg, seps_shape.mpr ⟨by simp [hc], fun c hc => ?_⟩⟩
  rcases List.mem_append.mp hc with hc | hc
  · exact hs c hc
  · obtain rfl := List.mem_singleton.mp hc
    exact Shape.leaf d p

/-- `InnerNode::insertLeaf` below the root. -/
theorem Shape.insertLeaf (hd : 1 ≤ d) : ∀ {h : ℕ} {c : Node}, Shape d (h + 1) c →
    ∃ up c', Node.insertLeaf env ⟨key, .leaf p⟩ c = some ⟨up, c', none⟩ ∧
      ChildGrown env d (h + 1) c [p] up c' := by
  intro h
  induction h with
  | zero =>
    intro c hc
    obtain ⟨n, rfl, hroot, hf, hs⟩ := shape_succ.mp hc
    have hi' := hf.findIndex_lt key
    obtain ⟨q, hq, -⟩ := ranged_zero.mp (hs _ (InnerNode.mem_liveChildren.mpr ⟨_, hi', rfl⟩))
    obtain ⟨n1, n', up, h1, h2, hg, hs'⟩ := @append_shape d d n key p hf hs
    rw [hroot] at hg
    have hr' : n'.isRoot = false := by cases hg <;> assumption
    refine ⟨up, .inner n', ?_, ?_, ?_, ?_⟩
    · rw [Node.insertLeaf, if_neg (by simp [hroot])]
      simp [hq, ifLeaf, h1, h2, growRoot_of_not_root hr']
    · refine (seps_shape.mp (hg.seps ?_ hs')).2
      have := hf.le_nKeys
      simp
      omega
    · rintro kn hkn
      rw [Option.mem_def] at hkn
      subst hkn
      exact hg.nKeysField_ne_zero hd
    · rw [hg.leaves, List.flatMap_append, leaves_inner]
      exact List.Perm.refl _
  | succ h ih =>
    intro c hc
    obtain ⟨n, rfl, hroot, hf, hs⟩ := shape_succ.mp hc
    have hi' := hf.findIndex_lt key
    have hchild := hs _ (InnerNode.mem_liveChildren.mpr ⟨_, hi', rfl⟩)
    obtain ⟨cn, hcn, -⟩ := shape_succ.mp hchild
    obtain ⟨up, c', hins, hg⟩ := ih hchild
    obtain ⟨n', up', hadd, hgrow, hg'⟩ := hg.node hd hroot hf hs hi'
    refine ⟨up', .inner n', ?_, hg'⟩
    have hnl : (n.childrens (n.findIndex key)).ifLeaf = false := by rw [hcn]; rfl
    rw [Node.insertLeaf, if_neg (by simp [hroot])]
    simp only [hnl, Bool.not_false, if_true, hins, Option.bind_eq_bind,
      Option.bind_some, hadd, hgrow]

/-- A leaf added to a tree that has one. -/
theorem RootRanged.shape_insertLeaf (hd : 1 ≤ d) (hr : RootShape d h t.root) (key : Key)
    (p : PPointer) :
    ∃ r t' h', Node.insertLeaf env ⟨key, .leaf p⟩ (.inner t.root) = some r ∧
      t.afterInsert r = some t' ∧
      t'.degree = t.degree ∧ RootShape d h' t'.root ∧
      (inner t'.root).leaves.Perm ((inner t.root).leaves ++ [p]) := by
  have hi' := hr.filled.findIndex_lt key
  have hchild := hr.shape_child _ (InnerNode.mem_liveChildren.mpr ⟨_, hi', rfl⟩)
  by_cases h0 : t.root.nKeys = 0
  · -- the second leaf
    obtain ⟨rfl, hc, hkeys, q, hq, hch, -⟩ := hr.only_leaf h0
    have hset : t.root.setChild 0 (leaf q) = t.root := by
      rw [← hq]
      simp [InnerNode.setChild]
    have hpair : Seps (Ranged d anyLeaf 0) none [key] [leaf q, leaf p] none :=
      seps_pair.mpr ⟨trivial, trivial⟩
    obtain ⟨n', h1, hroot, hch'⟩ :=
      @insert_second_leaf d anyLeaf anyLeaf t.root ⟨key, .leaf p⟩ (leaf q) hr h0 hd hpair
    rw [hset] at h1
    refine ⟨⟨none, .inner n', none⟩, { t with root := n' }, 0, ?_, rfl, rfl, hroot, ?_⟩
    · rw [Node.insertLeaf, if_pos ⟨hr.isRoot, h0⟩, if_neg (by omega)]
      simp [h1]
    · rw [leaves_inner, leaves_inner, hch', hch]
      exact List.Perm.refl _
  · have hne : ¬ (t.root.isRoot = true ∧ t.root.nKeys = 0) := by simp [h0]
    cases h with
    | zero =>
      obtain ⟨q, hq, -⟩ := ranged_zero.mp hchild
      obtain ⟨n1, n', up, h1, h2, hg, hs'⟩ :=
        @append_shape d 0 t.root key p hr.filled hr.shape_child
      rw [hr.isRoot] at hg
      obtain ⟨r, t', h', hgrow, hafter, hdeg, hroot', hlv⟩ := hg.root hd (by simp) hs' t
      refine ⟨r, t', h', ?_, hafter, hdeg, hroot', ?_⟩
      · rw [Node.insertLeaf, if_neg hne]
        simp [hq, ifLeaf, h1, h2, hgrow]
      · rw [hlv, List.flatMap_append, leaves_inner]
        exact List.Perm.refl _
    | succ h =>
      obtain ⟨cn, hcn, -⟩ := shape_succ.mp hchild
      obtain ⟨up, c', hins, hg⟩ := @Shape.insertLeaf env d key p hd _ _ hchild
      obtain ⟨n', up', x, t', h', hadd, hgrow, hafter, hdeg, hroot', hlv⟩ := hg.root hd hr h0 hi'
      refine ⟨x, t', h', ?_, hafter, hdeg, hroot', hlv⟩
      have hnl : (t.root.childrens (t.root.findIndex key)).ifLeaf = false := by rw [hcn]; rfl
      rw [Node.insertLeaf, if_neg hne]
      simp only [hnl, Bool.not_false, if_true, hins, Option.bind_eq_bind,
        Option.bind_some, hadd, hgrow]

/-! ## Removal -/

/-- `FPTree::remove` on a tree that has a leaf. -/
theorem RootRanged.shape_remove (hd : 1 ≤ d) (hr : RootShape d h t.root) {rm del : Bool}
    (hroute : (inner t.root).route k = some p) (hnd : (inner t.root).leaves.Nodup)
    (hres : LeafNode.remove env sys p k false s = some (rm, del, s1)) :
    (∃ log, t.remove env sys k s = .error log ∧ .redistributeLeft ∈ log) ∨
    ∃ n log, t.remove env sys k s = .ok ⟨rm, { t with root := n }, removedWorld p del s1, log⟩ ∧
      (EmptyRoot d n ∨ ∃ h', RootShape d h' n) ∧
      Replaced p (remains p del) (inner t.root).leaves (inner n).leaves :=
  RootRanged.remove hd ⟨hres, fun _ _ _ _ => trivial, fun _ _ _ _ _ => trivial,
    fun _ _ _ _ _ _ => trivial,
    fun _ _ _ _ _ _ => trivial⟩ hr hroute hnd

/-- A removal that leaves an entry in its leaf repairs nothing on the way up. -/
theorem Shape.remove_kept {rm : Bool}
    (hres : LeafNode.remove env sys p k false s = some (rm, false, s1)) :
    ∀ {h : ℕ} {c : Node}, Shape d h c → c.route k = some p → ∀ (index : ℤ)
      (parent : InnerNode Node),
      ∃ c' parent', Node.remove env sys k c index (some parent) false s =
        .ok ⟨rm, ⟨false, c', some parent', []⟩, s1⟩ := by
  intro h
  induction h with
  | zero =>
    intro c hc hroute index parent
    obtain ⟨q, rfl, -⟩ := ranged_zero.mp hc
    obtain rfl : q = p := Option.some.inj hroute
    exact ⟨.leaf q, parent, by rw [Node.remove, hres]⟩
  | succ h ih =>
    intro c hc hroute index parent
    obtain ⟨n, rfl, hroot, hf, hs⟩ := shape_succ.mp hc
    have hchild := hs _ (InnerNode.mem_liveChildren.mpr ⟨_, hf.findIndex_lt k, rfl⟩)
    obtain ⟨c', n', hrem⟩ := ih hchild hroute (n.findIndex k) n
    refine ⟨.inner n', parent.setChild index (.inner n'), ?_⟩
    rw [remove_inner_ok (by simp [hroot]) hrem rfl]
    rfl

theorem RootRanged.shape_remove_kept (hr : RootShape d h t.root) {rm : Bool}
    (hroute : (inner t.root).route k = some p)
    (hres : LeafNode.remove env sys p k false s = some (rm, false, s1)) :
    ∃ t', t.remove env sys k s = .ok ⟨rm, t', s1, []⟩ := by
  have hi' := hr.filled.findIndex_lt k
  have hchild := hr.shape_child _ (InnerNode.mem_liveChildren.mpr ⟨_, hi', rfl⟩)
  obtain ⟨c', n', hrem⟩ := hchild.remove_kept hres hroute (t.root.findIndex k) t.root
  refine ⟨{ t with root := n' }, ?_⟩
  by_cases h0 : t.root.nKeys = 0
  · have hfind : t.root.findIndex k = 0 := by
      have := t.root.findIndex_le k
      omega
    rw [hfind] at hrem hi'
    have hnode : Node.remove env sys k (.inner t.root) (-1) none false s =
        .ok ⟨rm, ⟨false, .inner n', none, []⟩, s1⟩ := by
      rw [Node.remove, if_pos ⟨hr.isRoot, h0⟩, if_pos hi']
      simp only [Int.ofNat_zero] at hrem
      simp only [hrem]
      rfl
    rw [FPTree.remove, hnode]
  · rw [FPTree.remove, remove_inner_ok (by simp [h0]) hrem rfl]
    rfl

end Node

end FPTreeDB
