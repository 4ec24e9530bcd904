import FPTreeDB.Tree.BulkLoad
import FPTreeDB.Tree.Flush
import FPTreeDB.Tree.Shape

/-!
# Runs with any keys

A session is any sequence of calls on a store, with any keys and any outcomes of the
system calls, in which the tree may be deleted and loaded again from the leaves.
`Consistent db chain` is what every session keeps: the shape of the tree, and that its
leaves, the two lists through the leaves and the allocator agree on `chain`. Nothing is
said about the entries: an insertion of a stored key can spoil the counts and the order.

* `StepCase`: everything that a call can do to the leaves and the chain.
* `Consistent.step`, `Consistent.reload`: every call keeps the store consistent.
* `chain_agrees`: the lists and the allocator agree after every session.
* `lookups_live_iff`: lookups touch live children exactly when there is a leaf.
-/

namespace FPTreeDB

open PAllocator Runs Node Links

/-! ## The leaf methods, whatever the entries -/

section Leaf

variable {env : Env} {sys : Sys} {s s1 : World} {l1 l2 : List PPointer} {p : PPointer}
  {k : Key} {v : Value} {nc : Option (Key × PPointer)}

theorem insertNonFull_storeInv {s0 : World} {chain : List PPointer} (h : StoreInv s chain)
    (hi : LeafNode.insertNonFull env p k v s = some s0) :
    StoreInv s0 chain ∧ ∃ nd, s0.nodes p = some nd := by
  cases hn : s.nodes p with
  | none => rw [LeafNode.insertNonFull, hn] at hi; cases hi
  | some nd =>
    rw [insertNonFull_eq hn] at hi
    split_ifs at hi
    · obtain rfl := Option.some.inj hi
      exact ⟨h, nd, hn⟩
    · obtain rfl := Option.some.inj hi
      exact ⟨h.edit hn rfl rfl rfl, _, edit_nodes_self⟩

/-- `LeafNode::insert` and the chain. -/
theorem StoreInv.leafInsert (h : StoreInv s (l1 ++ p :: l2))
    (hi : LeafNode.insert env Sys.ok p k v s = some (nc, s1)) :
    StoreInv s1 (l1 ++ (newLeaves p nc ++ l2)) := by
  unfold LeafNode.insert at hi
  simp only [Option.bind_eq_bind, Option.bind_eq_some_iff] at hi
  obtain ⟨s0, h0, nd, hn, hi⟩ := hi
  obtain ⟨hst, -⟩ := insertNonFull_storeInv h h0
  split_ifs at hi with hfull
  · obtain ⟨q, rfl, hs⟩ := hst.split_of_some hn (by omega) hi
    exact hs.store
  · obtain ⟨rfl, rfl⟩ := Prod.mk.inj (Option.some.inj hi)
    exact hst

/-- `LeafNode::update` and the chain. -/
theorem StoreInv.leafUpdate {chain : List PPointer} {b : Bool} (h : StoreInv s chain)
    (hu : LeafNode.update env p k v s = some (b, s1)) : p ∈ chain ∧ StoreInv s1 chain := by
  cases hn : s.nodes p with
  | none => rw [LeafNode.update, hn] at hu; cases hu
  | some nd =>
    refine ⟨h.mem_of_node hn, ?_⟩
    cases hf : (s.leafAt p).findSlot env.keyHash LEAF_DEGREE k with
    | none =>
      rw [update_eq_none hn hf] at hu
      obtain ⟨-, rfl⟩ := Prod.mk.inj (Option.some.inj hu)
      exact h
    | some i =>
      rw [update_eq_some hn hf] at hu
      obtain ⟨-, rfl⟩ := Prod.mk.inj (Option.some.inj hu)
      exact h.edit hn rfl rfl rfl

/-- `LeafNode::remove` returns, with the chain shortened when the leaf was freed. -/
theorem StoreInv.leafRemove (sys : Sys) (h : StoreInv s (l1 ++ p :: l2)) (k : Key) :
    ∃ rm del s1, LeafNode.remove env sys p k false s = some (rm, del, s1) ∧
      StoreInv (removedWorld p del s1) (l1 ++ (remains p del ++ l2)) := by
  obtain ⟨nd, hn⟩ := h.exists_node (show p ∈ l1 ++ p :: l2 by simp)
  cases hf : (s.leafAt p).findSlot env.keyHash LEAF_DEGREE k with
  | none => exact ⟨false, false, s, remove_eq_none hn hf, h⟩
  | some i =>
    have hclear : StoreInv (s.clearSlot p nd i) (l1 ++ p :: l2) := h.edit hn rfl rfl rfl
    rw [remove_eq_some hn hf]
    by_cases hz : nd.n - 1 = 0
    · have hnode : (s.clearSlot p nd i).nodes p = some { nd with n := nd.n - 1 } := edit_nodes_self
      obtain ⟨s2, hu, hdrop, -⟩ := hclear.drop sys hnode
      rw [if_pos hz, hu]
      exact ⟨true, true, s2, rfl, hdrop.store⟩
    · rw [if_neg hz]
      exact ⟨true, false, _, rfl, hclear⟩

end Leaf

/-! ## The tree and the chain -/

/-- The shape of the tree, and that its leaves are those of the chain. -/
structure Consistent (db : Db) (chain : List PPointer) : Prop where
  tree : ∃ d, 1 ≤ d ∧ (EmptyRoot d db.1.root ∨ ∃ h, RootShape d h db.1.root)
  store : StoreInv db.2 chain
  leaves : (inner db.1.root).leaves.Perm chain

/-- What a call does: the leaf method that it comes to, and the chain after it. -/
inductive StepCase (env : Env) (sys : Sys) (t : FPTree) (s : World) : List PPointer → DbOp → World →
    List PPointer → Prop
  | first {k : Key} {v : Value} {p : PPointer} {s0 s1 : World}
      (hc : LeafNode.create Sys.ok s = (some p, s0))
      (hi : LeafNode.insert env Sys.ok p k v s0 = some (none, s1)) :
      StepCase env sys t s [] (.insert k v) s1 [p]
  | insert {k : Key} {v : Value} {p : PPointer} {l1 l2 : List PPointer}
      {nc : Option (Key × PPointer)} {s1 : World} (hroute : (inner t.root).route k = some p)
      (hi : LeafNode.insert env Sys.ok p k v s = some (nc, s1)) :
      StepCase env sys t s (l1 ++ p :: l2) (.insert k v) s1 (l1 ++ (newLeaves p nc ++ l2))
  | update {k : Key} {v : Value} {p : PPointer} {chain : List PPointer} {b : Bool} {s1 : World}
      (hp : p ∈ chain) (hu : LeafNode.update env p k v s = some (b, s1)) :
      StepCase env sys t s chain (.update k v) s1 chain
  | absent {k : Key} : StepCase env sys t s [] (.remove k) s []
  | remove {k : Key} {p : PPointer} {l1 l2 : List PPointer} {rm del : Bool} {s1 : World}
      (hr : LeafNode.remove env sys p k false s = some (rm, del, s1)) :
      StepCase env sys t s (l1 ++ p :: l2) (.remove k) (removedWorld p del s1)
        (l1 ++ (remains p del ++ l2))

section Step

variable {env : Env} {sys : Sys} {d h : ℕ} {t t' : FPTree} {s s' : World} {chain : List PPointer}
  {k : Key} {v : Value}

/-- The leaf to which a call goes, in its place in the chain. -/
theorem Consistent.route (hc : Consistent (t, s) chain) (hr : RootShape d h t.root) (k : Key) :
    ∃ l1 p l2, chain = l1 ++ p :: l2 ∧ (inner t.root).route k = some p := by
  obtain ⟨p, hp, hroute⟩ := (hr.shape_child _
    (InnerNode.mem_liveChildren.mpr ⟨_, hr.filled.findIndex_lt k, rfl⟩)).exists_route k
  have hmem := mem_leaves_of_child (hr.filled.findIndex_lt k) hp
  obtain ⟨l1, l2, hl⟩ := List.append_of_mem (hc.leaves.mem_iff.mp hmem)
  exact ⟨l1, p, l2, hl, hroute⟩

theorem Consistent.nil (hc : Consistent (t, s) chain) (hempty : EmptyRoot d t.root) :
    chain = [] := by
  have := hc.leaves
  rw [hempty.leaves_eq] at this
  exact List.nil_perm.mp this

theorem perm_newLeaves {l1 l2 : List PPointer} {p : PPointer} (nc : Option (Key × PPointer)) :
    (l1 ++ p :: l2 ++ splitLeaves nc).Perm (l1 ++ (newLeaves p nc ++ l2)) := by
  rw [List.append_assoc]
  exact List.Perm.append_left _ (List.Perm.cons _ List.perm_append_comm)

/-- An insertion into a tree without leaves that returns has made a leaf. -/
theorem Node.EmptyRoot.insert_leaf (hr : EmptyRoot d t.root)
    (hi : t.insert env sys k v s = some (t', s')) :
    ∃ p s0 nc, LeafNode.create sys s = (some p, s0) ∧
      LeafNode.insert env sys p k v s0 = some (nc, s') := by
  rw [FPTree.insert, Node.insert, if_pos ⟨hr.isRoot, hr.nKeys⟩, if_pos hr.nChild] at hi
  cases hcr : LeafNode.create sys s with
  | mk q s0 =>
    cases q with
    | none => rw [hcr] at hi; cases hi
    | some p =>
      rw [hcr] at hi
      simp only [Option.bind_eq_bind, Option.bind_eq_some_iff] at hi
      obtain ⟨x, ⟨⟨nc, s2⟩, hleaf, n, -, hx⟩, t1, -, hres⟩ := hi
      obtain rfl := Option.some.inj hx
      obtain ⟨-, rfl⟩ := Prod.mk.inj (Option.some.inj hres)
      exact ⟨p, s0, nc, rfl, hleaf⟩

/-- An insertion into a tree that has a leaf does what the leaf does. -/
theorem Consistent.insert_leaf {l1 l2 : List PPointer} {p : PPointer} {nc : Option (Key × PPointer)}
    (hd : 1 ≤ d) (hc : Consistent (t, s) (l1 ++ p :: l2)) (hr : RootShape d h t.root)
    (hroute : (inner t.root).route k = some p)
    (hleaf : LeafNode.insert env sys p k v s = some (nc, s')) :
    ∃ t', t.insert env sys k v s = some (t', s') ∧
      Consistent (t', s') (l1 ++ (newLeaves p nc ++ l2)) := by
  have hst := hc.store.leafInsert (LeafNode.insert_ok hleaf)
  obtain ⟨t1, h1, ht, -, hr1, hlv⟩ := hr.shape_insert hd hroute hleaf fun kn hkn => by
    cases nc with
    | none => cases hkn
    | some x =>
      obtain rfl := Option.some.inj hkn
      exact nKeysField_leaf_ne_zero env (hst.aligned (by simp [newLeaves]))
  refine ⟨t1, ht, ⟨d, hd, Or.inr ⟨h1, hr1⟩⟩, hst, ?_⟩
  exact hlv.trans ((hc.leaves.append_right _).trans (perm_newLeaves nc))

/-- `FPTree::insert`. -/
theorem Consistent.insert (hc : Consistent (t, s) chain)
    (hi : t.insert env sys k v s = some (t', s')) :
    ∃ chain', StepCase env sys t s chain (.insert k v) s' chain' ∧ Consistent (t', s') chain' := by
  obtain ⟨d, hd, hempty | ⟨h, hr⟩⟩ := hc.tree
  · obtain rfl := hc.nil hempty
    obtain ⟨p, s0, nc, hcr, hleaf⟩ := hempty.insert_leaf hi
    obtain ⟨s1, hins, hst, hP, -⟩ := @StoreInv.insert_first env s p k v s0 hc.store (create_ok hcr)
    have hleaf' := LeafNode.insert_ok hleaf
    rw [hins] at hleaf'
    obtain ⟨rfl, rfl⟩ := Prod.mk.inj (Option.some.inj hleaf')
    obtain ⟨t1, ht, -, hr1, hlv⟩ := hempty.insert hcr hleaf hP
    rw [hi] at ht
    obtain ⟨rfl, -⟩ := Prod.mk.inj (Option.some.inj ht)
    refine ⟨[p], .first (create_ok hcr) hins, ⟨d, hd, Or.inr ⟨0, hr1.shape⟩⟩, hst, ?_⟩
    show (inner t'.root).leaves.Perm [p]
    rw [hlv]
  · obtain ⟨l1, p, l2, rfl, hroute⟩ := hc.route hr k
    obtain ⟨nc, hleaf⟩ := hr.insert_leaf hroute hi
    obtain ⟨t1, ht, hc'⟩ := hc.insert_leaf hd hr hroute hleaf
    rw [hi] at ht
    obtain ⟨rfl, -⟩ := Prod.mk.inj (Option.some.inj ht)
    exact ⟨_, .insert hroute (LeafNode.insert_ok hleaf), hc'⟩

/-- `FPTree::update`. -/
theorem Consistent.update {b : Bool} (hc : Consistent (t, s) chain)
    (hu : t.update env k v s = some (b, s')) :
    StepCase env sys t s chain (.update k v) s' chain ∧ Consistent (t, s') chain := by
  rw [FPTree.update, Node.update_eq] at hu
  obtain ⟨p, -, hu⟩ := Option.bind_eq_some_iff.mp hu
  obtain ⟨hp, hst⟩ := hc.store.leafUpdate hu
  exact ⟨.update hp hu, hc.tree, hst, hc.leaves⟩

/-- `FPTree::remove`. -/
theorem Consistent.remove {r : FPTree.Removed} (hc : Consistent (t, s) chain)
    (hr : t.remove env sys k s = .ok r) :
    ∃ chain', StepCase env sys t s chain (.remove k) r.world chain' ∧
      Consistent (r.tree, r.world) chain' := by
  obtain ⟨d, hd, hempty | ⟨h, hroot⟩⟩ := hc.tree
  · obtain rfl := hc.nil hempty
    have hnode : Node.remove env sys k (.inner t.root) (-1) none false s =
        .ok ⟨false, ⟨false, .inner t.root, none, []⟩, s⟩ := by
      rw [Node.remove, if_pos ⟨hempty.isRoot, hempty.nKeys⟩, if_neg (by rw [hempty.nChild]; simp)]
    rw [FPTree.remove, hnode] at hr
    obtain rfl := Except.ok.inj hr
    exact ⟨[], .absent, hc⟩
  · obtain ⟨l1, p, l2, rfl, hroute⟩ := hc.route hroot k
    obtain ⟨rm, del, s1, hleaf, hst⟩ := @StoreInv.leafRemove env s l1 l2 p sys hc.store k
    have hnd := hc.leaves.nodup_iff.mpr hc.store.nodup
    rcases hroot.shape_remove hd hroute hnd hleaf with ⟨log, herr, -⟩ | ⟨n, log, hok, htree, hrep⟩
    · rw [hr] at herr
      cases herr
    · rw [hr] at hok
      obtain rfl := Except.ok.inj hok
      refine ⟨_, .remove hleaf, ⟨d, hd, htree⟩, hst, ?_⟩
      obtain ⟨a, b, hab, hn⟩ := hrep
      -- the leaf is taken out of the tree and of the chain, each in its own place
      have hperm : (a ++ p :: b).Perm (l1 ++ p :: l2) := hab ▸ hc.leaves
      have hrest : (a ++ b).Perm (l1 ++ l2) :=
        (List.perm_cons p).mp (List.perm_middle.symm.trans (hperm.trans List.perm_middle))
      show (inner n).leaves.Perm (l1 ++ (remains p del ++ l2))
      rw [hn]
      cases del with
      | true => exact hrest
      | false => exact hperm

theorem Consistent.step {op : DbOp} {db db' : Db} (hc : Consistent db chain)
    (hs : op.step env sys db = some db') :
    ∃ chain', StepCase env sys db.1 db.2 chain op db'.2 chain' ∧ Consistent db' chain' := by
  obtain ⟨t, s⟩ := db
  cases op with
  | insert k v => exact hc.insert hs
  | update k v =>
    obtain ⟨⟨b, s1⟩, hu, rfl⟩ := Option.map_eq_some_iff.mp hs
    exact ⟨chain, hc.update hu⟩
  | remove k =>
    rw [DbOp.step] at hs
    cases hr : t.remove env sys k s with
    | error log => rw [hr] at hs; cases hs
    | ok r =>
      rw [hr] at hs
      obtain rfl := Option.some.inj hs
      exact hc.remove hr

end Step

/-! ## Deleting and loading the tree -/

section Reload

variable {env : Env} {t : FPTree} {s s0 s' : World} {chain : List PPointer}

theorem Node.recursiveDelete_eq : ∀ (c : Node) (s : World),
    c.recursiveDelete s = c.leaves.foldl (fun s p => LeafNode.destroy p s) s
  | uninit, _ => rfl
  | leaf _, _ => rfl
  | inner n, s => by
    rw [recursiveDelete, leaves, List.foldl_flatMap]
    congr 1
    funext s i
    exact recursiveDelete_eq (n.childrens i) s

/-- The state after the objects of the leaves in `l` were deleted. -/
structure Destroyed (s : World) (l : List PPointer) (s' : World) : Prop where
  heads : SameHeads s s'
  startLeaf : s'.startLeaf = s.startLeaf
  leafAt : ∀ p, s'.leafAt p = s.leafAt p
  node_of_mem : ∀ p ∈ l, s'.nodes p = none
  node_of_not_mem : ∀ p, p ∉ l → s'.nodes p = s.nodes p

theorem destroyed_foldl : ∀ (l : List PPointer) (s : World),
    Destroyed s l (l.foldl (fun s p => LeafNode.destroy p s) s) := by
  intro l
  induction l with
  | nil => exact fun s => ⟨SameHeads.refl s, rfl, fun _ => rfl, by simp, fun _ _ => rfl⟩
  | cons q l ih =>
    intro s
    have h := ih (LeafNode.destroy q s)
    have hq : (LeafNode.destroy q s).nodes q = none := Function.update_self _ _ _
    have hheads : SameHeads s (LeafNode.destroy q s) :=
      SameHeads.congr (SameHeads.refl s) rfl rfl rfl rfl
    refine ⟨hheads.trans h.heads, h.startLeaf, h.leafAt, fun p hp => ?_, fun p hp => ?_⟩
    · by_cases hpl : p ∈ l
      · exact h.node_of_mem p hpl
      · rw [List.foldl_cons, h.node_of_not_mem p hpl]
        rcases List.mem_cons.mp hp with rfl | hp
        · exact hq
        · exact absurd hp hpl
    · rw [List.mem_cons, not_or] at hp
      rw [List.foldl_cons, h.node_of_not_mem p hp.2]
      exact Function.update_of_ne hp.1 _ _

/-- `FPTree::~FPTree` deletes the objects of all leaves. -/
theorem FPTree.destroyed (t : FPTree) (s : World) :
    Destroyed s (inner t.root).leaves (t.destruct s) := by
  rw [FPTree.destruct, Node.recursiveDelete_eq]
  exact destroyed_foldl _ s

/-- The destructor changes the state only through those of the leaves. -/
theorem FPTree.destruct_keeps {I : World → Prop}
    (hI : ∀ {s : World} {p : PPointer}, I s → I (LeafNode.destroy p s))
    (t : FPTree) (h : I s) : I (t.destruct s) := by
  rw [FPTree.destruct, Node.recursiveDelete_eq]
  exact List.foldlRecOn _ _ h fun _ hs _ _ => hI hs

theorem Consistent.destruct (hc : Consistent (t, s) chain) : Destroyed s chain (t.destruct s) := by
  have h := t.destroyed s
  exact ⟨h.heads, h.startLeaf, h.leafAt, fun p hp => h.node_of_mem p (hc.leaves.mem_iff.mpr hp),
    fun p hp => h.node_of_not_mem p fun hp' => hp (hc.leaves.mem_iff.mp hp')⟩

/-- `s0` is `s` without the objects: the allocator finds the same leaves in it. -/
structure Reset (s s0 : World) : Prop where
  alloc : AllocOk s0
  used : ∀ p, s0.ifLeafUsed p = s.ifLeafUsed p
  startLeaf : s0.startLeaf = s.startLeaf
  leafAt : ∀ p, s0.leafAt p = s.leafAt p
  nodes : ∀ p, s0.nodes p = none

theorem Destroyed.reset (h : StoreInv s chain) (hd : Destroyed s chain s0) : Reset s s0 := by
  refine ⟨hd.heads.allocOk h.alloc, fun p => hd.heads.used, hd.startLeaf, hd.leafAt, fun p => ?_⟩
  by_cases hp : p ∈ chain
  · exact hd.node_of_mem p hp
  · rw [hd.node_of_not_mem p hp, h.node_eq_none hp]

theorem Reset.chained (h : StoreInv s chain) (hr : Reset s s0) : Chained s0 chain := by
  refine ⟨h.nodup, fun p hp => ?_, PPointer.zero, not_used_zero _, ?_, ?_⟩
  · rw [hr.used]
    exact (h.used_iff p).mpr hp
  · rw [hr.startLeaf]
    exact h.start
  · exact h.pNext.congr fun p _ => by rw [hr.leafAt]

/-- The chain after its leaves were loaded. -/
theorem Reset.storeInv (h : StoreInv s chain) (hr : Reset s s0) (hl : Loaded s0 chain s') :
    StoreInv s' chain := by
  refine hl.storeInv hr.alloc (fun p => ?_) h.nodup ?_ ?_ hr.nodes
  · rw [hr.used]
    exact h.used_iff p
  · rw [hr.startLeaf]
    exact h.start
  · exact h.pNext.congr fun p _ => by rw [hr.leafAt]

/-- The tree over the leaves loaded so far. -/
def BulkShape (d : ℕ) (done : List PPointer) (t : FPTree) : Prop :=
  (inner t.root).leaves.Perm done ∧ (EmptyRoot d t.root ∨ ∃ h, RootShape d h t.root)

theorem BulkShape.step {d : ℕ} (hd : 1 ≤ d) {done : List PPointer} (hT : BulkShape d done t)
    (key : Key) (p : PPointer) :
      ∃ r t', Node.insertLeaf env ⟨key, .leaf p⟩ (.inner t.root) = some r ∧
      t.afterInsert r = some t' ∧ BulkShape d (done ++ [p]) t' := by
  obtain ⟨hperm, hr | ⟨h, hr⟩⟩ := hT
  · rw [hr.leaves_eq] at hperm
    obtain rfl := List.nil_perm.mp hperm
    obtain ⟨r, t', hins, hafter, -, hr', hlv⟩ :=
      @EmptyRoot.insertLeaf env d anyLeaf key p t hr trivial
    exact ⟨r, t', hins, hafter, by rw [hlv]; exact List.Perm.refl _, Or.inr ⟨0, hr'⟩⟩
  · obtain ⟨r, t', h', hins, hafter, -, hr', hlv⟩ :=
      @Node.RootRanged.shape_insertLeaf env d h t hd hr key p
    exact ⟨r, t', hins, hafter, hlv.trans (hperm.append_right _), Or.inr ⟨h', hr'⟩⟩

/-- `FPTree::FPTree` on the leaves of a deleted tree. -/
theorem Consistent.reload_some (hc : Consistent (t, s) chain) {d : ℕ} (hd : 1 ≤ d) {fuel : ℕ}
    (hfuel : chain.length < fuel) :
    ∃ t' s', FPTree.construct env fuel d (t.destruct s) = some (t', s') ∧
      Consistent (t', s') chain ∧
      Loaded (t.destruct s) chain s' := by
  have hdel := hc.destruct.reset hc.store
  have hch := hdel.chained hc.store
  obtain ⟨e, he, hstart, hlink⟩ := hch.links
  have hT : BulkShape d [] ⟨InnerNode.create d true, d⟩ :=
    ⟨List.Perm.refl _, Or.inl ⟨rfl, rfl, rfl, rfl⟩⟩
  obtain ⟨t', s', hloop, hl, hperm, htree⟩ :=
    bulkLoop_spec (T := fun done t _ => BulkShape d done t)
      hch.nodup hch.used he (fun done p rest t s2 s1 _ _ hT _ => hT.step hd _ p) chain
      [] _ (t.destruct s) fuel rfl hlink hfuel (loaded_nil _) hT
  refine ⟨t', s', ?_, ⟨⟨d, hd, htree⟩, hdel.storeInv hc.store hl, hperm⟩, hl⟩
  rw [FPTree.construct, hstart]
  exact hloop

/-- More turns than the loop takes do no harm. -/
theorem bulkLoop_mono {r : Db} :
    ∀ {fuel fuel' : ℕ} {ppt : PPointer} {oldLeaf : Option PPointer} {t : FPTree}
    {s : World}, fuel ≤ fuel' → FPTree.bulkLoop env fuel ppt oldLeaf t s = some r →
    FPTree.bulkLoop env fuel' ppt oldLeaf t s = some r := by
  intro fuel
  induction fuel with
  | zero => intro _ _ _ _ _ _ h; cases h
  | succ fuel ih =>
    intro fuel' ppt oldLeaf t s hle h
    obtain ⟨fuel', rfl⟩ : ∃ f, fuel' = f + 1 := ⟨fuel' - 1, by omega⟩
    rw [FPTree.bulkLoop] at h ⊢
    split_ifs at h ⊢
    · simp only [Option.bind_eq_bind, Option.bind_eq_some_iff] at h ⊢
      obtain ⟨s1, h1, x, h2, t1, h3, h4⟩ := h
      exact ⟨s1, h1, x, h2, t1, h3, ih (by omega) h4⟩
    · exact h

theorem Consistent.reload {fuel d : ℕ} (hd : 1 ≤ d) (hc : Consistent (t, s) chain) {db : Db}
    (h : FPTree.construct env fuel d (t.destruct s) = some db) :
    Consistent db chain ∧ Loaded (t.destruct s) chain db.2 := by
  obtain ⟨t', s', hres, hc', hl⟩ := @Consistent.reload_some env t s chain hc d hd
    (max fuel (chain.length + 1)) (by omega)
  have := bulkLoop_mono (le_max_left fuel (chain.length + 1)) h
  obtain rfl : db = (t', s') := Option.some.inj (this.symm.trans hres)
  exact ⟨hc', hl⟩

end Reload

/-! ## Sessions -/

/-- A call, with the outcomes of its system calls, or the deletion of the tree and a bulk
    load with a tree of degree `d`, for which the loop has `fuel` turns. -/
inductive StoreOp where
  | call (sys : Sys) (op : DbOp)
  | reload (fuel : ℕ) (d : ℕ+)

def StoreOp.step (env : Env) : StoreOp → Db → Option Db
  | call sys op, db => op.step env sys db
  | reload fuel d, (t, s) => FPTree.construct env fuel d (t.destruct s)

section Sessions

variable {env : Env} {d : ℕ} {db db' : Db} {chain : List PPointer}

theorem Consistent.storeStep {op : StoreOp} (hc : Consistent db chain)
    (hs : op.step env db = some db') :
    ∃ chain', Consistent db' chain' := by
  cases op with
  | call sys op =>
    obtain ⟨chain', -, hc'⟩ := hc.step hs
    exact ⟨chain', hc'⟩
  | reload fuel d => exact ⟨chain, (hc.reload d.pos hs).1⟩

theorem emptyDb_consistent (env : Env) (hd : 1 ≤ d) : Consistent (emptyDb env d) [] :=
  ⟨⟨d, hd, Or.inl ⟨rfl, rfl, rfl, rfl⟩⟩, construct_empty_storeInv env, List.Perm.refl _⟩

theorem session_consistent (env : Env) (hd : 1 ≤ d) (ops : List StoreOp)
    (hrun : run (StoreOp.step env) ops (emptyDb env d) = some db) : ∃ chain, Consistent db chain :=
  run_inv (I := fun db => ∃ chain, Consistent db chain)
    (fun _ _ _ ⟨_, hc⟩ hs => hc.storeStep hs) ops ⟨[], emptyDb_consistent env hd⟩ hrun

end Sessions

/-! ## The lists through the leaves -/

/-- The two lists, the tree and the allocator agree on the leaves `l`. -/
structure Agrees (t : FPTree) (s : World) (l : List PPointer) : Prop where
  nodup : l.Nodup
  leftmost : ∀ p, p ∈ (inner t.root).leaves ∧ s.prev p = none ↔ l.head? = some p
  rightmost : ∀ p, p ∈ (inner t.root).leaves ∧ s.next p = none ↔ l.getLast? = some p
  next : ∀ fuel, l.length ≤ fuel → walk id s.next fuel l.head? = l
  prev : ∀ fuel, l.length ≤ fuel → walk id s.prev fuel l.getLast? = l.reverse
  pNext : ∀ fuel, l.length ≤ fuel → walk (fun p => if s.ifLeafUsed p then some p else none)
    (fun p => (s.leafAt p).pNext) fuel s.startLeaf = l
  stop : ∀ p, l.getLast? = some p → s.ifLeafUsed (s.leafAt p).pNext = false
  header : ∀ p, s.ifLeafExist p = true → (s.headerByte p = 1 ↔ p ∈ l)
  start : s.ifLeafUsed s.startLeaf = false ↔ (inner t.root).leaves = []
  tree : (inner t.root).leaves.Perm l

section Agrees

variable {t : FPTree} {s : World} {l chain : List PPointer} {p : PPointer}

theorem StoreInv.prev_eq_none_iff (h : StoreInv s chain) :
    p ∈ chain ∧ s.prev p = none ↔ chain.head? = some p := by
  constructor
  · rintro ⟨hp, hnone⟩
    obtain ⟨nd, hn⟩ := h.exists_node hp
    obtain ⟨l1, l2, rfl⟩ := List.append_of_mem hp
    rw [World.prev, hn, Option.bind_some, (h.links hn).2, List.getLast?_eq_none_iff] at hnone
    rw [hnone]
    rfl
  · intro hhead
    obtain ⟨l2, rfl⟩ := List.head?_eq_some_iff.mp hhead
    obtain ⟨nd, hn⟩ := h.exists_node (show p ∈ p :: l2 by simp)
    refine ⟨by simp, ?_⟩
    rw [World.prev, hn, Option.bind_some, (@StoreInv.links s [] l2 p h nd hn).2]
    rfl

theorem StoreInv.next_eq_none_iff (h : StoreInv s chain) :
    p ∈ chain ∧ s.next p = none ↔ chain.getLast? = some p := by
  constructor
  · rintro ⟨hp, hnone⟩
    obtain ⟨nd, hn⟩ := h.exists_node hp
    obtain ⟨l1, l2, rfl⟩ := List.append_of_mem hp
    rw [World.next, hn, Option.bind_some, (h.links hn).1, List.head?_eq_none_iff] at hnone
    rw [hnone, List.getLast?_concat]
  · intro hlast
    obtain ⟨l1, rfl⟩ := List.getLast?_eq_some_iff.mp hlast
    obtain ⟨nd, hn⟩ := h.exists_node (show p ∈ l1 ++ [p] by simp)
    refine ⟨by simp, ?_⟩
    rw [World.next, hn, Option.bind_some, (h.links hn).1]
    rfl

theorem entry_some (l : List PPointer) : entry some l none = l.head? := by
  cases l <;> rfl

theorem Consistent.agrees (hc : Consistent (t, s) chain) : Agrees t s chain := by
  have h := hc.store
  have hmem : ∀ p, p ∈ (inner t.root).leaves ↔ p ∈ chain := fun p => hc.leaves.mem_iff
  refine ⟨h.nodup, fun p => by rw [hmem]; exact h.prev_eq_none_iff,
    fun p => by rw [hmem]; exact h.next_eq_none_iff, ?_, ?_, ?_, ?_, ?_, ?_, hc.leaves⟩
  · intro fuel hf
    have hwalk : walk id s.next fuel (entry some chain none) = chain :=
      h.next.walk (fun _ _ => rfl) rfl fuel hf
    rwa [entry_some] at hwalk
  · intro fuel hf
    have hwalk : walk id s.prev fuel (entry some chain.reverse none) = chain.reverse :=
      h.prev.walk (fun _ _ => rfl) rfl fuel (by simpa using hf)
    rwa [entry_some, List.head?_reverse] at hwalk
  · exact fun fuel hf => h.walk_pNext hf
  · intro p hp
    obtain ⟨l1, rfl⟩ := List.getLast?_eq_some_iff.mp hp
    rw [(linked_concat.mp h.pNext).2]
    exact not_used_zero _
  · intro p hp
    rw [← h.used_iff]
    constructor
    · intro h1
      rw [World.ifLeafUsed, World.ifLeafFree, hp, h1]
      rfl
    · exact headerByte_eq_one h.alloc
  · cases chain with
    | nil =>
      rw [h.start, entry_nil, not_used_zero, List.perm_nil.mp hc.leaves]
      simp
    | cons p l =>
      rw [h.start, entry_cons, id_eq, (h.used_iff p).mpr (by simp)]
      have hne : (inner t.root).leaves ≠ [] := List.ne_nil_of_mem ((hmem p).mpr (by simp))
      simp [hne]

end Agrees

/-- The chain, the links and the allocator. After every session, with any keys, that
    starts with an empty store: following `next` from the leaf without a `prev`, `prev`
    from the leaf without a `next`, and `pNext` from `startLeaf` visits the leaves of the
    tree, in one order or its reverse; these are the leaves marked as used, and
    `startLeaf` is unused exactly when there are none. Every reload returns. -/
theorem chain_agrees (env : Env) (d : ℕ) (hd : 1 ≤ d) (ops : List StoreOp) (t : FPTree) (s : World)
    (hrun : run (StoreOp.step env) ops (emptyDb env d) = some (t, s)) :
    (∃ l, Agrees t s l) ∧
      ∀ d' : ℕ+, ∃ fuel db', (StoreOp.reload fuel d').step env (t, s) = some db' := by
  obtain ⟨chain, hc⟩ := session_consistent env hd ops hrun
  refine ⟨⟨chain, hc.agrees⟩, fun d' => ?_⟩
  obtain ⟨t', s', hres, -⟩ :=
    @Consistent.reload_some env t s chain hc d' d'.pos _ (Nat.lt_succ_self _)
  exact ⟨_, (t', s'), hres⟩

/-- An insertion, the deletion of the tree with a bulk load, and a removal that empties
    the store. -/
theorem chain_agrees_three : ∃ t s, run (StoreOp.step Env.flat)
    [.call Sys.ok (.insert 5 50), .reload 2 1, .call Sys.ok (.remove 5)]
    (emptyDb Env.flat 1) = some (t, s) ∧
    (∃ l, Agrees t s l) ∧ s.ifLeafUsed s.startLeaf = false := by
  have hrun : run (StoreOp.step Env.flat)
      [.call Sys.ok (.insert 5 50), .reload 2 1, .call Sys.ok (.remove 5)] (emptyDb Env.flat 1) =
      some (_, _) := rfl
  refine ⟨_, _, hrun, (chain_agrees Env.flat 1 le_rfl _ _ _ hrun).1, ?_⟩
  decide

/-! ## Lookups -/

/-- The slots that `find` and `update` read are live, and without a leaf they return
    `MAX_VALUE` and `false`. -/
def LookupsLive (env : Env) (t : FPTree) (s : World) (k : Key) (v : Value) : Prop :=
  (∀ r ∈ (Node.find env k (.inner t.root) s).1, r.index < r.nChild) ∧
  (∀ r ∈ (Node.update env k v (.inner t.root) s).1, r.index < r.nChild) ∧
  ((inner t.root).leaves = [] → t.find env k s = some MAX_VALUE ∧
    t.update env k v s = some (false, s))

/-- The slots that a lookup reads, from the node down. -/
def Node.reads (k : Key) : Node → List ChildRead
  | inner n => ⟨n.findIndex k, n.nChild⟩ :: reads k (n.childrens (n.findIndex k))
  | _ => []

section Lookups

variable {env : Env} {d : ℕ} {k : Key} {v : Value} {s : World}

theorem Node.find_reads : ∀ c : Node, (Node.find env k c s).1 = c.reads k
  | uninit => rfl
  | leaf _ => rfl
  | inner n => congrArg (List.cons _) (find_reads (n.childrens (n.findIndex k)))

theorem Node.update_reads : ∀ c : Node, (Node.update env k v c s).1 = c.reads k
  | uninit => rfl
  | leaf _ => rfl
  | inner n => congrArg (List.cons _) (update_reads (n.childrens (n.findIndex k)))

theorem Node.Shape.reads_live :
    ∀ {h : ℕ} {c : Node}, Shape d h c → ∀ r ∈ c.reads k, r.index < r.nChild := by
  intro h
  induction h with
  | zero =>
    intro c hc r hr
    obtain ⟨p, rfl, -⟩ := ranged_zero.mp hc
    cases hr
  | succ h ih =>
    intro c hc r hr
    obtain ⟨n, rfl, -, hf, hs⟩ := shape_succ.mp hc
    have hlt := hf.findIndex_lt k
    rcases List.mem_cons.mp hr with rfl | hr
    · exact hlt
    · exact ih (hs _ (InnerNode.mem_liveChildren.mpr ⟨_, hlt, rfl⟩)) r hr

end Lookups

/-- After every session, with any keys, lookups read live slots exactly when the store
    has a leaf. -/
theorem lookups_live_iff (env : Env) (d : ℕ) (hd : 1 ≤ d) (ops : List StoreOp) (t : FPTree)
    (s : World) (hrun : run (StoreOp.step env) ops (emptyDb env d) = some (t, s))
    (k : Key) (v : Value) :
    LookupsLive env t s k v ↔ t.root.nChild ≠ 0 := by
  obtain ⟨chain, hc⟩ := session_consistent env hd ops hrun
  obtain ⟨d, -, hempty | ⟨h, hr⟩⟩ := hc.tree
  · constructor
    · rintro ⟨hfind, -⟩
      have hread : (⟨t.root.findIndex k, t.root.nChild⟩ : ChildRead) ∈
          (Node.find env k (.inner t.root) s).1 := by
        rw [Node.find_reads]
        exact List.mem_cons_self
      have := hfind _ hread
      rw [hempty.nChild] at this
      cases this
    · exact fun h => absurd hempty.nChild h
  · have hlt := hr.filled.findIndex_lt k
    have hmem : t.root.childrens (t.root.findIndex k) ∈ t.root.liveChildren :=
      InnerNode.mem_liveChildren.mpr ⟨_, hlt, rfl⟩
    have hreads : ∀ r ∈ (inner t.root).reads k, r.index < r.nChild := by
      intro r hrd
      rcases List.mem_cons.mp hrd with rfl | hrd
      · exact hlt
      · exact (hr.shape_child _ hmem).reads_live r hrd
    obtain ⟨p, hp, -⟩ := (hr.shape_child _ hmem).exists_route k
    constructor
    · exact fun _ => (Nat.zero_le _).trans_lt hlt |>.ne'
    · refine fun _ => ⟨by rwa [Node.find_reads], by rwa [Node.update_reads], fun hnil => ?_⟩
      have := mem_leaves_of_child hlt hp
      rw [hnil] at this
      cases this

/-- Lookups on a store with one key. -/
theorem lookups_live_iff_one : ∃ t s, run (StoreOp.step Env.flat) [.call Sys.ok (.insert 5 50)]
    (emptyDb Env.flat 1) = some (t, s) ∧ t.root.nChild ≠ 0 ∧ LookupsLive Env.flat t s 7 70 := by
  have hrun : run (StoreOp.step Env.flat) [.call Sys.ok (.insert 5 50)] (emptyDb Env.flat 1) =
      some (_, _) := rfl
  refine ⟨_, _, hrun, by decide, ?_⟩
  exact (lookups_live_iff Env.flat 1 le_rfl _ _ _ hrun 7 70).mpr (by decide)

/-- A lookup in a fresh store reads the slot that was never written. -/
theorem lookup_fresh_dead :
    ¬ ∀ (env : Env) (d : ℕ), 1 ≤ d → ∀ (ops : List StoreOp) (t : FPTree) (s : World),
    run (StoreOp.step env) ops (emptyDb env d) = some (t, s) → ∀ (k : Key) (v : Value),
    LookupsLive env t s k v := by
  intro h
  obtain ⟨-, -, hnil⟩ := h Env.flat 1 le_rfl [] _ _ rfl 5 50
  have hfind := (hnil rfl).1
  cases hfind

end FPTreeDB
