import FPTreeDB.Tree.LeafOps
import FPTreeDB.Tree.Remove

/-!
# The operations of the store

`FPTree::insert`, `update` and `remove` on a tree and storage that satisfy `Inv`.

* `Inv.insert`: an insertion of a key that is not stored adds one pair.
* `Inv.insert_some`: it goes through as long as the allocator is sound.
* `Inv.update`: an update replaces the value of a stored key and nothing else.
* `Inv.remove`: a removal takes out the pair of its key, unless it chooses a left
  redistribution.
-/

namespace FPTreeDB

open SepChain Node

theorem pairsOf_append (s : World) (l1 l2 : List PPointer) :
    pairsOf s (l1 ++ l2) = pairsOf s l1 ++ pairsOf s l2 := List.flatMap_append

theorem pairsOf_cons (s : World) (p : PPointer) (l : List PPointer) :
    pairsOf s (p :: l) = (s.leafAt p).pairs LEAF_DEGREE ++ pairsOf s l := List.flatMap_cons

/-- Exchanging the pairs of some leaves in the middle of a list. -/
theorem pairsOf_middle {s s' : World} {l1 l2 m m' : List PPointer} {x y : List KeyValue}
    (hsame : ∀ q ∈ l1 ++ l2, SameLeaf s s' q) (h : (pairsOf s' m' ++ x).Perm (pairsOf s m ++ y)) :
    (pairsOf s' (l1 ++ (m' ++ l2)) ++ x).Perm (pairsOf s (l1 ++ (m ++ l2)) ++ y) := by
  have h1 : pairsOf s' l1 = pairsOf s l1 := pairsOf_congr fun q hq => hsame q (by simp [hq])
  have h2 : pairsOf s' l2 = pairsOf s l2 := pairsOf_congr fun q hq => hsame q (by simp [hq])
  rw [pairsOf_append, pairsOf_append, pairsOf_append, pairsOf_append, h1, h2, List.append_assoc,
    List.append_assoc, List.append_assoc, List.append_assoc]
  refine List.Perm.append_left _ ?_
  calc (pairsOf s' m' ++ (pairsOf s l2 ++ x)).Perm (pairsOf s' m' ++ (x ++ pairsOf s l2)) :=
        List.Perm.append_left _ List.perm_append_comm
    _ = (pairsOf s' m' ++ x) ++ pairsOf s l2 := (List.append_assoc ..).symm
    List.Perm _ ((pairsOf s m ++ y) ++ pairsOf s l2) := h.append_right _
    _ = pairsOf s m ++ (y ++ pairsOf s l2) := List.append_assoc ..
    List.Perm _ (pairsOf s m ++ (pairsOf s l2 ++ y)) :=
      List.Perm.append_left _ List.perm_append_comm

/-- No leaf of a tree with several leaves has fewer than `LEAF_DEGREE` entries. -/
def HalfFull (s : World) (l : List PPointer) : Prop :=
  l.length ≤ 1 ∨ ∀ p ∈ l, LEAF_DEGREE ≤ ((s.leafAt p).slots LEAF_DEGREE).length

section

variable {env : Env} {d h : ℕ} {t t' : FPTree} {s s' : World} {k : Key} {v : Value}

/-- The effect of an insertion of a key that is not stored. -/
structure StoreInserted (env : Env) (d : ℕ) (t : FPTree) (s : World) (k : Key) (v : Value)
    (t' : FPTree) (s' : World) : Prop where
  tree : ∃ h, RootRanged d (leafPred env LEAF_MAX s') h t'.root
  store : StoreInv s' (inner t'.root).leaves
  degree : t'.degree = t.degree
  pairs : (stored t' s').Perm (⟨k, v⟩ :: stored t s)
  halfFull : HalfFull s (inner t.root).leaves → HalfFull s' (inner t'.root).leaves
  disk : DiskInv s → DiskInv s'
  allocInv : AllocInv s → AllocInv s'

theorem StoreInserted.inv (hi : StoreInserted env d t s k v t' s') : Inv env d t' s' :=
  ⟨Or.inr hi.tree, hi.store⟩

/-- An insertion is the insertion into the leaf on the route, and then work on the
    inner nodes that depends on the state no more. -/
theorem Node.Ranged.insert_bind (env : Env) (v : Value) {P : LeafPred} {p : PPointer} :
    ∀ {h : ℕ} {lo hi : Option Key} {c : Node}, Ranged d P h lo hi c → c.route k = some p →
      ∃ F : Option (Key × PPointer) → Option Inserted, ∀ (sys : Sys) (s : World),
        Node.insert env sys k v c s =
          (LeafNode.insert env sys p k v s).bind fun x => (F x.1).map fun r => (r, x.2) := by
  intro h
  induction h with
  | zero =>
    intro lo hi c hc hr
    obtain ⟨q, rfl, -⟩ := ranged_zero.mp hc
    obtain rfl : q = p := Option.some.inj hr
    refine ⟨fun nc => some ⟨nc.map fun x => ⟨x.1, .leaf x.2⟩, .leaf q, none⟩, fun sys s => ?_⟩
    rw [Node.insert]
    rfl
  | succ h ih =>
    intro lo hi c hc hr
    obtain ⟨n, rfl, hroot, hf, hs⟩ := ranged_succ.mp hc
    obtain ⟨F, hF⟩ := ih (seps_child hs (hf.findIndex_lt k)).2.1 hr
    refine ⟨fun nc => (F nc).bind fun r =>
      (addChild env (n.setChild (n.findIndex k) r.node) r.newChild).bind fun x =>
        growRoot x.1 x.2 r.newRoot, fun sys s => ?_⟩
    rw [Node.insert, if_neg (by simp [hroot])]
    dsimp only
    rw [hF sys s]
    cases LeafNode.insert env sys p k v s with
    | none => rfl
    | some x =>
      cases hFx : F x.1 with
      | none =>
        simp only [Option.bind_eq_bind, Option.bind_some, hFx, Option.map_none, Option.bind_none]
      | some r =>
        simp only [Option.bind_eq_bind, Option.bind_some, hFx, Option.map_some]
        cases addChild env (n.setChild (n.findIndex k) r.node) r.newChild with
        | none => rfl
        | some y =>
          rw [Option.bind_some, Option.bind_some]
          cases growRoot y.1 y.2 r.newRoot <;> rfl

theorem Node.RootRanged.insert_bind (env : Env) (v : Value) {P : LeafPred} {p : PPointer}
    (hr : RootRanged d P h t.root) (hroute : (inner t.root).route k = some p) :
    ∃ F : Option (Key × PPointer) → Option FPTree, ∀ (sys : Sys) (s : World),
      t.insert env sys k v s =
        (LeafNode.insert env sys p k v s).bind fun x => (F x.1).map fun t' => (t', x.2) := by
  have hlt := hr.filled.findIndex_lt k
  have hchild := (seps_child hr.seps hlt).2.1
  obtain ⟨F, hF⟩ := hchild.insert_bind env v hroute
  by_cases h0 : t.root.isRoot = true ∧ t.root.nKeys = 0
  · have hc : ¬ t.root.nChild = 0 := by omega
    have hfind : t.root.findIndex k = 0 := by
      have := t.root.findIndex_le k
      omega
    rw [hfind] at hF
    -- the only leaf of the root, and a second one when it was split
    refine ⟨fun nc => (F nc).bind fun r => r.newChild.elim
      (t.afterInsert ⟨none, .inner (t.root.setChild 0 r.node), r.newRoot⟩) fun kn =>
        (pushKeyNode (t.root.setChild 0 r.node) kn).bind fun n =>
          t.afterInsert ⟨none, .inner n, r.newRoot⟩, fun sys s => ?_⟩
    rw [FPTree.insert, Node.insert, if_pos h0, if_neg hc, hF sys s]
    cases LeafNode.insert env sys p k v s with
    | none => rfl
    | some x =>
      cases hFx : F x.1 with
      | none =>
        simp only [Option.bind_eq_bind, Option.bind_some, hFx, Option.map_none, Option.bind_none]
      | some r =>
        simp only [Option.bind_eq_bind, Option.bind_some, hFx, Option.map_some]
        cases hn : r.newChild with
        | none =>
          dsimp only
          rw [Option.bind_some]
          cases t.afterInsert ⟨none, .inner (t.root.setChild 0 r.node), r.newRoot⟩ <;> rfl
        | some kn =>
          dsimp only [Option.elim_some]
          cases pushKeyNode (t.root.setChild 0 r.node) kn with
          | none => rfl
          | some n =>
            rw [Option.bind_some, Option.bind_some, Option.bind_some]
            cases t.afterInsert ⟨none, .inner n, r.newRoot⟩ <;> rfl
  · refine ⟨fun nc => (F nc).bind fun r =>
      (addChild env (t.root.setChild (t.root.findIndex k) r.node) r.newChild).bind fun x =>
        (growRoot x.1 x.2 r.newRoot).bind t.afterInsert, fun sys s => ?_⟩
    rw [FPTree.insert, Node.insert, if_neg h0]
    dsimp only
    rw [hF sys s]
    cases LeafNode.insert env sys p k v s with
    | none => rfl
    | some x =>
      cases hFx : F x.1 with
      | none =>
        simp only [Option.bind_eq_bind, Option.bind_some, hFx, Option.map_none, Option.bind_none]
      | some r =>
        simp only [Option.bind_eq_bind, Option.bind_some, hFx, Option.map_some]
        cases addChild env (t.root.setChild (t.root.findIndex k) r.node) r.newChild with
        | none => rfl
        | some y =>
          rw [Option.bind_some, Option.bind_some]
          cases growRoot y.1 y.2 r.newRoot with
          | none => rfl
          | some r' =>
            rw [Option.bind_some, Option.bind_some, Option.bind_some]
            cases t.afterInsert r' <;> rfl

/-- An insertion that returns has inserted into the leaf on the route. -/
theorem Node.RootRanged.insert_leaf {sys : Sys} {P : LeafPred} {p : PPointer}
    (hr : RootRanged d P h t.root) (hroute : (inner t.root).route k = some p)
    (hi : t.insert env sys k v s = some (t', s')) :
    ∃ nc, LeafNode.insert env sys p k v s = some (nc, s') := by
  obtain ⟨F, hF⟩ := hr.insert_bind env v hroute
  rw [hF, Option.bind_eq_some_iff] at hi
  obtain ⟨⟨nc, s1⟩, hleaf, hi⟩ := hi
  obtain ⟨t1, -, h1⟩ := Option.map_eq_some_iff.mp hi
  obtain ⟨-, rfl⟩ := Prod.mk.inj h1
  exact ⟨nc, hleaf⟩

/-- The leaf on the route and the leaves around it. -/
theorem Inv.route (hinv : Inv env d t s) (hr : RootRanged d (leafPred env LEAF_MAX s) h t.root)
    (k : Key) :
    ∃ l1 p l2, (inner t.root).leaves = l1 ++ p :: l2 ∧ (inner t.root).route k = some p ∧
      LeafWf env LEAF_MAX s p ∧ StoreInv s (l1 ++ p :: l2) ∧
      (k ∈ (stored t s).map KeyValue.k ↔ k ∈ (s.leafAt p).keys LEAF_DEGREE) := by
  obtain ⟨p, a, b, hroute, hp, hP, -⟩ := FPTreeDB.RootRanged.route hr k
  obtain ⟨l1, l2, hl⟩ := List.append_of_mem hp
  exact ⟨l1, p, l2, hl, hroute, hP.1, hl ▸ hinv.store, mem_stored_keys_iff hr hroute hp⟩

/-- The tree around a leaf that was inserted into. -/
theorem LeafInserted.leafInsert {l1 l2 : List PPointer} {p : PPointer}
    {nc : Option (Key × PPointer)} (hli : LeafInserted env s l1 p l2 k v nc s')
    (hres : LeafNode.insert env Sys.ok p k v s = some (nc, s')) :
    LeafInsert env Sys.ok (fun a b q => q ∈ l1 ++ p :: l2 ∧ leafPred env LEAF_MAX s a b q)
      (leafPred env LEAF_MAX s') k v s p nc s' := by
  refine ⟨hres, fun a b q hq => leafPred_gap a b q hq.2, leafPred_gap,
    fun a b hP hab d => hli.leaf a b hP.2 hab d, ?_, ?_⟩
  · rintro q hqp a b ⟨hq, hP⟩
    refine (hli.same q ?_).leafPred hP
    simp only [List.mem_append, List.mem_cons] at hq ⊢
    tauto
  · intro kn hkn
    cases nc with
    | none => cases hkn
    | some x =>
      obtain rfl := Option.some.inj hkn
      exact nKeysField_leaf_ne_zero env (hli.store.aligned (by simp [newLeaves]))

theorem LeafInserted.halfFull {l1 l2 : List PPointer} {p : PPointer} {nc : Option (Key × PPointer)}
    (hli : LeafInserted env s l1 p l2 k v nc s') (hh : HalfFull s (l1 ++ p :: l2)) :
    HalfFull s' (l1 ++ (newLeaves p nc ++ l2)) := by
  -- the leaves beside `p` had enough entries unless there were none
  have hother : 1 < (l1 ++ p :: l2).length →
      ∀ q ∈ l1 ++ p :: l2, LEAF_DEGREE ≤ ((s.leafAt q).slots LEAF_DEGREE).length := fun hlen =>
    hh.resolve_left (by omega)
  have hside : ∀ q ∈ l1 ++ l2, LEAF_DEGREE ≤ ((s'.leafAt q).slots LEAF_DEGREE).length :=
    fun q hq => by
      rw [(hli.same q hq).slots]
      refine hother ?_ q (by simp at hq ⊢; tauto)
      have := List.length_pos_of_mem hq
      simp only [List.length_append, List.length_cons] at *
      omega
  rcases hli.count with ⟨rfl, hcount⟩ | ⟨x, rfl, hp, hx⟩
  · rcases hh with hlen | hall
    · exact Or.inl (by simpa [newLeaves] using hlen)
    · refine Or.inr fun q hq => ?_
      by_cases hqp : q = p
      · subst hqp
        have := hall q (by simp)
        omega
      · exact hside q (by simp [newLeaves] at hq ⊢; tauto)
  · refine Or.inr fun q hq => ?_
    by_cases hqp : q = p
    · rw [hqp, hp]
    · by_cases hqx : q = x.2
      · rw [hqx, hx]
      · exact hside q (by simp [newLeaves] at hq ⊢; tauto)

/-- `FPTree::insert` into a tree that has a leaf. -/
theorem Inv.insert_leaf (hd : 1 ≤ d) (hinv : Inv env d t s)
    (hr : RootRanged d (leafPred env LEAF_MAX s) h t.root)
    (hk : k ∉ (stored t s).map KeyValue.k) {l1 l2 : List PPointer} {p : PPointer}
    {nc : Option (Key × PPointer)} (hl : (inner t.root).leaves = l1 ++ p :: l2)
    (hroute : (inner t.root).route k = some p)
    (hres : LeafNode.insert env Sys.ok p k v s = some (nc, s')) :
    ∃ t', t.insert env Sys.ok k v s = some (t', s') ∧ StoreInserted env d t s k v t' s' := by
  have hp : p ∈ (inner t.root).leaves := by simp [hl]
  obtain ⟨a, b, hP⟩ := FPTreeDB.RootRanged.leaf_pred hr hp
  have hst : StoreInv s (l1 ++ p :: l2) := hl ▸ hinv.store
  have hli := hP.1.insert hst (fun hk' => hk ((mem_stored_keys_iff hr hroute hp).mpr hk')) hres
  have hr1 : RootRanged d (fun a b q => q ∈ l1 ++ p :: l2 ∧
      leafPred env LEAF_MAX s a b q) h t.root :=
    hr.mono fun q hq a b hP => ⟨hl ▸ hq, hP⟩
  obtain ⟨t', h', hins, hdeg, hr', hrep⟩ :=
    Node.RootRanged.insert hd (hli.leafInsert hres) hr1 hroute hinv.store.nodup
  rw [hl] at hrep
  have hl' := hrep.eq_of_nodup hst.nodup
  refine ⟨t', hins, ⟨h', hr'⟩, hl' ▸ hli.store, hdeg, ?_, ?_, hli.disk, hli.allocInv⟩
  · have hone : pairsOf s [p] = (s.leafAt p).pairs LEAF_DEGREE := by simp [pairsOf]
    have hpairs : (pairsOf s' (newLeaves p nc) ++ []).Perm
        (pairsOf s [p] ++ [KeyValue.mk k v]) := by
      rw [List.append_nil, hone]
      exact hli.pairs.trans (List.perm_append_singleton _ _).symm
    have := pairsOf_middle hli.same hpairs
    rw [List.append_nil, List.singleton_append] at this
    show (pairsOf s' (inner t'.root).leaves).Perm (⟨k, v⟩ :: pairsOf s (inner t.root).leaves)
    rw [hl', hl]
    exact this.trans List.perm_append_comm
  · rw [hl, hl']
    exact hli.halfFull

/-- `FPTree::insert` of a key that is not stored, when it returns. -/
theorem Inv.insert (hd : 1 ≤ d) (hinv : Inv env d t s) (hk : k ∉ (stored t s).map KeyValue.k)
    (hres : t.insert env Sys.ok k v s = some (t', s')) : StoreInserted env d t s k v t' s' := by
  rcases hinv.tree with hempty | ⟨h, hr⟩
  · have hl := hempty.leaves_eq
    cases hc : LeafNode.create Sys.ok s with
    | mk q s0 =>
      cases q with
      | none =>
        simp [FPTree.insert, Node.insert, hempty.isRoot, hempty.nKeys, hempty.nChild, hc] at hres
      | some p =>
        have hst : StoreInv s [] := hl ▸ hinv.store
        obtain ⟨s1, hins, hst1, hP, hpairs, hdisk, halloc⟩ := hst.insert_first hc
        obtain ⟨t1, ht, hdeg, hr, hl1⟩ := hempty.insert hc hins hP
        rw [hres] at ht
        obtain ⟨rfl, rfl⟩ := Prod.mk.inj (Option.some.inj ht)
        refine ⟨⟨0, hr⟩, hl1 ▸ hst1, hdeg, ?_, fun _ => Or.inl (by simp [hl1]), hdisk, halloc⟩
        simp [stored, hl1, hl, hpairs]
  · obtain ⟨l1, p, l2, hl, hroute, -, -, -⟩ := hinv.route hr k
    obtain ⟨nc, hleaf⟩ := hr.insert_leaf hroute hres
    obtain ⟨t1, ht, hi⟩ := hinv.insert_leaf hd hr hk hl hroute hleaf
    rw [hres] at ht
    obtain ⟨rfl, -⟩ := Prod.mk.inj (Option.some.inj ht)
    exact hi

/-- An insertion returns as long as the allocator has its full invariant. -/
theorem Inv.insert_some (hd : 1 ≤ d) (hinv : Inv env d t s) (ha : AllocInv s)
    (hk : k ∉ (stored t s).map KeyValue.k) (v : Value) :
    ∃ t' s', t.insert env Sys.ok k v s = some (t', s') := by
  rcases hinv.tree with hempty | ⟨h, hr⟩
  · have hst : StoreInv s [] := hempty.leaves_eq ▸ hinv.store
    obtain ⟨p, s1, hg, -⟩ := ha.getLeaf_ok
    have hc : LeafNode.create Sys.ok s = (some p, s1.setNode p (some ⟨0, none, none⟩)) := by
      rw [LeafNode.create, hg]
    obtain ⟨s2, hins, -, hP, -⟩ := @StoreInv.insert_first env s p k v _ hst hc
    obtain ⟨t', ht, -⟩ := hempty.insert hc hins hP
    exact ⟨t', s2, ht⟩
  · obtain ⟨l1, p, l2, hl, hroute, hw, hst, hiff⟩ := hinv.route hr k
    obtain ⟨nc, s', hleaf⟩ := @LeafWf.insert_some env s l1 l2 p k v hw hst ha
    obtain ⟨t', ht, -⟩ := hinv.insert_leaf hd hr hk hl hroute hleaf
    exact ⟨t', s', ht⟩

/-- The effect of an update of a stored key. -/
structure StoreUpdated (env : Env) (d : ℕ) (t : FPTree) (s : World) (k : Key) (v : Value)
    (s' : World) : Prop where
  tree : ∃ h, RootRanged d (leafPred env LEAF_MAX s') h t.root
  store : StoreInv s' (inner t.root).leaves
  pairs : ∃ old rest, (stored t s).Perm (⟨k, old⟩ :: rest) ∧ (stored t s').Perm (⟨k, v⟩ :: rest)
  halfFull : HalfFull s (inner t.root).leaves → HalfFull s' (inner t.root).leaves
  disk : DiskInv s → DiskInv s'
  allocInv : AllocInv s → AllocInv s'

/-- `FPTree::update` on a tree that has a leaf. -/
theorem Inv.update (hinv : Inv env d t s) (hr : RootRanged d (leafPred env LEAF_MAX s) h t.root) :
    (k ∉ (stored t s).map KeyValue.k ∧ t.update env k v s = some (false, s)) ∨
    (k ∈ (stored t s).map KeyValue.k ∧
      ∃ s', t.update env k v s = some (true, s') ∧ StoreUpdated env d t s k v s') := by
  obtain ⟨l1, p, l2, hl, hroute, hw, hst, hiff⟩ := hinv.route hr k
  rw [hiff, FPTree.update, Node.update_eq, hroute, Option.bind_some]
  rcases @LeafWf.update env LEAF_MAX s l1 l2 p k v hw hst with hnone | ⟨hk, s', hres, hu⟩
  · exact Or.inl hnone
  · refine Or.inr ⟨hk, s', hres, ⟨h, ?_⟩, hl ▸ hu.store, ?_, ?_, hu.disk, hu.allocInv⟩
    · refine hr.mono fun q hq a b hP => ?_
      by_cases hqp : q = p
      · subst hqp
        exact hu.leaf a b hP
      · refine (hu.same q ?_).leafPred hP
        rw [hl] at hq
        simp only [List.mem_append, List.mem_cons] at hq ⊢
        tauto
    · obtain ⟨old, rest, h1, h2⟩ := hu.pairs
      refine ⟨old, pairsOf s l1 ++ (rest ++ pairsOf s l2), ?_, ?_⟩
      · show (pairsOf s (inner t.root).leaves).Perm _
        rw [hl, pairsOf_append, pairsOf_cons]
        refine ((h1.append_right _).append_left _).trans ?_
        rw [List.cons_append]
        exact List.perm_middle
      · show (pairsOf s' (inner t.root).leaves).Perm _
        rw [hl, pairsOf_append, pairsOf_cons,
          pairsOf_congr fun q hq => hu.same q (List.mem_append_left _ hq),
          pairsOf_congr fun q hq => hu.same q (List.mem_append_right _ hq)]
        refine ((h2.append_right _).append_left _).trans ?_
        rw [List.cons_append]
        exact List.perm_middle
    · rintro (hlen | hall)
      · exact Or.inl hlen
      · refine Or.inr fun q hq => ?_
        have hslots : (s'.leafAt q).slots LEAF_DEGREE = (s.leafAt q).slots LEAF_DEGREE := by
          by_cases hqp : q = p
          · subst hqp
            exact hu.slots
          · refine (hu.same q ?_).slots
            rw [hl] at hq
            simp only [List.mem_append, List.mem_cons] at hq ⊢
            tauto
        rw [hslots]
        exact hall q hq

/-! ## Removal -/

/-- The range of a leaf that is taken out goes to a neighbour. -/
theorem leafPred_widenLow {cap cap' : ℕ} {a b : Option Key} {x : Key} {p q : PPointer}
    (hp : leafPred env cap s a (some x) p) (hq : leafPred env cap' s' (some x) b q) :
    leafPred env cap' s' a b q := by
  have hgap := leafPred_gap _ _ _ hp
  refine ⟨hq.1, fun k hk => ⟨fun l hl => ?_, (hq.2 k hk).2⟩⟩
  exact (hgap l hl x rfl).le.trans ((hq.2 k hk).1 x rfl)

theorem leafPred_widenUpp {cap cap' : ℕ} {a b : Option Key} {x : Key} {p q : PPointer}
    (hq : leafPred env cap' s' a (some x) q) (hp : leafPred env cap s (some x) b p) :
    leafPred env cap' s' a b q := by
  have hgap := leafPred_gap _ _ _ hp
  refine ⟨hq.1, fun k hk => ⟨(hq.2 k hk).1, fun u hu => ?_⟩⟩
  exact ((hq.2 k hk).2 x rfl).trans (hgap x rfl u hu)

/-- The effect of a call of `remove` that returned `r`. -/
structure StoreRemoved (env : Env) (sys : Sys) (d : ℕ) (t : FPTree) (s : World) (k : Key)
    (r : FPTree.Removed) : Prop where
  inv : Inv env d r.tree r.world
  degree : r.tree.degree = t.degree
  outcome : (r.ifRemove = false ∧ k ∉ (stored t s).map KeyValue.k ∧ r.world = s ∧
      stored r.tree r.world = stored t s) ∨
    (r.ifRemove = true ∧ ∃ old, (stored t s).Perm (⟨k, old⟩ :: stored r.tree r.world))
  disk : sys = Sys.ok → DiskInv s → DiskInv r.world
  allocInv : AllocInv s → AllocInv r.world

/-- The tree around a leaf that was removed from. -/
theorem LeafRemoved.leafRemove {sys : Sys} {l1 l2 : List PPointer} {p : PPointer} {rm del : Bool}
    {s1 : World} (hlr : LeafRemoved env sys LEAF_MAX s l1 p l2 k false (rm, del, s1))
    (hres : LeafNode.remove env sys p k false s = some (rm, del, s1)) :
    LeafRemove env sys (fun a b q => q ∈ l1 ++ p :: l2 ∧ leafPred env LEAF_MAX s a b q)
      (leafPred env LEAF_MAX (removedWorld p del s1)) k s p rm del s1 := by
  have hmem : ∀ q, q ≠ p → q ∈ l1 ++ p :: l2 → q ∈ l1 ++ l2 := fun q hqp hq => by
    simp only [List.mem_append, List.mem_cons] at hq ⊢
    tauto
  refine ⟨hres, ?_, ?_, fun a b x q hp hq => leafPred_widenLow hp.2 hq,
    fun a b x q hq hp => leafPred_widenUpp hq hp.2⟩
  · cases hlr with
    | absent hk => exact fun _ a b hP => hP.2
    | shrunk hk h => exact fun _ a b hP => h.leaf a b hP.2
    | emptied hk h => exact fun hdel => absurd hdel (by simp)
  · rintro q hqp a b ⟨hq, hP⟩
    cases hlr with
    | absent hk => exact hP
    | shrunk hk h => exact (h.same q (hmem q hqp hq)).leafPred hP
    | emptied hk h => exact (h.dropped.same q (hmem q hqp hq)).leafPred hP

/-- The leaves and pairs after a removal from the leaf at `p`. -/
theorem LeafRemoved.store {sys : Sys} {l1 l2 : List PPointer} {p : PPointer} {rm del : Bool}
    {s1 : World} (hst : StoreInv s (l1 ++ p :: l2))
    (hlr : LeafRemoved env sys LEAF_MAX s l1 p l2 k false (rm, del, s1)) :
    StoreInv (removedWorld p del s1) (l1 ++ (remains p del ++ l2)) ∧
      ((rm = false ∧ k ∉ (s.leafAt p).keys LEAF_DEGREE ∧ removedWorld p del s1 = s ∧ del = false) ∨
        (rm = true ∧ ∃ old, (pairsOf s (l1 ++ p :: l2)).Perm
          (⟨k, old⟩ :: pairsOf (removedWorld p del s1) (l1 ++ (remains p del ++ l2))))) ∧
      (sys = Sys.ok → DiskInv s → DiskInv (removedWorld p del s1)) ∧
      (AllocInv s → AllocInv (removedWorld p del s1)) := by
  have hone : ∀ s : World, pairsOf s [p] = (s.leafAt p).pairs LEAF_DEGREE :=
    fun s => by simp [pairsOf]
  -- the pairs of the other leaves, around those of `p`
  have hmiddle : ∀ (s' : World) (m' : List PPointer) (old : Value),
      (∀ q ∈ l1 ++ l2, SameLeaf s s' q) →
      ((s.leafAt p).pairs LEAF_DEGREE).Perm (⟨k, old⟩ :: pairsOf s' m') →
      (pairsOf s (l1 ++ p :: l2)).Perm (⟨k, old⟩ :: pairsOf s' (l1 ++ (m' ++ l2))) := by
    intro s' m' old hsame hp
    have hp' : (pairsOf s' m' ++ [KeyValue.mk k old]).Perm (pairsOf s [p] ++ []) := by
      rw [hone, List.append_nil]
      exact (List.perm_append_singleton _ _).trans hp.symm
    have := pairsOf_middle hsame hp'
    rw [List.append_nil, List.singleton_append] at this
    exact (this.symm).trans (List.perm_append_singleton _ _)
  cases hlr with
  | absent hk => exact ⟨hst, Or.inl ⟨rfl, hk, rfl, rfl⟩, fun _ => id, id⟩
  | shrunk hk h =>
    obtain ⟨old, hp⟩ := h.pairs
    exact ⟨h.store, Or.inr ⟨rfl, old, hmiddle s1 [p] old h.same (by rw [hone]; exact hp)⟩,
      fun _ => h.disk, h.allocInv⟩
  | emptied hk h =>
    obtain ⟨old, hp⟩ := h.pairs
    refine ⟨h.dropped.store, Or.inr ⟨rfl, old, hmiddle _ [] old h.dropped.same ?_⟩, h.disk,
      h.dropped.allocInv⟩
    rw [hp]
    exact List.Perm.refl _

/-- `FPTree::remove`: it returns unless a left redistribution was chosen. -/
theorem Inv.remove (hd : 1 ≤ d) (sys : Sys) (k : Key) (hinv : Inv env d t s) :
    (∃ log, t.remove env sys k s = .error log ∧ .redistributeLeft ∈ log) ∨
    ∃ r, t.remove env sys k s = .ok r ∧ StoreRemoved env sys d t s k r := by
  rcases hinv.tree with hempty | ⟨h, hr⟩
  · right
    have hres : t.remove env sys k s = .ok ⟨false, t, s, []⟩ := by
      have hnode : Node.remove env sys k (.inner t.root) (-1) none false s =
          .ok ⟨false, ⟨false, .inner t.root, none, []⟩, s⟩ := by
        rw [Node.remove, if_pos ⟨hempty.isRoot, hempty.nKeys⟩, if_neg (by rw [hempty.nChild]; simp)]
      rw [FPTree.remove, hnode]
    refine ⟨_, hres, hinv, rfl, Or.inl ⟨rfl, ?_, rfl, rfl⟩, fun _ => id, id⟩
    simp [stored, hempty.leaves_eq]
  · obtain ⟨l1, p, l2, hl, hroute, hw, hst, hiff⟩ := hinv.route hr k
    obtain ⟨⟨rm, del, s1⟩, hres, hlr⟩ := @LeafWf.remove env LEAF_MAX s l1 l2 p k sys false hw hst
    have hr1 : RootRanged d (fun a b q => q ∈ l1 ++ p :: l2 ∧
        leafPred env LEAF_MAX s a b q) h t.root :=
      hr.mono fun q hq a b hP => ⟨hl ▸ hq, hP⟩
    rcases Node.RootRanged.remove hd (hlr.leafRemove hres) hr1 hroute hinv.store.nodup with
      herr | ⟨n, log, hok, htree, hrep⟩
    · exact Or.inl herr
    · right
      rw [hl] at hrep
      have hl' := hrep.eq_of_nodup hst.nodup
      obtain ⟨hstore, hpairs, hdisk, halloc⟩ := hlr.store hst
      refine ⟨_, hok, ⟨htree, hl' ▸ hstore⟩, rfl, ?_, hdisk, halloc⟩
      have hafter : stored { t with root := n } (removedWorld p del s1) =
          pairsOf (removedWorld p del s1) (l1 ++ (remains p del ++ l2)) := by
        show pairsOf _ (inner n).leaves = _
        rw [hl']
      have hbefore : stored t s = pairsOf s (l1 ++ p :: l2) := by
        show pairsOf s (inner t.root).leaves = _
        rw [hl]
      rcases hpairs with ⟨rfl, hk, hworld, rfl⟩ | ⟨rfl, hperm⟩
      · refine Or.inl ⟨rfl, by rwa [hiff], hworld, ?_⟩
        rw [hafter, hbefore, hworld]
        rfl
      · refine Or.inr ⟨rfl, ?_⟩
        dsimp only
        rw [hafter, hbefore]
        exact hperm

end

end FPTreeDB
