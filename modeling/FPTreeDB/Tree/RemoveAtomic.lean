import FPTreeDB.Tree.CrashAtomic

/-!
# Stops inside a removal

In a store made by inserts and updates every leaf is at least half full, unless it is the
only one. A removal therefore clears one bit and persists the leaf, and no leaf is freed
but the last: then `freeLeaf` writes a catalog without a first leaf before the group
header, and on the tree loaded from there `find` reads a slot that was never written.

* `remove_atomic_iff`: stopped anywhere in the work of `LeafNode::remove`, the store
  recovers to what it was before the call or after it exactly when another key is stored.
-/

namespace FPTreeDB

open PAllocator Runs Node Links

/-- The call returns, and stopped before, inside or after the work on the leaf, the store
    recovers to the map `m` or to `m` without `k`. -/
def RemoveAtomic (env : Env) (k : Key) (m : Key → Option Value) (t : FPTree) (s : World) : Prop :=
  ∃ r p rm del s1 points, t.remove env Sys.ok k s = .ok r ∧ (inner t.root).route k = some p ∧
    LeafNode.remove env Sys.ok p k false s = some (rm, del, s1) ∧ r.world = removedWorld p del s1 ∧
    s1.trace = s.trace ++ points ∧ ∀ D ∈ s.disk :: points,
      Recovers env D (answers m) ∨ Recovers env D (answers (Function.update m k none))

/-! ## The leaf -/

section Leaf

variable {env : Env} {cap : ℕ} {s : World} {p : PPointer} {k : Key} {l1 l2 : List PPointer}

/-- A removal from a leaf with another entry persists the leaf once. -/
theorem LeafWf.remove_oneWrite (hw : LeafWf env cap s p) (hk : k ∈ (s.leafAt p).keys LEAF_DEGREE)
    (hlen : 2 ≤ ((s.leafAt p).slots LEAF_DEGREE).length) :
    ∃ s1, LeafNode.remove env Sys.ok p k false s = some (true, false, s1) ∧ OneWrite s s1 := by
  obtain ⟨nd, hn, hnn⟩ := hw.exists_node
  cases hf : (s.leafAt p).findSlot env.keyHash LEAF_DEGREE k with
  | none => exact absurd hk (LeafImage.findSlot_eq_none hw.ok.fingerprint hf)
  | some i =>
    refine ⟨s.clearSlot p nd i, ?_, edit_oneWrite⟩
    rw [remove_eq_some hn hf, if_neg (by omega)]

theorem unlist_trace (p : PPointer) (s : World) :
    ∃ u, (unlist Sys.ok p s).trace = s.trace ++ u := by
  unfold unlist
  simp only [Sys.ok_openFreeList, if_true]
  split_ifs
  · exact ⟨_, by simp only [rewriteFreeList, persistCatalog, World.commit, Sys.ok, if_true,
      List.append_assoc]; rfl⟩
  · exact ⟨_, by simp only [rewriteFreeList, World.commit, List.append_assoc]; rfl⟩

/-- `freeLeaf` appends to the trace and ends with a write. -/
theorem releaseLeaf_trace (p : PPointer) (s : World) :
    ∃ u, (releaseLeaf Sys.ok p s).trace = s.trace ++ u ++ [(releaseLeaf Sys.ok p s).disk] := by
  obtain ⟨u, hu⟩ := unlist_trace p s
  refine ⟨u, ?_⟩
  rw [← hu, releaseLeaf_eq]
  rfl

/-- When the first leaf is freed, the catalog on storage names the leaf after it. -/
theorem releaseLeaf_catalog (hstart : s.startLeaf = p) : ∃ c,
    (releaseLeaf Sys.ok p s).disk.catalog = some c ∧ c.startLeaf = (s.leafAt p).pNext := by
  rw [releaseLeaf, if_pos hstart]
  exact ⟨_, rfl, rfl⟩

/-- The removal of the last entry of the only leaf: on the storage that it leaves behind
    the catalog names no leaf. -/
theorem LeafWf.remove_only (hw : LeafWf env cap s p) (hst : StoreInv s [p]) (hs : Synced s)
    (hk : k ∈ (s.leafAt p).keys LEAF_DEGREE) (hlen : ((s.leafAt p).slots LEAF_DEGREE).length = 1) :
    ∃ s1 u, LeafNode.remove env Sys.ok p k false s = some (true, true, s1) ∧
      s1.trace = s.trace ++ u ++ [s1.disk] ∧
      (PAllocator.construct env Sys.ok s1.disk).ifLeafUsed
        (PAllocator.construct env Sys.ok s1.disk).startLeaf = false := by
  obtain ⟨nd, hn, hnn⟩ := hw.exists_node
  cases hf : (s.leafAt p).findSlot env.keyHash LEAF_DEGREE k with
  | none => exact absurd hk (LeafImage.findSlot_eq_none hw.ok.fingerprint hf)
  | some i =>
    set x := s.clearSlot p nd i with hx
    have hxst : StoreInv x [p] := hst.edit hn rfl rfl rfl
    have hxn : x.nodes p = some { nd with n := nd.n - 1 } := edit_nodes_self
    have hxs : Synced x := hs.setLeaf_persistLeaf _
    have hspec := releaseLeaf_spec Sys.ok p x
    have hlinks := @StoreInv.links x [] [] p hxst _ hxn
    have hunlink : LeafNode.unlink p (releaseLeaf Sys.ok p x) = some (releaseLeaf Sys.ok p x) := by
      have hprev : nd.prev = none := hlinks.2
      have hnext : nd.next = none := hlinks.1
      simp [LeafNode.unlink, hspec.nodes, hxn, hprev, hnext]
    obtain ⟨u, hu⟩ := releaseLeaf_trace p x
    obtain ⟨c, hc, hstart⟩ := @releaseLeaf_catalog x p hxst.start
    have hfile : (releaseLeaf Sys.ok p x).disk.freeList.isSome = true := by
      rw [releaseLeaf_file]
      rfl
    refine ⟨releaseLeaf Sys.ok p x, [x.disk] ++ u, ?_, ?_, ?_⟩
    · rw [remove_eq_some hn hf, if_pos (by omega),
        freeLeaf_of_used ((hxst.used_iff p).mpr (by simp)), hunlink]
      rfl
    · rw [hu, ← List.append_assoc]
      rfl
    · have hzero : c.startLeaf = PPointer.zero := hstart.trans hxst.pNext.1
      rw [(construct_of_files (hspec.synced hxs) hc hfile).1, hzero]
      exact not_used_zero _

end Leaf

/-! ## The store -/

section Store

variable {env : Env} {d h cap : ℕ} {t : FPTree} {s : World} {p : PPointer} {k : Key}
  {l1 l2 : List PPointer} {m : Key → Option Value}

/-- In a half-full store with two keys, the leaf of either has two entries. -/
theorem two_le_slots {k' : Key} (hhalf : HalfFull s (l1 ++ p :: l2))
    (hkp : k ∈ (s.leafAt p).keys LEAF_DEGREE)
    (hk' : ∃ q ∈ l1 ++ p :: l2, k' ∈ (s.leafAt q).keys LEAF_DEGREE) (hne : k' ≠ k) :
    2 ≤ ((s.leafAt p).slots LEAF_DEGREE).length := by
  rcases hhalf with hone | hhalf
  · -- the other key is in the same leaf
    obtain ⟨q, hq, hk'⟩ := hk'
    have hl1 : l1 = [] := List.length_eq_zero_iff.mp (by simp at hone; omega)
    have hl2 : l2 = [] := List.length_eq_zero_iff.mp (by simp at hone; omega)
    subst hl1 hl2
    obtain rfl := List.mem_singleton.mp hq
    rw [← LeafImage.length_keys]
    have hsub : [k', k] ⊆ (s.leafAt q).keys LEAF_DEGREE := by
      intro x hx
      rcases List.mem_cons.mp hx with rfl | hx
      · exact hk'
      · rw [List.mem_singleton.mp hx]
        exact hkp
    exact (List.subperm_of_subset (by simpa using hne) hsub).length_le
  · have := hhalf p (by simp)
    simp only [LEAF_DEGREE] at *
    omega

/-- A store with one key has one leaf, with one entry. -/
theorem only_key (hr : RootRanged d (leafPred env cap s) h t.root)
    (hl : (inner t.root).leaves = l1 ++ p :: l2) (hnd : (l1 ++ p :: l2).Nodup)
    (hroute : (inner t.root).route k = some p) (honly : ∀ x ∈ (stored t s).map KeyValue.k, x = k) :
    l1 = [] ∧ l2 = [] ∧ ((s.leafAt p).slots LEAF_DEGREE).length = 1 := by
  have hleaf : ∀ q ∈ (inner t.root).leaves, q = p := by
    intro q hq
    obtain ⟨a, b, hP⟩ := FPTreeDB.RootRanged.leaf_pred hr hq
    obtain ⟨x, hx⟩ := hP.1.exists_key
    have hxk : x = k := honly x (mem_stored_keys.mpr ⟨q, hq, hx⟩)
    have hxr := FPTreeDB.RootRanged.route_of_mem hr hq hx
    rw [hxk, hroute] at hxr
    exact (Option.some.inj hxr).symm
  rw [hl] at hleaf
  have hnot : p ∉ l1 ++ l2 := by
    rw [List.nodup_middle, List.nodup_cons] at hnd
    exact hnd.1
  have hnil : l1 ++ l2 = [] := by
    refine List.eq_nil_iff_forall_not_mem.mpr fun q hq => hnot ?_
    rw [← hleaf q (by simp only [List.mem_append, List.mem_cons] at hq ⊢; tauto)]
    exact hq
  obtain ⟨rfl, rfl⟩ := List.append_eq_nil_iff.mp hnil
  obtain ⟨a, b, hP⟩ := FPTreeDB.RootRanged.leaf_pred hr
    (show p ∈ (inner t.root).leaves by rw [hl]; simp)
  have hkeys : ∀ x ∈ (s.leafAt p).keys LEAF_DEGREE, x = k := fun x hx =>
    honly x (mem_stored_keys.mpr ⟨p, by rw [hl]; simp, hx⟩)
  have hle : ((s.leafAt p).keys LEAF_DEGREE).length ≤ [k].length :=
    (List.subperm_of_subset hP.1.ok.distinct fun x hx => by simp [hkeys x hx]).length_le
  rw [LeafImage.length_keys] at hle
  have hpos := hP.1.pos
  exact ⟨rfl, rfl, le_antisymm hle hpos⟩

theorem WriteInv.remove_atomic (h : WriteInv env (t, s) m) (hcat : CatalogCurrent s)
    (hk : (m k).isSome = true) {k' : Key} (hne : k' ≠ k) (hk' : (m k').isSome = true) :
    RemoveAtomic env k m t s := by
  obtain ⟨d, hd, hinv⟩ := h.inv
  have hks := h.represents.mem_keys.mpr hk
  rcases hinv.tree with hempty | ⟨_, hr⟩
  · rw [stored, hempty.leaves_eq] at hks
    cases hks
  obtain ⟨l1, p, l2, hl, hroute, hw, hst, hiff⟩ := hinv.route hr k
  have hkp := hiff.mp hks
  have hother := mem_stored_keys.mp (h.represents.mem_keys.mpr hk')
  rw [hl] at hother
  have hhalf := h.halfFull
  rw [hl] at hhalf
  obtain ⟨s1, hrem, hone⟩ := hw.remove_oneWrite hkp (two_le_slots hhalf hkp hother hne)
  obtain ⟨t', hres⟩ := hr.shape.shape_remove_kept hroute hrem
  have h' : DbInv env (t', s1) (Function.update m k none) := h.toDbInv.remove hres
  -- the other key is still there
  have hne' : (inner t'.root).leaves ≠ [] := by
    intro hnil
    have hmem : k' ∈ (stored t' s1).map KeyValue.k :=
      h'.represents.mem_keys.mpr (by rw [Function.update_of_ne hne]; exact hk')
    rw [stored, hnil] at hmem
    cases hmem
  refine ⟨_, p, true, false, s1, [s1.disk], hres, hroute, hrem, rfl, hone.trace, fun D hD => ?_⟩
  rcases List.mem_cons.mp hD with rfl | hD
  · exact Or.inl (h.recovers_answers hcat.covers hr.leaves_ne_nil)
  · obtain rfl := List.mem_singleton.mp hD
    exact Or.inr (h'.recovers_answers (hone.current hcat).covers hne')

theorem WriteInv.not_remove_atomic (h : WriteInv env (t, s) m) (hk : (m k).isSome = true)
    (honly : ∀ k', (m k').isSome = true → k' = k) : ¬ RemoveAtomic env k m t s := by
  rintro ⟨r, q, rm, del, s1, points, -, hq, hrem, -, htrace, hpoints⟩
  obtain ⟨d, hd, hinv⟩ := h.inv
  have hks := h.represents.mem_keys.mpr hk
  rcases hinv.tree with hempty | ⟨_, hr⟩
  · rw [stored, hempty.leaves_eq] at hks
    cases hks
  obtain ⟨l1, p, l2, hl, hroute, hw, hst, hiff⟩ := hinv.route hr k
  obtain ⟨rfl, rfl, hlen⟩ := only_key hr hl hst.nodup hroute fun x hx =>
    honly x (h.represents.mem_keys.mp hx)
  obtain rfl : q = p := Option.some.inj (hq.symm.trans hroute)
  obtain ⟨s2, u, hrem', htrace', hunused⟩ := hw.remove_only hst h.disk.synced (hiff.mp hks) hlen
  rw [hrem] at hrem'
  obtain ⟨-, hpair⟩ := Prod.mk.inj (Option.some.inj hrem')
  obtain ⟨-, rfl⟩ := Prod.mk.inj hpair
  -- the last of the points is the storage after `freeLeaf`
  have hlast : points = u ++ [s1.disk] := by
    rw [htrace, List.append_assoc] at htrace'
    exact List.append_cancel_left htrace'
  rcases hpoints s1.disk (by simp [hlast]) with hrec | hrec
  · exact @not_recovers_of_unused env _ (answers m) k _ hunused rfl hrec
  · exact @not_recovers_of_unused env _ (answers (Function.update m k none)) k _ hunused rfl hrec

end Store

/-- Crash atomicity of `remove`. For every store reached by inserts of fresh keys, updates
    and clean reopenings, whose catalog on storage is current, and every stored key: the
    removal, stopped anywhere in its work on the leaf, recovers to the store before the call
    or after it if and only if another key is stored. -/
theorem remove_atomic_iff (env : Env) (d : ℕ) (hd : 1 ≤ d) (acts : List DbAct)
    (hacts : Allowed DbAct.WritePre DbAct.apply acts fun _ => none) (t : FPTree) (s : World)
    (hrun : run (DbAct.step env) acts (emptyDb env d) = some (t, s))
    (hcat : CatalogCurrent s) (k : Key)
    (hk : (runSpec DbAct.apply acts (fun _ => none) k).isSome = true) :
    RemoveAtomic env k (runSpec DbAct.apply acts fun _ => none) t s ↔
      ∃ k', k' ≠ k ∧ (runSpec DbAct.apply acts (fun _ => none) k').isSome = true := by
  have h := acts_writeInv env hd acts hacts hrun
  constructor
  · intro hatomic
    by_contra hnone
    refine h.not_remove_atomic hk (fun k' hk' => ?_) hatomic
    by_contra hne
    exact hnone ⟨k', hne, hk'⟩
  · rintro ⟨k', hne, hk'⟩
    exact h.remove_atomic hcat hk hne hk'

/-- The removal of one of two keys. -/
theorem remove_atomic_iff_two : ∃ t s, run (DbAct.step Env.flat)
    [.call (.insert 5 50), .call (.insert 6 60), .reopen 2 1] (emptyDb Env.flat 1) = some (t, s) ∧
    RemoveAtomic Env.flat 5 (runSpec DbAct.apply
      [.call (.insert 5 50), .call (.insert 6 60), .reopen 2 1]
      fun _ => none) t s := by
  have hrun : run (DbAct.step Env.flat) [.call (.insert 5 50), .call (.insert 6 60), .reopen 2 1]
      (emptyDb Env.flat 1) = some (_, _) := rfl
  refine ⟨_, _, hrun, ?_⟩
  refine (remove_atomic_iff Env.flat 1 le_rfl
    [.call (.insert 5 50), .call (.insert 6 60), .reopen 2 1]
    ⟨⟨rfl, rfl⟩, ⟨rfl, rfl⟩, trivial, trivial⟩ _ _ hrun ⟨⟨2, 15, groupPointer 1 15⟩, ?_, ?_,
      ?_⟩ 5 rfl).mpr
    ⟨6, by decide, rfl⟩
  · decide +kernel
  · decide +kernel
  · decide +kernel

/-- The removal of the only key. -/
theorem remove_only_loses : ¬ ∀ (env : Env) (d : ℕ), 1 ≤ d → ∀ (acts : List DbAct),
    Allowed DbAct.WritePre DbAct.apply acts (fun _ => none) → ∀ (t : FPTree) (s : World),
    run (DbAct.step env) acts (emptyDb env d) = some (t, s) → CatalogCurrent s → ∀ k,
    (runSpec DbAct.apply acts (fun _ => none) k).isSome = true →
    RemoveAtomic env k (runSpec DbAct.apply acts fun _ => none) t s := by
  intro h
  have hatomic := h Env.flat 1 le_rfl [.call (.insert 5 50), .reopen 2 1]
    ⟨⟨rfl, rfl⟩, trivial, trivial⟩ _ _ rfl ⟨_, rfl, rfl, rfl⟩ 5 rfl
  have hinv := acts_writeInv Env.flat le_rfl [.call (.insert 5 50), .reopen 2 1]
    ⟨⟨rfl, rfl⟩, trivial, trivial⟩ rfl
  refine hinv.not_remove_atomic rfl (fun k' hk' => ?_) hatomic
  by_contra hne
  have hnone : runSpec DbAct.apply [.call (.insert 5 50), .reopen 2 1] (fun _ => none) k' = none :=
    @DbOp.apply_of_ne (.insert 5 50) (fun _ => none) k' hne
  rw [hnone] at hk'
  cases hk'

end FPTreeDB
