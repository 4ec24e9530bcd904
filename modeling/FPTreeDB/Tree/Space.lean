import FPTreeDB.Tree.Reopen

/-!
# The height of the tree and the number of leaf groups

* `lookup_reads`: how many child slots a lookup reads, against the number of leaves and of
  stored pairs.
* `groups_eq_peak`: the leaf groups made by one process are those that the largest number
  of leaves needs.
-/

namespace FPTreeDB

open PAllocator Runs Node SepChain

/-! ## Levels -/

section Height

variable {env : Env} {d h : ℕ} {P : LeafPred} {t : FPTree} {s : World} {k : Key}

theorem Node.Ranged.length_reads : ∀ {h : ℕ} {lo hi : Option Key} {c : Node}, Ranged d P h lo hi c →
    (c.reads k).length = h := by
  intro h
  induction h with
  | zero =>
    intro lo hi c hc
    obtain ⟨p, rfl, -⟩ := ranged_zero.mp hc
    rfl
  | succ h ih =>
    intro lo hi c hc
    obtain ⟨n, rfl, -, hf, hs⟩ := ranged_succ.mp hc
    rw [reads, List.length_cons, ih (seps_child hs (hf.findIndex_lt k)).2.1]

theorem Node.length_leaves_inner (n : InnerNode Node) :
    (inner n).leaves.length = ∑ i ∈ Finset.range n.nChild, (n.childrens i).leaves.length := by
  rw [leaves, List.length_flatMap, Finset.sum_range]
  rw [← List.sum_ofFn]
  congr 1
  rw [List.ofFn_eq_map, ← List.map_coe_finRange_eq_range, List.map_map]
  rfl

/-- The leaves below a node, when the number of leaves below each child is known up to bounds. -/
theorem Node.length_leaves_bounds {n : InnerNode Node} {a b : ℕ}
    (h : ∀ i < n.nChild, a ≤ (n.childrens i).leaves.length ∧ (n.childrens i).leaves.length ≤ b) :
    n.nChild * a ≤ (inner n).leaves.length ∧ (inner n).leaves.length ≤ n.nChild * b := by
  rw [length_leaves_inner]
  constructor
  · simpa using Finset.card_nsmul_le_sum (Finset.range n.nChild) _ a fun i hi =>
      (h i (by simpa using hi)).1
  · simpa using Finset.sum_le_card_nsmul (Finset.range n.nChild) _ b fun i hi =>
      (h i (by simpa using hi)).2

theorem Node.Ranged.length_leaves :
    ∀ {h : ℕ} {lo hi : Option Key} {c : Node}, Ranged d P h lo hi c →
    (d + 1) ^ h ≤ c.leaves.length ∧ c.leaves.length ≤ (2 * d + 1) ^ h := by
  intro h
  induction h with
  | zero =>
    intro lo hi c hc
    obtain ⟨p, rfl, -⟩ := ranged_zero.mp hc
    simp [leaves]
  | succ h ih =>
    intro lo hi c hc
    obtain ⟨n, rfl, -, hf, hs⟩ := ranged_succ.mp hc
    obtain ⟨hlo, hhi⟩ := length_leaves_bounds fun i hi' => ih (seps_child hs hi').2.1
    have h1 : d + 1 ≤ n.nChild := by have := hf.le_nKeys; have := hf.nChild; omega
    have h2 : n.nChild ≤ 2 * d + 1 := by have := hf.nKeys_le; have := hf.nChild; omega
    rw [pow_succ', pow_succ']
    exact ⟨(Nat.mul_le_mul_right _ h1).trans hlo, hhi.trans (Nat.mul_le_mul_right _ h2)⟩

/-- A lookup in a tree that has a leaf reads one slot on each level; every level but the
    root's multiplies the number of leaves by `d + 1` at least and `2 * d + 1` at most. -/
theorem Node.RootRanged.reads_leaves (hr : RootRanged d P h t.root) (k : Key) :
    ((inner t.root).reads k).length = h + 1 ∧
      (1 ≤ h → 2 * (d + 1) ^ h ≤ (inner t.root).leaves.length) ∧
      (inner t.root).leaves.length ≤ (2 * d + 1) ^ (h + 1) := by
  obtain ⟨hlo, hhi⟩ := length_leaves_bounds fun i hi' => (seps_child hr.seps hi').2.1.length_leaves
  refine ⟨?_, fun hh => ?_, ?_⟩
  · rw [reads, List.length_cons, (seps_child hr.seps (hr.filled.findIndex_lt k)).2.1.length_reads]
  · have h2 : 2 ≤ t.root.nChild := by
      have := hr.height
      have := hr.filled.nChild
      omega
    exact (Nat.mul_le_mul_right _ h2).trans hlo
  · have h2 : t.root.nChild ≤ 2 * d + 1 := by
      have := hr.filled.nKeys_le
      have := hr.filled.nChild
      omega
    rw [pow_succ']
    exact hhi.trans (Nat.mul_le_mul_right _ h2)

end Height

/-- In every run through any number of reopenings, a lookup reads one child slot on each of
    `r` levels, where `2 * (d + 1) ^ (r - 1) ≤ L ≤ (2 * d + 1) ^ r` for the number `L` of
    leaves, and there are between one and `LEAF_MAX` pairs for each leaf. A store with more
    than one leaf from which no key was ever removed has `LEAF_DEGREE` pairs for each. -/
theorem lookup_reads (env : Env) (d : ℕ) (hd : 1 ≤ d) (acts : List DbAct)
    (hacts : Allowed DbAct.Pre DbAct.apply acts fun _ => none) (t : FPTree) (s : World)
    (hrun : run (DbAct.step env) acts (emptyDb env d) = some (t, s))
    (hne : t.root.nChild ≠ 0) (k : Key) :
    let r := (Node.find env k (.inner t.root) s).1.length
    let L := (inner t.root).leaves.length
    1 ≤ r ∧ (2 ≤ r → 2 * (t.root.degree + 1) ^ (r - 1) ≤ L) ∧ L ≤ (2 * t.root.degree + 1) ^ r ∧
      L ≤ (stored t s).length ∧ (stored t s).length ≤ L * LEAF_MAX ∧
      (Allowed DbAct.WritePre DbAct.apply acts (fun _ => none) → L ≤ 1 ∨
        L * LEAF_DEGREE ≤ (stored t s).length) := by
  intro r L
  have hdb := acts_dbInv env hd acts hacts hrun
  obtain ⟨d', -, hinv⟩ := hdb.inv
  rcases hinv.tree with hempty | ⟨h, hr⟩
  · exact absurd hempty.nChild hne
  obtain ⟨hreads, hlo, hhi⟩ := hr.reads_leaves k
  have hr1 : r = h + 1 := by rw [← hreads]; exact congrArg List.length (Node.find_reads _)
  have hpairs : ∀ p ∈ (inner t.root).leaves, 1 ≤ ((s.leafAt p).slots LEAF_DEGREE).length ∧
      ((s.leafAt p).slots LEAF_DEGREE).length ≤ LEAF_MAX := fun p hp => by
    obtain ⟨a, b, hP⟩ := RootRanged.leaf_pred hr hp
    exact ⟨hP.1.pos, hP.1.le_cap⟩
  obtain ⟨hs1, hs2⟩ := length_stored_bounds hpairs
  rw [hr.filled.degree, hr1]
  refine ⟨by omega, fun h2 => hlo (by omega), hhi, (mul_one L).symm.trans_le hs1, hs2, fun hw => ?_⟩
  rcases (acts_writeInv env hd acts hw hrun).halfFull with hone | hhalf
  · exact Or.inl hone
  · exact Or.inr (length_stored_bounds fun p hp => ⟨hhalf p hp, (hpairs p hp).2⟩).1

/-- More keys than a leaf holds. -/
theorem lookup_reads_split : ∃ t s,
    run (DbAct.step Env.flat) (insertActs (keysBelow 112)) (emptyDb Env.flat 1) = some (t, s) ∧
    2 ≤ (inner t.root).leaves.length ∧
    1 ≤ (Node.find Env.flat 7 (.inner t.root) s).1.length ∧
    (inner t.root).leaves.length ≤
    (2 * t.root.degree + 1) ^ (Node.find Env.flat 7 (.inner t.root) s).1.length := by
  obtain ⟨t, s, hrun, hall, hlen⟩ :=
    @insertActs_store 1 Env.flat le_rfl (keysBelow 112) (keysBelow_nodup (by decide))
  rw [length_keysBelow] at hlen
  obtain ⟨_, -, hinv⟩ := (acts_writeInv Env.flat le_rfl _ hall hrun).inv
  have hne : stored t s ≠ [] := fun hnil => by
    rw [hnil] at hlen
    cases hlen
  obtain ⟨h1, -, h3, -, h5, -⟩ :=
    lookup_reads Env.flat 1 le_rfl _ (Allowed.mono (fun _ _ h => h.pre) _ hall) t s
      hrun (hinv.nChild_ne_zero hne) 7
  refine ⟨t, s, hrun, ?_, h1, h3⟩
  rw [hlen, show LEAF_MAX = 111 from rfl] at h5
  omega

/-! ## Leaf groups -/

/-- The number of leaves in use, by the counters of the group headers. -/
def World.usedTotal (s : World) : ℕ := ∑ f ∈ Finset.Ico 1 s.maxFileId, (s.mem f).usedNum

/-- The number of leaf groups. -/
def World.groupCount (s : World) : ℕ := s.maxFileId - 1

/-- The groups are those that `n` leaves in use at one time need, or those that the leaves
    in use now need, if they are more. -/
structure PeakInv (n : ℕ) (s : World) : Prop where
  alloc : AllocInv s
  le : max n s.usedTotal ≤ LEAF_GROUP_AMOUNT * s.groupCount
  lt : LEAF_GROUP_AMOUNT * s.groupCount < max n s.usedTotal + LEAF_GROUP_AMOUNT

section Peak

variable {env : Env} {d n m : ℕ} {t : FPTree} {s s' : World} {p : PPointer} {k : Key}

theorem AllocInv.usedTotal_add (h : AllocInv s) :
    s.freeNum + s.usedTotal = LEAF_GROUP_AMOUNT * s.groupCount := h.total

theorem SameHeads.usedTotal (h : SameHeads s s') : s'.usedTotal = s.usedTotal := by
  rw [World.usedTotal, World.usedTotal, h.maxFileId]
  exact Finset.sum_congr rfl fun f _ => h.usedNum f

theorem PeakInv.congr (h : PeakInv n s) (hs : SameHeads s s') : PeakInv n s' := by
  refine ⟨h.alloc.congr hs, ?_, ?_⟩
  · rw [hs.usedTotal, World.groupCount, hs.maxFileId]
    exact h.le
  · rw [hs.usedTotal, World.groupCount, hs.maxFileId]
    exact h.lt

/-- A leaf is taken; a group is made only when all leaves of the others are in use. -/
theorem PeakInv.getLeaf (h : PeakInv n s) (hg : PAllocator.getLeaf Sys.ok s = (some p, s')) :
    PeakInv n s' := by
  have h' := h.alloc.getLeaf hg
  have htotal := h.alloc.usedTotal_add
  have htotal' := h'.usedTotal_add
  have hle := h.le
  have hlt := h.lt
  unfold PAllocator.getLeaf at hg
  split_ifs at hg with h0
  · obtain ⟨s1, h1, hG⟩ := newLeafGroup_spec s
    rw [h1] at hg
    have hT := takeLeaf_spec hg
    have h1le := h.alloc.one_le
    have hgroups : s'.groupCount = s.groupCount + 1 := by
      rw [World.groupCount, World.groupCount, hT.maxFileId, hG.maxFileId]
      omega
    have hfree : s'.freeNum = 15 := by
      rw [hT.freeNum, hG.freeNum, h0]
      rfl
    refine ⟨h', ?_, ?_⟩ <;> simp only [LEAF_GROUP_AMOUNT] at * <;> omega
  · have hT := takeLeaf_spec hg
    have hgroups : s'.groupCount = s.groupCount := by
      rw [World.groupCount, World.groupCount, hT.maxFileId]
    have hfree := hT.freeNum
    refine ⟨h', ?_, ?_⟩ <;> simp only [LEAF_GROUP_AMOUNT] at * <;> omega

theorem peak_keeps (n : ℕ) : LeafKeeps Sys.ok (PeakInv n) where
  create h hc := by
    obtain ⟨s1, hg, rfl⟩ := create_spec hc
    exact (h.getLeaf hg).congr (SameHeads.setNode _)
  store h := h.congr ((SameHeads.setLeaf _).congr rfl rfl rfl rfl)
  node h := h.congr (SameHeads.setNode _)

/-- A removal makes no group: its system calls are among those that a failing
    `pmem_map_file` leaves alone. -/
theorem maxFileId_keeps (m : ℕ) : LeafKeeps ⟨false, true, true⟩ fun s => s.maxFileId = m where
  create {s s' p} h hc := by
    unfold LeafNode.create at hc
    cases hg : PAllocator.getLeaf ⟨false, true, true⟩ s with
    | mk q s1 =>
      rw [hg] at hc
      cases q with
      | none => cases hc
      | some q =>
        obtain ⟨-, rfl⟩ := Prod.mk.inj hc
        unfold PAllocator.getLeaf at hg
        split_ifs at hg with h0
        · cases hg
        · exact (takeLeaf_spec hg).maxFileId.trans h
  store h := h
  node h := h

theorem LeafNode.remove_maxFileId {b rm del : Bool}
    (hr : LeafNode.remove env Sys.ok p k b s = some (rm, del, s')) :
    s'.maxFileId = s.maxFileId := by
  have hr' : LeafNode.remove env ⟨false, true, true⟩ p k b s = some (rm, del, s') := hr
  refine (maxFileId_keeps s.maxFileId).remove (fun {s1 p} h => ?_) rfl hr'
  rw [← h]
  unfold freeLeaf
  split_ifs
  · rfl
  · exact (releaseLeaf_spec _ _ _).maxFileId

theorem FPTree.remove_maxFileId {r : FPTree.Removed} (hr : t.remove env Sys.ok k s = .ok r) :
    r.world.maxFileId = s.maxFileId := by
  unfold FPTree.remove at hr
  cases hn : Node.remove env Sys.ok k (.inner t.root) (-1) none false s with
  | error log => rw [hn] at hr; cases hr
  | ok r1 =>
    rw [hn] at hr
    have h1 : r1.world.maxFileId = s.maxFileId :=
      Node.remove_keeps (I := fun s1 => s1.maxFileId = s.maxFileId) (fun h => h)
        (fun h hl => (LeafNode.remove_maxFileId hl).trans h) _ rfl hn
    dsimp only at hr
    split at hr
    · obtain rfl := Except.ok.inj hr
      exact h1
    · cases hr

theorem allocInv_keeps : LeafKeeps Sys.ok AllocInv where
  create h hc := by
    obtain ⟨s1, hg, rfl⟩ := create_spec hc
    exact (h.getLeaf hg).congr (SameHeads.setNode _)
  store h := h.congr ((SameHeads.setLeaf _).congr rfl rfl rfl rfl)
  node h := h.congr (SameHeads.setNode _)

theorem AllocInv.tree_remove {r : FPTree.Removed} (h : AllocInv s)
    (hr : t.remove env Sys.ok k s = .ok r) :
    AllocInv r.world := by
  refine allocInv_keeps.tree_remove (fun {s p} h => ?_) (fun {s p} h => ?_) h hr
  · exact h.congr ((SameHeads.refl s).congr rfl rfl rfl rfl)
  · unfold freeLeaf
    split_ifs with hused
    · exact h
    · exact h.freed (releaseLeaf_spec _ _ _) (by simpa using hused)

/-- The leaves in use are those of the chain. -/
theorem AllocInv.usedTotal_eq {chain : List PPointer} (h : AllocInv s) (hst : StoreInv s chain) :
    s.usedTotal = chain.length := by
  have hsum : s.usedTotal = ∑ f ∈ Finset.Ico 1 s.maxFileId, (s.mem f).usedLeaves.card :=
    Finset.sum_congr rfl fun f hf =>
      h.usedNum_eq f (Finset.mem_Ico.mp hf).1 (Finset.mem_Ico.mp hf).2
  rw [hsum, ← Finset.card_sigma, ← List.toFinset_card_of_nodup hst.nodup]
  have hmem : ∀ x : (_ : ℕ) × ℕ,
      x ∈ (Finset.Ico 1 s.maxFileId).sigma (fun f => (s.mem f).usedLeaves) ↔
      (1 ≤ x.1 ∧ x.1 < s.maxFileId) ∧ x.2 < LEAF_GROUP_AMOUNT ∧
      (s.mem x.1).bitmap x.2 = 1 := fun x => by
    simp [LeafGroup.usedLeaves]
  refine Finset.card_nbij' (fun x => groupPointer x.1 x.2) (fun p => ⟨p.fileId, leafIndex p⟩)
    (fun x hx => ?_) (fun p hp => ?_) (fun x hx => ?_) (fun p hp => ?_)
  · obtain ⟨⟨h1, h2⟩, hi, hb⟩ := (hmem x).mp hx
    refine List.mem_toFinset.mpr ((hst.used_iff _).mp (ifLeafUsed_iff.mpr ⟨?_, ?_⟩))
    · exact ifLeafExist_iff.mpr ⟨h1, h2, aligned_groupPointer hi⟩
    · rw [World.headerByte, leafIndex_groupPointer hi]
      show (s.mem x.1).bitmap x.2 ≠ 0
      rw [hb]
      decide
  · have hused := (hst.used_iff p).mpr (List.mem_toFinset.mp hp)
    obtain ⟨h1, h2, ha⟩ := ifLeafExist_iff.mp (ifLeafUsed_iff.mp hused).1
    exact (hmem _).mpr ⟨⟨h1, h2⟩, ha.leafIndex_lt, headerByte_eq_one hst.alloc hused⟩
  · obtain ⟨-, hi, -⟩ := (hmem x).mp hx
    show (⟨x.1, leafIndex (groupPointer x.1 x.2)⟩ : (_ : ℕ) × ℕ) = x
    rw [leafIndex_groupPointer hi]
  · have hused := (hst.used_iff p).mpr (List.mem_toFinset.mp hp)
    exact (aligned_of_exist (ifLeafUsed_iff.mp hused).1).eq_groupPointer.symm

end Peak

/-- A call together with the history of the store: the largest number of leaves at any
    return so far. -/
def peakStep (env : Env) (op : DbOp) (x : Db × ℕ) : Option (Db × ℕ) :=
  (op.step env Sys.ok x.1).map fun db => (db, max x.2 (inner db.1.root).leaves.length)

/-- The state of a process with its history. -/
def PeakOk (x : Db × ℕ) : Prop :=
  ∃ chain, Consistent x.1 chain ∧ PeakInv x.2 x.1.2 ∧ chain.length ≤ x.2

theorem emptyDb_peakOk (env : Env) {d : ℕ} (hd : 1 ≤ d) : PeakOk (emptyDb env d, 0) :=
  ⟨[], emptyDb_consistent env hd,
    ⟨construct_empty_allocInv env, le_refl 0, Nat.succ_pos 15⟩, le_rfl⟩

theorem PeakOk.step {env : Env} {op : DbOp} {x x' : Db × ℕ} (h : PeakOk x)
    (hs : peakStep env op x = some x') :
    PeakOk x' := by
  obtain ⟨⟨t, s⟩, n⟩ := x
  obtain ⟨⟨t', s'⟩, hstep, rfl⟩ := Option.map_eq_some_iff.mp hs
  obtain ⟨chain, hc, hpeak, hlen⟩ := h
  obtain ⟨chain', -, hc'⟩ := hc.step hstep
  have hleaves : (inner t'.root).leaves.length = chain'.length := hc'.leaves.length_eq
  have hbefore := hpeak.alloc.usedTotal_eq hc.store
  refine ⟨chain', hc', ?_, by rw [← hleaves]; exact le_max_right _ _⟩
  show PeakInv (max n (inner t'.root).leaves.length) s'
  rw [hleaves]
  cases op with
  | remove k =>
    rw [DbOp.step] at hstep
    cases hr : t.remove env Sys.ok k s with
    | error log => rw [hr] at hstep; cases hstep
    | ok r =>
      rw [hr] at hstep
      obtain ⟨rfl, rfl⟩ := Prod.mk.inj (Option.some.inj hstep)
      -- no group was made, and there are no more leaves than before
      have hgroups : r.world.groupCount = s.groupCount := by
        rw [World.groupCount, World.groupCount, FPTree.remove_maxFileId hr]
      have halloc := hpeak.alloc.tree_remove hr
      have hafter := halloc.usedTotal_eq hc'.store
      have htotal := halloc.usedTotal_add
      have hle := hpeak.le
      have hlt := hpeak.lt
      refine ⟨halloc, ?_, ?_⟩ <;> simp only [LEAF_GROUP_AMOUNT] at * <;> omega
  | insert k v =>
    have h' := (peak_keeps n).tree_insert hpeak hstep
    have hafter := h'.alloc.usedTotal_eq hc'.store
    have hle := h'.le
    have hlt := h'.lt
    refine ⟨h'.alloc, ?_, ?_⟩ <;> simp only [LEAF_GROUP_AMOUNT] at * <;> omega
  | update k v =>
    obtain ⟨⟨b, s1⟩, hu, heq⟩ := Option.map_eq_some_iff.mp hstep
    obtain ⟨rfl, rfl⟩ := Prod.mk.inj heq
    have h' := (peak_keeps n).tree_update hpeak hu
    have hafter := h'.alloc.usedTotal_eq hc'.store
    have hle := h'.le
    have hlt := h'.lt
    refine ⟨h'.alloc, ?_, ?_⟩ <;> simp only [LEAF_GROUP_AMOUNT] at * <;> omega

/-- After any calls on any keys in one process, the number of leaf groups is the largest
    number of leaves at any return divided by `LEAF_GROUP_AMOUNT`, rounded up. -/
theorem groups_eq_peak (env : Env) (d : ℕ) (hd : 1 ≤ d) (ops : List DbOp) (db : Db) (n : ℕ)
    (hrun : run (peakStep env) ops (emptyDb env d, 0) = some (db, n)) :
    db.2.groupCount = (n + LEAF_GROUP_AMOUNT - 1) / LEAF_GROUP_AMOUNT := by
  obtain ⟨chain, hc, hpeak, hlen⟩ := run_inv (I := PeakOk) (fun op x x' h hs => h.step hs) ops
    (emptyDb_peakOk env hd) hrun
  have hused := hpeak.alloc.usedTotal_eq hc.store
  have hle := hpeak.le
  have hlt := hpeak.lt
  simp only [LEAF_GROUP_AMOUNT] at *
  omega

/-- The only leaf is freed and taken again. -/
theorem groups_eq_peak_three : ∃ db, run (peakStep Env.flat) [.insert 5 50, .remove 5, .insert 6 60]
    (emptyDb Env.flat 1, 0) = some (db, 1) ∧ db.2.groupCount = 1 := by
  have hrun : run (peakStep Env.flat) [.insert 5 50, .remove 5, .insert 6 60]
      (emptyDb Env.flat 1, 0) =
    some (_, _) := rfl
  exact ⟨_, hrun, groups_eq_peak Env.flat 1 le_rfl [.insert 5 50, .remove 5, .insert 6 60] _ _ hrun⟩

end FPTreeDB
