import FPTreeDB.Allocator.Invariant

/-!
# Runs of allocator calls in one process

`AllocInv` is the full invariant of the allocator between two restarts. It holds
after every sequence of `getLeaf`, `newLeafGroup` and `freeLeaf` calls, with any
pointer passed to `freeLeaf` and with any bytes stored to the leaves in use
(`run_allocInv`). `alloc_invariant` reads off what a caller relies on.
-/

namespace FPTreeDB

open PAllocator

/-- A call of a public method of `PAllocator`, or a client's store to the bytes
    of a leaf it has in use, followed by a persist step. -/
inductive AllocOp where
  | getLeaf
  | newLeafGroup
  | freeLeaf (p : PPointer)
  | store (p : PPointer) (img : LeafImage)

/-- What a call returns. -/
inductive AllocResult where
  | leaf (p : Option PPointer)
  | flag (b : Bool)

namespace AllocOp

/-- Carry out a call; every system call succeeds. -/
def exec : AllocOp → World → AllocResult × World
  | getLeaf, s => (.leaf (PAllocator.getLeaf Sys.ok s).1, (PAllocator.getLeaf Sys.ok s).2)
  | newLeafGroup, s =>
    (.flag (PAllocator.newLeafGroup Sys.ok s).1, (PAllocator.newLeafGroup Sys.ok s).2)
  | freeLeaf p, s =>
    (.flag (PAllocator.freeLeaf Sys.ok p s).1, (PAllocator.freeLeaf Sys.ok p s).2)
  | store p img, s => (.flag true, if s.ifLeafUsed p then (s.setLeaf p img).persistLeaf p else s)

/-- The state after a sequence of calls. -/
def run (ops : List AllocOp) (s : World) : World := ops.foldl (fun s op => (op.exec s).2) s

end AllocOp

/-- The numbers of the leaves of a group that are in use. -/
def LeafGroup.usedLeaves (g : LeafGroup) : Finset ℕ :=
  (Finset.range LEAF_GROUP_AMOUNT).filter fun i => g.bitmap i = 1

/-- The allocator's invariant within one process. -/
structure AllocInv (s : World) : Prop extends AllocOk s where
  zero_not_mem : PPointer.zero ∉ s.freeList
  complete : ∀ p, s.ifLeafExist p = true → s.headerByte p = 0 → p ∈ s.freeList
  usedNum_eq : ∀ f, 1 ≤ f → f < s.maxFileId → (s.mem f).usedNum = (s.mem f).usedLeaves.card
  total : s.freeNum + ∑ f ∈ Finset.Ico 1 s.maxFileId, (s.mem f).usedNum =
    LEAF_GROUP_AMOUNT * (s.maxFileId - 1)

namespace AllocInv

variable {s s' : World} {p : PPointer}

theorem freeList_nodup (h : AllocInv s) : s.freeList.Nodup := by
  have := h.nodup
  rwa [List.filter_eq_self.mpr] at this
  intro p hp
  simp only [decide_eq_true_eq]
  exact fun hz => h.zero_not_mem (hz ▸ hp)

theorem mem_freeList_iff (h : AllocInv s) :
    p ∈ s.freeList ↔ s.ifLeafExist p = true ∧ s.headerByte p = 0 := by
  refine ⟨fun hp => h.free p hp ?_, fun hp => h.complete p hp.1 hp.2⟩
  exact fun hz => h.zero_not_mem (hz ▸ hp)

/-! ## One call -/

theorem usedLeaves_update_one {g : LeafGroup} {i u : ℕ} {leaf : ℕ → LeafImage}
    (hi : i < LEAF_GROUP_AMOUNT) (hb : g.bitmap i = 0) :
    (LeafGroup.usedLeaves ⟨u, Function.update g.bitmap i 1, leaf⟩).card =
      g.usedLeaves.card + 1 := by
  have hins : LeafGroup.usedLeaves ⟨u, Function.update g.bitmap i 1, leaf⟩ =
      insert i g.usedLeaves := by
    ext j
    simp only [LeafGroup.usedLeaves, Finset.mem_filter, Finset.mem_insert, Finset.mem_range]
    by_cases hj : j = i
    · subst hj; simp [hi]
    · simp [hj]
  rw [hins, Finset.card_insert_of_notMem]
  simp [LeafGroup.usedLeaves, hb]

theorem usedLeaves_update_zero {g : LeafGroup} {i u : ℕ} {leaf : ℕ → LeafImage}
    (hi : i < LEAF_GROUP_AMOUNT) (hb : g.bitmap i = 1) :
    (LeafGroup.usedLeaves ⟨u, Function.update g.bitmap i 0, leaf⟩).card = g.usedLeaves.card - 1 ∧
      1 ≤ g.usedLeaves.card := by
  have hmem : i ∈ g.usedLeaves := by simp [LeafGroup.usedLeaves, hi, hb]
  have hera : LeafGroup.usedLeaves ⟨u, Function.update g.bitmap i 0, leaf⟩ =
      g.usedLeaves.erase i := by
    ext j
    simp only [LeafGroup.usedLeaves, Finset.mem_filter, Finset.mem_erase, Finset.mem_range]
    by_cases hj : j = i
    · subst hj; simp
    · simp [hj]
  rw [hera, Finset.card_erase_of_mem hmem]
  exact ⟨rfl, Finset.card_pos.mpr ⟨i, hmem⟩⟩

theorem newGroup (h : AllocInv s) (hg : NewGroup s s') : AllocInv s' := by
  refine { hg.allocOk h.toAllocOk with
    zero_not_mem := ?_, complete := ?_, usedNum_eq := ?_, total := ?_ }
  · rw [hg.freeList, List.mem_append, not_or]
    refine ⟨h.zero_not_mem, fun hz => ?_⟩
    have := (mem_groupPointers.mp hz).2
    have := h.one_le
    simp only [PPointer.zero, ILLEGAL_FILE_ID] at *
    omega
  · intro p he hb
    rw [hg.freeList, List.mem_append]
    rcases (hg.exist_iff h.toAllocOk).mp he with he | he
    · exact Or.inl (h.complete p he (by rwa [hg.headerByte_of_exist he] at hb))
    · exact Or.inr he
  · intro f h1 h2
    rw [hg.maxFileId] at h2
    rw [hg.mem]
    by_cases hf : f = s.maxFileId
    · subst hf
      rw [Function.update_self]
      rfl
    · rw [Function.update_of_ne hf]
      exact h.usedNum_eq f h1 (by omega)
  · have hone := h.one_le
    have hsum : ∑ f ∈ Finset.Ico 1 s.maxFileId, (s'.mem f).usedNum =
        ∑ f ∈ Finset.Ico 1 s.maxFileId, (s.mem f).usedNum := by
      refine Finset.sum_congr rfl fun f hf => ?_
      have := (Finset.mem_Ico.mp hf).2
      rw [hg.mem, Function.update_of_ne (by omega)]
    have hnew : (s'.mem s.maxFileId).usedNum = 0 := by
      rw [hg.mem, Function.update_self]; rfl
    have := h.total
    rw [hg.freeNum, hg.maxFileId, Finset.sum_Ico_succ_top hone, hsum, hnew]
    simp only [LEAF_GROUP_AMOUNT] at *
    omega

/-- Changing the used count of group `p.fileId` from `m` to `m'` moves the sum accordingly. -/
theorem sum_regroup {u : ℕ} {x : Byte} {leaf : ℕ → LeafImage} (hm : s'.mem = regroup s p u x leaf)
    (h1 : 1 ≤ p.fileId) (h2 : p.fileId < s.maxFileId) :
    ∑ f ∈ Finset.Ico 1 s.maxFileId, (s'.mem f).usedNum + (s.mem p.fileId).usedNum =
      ∑ f ∈ Finset.Ico 1 s.maxFileId, (s.mem f).usedNum + u := by
  have hp : p.fileId ∈ Finset.Ico 1 s.maxFileId := Finset.mem_Ico.mpr ⟨h1, h2⟩
  rw [← Finset.add_sum_erase _ _ hp, ← Finset.add_sum_erase _ (fun f => (s.mem f).usedNum) hp]
  have hrest : ∑ f ∈ (Finset.Ico 1 s.maxFileId).erase p.fileId, (s'.mem f).usedNum =
      ∑ f ∈ (Finset.Ico 1 s.maxFileId).erase p.fileId, (s.mem f).usedNum := by
    refine Finset.sum_congr rfl fun f hf => ?_
    rw [hm, regroup, Function.update_of_ne (Finset.ne_of_mem_erase hf)]
  have hself : (s'.mem p.fileId).usedNum = u := by
    rw [hm, regroup, Function.update_self]
  rw [hrest, hself]
  omega

theorem taken (h : AllocInv s) (ht : Taken s p s') : AllocInv s' := by
  obtain ⟨h1, h2, ha⟩ := ifLeafExist_iff.mp ht.exist
  have hb := ht.headerByte_zero h.toAllocOk
  refine { ht.allocOk h.toAllocOk with
    zero_not_mem := ?_, complete := ?_, usedNum_eq := ?_, total := ?_ }
  · intro hz
    exact h.zero_not_mem (by rw [ht.freeList]; simp [hz])
  · intro q hq hbq
    rw [World.ifLeafExist_congr ht.maxFileId] at hq
    by_cases hqp : q = p
    · subst hqp
      rw [headerByte_regroup_self ht.mem] at hbq
      exact absurd hbq (by decide)
    · rw [headerByte_regroup_of_ne ht.mem ha (aligned_of_exist hq) hqp] at hbq
      have := h.complete q hq hbq
      rw [ht.freeList] at this
      simpa [hqp] using this
  · intro f hf1 hf2
    rw [ht.maxFileId] at hf2
    rw [ht.mem, regroup]
    by_cases hf : f = p.fileId
    · subst hf
      rw [Function.update_self, usedLeaves_update_one ha.leafIndex_lt hb, h.usedNum_eq _ hf1 hf2]
    · rw [Function.update_of_ne hf]
      exact h.usedNum_eq f hf1 hf2
  · have hsum := sum_regroup ht.mem h1 h2
    have htot := h.total
    have hnum := h.freeNum_eq
    rw [ht.freeList, List.length_append, List.length_singleton] at hnum
    rw [ht.freeNum, ht.maxFileId]
    omega

theorem freed (h : AllocInv s) (hf : Freed s p s') (hp : s.ifLeafUsed p = true) : AllocInv s' := by
  obtain ⟨h1, h2, ha⟩ := ifLeafExist_iff.mp (ifLeafUsed_iff.mp hp).1
  have hb : (s.mem p.fileId).bitmap (leafIndex p) = 1 := headerByte_eq_one h.toAllocOk hp
  refine { hf.allocOk h.toAllocOk hp with
    zero_not_mem := ?_, complete := ?_, usedNum_eq := ?_, total := ?_ }
  · rw [hf.freeList, List.mem_append, List.mem_singleton, not_or]
    exact ⟨h.zero_not_mem, (ne_zero_of_exist (ifLeafUsed_iff.mp hp).1).symm⟩
  · intro q hq hbq
    rw [World.ifLeafExist_congr hf.maxFileId] at hq
    rw [hf.freeList, List.mem_append, List.mem_singleton]
    by_cases hqp : q = p
    · exact Or.inr hqp
    · rw [headerByte_regroup_of_ne hf.mem ha (aligned_of_exist hq) hqp] at hbq
      exact Or.inl (h.complete q hq hbq)
  · intro f hf1 hf2
    rw [hf.maxFileId] at hf2
    rw [hf.mem, regroup]
    by_cases hfp : f = p.fileId
    · subst hfp
      rw [Function.update_self, (usedLeaves_update_zero ha.leafIndex_lt hb).1,
        h.usedNum_eq _ hf1 hf2]
    · rw [Function.update_of_ne hfp]
      exact h.usedNum_eq f hf1 hf2
  · have hsum := sum_regroup hf.mem h1 h2
    have htot := h.total
    have hone : 1 ≤ (s.mem p.fileId).usedNum := by
      rw [h.usedNum_eq _ h1 h2]
      exact (@usedLeaves_update_zero _ _ 0 (s.mem p.fileId).leaf ha.leafIndex_lt hb).2
    rw [hf.freeNum, hf.maxFileId]
    omega

/-- Stores to leaf bytes are invisible to the allocator. -/
theorem congr (h : AllocInv s) (hs : SameHeads s s') : AllocInv s' := by
  refine { hs.allocOk h.toAllocOk with
    zero_not_mem := ?_, complete := ?_, usedNum_eq := ?_, total := ?_ }
  · rw [hs.freeList]; exact h.zero_not_mem
  · intro q hq hb
    rw [hs.freeList]
    exact h.complete q (by rwa [hs.exist] at hq) (by rwa [hs.headerByte] at hb)
  · intro f h1 h2
    rw [hs.usedNum, h.usedNum_eq f h1 (hs.maxFileId ▸ h2)]
    simp only [LeafGroup.usedLeaves, hs.bitmap]
  · simp only [hs.usedNum, hs.maxFileId, hs.freeNum]
    exact h.total

/-- `getLeaf` succeeds: the free list is never exhausted, as a new group is added then. -/
theorem getLeaf_ok (h : AllocInv s) :
    ∃ p s', getLeaf Sys.ok s = (some p, s') ∧ AllocInv s' := by
  have take : ∀ {s : World}, AllocInv s → s.freeList ≠ [] →
      ∃ p s', takeLeaf s = (some p, s') ∧ AllocInv s' := by
    intro s h hne
    obtain ⟨p, hp⟩ : ∃ p, s.freeList.getLast? = some p := ⟨_, List.getLast?_eq_some_getLast hne⟩
    have he := (h.mem_freeList_iff.mp (List.mem_of_getLast? hp)).1
    have htake := takeLeaf_of_getLast? hp he
    exact ⟨p, _, htake, h.taken (takeLeaf_spec htake)⟩
  unfold getLeaf
  split_ifs with h0
  · obtain ⟨s1, h1, hg⟩ := newLeafGroup_spec s
    rw [h1]
    refine take (h.newGroup hg) ?_
    rw [hg.freeList, ← List.length_pos_iff]
    simp [LEAF_GROUP_AMOUNT]
  · refine take h ?_
    rw [← List.length_pos_iff, ← h.freeNum_eq]
    omega

theorem getLeaf (h : AllocInv s) (hg : getLeaf Sys.ok s = (some p, s')) : AllocInv s' := by
  obtain ⟨p', s'', hg', h'⟩ := h.getLeaf_ok
  rw [hg] at hg'
  simp only [Prod.mk.injEq] at hg'
  rw [hg'.2]
  exact h'

end AllocInv

/-! ## Runs -/

/-- The allocator of an empty data directory. -/
theorem construct_empty_allocInv (env : Env) : AllocInv (construct env Sys.ok Storage.empty) := by
  refine
    { one_le := le_rfl, freeNum_eq := rfl, nodup := List.nodup_nil
      free := fun q hq => absurd hq (List.not_mem_nil), byte := fun q hq => Or.inl rfl
      zero_not_mem := List.not_mem_nil
      complete := fun q hq => ?_, usedNum_eq := fun f h1 h2 => ?_, total := rfl }
  · have := ifLeafExist_iff.mp hq
    have : (construct env Sys.ok Storage.empty).maxFileId = 1 := rfl
    omega
  · have : (construct env Sys.ok Storage.empty).maxFileId = 1 := rfl
    omega

theorem exec_allocInv (op : AllocOp) {s : World} (h : AllocInv s) : AllocInv (op.exec s).2 := by
  cases op with
  | getLeaf =>
    obtain ⟨p, s', hg, h'⟩ := h.getLeaf_ok
    simp only [AllocOp.exec, hg]
    exact h'
  | newLeafGroup =>
    obtain ⟨s1, h1, hg⟩ := newLeafGroup_spec s
    simp only [AllocOp.exec, h1]
    exact h.newGroup hg
  | freeLeaf p =>
    cases hp : s.ifLeafUsed p with
    | true =>
      simp only [AllocOp.exec, freeLeaf_of_used hp]
      exact h.freed (releaseLeaf_spec Sys.ok p s) hp
    | false =>
      simp only [AllocOp.exec, freeLeaf_of_not_used hp]
      exact h
  | store p img =>
    simp only [AllocOp.exec]
    split_ifs
    · exact h.congr ((SameHeads.setLeaf img).congr rfl rfl rfl rfl)
    · exact h

theorem run_allocInv (ops : List AllocOp) {s : World} (h : AllocInv s) :
    AllocInv (AllocOp.run ops s) := by
  induction ops generalizing s with
  | nil => exact h
  | cons op ops ih => exact ih (exec_allocInv op h)

/-- After any run of allocator calls from an empty data directory: `freeNum`, the
    free list, the header bytes and the used counts agree; `getLeaf` hands out a
    zeroed leaf that was not in use and leaves the other leaves alone; and
    `freeLeaf` succeeds exactly for the leaves in use, changing nothing otherwise. -/
theorem alloc_invariant (env : Env) (ops : List AllocOp) :
    let s := AllocOp.run ops (construct env Sys.ok Storage.empty)
    s.freeNum = s.freeList.length ∧ s.freeList.Nodup ∧
    (∀ p, p ∈ s.freeList ↔ s.ifLeafExist p = true ∧ s.headerByte p = 0) ∧
    (∀ f, 1 ≤ f → f < s.maxFileId → (s.mem f).usedNum = (s.mem f).usedLeaves.card) ∧
    s.freeNum + ∑ f ∈ Finset.Ico 1 s.maxFileId, (s.mem f).usedNum =
      LEAF_GROUP_AMOUNT * (s.maxFileId - 1) ∧
    (∃ p s', getLeaf Sys.ok s = (some p, s') ∧ s.ifLeafUsed p = false ∧ s'.ifLeafUsed p = true ∧
      s'.leafAt p = LeafImage.zero ∧
      ∀ q, s.ifLeafExist q = true → q ≠ p → s'.leafAt q = s.leafAt q) ∧
    ∀ p, (freeLeaf Sys.ok p s).1 = s.ifLeafUsed p ∧
      ((freeLeaf Sys.ok p s).1 = false → (freeLeaf Sys.ok p s).2 = s) := by
  intro s
  have h : AllocInv s := run_allocInv ops (construct_empty_allocInv env)
  refine ⟨h.freeNum_eq, h.freeList_nodup, fun p => h.mem_freeList_iff, h.usedNum_eq,
    h.total, ?_, ?_⟩
  · obtain ⟨p, s', hg, -⟩ := h.getLeaf_ok
    have hspec := getLeaf_spec h.toAllocOk hg
    exact ⟨p, s', hg, hspec.not_used, (hspec.used_iff p).mpr (Or.inl rfl), hspec.leafAt_self,
      hspec.leafAt_of_exist⟩
  · intro p
    cases hp : s.ifLeafUsed p with
    | true => simp [freeLeaf_of_used hp]
    | false => simp [freeLeaf_of_not_used hp]

end FPTreeDB
