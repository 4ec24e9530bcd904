import FPTreeDB.Allocator.Pointers

/-!
# What the allocator calls do

`AllocOk` is the part of the allocator's invariant that also survives a restart:
an entry of `freeList` is either a free leaf, listed once, or the null pointer.
`AllocInv` adds what holds within one process: the free list is complete and the
counters are exact.

* `getLeaf_spec`, `newLeafGroup_spec`, `freeLeaf_spec`: one call, from a state
  with `AllocOk`.
* `AllocInv.getLeaf`, `AllocInv.newLeafGroup`, `AllocInv.freeLeaf`: one call
  keeps `AllocInv`.
-/

namespace FPTreeDB

open PAllocator

/-- The leaf-group files on storage hold what is mapped. -/
def Synced (s : World) : Prop := s.disk.groups = s.mem

/-- The part of the allocator's invariant that a restart keeps. -/
structure AllocOk (s : World) : Prop where
  one_le : 1 ≤ s.maxFileId
  freeNum_eq : s.freeNum = s.freeList.length
  free : ∀ p ∈ s.freeList, p ≠ PPointer.zero → s.ifLeafExist p = true ∧ s.headerByte p = 0
  nodup : (s.freeList.filter (· ≠ PPointer.zero)).Nodup
  byte : ∀ p, s.ifLeafExist p = true → s.headerByte p = 0 ∨ s.headerByte p = 1

theorem ne_zero_of_exist {s : World} {p : PPointer} (h : s.ifLeafExist p = true) :
    p ≠ PPointer.zero := by
  rintro rfl
  have := (ifLeafExist_iff.mp h).1
  simp [PPointer.zero, ILLEGAL_FILE_ID] at this

theorem headerByte_eq_one {s : World} (h : AllocOk s) {p : PPointer} (hp : s.ifLeafUsed p = true) :
    s.headerByte p = 1 := by
  obtain ⟨he, hb⟩ := ifLeafUsed_iff.mp hp
  exact (h.byte p he).resolve_left hb

theorem ifLeafUsed_eq_false_iff {s : World} {p : PPointer} :
    s.ifLeafUsed p = false ↔ (s.ifLeafExist p = true → s.headerByte p = 0) := by
  rw [← Bool.not_eq_true, ifLeafUsed_iff]
  tauto

/-- The allocator's own fields and the headers of the leaf groups are the same. -/
structure SameHeads (s s' : World) : Prop where
  maxFileId : s'.maxFileId = s.maxFileId
  freeNum : s'.freeNum = s.freeNum
  freeList : s'.freeList = s.freeList
  usedNum : ∀ f, (s'.mem f).usedNum = (s.mem f).usedNum
  bitmap : ∀ f, (s'.mem f).bitmap = (s.mem f).bitmap

namespace SameHeads

variable {s s' s'' : World} {p : PPointer}

theorem refl (s : World) : SameHeads s s := ⟨rfl, rfl, rfl, fun _ => rfl, fun _ => rfl⟩

theorem trans (h : SameHeads s s') (h' : SameHeads s' s'') : SameHeads s s'' :=
  ⟨h'.maxFileId.trans h.maxFileId, h'.freeNum.trans h.freeNum, h'.freeList.trans h.freeList,
    fun f => (h'.usedNum f).trans (h.usedNum f), fun f => (h'.bitmap f).trans (h.bitmap f)⟩

theorem setLeaf (img : LeafImage) : SameHeads s (s.setLeaf p img) := by
  refine ⟨rfl, rfl, rfl, fun f => ?_, fun f => ?_⟩
  all_goals
    unfold World.setLeaf LeafGroup.setLeaf
    by_cases hf : f = p.fileId
    · subst hf; simp
    · simp [Function.update_of_ne hf]

theorem setNode (nd : Option LeafNode) : SameHeads s (s.setNode p nd) :=
  ⟨rfl, rfl, rfl, fun _ => rfl, fun _ => rfl⟩

/-- The leaf groups need only agree as mapped. -/
theorem congr (h : SameHeads s s') (hm : s''.mem = s'.mem) (h1 : s''.maxFileId = s'.maxFileId)
    (h2 : s''.freeNum = s'.freeNum) (h3 : s''.freeList = s'.freeList) : SameHeads s s'' :=
  ⟨h1.trans h.maxFileId, h2.trans h.freeNum, h3.trans h.freeList, by rw [hm]; exact h.usedNum,
    by rw [hm]; exact h.bitmap⟩

theorem exist (h : SameHeads s s') : s'.ifLeafExist p = s.ifLeafExist p :=
  World.ifLeafExist_congr h.maxFileId

theorem headerByte (h : SameHeads s s') : s'.headerByte p = s.headerByte p := by
  rw [World.headerByte, World.headerByte, h.bitmap]

theorem used (h : SameHeads s s') : s'.ifLeafUsed p = s.ifLeafUsed p :=
  World.ifLeafUsed_congr h.maxFileId h.headerByte

theorem allocOk (h : SameHeads s s') (hs : AllocOk s) : AllocOk s' where
  one_le := by rw [h.maxFileId]; exact hs.one_le
  freeNum_eq := by rw [h.freeNum, h.freeList]; exact hs.freeNum_eq
  free q hq hz := by
    rw [h.exist, h.headerByte]
    exact hs.free q (h.freeList ▸ hq) hz
  nodup := by rw [h.freeList]; exact hs.nodup
  byte q hq := by
    rw [h.headerByte]
    exact hs.byte q (by rwa [h.exist] at hq)

end SameHeads

/-! ## Storing and persisting -/

namespace Synced

variable {s : World} {p : PPointer} {f : ℕ}

theorem setLeaf_persistLeaf (h : Synced s) (img : LeafImage) :
    Synced ((s.setLeaf p img).persistLeaf p) := by
  unfold Synced at *
  simp [World.persistLeaf, Storage.setGroup, World.leafAt, World.setLeaf, LeafGroup.setLeaf, h,
    World.commit]

theorem setHeader_persistHeader (h : Synced s) (u : ℕ) (b : ℕ → Byte) :
    Synced ((s.setHeader f u b).persistHeader f) := by
  unfold Synced at *
  simp [World.persistHeader, Storage.setGroup, World.setHeader, h, World.commit]

theorem persistLeaf (h : Synced s) : Synced (s.persistLeaf p) := by
  unfold Synced at *
  funext f
  by_cases hf : f = p.fileId
  · subst hf
    simp [World.persistLeaf, Storage.setGroup, World.leafAt, LeafGroup.setLeaf, h, World.commit]
  · simp [World.persistLeaf, Storage.setGroup, h, World.commit, Function.update_of_ne hf]

end Synced

/-! ## `newLeafGroup` -/

/-- The effect of a successful `newLeafGroup`. -/
structure NewGroup (s s' : World) : Prop where
  maxFileId : s'.maxFileId = s.maxFileId + 1
  freeNum : s'.freeNum = s.freeNum + LEAF_GROUP_AMOUNT
  freeList : s'.freeList = s.freeList ++ groupPointers s.maxFileId
  mem : s'.mem = Function.update s.mem s.maxFileId LeafGroup.zero
  startLeaf : s'.startLeaf = s.startLeaf
  nodes : s'.nodes = s.nodes
  synced : Synced s → Synced s'

theorem newLeafGroup_spec (s : World) :
    ∃ s', newLeafGroup Sys.ok s = (true, s') ∧ NewGroup s s' := by
  refine ⟨(newLeafGroup Sys.ok s).2, rfl, ?_⟩
  constructor <;> try rfl
  intro h
  unfold Synced at *
  simp [newLeafGroup, World.persistGroup, Storage.setGroup, rewriteFreeList, World.commit, h]

namespace NewGroup

variable {s s' : World} {p : PPointer}

theorem exist_iff (h : NewGroup s s') (hs : AllocOk s) :
    s'.ifLeafExist p = true ↔ s.ifLeafExist p = true ∨ p ∈ groupPointers s.maxFileId := by
  have := hs.one_le
  rw [ifLeafExist_iff, ifLeafExist_iff, mem_groupPointers, h.maxFileId]
  constructor
  · rintro ⟨h1, h2, h3⟩
    rcases Nat.lt_succ_iff_lt_or_eq.mp h2 with h2 | h2
    · exact Or.inl ⟨h1, h2, h3⟩
    · exact Or.inr ⟨h3, h2⟩
  · rintro (⟨h1, h2, h3⟩ | ⟨h3, h2⟩)
    · exact ⟨h1, by omega, h3⟩
    · exact ⟨by omega, by omega, h3⟩

theorem mem_of_exist (h : NewGroup s s') (hp : s.ifLeafExist p = true) :
    s'.mem p.fileId = s.mem p.fileId := by
  have := (ifLeafExist_iff.mp hp).2.1
  rw [h.mem, Function.update_of_ne (by omega)]

theorem leafAt_of_exist (h : NewGroup s s') (hp : s.ifLeafExist p = true) :
    s'.leafAt p = s.leafAt p := by
  rw [World.leafAt, World.leafAt, h.mem_of_exist hp]

theorem headerByte_of_exist (h : NewGroup s s') (hp : s.ifLeafExist p = true) :
    s'.headerByte p = s.headerByte p := by
  rw [World.headerByte, World.headerByte, h.mem_of_exist hp]

theorem headerByte_of_mem (h : NewGroup s s') (hp : p ∈ groupPointers s.maxFileId) :
    s'.headerByte p = 0 := by
  rw [World.headerByte, h.mem, (mem_groupPointers.mp hp).2, Function.update_self]
  rfl

theorem not_mem_of_exist (hp : s.ifLeafExist p = true) : p ∉ groupPointers s.maxFileId := by
  intro hm
  have := (ifLeafExist_iff.mp hp).2.1
  have := (mem_groupPointers.mp hm).2
  omega

/-- No leaf of the new group is in use, and no other leaf changes. -/
theorem used_iff (h : NewGroup s s') (hs : AllocOk s) :
    s'.ifLeafUsed p = true ↔ s.ifLeafUsed p = true := by
  rw [ifLeafUsed_iff, ifLeafUsed_iff, h.exist_iff hs]
  constructor
  · rintro ⟨he | he, hb⟩
    · exact ⟨he, by rwa [h.headerByte_of_exist he] at hb⟩
    · exact absurd (h.headerByte_of_mem he) hb
  · rintro ⟨he, hb⟩
    exact ⟨Or.inl he, by rwa [h.headerByte_of_exist he]⟩

theorem allocOk (h : NewGroup s s') (hs : AllocOk s) : AllocOk s' where
  one_le := by rw [h.maxFileId]; omega
  freeNum_eq := by rw [h.freeNum, h.freeList, hs.freeNum_eq]; simp
  free p hp hz := by
    rw [h.freeList] at hp
    rcases List.mem_append.mp hp with hp | hp
    · obtain ⟨he, hb⟩ := hs.free p hp hz
      exact ⟨(h.exist_iff hs).mpr (Or.inl he), by rw [h.headerByte_of_exist he, hb]⟩
    · exact ⟨(h.exist_iff hs).mpr (Or.inr hp), h.headerByte_of_mem hp⟩
  nodup := by
    rw [h.freeList, List.filter_append, List.nodup_append']
    refine ⟨hs.nodup, (nodup_groupPointers _).filter _, ?_⟩
    intro p hp hp'
    obtain ⟨hp, hz⟩ := List.mem_filter.mp hp
    exact not_mem_of_exist (hs.free p hp (by simpa using hz)).1 (List.mem_filter.mp hp').1
  byte p hp := by
    rcases (h.exist_iff hs).mp hp with he | he
    · rw [h.headerByte_of_exist he]; exact hs.byte p he
    · exact Or.inl (h.headerByte_of_mem he)

end NewGroup

/-! ## Changing one leaf and its header byte -/

/-- Leaf group `p.fileId` gets a new `usedNum`, header byte `x` for the leaf at
    `p`, and the leaves `leaf`. -/
def regroup (s : World) (p : PPointer) (usedNum : ℕ) (x : Byte) (leaf : ℕ → LeafImage) :
    ℕ → LeafGroup :=
  Function.update s.mem p.fileId
    ⟨usedNum, Function.update (s.mem p.fileId).bitmap (leafIndex p) x, leaf⟩

section Regroup

variable {s s' : World} {p q : PPointer} {u : ℕ} {x : Byte} {leaf : ℕ → LeafImage}

theorem headerByte_regroup_self (h : s'.mem = regroup s p u x leaf) : s'.headerByte p = x := by
  simp [World.headerByte, h, regroup]

theorem headerByte_regroup_of_ne (h : s'.mem = regroup s p u x leaf) (hp : Aligned p)
    (hq : Aligned q) (hne : q ≠ p) : s'.headerByte q = s.headerByte q := by
  unfold World.headerByte
  rw [h, regroup]
  by_cases hf : q.fileId = p.fileId
  · have hi : leafIndex q ≠ leafIndex p := fun hi => hne (hq.ext hp hf hi)
    simp only [hf, Function.update_self]
    rw [Function.update_of_ne hi]
  · simp only [Function.update_of_ne hf]

theorem used_regroup_of_ne (h : s'.mem = regroup s p u x leaf) (hm : s'.maxFileId = s.maxFileId)
    (hp : Aligned p) (hne : q ≠ p) : s'.ifLeafUsed q = true ↔ s.ifLeafUsed q = true := by
  rw [ifLeafUsed_iff, ifLeafUsed_iff, World.ifLeafExist_congr hm]
  constructor
  · rintro ⟨he, hb⟩
    rw [headerByte_regroup_of_ne h hp (aligned_of_exist he) hne] at hb
    exact ⟨he, hb⟩
  · rintro ⟨he, hb⟩
    rw [headerByte_regroup_of_ne h hp (aligned_of_exist he) hne]
    exact ⟨he, hb⟩

end Regroup

/-! ## `getLeaf` -/

/-- The effect of a successful `getLeaf` on a non-empty free list. -/
structure Taken (s : World) (p : PPointer) (s' : World) : Prop where
  freeList : s.freeList = s'.freeList ++ [p]
  freeNum : s'.freeNum = s.freeNum - 1
  maxFileId : s'.maxFileId = s.maxFileId
  exist : s.ifLeafExist p = true
  startLeaf : s'.startLeaf = if s.ifLeafUsed s.startLeaf then s.startLeaf else p
  mem : s'.mem = regroup s p ((s.mem p.fileId).usedNum + 1) 1
    (Function.update (s.mem p.fileId).leaf (leafIndex p) LeafImage.zero)
  nodes : s'.nodes = s.nodes
  synced : Synced s → Synced s'

theorem claimLeaf_mem (s : World) (p : PPointer) :
    (claimLeaf p s).mem = regroup s p ((s.mem p.fileId).usedNum + 1) 1
      (Function.update (s.mem p.fileId).leaf (leafIndex p) LeafImage.zero) := by
  simp [claimLeaf, World.setHeader, World.setLeaf, LeafGroup.setLeaf, regroup]

theorem takeLeaf_spec {s s' : World} {p : PPointer} (h : takeLeaf s = (some p, s')) :
    Taken s p s' := by
  unfold takeLeaf at h
  split at h
  · simp at h
  · rename_i q hq
    split_ifs at h with he
    · simp at h
    · simp only [Prod.mk.injEq, Option.some.injEq] at h
      obtain ⟨rfl, rfl⟩ := h
      refine ⟨?_, rfl, rfl, by simpa using he, rfl, claimLeaf_mem s q, rfl, ?_⟩
      · exact (List.dropLast_append_getLast? q hq).symm
      · intro hs
        have hs' : Synced { s with
            startLeaf := if s.ifLeafUsed s.startLeaf then s.startLeaf else q
            freeList := s.freeList.dropLast
            freeNum := s.freeNum - 1 } := hs
        exact (hs'.setLeaf_persistLeaf LeafImage.zero).setHeader_persistHeader _ _

/-- A free leaf that exists is handed out. -/
theorem takeLeaf_of_getLast? {s : World} {p : PPointer} (hl : s.freeList.getLast? = some p)
    (he : s.ifLeafExist p = true) : takeLeaf s = (some p, claimLeaf p s) := by
  unfold takeLeaf
  rw [hl]
  simp [he]

namespace Taken

variable {s s' : World} {p q : PPointer}

theorem headerByte_zero (h : Taken s p s') (hs : AllocOk s) : s.headerByte p = 0 :=
  (hs.free p (by rw [h.freeList]; simp) (ne_zero_of_exist h.exist)).2

theorem not_mem (h : Taken s p s') (hs : AllocOk s) : p ∉ s'.freeList := by
  intro hp
  have hz : p ≠ PPointer.zero := ne_zero_of_exist h.exist
  have hn := hs.nodup
  rw [h.freeList, List.filter_append, List.nodup_append'] at hn
  exact hn.2.2 (List.mem_filter.mpr ⟨hp, by simpa using hz⟩) (by simpa using hz)

theorem used_iff (h : Taken s p s') : s'.ifLeafUsed q = true ↔ q = p ∨ s.ifLeafUsed q = true := by
  by_cases hq : q = p
  · subst hq
    simp only [true_or, iff_true]
    rw [ifLeafUsed_iff, World.ifLeafExist_congr h.maxFileId]
    exact ⟨h.exist, by rw [headerByte_regroup_self h.mem]; decide⟩
  · rw [used_regroup_of_ne h.mem h.maxFileId (aligned_of_exist h.exist) hq]
    simp [hq]

theorem leafAt_self (h : Taken s p s') : s'.leafAt p = LeafImage.zero := by
  simp [World.leafAt, h.mem, regroup]

theorem leafAt_of_ne (h : Taken s p s') (hq : Aligned q) (hne : q ≠ p) :
    s'.leafAt q = s.leafAt q := by
  unfold World.leafAt
  rw [h.mem, regroup]
  by_cases hf : q.fileId = p.fileId
  · have hi : leafIndex q ≠ leafIndex p :=
      fun hi => hne (hq.ext (aligned_of_exist h.exist) hf hi)
    simp only [hf, Function.update_self]
    rw [Function.update_of_ne hi]
  · simp only [Function.update_of_ne hf]

theorem allocOk (h : Taken s p s') (hs : AllocOk s) : AllocOk s' where
  one_le := by rw [h.maxFileId]; exact hs.one_le
  freeNum_eq := by
    have := hs.freeNum_eq
    rw [h.freeList, List.length_append, List.length_singleton] at this
    rw [h.freeNum]
    omega
  free q hq hz := by
    obtain ⟨he, hb⟩ := hs.free q (by rw [h.freeList]; simp [hq]) hz
    have hne : q ≠ p := fun hqp => h.not_mem hs (hqp ▸ hq)
    rw [World.ifLeafExist_congr h.maxFileId,
      headerByte_regroup_of_ne h.mem (aligned_of_exist h.exist) (aligned_of_exist he) hne]
    exact ⟨he, hb⟩
  nodup := by
    have := hs.nodup
    rw [h.freeList, List.filter_append, List.nodup_append'] at this
    exact this.1
  byte q hq := by
    rw [World.ifLeafExist_congr h.maxFileId] at hq
    by_cases hqp : q = p
    · subst hqp
      exact Or.inr (headerByte_regroup_self h.mem)
    · rw [headerByte_regroup_of_ne h.mem (aligned_of_exist h.exist) (aligned_of_exist hq) hqp]
      exact hs.byte q hq

end Taken

/-- The effect of a successful `getLeaf`. -/
structure GotLeaf (s : World) (p : PPointer) (s' : World) : Prop where
  le_maxFileId : s.maxFileId ≤ s'.maxFileId
  exist : s'.ifLeafExist p = true
  not_used : s.ifLeafUsed p = false
  used_iff : ∀ q, s'.ifLeafUsed q = true ↔ q = p ∨ s.ifLeafUsed q = true
  leafAt_self : s'.leafAt p = LeafImage.zero
  leafAt_of_exist : ∀ q, s.ifLeafExist q = true → q ≠ p → s'.leafAt q = s.leafAt q
  startLeaf : s'.startLeaf = if s.ifLeafUsed s.startLeaf then s.startLeaf else p
  nodes : s'.nodes = s.nodes
  allocOk : AllocOk s'
  synced : Synced s → Synced s'

theorem Taken.gotLeaf {s s' : World} {p : PPointer} (h : Taken s p s') (hs : AllocOk s) :
    GotLeaf s p s' where
  le_maxFileId := h.maxFileId.ge
  exist := by rw [World.ifLeafExist_congr h.maxFileId]; exact h.exist
  not_used := ifLeafUsed_eq_false_iff.mpr fun _ => h.headerByte_zero hs
  used_iff _ := h.used_iff
  leafAt_self := h.leafAt_self
  leafAt_of_exist _ hq hne := h.leafAt_of_ne (aligned_of_exist hq) hne
  startLeaf := h.startLeaf
  nodes := h.nodes
  allocOk := h.allocOk hs
  synced := h.synced

/-- A new group followed by taking a leaf. -/
theorem NewGroup.gotLeaf {s s1 s' : World} {p : PPointer} (hg : NewGroup s s1) (h : Taken s1 p s')
    (hs : AllocOk s) : GotLeaf s p s' := by
  have h1 := h.gotLeaf (hg.allocOk hs)
  have hused : ∀ q, s1.ifLeafUsed q = s.ifLeafUsed q := fun q =>
    Bool.eq_iff_iff.mpr (hg.used_iff hs)
  refine ⟨?_, h1.exist, ?_, ?_, h1.leafAt_self, ?_, ?_, ?_, h1.allocOk, ?_⟩
  · have := h1.le_maxFileId
    rw [hg.maxFileId] at this
    omega
  · rw [← hused]; exact h1.not_used
  · intro q
    rw [h1.used_iff, hused]
  · intro q hq hne
    rw [h1.leafAt_of_exist q ((hg.exist_iff hs).mpr (Or.inl hq)) hne, hg.leafAt_of_exist hq]
  · rw [h1.startLeaf, hused, hg.startLeaf]
  · rw [h1.nodes, hg.nodes]
  · exact fun hd => h1.synced (hg.synced hd)

theorem getLeaf_spec {s s' : World} {p : PPointer} (hs : AllocOk s)
    (h : getLeaf Sys.ok s = (some p, s')) : GotLeaf s p s' := by
  unfold getLeaf at h
  split_ifs at h with h0
  · obtain ⟨s1, h1, hg⟩ := newLeafGroup_spec s
    rw [h1] at h
    exact hg.gotLeaf (takeLeaf_spec h) hs
  · exact (takeLeaf_spec h).gotLeaf hs

/-! ## `freeLeaf` -/

/-- The effect of a successful `freeLeaf`. -/
structure Freed (s : World) (p : PPointer) (s' : World) : Prop where
  freeList : s'.freeList = s.freeList ++ [p]
  freeNum : s'.freeNum = s.freeNum + 1
  maxFileId : s'.maxFileId = s.maxFileId
  startLeaf : s'.startLeaf = if s.startLeaf = p then (s.leafAt p).pNext else s.startLeaf
  mem : s'.mem = regroup s p ((s.mem p.fileId).usedNum - 1) 0 (s.mem p.fileId).leaf
  nodes : s'.nodes = s.nodes
  synced : Synced s → Synced s'

section FileWrites

variable (sys : Sys) (s : World) (pos : ℕ) (ps : List PPointer)

@[simp] theorem persistCatalog_startLeaf : (persistCatalog sys s).startLeaf = s.startLeaf := by
  unfold persistCatalog; split_ifs <;> rfl

@[simp] theorem persistCatalog_maxFileId : (persistCatalog sys s).maxFileId = s.maxFileId := by
  unfold persistCatalog; split_ifs <;> rfl

@[simp] theorem persistCatalog_freeNum : (persistCatalog sys s).freeNum = s.freeNum := by
  unfold persistCatalog; split_ifs <;> rfl

@[simp] theorem persistCatalog_freeList : (persistCatalog sys s).freeList = s.freeList := by
  unfold persistCatalog; split_ifs <;> rfl

@[simp] theorem persistCatalog_mem : (persistCatalog sys s).mem = s.mem := by
  unfold persistCatalog; split_ifs <;> rfl

@[simp] theorem persistCatalog_nodes : (persistCatalog sys s).nodes = s.nodes := by
  unfold persistCatalog; split_ifs <;> rfl

@[simp] theorem persistCatalog_groups : (persistCatalog sys s).disk.groups = s.disk.groups := by
  unfold persistCatalog; split_ifs <;> rfl

end FileWrites

/-- `releaseLeaf` before the header is rewritten: the start pointer and the two
    allocator files. -/
def unlist (sys : Sys) (p : PPointer) (s : World) : World :=
  let s := if s.startLeaf = p then
      persistCatalog sys { s with startLeaf := (s.leafAt p).pNext }
    else s
  if sys.openFreeList then rewriteFreeList s s.freeNum [p] else s

theorem unlist_fields (sys : Sys) (p : PPointer) (s : World) :
    (unlist sys p s).startLeaf = (if s.startLeaf = p then (s.leafAt p).pNext else s.startLeaf) ∧
    (unlist sys p s).maxFileId = s.maxFileId ∧ (unlist sys p s).freeNum = s.freeNum ∧
    (unlist sys p s).freeList = s.freeList ∧ (unlist sys p s).mem = s.mem ∧
    (unlist sys p s).nodes = s.nodes ∧ (unlist sys p s).disk.groups = s.disk.groups := by
  unfold unlist
  split_ifs <;> simp [rewriteFreeList]

theorem releaseLeaf_eq (sys : Sys) (p : PPointer) (s : World) :
    releaseLeaf sys p s =
      (World.setHeader { unlist sys p s with
          freeList := (unlist sys p s).freeList ++ [p], freeNum := (unlist sys p s).freeNum + 1 }
        p.fileId (((unlist sys p s).mem p.fileId).usedNum - 1)
        (Function.update ((unlist sys p s).mem p.fileId).bitmap (leafIndex p) 0)).persistHeader
          p.fileId := rfl

theorem releaseLeaf_spec (sys : Sys) (p : PPointer) (s : World) :
    Freed s p (releaseLeaf sys p s) := by
  obtain ⟨h1, h2, h3, h4, h5, h6, h7⟩ := unlist_fields sys p s
  rw [releaseLeaf_eq]
  refine ⟨by simp [h4], by simp [h3], by simp [h2], by simp [h1], ?_, by simp [h6], ?_⟩
  · simp [World.setHeader, regroup, h5]
  · intro hs
    apply Synced.setHeader_persistHeader
    unfold Synced at *
    simp [h7, h5, hs]

/-- `freeLeaf` frees exactly the leaves in use. -/
theorem freeLeaf_of_used {sys : Sys} {p : PPointer} {s : World} (h : s.ifLeafUsed p = true) :
    freeLeaf sys p s = (true, releaseLeaf sys p s) := by
  simp [freeLeaf, h]

theorem freeLeaf_of_not_used {sys : Sys} {p : PPointer} {s : World} (h : s.ifLeafUsed p = false) :
    freeLeaf sys p s = (false, s) := by
  simp [freeLeaf, h]

namespace Freed

variable {s s' : World} {p q : PPointer}

theorem used_iff (h : Freed s p s') (hp : s.ifLeafUsed p = true) :
    s'.ifLeafUsed q = true ↔ q ≠ p ∧ s.ifLeafUsed q = true := by
  have hpe := (ifLeafUsed_iff.mp hp).1
  by_cases hq : q = p
  · subst hq
    rw [ifLeafUsed_iff, headerByte_regroup_self h.mem]
    simp
  · rw [used_regroup_of_ne h.mem h.maxFileId (aligned_of_exist hpe) hq]
    simp [hq]

theorem leafAt (h : Freed s p s') : s'.leafAt q = s.leafAt q := by
  unfold World.leafAt
  rw [h.mem, regroup]
  by_cases hf : q.fileId = p.fileId
  · simp only [hf, Function.update_self]
  · simp only [Function.update_of_ne hf]

theorem not_mem (hs : AllocOk s) (hp : s.ifLeafUsed p = true) : p ∉ s.freeList := by
  intro hm
  obtain ⟨he, hb⟩ := ifLeafUsed_iff.mp hp
  exact hb (hs.free p hm (ne_zero_of_exist he)).2

theorem allocOk (h : Freed s p s') (hs : AllocOk s) (hp : s.ifLeafUsed p = true) : AllocOk s' where
  one_le := by rw [h.maxFileId]; exact hs.one_le
  freeNum_eq := by rw [h.freeNum, h.freeList, hs.freeNum_eq]; simp
  free q hq hz := by
    have hpe := (ifLeafUsed_iff.mp hp).1
    rw [World.ifLeafExist_congr h.maxFileId]
    rw [h.freeList] at hq
    rcases List.mem_append.mp hq with hq | hq
    · obtain ⟨he, hb⟩ := hs.free q hq hz
      have hne : q ≠ p := fun hqp => not_mem hs hp (hqp ▸ hq)
      rw [headerByte_regroup_of_ne h.mem (aligned_of_exist hpe) (aligned_of_exist he) hne]
      exact ⟨he, hb⟩
    · rw [List.mem_singleton.mp hq]
      exact ⟨hpe, headerByte_regroup_self h.mem⟩
  nodup := by
    rw [h.freeList, List.filter_append, List.nodup_append']
    refine ⟨hs.nodup, (List.nodup_singleton p).filter _, ?_⟩
    intro q hq hq'
    have hqp := List.mem_singleton.mp (List.mem_filter.mp hq').1
    exact not_mem hs hp (hqp ▸ (List.mem_filter.mp hq).1)
  byte q hq := by
    have hpe := (ifLeafUsed_iff.mp hp).1
    rw [World.ifLeafExist_congr h.maxFileId] at hq
    by_cases hqp : q = p
    · subst hqp
      exact Or.inl (headerByte_regroup_self h.mem)
    · rw [headerByte_regroup_of_ne h.mem (aligned_of_exist hpe) (aligned_of_exist hq) hqp]
      exact hs.byte q hq

end Freed

end FPTreeDB
