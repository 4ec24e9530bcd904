import FPTreeDB.Model.PAllocator

/-!
# Persistent pointers and the bytes they name

* `ifLeafExist_iff`: the pointer check of `ifLeafExist` accepts exactly the
  starts of the leaves of the existing groups, although
  `p.offset - LEAF_GROUP_HEAD` wraps around for small offsets.
* `ifLeafExist_exact`: what the three pointer checks answer for every pointer and
  which byte they read.
* `leafAt_setLeaf_of_ne`: two leaf pointers that differ name different bytes.
* field lemmas for the stores and persist steps of `World`.
-/

namespace FPTreeDB

theorem calLeafSize_eq : calLeafSize LEAF_DEGREE = 1934 := rfl

theorem leafGroupHead_eq : LEAF_GROUP_HEAD = 24 := rfl

/-- The pointer to leaf `i` of group `f`. -/
def groupPointer (f i : ℕ) : PPointer := ⟨f, LEAF_GROUP_HEAD + i * calLeafSize LEAF_DEGREE⟩

/-- `p` points to the start of a leaf. -/
def Aligned (p : PPointer) : Prop := ∃ i < LEAF_GROUP_AMOUNT, p = groupPointer p.fileId i

theorem aligned_groupPointer {f i : ℕ} (hi : i < LEAF_GROUP_AMOUNT) : Aligned (groupPointer f i) :=
  ⟨i, hi, rfl⟩

theorem leafIndex_groupPointer {f i : ℕ} (hi : i < LEAF_GROUP_AMOUNT) :
    leafIndex (groupPointer f i) = i := by
  simp only [leafIndex, groupPointer, sub64, calLeafSize_eq, leafGroupHead_eq]
  simp only [LEAF_GROUP_AMOUNT] at hi
  omega

theorem Aligned.eq_groupPointer {p : PPointer} (h : Aligned p) :
    p = groupPointer p.fileId (leafIndex p) := by
  obtain ⟨i, hi, hp⟩ := h
  have : leafIndex p = i := by rw [hp]; exact leafIndex_groupPointer hi
  rw [this]; exact hp

theorem Aligned.leafIndex_lt {p : PPointer} (h : Aligned p) : leafIndex p < LEAF_GROUP_AMOUNT := by
  obtain ⟨i, hi, hp⟩ := h
  rw [hp, leafIndex_groupPointer hi]; exact hi

theorem Aligned.ext {p q : PPointer} (hp : Aligned p) (hq : Aligned q) (hf : p.fileId = q.fileId)
    (hi : leafIndex p = leafIndex q) : p = q := by
  rw [hp.eq_groupPointer, hq.eq_groupPointer, hf, hi]

theorem aligned_iff {p : PPointer} :
    Aligned p ↔ ∃ i < LEAF_GROUP_AMOUNT,
      p.offset = LEAF_GROUP_HEAD + i * calLeafSize LEAF_DEGREE := by
  constructor
  · rintro ⟨i, hi, hp⟩
    exact ⟨i, hi, by rw [hp]; rfl⟩
  · rintro ⟨i, hi, hp⟩
    refine ⟨i, hi, ?_⟩
    obtain ⟨f, o⟩ := p
    simp only [groupPointer, PPointer.mk.injEq, true_and]
    exact hp

theorem sub64_of_le {a b : ℕ} (h : b ≤ a) (ha : a < 2 ^ 64) : sub64 a b = a - b := by
  unfold sub64
  rw [show a + (2 ^ 64 - b) = a - b + 2 ^ 64 by omega, Nat.add_mod_right,
    Nat.mod_eq_of_lt (by omega)]

/-- The wrapped difference of a small offset is not a multiple of the leaf size. -/
theorem sub64_mod_ne_zero {a : ℕ} (h : a < 24) : sub64 a 24 % 1934 ≠ 0 := by
  have hlt : a + (2 ^ 64 - 24) < 2 ^ 64 := by omega
  have hmod : 2 ^ 64 - 24 = 542 + 1934 * 9538130338009075 := by norm_num
  rw [sub64, Nat.mod_eq_of_lt hlt, hmod, ← Nat.add_assoc, Nat.add_mul_mod_self_left]
  omega

/-- `ifLeafExist` holds exactly for the leaves of groups `1 .. maxFileId - 1`. -/
theorem ifLeafExist_iff {s : World} {p : PPointer} :
    s.ifLeafExist p = true ↔ 1 ≤ p.fileId ∧ p.fileId < s.maxFileId ∧ Aligned p := by
  rw [aligned_iff]
  unfold World.ifLeafExist
  rw [calLeafSize_eq, leafGroupHead_eq]
  unfold LEAF_GROUP_AMOUNT
  split_ifs with h1 h2 h3
  · simp only [false_iff]
    rintro ⟨h, h', -⟩
    unfold ILLEGAL_FILE_ID at h1
    omega
  · simp only [false_iff]
    rintro ⟨-, -, i, hi, hp⟩
    omega
  · simp only [false_iff]
    rintro ⟨-, -, i, hi, hp⟩
    rw [hp, sub64_of_le (by omega) (by omega)] at h3
    omega
  · simp only [true_iff]
    unfold ILLEGAL_FILE_ID at h1
    have h4 : 24 ≤ p.offset := by
      by_contra h4
      exact h3 (sub64_mod_ne_zero (by omega))
    rw [sub64_of_le h4 (by omega)] at h3
    refine ⟨by omega, by omega, (p.offset - 24) / 1934, by omega, by omega⟩

theorem aligned_of_exist {s : World} {p : PPointer} (h : s.ifLeafExist p = true) : Aligned p :=
  (ifLeafExist_iff.mp h).2.2

theorem ifLeafFree_iff {s : World} {p : PPointer} :
    s.ifLeafFree p = true ↔ s.ifLeafExist p = true ∧ s.headerByte p = 0 := by
  unfold World.ifLeafFree
  split_ifs with h <;> simp [h]

theorem ifLeafUsed_iff {s : World} {p : PPointer} :
    s.ifLeafUsed p = true ↔ s.ifLeafExist p = true ∧ s.headerByte p ≠ 0 := by
  unfold World.ifLeafUsed
  by_cases h : s.ifLeafExist p = true
  · simp [h, World.ifLeafFree]
  · simp [h]

theorem not_used_zero (s : World) : s.ifLeafUsed PPointer.zero = false := by
  simp [World.ifLeafUsed, World.ifLeafExist, PPointer.zero, ILLEGAL_FILE_ID]

theorem aligned_of_mem_groupPointers {f : ℕ} {p : PPointer} (h : p ∈ PAllocator.groupPointers f) :
    Aligned p ∧ p.fileId = f := by
  obtain ⟨i, hi, rfl⟩ := List.mem_map.mp h
  exact ⟨aligned_groupPointer (List.mem_range.mp hi), rfl⟩

theorem mem_groupPointers {f : ℕ} {p : PPointer} :
    p ∈ PAllocator.groupPointers f ↔ Aligned p ∧ p.fileId = f := by
  refine ⟨aligned_of_mem_groupPointers, ?_⟩
  rintro ⟨⟨i, hi, hp⟩, rfl⟩
  exact List.mem_map.mpr ⟨i, List.mem_range.mpr hi, hp.symm⟩

theorem nodup_groupPointers (f : ℕ) : (PAllocator.groupPointers f).Nodup := by
  refine List.Nodup.map_on ?_ List.nodup_range
  intro i _ j _ h
  simp only [PPointer.mk.injEq, calLeafSize_eq, true_and] at h
  omega

@[simp] theorem length_groupPointers (f : ℕ) :
    (PAllocator.groupPointers f).length = LEAF_GROUP_AMOUNT := by
  simp [PAllocator.groupPointers]

/-! ## Fields after a store or a persist step -/

namespace World

variable (s : World) (p q : PPointer) (f : ℕ) (img : LeafImage) (d : Storage) (u : ℕ)
  (b : ℕ → Byte) (nd : Option LeafNode)

@[simp] theorem setLeaf_startLeaf : (s.setLeaf p img).startLeaf = s.startLeaf := rfl
@[simp] theorem setLeaf_maxFileId : (s.setLeaf p img).maxFileId = s.maxFileId := rfl
@[simp] theorem setLeaf_freeNum : (s.setLeaf p img).freeNum = s.freeNum := rfl
@[simp] theorem setLeaf_freeList : (s.setLeaf p img).freeList = s.freeList := rfl
@[simp] theorem setLeaf_disk : (s.setLeaf p img).disk = s.disk := rfl
@[simp] theorem setLeaf_nodes : (s.setLeaf p img).nodes = s.nodes := rfl

@[simp] theorem setHeader_startLeaf : (s.setHeader f u b).startLeaf = s.startLeaf := rfl
@[simp] theorem setHeader_maxFileId : (s.setHeader f u b).maxFileId = s.maxFileId := rfl
@[simp] theorem setHeader_freeNum : (s.setHeader f u b).freeNum = s.freeNum := rfl
@[simp] theorem setHeader_freeList : (s.setHeader f u b).freeList = s.freeList := rfl
@[simp] theorem setHeader_disk : (s.setHeader f u b).disk = s.disk := rfl
@[simp] theorem setHeader_nodes : (s.setHeader f u b).nodes = s.nodes := rfl

@[simp] theorem commit_startLeaf : (s.commit d).startLeaf = s.startLeaf := rfl
@[simp] theorem commit_maxFileId : (s.commit d).maxFileId = s.maxFileId := rfl
@[simp] theorem commit_freeNum : (s.commit d).freeNum = s.freeNum := rfl
@[simp] theorem commit_freeList : (s.commit d).freeList = s.freeList := rfl
@[simp] theorem commit_mem : (s.commit d).mem = s.mem := rfl
@[simp] theorem commit_disk : (s.commit d).disk = d := rfl
@[simp] theorem commit_nodes : (s.commit d).nodes = s.nodes := rfl

@[simp] theorem persistLeaf_startLeaf : (s.persistLeaf p).startLeaf = s.startLeaf := rfl
@[simp] theorem persistLeaf_maxFileId : (s.persistLeaf p).maxFileId = s.maxFileId := rfl
@[simp] theorem persistLeaf_freeNum : (s.persistLeaf p).freeNum = s.freeNum := rfl
@[simp] theorem persistLeaf_freeList : (s.persistLeaf p).freeList = s.freeList := rfl
@[simp] theorem persistLeaf_mem : (s.persistLeaf p).mem = s.mem := rfl
@[simp] theorem persistLeaf_nodes : (s.persistLeaf p).nodes = s.nodes := rfl

@[simp] theorem persistHeader_startLeaf : (s.persistHeader f).startLeaf = s.startLeaf := rfl
@[simp] theorem persistHeader_maxFileId : (s.persistHeader f).maxFileId = s.maxFileId := rfl
@[simp] theorem persistHeader_freeNum : (s.persistHeader f).freeNum = s.freeNum := rfl
@[simp] theorem persistHeader_freeList : (s.persistHeader f).freeList = s.freeList := rfl
@[simp] theorem persistHeader_mem : (s.persistHeader f).mem = s.mem := rfl
@[simp] theorem persistHeader_nodes : (s.persistHeader f).nodes = s.nodes := rfl

@[simp] theorem persistGroup_startLeaf : (s.persistGroup f).startLeaf = s.startLeaf := rfl
@[simp] theorem persistGroup_maxFileId : (s.persistGroup f).maxFileId = s.maxFileId := rfl
@[simp] theorem persistGroup_freeNum : (s.persistGroup f).freeNum = s.freeNum := rfl
@[simp] theorem persistGroup_freeList : (s.persistGroup f).freeList = s.freeList := rfl
@[simp] theorem persistGroup_mem : (s.persistGroup f).mem = s.mem := rfl
@[simp] theorem persistGroup_nodes : (s.persistGroup f).nodes = s.nodes := rfl

@[simp] theorem setNode_startLeaf : (s.setNode p nd).startLeaf = s.startLeaf := rfl
@[simp] theorem setNode_maxFileId : (s.setNode p nd).maxFileId = s.maxFileId := rfl
@[simp] theorem setNode_freeNum : (s.setNode p nd).freeNum = s.freeNum := rfl
@[simp] theorem setNode_freeList : (s.setNode p nd).freeList = s.freeList := rfl
@[simp] theorem setNode_mem : (s.setNode p nd).mem = s.mem := rfl
@[simp] theorem setNode_disk : (s.setNode p nd).disk = s.disk := rfl

/-! ## Leaves and headers after a store -/

variable {s p q f nd}

theorem setNode_nodes_self : (s.setNode p nd).nodes p = nd := by
  simp [setNode]

theorem setNode_nodes_of_ne (h : q ≠ p) : (s.setNode p nd).nodes q = s.nodes q := by
  simp [setNode, h]

theorem leafAt_setLeaf_self : (s.setLeaf p img).leafAt p = img := by
  simp [leafAt, setLeaf, LeafGroup.setLeaf]

theorem leafAt_setLeaf_of_ne (hp : Aligned p) (hq : Aligned q) (h : q ≠ p) :
    (s.setLeaf p img).leafAt q = s.leafAt q := by
  unfold leafAt setLeaf LeafGroup.setLeaf
  by_cases hf : q.fileId = p.fileId
  · have hi : leafIndex q ≠ leafIndex p := fun hi => h (hq.ext hp hf hi)
    simp only [hf, Function.update_self]
    rw [Function.update_of_ne hi]
  · simp only [Function.update_of_ne hf]

theorem setLeaf_leafAt : s.setLeaf p (s.leafAt p) = s := by
  simp only [setLeaf, LeafGroup.setLeaf, leafAt, Function.update_eq_self]

theorem setLeaf_setLeaf (img' : LeafImage) :
    (s.setLeaf p img).setLeaf p img' = s.setLeaf p img' := by
  simp only [setLeaf, LeafGroup.setLeaf, Function.update_self, Function.update_idem]

theorem headerByte_setLeaf : (s.setLeaf p img).headerByte q = s.headerByte q := by
  unfold headerByte setLeaf LeafGroup.setLeaf
  by_cases hf : q.fileId = p.fileId
  · simp only [hf, Function.update_self]
  · simp only [Function.update_of_ne hf]

/-- `ifLeafExist` only looks at `maxFileId`. -/
theorem ifLeafExist_congr {s' : World} (h : s'.maxFileId = s.maxFileId) :
    s'.ifLeafExist p = s.ifLeafExist p := by
  simp only [ifLeafExist, h]

theorem ifLeafUsed_congr {s' : World} (h : s'.maxFileId = s.maxFileId)
    (hb : s'.headerByte p = s.headerByte p) : s'.ifLeafUsed p = s.ifLeafUsed p := by
  simp only [ifLeafUsed, ifLeafFree, ifLeafExist_congr h, hb]

theorem ifLeafFree_congr {s' : World} (h : s'.maxFileId = s.maxFileId)
    (hb : s'.headerByte p = s.headerByte p) : s'.ifLeafFree p = s.ifLeafFree p := by
  simp only [ifLeafFree, ifLeafExist_congr h, hb]

end World

/-- The pointer checks, for every pointer: a leaf exists exactly at the start of a
    leaf of a group below `maxFileId`; `ifLeafUsed` and `ifLeafFree` then depend on
    nothing but its byte in the header of its own group, and exactly one of them
    holds; for any other pointer neither does. -/
theorem ifLeafExist_exact (s : World) (p : PPointer) :
    (s.ifLeafExist p = true ↔ 1 ≤ p.fileId ∧ p.fileId < s.maxFileId ∧
      ∃ i < LEAF_GROUP_AMOUNT, p.offset = LEAF_GROUP_HEAD + i * calLeafSize LEAF_DEGREE) ∧
    (s.ifLeafExist p = true → ∃ i < LEAF_GROUP_AMOUNT,
      p.offset = LEAF_GROUP_HEAD + i * calLeafSize LEAF_DEGREE ∧
      World.headerAddr p = 8 + i ∧ World.headerAddr p < LEAF_GROUP_HEAD ∧
      ∀ s' : World, s'.maxFileId = s.maxFileId →
        (s'.mem p.fileId).bitmap i = (s.mem p.fileId).bitmap i →
        s'.ifLeafUsed p = s.ifLeafUsed p ∧ s'.ifLeafFree p = s.ifLeafFree p) ∧
    (s.ifLeafExist p = true → Xor (s.ifLeafUsed p = true) (s.ifLeafFree p = true)) ∧
    (s.ifLeafExist p = false → s.ifLeafUsed p = false ∧ s.ifLeafFree p = false) := by
  refine ⟨by rw [ifLeafExist_iff, aligned_iff], fun h => ?_, fun h => ?_, fun h => ?_⟩
  · have ha := aligned_of_exist h
    have hlt := ha.leafIndex_lt
    refine ⟨leafIndex p, hlt, congrArg PPointer.offset ha.eq_groupPointer, rfl, ?_, ?_⟩
    · unfold World.headerAddr LEAF_GROUP_HEAD
      omega
    · intro s' hm hb
      exact ⟨World.ifLeafUsed_congr hm hb, World.ifLeafFree_congr hm hb⟩
  · rw [ifLeafUsed_iff, ifLeafFree_iff]
    by_cases hb : s.headerByte p = 0
    · exact Or.inr ⟨⟨h, hb⟩, fun hu => hu.2 hb⟩
    · exact Or.inl ⟨⟨h, hb⟩, fun hf => hb hf.2⟩
  · simp [World.ifLeafUsed, World.ifLeafFree, h]

end FPTreeDB
