import FPTreeDB.Leaf.Chain

/-!
# `LeafNode::split`

`split` computes its pieces independently: the median from a sorted copy of the
keys, the bitmap of the new leaf from comparisons with the median, the bitmap of the
old leaf as a byte-wise complement, and the counters as constants.

* `Partition`: the pieces fit together.
* `partition_split`: they do for every full leaf of distinct keys.
* `split_partition`: the same for `LeafNode::split` in a store, with the addressing
  of slots that all bit operations share.
-/

namespace FPTreeDB

open Links PAllocator

namespace LeafImage

variable {L : ℕ} {img : LeafImage} {m : Key} {i : ℕ}

/-- A full leaf was cut in two at `sep`: half of the entries are in each part, the
    lower half in `old` and the upper half in `new`, each in the slot it had. -/
structure Partition (L : ℕ) (img old new : LeafImage) (sep : Key) : Prop where
  length_old : (old.slots L).length = L
  length_new : (new.slots L).length = L
  below : ∀ k ∈ old.keys L, k < sep
  above : ∀ k ∈ new.keys L, sep ≤ k
  sep_mem : sep ∈ new.keys L
  slot : ∀ i < L * 2,
    (old.getBit L i = true ∧ new.getBit L i = false ∧ old.kv i = img.kv i ∧
      old.fingerprints i = img.fingerprints i) ∨
    (old.getBit L i = false ∧ new.getBit L i = true ∧ new.kv i = img.kv i ∧
      new.fingerprints i = img.fingerprints i)

theorem getBit_splitNew {zero : LeafImage} (hi : i < L * 2) :
    (img.splitNew L zero m).getBit L i = decide (m ≤ (img.kv i).k) := by
  rw [Bool.eq_iff_iff, ← mem_slots, slots_splitNew, List.mem_filter, List.mem_range]
  simp [hi]

theorem getBit_splitOld {q : PPointer} (hi : i < L * 2) :
    (img.splitOld L m q).getBit L i = !decide (m ≤ (img.kv i).k) := by
  rw [Bool.eq_iff_iff, ← mem_slots, slots_splitOld, List.mem_filter, List.mem_range]
  simp [hi]

/-- The median is one of the keys. -/
theorem findSplitKey_mem (hL : 0 < L) (hfull : (img.slots L).length = L * 2) :
    img.findSplitKey L ∈ img.keys L := by
  have hkeys : (img.keys L).insertionSort (· ≤ ·) =
      ((List.range (L * 2)).map fun i => (img.kv i).k).insertionSort (· ≤ ·) := by
    rw [keys_full hfull]
  have hlen : L < ((img.keys L).insertionSort (· ≤ ·)).length := by
    rw [List.length_insertionSort, length_keys, hfull]
    omega
  rw [findSplitKey, ← hkeys, List.getD_eq_getElem _ _ hlen]
  exact (List.perm_insertionSort _ _).mem_iff.mp (List.getElem_mem hlen)

/-- The parts of a full leaf of distinct keys, whatever the order of its slots. -/
theorem partition_split {zero : LeafImage} {q : PPointer} (hL : 0 < L)
    (hfull : (img.slots L).length = L * 2) (hd : (img.keys L).Nodup) :
    Partition L img (img.splitOld L (img.findSplitKey L) q)
      (img.splitNew L zero (img.findSplitKey L)) (img.findSplitKey L) := by
  refine ⟨length_splitOld hfull hL hd, length_splitNew hfull hL hd, ?_, ?_, ?_, ?_⟩
  · intro k hk
    rw [keys, pairs_splitOld hfull] at hk
    obtain ⟨x, hx, rfl⟩ := List.mem_map.mp hk
    simpa using (List.mem_filter.mp hx).2
  · intro k hk
    rw [keys, pairs_splitNew hfull] at hk
    obtain ⟨x, hx, rfl⟩ := List.mem_map.mp hk
    simpa using (List.mem_filter.mp hx).2
  · obtain ⟨x, hx, hsep⟩ := List.mem_map.mp (findSplitKey_mem hL hfull)
    rw [keys, pairs_splitNew hfull]
    exact List.mem_map.mpr ⟨x, List.mem_filter.mpr ⟨hx, by simp [hsep]⟩, hsep⟩
  · intro i hi
    rw [getBit_splitOld hi, getBit_splitNew hi]
    by_cases hm : img.findSplitKey L ≤ (img.kv i).k
    · refine Or.inr ⟨by simp [hm], by simp [hm], ?_, ?_⟩
      · exact if_pos ⟨hi, hm⟩
      · exact if_pos ⟨hi, hm⟩
    · exact Or.inl ⟨by simp [hm], by simp [hm], rfl, rfl⟩

/-- Every operation on a bitmap takes slot `i` to be bit `7 - i % 8` of byte `i / 8`
    and leaves the bits of the other slots as they are. -/
structure SlotOps (L : ℕ) : Prop where
  set : ∀ b i j, (setBitmap b i (j / 8)).getLsbD (7 - j % 8) =
    (decide (j = i) || (b (j / 8)).getLsbD (7 - j % 8))
  clear : ∀ b i j, (clearBitmap b i (j / 8)).getLsbD (7 - j % 8) =
    (decide (j ≠ i) && (b (j / 8)).getLsbD (7 - j % 8))
  complement : ∀ (b : ℕ → Byte) j, (~~~(b (j / 8))).getLsbD (7 - j % 8) =
    !(b (j / 8)).getLsbD (7 - j % 8)
  getBit : ∀ (img : LeafImage) (i : ℕ), img.getBit L i =
    (decide (i < L * 2) && (img.bitmap (i / 8)).getLsbD (7 - i % 8))
  findFirstZero : ∀ img : LeafImage,
    (∀ i < img.findFirstZero L, (img.bitmap (i / 8)).getLsbD (7 - i % 8) = true) ∧
    (img.findFirstZero L < L * 2 →
      (img.bitmap (img.findFirstZero L / 8)).getLsbD (7 - img.findFirstZero L % 8) = false) ∧
    img.findFirstZero L ≤ L * 2

/-- The slots before the first free one are taken. -/
theorem getBit_of_lt_findFirstZero (h : i < img.findFirstZero L) : img.getBit L i = true := by
  unfold findFirstZero at h
  cases hf : (List.range (L * 2)).find? fun i => !img.getBit L i with
  | none =>
    rw [hf, Option.getD_none] at h
    simpa using List.find?_eq_none.mp hf i (List.mem_range.mpr h)
  | some j =>
    rw [hf, Option.getD_some] at h
    obtain ⟨-, hj, hlt⟩ := List.find?_range_eq_some.mp hf
    simpa using hlt i h

theorem findFirstZero_le : img.findFirstZero L ≤ L * 2 := by
  unfold findFirstZero
  cases hf : (List.range (L * 2)).find? fun i => !img.getBit L i with
  | none => exact le_rfl
  | some j => exact (List.mem_range.mp (List.mem_of_find?_eq_some hf)).le

theorem slotOps (L : ℕ) : SlotOps L := by
  refine ⟨?_, ?_, ?_, ?_, ?_⟩
  · intro b i j
    rw [← bit_eq_getLsbD, bit_setBitmap, bit_eq_getLsbD]
  · intro b i j
    rw [← bit_eq_getLsbD, bit_clearBitmap, bit_eq_getLsbD]
  · intro b j
    rw [← bit_eq_getLsbD (fun j => ~~~(b j)), bit_not, bit_eq_getLsbD]
  · intro img i
    rw [getBit_eq, bit_eq_getLsbD]
  · intro img
    refine ⟨fun i hi => ?_, fun hlt => ?_, findFirstZero_le⟩
    · have h := getBit_of_lt_findFirstZero hi
      rw [getBit_eq, bit_eq_getLsbD, Bool.and_eq_true] at h
      exact h.2
    · have h := findFirstZero_spec hlt
      rw [getBit_eq, bit_eq_getLsbD, decide_eq_true hlt, Bool.true_and] at h
      exact h

end LeafImage

/-- `LeafNode::split` of a full leaf that holds distinct keys, in a store where a new
    leaf can be had: the two leaves are an exact partition of the old one, with the
    counters that `split` assigns. -/
theorem split_partition (s : World) (chain : List PPointer) (p q : PPointer) (nd : LeafNode)
    (s0 : World) (hst : StoreInv s chain) (hn : s.nodes p = some nd)
    (hnn : nd.n = ((s.leafAt p).slots LEAF_DEGREE).length)
    (hfull : ((s.leafAt p).slots LEAF_DEGREE).length = LEAF_DEGREE * 2)
    (hd : ((s.leafAt p).keys LEAF_DEGREE).Nodup) (hnew : LeafNode.create Sys.ok s = (some q, s0)) :
    ∃ sep s', LeafNode.split Sys.ok p s = some (some (sep, q), s') ∧
      LeafImage.Partition LEAF_DEGREE (s.leafAt p) (s'.leafAt p) (s'.leafAt q) sep ∧
      (s'.nodes p).map LeafNode.n = some (((s'.leafAt p).slots LEAF_DEGREE).length : ℤ) ∧
      (s'.nodes q).map LeafNode.n = some (((s'.leafAt q).slots LEAF_DEGREE).length : ℤ) ∧
      LeafImage.SlotOps LEAF_DEGREE := by
  obtain ⟨l1, l2, rfl⟩ := List.append_of_mem (hst.mem_of_node hn)
  obtain ⟨s', hsplit, hs⟩ := hst.split hn (by rw [hnn, hfull]; push_cast; omega) hnew
  have hpart := @LeafImage.partition_split _ _ LeafImage.zero q
    (show 0 < LEAF_DEGREE by decide) hfull hd
  rw [← hs.leaf_old, ← hs.leaf_new] at hpart
  refine ⟨_, s', hsplit, hpart, ?_, ?_, LeafImage.slotOps _⟩
  · rw [hs.n_old, hpart.length_old]
  · rw [hs.n_new, hpart.length_new]

/-- A store of one leaf with the given bytes and count. -/
theorem exists_oneLeaf (env : Env) (img : LeafImage) (himg : img.pNext = PPointer.zero) (n : ℤ) :
    ∃ s p, StoreInv s [p] ∧ AllocInv s ∧ s.leafAt p = img ∧ s.nodes p = some ⟨n, none, none⟩ := by
  obtain ⟨p, s0, hg, ha⟩ := (construct_empty_allocInv env).getLeaf_ok
  have hcreate : LeafNode.create Sys.ok (construct env Sys.ok Storage.empty) =
      (some p, s0.setNode p (some ⟨0, none, none⟩)) := by rw [LeafNode.create, hg]
  obtain ⟨hst, hzero, hn⟩ := (construct_empty_storeInv env).create_first hcreate
  have hedit : StoreInv ((s0.setNode p (some ⟨0, none, none⟩)).edit p img ⟨n, none, none⟩) [p] :=
    hst.edit hn (by rw [himg, hzero]; rfl) rfl rfl
  exact ⟨_, p, hedit, (ha.congr (SameHeads.setNode _)).congr edit_sameHeads, edit_leafAt_self,
    edit_nodes_self⟩

/-- A leaf all of whose slots are set, with the slot numbers as keys. -/
def LeafImage.full (keyHash : Key → Byte) : LeafImage where
  bitmap _ := 255
  pNext := PPointer.zero
  fingerprints i := keyHash (Fin.ofNat _ i)
  kv i := ⟨Fin.ofNat _ i, 0⟩

theorem LeafImage.full_slots (keyHash : Key → Byte) (L : ℕ) :
    ((LeafImage.full keyHash).slots L).length = L * 2 := by
  have hbits : ∀ j < 8, (255 : Byte).getLsbD j = true := by decide
  have hall : ∀ i ∈ List.range (L * 2), (LeafImage.full keyHash).getBit L i = true := by
    intro i hi
    rw [getBit_eq, bit_eq_getLsbD, decide_eq_true (List.mem_range.mp hi), Bool.true_and]
    exact hbits _ (by omega)
  rw [slots, List.filter_eq_self.mpr hall, List.length_range]

theorem LeafImage.full_ok (keyHash : Key → Byte) :
    (LeafImage.full keyHash).Ok keyHash LEAF_DEGREE := by
  refine ⟨fun i _ => rfl, ?_⟩
  rw [keys_full (full_slots keyHash LEAF_DEGREE)]
  refine List.Nodup.map_on (fun i hi j hj hij => ?_) List.nodup_range
  have hi' : i < 112 := List.mem_range.mp hi
  have hj' : j < 112 := List.mem_range.mp hj
  have hval : i % 2 ^ 64 = j % 2 ^ 64 := congrArg Fin.val hij
  omega

theorem split_partition_full : ∃ s p sep q s',
    s.leafAt p = LeafImage.full Env.flat.keyHash ∧
    LeafNode.split Sys.ok p s = some (some (sep, q), s') ∧
    LeafImage.Partition LEAF_DEGREE (LeafImage.full Env.flat.keyHash) (s'.leafAt p)
    (s'.leafAt q) sep := by
  obtain ⟨s, p, hst, ha, hleaf, hn⟩ := exists_oneLeaf Env.flat (LeafImage.full Env.flat.keyHash) rfl
    ((LEAF_DEGREE * 2 : ℕ) : ℤ)
  have hlen : ((s.leafAt p).slots LEAF_DEGREE).length = LEAF_DEGREE * 2 := by
    rw [hleaf, LeafImage.full_slots]
  obtain ⟨q, s0, hg, -⟩ := ha.getLeaf_ok
  obtain ⟨sep, s', hsplit, hpart, -⟩ := split_partition s [p] p q _ _ hst hn (by rw [hlen]) hlen
    (by rw [hleaf]; exact (LeafImage.full_ok _).distinct) (by rw [LeafNode.create, hg])
  exact ⟨s, p, sep, q, s', hleaf, hsplit, hleaf ▸ hpart⟩

end FPTreeDB
