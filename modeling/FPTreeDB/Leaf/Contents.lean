import FPTreeDB.Leaf.Bitmap

/-!
# The pairs stored in a leaf

`pairs L img` lists the key-value pairs of the used slots, in slot order. Each
operation on the bytes of a leaf is described by what it does to `pairs`, up to
the order of the slots:

* `findSlot_eq_some`, `findSlot_eq_none`: the search loop finds a key exactly
  when it is stored.
* `pairs_insertAt`, `pairs_removeAt`, `pairs_updateAt`.
* `findSplitKey_count`, `pairs_splitNew`, `pairs_splitOld`: a full leaf is cut
  into two halves of `L` pairs at the median key.
* `minKey_le`, `minKey_mem`: the separator that bulk loading uses.
-/

namespace FPTreeDB

namespace LeafImage

variable {L : ℕ} {img : LeafImage} {keyHash : Key → Byte} {k : Key} {v : Value} {i : ℕ}

/-- The stored pairs. -/
def pairs (L : ℕ) (img : LeafImage) : List KeyValue := (img.slots L).map img.kv

/-- The stored keys. -/
def keys (L : ℕ) (img : LeafImage) : List Key := (img.pairs L).map KeyValue.k

/-- The contents of a leaf are consistent: a used slot has the fingerprint of its
    key, and no key is stored twice. -/
structure Ok (keyHash : Key → Byte) (L : ℕ) (img : LeafImage) : Prop where
  fingerprint : ∀ i ∈ img.slots L, img.fingerprints i = keyHash (img.kv i).k
  distinct : (img.keys L).Nodup

@[simp] theorem length_pairs : (img.pairs L).length = (img.slots L).length := by simp [pairs]

@[simp] theorem length_keys : (img.keys L).length = (img.slots L).length := by simp [keys]

theorem mem_keys : k ∈ img.keys L ↔ ∃ i ∈ img.slots L, (img.kv i).k = k := by
  simp [keys, pairs]

theorem mem_pairs_of_mem_slots (h : i ∈ img.slots L) : img.kv i ∈ img.pairs L :=
  List.mem_map_of_mem h

theorem mem_keys_of_mem_pairs {x : KeyValue} (h : x ∈ img.pairs L) : x.k ∈ img.keys L :=
  List.mem_map_of_mem h

/-- Leaves with the same bitmap and the same used slots store the same pairs. -/
theorem slots_congr {img' : LeafImage} (h : ∀ i < L * 2, bit img'.bitmap i = bit img.bitmap i) :
    img'.slots L = img.slots L := by
  refine List.filter_congr fun i hi => ?_
  rw [getBit_eq, getBit_eq, h i (List.mem_range.mp hi)]

theorem slots_zero : LeafImage.zero.slots L = [] := by
  refine List.filter_eq_nil_iff.mpr fun i _ => ?_
  simp [getBit_eq, bit, zero]

/-! ## Searching -/

theorem findSlot_eq_some (h : img.findSlot keyHash L k = some i) :
    i ∈ img.slots L ∧ (img.kv i).k = k := by
  have := List.find?_some h
  simp only [Bool.and_eq_true, beq_iff_eq] at this
  exact ⟨mem_slots.mpr this.1.1, this.2.symm⟩

theorem findSlot_eq_none (hf : ∀ i ∈ img.slots L, img.fingerprints i = keyHash (img.kv i).k)
    (h : img.findSlot keyHash L k = none) : k ∉ img.keys L := by
  intro hk
  obtain ⟨i, hi, rfl⟩ := mem_keys.mp hk
  have := List.find?_eq_none.mp h i (List.mem_range.mpr (lt_of_mem_slots hi))
  simp [mem_slots.mp hi, hf i hi] at this

/-! ## Free slots -/

theorem findFirstZero_spec (h : img.findFirstZero L < L * 2) :
    img.getBit L (img.findFirstZero L) = false := by
  unfold findFirstZero at h ⊢
  cases hf : (List.range (L * 2)).find? fun i => !img.getBit L i with
  | none => rw [hf] at h; simp at h
  | some i =>
    have := List.find?_some hf
    simpa using this

/-- There is a free slot unless every slot is used. -/
theorem findFirstZero_lt (h : (img.slots L).length < L * 2) : img.findFirstZero L < L * 2 := by
  unfold findFirstZero
  cases hf : (List.range (L * 2)).find? fun i => !img.getBit L i with
  | some i => exact List.mem_range.mp (List.mem_of_find?_eq_some hf)
  | none =>
    have hall : img.slots L = List.range (L * 2) := by
      refine List.filter_eq_self.mpr fun i hi => ?_
      simpa using List.find?_eq_none.mp hf i hi
    rw [hall, List.length_range] at h
    exact absurd h (lt_irrefl _)

theorem slots_eq_range (h : (img.slots L).length = L * 2) : img.slots L = List.range (L * 2) := by
  refine (List.filter_sublist).eq_of_length ?_
  rw [List.length_range]
  exact h

/-! ## Insertion, removal, update -/

/-- The slots after slot `pos` was added. -/
theorem slots_perm_cons {img' : LeafImage} {pos : ℕ}
    (h : ∀ j, img'.getBit L j = true ↔ j = pos ∨ img.getBit L j = true)
    (hpos : img.getBit L pos = false) : (img'.slots L).Perm (pos :: img.slots L) := by
  rw [List.perm_ext_iff_of_nodup (nodup_slots _ _)]
  · intro j
    rw [mem_slots, h, List.mem_cons, mem_slots]
  · refine List.nodup_cons.mpr ⟨?_, nodup_slots _ _⟩
    rw [mem_slots, hpos]
    simp

theorem getBit_insertAt {pos j : ℕ} (hp : pos < L * 2) :
    (img.insertAt keyHash pos k v).getBit L j = true ↔ j = pos ∨ img.getBit L j = true := by
  rw [getBit_eq, getBit_eq, insertAt, bit_setBitmap]
  by_cases hj : j = pos
  · subst hj; simp [hp]
  · simp [hj]

theorem slots_insertAt {pos : ℕ} (hp : pos < L * 2) (hb : img.getBit L pos = false) :
    ((img.insertAt keyHash pos k v).slots L).Perm (pos :: img.slots L) :=
  slots_perm_cons (fun _ => getBit_insertAt hp) hb

theorem ne_of_mem_slots {pos : ℕ} (hb : img.getBit L pos = false) (hi : i ∈ img.slots L) :
    i ≠ pos := by
  rintro rfl
  rw [mem_slots, hb] at hi
  exact absurd hi (by simp)

theorem pairs_insertAt {pos : ℕ} (hp : pos < L * 2) (hb : img.getBit L pos = false) :
    ((img.insertAt keyHash pos k v).pairs L).Perm (⟨k, v⟩ :: img.pairs L) := by
  refine ((slots_insertAt hp hb).map _).trans ?_
  rw [List.map_cons]
  simp only [insertAt, Function.update_self]
  refine List.Perm.cons _ (List.Perm.of_eq ?_)
  exact List.map_congr_left fun i hi => Function.update_of_ne (ne_of_mem_slots hb hi) _ _

theorem Ok.insertAt {pos : ℕ} (h : img.Ok keyHash L) (hp : pos < L * 2)
    (hb : img.getBit L pos = false) (hk : k ∉ img.keys L) :
    (img.insertAt keyHash pos k v).Ok keyHash L := by
  constructor
  · intro i hi
    rw [(slots_insertAt hp hb).mem_iff, List.mem_cons] at hi
    rcases hi with rfl | hi
    · simp [LeafImage.insertAt]
    · have hne := ne_of_mem_slots hb hi
      simp only [LeafImage.insertAt, Function.update_of_ne hne]
      exact h.fingerprint i hi
  · rw [keys, ((pairs_insertAt hp hb).map _).nodup_iff, List.map_cons]
    exact List.nodup_cons.mpr ⟨hk, h.distinct⟩

theorem getBit_removeAt {pos j : ℕ} :
    (img.removeAt pos).getBit L j = true ↔ j ≠ pos ∧ img.getBit L j = true := by
  rw [getBit_eq, getBit_eq, removeAt, bit_clearBitmap]
  by_cases hj : j = pos
  · subst hj; simp
  · simp [hj]

theorem slots_removeAt {pos : ℕ} (hp : pos ∈ img.slots L) :
    (img.slots L).Perm (pos :: (img.removeAt pos).slots L) := by
  refine slots_perm_cons (fun j => ?_) ?_
  · rw [getBit_removeAt]
    by_cases hj : j = pos
    · subst hj; simp [mem_slots.mp hp]
    · simp [hj]
  · rw [← Bool.not_eq_true, getBit_removeAt]
    simp

theorem pairs_removeAt {pos : ℕ} (hp : pos ∈ img.slots L) :
    (img.pairs L).Perm (img.kv pos :: (img.removeAt pos).pairs L) :=
  (slots_removeAt hp).map _

theorem Ok.removeAt {pos : ℕ} (h : img.Ok keyHash L) (hp : pos ∈ img.slots L) :
    (img.removeAt pos).Ok keyHash L := by
  constructor
  · intro i hi
    exact h.fingerprint i ((slots_removeAt hp).mem_iff.mpr (List.mem_cons_of_mem _ hi))
  · have := h.distinct
    rw [keys, ((pairs_removeAt hp).map _).nodup_iff, List.map_cons] at this
    exact (List.nodup_cons.mp this).2

theorem slots_updateAt : (img.updateAt i v).slots L = img.slots L := slots_congr fun _ _ => rfl

/-- An update replaces one pair. -/
theorem pairs_updateAt (hi : i ∈ img.slots L) :
    ∃ rest, (img.pairs L).Perm (img.kv i :: rest) ∧
      ((img.updateAt i v).pairs L).Perm (⟨(img.kv i).k, v⟩ :: rest) := by
  refine ⟨((img.slots L).erase i).map img.kv, (List.perm_cons_erase hi).map _, ?_⟩
  unfold pairs
  rw [slots_updateAt]
  refine ((List.perm_cons_erase hi).map _).trans ?_
  rw [List.map_cons]
  simp only [updateAt, Function.update_self]
  refine List.Perm.cons _ (List.Perm.of_eq (List.map_congr_left fun j hj => ?_))
  exact Function.update_of_ne ((nodup_slots L img).mem_erase_iff.mp hj).1 _ _

theorem keys_updateAt : (img.updateAt i v).keys L = img.keys L := by
  unfold keys pairs
  rw [slots_updateAt, List.map_map, List.map_map]
  refine List.map_congr_left fun j _ => ?_
  simp only [Function.comp, updateAt]
  by_cases hj : j = i
  · subst hj; simp
  · rw [Function.update_of_ne hj]

theorem Ok.updateAt (h : img.Ok keyHash L) : (img.updateAt i v).Ok keyHash L := by
  constructor
  · intro j hj
    rw [slots_updateAt] at hj
    simp only [LeafImage.updateAt]
    by_cases hji : j = i
    · subst hji; simpa using h.fingerprint j hj
    · rw [Function.update_of_ne hji]; exact h.fingerprint j hj
  · rw [keys_updateAt]; exact h.distinct

/-! ## Splitting a full leaf -/

/-- The two middle ones of `2 * L` keys are different. -/
def MiddleDiffer (L : ℕ) (ks : List Key) : Prop :=
  (ks.insertionSort (· ≤ ·)).getD (L - 1) 0 ≠ (ks.insertionSort (· ≤ ·)).getD L 0

instance (L : ℕ) (ks : List Key) : Decidable (MiddleDiffer L ks) :=
  inferInstanceAs (Decidable (_ ≠ _))

theorem insertionSort_congr {l l' : List Key} (h : l.Perm l') :
    l.insertionSort (· ≤ ·) = l'.insertionSort (· ≤ ·) := by
  refine List.Perm.eq_of_pairwise' (List.pairwise_insertionSort _ _)
    (List.pairwise_insertionSort _ _) ?_
  exact (List.perm_insertionSort _ _).trans (h.trans (List.perm_insertionSort _ _).symm)

theorem MiddleDiffer.of_perm {l l' : List Key} (h : MiddleDiffer L l) (hp : l.Perm l') :
    MiddleDiffer L l' := by
  rwa [MiddleDiffer, ← insertionSort_congr hp]

/-- Half of the keys are at or above the middle exactly when the two middle keys
    differ. -/
theorem countP_middle {ks : List Key} (hL : 0 < L) (hlen : ks.length = L * 2) :
    ks.countP ((ks.insertionSort (· ≤ ·)).getD L 0 ≤ ·) = L ↔ MiddleDiffer L ks := by
  rw [MiddleDiffer, ← (List.perm_insertionSort (· ≤ ·) ks).countP_eq]
  have hlen' : (ks.insertionSort (· ≤ ·)).length = L * 2 := by rw [List.length_insertionSort, hlen]
  have hs : (ks.insertionSort (· ≤ ·)).Pairwise (· ≤ ·) := List.pairwise_insertionSort _ _
  generalize ks.insertionSort (· ≤ ·) = S at hlen' hs
  have h1 : L - 1 < S.length := by omega
  have h2 : L < S.length := by omega
  rw [List.getD_eq_getElem _ _ h1, List.getD_eq_getElem _ _ h2]
  have hmono : ∀ i j (hi : i < S.length) (hj : j < S.length), i ≤ j → S[i] ≤ S[j] := by
    intro i j hi hj hij
    rcases hij.lt_or_eq with hlt | rfl
    · exact List.pairwise_iff_getElem.mp hs i j hi hj hlt
    · exact le_rfl
  -- the upper half counts in full, so the lower half must not count at all
  have hupper : (S.drop L).countP (S[L] ≤ ·) = L := by
    rw [List.countP_eq_length.mpr, List.length_drop]
    · omega
    · intro x hx
      obtain ⟨i, hi, rfl⟩ := List.getElem_of_mem hx
      rw [List.getElem_drop]
      exact decide_eq_true (hmono _ _ _ _ (by omega))
  have hsplit : S.countP (S[L] ≤ ·) = (S.take L).countP (S[L] ≤ ·) + L := by
    have happ := @List.countP_append _ (S[L] ≤ ·) (S.take L) (S.drop L)
    rwa [List.take_append_drop, hupper] at happ
  rw [hsplit]
  constructor
  · intro h heq
    have hzero : (S.take L).countP (S[L] ≤ ·) = 0 := by omega
    have hmem : S[L - 1] ∈ S.take L := List.mem_take_iff_getElem.mpr ⟨L - 1, by omega, rfl⟩
    exact List.countP_eq_zero.mp hzero _ hmem (decide_eq_true heq.ge)
  · intro hne
    have hzero : (S.take L).countP (S[L] ≤ ·) = 0 := by
      refine List.countP_eq_zero.mpr fun x hx => ?_
      obtain ⟨i, hi, rfl⟩ := List.mem_take_iff_getElem.mp hx
      have hlt := lt_of_le_of_ne (hmono (L - 1) L h1 h2 (by omega)) hne
      have hle := hmono i (L - 1) (by omega) h1 (by omega)
      simpa using hle.trans_lt hlt
    omega

theorem middleDiffer_of_nodup {ks : List Key} (hL : 0 < L) (hlen : ks.length = L * 2)
    (hd : ks.Nodup) :
    MiddleDiffer L ks := by
  have hlen' : (ks.insertionSort (· ≤ ·)).length = L * 2 := by rw [List.length_insertionSort, hlen]
  have h1 : L - 1 < (ks.insertionSort (· ≤ ·)).length := by omega
  have h2 : L < (ks.insertionSort (· ≤ ·)).length := by omega
  rw [MiddleDiffer, List.getD_eq_getElem _ _ h1, List.getD_eq_getElem _ _ h2]
  intro heq
  have hnd := (List.perm_insertionSort (· ≤ ·) ks).nodup_iff.mpr hd
  have := hnd.getElem_inj_iff.mp heq
  omega

/-- The bits of the new leaf. -/
theorem slots_splitNew {zero : LeafImage} {m : Key} :
    (img.splitNew L zero m).slots L = (List.range (L * 2)).filter fun i => m ≤ (img.kv i).k := by
  refine List.filter_congr fun i hi => ?_
  have hi := List.mem_range.mp hi
  have hsize : i / 8 < bitmapSize L := by unfold bitmapSize; omega
  have hbyte : (img.splitNew L zero m).bitmap (i / 8) = img.newBitmap L m (i / 8) := by
    simp [splitNew, hsize]
  rw [getBit_eq, bit_congr hbyte, bit_newBitmap]
  simp [hi]

/-- The bits of the old leaf. -/
theorem slots_splitOld {m : Key} {q : PPointer} :
    (img.splitOld L m q).slots L = (List.range (L * 2)).filter fun i =>
      !decide (m ≤ (img.kv i).k) := by
  refine List.filter_congr fun i hi => ?_
  have hi := List.mem_range.mp hi
  have hsize : i / 8 < bitmapSize L := by unfold bitmapSize; omega
  have hbyte : (img.splitOld L m q).bitmap (i / 8) =
      (fun j => ~~~(img.newBitmap L m j)) (i / 8) := by
    simp [splitOld, hsize]
  rw [getBit_eq, @bit_congr _ (fun j => ~~~(img.newBitmap L m j)) _ hbyte, bit_not, bit_newBitmap]
  simp [hi]

section Split

variable (hfull : (img.slots L).length = L * 2)

include hfull

theorem pairs_full : img.pairs L = (List.range (L * 2)).map img.kv := by
  rw [pairs, slots_eq_range hfull]

theorem keys_full : img.keys L = (List.range (L * 2)).map fun i => (img.kv i).k := by
  rw [keys, pairs_full hfull, List.map_map]
  rfl

/-- Half of the keys of a full leaf are at or above the split key. -/
theorem findSplitKey_count_iff (hL : 0 < L) :
    (img.keys L).countP (img.findSplitKey L ≤ ·) = L ↔ MiddleDiffer L (img.keys L) := by
  have hmid : img.findSplitKey L = ((img.keys L).insertionSort (· ≤ ·)).getD L 0 := by
    rw [keys_full hfull, findSplitKey]
  rw [hmid]
  exact countP_middle hL (by rw [length_keys, hfull])

theorem findSplitKey_count (hL : 0 < L) (hd : (img.keys L).Nodup) :
    (img.keys L).countP (img.findSplitKey L ≤ ·) = L :=
  (findSplitKey_count_iff hfull hL).mpr (middleDiffer_of_nodup hL (by rw [length_keys, hfull]) hd)

/-- The new leaf of a full leaf holds the pairs at or above the split key. -/
theorem pairs_splitNew {zero : LeafImage} {m : Key} :
    (img.splitNew L zero m).pairs L = (img.pairs L).filter fun x => m ≤ x.k := by
  rw [pairs, slots_splitNew, pairs_full hfull, List.filter_map]
  refine List.map_congr_left fun i hi => ?_
  obtain ⟨hi, hm⟩ := List.mem_filter.mp hi
  have hm : m ≤ (img.kv i).k := by simpa using hm
  simp only [splitNew, List.mem_range.mp hi, hm, ge_iff_le, and_self, if_true]

/-- The old leaf keeps the pairs below the split key. -/
theorem pairs_splitOld {m : Key} {q : PPointer} :
    (img.splitOld L m q).pairs L = (img.pairs L).filter fun x => !decide (m ≤ x.k) := by
  rw [pairs, slots_splitOld, pairs_full hfull, List.filter_map]
  rfl

theorem length_splitNew_eq {zero : LeafImage} {m : Key} :
    ((img.splitNew L zero m).slots L).length = (img.keys L).countP (m ≤ ·) := by
  rw [← length_pairs, pairs_splitNew hfull, ← List.countP_eq_length_filter, keys, List.countP_map]
  rfl

/-- What the new leaf does not get stays in the old one. -/
theorem length_splitOld_add {m : Key} {q : PPointer} :
    ((img.splitOld L m q).slots L).length + (img.keys L).countP (m ≤ ·) = L * 2 := by
  have htotal := List.length_eq_countP_add_countP (l := img.pairs L) (fun x => decide (m ≤ x.k))
  rw [length_pairs, hfull] at htotal
  rw [← length_pairs, pairs_splitOld hfull, ← List.countP_eq_length_filter, keys, List.countP_map]
  have hnot : (img.pairs L).countP (fun x => !decide (m ≤ x.k)) =
      (img.pairs L).countP (fun x => decide ¬(decide (m ≤ x.k) = true)) := by
    refine List.countP_congr fun x _ => ?_
    simp
  rw [hnot]
  have hcomp : (img.pairs L).countP ((fun x => decide (m ≤ x)) ∘ KeyValue.k) =
      (img.pairs L).countP (fun x => decide (m ≤ x.k)) := rfl
  omega

theorem length_splitNew {zero : LeafImage} (hL : 0 < L) (hd : (img.keys L).Nodup) :
    ((img.splitNew L zero (img.findSplitKey L)).slots L).length = L := by
  rw [length_splitNew_eq hfull, findSplitKey_count hfull hL hd]

theorem length_splitOld {q : PPointer} (hL : 0 < L) (hd : (img.keys L).Nodup) :
    ((img.splitOld L (img.findSplitKey L) q).slots L).length = L := by
  have hadd := @length_splitOld_add L img hfull (img.findSplitKey L) q
  rw [findSplitKey_count hfull hL hd] at hadd
  omega

theorem Ok.splitNew (h : img.Ok keyHash L) {zero : LeafImage} {m : Key} :
    (img.splitNew L zero m).Ok keyHash L := by
  constructor
  · intro i hi
    rw [slots_splitNew] at hi
    obtain ⟨hi, hm⟩ := List.mem_filter.mp hi
    have hm : m ≤ (img.kv i).k := by simpa using hm
    simp only [LeafImage.splitNew, List.mem_range.mp hi, hm, ge_iff_le, and_self, if_true]
    exact h.fingerprint i (by rw [slots_eq_range hfull]; exact hi)
  · rw [keys, pairs_splitNew hfull]
    exact h.distinct.sublist (List.filter_sublist.map _)

theorem Ok.splitOld (h : img.Ok keyHash L) {m : Key} {q : PPointer} :
    (img.splitOld L m q).Ok keyHash L := by
  constructor
  · intro i hi
    rw [slots_splitOld] at hi
    exact h.fingerprint i (by rw [slots_eq_range hfull]; exact (List.mem_filter.mp hi).1)
  · rw [keys, pairs_splitOld hfull]
    exact h.distinct.sublist (List.filter_sublist.map _)

end Split

/-! ## The smallest key -/

theorem foldl_minKey (l : List ℕ) (m : Key) :
    let r := l.foldl
      (fun m i => if img.getBit L i then (if m ≤ (img.kv i).k then m else (img.kv i).k) else m) m
    r ≤ m ∧ (∀ i ∈ l, img.getBit L i = true → r ≤ (img.kv i).k) ∧
      (r = m ∨ ∃ i ∈ l, img.getBit L i = true ∧ (img.kv i).k = r) := by
  induction l generalizing m with
  | nil => simp
  | cons i l ih =>
    simp only [List.foldl_cons]
    obtain ⟨h1, h2, h3⟩ :=
      ih (if img.getBit L i then (if m ≤ (img.kv i).k then m else (img.kv i).k) else m)
    have hm :
        (if img.getBit L i then (if m ≤ (img.kv i).k then m else (img.kv i).k) else m) ≤ m := by
      split_ifs with hb hle
      · exact le_rfl
      · exact (not_le.mp hle).le
      · exact le_rfl
    have hi : img.getBit L i = true →
        (if img.getBit L i then (if m ≤ (img.kv i).k then m else (img.kv i).k) else m) ≤
          (img.kv i).k := by
      intro hb
      rw [if_pos hb]
      split_ifs with hle
      · exact hle
      · exact le_rfl
    refine ⟨le_trans h1 hm, ?_, ?_⟩
    · intro j hj hb
      rcases List.mem_cons.mp hj with rfl | hj
      · exact le_trans h1 (hi hb)
      · exact h2 j hj hb
    · rcases h3 with h3 | ⟨j, hj, hb, hr⟩
      · by_cases hb : img.getBit L i = true
        · rw [if_pos hb] at h3
          split_ifs at h3 with hle
          · exact Or.inl (by rw [if_pos hb, if_pos hle]; exact h3)
          · exact Or.inr ⟨i, by simp, hb, by rw [if_pos hb, if_neg hle]; exact h3.symm⟩
        · rw [if_neg hb] at h3
          exact Or.inl (by rw [if_neg hb]; exact h3)
      · exact Or.inr ⟨j, List.mem_cons_of_mem _ hj, hb, hr⟩

theorem minKey_le (h : k ∈ img.keys L) : img.minKey L ≤ k := by
  obtain ⟨i, hi, rfl⟩ := mem_keys.mp h
  exact (foldl_minKey (List.range (L * 2)) MAX_KEY).2.1 i (List.mem_range.mpr (lt_of_mem_slots hi))
    (mem_slots.mp hi)

/-- The smallest key of a leaf that is not empty is one of its keys. -/
theorem minKey_mem (h : img.slots L ≠ []) : img.minKey L ∈ img.keys L := by
  obtain ⟨i, hi⟩ := List.exists_mem_of_ne_nil _ h
  have hmem : (img.kv i).k ∈ img.keys L := mem_keys.mpr ⟨i, hi, rfl⟩
  rcases (@foldl_minKey L img (List.range (L * 2)) MAX_KEY).2.2 with h1 | ⟨j, hj, hb, hr⟩
  · -- the initial value is the largest key there is
    have hmax : img.minKey L = MAX_KEY := h1
    have htop : MAX_KEY ≤ (img.kv i).k := hmax ▸ minKey_le hmem
    have heq : (img.kv i).k = MAX_KEY := le_antisymm le_top htop
    rw [hmax, ← heq]
    exact hmem
  · exact mem_keys.mpr ⟨j, mem_slots.mpr hb, hr⟩

end LeafImage

end FPTreeDB
