import FPTreeDB.Tree.LeafOps

/-!
# Leaves of any degree

`LEAF_DEGREE` is a constant that users of the program are told to change. Here the
degree `L` of a leaf is a variable: a leaf is its bytes and its counter `n`, and
`LeafNode::insert`, `split` and `remove` act on these two.

The bitmap has `(2 * L + 7) / 8` bytes, so unless `4` divides `L` some bits belong to
no slot. `split` leaves them set in the old leaf, and the constructor that loads a
leaf counts them.

* `insert_leafObj`: with `L = LEAF_DEGREE` these are the methods of `LeafNode`.
* `Produced.inv`: the counter and the padding bits of every leaf.
* `reload_count_iff`: when the count of a loaded leaf is right.
-/

namespace FPTreeDB

open LeafImage Node

/-- The bytes and the counter of a leaf. -/
structure LeafObj where
  img : LeafImage
  n : ℤ

namespace LeafObj

/-- `LeafNode::insertNonFull` (fptree.cpp:629-643). -/
def insertNonFull (keyHash : Key → Byte) (L : ℕ) (k : Key) (v : Value) (x : LeafObj) : LeafObj :=
  let pos := x.img.findFirstZero L
  if pos ≥ L * 2 then x else ⟨x.img.insertAt keyHash pos k v, x.n + 1⟩

/-- `LeafNode::split` (fptree.cpp:646-702): the old and the new leaf; `q` is the
    pointer of the new one. -/
def split (L : ℕ) (q : PPointer) (x : LeafObj) : LeafObj × LeafObj :=
  let midKey := x.img.findSplitKey L
  (⟨x.img.splitOld L midKey q, L⟩, ⟨x.img.splitNew L LeafImage.zero midKey, L⟩)

/-- `LeafNode::insert` (fptree.cpp:619-626): the leaf, and the new leaf if there is
    one. -/
def insert (keyHash : Key → Byte) (L : ℕ) (k : Key) (v : Value) (q : PPointer) (x : LeafObj) :
    LeafObj × Option LeafObj :=
  let x := x.insertNonFull keyHash L k v
  if x.n ≥ L * 2 then ((x.split L q).1, some (x.split L q).2) else (x, none)

/-- `LeafNode::remove` (fptree.cpp:742-780); `none` if the leaf is deleted. -/
def remove (keyHash : Key → Byte) (L : ℕ) (k : Key) (x : LeafObj) : Option LeafObj :=
  match x.img.findSlot keyHash L k with
  | none => some x
  | some pos => if x.n - 1 = 0 then none else some ⟨x.img.removeAt pos, x.n - 1⟩

/-- `LeafNode::LeafNode(PPointer, FPTree*)` (fptree.cpp:581-611). -/
def reload (L : ℕ) (x : LeafObj) : LeafObj := ⟨x.img, x.img.countBits L⟩

end LeafObj

/-! ## The leaves of a store -/

/-- The leaf at `p`, if it has an object. -/
def World.leafObj (s : World) (p : PPointer) : Option LeafObj :=
  (s.nodes p).map fun nd => ⟨s.leafAt p, nd.n⟩

theorem World.leafObj_eq {s : World} {p : PPointer} {n : ℤ}
    (h : (s.nodes p).map LeafNode.n = some n) :
    s.leafObj p = some ⟨s.leafAt p, n⟩ := by
  obtain ⟨nd, hn, rfl⟩ := Option.map_eq_some_iff.mp h
  rw [World.leafObj, hn]
  rfl

/-- `LeafNode::insert` on a leaf of the store. -/
theorem insert_leafObj {env : Env} {s s1 : World} {chain : List PPointer} {p : PPointer}
    {x : LeafObj} {k : Key} {v : Value} {nc : Option (Key × PPointer)} (hst : StoreInv s chain)
    (hx : s.leafObj p = some x) (hn : x.n = (x.img.slots LEAF_DEGREE).length)
    (hlen : (x.img.slots LEAF_DEGREE).length ≤ LEAF_MAX)
    (hres : LeafNode.insert env Sys.ok p k v s = some (nc, s1)) :
    ∃ q, s1.leafObj p = some (x.insert env.keyHash LEAF_DEGREE k v q).1 ∧
      nc.bind (fun y => s1.leafObj y.2) = (x.insert env.keyHash LEAF_DEGREE k v q).2 ∧
      ∀ y ∈ nc, y.2 = q := by
  obtain ⟨nd, hnd, rfl⟩ := Option.map_eq_some_iff.mp hx
  dsimp only at hn hlen
  obtain ⟨l1, l2, rfl⟩ := List.append_of_mem (hst.mem_of_node hnd)
  have hfree : ¬ (s.leafAt p).findFirstZero LEAF_DEGREE ≥ LEAF_DEGREE * 2 := by
    rw [ge_iff_le, not_le]
    refine findFirstZero_lt ?_
    simp only [LEAF_MAX, LEAF_DEGREE] at *
    omega
  have hfill : LeafObj.insertNonFull env.keyHash LEAF_DEGREE k v ⟨s.leafAt p, nd.n⟩ =
      ⟨(s.fillSlot env p nd k v).leafAt p, nd.n + 1⟩ := by
    rw [LeafObj.insertNonFull, if_neg hfree, World.fillSlot, edit_leafAt_self]
  cases insert_cases hst hnd hn hlen hres with
  | fits hroom =>
    refine ⟨PPointer.zero, ?_, ?_, by simp⟩
    · rw [LeafObj.insert, hfill, if_neg (by simp only [LEAF_MAX, LEAF_DEGREE] at *; omega)]
      exact World.leafObj_eq (by rw [World.fillSlot, edit_nodes_self]; rfl)
    · rw [LeafObj.insert, hfill, if_neg (by simp only [LEAF_MAX, LEAF_DEGREE] at *; omega)]
      rfl
  | @split q _ hfull hs =>
    refine ⟨q, ?_, ?_, by simp⟩
    · rw [LeafObj.insert, hfill, if_pos (by dsimp only; omega),
        World.leafObj_eq hs.n_old, hs.leaf_old]
      rfl
    · rw [LeafObj.insert, hfill, if_pos (by dsimp only; omega)]
      show s1.leafObj q = _
      rw [World.leafObj_eq hs.n_new, hs.leaf_new]
      rfl

/-! ## The leaves of any run -/

/-- The leaves that insertions of fresh keys and removals produce; the flag says
    whether the leaf was ever the old leaf of a split. -/
inductive Produced (keyHash : Key → Byte) (L : ℕ) : Bool → LeafObj → Prop
  | create : Produced keyHash L false ⟨LeafImage.zero, 0⟩
  | insert {b : Bool} {x y : LeafObj} (k : Key) (v : Value) (q : PPointer) :
      Produced keyHash L b x →
      k ∉ x.img.keys L → x.insert keyHash L k v q = (y, none) → Produced keyHash L b y
  | splitOld {b : Bool} {x y z : LeafObj} (k : Key) (v : Value) (q : PPointer) :
      Produced keyHash L b x →
      k ∉ x.img.keys L → x.insert keyHash L k v q = (y, some z) → Produced keyHash L true y
  | splitNew {b : Bool} {x y z : LeafObj} (k : Key) (v : Value) (q : PPointer) :
      Produced keyHash L b x →
      k ∉ x.img.keys L → x.insert keyHash L k v q = (y, some z) → Produced keyHash L false z
  | remove {b : Bool} {x y : LeafObj} (k : Key) : Produced keyHash L b x →
      x.remove keyHash L k = some y → Produced keyHash L b y

/-- The bits that belong to no slot are all equal to `b`. -/
def Padding (L : ℕ) (img : LeafImage) (b : Bool) : Prop :=
  ∀ i, L * 2 ≤ i → i < bitmapSize L * 8 → bit img.bitmap i = b

/-- What the run keeps about a leaf. -/
structure LeafObj.Inv (keyHash : Key → Byte) (L : ℕ) (b : Bool) (x : LeafObj) : Prop where
  n_eq : x.n = (x.img.slots L).length
  lt : (x.img.slots L).length < L * 2
  ok : x.img.Ok keyHash L
  padding : Padding L x.img b

section

variable {keyHash : Key → Byte} {L : ℕ} {b : Bool} {x y z : LeafObj} {img : LeafImage}
  {k : Key} {v : Value} {q : PPointer} {i : ℕ}

theorem Padding.insertAt (h : Padding L img b) (hi : i < L * 2) :
    Padding L (img.insertAt keyHash i k v) b := by
  intro j hj hlt
  rw [LeafImage.insertAt, bit_setBitmap, decide_eq_false (by omega), Bool.false_or]
  exact h j hj hlt

theorem Padding.removeAt (h : Padding L img b) (hi : i < L * 2) : Padding L (img.removeAt i) b := by
  intro j hj hlt
  rw [LeafImage.removeAt, bit_clearBitmap, decide_eq_true (by omega), Bool.true_and]
  exact h j hj hlt

/-- The complement in `split` sets the padding bits of the old leaf. -/
theorem padding_splitOld (L : ℕ) (img : LeafImage) (m : Key) (q : PPointer) :
    Padding L (img.splitOld L m q) true := by
  intro j hj hlt
  have hbyte : (img.splitOld L m q).bitmap (j / 8) = (fun i => ~~~(img.newBitmap L m i)) (j / 8) :=
    if_pos (by omega)
  rw [@bit_congr _ (fun i => ~~~(img.newBitmap L m i)) _ hbyte, bit_not, bit_newBitmap,
    decide_eq_false (by omega)]
  rfl

theorem padding_splitNew (L : ℕ) (img zero : LeafImage) (m : Key) :
    Padding L (img.splitNew L zero m) false := by
  intro j hj hlt
  have hbyte : (img.splitNew L zero m).bitmap (j / 8) = img.newBitmap L m (j / 8) :=
    if_pos (by omega)
  rw [bit_congr hbyte, bit_newBitmap, decide_eq_false (by omega)]

/-- The constructor counts the padding bits too. -/
theorem countBits_eq_add (h : Padding L img b) :
    img.countBits L = (img.slots L).length + if b then bitmapSize L * 8 - L * 2 else 0 := by
  obtain ⟨pad, hsize⟩ : ∃ pad, bitmapSize L * 8 = L * 2 + pad :=
    Nat.exists_eq_add_of_le (by unfold bitmapSize; omega)
  have hall : ∀ i ∈ List.range pad, (bit img.bitmap ∘ (L * 2 + ·)) i = b := fun i hi =>
    h (L * 2 + i) (Nat.le_add_right _ _) (by have := List.mem_range.mp hi; omega)
  have hpad : ((List.range pad).map (L * 2 + ·)).countP (bit img.bitmap) =
      if b then pad else 0 := by
    rw [List.countP_map]
    cases b with
    | true => rw [if_pos rfl, List.countP_eq_length.mpr hall, List.length_range]
    | false =>
      rw [if_neg Bool.false_ne_true, List.countP_eq_zero]
      exact fun i hi => by rw [hall i hi]; exact Bool.false_ne_true
  rw [countBits, sum_countOneBits, hsize, List.range_add, List.countP_append,
    countP_bit_slots, hpad, Nat.add_sub_cancel_left]

theorem LeafObj.Inv.insertNonFull (h : x.Inv keyHash L b) (hk : k ∉ x.img.keys L) :
    ((x.insertNonFull keyHash L k v).img.slots L).length = (x.img.slots L).length + 1 ∧
      (x.insertNonFull keyHash L k v).n = ((x.insertNonFull keyHash L k v).img.slots L).length ∧
      (x.insertNonFull keyHash L k v).img.Ok keyHash L ∧
      Padding L (x.insertNonFull keyHash L k v).img b := by
  have hfree := findFirstZero_lt h.lt
  have hbit := findFirstZero_spec hfree
  rw [LeafObj.insertNonFull, if_neg (by omega)]
  have hlen : ((x.img.insertAt keyHash (x.img.findFirstZero L) k v).slots L).length =
      (x.img.slots L).length + 1 := by
    rw [(slots_insertAt hfree hbit).length_eq, List.length_cons]
  refine ⟨hlen, ?_, h.ok.insertAt hfree hbit hk, h.padding.insertAt hfree⟩
  rw [hlen, h.n_eq]
  push_cast
  rfl

/-- The leaves of `LeafNode::insert`. -/
theorem LeafObj.Inv.insert (hL : 1 ≤ L) (h : x.Inv keyHash L b) (hk : k ∉ x.img.keys L) :
    (∃ y, x.insert keyHash L k v q = (y, none) ∧ y.Inv keyHash L b) ∨
      ∃ y z, x.insert keyHash L k v q = (y, some z) ∧ y.Inv keyHash L true ∧
        z.Inv keyHash L false := by
  obtain ⟨hlen, hn, hok, hpad⟩ := h.insertNonFull (v := v) hk
  have hlt := h.lt
  rw [LeafObj.insert]
  generalize x.insertNonFull keyHash L k v = w at *
  split_ifs with hfull
  · have hfull' : (w.img.slots L).length = L * 2 := by omega
    refine Or.inr ⟨_, _, rfl, ⟨?_, ?_, ?_, ?_⟩, ⟨?_, ?_, ?_, ?_⟩⟩
    · exact (congrArg Nat.cast (length_splitOld hfull' (by omega) hok.distinct)).symm
    · rw [LeafObj.split, length_splitOld hfull' (by omega) hok.distinct]
      omega
    · exact Ok.splitOld hfull' hok
    · exact padding_splitOld L _ _ q
    · exact (congrArg Nat.cast (length_splitNew hfull' (by omega) hok.distinct)).symm
    · rw [LeafObj.split, length_splitNew hfull' (by omega) hok.distinct]
      omega
    · exact Ok.splitNew hfull' hok
    · exact padding_splitNew L _ _ _
  · exact Or.inl ⟨w, rfl, hn, by omega, hok, hpad⟩

theorem LeafObj.Inv.remove (h : x.Inv keyHash L b) (hres : x.remove keyHash L k = some y) :
    y.Inv keyHash L b := by
  unfold LeafObj.remove at hres
  cases hf : x.img.findSlot keyHash L k with
  | none =>
    rw [hf] at hres
    obtain rfl := Option.some.inj hres
    exact h
  | some i =>
    rw [hf] at hres
    dsimp only at hres
    split_ifs at hres
    obtain rfl := Option.some.inj hres
    obtain ⟨hi, -⟩ := findSlot_eq_some hf
    have hlen := (slots_removeAt hi).length_eq
    rw [List.length_cons] at hlen
    have hn := h.n_eq
    have hlt := h.lt
    exact ⟨by dsimp only; omega, by dsimp only; omega, h.ok.removeAt hi,
      h.padding.removeAt (lt_of_mem_slots hi)⟩

theorem LeafObj.inv_create (hL : 1 ≤ L) : LeafObj.Inv keyHash L false ⟨LeafImage.zero, 0⟩ := by
  refine ⟨by simp [slots_zero], by simp [slots_zero]; omega, ⟨by simp [slots_zero], ?_⟩, ?_⟩
  · simp [keys, pairs, slots_zero]
  · intro i _ _
    simp [bit_eq_getLsbD, LeafImage.zero]

/-- The counter and the padding bits of every leaf of a run. -/
theorem Produced.inv (hL : 1 ≤ L) (h : Produced keyHash L b x) : x.Inv keyHash L b := by
  induction h with
  | create => exact LeafObj.inv_create hL
  | insert k v q _ hk hres ih =>
    rcases ih.insert hL hk with ⟨y, hy, hinv⟩ | ⟨y, z, hy, -, -⟩
    · obtain ⟨rfl, -⟩ := Prod.mk.inj (hres.symm.trans hy)
      exact hinv
    · cases (Prod.mk.inj (hres.symm.trans hy)).2
  | splitOld k v q _ hk hres ih =>
    rcases ih.insert hL hk with ⟨y, hy, -⟩ | ⟨y, z, hy, hinv, -⟩
    · cases (Prod.mk.inj (hres.symm.trans hy)).2
    · obtain ⟨rfl, -⟩ := Prod.mk.inj (hres.symm.trans hy)
      exact hinv
  | splitNew k v q _ hk hres ih =>
    rcases ih.insert hL hk with ⟨y, hy, -⟩ | ⟨y, z, hy, -, hinv⟩
    · cases (Prod.mk.inj (hres.symm.trans hy)).2
    · obtain rfl := Option.some.inj (Prod.mk.inj (hres.symm.trans hy)).2
      exact hinv
  | remove k _ hres ih => exact ih.remove hres

end

/-- A loaded leaf has the count it had before, the number of its used slots, exactly
    when the bitmap has no padding bits or the leaf was never the old leaf of a
    split. -/
theorem reload_count_iff (keyHash : Key → Byte) (L : ℕ) (hL : 1 ≤ L) (b : Bool) (x : LeafObj)
    (h : Produced keyHash L b x) :
    ((x.reload L).n = (x.img.slots L).length ∧ (x.reload L).n = x.n) ↔ 4 ∣ L ∨ b = false := by
  have hinv := h.inv hL
  have hcount := countBits_eq_add hinv.padding
  rw [LeafObj.reload, hinv.n_eq, hcount, and_self]
  dsimp only
  cases b with
  | false => simp
  | true =>
    simp only [if_true, Bool.true_eq_false, or_false, Nat.cast_inj]
    unfold bitmapSize
    omega

/-- One entry in a leaf of degree 21. -/
theorem reload_count_one : ∃ x, Produced (fun _ => 0) 21 false x ∧ (x.reload 21).n = x.n := by
  have hinv : LeafObj.Inv (fun _ => 0) 21 false ⟨LeafImage.zero, 0⟩ :=
    LeafObj.inv_create (by decide)
  have hk : (5 : Key) ∉ LeafImage.zero.keys 21 := by simp [keys, pairs, slots_zero]
  have hx : Produced (fun _ => 0) 21 false
      (LeafObj.insertNonFull (fun _ => 0) 21 5 50 ⟨LeafImage.zero, 0⟩) := by
    refine Produced.insert 5 50 PPointer.zero Produced.create hk ?_
    obtain ⟨hlen, hn, -, -⟩ := hinv.insertNonFull (v := 50) hk
    rw [slots_zero, List.length_nil] at hlen
    rw [LeafObj.insert, if_neg (by rw [hn, hlen]; decide)]
  exact ⟨_, hx, ((reload_count_iff _ 21 (by decide) false _ hx).mpr (Or.inr rfl)).2⟩

/-- Two insertions into a leaf of degree 1: the old leaf keeps one entry and six
    padding bits. -/
theorem reload_after_split_differs :
    ¬ ∀ (keyHash : Key → Byte) (L : ℕ) (b : Bool) (x : LeafObj), 1 ≤ L → Produced keyHash L b x →
      (x.reload L).n = (x.img.slots L).length ∧ (x.reload L).n = x.n := by
  intro h
  let x1 := LeafObj.insertNonFull (fun _ => 0) 1 1 10 ⟨LeafImage.zero, 0⟩
  let x2 := (x1.insertNonFull (fun _ => 0) 1 2 20).split 1 PPointer.zero
  have h1 : Produced (fun _ => 0) 1 false x1 :=
    Produced.insert 1 10 PPointer.zero Produced.create (by simp [keys, pairs, slots_zero]) rfl
  have hsplit : x1.insert (fun _ => 0) 1 2 20 PPointer.zero = (x2.1, some x2.2) :=
    if_pos (by decide)
  have h2 : Produced (fun _ => 0) 1 true x2.1 :=
    Produced.splitOld 2 20 PPointer.zero h1 (by decide) hsplit
  exact absurd (h _ 1 true x2.1 le_rfl h2).1 (by decide)

end FPTreeDB
