import FPTreeDB.Model.LeafNode

/-!
# Leaf bitmaps

Slot `i` of a leaf is described by bit `7 - i % 8` of byte `i / 8`. `bit b i` is
that bit; the lemmas say what the byte operations of `LeafNode` do to it.

* `bit_setBitmap`, `bit_clearBitmap`: one slot changes.
* `bit_newBitmap`: the bitmap that `split` computes for the new leaf.
* `countBits_eq`: when `2 * L` is a multiple of 8 the number of bits set in the
  bitmap is the number of used slots.
-/

namespace FPTreeDB

namespace LeafImage

/-- The bit of slot `i`. -/
def bit (b : ℕ → Byte) (i : ℕ) : Bool := b (i / 8) &&& bitMask i != 0

theorem and_shift_ne_zero : ∀ x : Byte, ∀ j < 8, (x &&& (1#8 <<< j) != 0) = x.getLsbD j := by
  decide +kernel

theorem bit_eq_getLsbD (b : ℕ → Byte) (i : ℕ) : bit b i = (b (i / 8)).getLsbD (7 - i % 8) :=
  and_shift_ne_zero _ _ (by omega)

theorem getLsbD_bitMask (i j : ℕ) : (bitMask i).getLsbD j = decide (j = 7 - i % 8) := by
  have h : ∀ a < 8, ∀ j < 8, (1#8 <<< a).getLsbD j = decide (j = a) := by decide
  by_cases hj : j < 8
  · exact h _ (by omega) _ hj
  · rw [BitVec.getLsbD_of_ge _ _ (by omega), eq_comm, decide_eq_false_iff_not]
    omega

theorem getBit_eq (L : ℕ) (img : LeafImage) (i : ℕ) :
    img.getBit L i = (decide (i < L * 2) && bit img.bitmap i) := rfl

theorem bit_setBitmap (b : ℕ → Byte) (i j : ℕ) :
    bit (setBitmap b i) j = (decide (j = i) || bit b j) := by
  rw [bit_eq_getLsbD, bit_eq_getLsbD, setBitmap]
  by_cases hb : j / 8 = i / 8
  · rw [hb, Function.update_self, BitVec.getLsbD_or, getLsbD_bitMask, Bool.or_comm]
    congr 1
    rw [decide_eq_decide]
    omega
  · rw [Function.update_of_ne hb]
    have : j ≠ i := fun h => hb (by rw [h])
    simp [this]

theorem bit_clearBitmap (b : ℕ → Byte) (i j : ℕ) :
    bit (clearBitmap b i) j = (decide (j ≠ i) && bit b j) := by
  rw [bit_eq_getLsbD, bit_eq_getLsbD, clearBitmap]
  by_cases hb : j / 8 = i / 8
  · rw [hb, Function.update_self, BitVec.getLsbD_and, BitVec.getLsbD_not, getLsbD_bitMask,
      Bool.and_comm]
    have h8 : 7 - j % 8 < 8 := by omega
    congr 1
    simp only [h8, decide_true, Bool.true_and, ← decide_not, decide_eq_decide]
    omega
  · rw [Function.update_of_ne hb]
    have : j ≠ i := fun h => hb (by rw [h])
    simp [this]

theorem bit_not (b : ℕ → Byte) (i : ℕ) : bit (fun j => ~~~(b j)) i = !bit b i := by
  rw [bit_eq_getLsbD, bit_eq_getLsbD, BitVec.getLsbD_not]
  have h8 : 7 - i % 8 < 8 := by omega
  simp [h8]

theorem bit_congr {b b' : ℕ → Byte} {i : ℕ} (h : b (i / 8) = b' (i / 8)) : bit b i = bit b' i := by
  rw [bit, bit, h]

/-- Setting the bits of the members of `l` that satisfy `q`. -/
theorem bit_foldl_setBitmap (q : ℕ → Prop) [DecidablePred q] (l : List ℕ) (b : ℕ → Byte) (j : ℕ) :
    bit (l.foldl (fun b i => if q i then setBitmap b i else b) b) j =
      (decide (j ∈ l ∧ q j) || bit b j) := by
  induction l generalizing b with
  | nil => simp
  | cons i l ih =>
    rw [List.foldl_cons, ih]
    by_cases hq : q i
    · rw [if_pos hq, bit_setBitmap]
      by_cases hj : j = i
      · subst hj; simp [hq]
      · simp [hj]
    · rw [if_neg hq]
      by_cases hj : j = i
      · subst hj; simp [hq]
      · simp [hj]

theorem bit_newBitmap (L : ℕ) (img : LeafImage) (midKey : Key) (j : ℕ) :
    bit (img.newBitmap L midKey) j = decide (j < L * 2 ∧ midKey ≤ (img.kv j).k) := by
  unfold newBitmap
  rw [bit_foldl_setBitmap (fun i => (img.kv i).k ≥ midKey)]
  simp [bit]

/-! ## Counting -/

/-- The used slots, in the order of the search loops. -/
def slots (L : ℕ) (img : LeafImage) : List ℕ := (List.range (L * 2)).filter (img.getBit L)

theorem mem_slots {L : ℕ} {img : LeafImage} {i : ℕ} : i ∈ img.slots L ↔ img.getBit L i = true := by
  simp only [slots, List.mem_filter, List.mem_range, and_iff_right_iff_imp]
  intro h
  rw [getBit_eq] at h
  simp only [Bool.and_eq_true, decide_eq_true_eq] at h
  exact h.1

theorem lt_of_mem_slots {L : ℕ} {img : LeafImage} {i : ℕ} (h : i ∈ img.slots L) : i < L * 2 :=
  List.mem_range.mp (List.mem_filter.mp h).1

theorem nodup_slots (L : ℕ) (img : LeafImage) : (img.slots L).Nodup := List.nodup_range.filter _

/-- Counting the bits of the first `m` bytes. -/
theorem sum_countOneBits (b : ℕ → Byte) (m : ℕ) :
    ((List.range m).map fun i => countOneBits (b i)).sum = (List.range (m * 8)).countP (bit b) := by
  induction m with
  | zero => rfl
  | succ m ih =>
    have hbyte : countOneBits (b m) = ((List.range 8).map fun i => m * 8 + i).countP (bit b) := by
      rw [countOneBits_eq, List.countP_map]
      have hbit : (List.range 8).countP (bit b ∘ fun i => m * 8 + i) =
          (List.range 8).countP fun i => (b m).getLsbD (7 - i) := by
        refine List.countP_congr fun i hi => ?_
        have hi := List.mem_range.mp hi
        simp only [Function.comp, bit_eq_getLsbD]
        rw [show (m * 8 + i) / 8 = m by omega, show (m * 8 + i) % 8 = i by omega]
      rw [hbit, show List.range 8 = [0, 1, 2, 3, 4, 5, 6, 7] from rfl]
      -- the eight bits are read from the most significant one down
      simp only [List.countP_cons, List.countP_nil, Nat.reduceSub]
      omega
    rw [List.range_succ, List.map_append, List.sum_append, ih, Nat.succ_mul, List.range_add,
      List.countP_append, ← hbyte]
    simp

/-- The slots are the bits set among the first `2 * L`. -/
theorem countP_bit_slots (L : ℕ) (img : LeafImage) :
    (List.range (L * 2)).countP (bit img.bitmap) = (img.slots L).length := by
  rw [slots, ← List.countP_eq_length_filter]
  refine List.countP_congr fun i hi => ?_
  rw [getBit_eq]
  simp [List.mem_range.mp hi]

/-- The constructor's count of set bits, when no bit lies beyond the last slot. -/
theorem countBits_eq {L : ℕ} (hL : 4 ∣ L) (img : LeafImage) :
    img.countBits L = (img.slots L).length := by
  have hsize : bitmapSize L * 8 = L * 2 := by
    unfold bitmapSize
    omega
  rw [countBits, sum_countOneBits, hsize, countP_bit_slots]

end LeafImage

end FPTreeDB
