import FPTreeDB.Lib.Counting
import FPTreeDB.Hash.ClHash
import FPTreeDB.Hash.Field

/-!
# Collisions of `clhash`

Two different strings have the same hash for few random keys: a block hashes like the
other for one value of a word of the key, the accumulators agree for the roots of a
polynomial over `GF(2^127)`, and the last product for one value of a word of the key.

* `unequal_lengths`, `short_strings`, `long_strings`: the three cases.
* `clhash_universal`.
-/

namespace FPTreeDB

namespace ClHash

open CarryLess Polynomial Counting Finset

/-! ## The random key -/

/-- The words of `random` (clhash.h:25), 133 of 64 bits. -/
abbrev RandomKey := Fin RANDOM_64BITWORDS_NEEDED_FOR_CLHASH → Word

def keyWords (a : RandomKey) (i : ℕ) : Word :=
  if h : i < RANDOM_64BITWORDS_NEEDED_FOR_CLHASH then a ⟨i, h⟩ else 0

/-- Word `i` of the key. -/
def keyIndex (i : ℕ) (h : i < 133) : Fin RANDOM_64BITWORDS_NEEDED_FOR_CLHASH := ⟨i, h⟩

theorem keyWords_update (a : RandomKey) {i : ℕ} (h : i < 133) (v : Word) :
    keyWords (Function.update a (keyIndex i h) v) = Function.update (keyWords a) i v := by
  funext j
  by_cases hj : j = i
  · rw [hj, Function.update_self]
    exact (dif_pos h).trans (Function.update_self (keyIndex i h) v a)
  · rw [Function.update_of_ne hj, keyWords, keyWords]
    split_ifs with hlt
    · rw [Function.update_of_ne fun heq => hj (congrArg Fin.val heq)]
    · rfl

/-- The strings have the same hash. -/
def Collide (s s' : List Byte) (a : RandomKey) : Prop :=
  clhash (keyWords a) s = clhash (keyWords a) s'

/-! ## Words of a string -/

section Words

variable {s s' : List Byte}

theorem lt_of_mem_map_toNat {bs : List Byte} : ∀ x ∈ bs.map BitVec.toNat, x < 256 := by
  intro x hx
  obtain ⟨b, -, rfl⟩ := List.mem_map.mp hx
  exact b.isLt

theorem ofWord_lt {bs : List Byte} (h : bs.length ≤ 8) : ByteStore.ofWord bs < 2 ^ 64 := by
  have hlt := Nat.ofDigits_lt_base_pow_length (by omega) (@lt_of_mem_map_toNat bs)
  rw [List.length_map] at hlt
  calc ByteStore.ofWord bs < 256 ^ bs.length := hlt
    _ ≤ 256 ^ 8 := Nat.pow_le_pow_right (by omega) h
    _ = 2 ^ 64 := by norm_num

/-- Words of strings of one length determine their bytes. -/
theorem take_eq_of_wordAt_eq {i : ℕ} (hlen : s.length = s'.length) (h : wordAt s i = wordAt s' i) :
    (s.drop (8 * i)).take 8 = (s'.drop (8 * i)).take 8 := by
  have hnat := congrArg BitVec.toNat h
  rw [wordAt, wordAt, BitVec.toNat_ofNat, BitVec.toNat_ofNat,
    Nat.mod_eq_of_lt (ofWord_lt (List.length_take_le 8 _)),
    Nat.mod_eq_of_lt (ofWord_lt (List.length_take_le 8 _))] at hnat
  have hmap := Nat.ofDigits_inj_of_len_eq (by omega) (by simp [hlen]) lt_of_mem_map_toNat
    lt_of_mem_map_toNat hnat
  exact List.map_injective_iff.mpr (fun _ _ => BitVec.eq_of_toNat_eq) hmap

/-- Strings of one length that differ, differ in a word. -/
theorem exists_wordAt_ne (hlen : s.length = s'.length) (hne : s ≠ s') :
    ∃ i < lengthinc s, wordAt s i ≠ wordAt s' i := by
  by_contra hall
  push Not at hall
  apply hne
  apply List.ext_getElem hlen
  intro q hq hq'
  have h := take_eq_of_wordAt_eq hlen (hall (q / 8) (by rw [lengthinc]; omega))
  have hget := congrArg (fun l => l[q % 8]?) h
  simp only [List.getElem?_take, List.getElem?_drop, show q % 8 < 8 by omega, if_true,
    show 8 * (q / 8) + q % 8 = q by omega] at hget
  rw [List.getElem?_eq_getElem hq, List.getElem?_eq_getElem hq'] at hget
  exact Option.some.inj hget

end Words

/-! ## One block -/

section Block

variable {R : Type*} [CommRing R] {x : R} {a64 b64 : ℕ → Word} {s s' : List Byte} {i0 n : ℕ}

theorem pairSum_congr (h : ∀ i < 2 * n, a64 i = b64 i) :
    pairSum x a64 s i0 n = pairSum x b64 s i0 n := by
  refine sum_congr rfl fun t ht => ?_
  have hlt := mem_range.mp ht
  rw [h (2 * t) (by omega), h (2 * t + 1) (by omega)]

theorem blockSum_congr {j : ℕ} (h : ∀ i < m, a64 i = b64 i) :
    blockSum x a64 s j = blockSum x b64 s j := by
  refine pairSum_congr fun i hi => h i ?_
  show i < 128
  rw [blockPairs] at hi
  omega

/-- The other word of the pair of word `i`. -/
def partner (i : ℕ) : ℕ := if i % 2 = 0 then i + 1 else i - 1

/-- A word of the key is multiplied by the sum of the other key and the other word of its
    pair. -/
theorem pairSum_update_sub {i : ℕ} (hi : i < 2 * n) (v w : Word) :
    pairSum x (Function.update a64 (partner i) v) s i0 n -
        pairSum x (Function.update a64 (partner i) w) s i0 n =
      (polyAt x v - polyAt x w) * (polyAt x (a64 i) + polyAt x (wordAt s (i0 + i))) := by
  have hother : ∀ t ∈ range n, t ≠ i / 2 → 2 * t ≠ partner i ∧ 2 * t + 1 ≠ partner i := by
    intro t _ ht
    unfold partner
    split_ifs <;> omega
  rw [pairSum, pairSum, ← sum_sub_distrib, sum_eq_single (i / 2)]
  · rcases Nat.even_or_odd' i with ⟨t, rfl | rfl⟩
    · have hp : partner (2 * t) = 2 * t + 1 := if_pos (by omega)
      rw [hp, show 2 * t / 2 = t by omega]
      simp only [Function.update_self, Function.update_of_ne (show 2 * t ≠ 2 * t + 1 by omega)]
      ring
    · have hp : partner (2 * t + 1) = 2 * t := if_neg (by omega)
      rw [hp, show (2 * t + 1) / 2 = t by omega]
      simp only [Function.update_self,
        Function.update_of_ne (show 2 * t + 1 ≠ 2 * t by omega), ← add_assoc]
      ring
  · intro t ht hne
    obtain ⟨h0, h1⟩ := hother t ht hne
    simp only [Function.update_of_ne h0, Function.update_of_ne h1, sub_self]
  · intro h
    exact absurd (mem_range.mpr (by omega)) h

/-- Where the strings differ in a word, the other key of its pair has at most one value for
    which the sums agree. -/
theorem pairSum_collision_unique [IsDomain R] (hinj : Function.Injective (polyAt x (w := 64)))
    {i : ℕ} (hi : i < 2 * n) (hne : wordAt s (i0 + i) ≠ wordAt s' (i0 + i)) {v w : Word}
    (hv : pairSum x (Function.update a64 (partner i) v) s i0 n =
      pairSum x (Function.update a64 (partner i) v) s' i0 n)
    (hw : pairSum x (Function.update a64 (partner i) w) s i0 n =
      pairSum x (Function.update a64 (partner i) w) s' i0 n) : v = w := by
  have hs := @pairSum_update_sub R _ x a64 s i0 n i hi v w
  have hs' := @pairSum_update_sub R _ x a64 s' i0 n i hi v w
  have hzero : (polyAt x v - polyAt x w) *
      (polyAt x (wordAt s (i0 + i)) - polyAt x (wordAt s' (i0 + i))) = 0 := by
    rw [hv, hw, hs'] at hs
    linear_combination -hs
  rcases mul_eq_zero.mp hzero with h | h
  · exact hinj (sub_eq_zero.mp h)
  · exact absurd (hinj (sub_eq_zero.mp h)) hne

end Block

/-! ## The hash before its last reduction -/

/-- The accumulator of a long string. -/
noncomputable def accPoly (a64 : ℕ → Word) (s : List Byte) : (ZMod 2)[X] :=
  hornerSum X (polyAt X (polyvalue a64)) a64 s (blocks s) %ₘ lazyModulus

/-- What is added to the length term. -/
noncomputable def content (a64 : ℕ → Word) (s : List Byte) : (ZMod 2)[X] :=
  if m < lengthinc s then
    (accPoly a64 s %ₘ X ^ 64 + polyAt X (a64 130)) * (accPoly a64 s /ₘ X ^ 64 + polyAt X (a64 131))
  else blockSum X a64 s 0

section Frame

variable {a64 b64 : ℕ → Word} {s s' : List Byte}

theorem accPoly_congr (h : ∀ i < 130, a64 i = b64 i) : accPoly a64 s = accPoly b64 s := by
  have hpoly : polyvalue a64 = polyvalue b64 := by
    rw [polyvalue, polyvalue, h 128 (by omega), h 129 (by omega)]
  have hsum : ∀ j, blockSum (X : (ZMod 2)[X]) a64 s j = blockSum X b64 s j :=
    fun j => blockSum_congr fun i hi => h i (lt_trans hi (by decide))
  rw [accPoly, accPoly, hpoly, hornerSum, hornerSum]
  simp only [hsum]

theorem content_congr (h : ∀ i < 132, a64 i = b64 i) : content a64 s = content b64 s := by
  rw [content, content, accPoly_congr fun i hi => h i (by omega), h 130 (by omega),
    h 131 (by omega), blockSum_congr fun i hi => h i (lt_trans hi (by decide))]

/-- Equal hashes are equal elements of the field. -/
theorem content_eq_of_clhash_eq (h : clhash a64 s = clhash a64 s') :
    AdjoinRoot.mk modulus (content a64 s) +
        polyAt (AdjoinRoot.root modulus) (a64 132) *
          polyAt (AdjoinRoot.root modulus) (BitVec.ofNat 64 s.length) =
      AdjoinRoot.mk modulus (content a64 s') +
        polyAt (AdjoinRoot.root modulus) (a64 132) *
          polyAt (AdjoinRoot.root modulus) (BitVec.ofNat 64 s'.length) := by
  have hresidue : ∀ s : List Byte, ∃ v, clhash a64 s = some v ∧ polyAt (AdjoinRoot.root modulus) v =
      AdjoinRoot.mk modulus (content a64 s) +
        polyAt (AdjoinRoot.root modulus) (a64 132) *
          polyAt (AdjoinRoot.root modulus) (BitVec.ofNat 64 s.length) := by
    intro s
    obtain ⟨v, hv, hpoly⟩ := (em (m < lengthinc s)).elim (@clhash_long a64 s) (@clhash_short a64 s)
    refine ⟨v, hv, ?_⟩
    have hmod : hashPoly a64 s =
        (content a64 s + polyAt X (a64 132) * polyAt X (BitVec.ofNat 64 s.length)) %ₘ modulus := by
      simp only [hashPoly, content, accPoly]
    rw [← AdjoinRoot.mk_X, ← map_polyAt, hpoly, hmod, mk_modByMonic monic_modulus, map_add, map_mul,
      map_polyAt, map_polyAt]
  obtain ⟨v, hv, hpoly⟩ := hresidue s
  obtain ⟨v', hv', hpoly'⟩ := hresidue s'
  obtain rfl : v = v' := Option.some.inj (hv.symm.trans (h.trans hv'))
  rw [← hpoly, hpoly']

end Frame

/-- Words are different elements of the field. -/
theorem polyAt_root_modulus_injective :
    Function.Injective (polyAt (AdjoinRoot.root modulus) (w := 64)) :=
  polyAt_root_injective (by rw [degree_modulus]; rfl)

/-! ## Strings of different lengths -/

/-- The word of the key that the length is multiplied by has at most one bad value. -/
theorem unequal_lengths {s s' : List Byte} (hs : s.length < 2 ^ 64) (hs' : s'.length < 2 ^ 64)
    (hlen : s.length ≠ s'.length) : count (Collide s s') * 2 ^ 64 ≤ Fintype.card RandomKey := by
  let c := keyIndex 132 (by omega)
  have hword : ∀ (a : RandomKey) (v : Word) (s : List Byte),
      content (keyWords (Function.update a c v)) s = content (keyWords a) s := by
    intro a v s
    refine content_congr fun i hi => ?_
    rw [keyWords_update, Function.update_of_ne (show i ≠ 132 by omega)]
  have hunique : ∀ (a : RandomKey) (v w : Word), Collide s s' (Function.update a c v) →
      Collide s s' (Function.update a c w) → v = w := by
    intro a v w hv hw
    have hv := content_eq_of_clhash_eq hv
    have hw := content_eq_of_clhash_eq hw
    rw [hword, hword, keyWords_update, Function.update_self] at hv hw
    have hzero : (polyAt (AdjoinRoot.root modulus) v - polyAt (AdjoinRoot.root modulus) w) *
        (polyAt (AdjoinRoot.root modulus) (BitVec.ofNat 64 s.length) -
          polyAt (AdjoinRoot.root modulus) (BitVec.ofNat 64 s'.length)) = 0 := by
      linear_combination hv - hw
    rcases mul_eq_zero.mp hzero with h | h
    · exact polyAt_root_modulus_injective (sub_eq_zero.mp h)
    · have hnat := congrArg BitVec.toNat (polyAt_root_modulus_injective (sub_eq_zero.mp h))
      rw [BitVec.toNat_ofNat, BitVec.toNat_ofNat, Nat.mod_eq_of_lt hs, Nat.mod_eq_of_lt hs'] at hnat
      exact absurd hnat hlen
  rw [← card_bitVec 64]
  exact (Part.single c).count_mul_le_of_unique hunique

/-! ## Strings of one length -/

section SameLength

variable {s s' : List Byte}

theorem lengthinc_eq (hlen : s.length = s'.length) : lengthinc s' = lengthinc s := by
  rw [lengthinc, lengthinc, hlen]

/-- The strings differ in a word of a block. -/
theorem exists_block_ne (hlen : s.length = s'.length) (hne : s ≠ s') :
    ∃ j < blocks s, ∃ i < 2 * blockPairs s j, wordAt s (m * j + i) ≠ wordAt s' (m * j + i) := by
  obtain ⟨i, hi, hword⟩ := exists_wordAt_ne hlen hne
  have hm : m = 128 := rfl
  refine ⟨i / 128, ?_, i % 128, ?_, ?_⟩
  · rw [blocks, hm]
    omega
  · rw [blockPairs, hm]
    omega
  · rwa [hm, Nat.div_add_mod]

theorem blockSum_collision_unique {R : Type*} [CommRing R] [IsDomain R] {x : R}
    (hinj : Function.Injective (polyAt x (w := 64))) (hlen : s.length = s'.length) {i j : ℕ}
    (hi : i < 2 * blockPairs s j) (hne : wordAt s (m * j + i) ≠ wordAt s' (m * j + i))
    (hp : partner i < 133) (a : RandomKey) {v w : Word}
    (hv : blockSum x (keyWords (Function.update a (keyIndex (partner i) hp) v)) s j =
      blockSum x (keyWords (Function.update a (keyIndex (partner i) hp) v)) s' j)
    (hw : blockSum x (keyWords (Function.update a (keyIndex (partner i) hp) w)) s j =
      blockSum x (keyWords (Function.update a (keyIndex (partner i) hp) w)) s' j) : v = w := by
  have hpairs : blockPairs s' j = blockPairs s j := by
    rw [blockPairs, blockPairs, lengthinc_eq hlen]
  rw [blockSum, blockSum, hpairs, keyWords_update] at hv hw
  exact pairSum_collision_unique hinj hi hne hv hw

theorem partner_lt {i j : ℕ} (hi : i < 2 * blockPairs s j) : partner i < 133 := by
  rw [blockPairs] at hi
  unfold partner
  split_ifs <;> omega

/-- A string of at most `m` words is one block. -/
theorem short_strings (hlen : s.length = s'.length) (hne : s ≠ s') (hshort : ¬ m < lengthinc s) :
    count (Collide s s') * 2 ^ 64 ≤ Fintype.card RandomKey := by
  obtain ⟨j, hj, i, hi, hword⟩ := exists_block_ne hlen hne
  obtain rfl : j = 0 := by
    have hm : m = 128 := rfl
    rw [blocks, hm] at hj
    omega
  have hblock : ∀ a, Collide s s' a → blockSum (AdjoinRoot.root modulus) (keyWords a) s 0 =
      blockSum (AdjoinRoot.root modulus) (keyWords a) s' 0 := by
    intro a ha
    have h := content_eq_of_clhash_eq ha
    rw [hlen, add_left_inj, content, content, lengthinc_eq hlen, if_neg hshort, if_neg hshort,
      map_blockSum, map_blockSum, AdjoinRoot.mk_X] at h
    exact h
  rw [← card_bitVec 64]
  refine (Part.single (keyIndex (partner i) (partner_lt hi))).count_mul_le_of_unique
    fun a v w hv hw => ?_
  exact blockSum_collision_unique polyAt_root_modulus_injective hlen hi hword (partner_lt hi)
    a (hblock _ hv) (hblock _ hw)

end SameLength

/-! ## Strings of several blocks -/

section Accumulator

variable {a64 : ℕ → Word} {s s' : List Byte} {j : ℕ}

theorem natDegree_word_le (k w : Word) :
    (polyAt X k + polyAt X w : (ZMod 2)[X]).natDegree ≤ 63 := by
  rw [← polyAt_xor, natDegree_le_iff_coeff_eq_zero]
  intro i hi
  rw [coeff_polyAt_X, BitVec.getLsbD_of_ge _ i (by omega)]
  rfl

theorem degree_blockSum_lt (a64 : ℕ → Word) (s : List Byte) (j : ℕ) :
    (blockSum X a64 s j : (ZMod 2)[X]).degree < lazyFactor.degree := by
  have h : (blockSum X a64 s j : (ZMod 2)[X]).natDegree ≤ 126 := by
    rw [blockSum, pairSum]
    apply natDegree_sum_le_of_forall_le
    intro t _
    have hmul :=
      @natDegree_mul_le (ZMod 2) _ (polyAt X (a64 (2 * t)) + polyAt X (wordAt s (m * j + 2 * t)))
        (polyAt X (a64 (2 * t + 1)) + polyAt X (wordAt s (m * j + 2 * t + 1)))
    exact hmul.trans (Nat.add_le_add (natDegree_word_le _ _) (natDegree_word_le _ _))
  rw [degree_lazyFactor]
  exact (degree_le_of_natDegree_le h).trans_lt (by decide)

/-- The difference of the accumulators of two strings as a polynomial in the key that
    multiplies the blocks. -/
noncomputable def accDiff (a64 : ℕ → Word) (s s' : List Byte) : (AdjoinRoot lazyFactor)[X] :=
  ∑ j ∈ range (blocks s), C (blockSum (AdjoinRoot.root lazyFactor) a64 s j -
    blockSum (AdjoinRoot.root lazyFactor) a64 s' j) * X ^ (blocks s - 1 - j)

theorem eval_accDiff (p : AdjoinRoot lazyFactor) : (accDiff a64 s s').eval p =
    hornerSum (AdjoinRoot.root lazyFactor) p a64 s (blocks s) -
      hornerSum (AdjoinRoot.root lazyFactor) p a64 s' (blocks s) := by
  rw [accDiff, eval_finsetSum, hornerSum, hornerSum, ← sum_sub_distrib]
  refine sum_congr rfl fun j _ => ?_
  rw [eval_mul, eval_C, eval_pow, eval_X]
  ring

theorem natDegree_accDiff_le : (accDiff a64 s s').natDegree ≤ blocks s - 1 := by
  refine natDegree_sum_le_of_forall_le _ _ fun j _ => ?_
  exact (natDegree_C_mul_X_pow_le _ _).trans (Nat.sub_le _ _)

theorem accDiff_ne_zero (hj : j < blocks s)
    (hne : (blockSum X a64 s j : (ZMod 2)[X]) ≠ blockSum X a64 s' j) : accDiff a64 s s' ≠ 0 := by
  intro hzero
  have hcoeff := congrArg (fun f => f.coeff (blocks s - 1 - j)) hzero
  simp only [accDiff, finsetSum_coeff, coeff_zero] at hcoeff
  rw [sum_eq_single j] at hcoeff
  · rw [coeff_C_mul_X_pow, if_pos rfl, sub_eq_zero, ← AdjoinRoot.mk_X, ← map_blockSum,
      ← map_blockSum] at hcoeff
    exact hne (eq_of_mk_eq (degree_blockSum_lt a64 s j) (degree_blockSum_lt a64 s' j) hcoeff)
  · intro i hi hij
    have hlt := mem_range.mp hi
    rw [coeff_C_mul_X_pow, if_neg (by omega)]
  · exact fun h => absurd (mem_range.mpr hj) h

/-- The key of strings with one accumulator is a root. -/
theorem isRoot_accDiff (hlen : s.length = s'.length) (h : accPoly a64 s = accPoly a64 s') :
    (accDiff a64 s s').IsRoot (polyAt (AdjoinRoot.root lazyFactor) (polyvalue a64)) := by
  have hblocks : blocks s' = blocks s := by rw [blocks, blocks, lengthinc_eq hlen]
  have hmk : AdjoinRoot.mk lazyModulus (hornerSum X (polyAt X (polyvalue a64)) a64 s (blocks s)) =
      AdjoinRoot.mk lazyModulus (hornerSum X (polyAt X (polyvalue a64)) a64 s' (blocks s')) := by
    have hmod : ∀ s, AdjoinRoot.mk lazyModulus (accPoly a64 s) =
        AdjoinRoot.mk lazyModulus (hornerSum X (polyAt X (polyvalue a64)) a64 s (blocks s)) := by
      intro s
      rw [accPoly]
      exact mk_modByMonic monic_lazyModulus _
    rw [← hmod s, ← hmod s', h]
  have hfactor : AdjoinRoot.mk lazyFactor
      (hornerSum X (polyAt X (polyvalue a64)) a64 s (blocks s)) =
      AdjoinRoot.mk lazyFactor (hornerSum X (polyAt X (polyvalue a64)) a64 s' (blocks s')) := by
    obtain ⟨q, hq⟩ := AdjoinRoot.mk_eq_mk.mp hmk
    refine AdjoinRoot.mk_eq_mk.mpr ⟨X * q, ?_⟩
    rw [hq, lazyModulus_eq, mul_comm X lazyFactor, mul_assoc]
  rw [map_hornerSum, map_hornerSum, map_polyAt, AdjoinRoot.mk_X, hblocks] at hfactor
  rw [IsRoot.def, eval_accDiff, hfactor, sub_self]

theorem polyvalue_toNat (a64 : ℕ → Word) :
    (polyvalue a64).toNat = ((a64 129).toNat * 2 ^ 64 + (a64 128).toNat) % 2 ^ 126 := by
  have hmask : mmSetrEpi32 0xFFFFFFFF 0xFFFFFFFF 0xFFFFFFFF 0x3fffffff =
      BitVec.ofNat 128 (2 ^ 126 - 1) := by
    decide +kernel
  have hpair : (mmSetEpi64x (a64 129) (a64 128)).toNat =
      (a64 129).toNat * 2 ^ 64 + (a64 128).toNat := by
    rw [mmSetEpi64x, BitVec.toNat_append, ← Nat.shiftLeft_add_eq_or_of_lt (a64 128).isLt,
      Nat.shiftLeft_eq]
  have hand : ∀ n : ℕ, n &&& (2 ^ 126 - 1) = n % 2 ^ 126 :=
    fun n => Nat.and_two_pow_sub_one_eq_mod n 126
  calc (polyvalue a64).toNat =
          (mmSetEpi64x (a64 129) (a64 128)).toNat &&& (BitVec.ofNat 128 (2 ^ 126 - 1)).toNat := by
        rw [polyvalue, hmask, BitVec.toNat_and]
    _ = ((a64 129).toNat * 2 ^ 64 + (a64 128).toNat) % 2 ^ 126 := by
        rw [hpair, BitVec.toNat_ofNat, Nat.mod_eq_of_lt (by norm_num), hand]

end Accumulator

section LongStrings

variable {s s' : List Byte} {j : ℕ}

/-- The two words of the key that multiply the blocks. -/
def polyPart : Part RandomKey (Word × Word) :=
  Part.pair (keyIndex 128 (by omega)) (keyIndex 129 (by omega)) (by decide)

/-- The two words of the key of the last product. -/
def finalPart : Part RandomKey (Word × Word) :=
  Part.pair (keyIndex 130 (by omega)) (keyIndex 131 (by omega)) (by decide)

theorem keyWords_polyPart (a : RandomKey) (v : Word × Word) : keyWords (polyPart.set a v) =
    Function.update (Function.update (keyWords a) 128 v.1) 129 v.2 := by
  show keyWords (Function.update (Function.update a (keyIndex 128 (by omega)) v.1)
    (keyIndex 129 (by omega)) v.2) = _
  rw [keyWords_update, keyWords_update]

theorem keyWords_finalPart (a : RandomKey) (v : Word × Word) : keyWords (finalPart.set a v) =
    Function.update (Function.update (keyWords a) 130 v.1) 131 v.2 := by
  show keyWords (Function.update (Function.update a (keyIndex 130 (by omega)) v.1)
    (keyIndex 131 (by omega)) v.2) = _
  rw [keyWords_update, keyWords_update]

/-- Two bits of the words are masked out. -/
theorem count_polyvalue_le (a : RandomKey) (b : AdjoinRoot lazyFactor) :
    (count fun v => polyAt (AdjoinRoot.root lazyFactor)
      (polyvalue (keyWords (polyPart.set a v))) = b) ≤ 4 := by
  have hdetermines := @count_le_of_determines (Word × Word) _
    (fun v => polyAt (AdjoinRoot.root lazyFactor) (polyvalue (keyWords (polyPart.set a v))) =
      b) (BitVec 2) _
    (fun v => v.2.extractLsb' 62 2)
  rw [card_bitVec] at hdetermines
  refine hdetermines fun v w hv hw hbits => ?_
  have hpoly := congrArg BitVec.toNat (eq_of_polyAt_root_eq (polyvalue_lt _) (polyvalue_lt _)
    (by rw [degree_lazyFactor]; decide) (hv.trans hw.symm))
  have htop := congrArg BitVec.toNat hbits
  simp only [polyvalue_toNat, keyWords_polyPart, Function.update_self,
    Function.update_of_ne (show 128 ≠ 129 by omega)] at hpoly
  simp only [BitVec.extractLsb'_toNat, Nat.shiftRight_eq_div_pow] at htop
  have h1 := v.1.isLt
  have h2 := v.2.isLt
  have h3 := w.1.isLt
  have h4 := w.2.isLt
  refine Prod.ext (BitVec.eq_of_toNat_eq ?_) (BitVec.eq_of_toNat_eq ?_) <;> omega

theorem blockSum_polyPart {R : Type*} [CommRing R] (x : R) (a : RandomKey) (v : Word × Word)
    (s : List Byte) (j : ℕ) :
    blockSum x (keyWords (polyPart.set a v)) s j = blockSum x (keyWords a) s j := by
  refine blockSum_congr fun i hi => ?_
  have hm : i < 128 := hi
  rw [keyWords_polyPart, Function.update_of_ne (by omega), Function.update_of_ne (by omega)]

theorem accPoly_finalPart (a : RandomKey) (v : Word × Word) (s : List Byte) :
    accPoly (keyWords (finalPart.set a v)) s = accPoly (keyWords a) s := by
  refine accPoly_congr fun i hi => ?_
  rw [keyWords_finalPart, Function.update_of_ne (by omega), Function.update_of_ne (by omega)]

/-- Strings whose blocks `j` hash differently have one accumulator for few keys. -/
theorem count_acc_le (hlen : s.length = s'.length) (hj : j < blocks s) (a : RandomKey)
    (hne : (blockSum X (keyWords a) s j : (ZMod 2)[X]) ≠ blockSum X (keyWords a) s' j) :
    (count fun v => accPoly (keyWords (polyPart.set a v)) s =
      accPoly (keyWords (polyPart.set a v)) s') ≤ 4 * (blocks s - 1) := by
  classical
  have hdiff : ∀ v, accDiff (keyWords (polyPart.set a v)) s s' = accDiff (keyWords a) s s' := by
    intro v
    simp only [accDiff, blockSum_polyPart]
  have hne0 := accDiff_ne_zero hj hne
  have hroots : ∀ v, accPoly (keyWords (polyPart.set a v)) s =
      accPoly (keyWords (polyPart.set a v)) s' →
      polyAt (AdjoinRoot.root lazyFactor) (polyvalue (keyWords (polyPart.set a v))) ∈
        (accDiff (keyWords a) s s').roots.toFinset := by
    intro v hv
    rw [Multiset.mem_toFinset, mem_roots hne0, ← hdiff v]
    exact isRoot_accDiff hlen hv
  refine (count_le_mul _ hroots (count_polyvalue_le a)).trans (Nat.mul_le_mul_left 4 ?_)
  exact (Multiset.toFinset_card_le _).trans ((card_roots' _).trans natDegree_accDiff_le)

/-- An accumulator is determined by its halves as elements of the field. -/
theorem accPoly_halves_ne {a64 : ℕ → Word} (hne : accPoly a64 s ≠ accPoly a64 s') :
    AdjoinRoot.mk modulus (accPoly a64 s %ₘ X ^ 64) ≠
      AdjoinRoot.mk modulus (accPoly a64 s' %ₘ X ^ 64) ∨
    AdjoinRoot.mk modulus (accPoly a64 s /ₘ X ^ 64) ≠
    AdjoinRoot.mk modulus (accPoly a64 s' /ₘ X ^ 64) := by
  have hmonic : (X ^ 64 : (ZMod 2)[X]).Monic := monic_X_pow 64
  have hlow : ∀ s, (accPoly a64 s %ₘ X ^ 64).degree < modulus.degree := by
    intro s
    rw [degree_modulus]
    exact (degree_modByMonic_lt _ hmonic).trans_eq (degree_X_pow 64)
  have hhigh : ∀ s, (accPoly a64 s /ₘ X ^ 64).degree < modulus.degree := by
    intro s
    have hacc : (accPoly a64 s).natDegree < 128 := by
      have hlt := natDegree_modByMonic_lt (hornerSum X (polyAt X (polyvalue a64)) a64 s (blocks s))
        monic_lazyModulus (by intro h; simpa [h] using degree_lazyModulus)
      rwa [natDegree_eq_of_degree_eq_some degree_lazyModulus] at hlt
    have hdiv : (accPoly a64 s /ₘ X ^ 64).natDegree ≤ 63 := by
      rw [natDegree_divByMonic _ hmonic, natDegree_X_pow]
      omega
    rw [degree_modulus]
    exact (degree_le_of_natDegree_le hdiv).trans_lt (by decide)
  by_contra hboth
  push Not at hboth
  apply hne
  rw [← modByMonic_add_div (accPoly a64 s) (X ^ 64), ← modByMonic_add_div (accPoly a64 s') (X ^ 64),
    eq_of_mk_eq (hlow s) (hlow s') hboth.1, eq_of_mk_eq (hhigh s) (hhigh s') hboth.2]

/-- The last product of different accumulators: one word of the key determines the other. -/
theorem count_final_le (hlen : s.length = s'.length) (hlong : m < lengthinc s) (a : RandomKey)
    (hne : accPoly (keyWords a) s ≠ accPoly (keyWords a) s') :
    (count fun v => Collide s s' (finalPart.set a v)) ≤ 2 ^ 64 := by
  have hlong' : m < lengthinc s' := by rwa [lengthinc_eq hlen]
  set low := fun s => AdjoinRoot.mk modulus (accPoly (keyWords a) s %ₘ X ^ 64) with hlow
  set high := fun s => AdjoinRoot.mk modulus (accPoly (keyWords a) s /ₘ X ^ 64) with hhigh
  have hproduct : ∀ v : Word × Word, Collide s s' (finalPart.set a v) →
      (low s + polyAt (AdjoinRoot.root modulus) v.1) *
        (high s + polyAt (AdjoinRoot.root modulus) v.2) =
        (low s' + polyAt (AdjoinRoot.root modulus) v.1) *
        (high s' + polyAt (AdjoinRoot.root modulus) v.2) := by
    intro v hv
    have h := content_eq_of_clhash_eq hv
    rw [hlen, add_left_inj, content, content, if_pos hlong, if_pos hlong', accPoly_finalPart,
      accPoly_finalPart, keyWords_finalPart, Function.update_self,
      Function.update_of_ne (show 130 ≠ 131 by omega),
      Function.update_self] at h
    simpa only [map_mul, map_add, map_polyAt, AdjoinRoot.mk_X] using h
  rw [← card_bitVec 64]
  by_cases hsame : low s = low s'
  · -- the high halves differ: the second word determines the first
    have hhighne : high s ≠ high s' := (accPoly_halves_ne hne).resolve_left fun h => h hsame
    refine count_le_of_determines Prod.snd fun v w hv hw heq => Prod.ext ?_ heq
    have hzero : ∀ v : Word × Word, Collide s s' (finalPart.set a v) →
        low s' + polyAt (AdjoinRoot.root modulus) v.1 = 0 := by
      intro v hv
      have h := hproduct v hv
      rw [hsame, ← sub_eq_zero, ← mul_sub, add_sub_add_right_eq_sub] at h
      exact (mul_eq_zero.mp h).resolve_right (sub_ne_zero.mpr hhighne)
    exact polyAt_root_modulus_injective (add_left_cancel ((hzero v hv).trans (hzero w hw).symm))
  · -- the low halves differ: the first word determines the second
    refine count_le_of_determines Prod.fst fun v w hv hw heq => Prod.ext heq ?_
    have h1 := hproduct v hv
    have h2 := hproduct w hw
    rw [heq] at h1
    have hzero : (low s - low s') *
        (polyAt (AdjoinRoot.root modulus) v.2 - polyAt (AdjoinRoot.root modulus) w.2) = 0 := by
      linear_combination h1 - h2
    exact polyAt_root_modulus_injective
      (sub_eq_zero.mp ((mul_eq_zero.mp hzero).resolve_left (sub_ne_zero.mpr hsame)))

/-- The three stages of a long string: the blocks, the accumulator, the last product. -/
theorem long_strings (hlen : s.length = s'.length) (hne : s ≠ s') (hlong : m < lengthinc s) :
    count (Collide s s') * 2 ^ 128 ≤ (2 ^ 65 + 4 * (blocks s - 1)) * Fintype.card RandomKey := by
  obtain ⟨j, hj, i, hi, hword⟩ := exists_block_ne hlen hne
  let sameBlock (a : RandomKey) : Prop := (blockSum X (keyWords a) s j : (ZMod 2)[X]) =
    blockSum X (keyWords a) s' j
  let sameAcc (a : RandomKey) : Prop := accPoly (keyWords a) s = accPoly (keyWords a) s'
  have hpair : Fintype.card (Word × Word) = 2 ^ 128 := by
    rw [Fintype.card_prod, card_bitVec, ← pow_add]
  have hblock : count sameBlock * 2 ^ 64 ≤ Fintype.card RandomKey := by
    rw [← card_bitVec 64]
    exact (Part.single (keyIndex (partner i) (partner_lt hi))).count_mul_le_of_unique
      fun a v w hv hw =>
      blockSum_collision_unique polyAt_injective hlen hi hword (partner_lt hi) a hv hw
  have hacc : (count fun a => ¬ sameBlock a ∧ sameAcc a) * 2 ^ 128 ≤
      4 * (blocks s - 1) * Fintype.card RandomKey := by
    have hle := polyPart.count_mul_le (fun a (h : ¬ sameBlock a ∧ sameAcc a) => h.1)
      (fun a v h => by
        show ¬ blockSum X _ s j = blockSum X _ s' j
        rwa [blockSum_polyPart, blockSum_polyPart])
      fun a ha => (count_mono fun v h => h.2).trans (count_acc_le hlen hj a ha)
    rw [hpair] at hle
    exact hle.trans (Nat.mul_le_mul_left _ (count_le_card _))
  have hfinal : (count fun a => ¬ sameAcc a ∧ Collide s s' a) * 2 ^ 128 ≤
      2 ^ 64 * Fintype.card RandomKey := by
    have hle := finalPart.count_mul_le (fun a (h : ¬ sameAcc a ∧ Collide s s' a) => h.1)
      (fun a v h => by
        show ¬ accPoly _ s = accPoly _ s'
        rwa [accPoly_finalPart, accPoly_finalPart])
      fun a ha => (count_mono fun v h => h.2).trans (count_final_le hlen hlong a ha)
    rw [hpair] at hle
    exact hle.trans (Nat.mul_le_mul_left _ (count_le_card _))
  have hstages : count (Collide s s') ≤ count sameBlock +
      ((count fun a => ¬ sameBlock a ∧ sameAcc a) +
      count fun a => ¬ sameAcc a ∧ Collide s s' a) := by
    refine (count_le_add fun a ha => ?_).trans (Nat.add_le_add_left (count_le_add fun a ha => ha) _)
    by_cases h1 : sameBlock a
    · exact Or.inl h1
    · by_cases h2 : sameAcc a
      · exact Or.inr (Or.inl ⟨h1, h2⟩)
      · exact Or.inr (Or.inr ⟨h2, ha⟩)
  calc count (Collide s s') * 2 ^ 128
      ≤ (count sameBlock + ((count fun a => ¬ sameBlock a ∧ sameAcc a) +
          count fun a => ¬ sameAcc a ∧ Collide s s' a)) * 2 ^ 128 := Nat.mul_le_mul_right _ hstages
    _ = count sameBlock * 2 ^ 64 * 2 ^ 64 + ((count fun a => ¬ sameBlock a ∧ sameAcc a) * 2 ^ 128 +
          (count fun a => ¬ sameAcc a ∧ Collide s s' a) * 2 ^ 128) := by ring
    _ ≤ Fintype.card RandomKey * 2 ^ 64 + (4 * (blocks s - 1) * Fintype.card RandomKey +
          2 ^ 64 * Fintype.card RandomKey) := by gcongr
    _ = (2 ^ 65 + 4 * (blocks s - 1)) * Fintype.card RandomKey := by ring

end LongStrings

/-- Two different strings of bytes have the same hash for at most 2.004 of every `2^64`
    random keys. -/
theorem clhash_universal (s s' : List Byte) (hs : s.length < 2 ^ 64) (hs' : s'.length < 2 ^ 64)
    (hne : s ≠ s') :
    1000 * 2 ^ 64 * count (fun a : RandomKey => clhash (keyWords a) s = clhash (keyWords a) s') ≤
      2004 * Fintype.card RandomKey := by
  have hone : count (Collide s s') * 2 ^ 64 ≤ Fintype.card RandomKey →
      1000 * 2 ^ 64 * count (Collide s s') ≤ 2004 * Fintype.card RandomKey := by
    intro h
    linarith
  show 1000 * 2 ^ 64 * count (Collide s s') ≤ _
  by_cases hlen : s.length = s'.length
  · by_cases hlong : m < lengthinc s
    · have h := long_strings hlen hne hlong
      have hblocks : 4 * (blocks s - 1) ≤ 2 ^ 56 := by
        have hm : m = 128 := rfl
        rw [blocks, lengthinc, hm]
        omega
      have hle : count (Collide s s') * 2 ^ 128 ≤ (2 ^ 65 + 2 ^ 56) * Fintype.card RandomKey :=
        h.trans (Nat.mul_le_mul_right _ (Nat.add_le_add_left hblocks _))
      linarith
    · exact hone (short_strings hlen hne hlong)
  · exact hone (unequal_lengths hs hs' hlen)

theorem clhash_universal_one : 1000 * 2 ^ 64 * count (fun a : RandomKey => clhash (keyWords a) [1] =
    clhash (keyWords a) [2]) ≤ 2004 * Fintype.card RandomKey :=
  clhash_universal [1] [2] (by decide) (by decide) (by decide)

end ClHash

end FPTreeDB
