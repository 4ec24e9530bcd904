import FPTreeDB.Model.ClHash

/-!
# The reductions of CLHash

What the intrinsics of `src/clhash.c` (lines 14-111) compute, as polynomials over `GF(2)`.

* `lazymod127`: the remainder modulo `X¹²⁸ + X² + X` when the two highest bits are zero;
  `mul128by128to128Lazymod127` multiplies modulo it when the first factor has at most 126
  bits.
* `precompReduction64`: the remainder of every 128-bit vector modulo
  `X⁶⁴ + X⁴ + X³ + X + 1`, where the table replaces the second multiplication.
-/

namespace FPTreeDB

namespace ClHash

open CarryLess Polynomial

/-- The modulus of `lazymod127`: `2^128 + 4 + 2`. -/
noncomputable def lazyModulus : (ZMod 2)[X] := X ^ 128 + X ^ 2 + X

/-- The modulus of `precompReduction64`: `(64,4,3,1,0)`. -/
noncomputable def modulus : (ZMod 2)[X] := X ^ 64 + X ^ 4 + X ^ 3 + X + 1

section Halves

variable {a b : M128}

theorem append_halves (a : M128) : hi a ++ lo a = a := by
  apply BitVec.eq_of_getLsbD_eq
  intro i hi'
  rw [BitVec.getLsbD_append, hi, lo, BitVec.getLsbD_extractLsb', BitVec.getLsbD_extractLsb']
  by_cases h : i < 64
  · simp [h]
  · have hsub : i - 64 < 64 := by omega
    simp [h, hsub, Nat.add_sub_cancel' (Nat.le_of_not_lt h)]

@[simp] theorem hi_append (e1 e0 : Word) : hi (e1 ++ e0) = e1 := by
  apply BitVec.eq_of_getLsbD_eq
  intro i h
  rw [hi, BitVec.getLsbD_extractLsb', BitVec.getLsbD_append]
  simp [h]

@[simp] theorem lo_append (e1 e0 : Word) : lo (e1 ++ e0) = e0 := by
  apply BitVec.eq_of_getLsbD_eq
  intro i h
  rw [lo, BitVec.getLsbD_extractLsb', BitVec.getLsbD_append]
  simp [h]

@[simp] theorem hi_xor : hi (a ^^^ b) = hi a ^^^ hi b := by
  apply BitVec.eq_of_getLsbD_eq
  intro i h
  simp [hi, h]

@[simp] theorem lo_xor : lo (a ^^^ b) = lo a ^^^ lo b := by
  apply BitVec.eq_of_getLsbD_eq
  intro i h
  simp [lo, h]

@[simp] theorem hi_cvtsi64 (e : Word) : hi (mmCvtsi64Si128 e) = 0 := hi_append 0 e

@[simp] theorem lo_cvtsi64 (e : Word) : lo (mmCvtsi64Si128 e) = e := lo_append 0 e

/-- The shift by a word moves the low half up. -/
theorem mmSlliSi128_eight (a : M128) : mmSlliSi128 a 8 = lo a ++ (0 : Word) := by
  apply BitVec.eq_of_getLsbD_eq
  intro i h
  rw [mmSlliSi128, BitVec.getLsbD_shiftLeft, BitVec.getLsbD_append, lo, BitVec.getLsbD_extractLsb']
  by_cases hi' : i < 64
  · simp [h, hi']
  · have hsub : i - 64 < 64 := by omega
    simp [h, hi', hsub]

/-- The shift by a word moves the high half down. -/
theorem mmSrliSi128_eight (a : M128) : mmSrliSi128 a 8 = (0 : Word) ++ hi a := by
  apply BitVec.eq_of_getLsbD_eq
  intro i h
  rw [mmSrliSi128, BitVec.getLsbD_ushiftRight, BitVec.getLsbD_append, hi,
    BitVec.getLsbD_extractLsb']
  by_cases hi' : i < 64
  · simp [hi']
  · have hbeyond : a.getLsbD (8 * 8 + i) = false := BitVec.getLsbD_of_ge a _ (by omega)
    simp [hi', hbeyond]

/-- The two halves shifted, with the bits that leave the low half carried over, are the
    whole shifted. -/
theorem leftshift_eq {k : ℕ} (hpos : 0 < k) (hk : k < 64) (a : M128) : leftshift k a = a <<< k := by
  apply BitVec.eq_of_getLsbD_eq
  intro i h
  show (mmSlliEpi64 a k ||| mmSlliSi128 (mmSrliEpi64 a (64 - k)) 8).getLsbD i = _
  rw [mmSlliSi128_eight, mmSrliEpi64, lo_append, mmSlliEpi64, BitVec.getLsbD_or,
    BitVec.getLsbD_append, BitVec.getLsbD_append, BitVec.getLsbD_shiftLeft,
    BitVec.getLsbD_shiftLeft, BitVec.getLsbD_shiftLeft,
    BitVec.getLsbD_ushiftRight, hi, lo, BitVec.getLsbD_extractLsb', BitVec.getLsbD_extractLsb',
    BitVec.getLsbD_extractLsb']
  by_cases hlow : i < 64
  · have hsub : i - k < 64 := by omega
    simp [h, hlow, hsub]
  · have hsub : i - 64 < 64 := by omega
    have hdiff : i - 64 - k < 64 := by omega
    by_cases hcarry : i - 64 < k
    · have hidx : 64 - k + (i - 64) = i - k := by omega
      have hin : i - k < 64 := by omega
      have hik : ¬ i < k := by omega
      simp [h, hlow, hsub, hcarry, hidx, hin, hik]
    · have hout : ¬ 64 - k + (i - 64) < 64 := by omega
      have hidx : 64 + (i - 64 - k) = i - k := by omega
      have hik : ¬ i < k := by omega
      simp [h, hlow, hsub, hcarry, hdiff, hout, hidx, hik]

end Halves

/-! ## In a ring of characteristic two -/

section Ring

variable {R : Type*} [CommRing R] {x : R}

theorem polyAt_halves (a : M128) : polyAt x a = polyAt x (lo a) + x ^ 64 * polyAt x (hi a) := by
  rw [← polyAt_append, append_halves]

@[simp] theorem polyAt_cvtsi64 (e : Word) : polyAt x (mmCvtsi64Si128 e) = polyAt x e := by
  rw [mmCvtsi64Si128, mmSetEpi64x, polyAt_append, BitVec.ofNat_eq_ofNat, polyAt_zero,
    mul_zero, add_zero]

variable [CharP R 2]

/-- The answer is `Alow XOR (Ahigh << 1) XOR (Ahigh << 2)`. -/
theorem polyAt_lazymod127 (hx : x ^ 128 = x ^ 2 + x) {Alow Ahigh : M128}
    (h126 : Ahigh.getLsbD 126 = false) (h127 : Ahigh.getLsbD 127 = false) :
    polyAt x (lazymod127 Alow Ahigh) = polyAt x Alow + x ^ 128 * polyAt x Ahigh := by
  have hshift : ∀ k, 0 < k → k ≤ 2 → polyAt x (leftshift k Ahigh) = x ^ k * polyAt x Ahigh := by
    intro k hpos hk
    rw [leftshift_eq hpos (by omega), polyAt_shiftLeft]
    intro i hi
    by_cases hlt : i < 128
    · obtain rfl | rfl : i = 126 ∨ i = 127 := by omega
      · exact h126
      · exact h127
    · exact BitVec.getLsbD_of_ge Ahigh i (by omega)
  show polyAt x ((Alow ^^^ leftshift 1 Ahigh) ^^^ leftshift 2 Ahigh) = _
  rw [polyAt_xor, polyAt_xor, hshift 1 (by omega) (by omega), hshift 2 (by omega) le_rfl, hx]
  ring

/-- The high and the low half of the product, before the reduction. -/
def productHalves (A B : M128) : M128 × M128 :=
  let Amix := mmClmulepi64Si128 A B 0x01 ^^^ mmClmulepi64Si128 A B 0x10
  (mmClmulepi64Si128 A B 0x00 ^^^ mmSlliSi128 Amix 8,
    mmClmulepi64Si128 A B 0x11 ^^^ mmSrliSi128 Amix 8)

theorem mul_eq_lazymod127 (A B : M128) :
    mul128by128to128Lazymod127 A B = lazymod127 (productHalves A B).1 (productHalves A B).2 := rfl

/-- Four products of words make the product of the vectors. -/
theorem polyAt_productHalves (A B : M128) :
    polyAt x (productHalves A B).1 + x ^ 128 * polyAt x (productHalves A B).2 =
      polyAt x A * polyAt x B := by
  have h64 : x ^ 128 = x ^ 64 * x ^ 64 := by ring
  simp only [productHalves, polyAt_xor, mmSlliSi128_eight, mmSrliSi128_eight, polyAt_append,
    mmClmulepi64Si128, BitVec.ofNat_eq_ofNat, polyAt_zero, mul_zero, zero_add, add_zero]
  have hmix := polyAt_halves (x := x) (clmul (hi A) (lo B) ^^^ clmul (lo A) (hi B))
  rw [polyAt_xor, polyAt_clmul, polyAt_clmul] at hmix
  simp only [show Nat.testBit 1 0 = true by decide, show Nat.testBit 1 4 = false by decide,
    show Nat.testBit 16 0 = false by decide, show Nat.testBit 16 4 = true by decide,
    show Nat.testBit 17 0 = true by decide, show Nat.testBit 17 4 = true by decide,
    Nat.zero_testBit, if_true,
    Bool.false_eq_true, if_false, polyAt_clmul]
  rw [polyAt_halves A, polyAt_halves B, h64]
  linear_combination (-x ^ 64) * hmix

/-- `Q3`: the table holds the products of the 16 values that the high half of `Q2` can
    have with the low half of the modulus. -/
theorem mmShuffleEpi8_reductionTable : ∀ n : Fin 16,
    mmShuffleEpi8 reductionTable (BitVec.ofNat 128 n) = clmul (BitVec.ofNat 64 n) (27 : Word) := by
  decide +kernel

/-- The product of a word with the low half of the modulus has four bits above the word. -/
theorem hi_clmul_lt (e : Word) : (hi (clmul e (27 : Word))).toNat < 16 := by
  have hbits : ∀ i, 68 ≤ i → (clmul e (27 : Word)).getLsbD i = false := by
    intro i hi'
    exact getLsbD_of_polyAt_mul (n := 5) (polyAt_clmul e 27) e.isLt (by decide) (by omega)
  show _ < 2 ^ 4
  apply Nat.lt_pow_two_of_testBit
  intro i hi'
  show (hi (clmul e (27 : Word))).getLsbD i = false
  rw [hi, BitVec.getLsbD_extractLsb', hbits (64 + i) (by omega), Bool.and_false]

/-- The reduction to a word, for every vector. -/
theorem polyAt_precompReduction64 (hx : x ^ 64 = x ^ 4 + x ^ 3 + x + 1) (A : M128) :
    polyAt x (precompReduction64 A) = polyAt x A := by
  have h27 : polyAt x (27 : Word) = x ^ 64 := by
    have hwidth : (27 : Word) = (27#5).setWidth 64 := rfl
    rw [hx, hwidth, polyAt_setWidth (by omega), polyAt]
    simp [Finset.sum_range_succ]
    ring
  let Q2 : M128 := clmul (hi A) (27 : Word)
  have hQ2 : polyAt x Q2 = x ^ 64 * polyAt x (hi A) := by rw [polyAt_clmul, h27, mul_comm]
  have hlt : (hi Q2).toNat < 16 := hi_clmul_lt (hi A)
  have hQ3 : mmShuffleEpi8 reductionTable (mmSrliSi128 Q2 8) = clmul (hi Q2) (27 : Word) := by
    have hlow : (0 : Word) ++ hi Q2 = BitVec.ofNat 128 (hi Q2).toNat := by
      apply BitVec.eq_of_toNat_eq
      rw [BitVec.toNat_append, BitVec.toNat_ofNat, Nat.mod_eq_of_lt (by omega)]
      simp
    rw [mmSrliSi128_eight, hlow, mmShuffleEpi8_reductionTable ⟨(hi Q2).toNat, hlt⟩,
      BitVec.ofNat_toNat, BitVec.setWidth_eq]
  have hfinal : precompReduction64 A = lo (clmul (hi Q2) (27 : Word)) ^^^ (lo Q2 ^^^ lo A) := by
    rw [← hQ3, ← lo_xor, ← lo_xor]
    rfl
  have hQ3hi : hi (clmul (hi Q2) (27 : Word)) = 0 := by
    apply BitVec.eq_of_getLsbD_eq
    intro i _
    rw [hi, BitVec.getLsbD_extractLsb',
      getLsbD_of_polyAt_mul (m := 4) (n := 5) (i := 64 + i) (polyAt_clmul (hi Q2) 27) hlt
      (by decide) (by omega)]
    simp
  have hQ3lo : polyAt x (lo (clmul (hi Q2) (27 : Word))) = polyAt x (hi Q2) * x ^ 64 := by
    rw [← h27, ← polyAt_clmul, polyAt_halves (clmul (hi Q2) (27 : Word)), hQ3hi]
    simp
  rw [hfinal, polyAt_xor, polyAt_xor, hQ3lo, polyAt_halves A, ← hQ2, polyAt_halves Q2]
  ring

/-- The multiplication by a vector of at most 126 bits. -/
theorem polyAt_mul128 (hx : x ^ 128 = x ^ 2 + x) {A : M128} (hA : A.toNat < 2 ^ 126) (B : M128) :
    polyAt x (mul128by128to128Lazymod127 A B) = polyAt x A * polyAt x B := by
  have hpoly : polyAt (X : (ZMod 2)[X]) ((productHalves A B).2 ++ (productHalves A B).1) =
      polyAt X A * polyAt X B := by
    rw [polyAt_append, polyAt_productHalves]
  have htop : ∀ i, 253 ≤ i →
      ((productHalves A B).2 ++ (productHalves A B).1).getLsbD i = false := by
    intro i hi'
    exact getLsbD_of_polyAt_mul hpoly hA B.isLt (by omega)
  have hbit : ∀ i, 125 ≤ i → (productHalves A B).2.getLsbD i = false := by
    intro i hi'
    have h := htop (128 + i) (by omega)
    rwa [BitVec.getLsbD_append, if_neg (by omega), Nat.add_sub_cancel_left] at h
  rw [mul_eq_lazymod127, polyAt_lazymod127 hx (hbit 126 (by omega)) (hbit 127 (by omega)),
    polyAt_productHalves]

end Ring

/-! ## Remainders -/

theorem monic_lazyModulus : lazyModulus.Monic := by
  unfold lazyModulus
  monicity!

theorem degree_lazyModulus : lazyModulus.degree = 128 := by
  unfold lazyModulus
  compute_degree!

theorem monic_modulus : modulus.Monic := by
  unfold modulus
  monicity!

theorem degree_modulus : modulus.degree = 64 := by
  unfold modulus
  compute_degree!

instance nontrivial_lazyModulus : Nontrivial (AdjoinRoot lazyModulus) :=
  AdjoinRoot.nontrivial lazyModulus (by rw [degree_lazyModulus]; decide)

instance nontrivial_modulus : Nontrivial (AdjoinRoot modulus) :=
  AdjoinRoot.nontrivial modulus (by rw [degree_modulus]; decide)

theorem root_lazyModulus : AdjoinRoot.root lazyModulus ^ 128 =
    AdjoinRoot.root lazyModulus ^ 2 + AdjoinRoot.root lazyModulus := by
  have hdef : lazyModulus = X ^ 128 + X ^ 2 + X := by
    unfold lazyModulus
    rfl
  have h := (congrArg (AdjoinRoot.mk lazyModulus) hdef).symm.trans AdjoinRoot.mk_self
  simp only [map_add, map_pow, AdjoinRoot.mk_X] at h
  rw [← sub_eq_zero, CharTwo.sub_eq_add, ← add_assoc, h]

theorem root_modulus : AdjoinRoot.root modulus ^ 64 =
    AdjoinRoot.root modulus ^ 4 + AdjoinRoot.root modulus ^ 3 + AdjoinRoot.root modulus + 1 := by
  have hdef : modulus = X ^ 64 + X ^ 4 + X ^ 3 + X + 1 := by
    unfold modulus
    rfl
  have h := (congrArg (AdjoinRoot.mk modulus) hdef).symm.trans AdjoinRoot.mk_self
  simp only [map_add, map_pow, map_one, AdjoinRoot.mk_X] at h
  rw [← sub_eq_zero, CharTwo.sub_eq_add, ← h]
  ring

/-- `precompReduction64` is the remainder modulo `modulus`. -/
theorem precompReduction64_eq_modByMonic (A : M128) :
    polyAt X (precompReduction64 A) = polyAt X A %ₘ modulus := by
  apply polyAt_X_eq_modByMonic monic_modulus degree_modulus
  rw [polyAt_precompReduction64 root_modulus, map_polyAt, AdjoinRoot.mk_X]

end ClHash

end FPTreeDB
