import Mathlib

/-!
# Bit vectors as polynomials over `GF(2)`

`polyAt x b` is the value at `x` of the polynomial whose coefficients are the bits of
`b`, in any commutative ring of characteristic two. At `X : (ZMod 2)[X]` it is the
polynomial itself, at the root of a modulus its residue.

* `polyAt_xor`, `polyAt_append`, `polyAt_clmul`: exclusive or, concatenation and
  carry-less multiplication.
* `polyAt_injective`, `degree_polyAt_lt`: a bit vector of `w` bits is a polynomial of
  degree less than `w`.
* `polyAt_X_eq_modByMonic`: a vector with the residue of `f` is the remainder of `f`.
-/

namespace CarryLess

open Polynomial

/-- The value at `x` of the polynomial with the bits of `b` as coefficients. -/
def polyAt {R : Type*} [CommRing R] (x : R) {w : ℕ} (b : BitVec w) : R :=
  ∑ i ∈ Finset.range w, if b.getLsbD i then x ^ i else 0

/-- Carry-less multiplication. -/
def clmul {w v : ℕ} (a : BitVec w) (b : BitVec v) : BitVec (w + v) :=
  (List.range v).foldl (fun acc i => if b.getLsbD i then acc ^^^
    (a.setWidth (w + v) <<< i) else acc) 0

section Ring

variable {R S : Type*} [CommRing R] [CommRing S] {x : R} {w v n : ℕ} {a b : BitVec w}

/-- Bits beyond the width are zero. -/
theorem polyAt_eq_sum (hn : w ≤ n) :
    polyAt x b = ∑ i ∈ Finset.range n, if b.getLsbD i then x ^ i else 0 := by
  refine Finset.sum_subset (Finset.range_mono hn) fun i _ hi => ?_
  rw [BitVec.getLsbD_of_ge b i (by simpa using hi)]
  simp

@[simp] theorem polyAt_zero : polyAt x (0#w) = 0 := by simp [polyAt]

theorem polyAt_setWidth (h : w ≤ v) : polyAt x (b.setWidth v) = polyAt x b := by
  rw [polyAt_eq_sum h, polyAt]
  refine Finset.sum_congr rfl fun i hi => ?_
  rw [BitVec.getLsbD_setWidth, decide_eq_true (Finset.mem_range.mp hi), Bool.true_and]

/-- A shift that loses no bit. -/
theorem polyAt_shiftLeft {k : ℕ} (hz : ∀ i, w ≤ i + k → b.getLsbD i = false) :
    polyAt x (b <<< k) = x ^ k * polyAt x b := by
  rw [polyAt_eq_sum (n := k + w) (by omega), Finset.sum_range_add, Finset.sum_eq_zero,
    zero_add, polyAt, Finset.mul_sum]
  · refine Finset.sum_congr rfl fun i hi => ?_
    rw [BitVec.getLsbD_shiftLeft]
    by_cases hw : k + i < w
    · simp [hw, pow_add]
    · simp [hw, hz i (by omega)]
  · intro i hi
    rw [BitVec.getLsbD_shiftLeft, decide_eq_true (Finset.mem_range.mp hi)]
    simp

theorem polyAt_append (a : BitVec w) (b : BitVec v) :
    polyAt x (a ++ b) = polyAt x b + x ^ v * polyAt x a := by
  rw [polyAt_eq_sum (n := v + w) (by omega), Finset.sum_range_add, polyAt, polyAt, Finset.mul_sum]
  congr 1
  · refine Finset.sum_congr rfl fun i hi => ?_
    rw [BitVec.getLsbD_append, if_pos (Finset.mem_range.mp hi)]
  · refine Finset.sum_congr rfl fun i _ => ?_
    have hi : (a ++ b).getLsbD (v + i) = a.getLsbD i := by
      rw [BitVec.getLsbD_append, if_neg (by omega), Nat.add_sub_cancel_left]
    rw [hi, pow_add]
    split_ifs <;> simp

/-- A ring homomorphism moves the point of evaluation. -/
theorem map_polyAt (f : R →+* S) : f (polyAt x b) = polyAt (f x) b := by
  rw [polyAt, polyAt, map_sum]
  refine Finset.sum_congr rfl fun i _ => ?_
  split_ifs
  · exact map_pow f x i
  · exact map_zero f

variable [CharP R 2]

theorem polyAt_xor : polyAt x (a ^^^ b) = polyAt x a + polyAt x b := by
  rw [polyAt, polyAt, polyAt, ← Finset.sum_add_distrib]
  refine Finset.sum_congr rfl fun i _ => ?_
  rw [BitVec.getLsbD_xor]
  cases a.getLsbD i <;> cases b.getLsbD i <;> simp [CharTwo.add_self_eq_zero]

/-- The partial products of the first `k` bits. -/
theorem polyAt_clmul_range (a : BitVec w) (b : BitVec v) : ∀ k ≤ v,
    polyAt x ((List.range k).foldl
      (fun acc i => if b.getLsbD i then acc ^^^ (a.setWidth (w + v) <<< i) else acc)
      (0 : BitVec (w + v))) =
    polyAt x a * ∑ i ∈ Finset.range k, if b.getLsbD i then x ^ i else 0 := by
  intro k
  induction k with
  | zero => intro _; simp
  | succ k ih =>
    intro hk
    rw [List.range_succ, List.foldl_append, Finset.sum_range_succ, mul_add, ← ih (by omega)]
    by_cases hb : b.getLsbD k = true
    · have hshift : polyAt x (a.setWidth (w + v) <<< k) = polyAt x a * x ^ k := by
        rw [polyAt_shiftLeft, polyAt_setWidth (by omega), mul_comm]
        intro i hi
        rw [BitVec.getLsbD_setWidth, BitVec.getLsbD_of_ge a i (by omega), Bool.and_false]
      simp [hb, polyAt_xor, hshift]
    · simp [hb]

theorem polyAt_clmul (a : BitVec w) (b : BitVec v) : polyAt x (clmul a b) =
    polyAt x a * polyAt x b :=
  polyAt_clmul_range a b v le_rfl

end Ring

/-! ## Polynomials -/

section Poly

variable {w : ℕ} {a b : BitVec w}

theorem coeff_polyAt_X (b : BitVec w) (i : ℕ) :
    (polyAt (X : (ZMod 2)[X]) b).coeff i = if b.getLsbD i then 1 else 0 := by
  rw [polyAt_eq_sum (le_max_left w (i + 1)), finsetSum_coeff, Finset.sum_eq_single i]
  · split_ifs <;> simp
  · intro j _ hj
    split_ifs
    · rw [coeff_X_pow, if_neg (Ne.symm hj)]
    · exact coeff_zero i
  · intro hi
    exact absurd (Finset.mem_range.mpr
      (lt_of_lt_of_le (Nat.lt_succ_self i) (le_max_right w (i + 1)))) hi

theorem polyAt_injective : Function.Injective (polyAt (X : (ZMod 2)[X]) (w := w)) := by
  intro a b h
  apply BitVec.eq_of_getLsbD_eq
  intro i _
  have hi := congrArg (fun p => p.coeff i) h
  simp only [coeff_polyAt_X] at hi
  cases ha : a.getLsbD i <;> cases hb : b.getLsbD i <;> simp [ha, hb] at hi ⊢

theorem degree_polyAt_lt (b : BitVec w) : (polyAt (X : (ZMod 2)[X]) b).degree < w := by
  rw [degree_lt_iff_coeff_zero]
  intro i hi
  rw [coeff_polyAt_X, BitVec.getLsbD_of_ge b i hi]
  rfl

/-- A vector all of whose bits from `n` on are zero. -/
theorem degree_polyAt_lt_of_lt {n : ℕ} (hn : b.toNat < 2 ^ n) :
    (polyAt (X : (ZMod 2)[X]) b).degree < n := by
  rw [degree_lt_iff_coeff_zero]
  intro i hi
  rw [coeff_polyAt_X, BitVec.getLsbD,
    Nat.testBit_lt_two_pow (hn.trans_le (Nat.pow_le_pow_right (by omega) hi))]
  rfl

/-- The bits of a product from where both factors have run out. -/
theorem getLsbD_of_polyAt_mul {u v m n i : ℕ} {c : BitVec u} {d : BitVec v}
    (h : polyAt (X : (ZMod 2)[X]) c = polyAt X b * polyAt X d) (hb : b.toNat < 2 ^ m)
    (hd : d.toNat < 2 ^ n) (hi : m + n ≤ i + 1) : c.getLsbD i = false := by
  have hcoeff : (polyAt (X : (ZMod 2)[X]) c).coeff i = 0 := by
    rw [h, coeff_mul]
    refine Finset.sum_eq_zero fun jk hjk => ?_
    have hsum : jk.1 + jk.2 = i := Finset.HasAntidiagonal.mem_antidiagonal.mp hjk
    rcases Nat.lt_or_ge jk.1 m with hj | hj
    · rw [(degree_lt_iff_coeff_zero _ _).mp (degree_polyAt_lt_of_lt hd) jk.2 (by omega), mul_zero]
    · rw [(degree_lt_iff_coeff_zero _ _).mp (degree_polyAt_lt_of_lt hb) jk.1 hj, zero_mul]
  rw [coeff_polyAt_X] at hcoeff
  by_contra hbit
  rw [Bool.not_eq_false] at hbit
  rw [if_pos hbit] at hcoeff
  exact one_ne_zero hcoeff

/-- A vector of as many bits as the degree of the modulus that has the residue of `f` is
    the remainder of `f`. -/
theorem polyAt_X_eq_modByMonic {p f : (ZMod 2)[X]} (hp : p.Monic) (hdeg : p.degree = w)
    (h : polyAt (AdjoinRoot.root p) b = AdjoinRoot.mk p f) : polyAt X b = f %ₘ p := by
  have hmk : AdjoinRoot.mk p (polyAt X b) = AdjoinRoot.mk p f := by
    rw [map_polyAt, AdjoinRoot.mk_X, h]
  have hself : polyAt X b %ₘ p = polyAt X b :=
    (modByMonic_eq_self_iff hp).mpr (by rw [hdeg]; exact degree_polyAt_lt b)
  obtain ⟨q, hq⟩ := AdjoinRoot.mk_eq_mk.mp hmk
  have hf : polyAt X b = f + p * q := by rw [← hq]; ring
  rw [← hself, hf, add_modByMonic,
    (modByMonic_eq_zero_iff_dvd hp).mpr (dvd_mul_right p q), add_zero]

instance charP_adjoinRoot {p : (ZMod 2)[X]} [Nontrivial (AdjoinRoot p)] : CharP (AdjoinRoot p) 2 :=
  charP_of_injective_algebraMap (algebraMap (ZMod 2) (AdjoinRoot p)).injective 2

end Poly

end CarryLess
