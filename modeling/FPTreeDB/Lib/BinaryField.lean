import FPTreeDB.Lib.CarryLess

/-!
# Irreducible polynomials over `GF(2)`

* `irreducible_of_frobenius`: a test by repeated squaring for polynomials whose degree is a
  power of a prime.
* `dvd_of_root_pow`, `isCoprime_of_root_mul`: what the test asks for, from the powers of the
  root of the polynomial.
* `polyAt_root_injective`: bit vectors shorter than the degree are different elements.
-/

namespace CarryLess

open Polynomial

/-- `P` divides `X^(2^n) - X` for its degree `n = ℓ^(k+1)`, and has no factor with
    `X^(2^(ℓ^k)) - X`. -/
theorem irreducible_of_frobenius {P : (ZMod 2)[X]} {l k : ℕ} (hl : l.Prime)
    (hdeg : P.natDegree = l ^ (k + 1)) (hdvd : P ∣ X ^ 2 ^ l ^ (k + 1) - X)
    (hcop : IsCoprime P (X ^ 2 ^ l ^ k - X)) : Irreducible P := by
  have hpos : 0 < P.natDegree := by
    rw [hdeg]
    exact pow_pos hl.pos _
  have hP0 : P ≠ 0 := by
    rintro rfl
    simp at hpos
  obtain ⟨f, hf, hfP⟩ := WfDvdMonoid.exists_irreducible_factor
    (not_isUnit_of_natDegree_pos P hpos) hP0
  have hcard : Nat.card (ZMod 2) = 2 := by simp
  have hfdeg : f.natDegree ∣ l ^ (k + 1) := by
    apply hf.natDegree_dvd_of_dvd_X_pow_card_pow_sub_X
    rw [hcard]
    exact hfP.trans hdvd
  -- a factor of smaller degree would be one of the other polynomial
  have hfull : f.natDegree = P.natDegree := by
    rw [hdeg]
    obtain ⟨i, hi, hfi⟩ := (Nat.dvd_prime_pow hl).mp hfdeg
    rcases Nat.lt_or_ge k i with hki | hik
    · rw [hfi, show i = k + 1 by omega]
    · have hsub : f ∣ X ^ 2 ^ l ^ k - X := by
        have h := hf.natDegree_dvd_iff_dvd_X_pow_card_pow_sub_X.mp (hfi ▸ pow_dvd_pow l hik)
        rwa [hcard] at h
      exact absurd (hcop.isUnit_of_dvd' hfP hsub) hf.not_isUnit
  obtain ⟨g, rfl⟩ := hfP
  rw [natDegree_mul hf.ne_zero (right_ne_zero_of_mul hP0)] at hfull
  have hg : IsUnit g := by
    rw [isUnit_iff_degree_eq_zero, degree_eq_natDegree (right_ne_zero_of_mul hP0)]
    exact_mod_cast (show g.natDegree = 0 by omega)
  exact (irreducible_mul_isUnit hg).mpr hf

section Vectors

variable {R : Type*} [CommRing R] {x : R} {w : ℕ}

@[simp] theorem polyAt_one (hw : 1 ≤ w) : polyAt x (1#w) = 1 := by
  have hwidth : 1#w = (1#1).setWidth w := BitVec.eq_of_toNat_eq (by simp)
  rw [hwidth, polyAt_setWidth hw, polyAt]
  simp

@[simp] theorem polyAt_two (hw : 2 ≤ w) : polyAt x (2#w) = x := by
  have hwidth : 2#w = (2#2).setWidth w := BitVec.eq_of_toNat_eq (by simp)
  rw [hwidth, polyAt_setWidth hw, polyAt]
  simp [Finset.sum_range_succ]

/-- Repeated squaring of the variable. -/
theorem polyAt_iterate {f : BitVec w → BitVec w} (hf : ∀ v, polyAt x (f v) = polyAt x v ^ 2)
    (hw : 2 ≤ w) :
    ∀ n, polyAt x (f^[n] (2#w)) = x ^ 2 ^ n := by
  intro n
  induction n with
  | zero => simp [polyAt_two hw]
  | succ n ih => rw [Function.iterate_succ_apply', hf, ih, ← pow_mul, ← pow_succ]

end Vectors

section Root

variable {P : (ZMod 2)[X]} {n : ℕ}

theorem mk_modByMonic (hP : P.Monic) (f : (ZMod 2)[X]) :
    AdjoinRoot.mk P (f %ₘ P) = AdjoinRoot.mk P f := by
  rw [← AdjoinRoot.modByMonicHom_mk hP, AdjoinRoot.mk_leftInverse hP]

theorem dvd_of_root_pow (h : AdjoinRoot.root P ^ n = AdjoinRoot.root P) : P ∣ X ^ n - X := by
  rw [← AdjoinRoot.mk_eq_zero, map_sub, map_pow, AdjoinRoot.mk_X, h, sub_self]

theorem isCoprime_of_root_mul {v : AdjoinRoot P}
    (h : (AdjoinRoot.root P ^ n - AdjoinRoot.root P) * v = 1) :
    IsCoprime P (X ^ n - X) := by
  obtain ⟨w, rfl⟩ := AdjoinRoot.mk_surjective v
  rw [← AdjoinRoot.mk_X, ← map_pow, ← map_sub, ← map_mul, ← map_one (AdjoinRoot.mk P),
    AdjoinRoot.mk_eq_mk] at h
  obtain ⟨u, hu⟩ := h
  exact ⟨-u, w, by linear_combination hu⟩

theorem eq_of_mk_eq {f g : (ZMod 2)[X]} (hf : f.degree < P.degree) (hg : g.degree < P.degree)
    (h : AdjoinRoot.mk P f = AdjoinRoot.mk P g) : f = g := by
  rw [AdjoinRoot.mk_eq_mk] at h
  rw [← sub_eq_zero]
  exact eq_zero_of_dvd_of_degree_lt h ((degree_sub_le f g).trans_lt (max_lt hf hg))

theorem eq_of_polyAt_root_eq {w n : ℕ} {a b : BitVec w} (ha : a.toNat < 2 ^ n)
    (hb : b.toNat < 2 ^ n) (hdeg : (n : WithBot ℕ) ≤ P.degree)
    (h : polyAt (AdjoinRoot.root P) a = polyAt (AdjoinRoot.root P) b) : a = b := by
  rw [← AdjoinRoot.mk_X, ← map_polyAt, ← map_polyAt] at h
  exact polyAt_injective (eq_of_mk_eq ((degree_polyAt_lt_of_lt ha).trans_le hdeg)
    ((degree_polyAt_lt_of_lt hb).trans_le hdeg) h)

theorem polyAt_root_injective {w : ℕ} (hdeg : (w : WithBot ℕ) ≤ P.degree) :
    Function.Injective (polyAt (AdjoinRoot.root P) (w := w)) :=
  fun a b h => eq_of_polyAt_root_eq a.isLt b.isLt hdeg h

end Root

/-! ## Counting bit vectors -/

instance fintype_bitVec (w : ℕ) : Fintype (BitVec w) :=
  Fintype.ofEquiv (Fin (2 ^ w)) BitVec.equivFin.toEquiv.symm

theorem card_bitVec (w : ℕ) : Fintype.card (BitVec w) = 2 ^ w := by
  rw [Fintype.ofEquiv_card, Fintype.card_fin]

end CarryLess
