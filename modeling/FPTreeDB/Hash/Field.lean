import FPTreeDB.Lib.BinaryField
import FPTreeDB.Hash.Reduction

/-!
# The moduli of `clhash`

The polynomial of the table reduction is irreducible (clhash.c:88), and the polynomial of
the lazy reduction is the variable times an irreducible one (clhash.c:31-32).

* `irreducible_modulus`, `irreducible_lazyFactor`.
-/

namespace FPTreeDB

namespace ClHash

open CarryLess Polynomial

/-! ## The table reduction -/

/-- Squaring with the reduction of `clhash`. -/
def square64 (v : Word) : Word := precompReduction64 (clmul v v)

theorem polyAt_square64 (v : Word) :
    polyAt (AdjoinRoot.root modulus) (square64 v) = polyAt (AdjoinRoot.root modulus) v ^ 2 := by
  rw [square64, polyAt_precompReduction64 root_modulus, polyAt_clmul, sq]

theorem irreducible_modulus : Irreducible modulus := by
  have hpow := polyAt_iterate polyAt_square64 (by omega)
  have hroot : polyAt (AdjoinRoot.root modulus) (2#64) = AdjoinRoot.root modulus :=
    polyAt_two (by omega)
  have hfix : square64^[64] (2#64) = 2#64 := by decide +kernel
  have hinv : precompReduction64
      (clmul (square64^[32] (2#64) ^^^ 2#64) (0x53cad161bf5a89c7 : Word)) = 1#64 := by
    decide +kernel
  refine @irreducible_of_frobenius modulus 2 5 Nat.prime_two ?_ ?_ ?_
  · exact natDegree_eq_of_degree_eq_some degree_modulus
  · apply dvd_of_root_pow
    calc AdjoinRoot.root modulus ^ 2 ^ 64 =
            polyAt (AdjoinRoot.root modulus) (square64^[64] (2#64)) := (hpow 64).symm
      _ = AdjoinRoot.root modulus := by rw [hfix, hroot]
  · have h := congrArg (polyAt (AdjoinRoot.root modulus)) hinv
    rw [polyAt_precompReduction64 root_modulus, polyAt_clmul, polyAt_xor, hpow, hroot,
      polyAt_one (by omega)] at h
    exact isCoprime_of_root_mul ((congrArg (· * _) (CharTwo.sub_eq_add _ _)).trans h)

instance fact_irreducible_modulus : Fact (Irreducible modulus) := ⟨irreducible_modulus⟩

/-! ## The lazy reduction -/

/-- `2^127 + 2 + 1` (clhash.c:30). -/
noncomputable def lazyFactor : (ZMod 2)[X] := X ^ 127 + X + 1

theorem lazyModulus_eq : lazyModulus = X * lazyFactor := by
  unfold lazyModulus lazyFactor
  ring

theorem degree_lazyFactor : lazyFactor.degree = 127 := by
  unfold lazyFactor
  compute_degree!

instance nontrivial_lazyFactor : Nontrivial (AdjoinRoot lazyFactor) :=
  AdjoinRoot.nontrivial lazyFactor (by rw [degree_lazyFactor]; decide)

theorem root_lazyFactor : AdjoinRoot.root lazyFactor ^ 127 = AdjoinRoot.root lazyFactor + 1 := by
  have hdef : lazyFactor = X ^ 127 + X + 1 := by
    unfold lazyFactor
    rfl
  have h := (congrArg (AdjoinRoot.mk lazyFactor) hdef).symm.trans AdjoinRoot.mk_self
  simp only [map_add, map_pow, map_one, AdjoinRoot.mk_X] at h
  rw [← sub_eq_zero, CharTwo.sub_eq_add, ← add_assoc, h]

/-- A square, with its bits from 127 on folded back twice. -/
def square127 (v : BitVec 127) : BitVec 127 :=
  let s := clmul v v
  s.extractLsb' 0 127 ^^^ s.extractLsb' 127 127 ^^^ s.extractLsb' 127 127 <<< 1

theorem polyAt_square127 (v : BitVec 127) :
    polyAt (AdjoinRoot.root lazyFactor) (square127 v) =
      polyAt (AdjoinRoot.root lazyFactor) v ^ 2 := by
  set s := clmul v v with hs
  have hsplit : s.extractLsb' 127 127 ++ s.extractLsb' 0 127 = s := by
    apply BitVec.eq_of_getLsbD_eq
    intro i hi
    rw [BitVec.getLsbD_append]
    split_ifs with hlow
    · rw [BitVec.getLsbD_extractLsb', Nat.zero_add, decide_eq_true hlow, Bool.true_and]
    · rw [BitVec.getLsbD_extractLsb', decide_eq_true (by omega), Bool.true_and]
      rw [show 127 + (i - 127) = i by omega]
  have htop : ∀ i, 127 ≤ i + 1 → (s.extractLsb' 127 127).getLsbD i = false := by
    intro i hi
    rw [BitVec.getLsbD_extractLsb',
      getLsbD_of_polyAt_mul (polyAt_clmul v v) v.isLt v.isLt (by omega), Bool.and_false]
  have hfold : polyAt (AdjoinRoot.root lazyFactor) s =
      polyAt (AdjoinRoot.root lazyFactor) (s.extractLsb' 0 127) +
      AdjoinRoot.root lazyFactor ^ 127 *
        polyAt (AdjoinRoot.root lazyFactor) (s.extractLsb' 127 127) := by
    rw [← polyAt_append, hsplit]
  have hsq : polyAt (AdjoinRoot.root lazyFactor) s = polyAt (AdjoinRoot.root lazyFactor) v ^ 2 := by
    rw [hs, polyAt_clmul, sq]
  rw [square127, ← hsq, hfold, root_lazyFactor, polyAt_xor, polyAt_xor, polyAt_shiftLeft htop]
  ring

theorem irreducible_lazyFactor : Irreducible lazyFactor := by
  have hpow := polyAt_iterate polyAt_square127 (by omega)
  have hroot : polyAt (AdjoinRoot.root lazyFactor) (2#127) = AdjoinRoot.root lazyFactor :=
    polyAt_two (by omega)
  have hfix : square127^[127] (2#127) = 2#127 := by decide +kernel
  -- no element of the prime field is a root
  have heval : ∀ a : ZMod 2, IsCoprime lazyFactor (X - C a) := by
    intro a
    rw [isCoprime_comm, (irreducible_X_sub_C a).coprime_iff_not_dvd, dvd_iff_isRoot, IsRoot.def]
    unfold lazyFactor
    simp only [eval_add, eval_pow, eval_X, eval_one]
    have ha : a = 0 ∨ a = 1 := by
      revert a
      decide
    rcases ha with rfl | rfl
    · rw [zero_pow (by omega)]
      decide
    · rw [one_pow]
      decide
  refine @irreducible_of_frobenius lazyFactor 127 0 (by norm_num) ?_ ?_ ?_
  · exact natDegree_eq_of_degree_eq_some degree_lazyFactor
  · apply dvd_of_root_pow
    have h := hpow 127
    rw [hfix, hroot] at h
    rw [zero_add, pow_one, ← h]
  · have hprod : (X ^ 2 ^ 127 ^ 0 - X : (ZMod 2)[X]) = (X - C 0) * (X - C 1) := by
      simp only [pow_zero, pow_one, C_0, C_1]
      ring
    rw [hprod]
    exact (heval 0).mul_right (heval 1)

instance fact_irreducible_lazyFactor : Fact (Irreducible lazyFactor) := ⟨irreducible_lazyFactor⟩

end ClHash

end FPTreeDB
