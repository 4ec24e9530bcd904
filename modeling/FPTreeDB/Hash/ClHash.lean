import FPTreeDB.Hash.Reduction

/-!
# What `clhash` computes

The value of `clhash` (clhash.c:260-341) as a polynomial over `GF(2)`, for every key and
every string.

* `Scanned`: what the loops of the half scalar products have added up.
* `tail_spec`, `tailWithExtraWord_spec`: the words of a block, two at a time with two
  words of the key, with zeros for the words that a short block lacks.
* `clhash_eq_hashPoly`: `clhash` returns, and returns `hashPoly`.
* `keyHash_eq`: the fingerprint of a key.
-/

namespace FPTreeDB

namespace ClHash

open CarryLess Polynomial

section Blocks

variable {R : Type*} [CommRing R]

/-- The first `n` pairs of the words from `i0` on, each word added to its word of the
    key. -/
def pairSum (x : R) (a64 : ℕ → Word) (s : List Byte) (i0 n : ℕ) : R :=
  ∑ t ∈ Finset.range n, (polyAt x (a64 (2 * t)) + polyAt x (wordAt s (i0 + 2 * t))) *
    (polyAt x (a64 (2 * t + 1)) + polyAt x (wordAt s (i0 + 2 * t + 1)))

/-- The number of words, a partial one included: `lengthinc`. -/
def lengthinc (s : List Byte) : ℕ := (s.length + 7) / 8

/-- The pairs of block `j`. -/
def blockPairs (s : List Byte) (j : ℕ) : ℕ := min 64 ((lengthinc s - m * j + 1) / 2)

/-- The half scalar product of block `j` with the key. -/
def blockSum (x : R) (a64 : ℕ → Word) (s : List Byte) (j : ℕ) : R :=
  pairSum x a64 s (m * j) (blockPairs s j)

/-- The blocks before `n` as the coefficients of a polynomial in `p`, the first on top. -/
def hornerSum (x p : R) (a64 : ℕ → Word) (s : List Byte) (n : ℕ) : R :=
  ∑ j ∈ Finset.range n, p ^ (n - 1 - j) * blockSum x a64 s j

theorem hornerSum_one (x p : R) (a64 : ℕ → Word) (s : List Byte) :
    hornerSum x p a64 s 1 = blockSum x a64 s 0 := by
  simp [hornerSum]

theorem hornerSum_succ (x p : R) (a64 : ℕ → Word) (s : List Byte) (n : ℕ) :
    hornerSum x p a64 s (n + 1) = p * hornerSum x p a64 s n + blockSum x a64 s n := by
  rw [hornerSum, hornerSum, Finset.sum_range_succ, Finset.mul_sum]
  congr 1
  · refine Finset.sum_congr rfl fun j hj => ?_
    have hexp : n + 1 - 1 - j = n - 1 - j + 1 := by
      have := Finset.mem_range.mp hj
      omega
    rw [hexp, pow_succ]
    ring
  · simp

end Blocks

/-! ## Loads -/

section Loads

variable {a64 : ℕ → Word} {s : List Byte}

theorem loadKey_eq {i : ℕ} (h : i < 66) :
    loadKey a64 i = some (mmSetEpi64x (a64 (2 * i + 1)) (a64 (2 * i))) := by
  rw [loadKey, if_pos]
  show 2 * i + 1 < 133
  omega

theorem loadWord_eq {i : ℕ} (h : 8 * (i + 1) ≤ s.length) : loadWord s i = some (wordAt s i) :=
  if_pos h

theorem loadPair_eq {i : ℕ} (h : 8 * (i + 2) ≤ s.length) :
    loadPair s i = some (mmSetEpi64x (wordAt s (i + 1)) (wordAt s i)) := by
  rw [loadPair, loadWord_eq (by omega), loadWord_eq h]
  rfl

/-- The words beyond the string are zero. -/
theorem wordAt_of_le {i : ℕ} (h : s.length ≤ 8 * i) : wordAt s i = 0 := by
  rw [wordAt, List.drop_eq_nil_of_le h]
  rfl

/-- `createLastWord` is the partial word with zeros behind it. -/
theorem createLastWord_eq : createLastWord s (s.length / 8) = wordAt s (s.length / 8) := by
  have hrest : (s.drop (8 * (s.length / 8))).length = s.length % 8 := by
    rw [List.length_drop]
    omega
  rw [createLastWord, wordAt, List.take_of_length_le (by omega), List.take_of_length_le (by omega)]

end Loads

/-! ## The half scalar products -/

section Products

variable {R : Type*} [CommRing R] {x : R} {a64 : ℕ → Word} {s : List Byte} {i0 : ℕ}

/-- The loops have added the pairs of the words from `i0` to `string`. -/
structure Scanned (x : R) (a64 : ℕ → Word) (s : List Byte) (i0 : ℕ) (st : Scan) : Prop where
  string_eq : st.string = i0 + 2 * st.randomsource
  acc_eq : polyAt x st.acc = pairSum x a64 s i0 st.randomsource

theorem Scanned.start : Scanned x a64 s i0 ⟨0, i0, 0⟩ where
  string_eq := by simp
  acc_eq := by simp [pairSum]

variable [CharP R 2]

/-- One product, from either order of the halves. -/
theorem polyAt_addProduct {imm : ℕ} (himm : imm = 0x10 ∨ imm = 0x01) (k1 k0 w1 w0 : Word)
    (acc : M128) :
    polyAt x (addProduct imm (mmSetEpi64x k1 k0) (mmSetEpi64x w1 w0) acc) =
      polyAt x acc + (polyAt x k0 + polyAt x w0) * (polyAt x k1 + polyAt x w1) := by
  obtain rfl | rfl := himm
  · show polyAt x (clmul (lo (_ ^^^ _)) (hi (_ ^^^ _)) ^^^ acc) = _
    rw [polyAt_xor, polyAt_clmul, lo_xor, hi_xor, polyAt_xor, polyAt_xor]
    simp only [mmSetEpi64x, lo_append, hi_append]
    ring
  · show polyAt x (clmul (hi (_ ^^^ _)) (lo (_ ^^^ _)) ^^^ acc) = _
    rw [polyAt_xor, polyAt_clmul, lo_xor, hi_xor, polyAt_xor, polyAt_xor]
    simp only [mmSetEpi64x, lo_append, hi_append]
    ring

/-- One more pair, whatever the pair of words the loads gave. -/
theorem Scanned.pair {st : Scan} (hs : Scanned x a64 s i0 st) {imm : ℕ}
    (himm : imm = 0x10 ∨ imm = 0x01) :
    polyAt x (addProduct imm (mmSetEpi64x (a64 (2 * st.randomsource + 1))
      (a64 (2 * st.randomsource)))
      (mmSetEpi64x (wordAt s (st.string + 1)) (wordAt s st.string)) st.acc) =
      pairSum x a64 s i0 (st.randomsource + 1) := by
  rw [polyAt_addProduct himm, hs.acc_eq, hs.string_eq, pairSum, pairSum, Finset.sum_range_succ]

theorem Scanned.next {st : Scan} (hs : Scanned x a64 s i0 st) :
    Scanned x a64 s i0 ⟨st.randomsource + 1, st.string + 2,
      addProduct 0x10 (mmSetEpi64x (a64 (2 * st.randomsource + 1)) (a64 (2 * st.randomsource)))
        (mmSetEpi64x (wordAt s (st.string + 1)) (wordAt s st.string)) st.acc⟩ where
  string_eq := by
    show st.string + 2 = i0 + 2 * (st.randomsource + 1)
    rw [hs.string_eq]
    ring
  acc_eq := hs.pair (Or.inl rfl)

/-- The loop of four words a turn stops with fewer than four words left. -/
theorem scanFours_spec {endstring : ℕ} (hend : endstring ≤ i0 + m) (hlen : 8 * endstring ≤ s.length)
    (fuel : ℕ) (st : Scan) (hs : Scanned x a64 s i0 st) (heven : 2 ∣ st.randomsource)
    (hst : st.string ≤ endstring) (hfuel : endstring < st.string + fuel) :
    ∃ st', scanFours a64 s endstring fuel st = some st' ∧ Scanned x a64 s i0 st' ∧
      2 ∣ st'.randomsource ∧
      st'.string ≤ endstring ∧ endstring < st'.string + 4 := by
  induction fuel generalizing st with
  | zero => omega
  | succ fuel ih =>
    rw [scanFours]
    split_ifs with hmore
    · have hsrc := hs.string_eq
      have hm : m = 128 := rfl
      rw [loadKey_eq (by omega), loadKey_eq (by omega), loadPair_eq (by omega),
        loadPair_eq (by omega)]
      exact ih _ hs.next.next (by show 2 ∣ st.randomsource + 2; omega)
        (by show st.string + 4 ≤ endstring; omega) (by show endstring < st.string + 4 + fuel; omega)
    · exact ⟨st, rfl, hs, heven, hst, by omega⟩

/-- One pair more leaves at most one word. -/
theorem scanTwo_spec {endstring : ℕ} (hend : endstring ≤ i0 + m) (hlen : 8 * endstring ≤ s.length)
    {st : Scan} (hs : Scanned x a64 s i0 st) (hst : st.string ≤ endstring)
    (hleft : endstring < st.string + 4) :
    ∃ st', scanTwo a64 s endstring st = some st' ∧ Scanned x a64 s i0 st' ∧
      st'.string ≤ endstring ∧ endstring < st'.string + 2 := by
  rw [scanTwo]
  split_ifs with hmore
  · have hsrc := hs.string_eq
    have hm : m = 128 := rfl
    rw [loadKey_eq (by omega), loadPair_eq (by omega)]
    exact ⟨_, rfl, hs.next, by show st.string + 2 ≤ endstring; omega,
      by show endstring < st.string + 2 + 2; omega⟩
  · exact ⟨st, rfl, hs, hst, by omega⟩

variable (x a64)

/-- The two loops together. -/
theorem scan_spec {length : ℕ} (hm : length ≤ m) (hlen : 8 * (i0 + length) ≤ s.length) :
    ∃ st₁ st₂, scanFours a64 s (i0 + length) (length + 1) ⟨0, i0, 0⟩ = some st₁ ∧
      scanTwo a64 s (i0 + length) st₁ = some st₂ ∧ Scanned x a64 s i0 st₂ ∧
      st₂.randomsource = length / 2 ∧ st₂.string = i0 + 2 * (length / 2) := by
  obtain ⟨st₁, h₁, hs₁, -, hle₁, hleft₁⟩ :=
    scanFours_spec (Nat.add_le_add_left hm i0) hlen (length + 1)
      ⟨0, i0, 0⟩ (Scanned.start : Scanned x a64 s i0 _) (by simp) (by simp) (by simp)
  obtain ⟨st₂, h₂, hs₂, hle₂, hleft₂⟩ :=
    scanTwo_spec (Nat.add_le_add_left hm i0) hlen hs₁ hle₁ hleft₁
  have hsrc := hs₂.string_eq
  exact ⟨st₁, st₂, h₁, h₂, hs₂, by omega, by omega⟩

/-- A full block. -/
theorem block_spec (hlen : 8 * (i0 + m) ≤ s.length) :
    ∃ acc, clmulhalfscalarproductwithoutreduction a64 s i0 m = some acc ∧
      polyAt x acc = pairSum x a64 s i0 64 := by
  obtain ⟨st, hst, hs, heven, hle, hleft⟩ := scanFours_spec le_rfl hlen (m + 1)
    ⟨0, i0, 0⟩ (Scanned.start : Scanned x a64 s i0 _) (by simp) (by simp) (by simp)
  have hsrc := hs.string_eq
  have hm : m = 128 := rfl
  have h64 : st.randomsource = 64 := by omega
  refine ⟨st.acc, ?_, by rw [hs.acc_eq, h64]⟩
  rw [clmulhalfscalarproductwithoutreduction, hst]
  rfl

/-- A block at the end of a string of full words. -/
theorem tail_spec {length : ℕ} (hm : length ≤ m) (hlen : s.length = 8 * (i0 + length)) :
    ∃ acc, clmulhalfscalarproductwithtailwithoutreduction a64 s i0 length = some acc ∧
      polyAt x acc = pairSum x a64 s i0 ((length + 1) / 2) := by
  obtain ⟨st₁, st₂, h₁, h₂, hs, hsrc, hstr⟩ := scan_spec x a64 hm hlen.ge
  have hm' : m = 128 := rfl
  rw [clmulhalfscalarproductwithtailwithoutreduction]
  simp only [h₁, Option.bind_eq_bind, Option.bind_some, h₂]
  split_ifs with hmore
  · have hpad : wordAt s (st₂.string + 1) = 0 := wordAt_of_le (by omega)
    have hpair := hs.pair (Or.inl rfl)
    rw [hpad] at hpair
    rw [loadKey_eq (by omega), loadWord_eq (by omega)]
    refine ⟨_, rfl, ?_⟩
    rw [show (length + 1) / 2 = st₂.randomsource + 1 by omega]
    exact hpair
  · refine ⟨_, rfl, ?_⟩
    rw [hs.acc_eq, show (length + 1) / 2 = st₂.randomsource by omega]

/-- A block at the end of a string with a partial word: it stands in the low half where
    the full words come in pairs, in the high half otherwise. -/
theorem tailWithExtraWord_spec {length : ℕ} (hm : length < m) (hlen : s.length / 8 = i0 + length) :
    ∃ acc, clmulhalfscalarproductwithtailwithoutreductionWithExtraWord a64 s i0 length
        (createLastWord s (s.length / 8)) = some acc ∧
      polyAt x acc = pairSum x a64 s i0 ((length + 2) / 2) := by
  have hfull : 8 * (i0 + length) ≤ s.length := by omega
  obtain ⟨st₁, st₂, h₁, h₂, hs, hsrc, hstr⟩ := scan_spec x a64 hm.le hfull
  have hm' : m = 128 := rfl
  rw [clmulhalfscalarproductwithtailwithoutreductionWithExtraWord, createLastWord_eq, hlen]
  simp only [h₁, Option.bind_eq_bind, Option.bind_some, h₂]
  rw [loadKey_eq (by omega)]
  simp only [Option.bind_some]
  rw [show (length + 2) / 2 = st₂.randomsource + 1 by omega]
  split_ifs with hmore
  · have hlast : i0 + length = st₂.string + 1 := by omega
    rw [loadWord_eq (by omega), hlast]
    exact ⟨_, rfl, hs.pair (Or.inl rfl)⟩
  · have hlast : i0 + length = st₂.string := by omega
    have hpad : wordAt s (st₂.string + 1) = 0 := wordAt_of_le (by omega)
    have hpair := hs.pair (Or.inr rfl)
    rw [hpad] at hpair
    rw [hlast]
    exact ⟨_, rfl, hpair⟩

/-- A block of nothing but the partial word. -/
theorem onlyExtraWord_spec (hlen : s.length / 8 = i0) :
    ∃ acc, clmulhalfscalarproductOnlyExtraWord a64 (createLastWord s (s.length / 8)) = some acc ∧
      polyAt x acc = pairSum x a64 s i0 1 := by
  have hpad : wordAt s (i0 + 1) = 0 := wordAt_of_le (by omega)
  have hpair := (Scanned.start : Scanned x a64 s i0 _).pair (Or.inr rfl)
  rw [hpad, addProduct, BitVec.ofNat_eq_ofNat, BitVec.xor_zero] at hpair
  rw [clmulhalfscalarproductOnlyExtraWord, createLastWord_eq, hlen, loadKey_eq (by omega)]
  exact ⟨_, rfl, hpair⟩

end Products

/-! ## The blocks of a long string -/

section Long

variable {R : Type*} [CommRing R] [CharP R 2] {x : R} {a64 : ℕ → Word} {s : List Byte}
  {polyvalue : M128}

/-- The number of blocks. -/
def blocks (s : List Byte) : ℕ := (lengthinc s + 127) / m

/-- `acc = polyvalue * acc + h1`. -/
theorem horner_step (hx : x ^ 128 = x ^ 2 + x) (hpoly : polyvalue.toNat < 2 ^ 126) {j : ℕ}
    {acc h1 : M128} (hacc : polyAt x acc = hornerSum x (polyAt x polyvalue) a64 s j)
    (hh1 : polyAt x h1 = blockSum x a64 s j) :
    polyAt x (mul128by128to128Lazymod127 polyvalue acc ^^^ h1) =
      hornerSum x (polyAt x polyvalue) a64 s (j + 1) := by
  rw [polyAt_xor, polyAt_mul128 hx hpoly, hacc, hh1, hornerSum_succ]

theorem blockPairs_full {j : ℕ} (h : m * j + m ≤ s.length / 8) : blockPairs s j = 64 := by
  have hm : m = 128 := rfl
  rw [blockPairs, lengthinc]
  omega

/-- The loop over the full blocks. -/
theorem blockLoop_spec (hx : x ^ 128 = x ^ 2 + x) (hpoly : polyvalue.toNat < 2 ^ 126) (fuel j : ℕ)
    (acc : M128) (hacc : polyAt x acc = hornerSum x (polyAt x polyvalue) a64 s j)
    (hle : m * j ≤ s.length / 8) (hfuel : s.length / 8 < m * j + fuel) :
    ∃ j' acc', blockLoop a64 s polyvalue (s.length / 8) fuel (m * j) acc = some (m * j', acc') ∧
      polyAt x acc' = hornerSum x (polyAt x polyvalue) a64 s j' ∧ m * j' ≤ s.length / 8 ∧
      s.length / 8 < m * j' + m := by
  induction fuel generalizing j acc with
  | zero => omega
  | succ fuel ih =>
    rw [blockLoop]
    split_ifs with hmore
    · have hm : m = 128 := rfl
      obtain ⟨h1, hh1, hpair⟩ := block_spec x a64 (show 8 * (m * j + m) ≤ s.length by omega)
      have hblock : polyAt x h1 = blockSum x a64 s j := by
        rw [hpair, blockSum, blockPairs_full hmore]
      rw [hh1]
      exact ih (j + 1) _ (horner_step hx hpoly hacc hblock) (by rw [mul_add, mul_one]; exact hmore)
        (by rw [mul_add]; omega)
    · exact ⟨j, acc, rfl, hacc, hle, by omega⟩

/-- The words after the last full block: none, or one more block. -/
theorem lastBlock_spec (hx : x ^ 128 = x ^ 2 + x) (hpoly : polyvalue.toNat < 2 ^ 126) {j : ℕ}
    {acc : M128} (hacc : polyAt x acc = hornerSum x (polyAt x polyvalue) a64 s j)
    (hle : m * j ≤ s.length / 8) (hlt : s.length / 8 < m * j + m) :
    ∃ acc', lastBlock a64 s polyvalue (s.length / 8) (m * j) acc = some acc' ∧
      polyAt x acc' = hornerSum x (polyAt x polyvalue) a64 s (blocks s) := by
  have hm : m = 128 := rfl
  have hone : s.length / 8 - m * j ≠ 0 ∨ s.length % 8 ≠ 0 → blocks s = j + 1 := by
    intro h
    rw [hm] at h hle hlt
    rw [blocks, lengthinc, hm]
    omega
  rw [lastBlock]
  dsimp only
  split_ifs with hremain hwhole hpart
  · have hlen : s.length = 8 * (m * j + (s.length / 8 - m * j)) := by omega
    obtain ⟨h1, hh1, hpair⟩ := tail_spec x a64 (by omega) hlen
    have hblock : polyAt x h1 = blockSum x a64 s j := by
      rw [hpair, blockSum, blockPairs, lengthinc]
      congr 1
      omega
    rw [hh1, hone (Or.inl hremain)]
    exact ⟨_, rfl, horner_step hx hpoly hacc hblock⟩
  · have hlen : s.length / 8 = m * j + (s.length / 8 - m * j) := by omega
    obtain ⟨h1, hh1, hpair⟩ := tailWithExtraWord_spec x a64 (by omega) hlen
    have hblock : polyAt x h1 = blockSum x a64 s j := by
      rw [hpair, blockSum, blockPairs, lengthinc]
      congr 1
      omega
    rw [hh1, hone (Or.inl hremain)]
    exact ⟨_, rfl, horner_step hx hpoly hacc hblock⟩
  · obtain ⟨h1, hh1, hpair⟩ := onlyExtraWord_spec x a64 (show s.length / 8 = m * j by omega)
    have hblock : polyAt x h1 = blockSum x a64 s j := by
      rw [hpair, blockSum, blockPairs, lengthinc]
      congr 1
      omega
    rw [hh1, hone (Or.inr hpart)]
    exact ⟨_, rfl, horner_step hx hpoly hacc hblock⟩
  · have hall : blocks s = j := by
      rw [hm] at hremain hle hlt
      rw [blocks, lengthinc, hm]
      omega
    rw [hall]
    exact ⟨acc, rfl, hacc⟩

end Long

/-! ## `clhash` -/

/-- The 126 bits of the key that multiply the blocks. -/
def polyvalue (a64 : ℕ → Word) : M128 :=
  mmSetEpi64x (a64 129) (a64 128) &&& mmSetrEpi32 0xFFFFFFFF 0xFFFFFFFF 0xFFFFFFFF 0x3fffffff

theorem polyvalue_lt (a64 : ℕ → Word) : (polyvalue a64).toNat < 2 ^ 126 := by
  rw [polyvalue, BitVec.toNat_and]
  exact lt_of_le_of_lt Nat.and_le_right (by decide +kernel)

/-- `a xor k1` times `b xor k2` and the length times its word of the key, for the halves
    `a` and `b` of the blocks of a long string; for a short one its only block takes the
    place of the product. -/
noncomputable def hashPoly (a64 : ℕ → Word) (s : List Byte) : (ZMod 2)[X] :=
  let key (i : ℕ) : (ZMod 2)[X] := polyAt X (a64 i)
  let acc := hornerSum X (polyAt X (polyvalue a64)) a64 s (blocks s) %ₘ lazyModulus
  let total := if m < lengthinc s then (acc %ₘ X ^ 64 + key 130) * (acc /ₘ X ^ 64 + key 131)
    else blockSum X a64 s 0
  (total + key 132 * polyAt X (BitVec.ofNat 64 s.length)) %ₘ modulus

/-- The halves of a vector are the quotient and the remainder by `X⁶⁴`. -/
theorem halves_eq_divMod (a : M128) :
    polyAt X a %ₘ (X ^ 64 : (ZMod 2)[X]) = polyAt X (lo a) ∧
      polyAt X a /ₘ (X ^ 64 : (ZMod 2)[X]) = polyAt X (hi a) := by
  have h := div_modByMonic_unique (g := (X ^ 64 : (ZMod 2)[X])) (polyAt X (hi a)) (polyAt X (lo a))
    (monic_X_pow 64) ⟨(polyAt_halves a).symm, by rw [degree_X_pow]; exact degree_polyAt_lt (lo a)⟩
  exact ⟨h.2, h.1⟩

/-- The length term of every branch. -/
theorem polyAt_lazyLengthHash {R : Type*} [CommRing R] [CharP R 2] (x : R)
    (keylength length : Word) :
    polyAt x (lazyLengthHash keylength length) = polyAt x keylength * polyAt x length := by
  show polyAt x (clmul (lo _) (hi _)) = _
  rw [polyAt_clmul, mmSetEpi64x, lo_append, hi_append, mul_comm]

section Map

variable {R S : Type*} [CommRing R] [CommRing S]

theorem map_blockSum (f : R →+* S) (x : R) (a64 : ℕ → Word) (s : List Byte) (j : ℕ) :
    f (blockSum x a64 s j) = blockSum (f x) a64 s j := by
  simp only [blockSum, pairSum, map_sum, map_mul, map_add, map_polyAt]

theorem map_hornerSum (f : R →+* S) (x p : R) (a64 : ℕ → Word) (s : List Byte) (n : ℕ) :
    f (hornerSum x p a64 s n) = hornerSum (f x) (f p) a64 s n := by
  simp only [hornerSum, map_sum, map_mul, map_pow, map_blockSum]

end Map

/-- The accumulator of a vector with the residue of the blocks. -/
theorem polyAt_acc {a64 : ℕ → Word} {s : List Byte} {acc : M128}
    (h : polyAt (AdjoinRoot.root lazyModulus) acc = hornerSum (AdjoinRoot.root lazyModulus)
      (polyAt (AdjoinRoot.root lazyModulus) (polyvalue a64)) a64 s (blocks s)) :
    polyAt X acc = hornerSum X (polyAt X (polyvalue a64)) a64 s (blocks s) %ₘ lazyModulus := by
  apply polyAt_X_eq_modByMonic monic_lazyModulus degree_lazyModulus
  rw [h, map_hornerSum, map_polyAt, AdjoinRoot.mk_X]

/-- The three branches, with the loads of the words of the key behind those of a block. -/
theorem clhash_eq (a64 : ℕ → Word) (s : List Byte) : clhash a64 s =
    if m < lengthinc s then do
      let acc ← clmulhalfscalarproductwithoutreduction a64 s 0 m
      let (t, acc) ← blockLoop a64 s (polyvalue a64) (s.length / 8) (s.length / 8 + 1) m acc
      let acc ← lastBlock a64 s (polyvalue a64) (s.length / 8) t acc
      some (simple128to64hashwithlength acc (mmSetEpi64x (a64 131) (a64 130)) (a64 132)
        (BitVec.ofNat 64 s.length))
    else (do
      let acc ← (if s.length % 8 = 0 then clmulhalfscalarproductwithtailwithoutreduction a64 s 0
        (s.length / 8)
        else clmulhalfscalarproductwithtailwithoutreductionWithExtraWord a64 s 0 (s.length / 8)
          (createLastWord s (s.length / 8)))
      some (precompReduction64 (acc ^^^ lazyLengthHash (a64 132) (BitVec.ofNat 64 s.length)))) := by
  have hpoly : loadKey a64 (m / 2) = some (mmSetEpi64x (a64 129) (a64 128)) :=
    loadKey_eq (by decide)
  have hfinal : loadKey a64 (m / 2 + 1) = some (mmSetEpi64x (a64 131) (a64 130)) :=
    loadKey_eq (by decide)
  have hlength : loadKeyWord a64 (m / 2 + 2) = some (a64 132) := rfl
  have hinc : (s.length + 8 - 1) / 8 = lengthinc s := rfl
  rw [clhash]
  simp only [hpoly, hfinal, hlength, hinc, Option.bind_eq_bind, Option.bind_some]
  rw [← polyvalue]
  split_ifs <;> rfl

/-- The branch of the long strings. -/
theorem clhash_long {a64 : ℕ → Word} {s : List Byte} (hlong : m < lengthinc s) :
    ∃ h, clhash a64 s = some h ∧ polyAt X h = hashPoly a64 s := by
  have hm : m = 128 := rfl
  have hinc : lengthinc s = (s.length + 7) / 8 := rfl
  obtain ⟨acc₀, h₀, hpair₀⟩ := block_spec (AdjoinRoot.root lazyModulus) a64
    (show 8 * (0 + m) ≤ s.length by omega)
  have hacc₀ : polyAt (AdjoinRoot.root lazyModulus) acc₀ = hornerSum (AdjoinRoot.root lazyModulus)
      (polyAt (AdjoinRoot.root lazyModulus) (polyvalue a64)) a64 s 1 := by
    rw [hornerSum_one, hpair₀, blockSum, blockPairs_full (by omega)]
    rfl
  obtain ⟨j, acc₁, h₁, hacc₁, hle, hlt⟩ := blockLoop_spec root_lazyModulus (polyvalue_lt a64)
    (s.length / 8 + 1) 1 acc₀ hacc₀ (by omega) (by omega)
  obtain ⟨acc, h₂, hacc⟩ := lastBlock_spec root_lazyModulus (polyvalue_lt a64) hacc₁ hle hlt
  refine ⟨simple128to64hashwithlength acc (mmSetEpi64x (a64 131) (a64 130)) (a64 132)
    (BitVec.ofNat 64 s.length), ?_, ?_⟩
  · rw [mul_one] at h₁
    rw [clhash_eq, if_pos hlong, h₀]
    simp only [Option.bind_eq_bind, Option.bind_some, h₁, h₂]
  · have hprod : ∀ a b : M128,
        polyAt (X : (ZMod 2)[X]) (mmClmulepi64Si128 (a ^^^ b) (a ^^^ b) 0x10) =
        (polyAt X (lo a) + polyAt X (lo b)) * (polyAt X (hi a) + polyAt X (hi b)) := by
      intro a b
      show polyAt X (clmul (lo _) (hi _)) = _
      rw [polyAt_clmul, lo_xor, hi_xor, polyAt_xor, polyAt_xor]
    rw [hashPoly]
    dsimp only
    rw [if_pos hlong, ← polyAt_acc hacc, (halves_eq_divMod acc).1, (halves_eq_divMod acc).2,
      simple128to64hashwithlength, precompReduction64_eq_modByMonic, polyAt_xor, hprod,
      polyAt_lazyLengthHash,
      mmSetEpi64x, lo_append, hi_append]

/-- The branches of the short strings. -/
theorem clhash_short {a64 : ℕ → Word} {s : List Byte} (hshort : ¬ m < lengthinc s) :
    ∃ h, clhash a64 s = some h ∧ polyAt X h = hashPoly a64 s := by
  have hm : m = 128 := rfl
  have hinc : lengthinc s = (s.length + 7) / 8 := rfl
  have hblock : ∃ acc,
      (if s.length % 8 = 0 then clmulhalfscalarproductwithtailwithoutreduction a64 s 0
        (s.length / 8)
      else clmulhalfscalarproductwithtailwithoutreductionWithExtraWord a64 s 0 (s.length / 8)
        (createLastWord s (s.length / 8))) = some acc ∧
        polyAt (X : (ZMod 2)[X]) acc = blockSum X a64 s 0 := by
    rw [blockSum, blockPairs]
    split_ifs with hwhole
    · have hpairs : min 64 ((lengthinc s - m * 0 + 1) / 2) = (s.length / 8 + 1) / 2 := by omega
      rw [hpairs]
      exact tail_spec X a64 (by omega) (by omega)
    · have hpairs : min 64 ((lengthinc s - m * 0 + 1) / 2) = (s.length / 8 + 2) / 2 := by omega
      rw [hpairs]
      exact tailWithExtraWord_spec X a64 (by omega) (by omega)
  obtain ⟨acc, hacc, hpoly⟩ := hblock
  refine ⟨precompReduction64 (acc ^^^ lazyLengthHash (a64 132) (BitVec.ofNat 64 s.length)), ?_, ?_⟩
  · rw [clhash_eq, if_neg hshort, hacc]
    rfl
  · rw [hashPoly]
    dsimp only
    rw [if_neg hshort, precompReduction64_eq_modByMonic, polyAt_xor, hpoly, polyAt_lazyLengthHash]

/-- `clhash` reads nothing outside the string and the random key, and returns `hashPoly`. -/
theorem clhash_eq_hashPoly (a64 : ℕ → Word) (s : List Byte) :
    ∃ h, clhash a64 s = some h ∧ polyAt X h = hashPoly a64 s := by
  by_cases hlong : m < lengthinc s
  · exact clhash_long hlong
  · exact clhash_short hlong

/-! ## `keyHash` -/

/-- The random key of every `keyHash`. -/
def fingerprintKey (i : ℕ) : Word :=
  (draws RANDOM_64BITWORDS_NEEDED_FOR_CLHASH ⟨0x23a23cf5033c3c81, 0xb3816f6a2c68e530⟩).1.getD i 0

/-- The loop that draws the words 128 and 129 again, on the words drawn at first. -/
theorem getRandomKey_eq_redraw (fuel : ℕ) (seed1 seed2 : Word) :
    getRandomKeyForClhash fuel seed1 seed2 =
      redraw fuel (fun i => (draws RANDOM_64BITWORDS_NEEDED_FOR_CLHASH ⟨seed1, seed2⟩).1.getD i 0)
        (draws RANDOM_64BITWORDS_NEEDED_FOR_CLHASH ⟨seed1, seed2⟩).2 := by
  rw [getRandomKeyForClhash]

theorem getRandomKey_eq_fingerprintKey (fuel : ℕ) :
    getRandomKeyForClhash (fuel + 1) 0x23a23cf5033c3c81 0xb3816f6a2c68e530 =
      some fingerprintKey := by
  have hfirst : fingerprintKey 128 ≠ 0 := by decide +kernel
  have hkey : (fun i => (draws RANDOM_64BITWORDS_NEEDED_FOR_CLHASH
      ⟨0x23a23cf5033c3c81, 0xb3816f6a2c68e530⟩).1.getD i 0) = fingerprintKey := by
    funext i
    rw [fingerprintKey]
  rw [getRandomKey_eq_redraw, hkey, redraw, if_neg fun h => hfirst h.1]

theorem length_toString_le_iff {k : Key} {n : ℕ} (hn : 0 < n) :
    (toString k).length ≤ n ↔ k.val < 10 ^ n := by
  rw [toString, List.length_map]
  exact Nat.length_toDigits_le_iff (by omega) hn

/-- The pairs of words of the digits of a key. -/
theorem blockPairs_toString (k : Key) :
    blockPairs (toString k) 0 = if k.val < 10 ^ 16 then 1 else 2 := by
  have hpos : 0 < (toString k).length := by
    rw [toString, List.length_map]
    exact Nat.length_toDigits_pos
  have hmax : (toString k).length ≤ 20 :=
    (length_toString_le_iff (by omega)).mpr (k.isLt.trans (by norm_num))
  have hsplit := length_toString_le_iff (k := k) (n := 16) (by omega)
  rw [blockPairs, lengthinc]
  split_ifs with h16
  · have hle := hsplit.mpr h16
    omega
  · have hlt : ¬ (toString k).length ≤ 16 := fun hle => h16 (hsplit.mp hle)
    omega

/-- The digits of a key are a short string. -/
theorem not_long_toString (k : Key) : ¬ m < lengthinc (toString k) := by
  have hlen : (toString k).length ≤ 20 :=
    (length_toString_le_iff (by omega)).mpr (k.isLt.trans (by norm_num))
  have hm : m = 128 := rfl
  rw [lengthinc, hm]
  omega

theorem keyHash_eq_map (fuel : ℕ) (k : Key) :
    keyHash (fuel + 1) k = (clhash fingerprintKey (toString k)).map fun h => h.setWidth 8 := by
  rw [keyHash, getRandomKey_eq_fingerprintKey, Option.bind_eq_bind, Option.bind_some,
    Option.map_eq_bind]
  rfl

/-- The fingerprint of a key is the low byte of the hash of its digits: one pair of words
    below `10¹⁶`, two pairs from there on. -/
theorem keyHash_eq (fuel : ℕ) (k : Key) :
    ∃ h : Word, keyHash (fuel + 1) k = some (h.setWidth 8) ∧
      polyAt X h = (pairSum X fingerprintKey (toString k) 0 (if k.val < 10 ^ 16 then 1 else 2) +
        polyAt X (fingerprintKey 132) * polyAt X (BitVec.ofNat 64 (toString k).length))
        %ₘ modulus := by
  obtain ⟨h, hh, hpoly⟩ := @clhash_short fingerprintKey (toString k) (not_long_toString k)
  refine ⟨h, ?_, ?_⟩
  · rw [keyHash_eq_map, hh]
    rfl
  · rw [hpoly, hashPoly]
    dsimp only
    rw [if_neg (not_long_toString k), blockSum, blockPairs_toString, mul_zero]

end ClHash

end FPTreeDB
