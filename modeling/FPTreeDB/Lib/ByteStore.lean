import Mathlib

/-!
# Byte memories

A memory is a function from addresses to bytes. `store` writes a byte string,
`copy` takes over a range from another memory, `load` reads a byte string.

* `load_store_self`, `load_store_of_disjoint`: reading back what was stored, and
  what a store leaves alone.
* `load_copy_of_within`, `load_copy_of_disjoint`: the same for `copy`.
* `ofWord_word`: the eight little-endian bytes of a number determine it modulo
  `2 ^ 64`.
-/

namespace ByteStore

/-- The bytes `bs` are written from address `a` on. -/
def store (m : ℕ → BitVec 8) (a : ℕ) (bs : List (BitVec 8)) : ℕ → BitVec 8 :=
  fun x => if a ≤ x then bs.getD (x - a) (m x) else m x

/-- The `n` bytes from address `a` on. -/
def load (m : ℕ → BitVec 8) (a n : ℕ) : List (BitVec 8) := (List.range n).map fun i => m (a + i)

/-- The `n` bytes from address `a` on are taken over from `src`. -/
def copy (src m : ℕ → BitVec 8) (a n : ℕ) : ℕ → BitVec 8 := store m a (load src a n)

/-- The little-endian bytes of a 64-bit number. -/
def word (n : ℕ) : List (BitVec 8) := (List.range 8).map fun i => BitVec.ofNat 8 (n / 256 ^ i)

/-- The number with these little-endian bytes. -/
def ofWord (bs : List (BitVec 8)) : ℕ := Nat.ofDigits 256 (bs.map BitVec.toNat)

variable {m m' src : ℕ → BitVec 8} {a b n k x : ℕ} {bs : List (BitVec 8)}

@[simp] theorem length_load : (load m a n).length = n := by simp [load]

@[simp] theorem length_word : (word n).length = 8 := by simp [word]

theorem load_congr (h : ∀ i < n, m' (a + i) = m (a + i)) : load m' a n = load m a n := by
  apply List.map_congr_left
  intro i hi
  exact h i (List.mem_range.mp hi)

@[simp] theorem load_zero : load (fun _ => 0#8) a n = List.replicate n 0#8 := by simp [load]

@[simp] theorem word_zero : word 0 = List.replicate 8 0#8 := by decide

theorem load_add : load m a (n + k) = load m a n ++ load m (a + n) k := by
  unfold load
  rw [List.range_add, List.map_append, List.map_map]
  congr 1
  apply List.map_congr_left
  intro i _
  show m (a + (n + i)) = m (a + n + i)
  rw [Nat.add_assoc]

theorem store_of_not_mem (h : x < a ∨ a + bs.length ≤ x) : store m a bs x = m x := by
  unfold store
  split_ifs with hx
  · exact List.getD_eq_default _ _ (by omega)
  · rfl

theorem store_of_mem {i : ℕ} (hi : i < bs.length) : store m a bs (a + i) = bs[i] := by
  unfold store
  rw [if_pos (by omega), Nat.add_sub_cancel_left, List.getD_eq_getElem _ _ hi]

theorem load_store_self : load (store m a bs) a bs.length = bs := by
  apply List.ext_getElem
  · simp
  · intro i h1 h2
    simp only [load, List.getElem_map, List.getElem_range]
    exact store_of_mem h2

theorem load_store_of_disjoint (h : b + n ≤ a ∨ a + bs.length ≤ b) :
    load (store m a bs) b n = load m b n := by
  apply load_congr
  intro i hi
  exact store_of_not_mem (by omega)

theorem load_copy_of_within (h1 : a ≤ b) (h2 : b + k ≤ a + n) :
    load (copy src m a n) b k = load src b k := by
  apply load_congr
  intro i hi
  have hlen : b - a + i < (load src a n).length := by
    rw [length_load]
    omega
  have hmem := @store_of_mem m a (load src a n) (b - a + i) hlen
  have hx : a + (b - a + i) = b + i := by omega
  rw [hx] at hmem
  rw [copy, hmem]
  simp only [load, List.getElem_map, List.getElem_range, hx]

theorem load_copy_of_disjoint (h : b + k ≤ a ∨ a + n ≤ b) :
    load (copy src m a n) b k = load m b k := by
  apply load_store_of_disjoint
  rwa [length_load]

/-- The low `k` bytes of a number. -/
theorem ofDigits_bytes (n k : ℕ) :
    Nat.ofDigits 256 ((List.range k).map fun i => n / 256 ^ i % 256) = n % 256 ^ k := by
  induction k with
  | zero => simp [Nat.mod_one]
  | succ k ih =>
    rw [List.range_succ, List.map_append, List.map_singleton, Nat.ofDigits_append, ih,
      Nat.ofDigits_singleton, List.length_map, List.length_range, Nat.mod_pow_succ]

theorem ofWord_word (n : ℕ) : ofWord (word n) = n % 2 ^ 64 := by
  have hbytes : (word n).map BitVec.toNat = (List.range 8).map fun i => n / 256 ^ i % 256 := by
    unfold word
    rw [List.map_map]
    apply List.map_congr_left
    intro i _
    show (BitVec.ofNat 8 (n / 256 ^ i)).toNat = _
    rw [BitVec.toNat_ofNat]
  rw [ofWord, hbytes, ofDigits_bytes]
  norm_num

end ByteStore
