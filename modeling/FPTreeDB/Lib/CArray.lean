import Mathlib

/-!
# Heap-allocated C arrays with checked accesses

An array `new T[cap]` is a function `ℕ → α` together with its number of slots
`cap`. An access at an `int` index outside `[0, cap)` is undefined behaviour in
the source language; here it gives `none`.

The copy loops of C code are the four functions below. They differ in the
direction of the loop and in whether source and destination are the same array;
each is proved equal to `blit` under the bounds that make it safe.

* `copyUp_eq`: between two arrays, ascending.
* `moveUp_eq`, `moveDown_eq`: inside one array, towards smaller or larger
  indices.
* `moveDown_neg`: a descending loop whose destination starts below slot 0 goes
  out of bounds.
* `live_*`: the first `n` slots as a list.
-/

namespace CArray

variable {α : Type*}

/-- `a[i]`. -/
def read (cap : ℕ) (a : ℕ → α) (i : ℤ) : Option α :=
  if 0 ≤ i ∧ i < cap then some (a i.toNat) else none

/-- `a[i] = x`. -/
def write (cap : ℕ) (a : ℕ → α) (i : ℤ) (x : α) : Option (ℕ → α) :=
  if 0 ≤ i ∧ i < cap then some (Function.update a i.toNat x) else none

/-- `for (t = 0; t < len; t++) dst[i + t] = src[j + t];` on two different arrays. -/
def copyUp (dcap scap : ℕ) (src : ℕ → α) : ℤ → ℤ → ℕ → (ℕ → α) → Option (ℕ → α)
  | _, _, 0, dst => some dst
  | i, j, len + 1, dst => do
    let x ← read scap src j
    let dst ← write dcap dst i x
    copyUp dcap scap src (i + 1) (j + 1) len dst

/-- `for (t = len - 1; t >= 0; t--) dst[i + t] = src[j + t];` on two different arrays. -/
def copyDown (dcap scap : ℕ) (src : ℕ → α) (i j : ℤ) : ℕ → (ℕ → α) → Option (ℕ → α)
  | 0, dst => some dst
  | len + 1, dst => do
    let x ← read scap src (j + len)
    let dst ← write dcap dst (i + len) x
    copyDown dcap scap src i j len dst

/-- `for (t = 0; t < len; t++) a[i + t] = a[j + t];`. -/
def moveUp (cap : ℕ) : ℤ → ℤ → ℕ → (ℕ → α) → Option (ℕ → α)
  | _, _, 0, a => some a
  | i, j, len + 1, a => do
    let x ← read cap a j
    let a ← write cap a i x
    moveUp cap (i + 1) (j + 1) len a

/-- `for (t = len - 1; t >= 0; t--) a[i + t] = a[j + t];`. -/
def moveDown (cap : ℕ) (i j : ℤ) : ℕ → (ℕ → α) → Option (ℕ → α)
  | 0, a => some a
  | len + 1, a => do
    let x ← read cap a (j + len)
    let a ← write cap a (i + len) x
    moveDown cap i j len a

/-- `a` with `len` slots from `i` on replaced by those of `b` from `j` on. -/
def blit (a : ℕ → α) (i : ℕ) (b : ℕ → α) (j len : ℕ) : ℕ → α :=
  fun t => if i ≤ t ∧ t < i + len then b (j + (t - i)) else a t

/-- The first `n` slots. -/
def live (n : ℕ) (a : ℕ → α) : List α := (List.range n).map a

/-! ## Single accesses -/

theorem read_of_lt {cap : ℕ} {a : ℕ → α} {i : ℕ} (h : i < cap) : read cap a i = some (a i) := by
  simp [read, h]

theorem write_of_lt {cap : ℕ} {a : ℕ → α} {i : ℕ} {x : α} (h : i < cap) :
    write cap a i x = some (Function.update a i x) := by
  simp [write, h]

theorem write_neg {cap : ℕ} {a : ℕ → α} {i : ℤ} {x : α} (h : i < 0) : write cap a i x = none := by
  rw [write, ite_eq_right_iff.mpr]
  intro h'
  omega

/-! ## The copy loops -/

theorem blit_zero (a : ℕ → α) (i : ℕ) (b : ℕ → α) (j : ℕ) : blit a i b j 0 = a := by
  funext t
  simp only [blit, ite_eq_right_iff]
  intro h
  omega

theorem blit_of_mem {a b : ℕ → α} {i j len t : ℕ} (h1 : i ≤ t) (h2 : t < i + len) :
    blit a i b j len t = b (j + (t - i)) := by
  simp [blit, h1, h2]

theorem blit_of_not_mem {a b : ℕ → α} {i j len t : ℕ} (h : t < i ∨ i + len ≤ t) :
    blit a i b j len t = a t := by
  simp only [blit, ite_eq_right_iff]
  intro h'
  omega

/-- The first step of an ascending copy, then the rest. -/
theorem blit_update_head (a b : ℕ → α) (i j len : ℕ) :
    blit (Function.update a i (b j)) (i + 1) b (j + 1) len = blit a i b j (len + 1) := by
  funext t
  by_cases h1 : t = i
  · subst h1
    rw [blit_of_not_mem (by omega), blit_of_mem (by omega) (by omega)]
    simp
  · by_cases h2 : i + 1 ≤ t ∧ t < i + 1 + len
    · rw [blit_of_mem h2.1 h2.2, blit_of_mem (by omega) (by omega)]
      congr 1
      omega
    · rw [blit_of_not_mem (by omega), blit_of_not_mem (by omega), Function.update_of_ne h1]

/-- The first step of a descending copy, then the rest. -/
theorem blit_update_last (a b : ℕ → α) (i j len : ℕ) :
    blit (Function.update a (i + len) (b (j + len))) i b j len = blit a i b j (len + 1) := by
  funext t
  by_cases h1 : t = i + len
  · subst h1
    rw [blit_of_not_mem (by omega), blit_of_mem (by omega) (by omega)]
    simp
  · by_cases h2 : i ≤ t ∧ t < i + len
    · rw [blit_of_mem h2.1 h2.2, blit_of_mem (by omega) (by omega)]
    · rw [blit_of_not_mem (by omega), blit_of_not_mem (by omega), Function.update_of_ne h1]

theorem blit_congr {a b b' : ℕ → α} {i j len : ℕ} (h : ∀ t < len, b (j + t) = b' (j + t)) :
    blit a i b j len = blit a i b' j len := by
  funext t
  simp only [blit]
  split_ifs with ht
  · exact h _ (by omega)
  · rfl

theorem copyUp_eq {dcap scap : ℕ} {src : ℕ → α} :
    ∀ {len i j : ℕ} {dst : ℕ → α}, i + len ≤ dcap → j + len ≤ scap →
      copyUp dcap scap src i j len dst = some (blit dst i src j len) := by
  intro len
  induction len with
  | zero => intro i j dst _ _; rw [copyUp, blit_zero]
  | succ len ih =>
    intro i j dst hi hj
    rw [copyUp, read_of_lt (by omega)]
    simp only [Option.bind_eq_bind, Option.bind_some]
    rw [write_of_lt (by omega), Option.bind_some]
    have := @ih (i + 1) (j + 1) (Function.update dst i (src j)) (by omega) (by omega)
    push_cast at this
    rw [this, blit_update_head]

theorem moveUp_eq {cap : ℕ} :
    ∀ {len i j : ℕ} {a : ℕ → α}, i ≤ j → j + len ≤ cap →
      moveUp cap i j len a = some (blit a i a j len) := by
  intro len
  induction len with
  | zero => intro i j a _ _; rw [moveUp, blit_zero]
  | succ len ih =>
    intro i j a hij hj
    rw [moveUp, read_of_lt (by omega)]
    simp only [Option.bind_eq_bind, Option.bind_some]
    rw [write_of_lt (by omega), Option.bind_some]
    have := ih (i := i + 1) (j := j + 1) (a := Function.update a i (a j)) (by omega) (by omega)
    push_cast at this
    -- the slots still to be read lie above the one just written
    have hread : ∀ t < len, Function.update a i (a j) (j + 1 + t) = a (j + 1 + t) :=
      fun t _ => Function.update_of_ne (by omega) _ _
    rw [this, blit_congr hread, blit_update_head]

theorem moveDown_eq {cap : ℕ} {i j : ℕ} (hij : j ≤ i) :
    ∀ {len : ℕ} {a : ℕ → α}, i + len ≤ cap → moveDown cap i j len a = some (blit a i a j len) := by
  intro len
  induction len with
  | zero => intro a _; rw [moveDown, blit_zero]
  | succ len ih =>
    intro a hi
    have hr : read cap a ((j : ℤ) + (len : ℤ)) = some (a (j + len)) := by
      exact_mod_cast read_of_lt (a := a) (i := j + len) (by omega)
    have hw : write cap a ((i : ℤ) + (len : ℤ)) (a (j + len)) =
        some (Function.update a (i + len) (a (j + len))) := by
      exact_mod_cast write_of_lt (a := a) (i := i + len) (x := a (j + len)) (by omega)
    rw [moveDown, hr]
    simp only [Option.bind_eq_bind, Option.bind_some]
    rw [hw, Option.bind_some, ih (by omega)]
    -- the slots still to be read lie at or below the one just read, hence below the one written
    have hread : ∀ t < len, Function.update a (i + len) (a (j + len)) (j + t) = a (j + t) :=
      fun t _ => Function.update_of_ne (by omega) _ _
    rw [blit_congr hread, blit_update_last]

/-- A descending loop whose last destination is below slot 0 is out of bounds. -/
theorem moveDown_neg {cap : ℕ} {i j : ℤ} (hi : i < 0) :
    ∀ {len : ℕ} {a : ℕ → α}, 0 < len → moveDown cap i j len a = none := by
  intro len
  induction len with
  | zero => intro a h; omega
  | succ len ih =>
    intro a _
    rw [moveDown]
    cases read cap a (j + len) with
    | none => rfl
    | some x =>
      simp only [Option.bind_eq_bind, Option.bind_some]
      cases hw : write cap a (i + len) x with
      | none => rfl
      | some a' =>
        rw [Option.bind_some]
        refine ih ?_
        rcases Nat.eq_zero_or_pos len with h0 | h0
        · subst h0
          rw [write_neg (by simpa using hi)] at hw
          cases hw
        · exact h0

/-! ## Live slots -/

@[simp] theorem length_live (n : ℕ) (a : ℕ → α) : (live n a).length = n := by simp [live]

@[simp] theorem getElem_live (n : ℕ) (a : ℕ → α) (i : ℕ) (h : i < (live n a).length) :
    (live n a)[i] = a i := by simp [live]

theorem getElem?_live {n i : ℕ} {a : ℕ → α} (h : i < n) : (live n a)[i]? = some (a i) := by
  rw [List.getElem?_eq_getElem (by simpa using h), getElem_live]

theorem mem_live {n : ℕ} {a : ℕ → α} {x : α} : x ∈ live n a ↔ ∃ i < n, a i = x := by
  simp [live]

theorem live_congr {n : ℕ} {a b : ℕ → α} (h : ∀ i < n, a i = b i) : live n a = live n b := by
  apply List.map_congr_left
  intro i hi
  exact h i (List.mem_range.mp hi)

theorem live_add (m n : ℕ) (a : ℕ → α) :
    live (m + n) a = live m a ++ live n (fun t => a (m + t)) := by
  simp [live, List.range_add, Function.comp_def]

theorem live_succ (n : ℕ) (a : ℕ → α) : live (n + 1) a = live n a ++ [a n] := by
  simp [live, List.range_succ]

theorem take_live {i n : ℕ} (a : ℕ → α) (h : i ≤ n) : (live n a).take i = live i a := by
  obtain ⟨m, rfl⟩ := Nat.exists_eq_add_of_le h
  rw [live_add, List.take_append_of_le_length (by simp), List.take_of_length_le (by simp)]

theorem drop_live {i n : ℕ} (a : ℕ → α) (h : i ≤ n) :
    (live n a).drop i = live (n - i) (fun t => a (i + t)) := by
  obtain ⟨m, rfl⟩ := Nat.exists_eq_add_of_le h
  rw [live_add, List.drop_append_of_le_length (by simp), List.drop_of_length_le (by simp),
    List.nil_append, Nat.add_sub_cancel_left]

/-- A slot beyond the live ones does not show. -/
theorem live_update_of_le {n i : ℕ} (a : ℕ → α) (x : α) (h : n ≤ i) :
    live n (Function.update a i x) = live n a :=
  live_congr fun _ _ => Function.update_of_ne (by omega) _ _

theorem live_update_of_lt {n i : ℕ} (a : ℕ → α) (x : α) :
    live n (Function.update a i x) = (live n a).set i x := by
  apply List.ext_getElem
  · simp
  · intro t h1 h2
    simp only [getElem_live, List.getElem_set]
    by_cases h : i = t
    · subst h; simp
    · simp [h, Function.update_of_ne (Ne.symm h)]

/-- Appending: the source's `a[n++] = x`. -/
theorem live_update_self (n : ℕ) (a : ℕ → α) (x : α) :
    live (n + 1) (Function.update a n x) = live n a ++ [x] := by
  rw [live_succ, live_update_of_le a x le_rfl, Function.update_self]

/-- A copy placed right after the live slots appends them. -/
theorem live_blit_end (a b : ℕ → α) (n j len : ℕ) :
    live (n + len) (blit a n b j len) = live n a ++ live len (fun t => b (j + t)) := by
  rw [live_add]
  congr 1
  · exact live_congr fun t ht => blit_of_not_mem (Or.inl ht)
  · refine live_congr fun t ht => ?_
    rw [blit_of_mem (by omega) (by omega)]
    congr 1
    omega

/-- Opening a gap at `i` and filling it: the shift-up loop followed by a write. -/
theorem live_insert {n i : ℕ} (a : ℕ → α) (x : α) (h : i ≤ n) :
    live (n + 1) (Function.update (blit a (i + 1) a i (n - i)) i x) =
      (live n a).take i ++ x :: (live n a).drop i := by
  rw [take_live a h, drop_live a h, show n + 1 = i + (1 + (n - i)) by omega, live_add, live_add]
  congr 1
  · refine live_congr fun t ht => ?_
    rw [Function.update_of_ne (by omega), blit_of_not_mem (by omega)]
  · rw [show live 1 (fun t => Function.update (blit a (i + 1) a i (n - i)) i x (i + t)) = [x] by
      simp [live]]
    rw [List.singleton_append]
    congr 1
    refine live_congr fun t ht => ?_
    rw [Function.update_of_ne (by omega), blit_of_mem (by omega) (by omega)]
    congr 1
    omega

/-- Closing the gap at `i`: the shift-down loop. -/
theorem live_erase {n i : ℕ} (a : ℕ → α) (h : i < n) :
    live (n - 1) (blit a i a (i + 1) (n - 1 - i)) =
      (live n a).take i ++ (live n a).drop (i + 1) := by
  rw [take_live a (by omega), drop_live a (by omega),
    show n - 1 = i + (n - 1 - i) by omega, live_add]
  congr 1
  · exact live_congr fun t ht => blit_of_not_mem (Or.inl ht)
  · rw [show n - (i + 1) = i + (n - 1 - i) - i by omega, Nat.add_sub_cancel_left]
    refine live_congr fun t ht => ?_
    rw [blit_of_mem (by omega) (by omega)]
    congr 1
    omega

end CArray
