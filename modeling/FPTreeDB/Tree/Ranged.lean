import FPTreeDB.Inner.Arrays
import FPTreeDB.Model.FPTree

/-!
# Search trees with bounds

`Ranged d P h lo hi node` says that `node` is the root of a subtree of height `h`
whose inner nodes have between `d` and `2 * d` keys, and that every leaf satisfies
`P` on the key range its separators leave it. `P` is a parameter: with the keys of
a leaf it describes a search tree, with `True` only the shape.

* `Ranged.mono`: replacing the predicate leaf by leaf.
* `Ranged.route`: the leaf to which a key is routed, and its range.
* `Ranged.route_of_mem`: a key in the range of a leaf is routed to that leaf.
-/

namespace FPTreeDB

open SepChain

namespace Node

/-- The leaves of a subtree from left to right. -/
def leaves : Node → List PPointer
  | uninit => []
  | leaf p => [p]
  | inner n => (List.range n.nChild).flatMap fun i => leaves (n.childrens i)

/-- The leaf to which `find`, `update`, `insert` and `remove` go. -/
def route (k : Key) : Node → Option PPointer
  | uninit => none
  | leaf p => some p
  | inner n => route k (n.childrens (n.findIndex k))

theorem leaves_inner (n : InnerNode Node) : (inner n).leaves = n.liveChildren.flatMap leaves := by
  rw [leaves, InnerNode.liveChildren, CArray.live, List.flatMap_map]

/-- A predicate on the key range and the leaf at it. -/
abbrev LeafPred := Option Key → Option Key → PPointer → Prop

/-- The fields of an inner node with at least `m` keys. -/
structure Filled (d m : ℕ) (n : InnerNode Node) : Prop where
  degree : n.degree = d
  le_nKeys : m ≤ n.nKeys
  nKeys_le : n.nKeys ≤ 2 * d
  nChild : n.nChild = n.nKeys + 1

/-- A subtree of height `h` on the key range `[lo, hi)`. -/
def Ranged (d : ℕ) (P : LeafPred) : ℕ → Option Key → Option Key → Node → Prop
  | 0, lo, hi, leaf p => P lo hi p
  | h + 1, lo, hi, inner n =>
    n.isRoot = false ∧ Filled d d n ∧ Seps (Ranged d P h) lo n.liveKeys n.liveChildren hi
  | _, _, _, _ => False

/-- The children of the root, which has no lower bound on its keys: without a
    key it has one leaf. -/
structure RootRanged (d : ℕ) (P : LeafPred) (h : ℕ) (n : InnerNode Node) : Prop where
  isRoot : n.isRoot = true
  filled : Filled d 0 n
  height : n.nKeys = 0 → h = 0
  seps : Seps (Ranged d P h) none n.liveKeys n.liveChildren none

/-- The root of a tree without leaves. -/
structure EmptyRoot (d : ℕ) (n : InnerNode Node) : Prop where
  isRoot : n.isRoot = true
  degree : n.degree = d
  nKeys : n.nKeys = 0
  nChild : n.nChild = 0

variable {d h : ℕ} {P Q : LeafPred} {lo hi : Option Key} {c : Node} {n : InnerNode Node} {k : Key}

theorem ranged_zero : Ranged d P 0 lo hi c ↔ ∃ p, c = leaf p ∧ P lo hi p := by
  cases c <;> simp [Ranged]

theorem ranged_succ : Ranged d P (h + 1) lo hi c ↔ ∃ n, c = inner n ∧ n.isRoot = false ∧
    Filled d d n ∧ Seps (Ranged d P h) lo n.liveKeys n.liveChildren hi := by
  cases c <;> simp [Ranged]

theorem Filled.mono {m m' : ℕ} (hf : Filled d m n) (hm : m' ≤ m) : Filled d m' n :=
  ⟨hf.degree, hm.trans hf.le_nKeys, hf.nKeys_le, hf.nChild⟩

theorem Filled.findIndex_lt {m : ℕ} (hf : Filled d m n) (k : Key) : n.findIndex k < n.nChild := by
  have := n.findIndex_le k
  have := hf.nChild
  omega

/-- The child at `i` in a chain, with its bounds and its neighbours. -/
theorem seps_child {R : Option Key → Option Key → Node → Prop} {i : ℕ}
    (hs : Seps R lo n.liveKeys n.liveChildren hi) (hi' : i < n.nChild) :
    Init R lo (n.liveKeys.take i) (n.liveChildren.take i) ∧
      R (low lo (n.liveKeys.take i)) (upp (n.liveKeys.drop i) hi) (n.childrens i) ∧
      Tail R (n.liveKeys.drop i) (n.liveChildren.drop (i + 1)) hi :=
  (hs.segment (InnerNode.liveChildren_split hi')).2.2

theorem low_take_zero : low lo (n.liveKeys.take 0) = lo := by simp

theorem low_take_succ {i : ℕ} (hi' : i < n.nKeys) :
    low lo (n.liveKeys.take (i + 1)) = some (n.keys i) := by
  have : n.liveKeys.take (i + 1) = n.liveKeys.take i ++ [n.keys i] := by
    rw [List.take_add_one, InnerNode.getElem?_liveKeys hi']
    rfl
  rw [this, low_append_singleton]

theorem upp_drop {i : ℕ} (hi' : i < n.nKeys) : upp (n.liveKeys.drop i) hi = some (n.keys i) := by
  rw [upp, List.head?_drop, InnerNode.getElem?_liveKeys hi']
  rfl

theorem upp_drop_last : upp (n.liveKeys.drop n.nKeys) hi = hi := by
  rw [List.drop_of_length_le (by simp), upp_nil]

theorem Ranged.mono : ∀ {h : ℕ} {lo hi : Option Key} {c : Node}, Ranged d P h lo hi c →
    (∀ p ∈ c.leaves, ∀ a b, P a b p → Q a b p) → Ranged d Q h lo hi c := by
  intro h
  induction h with
  | zero =>
    intro lo hi c hc hpq
    obtain ⟨p, rfl, hp⟩ := ranged_zero.mp hc
    exact hpq p (by simp [leaves]) _ _ hp
  | succ h ih =>
    intro lo hi c hc hpq
    obtain ⟨n, rfl, hr, hf, hs⟩ := ranged_succ.mp hc
    refine ⟨hr, hf, hs.mono fun c' hc' a b hP => ih hP fun p hp => hpq p ?_⟩
    rw [leaves_inner]
    exact List.mem_flatMap.mpr ⟨c', hc', hp⟩

theorem RootRanged.mono (hr : RootRanged d P h n)
    (hpq : ∀ p ∈ (inner n).leaves, ∀ a b, P a b p → Q a b p) : RootRanged d Q h n := by
  refine ⟨hr.isRoot, hr.filled, hr.height, hr.seps.mono fun c hc a b hP => hP.mono
    fun p hp => hpq p ?_⟩
  rw [leaves_inner]
  exact List.mem_flatMap.mpr ⟨c, hc, hp⟩

theorem EmptyRoot.leaves_eq (h : EmptyRoot d n) :
    (inner n).leaves = [] := by
  rw [leaves, h.nChild]
  rfl

/-- Every leaf satisfies the predicate on some range. -/
theorem Ranged.leaf_pred : ∀ {h : ℕ} {lo hi : Option Key} {c : Node}, Ranged d P h lo hi c →
    ∀ p ∈ c.leaves, ∃ a b, P a b p := by
  intro h
  induction h with
  | zero =>
    intro lo hi c hc p hp
    obtain ⟨q, rfl, hq⟩ := ranged_zero.mp hc
    rw [leaves, List.mem_singleton] at hp
    exact ⟨lo, hi, hp ▸ hq⟩
  | succ h ih =>
    intro lo hi c hc p hp
    obtain ⟨n, rfl, -, -, hs⟩ := ranged_succ.mp hc
    rw [leaves_inner] at hp
    obtain ⟨c', hc', hp⟩ := List.mem_flatMap.mp hp
    obtain ⟨i, hi', rfl⟩ := InnerNode.mem_liveChildren.mp hc'
    exact ih (seps_child hs hi').2.1 p hp

/-- A subtree has at least one leaf. -/
theorem Ranged.leaves_ne_nil : ∀ {h : ℕ} {lo hi : Option Key} {c : Node}, Ranged d P h lo hi c →
    c.leaves ≠ [] := by
  intro h
  induction h with
  | zero =>
    intro lo hi c hc
    obtain ⟨p, rfl, -⟩ := ranged_zero.mp hc
    simp [leaves]
  | succ h ih =>
    intro lo hi c hc
    obtain ⟨n, rfl, -, hf, hs⟩ := ranged_succ.mp hc
    have hpos : 0 < n.nChild := by rw [hf.nChild]; omega
    obtain ⟨q, hq⟩ := List.exists_mem_of_ne_nil _ (ih (seps_child hs hpos).2.1)
    rw [leaves_inner]
    refine List.ne_nil_of_mem (List.mem_flatMap.mpr ⟨n.childrens 0, ?_, hq⟩)
    exact InnerNode.mem_liveChildren.mpr ⟨0, hpos, rfl⟩

/-! ## Replacing one child -/

theorem RootRanged.leaves_ne_nil (hr : RootRanged d P h n) : (inner n).leaves ≠ [] := by
  have hlt : 0 < n.nChild := by
    rw [hr.filled.nChild]
    exact Nat.succ_pos _
  rw [leaves_inner]
  intro hnil
  have hchild := (seps_child hr.seps hlt).2.1.leaves_ne_nil
  exact hchild (List.flatMap_eq_nil_iff.mp hnil _ (InnerNode.mem_liveChildren.mpr ⟨0, hlt, rfl⟩))

/-- Children `ms` and the keys between them take the place of the child at `i`. -/
theorem seps_replace_child {R R' : Option Key → Option Key → Node → Prop} {i : ℕ} {ts : List Key}
    {ms : List Node} (hs : Seps R lo n.liveKeys n.liveChildren hi) (hi' : i < n.nChild)
    (hother : ∀ c ∈ n.liveChildren.take i ++ n.liveChildren.drop (i + 1), ∀ a b, R a b c → R' a b c)
    (hms : Seps R' (low lo (n.liveKeys.take i)) ts ms (upp (n.liveKeys.drop i) hi)) :
    Seps R' lo (n.liveKeys.take i ++ (ts ++ n.liveKeys.drop i))
      (n.liveChildren.take i ++ (ms ++ n.liveChildren.drop (i + 1))) hi := by
  obtain ⟨h1, h2, -⟩ := hs.segment (InnerNode.liveChildren_split hi')
  refine @Seps.replace _ _ R R' lo hi _ [] ts _ _ [n.childrens i] ms _ ?_ (h1.trans h2.symm)
    rfl hother hms
  rw [List.nil_append, List.take_append_drop, List.singleton_append,
    ← InnerNode.liveChildren_split hi']
  exact hs

/-- The leaves around the child at `i`. -/
theorem leaves_split {i : ℕ} (hi' : i < n.nChild) :
    (inner n).leaves = (n.liveChildren.take i).flatMap leaves ++
      ((n.childrens i).leaves ++ (n.liveChildren.drop (i + 1)).flatMap leaves) := by
  rw [leaves_inner]
  conv_lhs => rw [InnerNode.liveChildren_split hi']
  rw [List.flatMap_append, List.flatMap_cons]

/-- A leaf below the child at `i` is not below another child. -/
theorem ne_of_mem_sibling {i : ℕ} {p q : PPointer} (hi' : i < n.nChild)
    (hnd : (inner n).leaves.Nodup) (hp : p ∈ (n.childrens i).leaves) {c : Node}
    (hc : c ∈ n.liveChildren.take i ++ n.liveChildren.drop (i + 1))
    (hq : q ∈ c.leaves) : q ≠ p := by
  rintro rfl
  rw [leaves_split hi'] at hnd
  rcases List.mem_append.mp hc with hc | hc
  · refine (List.nodup_append.mp hnd).2.2 q ?_ q ?_ rfl
    · exact List.mem_flatMap.mpr ⟨c, hc, hq⟩
    · exact List.mem_append_left _ hp
  · refine (List.nodup_append.mp (List.nodup_append.mp hnd).2.1).2.2 q hp q ?_ rfl
    exact List.mem_flatMap.mpr ⟨c, hc, hq⟩

theorem mem_leaves_of_child {i : ℕ} {q : PPointer} (hi' : i < n.nChild)
    (hq : q ∈ (n.childrens i).leaves) : q ∈ (inner n).leaves := by
  rw [leaves_split hi']
  exact List.mem_append_right _ (List.mem_append_left _ hq)

theorem nodup_child {i : ℕ} (hi' : i < n.nChild) (hnd : (inner n).leaves.Nodup) :
    (n.childrens i).leaves.Nodup := by
  rw [leaves_split hi'] at hnd
  exact (List.nodup_append.mp (List.nodup_append.mp hnd).2.1).1

/-- The leaf `p` of the list `l` gives way to the leaves `r`. -/
def Replaced (p : PPointer) (r l l' : List PPointer) : Prop :=
  ∃ l1 l2, l = l1 ++ p :: l2 ∧ l' = l1 ++ (r ++ l2)

theorem Replaced.single (p : PPointer) (r : List PPointer) : Replaced p r [p] r :=
  ⟨[], [], rfl, by simp⟩

theorem Replaced.append {p : PPointer} {r l l' : List PPointer} (h : Replaced p r l l')
    (a b : List PPointer) : Replaced p r (a ++ (l ++ b)) (a ++ (l' ++ b)) := by
  obtain ⟨l1, l2, rfl, rfl⟩ := h
  exact ⟨a ++ l1, l2 ++ b, by simp, by simp⟩

/-- A list of leaves without repetition has one place for `p`. -/
theorem Replaced.eq_of_nodup {p : PPointer} {r l1 l2 l' : List PPointer}
    (h : Replaced p r (l1 ++ p :: l2) l') (hnd : (l1 ++ p :: l2).Nodup) : l' = l1 ++ (r ++ l2) := by
  obtain ⟨l1', l2', heq, rfl⟩ := h
  rw [List.nodup_middle, List.nodup_cons, List.mem_append, not_or] at hnd
  obtain ⟨rfl, -, rfl⟩ := (List.append_cons_inj_of_notMem hnd.1.1 hnd.1.2).mp heq
  rfl

/-- The leaves of a node after a change below its child at `i`. -/
theorem Replaced.node {p : PPointer} {r : List PPointer} {i : ℕ} {ms : List Node}
    (hi' : i < n.nChild) (h : Replaced p r (n.childrens i).leaves (ms.flatMap leaves)) :
    Replaced p r (inner n).leaves
      ((n.liveChildren.take i ++ (ms ++ n.liveChildren.drop (i + 1))).flatMap leaves) := by
  rw [leaves_split hi', List.flatMap_append, List.flatMap_append]
  exact h.append _ _

/-- Some leaf of the subtree is the one to which `k` is routed. -/
theorem Ranged.exists_route (k : Key) : ∀ {h : ℕ} {lo hi : Option Key} {c : Node},
    Ranged d P h lo hi c → ∃ p ∈ c.leaves, c.route k = some p := by
  intro h
  induction h with
  | zero =>
    intro lo hi c hc
    obtain ⟨p, rfl, -⟩ := ranged_zero.mp hc
    exact ⟨p, by simp [leaves], rfl⟩
  | succ h ih =>
    intro lo hi c hc
    obtain ⟨n, rfl, -, hf, hs⟩ := ranged_succ.mp hc
    have hlt := hf.findIndex_lt k
    obtain ⟨p, hp, hr⟩ := ih (seps_child hs hlt).2.1
    refine ⟨p, ?_, hr⟩
    rw [leaves_inner]
    exact List.mem_flatMap.mpr ⟨_, InnerNode.mem_liveChildren.mpr ⟨_, hlt, rfl⟩, hp⟩

/-! ## Search trees -/

/-- A property of the leaves of a range that two adjacent ranges pass on to their union
    holds of the leaves of a tree. -/
theorem Ranged.flat {A : Option Key → Option Key → List PPointer → Prop}
    (hcat : ∀ a k b l l', A a (some k) l → A (some k) b l' → A a b (l ++ l'))
    (hleaf : ∀ a b p, P a b p → A a b [p]) :
    ∀ {h : ℕ} {lo hi : Option Key} {c : Node}, Ranged d P h lo hi c → A lo hi c.leaves := by
  intro h
  induction h with
  | zero =>
    intro lo hi c hc
    obtain ⟨p, rfl, hp⟩ := ranged_zero.mp hc
    exact hleaf _ _ _ hp
  | succ h ih =>
    intro lo hi c hc
    obtain ⟨n, rfl, -, -, hs⟩ := ranged_succ.mp hc
    rw [leaves_inner]
    exact hs.flatMap hcat fun _ _ _ hc' => ih hc'

section Ordered

variable (hG : ∀ a b p, P a b p → Gap a b)

include hG

theorem Ranged.gap {h : ℕ} {lo hi : Option Key} {c : Node} (hc : Ranged d P h lo hi c) :
    Gap lo hi :=
  Ranged.flat (A := fun lo hi _ => Gap lo hi) (fun _ _ _ _ _ => Gap.trans) hG hc

/-- In a search tree the keys of a node ascend and lie within its range. -/
theorem seps_sorted (hs : Seps (Ranged d P h) lo n.liveKeys n.liveChildren hi) :
    n.liveKeys.Pairwise (· < ·) ∧ ∀ x ∈ n.liveKeys, Gap lo (some x) ∧ Gap (some x) hi :=
  hs.keys_sorted fun _ _ _ => Ranged.gap hG

/-- The child to which `k` is routed is responsible for `k`. -/
theorem inRange_findIndex (hs : Seps (Ranged d P h) lo n.liveKeys n.liveChildren hi)
    (hk : InRange lo hi k) :
    InRange (low lo (n.liveKeys.take (n.findIndex k)))
      (upp (n.liveKeys.drop (n.findIndex k)) hi) k := by
  have hsort := (seps_sorted hG hs).1
  rw [InnerNode.findIndex_eq hsort]
  exact inRange_childIndex hsort hk

/-- A key is routed to the child whose range contains it. -/
theorem findIndex_of_inRange {i : ℕ} (hs : Seps (Ranged d P h) lo n.liveKeys n.liveChildren hi)
    (hi' : i < n.nChild)
    (hk : InRange (low lo (n.liveKeys.take i)) (upp (n.liveKeys.drop i) hi) k) :
    n.findIndex k = i := by
  have hsort := (seps_sorted hG hs).1
  have hlen := hs.length_eq
  simp only [InnerNode.length_liveChildren, InnerNode.length_liveKeys] at hlen
  rw [InnerNode.findIndex_eq hsort]
  have hidx := @childIndex_of_inRange _ _ lo hi (n.liveKeys.take i) (n.liveKeys.drop i) k
    (by rwa [List.take_append_drop]) hk
  rw [List.take_append_drop] at hidx
  rw [hidx, List.length_take, InnerNode.length_liveKeys]
  omega

/-- The leaf to which a key of the range is routed is responsible for it. -/
theorem Ranged.route : ∀ {h : ℕ} {lo hi : Option Key} {c : Node}, Ranged d P h lo hi c →
    InRange lo hi k → ∃ p a b, c.route k = some p ∧ p ∈ c.leaves ∧ P a b p ∧ InRange a b k := by
  intro h
  induction h with
  | zero =>
    intro lo hi c hc hk
    obtain ⟨p, rfl, hp⟩ := ranged_zero.mp hc
    exact ⟨p, lo, hi, rfl, by simp [leaves], hp, hk⟩
  | succ h ih =>
    intro lo hi c hc hk
    obtain ⟨n, rfl, -, hf, hs⟩ := ranged_succ.mp hc
    have hlt := hf.findIndex_lt k
    obtain ⟨p, a, b, hr, hp, hP, hab⟩ := ih (seps_child hs hlt).2.1 (inRange_findIndex hG hs hk)
    refine ⟨p, a, b, hr, ?_, hP, hab⟩
    rw [leaves_inner]
    exact List.mem_flatMap.mpr ⟨_, InnerNode.mem_liveChildren.mpr ⟨_, hlt, rfl⟩, hp⟩

/-- A key that must lie in the range of the leaf `p` is routed to `p`. -/
theorem Ranged.route_of_mem {p : PPointer} (hk : ∀ a b, P a b p → InRange a b k) :
    ∀ {h : ℕ} {lo hi : Option Key} {c : Node}, Ranged d P h lo hi c → p ∈ c.leaves →
      c.route k = some p ∧ InRange lo hi k := by
  intro h
  induction h with
  | zero =>
    intro lo hi c hc hp
    obtain ⟨q, rfl, hq⟩ := ranged_zero.mp hc
    rw [leaves, List.mem_singleton] at hp
    subst hp
    exact ⟨rfl, hk _ _ hq⟩
  | succ h ih =>
    intro lo hi c hc hp
    obtain ⟨n, rfl, -, hf, hs⟩ := ranged_succ.mp hc
    rw [leaves_inner] at hp
    obtain ⟨c', hc', hp⟩ := List.mem_flatMap.mp hp
    obtain ⟨i, hi', rfl⟩ := InnerNode.mem_liveChildren.mp hc'
    obtain ⟨hr, hkr⟩ := ih (seps_child hs hi').2.1 hp
    constructor
    · rw [Node.route, findIndex_of_inRange hG hs hi' hkr, hr]
    · refine inRange_of_child (fun x hx => (seps_sorted hG hs).2 x ?_) hkr
      rwa [List.take_append_drop] at hx

end Ordered

end Node

end FPTreeDB
