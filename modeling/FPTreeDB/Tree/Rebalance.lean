import FPTreeDB.Tree.Insert
import FPTreeDB.Tree.Repairs

/-!
# Repairing a node that has too few keys

`InnerNode::remove` repairs a node `n` with `d - 1` keys at slot `j` of its parent
`m`. `Outcome` describes the parent after the work on the child at slot `j`: all of
it may be in order again, the child may still have to be taken out of the parent,
or the parent, the root, may have taken over what its two children held.

* `redistributeRight_outcome`, `mergeRight_outcome`, `mergeLeft_outcome`,
  `mergeParent_outcome`: the repairs.
* `applyRebalance_redistributeLeft`: the one that leaves its arrays.
* `rebalance_spec`: the repair that the code chooses.
-/

namespace FPTreeDB

open SepChain

namespace Node

variable {d h j : ℕ} {P Q : LeafPred} {lo hi a b : Option Key} {n m r l : InnerNode Node}
  {ls : List PPointer}

/-! ## Two neighbouring slots -/

theorem take_liveChildren (hj : j < m.nChild) :
    m.liveChildren.take (j + 1) = m.liveChildren.take j ++ [m.childrens j] := by
  rw [List.take_add_one, InnerNode.getElem?_liveChildren hj]
  rfl

theorem seps_pair_slots {R : Option Key → Option Key → Node → Prop}
    (hs : Seps R lo m.liveKeys m.liveChildren hi) (hj : j + 1 < m.nChild) :
    R (low lo (m.liveKeys.take j)) (some (m.keys j)) (m.childrens j) ∧
      R (some (m.keys j)) (upp (m.liveKeys.drop (j + 1)) hi) (m.childrens (j + 1)) := by
  have hlen := hs.length_eq
  simp only [InnerNode.length_liveChildren, InnerNode.length_liveKeys] at hlen
  have h1 := (seps_child hs (show j < m.nChild by omega)).2.1
  have h2 := (seps_child hs hj).2.1
  rw [upp_drop (by omega)] at h1
  rw [low_take_succ (by omega)] at h2
  exact ⟨h1, h2⟩

/-- The children `ms` and the keys `ts` between them take the place of two
    neighbouring children. -/
theorem seps_replace_pair {R R' : Option Key → Option Key → Node → Prop} {ts : List Key}
    {ms : List Node} (hs : Seps R lo m.liveKeys m.liveChildren hi) (hj : j + 1 < m.nChild)
    (hother : ∀ c ∈ m.liveChildren.take j ++ m.liveChildren.drop (j + 2), ∀ a b, R a b c → R' a b c)
    (hms : Seps R' (low lo (m.liveKeys.take j)) ts ms (upp (m.liveKeys.drop (j + 1)) hi)) :
    Seps R' lo (m.liveKeys.take j ++ (ts ++ m.liveKeys.drop (j + 1)))
      (m.liveChildren.take j ++ (ms ++ m.liveChildren.drop (j + 2))) hi := by
  have hlen := hs.length_eq
  simp only [InnerNode.length_liveChildren, InnerNode.length_liveKeys] at hlen
  refine @Seps.replace _ _ R R' lo hi _ [m.keys j] ts _ _ [m.childrens j,
    m.childrens (j + 1)] ms _ ?_ ?_ rfl hother hms
  · have hk := InnerNode.liveKeys_split (show j < m.nKeys by omega)
    rw [List.singleton_append, ← hk, List.cons_append, List.singleton_append,
      ← liveChildren_pair hj]
    exact hs
  · simp only [List.length_take, InnerNode.length_liveChildren, InnerNode.length_liveKeys]
    omega

/-! ## The parent after the work on a child -/

/-- The leaves below `m` when those below its child at `j` have become `ls`. -/
def around (m : InnerNode Node) (j : ℕ) (ls : List PPointer) : List PPointer :=
  (m.liveChildren.take j).flatMap leaves ++ (ls ++ (m.liveChildren.drop (j + 1)).flatMap leaves)

/-- The parent `m'` after the work on the child at slot `j` of `m`, by the value of
    `ifDelete`. -/
inductive Outcome (d : ℕ) (Q : LeafPred) (h : ℕ) (lo hi : Option Key) (m : InnerNode Node) (j : ℕ)
    (ls : List PPointer) : Bool → InnerNode Node → Prop
  | kept {m' : InnerNode Node} (fields : SameFields m m')
      (seps : Seps (Ranged d Q h) lo m'.liveKeys m'.liveChildren hi)
      (leaves : m'.liveChildren.flatMap leaves = ls) : Outcome d Q h lo hi m j ls false m'
  | dropped {m' : InnerNode Node} (fields : SameFields m m')
      (level : m.isRoot = true → m.nChild = 2 → h = 0)
      (seps : Seps (Ranged d Q h) lo
        (m'.liveKeys.take (keyIdx m j) ++ m'.liveKeys.drop (keyIdx m j + 1))
        (m'.liveChildren.take j ++ m'.liveChildren.drop (j + 1)) hi)
      (leaves : (m'.liveChildren.take j ++ m'.liveChildren.drop (j + 1)).flatMap leaves = ls) :
      Outcome d Q h lo hi m j ls true m'
  | collapsed {m' : InnerNode Node} {h' : ℕ} (height : h = h' + 1) (root : m.isRoot = true)
      (isRoot : m'.isRoot = true) (degree : m'.degree = d) (nChild : m'.nChild = 0)
      (nKeys : m'.nKeys = 2 * d)
      (seps : Seps (Ranged d Q h') lo m'.liveKeys (CArray.live (m'.nKeys + 1) m'.childrens) hi)
      (leaves : (CArray.live (m'.nKeys + 1) m'.childrens).flatMap leaves = ls) :
      Outcome d Q h lo hi m j ls true m'

/-- A node that lost a child and has one key too few. -/
structure Short (d : ℕ) (Q : LeafPred) (h : ℕ) (a b : Option Key) (n : InnerNode Node)
    (ls : List PPointer) : Prop where
  isRoot : n.isRoot = false
  degree : n.degree = d
  nKeys : n.nKeys + 1 = d
  nChild : n.nChild = n.nKeys + 1
  seps : Seps (Ranged d Q h) a n.liveKeys n.liveChildren b
  leaves : n.liveChildren.flatMap leaves = ls

/-- The parent of a short node at slot `j`: the other children are in order. -/
structure Context (d : ℕ) (P Q : LeafPred) (h : ℕ) (lo hi : Option Key) (m : InnerNode Node)
    (j : ℕ) :
    Prop where
  filled : Filled d 1 m
  seps : Seps (Ranged d P h) lo m.liveKeys m.liveChildren hi
  lt : j < m.nChild
  other : ∀ c ∈ m.liveChildren.take j ++ m.liveChildren.drop (j + 1), ∀ a b,
    Ranged d P h a b c → Ranged d Q h a b c

namespace Context

variable (hm : Context d P Q h lo hi m j)

include hm

theorem right_ranged (hj : j + 1 < m.nChild) :
    Ranged d Q h (some (m.keys j)) (upp (m.liveKeys.drop (j + 1)) hi) (m.childrens (j + 1)) := by
  refine hm.other _ ?_ _ _ (seps_pair_slots hm.seps hj).2
  rw [drop_liveChildren hj]
  simp

theorem replace_right (ts : List Key) {ms : List Node} (hj : j + 1 < m.nChild)
    (hms : Seps (Ranged d Q h) (low lo (m.liveKeys.take j)) ts ms
      (upp (m.liveKeys.drop (j + 1)) hi)) :
    Seps (Ranged d Q h) lo (m.liveKeys.take j ++ (ts ++ m.liveKeys.drop (j + 1)))
      (m.liveChildren.take j ++ (ms ++ m.liveChildren.drop (j + 2))) hi := by
  refine seps_replace_pair hm.seps hj (fun c hc => hm.other c ?_) hms
  rw [drop_liveChildren hj]
  simp only [List.mem_append, List.mem_cons] at hc ⊢
  tauto

end Context

namespace Context

variable (hm : Context d P Q h lo hi m (j + 1))

include hm

theorem left_ranged :
    Ranged d Q h (low lo (m.liveKeys.take j)) (some (m.keys j)) (m.childrens j) := by
  refine hm.other _ ?_ _ _ (seps_pair_slots hm.seps hm.lt).1
  rw [take_liveChildren (by have := hm.lt; omega)]
  simp

theorem replace_left (ts : List Key) {ms : List Node}
    (hms : Seps (Ranged d Q h) (low lo (m.liveKeys.take j)) ts ms
      (upp (m.liveKeys.drop (j + 1)) hi)) :
    Seps (Ranged d Q h) lo (m.liveKeys.take j ++ (ts ++ m.liveKeys.drop (j + 1)))
      (m.liveChildren.take j ++ (ms ++ m.liveChildren.drop (j + 2))) hi := by
  refine seps_replace_pair hm.seps hm.lt (fun c hc => hm.other c ?_) hms
  rw [take_liveChildren (by have := hm.lt; omega)]
  simp only [List.mem_append, List.mem_singleton] at hc ⊢
  tauto

end Context

/-! ## The repairs -/

theorem around_right (hj : j + 1 < m.nChild) (hr : m.childrens (j + 1) = inner r) :
    around m j ls = (m.liveChildren.take j).flatMap leaves ++
      ((ls ++ r.liveChildren.flatMap leaves) ++ (m.liveChildren.drop (j + 2)).flatMap leaves) := by
  rw [around, drop_liveChildren hj, List.flatMap_cons, hr, leaves_inner, List.append_assoc]

theorem around_left (hj : j + 1 < m.nChild) (hl : m.childrens j = inner l) :
    around m (j + 1) ls = (m.liveChildren.take j).flatMap leaves ++
      ((l.liveChildren.flatMap leaves ++ ls) ++ (m.liveChildren.drop (j + 2)).flatMap leaves) := by
  rw [around, take_liveChildren (by omega), List.flatMap_append, List.flatMap_singleton,
    hl, leaves_inner]
  simp only [List.append_assoc]

theorem take_setChild {c : Node} {i : ℕ} (h : i ≤ j) :
    (m.setChild j c).liveChildren.take i = m.liveChildren.take i := by
  rw [InnerNode.liveChildren_setChild, List.take_set_of_le h]

theorem drop_setChild {c : Node} {i : ℕ} (h : j < i) :
    (m.setChild j c).liveChildren.drop i = m.liveChildren.drop i := by
  rw [InnerNode.liveChildren_setChild, List.drop_set_of_lt h]

theorem Short.underfull (hn : Short d Q h a b n ls) : Underfull d n :=
  ⟨hn.degree, hn.nKeys, hn.nChild⟩

theorem redistributeRight_outcome {leftBro : Option (InnerNode Node)}
    (hm : Context d P Q (h + 1) lo hi m j) (hj : j + 1 < m.nChild)
    (hn : Short d Q h (low lo (m.liveKeys.take j)) (upp (m.liveKeys.drop j) hi) n ls)
    (hr : m.childrens (j + 1) = inner r) (hle : 2 * d ≤ r.nKeys + n.nKeys) :
    ∃ m', applyRebalance n (m.setChild j (inner n)) j leftBro (some r) .redistributeRight =
        some (m', false) ∧
      Outcome d Q (h + 1) lo hi m j (around m j ls) false m' := by
  have hmc := hm.filled.nChild
  have hnk := hn.nKeys
  obtain ⟨r', hr', hrr, hrf, hrs⟩ := ranged_succ.mp (hm.right_ranged hj)
  obtain rfl : r = r' := inner.inj (hr.symm.trans hr')
  obtain ⟨m', n', r', k', hres, hsame, hk, hc, ⟨hn', hn'r⟩, ⟨hr', hr'r⟩, hpair⟩ :=
    @redistributeRight_repair d j n (m.setChild j (inner n)) r leftBro
      ⟨hm.filled.degree, Nat.zero_le _, hm.filled.nKeys_le, hmc⟩ hj hn.underfull
      ⟨hrf.degree, by omega, hrf.nKeys_le, hrf.nChild⟩
  rw [take_setChild le_rfl, drop_setChild (by omega)] at hc
  have hchain := hn.seps
  rw [upp_drop (by omega)] at hchain
  have hjoin : Seps (Ranged d Q h) (low lo (m.liveKeys.take j)) (n'.liveKeys ++ k' :: r'.liveKeys)
      (n'.liveChildren ++ r'.liveChildren) (upp (m.liveKeys.drop (j + 1)) hi) := by
    rw [hpair.keys, hpair.children]
    exact (seps_append (by simp [hn.nChild])).mpr ⟨hchain, hrs⟩
  obtain ⟨ht, hr''⟩ := (seps_append (by simp [hn'.nChild])).mp hjoin
  refine ⟨m', hres, .kept ⟨hsame.degree, hsame.isRoot, hsame.nKeys, hsame.nChild⟩ ?_ ?_⟩
  · have hleft : Ranged d Q (h + 1) (low lo (m.liveKeys.take j)) (some k') (inner n') :=
      ⟨hn'r.trans hn.isRoot, hn', ht⟩
    have hright : Ranged d Q (h + 1) (some k') (upp (m.liveKeys.drop (j + 1)) hi) (inner r') :=
      ⟨hr'r.trans hrr, hr', hr''⟩
    rw [hk, hc]
    exact hm.replace_right [k'] hj (seps_pair.mpr ⟨hleft, hright⟩)
  · rw [hc, around_right hj hr, ← hn.leaves, List.flatMap_append, List.flatMap_cons,
      List.flatMap_cons, leaves_inner, leaves_inner,
      ← List.append_assoc (n'.liveChildren.flatMap _), ← List.flatMap_append,
      hpair.children, List.flatMap_append]

/-- Deleting the object of an inner node leaves the leaves alone. -/
theorem deleteChild_inner {m' : InnerNode Node} (hne : m'.nChild ≠ 0)
    (hslot : m'.childrens j = inner n) (w : World) : deleteChild m' j true w = w := by
  simp [deleteChild, hne, hslot, delete]

/-- `r` takes over the short node left of it, which the parent then takes out. -/
theorem mergeRight_outcome {leftBro : Option (InnerNode Node)}
    (hm : Context d P Q (h + 1) lo hi m j) (hj : j + 1 < m.nChild)
    (hn : Short d Q h (low lo (m.liveKeys.take j)) (upp (m.liveKeys.drop j) hi) n ls)
    (hr : m.childrens (j + 1) = inner r) (hlt : r.nKeys + n.nKeys < 2 * d)
    (hroot : ¬ (m.isRoot = true ∧ m.nChild = 2)) :
    ∃ m', applyRebalance n (m.setChild j (inner n)) j leftBro (some r) .mergeRight =
      some (m', true) ∧
      Outcome d Q (h + 1) lo hi m j (around m j ls) true m' ∧ ∀ w, deleteChild m' j true w = w := by
  have hmc := hm.filled.nChild
  have hnk := hn.nKeys
  obtain ⟨r', hr', hrr, hrf, hrs⟩ := ranged_succ.mp (hm.right_ranged hj)
  obtain rfl : r = r' := inner.inj (hr.symm.trans hr')
  have hrk := hrf.le_nKeys
  obtain ⟨m', r', hres, hsame, hk, hc, ⟨hr', hr'r⟩, hjoin⟩ :=
    @mergeRight_repair d j n (m.setChild j (inner n)) r leftBro
      ⟨hm.filled.degree, Nat.zero_le _, hm.filled.nKeys_le, hmc⟩ hj hn.underfull hrf (by omega)
  rw [take_setChild le_rfl, drop_setChild (by omega)] at hc
  have hlen := @length_take_liveChildren j m (by omega)
  have hslot : m'.childrens j = inner n :=
    (childrens_of_append hc hlen).trans (by simp [InnerNode.setChild])
  have htake : m'.liveChildren.take j ++ m'.liveChildren.drop (j + 1) =
      m.liveChildren.take j ++ ([inner r'] ++ m.liveChildren.drop (j + 2)) := by
    rw [hc]
    exact erase_pair_left hlen
  have hchain := hn.seps
  rw [upp_drop (by omega)] at hchain
  refine ⟨m', hres, .dropped ⟨hsame.degree, hsame.isRoot, hsame.nKeys, hsame.nChild⟩
    (fun h1 h2 => absurd ⟨h1, h2⟩ hroot) ?_ ?_, deleteChild_inner ?_ hslot⟩
  · have hkey : keyIdx m j = j := if_pos (by omega)
    rw [htake, hkey, hk]
    refine hm.replace_right [] hj (seps_singleton.mpr ⟨hr'r.trans hrr, hr', ?_⟩)
    rw [hjoin.keys, hjoin.children]
    exact (seps_append (by simp [hn.nChild])).mpr ⟨hchain, hrs⟩
  · rw [htake, around_right hj hr, ← hn.leaves, List.flatMap_append, List.flatMap_append,
      List.flatMap_singleton, leaves_inner, hjoin.children, List.flatMap_append]
  · have hne : m'.nChild = m.nChild := hsame.nChild
    omega

/-- `l` takes over the short last child right of it, which the parent then takes out. -/
theorem mergeLeft_outcome {rightBro : Option (InnerNode Node)}
    (hm : Context d P Q (h + 1) lo hi m (j + 1)) (hj : j + 2 = m.nChild)
    (hn : Short d Q h (low lo (m.liveKeys.take (j + 1))) (upp (m.liveKeys.drop (j + 1)) hi) n ls)
    (hl : m.childrens j = inner l) (hlt : l.nKeys + n.nKeys < 2 * d)
    (hroot : ¬ (m.isRoot = true ∧ m.nChild = 2)) :
    ∃ m', applyRebalance n (m.setChild ((j + 1 : ℕ) : ℤ) (inner n)) ((j + 1 : ℕ) : ℤ)
        (some l) rightBro .mergeLeft = some (m', true) ∧
      Outcome d Q (h + 1) lo hi m (j + 1) (around m (j + 1) ls) true m' ∧
      ∀ w, deleteChild m' (j + 1) true w = w := by
  have hmc := hm.filled.nChild
  have hnk := hn.nKeys
  have hj' : j + 1 < m.nChild := by omega
  obtain ⟨l', hl', hlr, hlf, hls⟩ := ranged_succ.mp hm.left_ranged
  obtain rfl : l = l' := inner.inj (hl.symm.trans hl')
  have hlk := hlf.le_nKeys
  obtain ⟨m', l', hres, hsame, hk, hc, ⟨hl', hl'r⟩, hjoin⟩ :=
    @mergeLeft_repair d j n (m.setChild ((j + 1 : ℕ) : ℤ) (inner n)) l rightBro
      ⟨hm.filled.degree, Nat.zero_le _, hm.filled.nKeys_le, hmc⟩ hj' hn.underfull hlf (by omega)
  rw [take_setChild (by omega), drop_setChild (by omega)] at hc
  have hlen := @length_take_liveChildren j m (by omega)
  have hnode : (m.setChild ((j + 1 : ℕ) : ℤ) (inner n)).childrens (j + 1) = inner n := by
    simp [InnerNode.setChild]
  rw [hnode] at hc
  have hslot : m'.childrens (j + 1) = inner n := by
    have hc' : m'.liveChildren =
        (m.liveChildren.take j ++ [inner l']) ++ inner n :: m.liveChildren.drop (j + 2) := by
      rw [hc, List.append_assoc]
      rfl
    exact childrens_of_append hc' (by simp [hlen])
  have htake : m'.liveChildren.take (j + 1) ++ m'.liveChildren.drop (j + 1 + 1) =
      m.liveChildren.take j ++ ([inner l'] ++ m.liveChildren.drop (j + 2)) := by
    rw [hc]
    exact erase_pair_right hlen
  have hchain := hn.seps
  rw [low_take_succ (by omega)] at hchain
  refine ⟨m', hres, .dropped ⟨hsame.degree, hsame.isRoot, hsame.nKeys, hsame.nChild⟩
    (fun h1 h2 => absurd ⟨h1, h2⟩ hroot) ?_ ?_, deleteChild_inner ?_ hslot⟩
  · have hkey : keyIdx m (j + 1) = j := if_neg (by omega)
    rw [htake, hkey, hk]
    refine hm.replace_left [] (seps_singleton.mpr ⟨hl'r.trans hlr, hl', ?_⟩)
    rw [hjoin.keys, hjoin.children]
    exact (seps_append (by simp [hlf.nChild])).mpr ⟨hls, hchain⟩
  · rw [htake, around_left hj' hl, ← hn.leaves, List.flatMap_append, List.flatMap_append,
      List.flatMap_singleton, leaves_inner, hjoin.children, List.flatMap_append]
  · have hne : m'.nChild = m.nChild := hsame.nChild
    omega

/-- The root takes over what its two children hold; `self` is the node whose
    removal is being finished. -/
theorem mergeParent_outcome {self first second m1 : InnerNode Node} (hm : SameFields m m1)
    (hkeys : m1.keys = m.keys) (hroot : m.isRoot = true) (hd : m.degree = d)
    (hk : first.nKeys + second.nKeys + 1 = 2 * d)
    (hc1 : first.nChild = first.nKeys + 1) (hc2 : second.nChild = second.nKeys + 1)
    (hd1 : first.degree = d) (hd2 : second.degree = d)
    (hs1 : Seps (Ranged d Q h) lo first.liveKeys first.liveChildren (some (m.keys 0)))
    (hs2 : Seps (Ranged d Q h) (some (m.keys 0)) second.liveKeys second.liveChildren hi)
    (hls : first.liveChildren.flatMap leaves ++ second.liveChildren.flatMap leaves = ls) :
    ∃ m', InnerNode.mergeParent (inner self) first second m1 = some m' ∧
      Outcome d Q (h + 1) lo hi m j ls true m' ∧ ∀ w, deleteChild m' j true w = w := by
  have hdeg := hm.degree
  obtain ⟨m', hres, m1', m2, m3, m4, m5, m6, m7⟩ :=
    @InnerNode.mergeParent_spec _ (inner self) first second m1 (by omega) hc1 hc2
      (by omega) (by omega)
  refine ⟨m', hres, .collapsed rfl hroot ?_ ?_ m4 (m3.trans hk) ?_ ?_, fun w => ?_⟩
  · rw [m2, hm.isRoot, hroot]
  · rw [m1', hm.degree, hd]
  · rw [m6, m7, hkeys]
    exact (seps_append (by simp [hc1])).mpr ⟨hs1, hs2⟩
  · rw [m7, List.flatMap_append, hls]
  · have hr : m'.isRoot = true := by rw [m2, hm.isRoot, hroot]
    simp [deleteChild, hr, m4, m5, delete]

/-- The left brother has more keys, so `moveKeys` is negative and the repair writes
    in front of its arrays. -/
theorem applyRebalance_redistributeLeft {m1 : InnerNode Node} {index : ℤ}
    {rightBro : Option (InnerNode Node)} (hn : Short d Q h a b n ls)
    (hle : 2 * d ≤ l.nKeys + n.nKeys) :
    applyRebalance n m1 index (some l) rightBro .redistributeLeft = none := by
  have := hn.nKeys
  have := hn.nChild
  have hnone := @InnerNode.redistributeLeft_none _ n l m1 index (by omega) (by omega)
  simp [applyRebalance, hnone]

/-! ## The choice -/

/-- What the end of `remove` on a child at slot `j` leaves behind: the parent in one
    of the outcomes, or an error after a left redistribution was chosen. -/
def Finished (d : ℕ) (Q : LeafPred) (h : ℕ) (lo hi : Option Key) (m : InnerNode Node) (j : ℕ)
    (ls : List PPointer) : Except (List Rebalance) Pruned → Prop
  | .ok r => ∃ m', r.parent = some m' ∧ Outcome d Q h lo hi m j ls r.ifDelete m' ∧
      ∀ w, deleteChild m' j r.ifDelete w = w
  | .error log => .redistributeLeft ∈ log

/-- The brothers of the child at slot `j`. -/
theorem brothers (hm : Context d P Q (h + 1) lo hi m j) (c : Node) : ∃ leftBro rightBro,
    asInner (InnerNode.getBrother j (m.setChild j c)).1 = some leftBro ∧
    asInner (InnerNode.getBrother j (m.setChild j c)).2 = some rightBro ∧
    (leftBro = none ∧ j = 0 ∨ ∃ j' l, leftBro = some l ∧ j = j' + 1 ∧ m.childrens j' = inner l) ∧
    (rightBro = none ∧ j + 1 = m.nChild ∨
      ∃ r, rightBro = some r ∧ j + 1 < m.nChild ∧ m.childrens (j + 1) = inner r) := by
  have hlt := hm.lt
  have hchild : (m.setChild j c).nChild = m.nChild := rfl
  have hbro : InnerNode.getBrother j (m.setChild j c) =
      (if j = 0 then none else some (m.childrens (j - 1)),
        if j + 1 = m.nChild then none else some (m.childrens (j + 1))) := by
    rw [getBrother_eq (hchild.symm ▸ hlt), hchild]
    simp only [InnerNode.setChild, Int.toNat_natCast]
    rw [Function.update_of_ne (show j + 1 ≠ j by omega)]
    congr 1
    by_cases h0 : j = 0
    · rw [if_pos h0, if_pos h0]
    · rw [if_neg h0, if_neg h0, Function.update_of_ne (by omega)]
  rw [hbro]
  have hleft : ∃ leftBro, asInner (if j = 0 then none else some (m.childrens (j - 1))) =
      some leftBro ∧
      (leftBro = none ∧ j = 0 ∨ ∃ j' l, leftBro = some l ∧ j = j' + 1 ∧
        m.childrens j' = inner l) := by
    cases j with
    | zero => exact ⟨none, rfl, Or.inl ⟨rfl, rfl⟩⟩
    | succ j =>
      obtain ⟨l, hl, -⟩ := ranged_succ.mp hm.left_ranged
      refine ⟨some l, ?_, Or.inr ⟨j, l, rfl, rfl, hl⟩⟩
      simp [hl, asInner]
  have hright : ∃ rightBro,
      asInner (if j + 1 = m.nChild then none else some (m.childrens (j + 1))) =
      some rightBro ∧ (rightBro = none ∧ j + 1 = m.nChild ∨
        ∃ r, rightBro = some r ∧ j + 1 < m.nChild ∧ m.childrens (j + 1) = inner r) := by
    by_cases h0 : j + 1 = m.nChild
    · exact ⟨none, by rw [if_pos h0]; rfl, Or.inl ⟨rfl, h0⟩⟩
    · have hj : j + 1 < m.nChild := by omega
      obtain ⟨r, hr, -⟩ := ranged_succ.mp (hm.right_ranged hj)
      refine ⟨some r, ?_, Or.inr ⟨r, rfl, hj, hr⟩⟩
      rw [if_neg h0, hr]
      rfl
  obtain ⟨leftBro, hl, hl'⟩ := hleft
  obtain ⟨rightBro, hr, hr'⟩ := hright
  exact ⟨leftBro, rightBro, hl, hr, hl', hr'⟩

/-- `InnerNode::remove` on a short node, once its brothers are known. -/
theorem finishRemove_of_short {leftBro rightBro : Option (InnerNode Node)} {log : List Rebalance}
    (hn : Short d Q h a b n ls)
    (hl : asInner (InnerNode.getBrother j (m.setChild j (inner n))).1 = some leftBro)
    (hr : asInner (InnerNode.getBrother j (m.setChild j (inner n))).2 = some rightBro) :
    finishRemove n j (some m) log =
      (applyRebalance n (m.setChild j (inner n)) j leftBro rightBro
        (chooseRebalance n (m.setChild j (inner n)) leftBro rightBro)).elim
        (.error (log ++ [chooseRebalance n (m.setChild j (inner n)) leftBro rightBro]))
        fun x => .ok ⟨x.2, .inner n, some x.1,
          log ++ [chooseRebalance n (m.setChild j (inner n)) leftBro rightBro]⟩ := by
  have h1 := hn.nKeys
  have h2 := hn.degree
  unfold finishRemove
  rw [if_neg (by omega), if_neg (by simp [hn.isRoot])]
  simp only [Option.map_some, hl, hr]
  cases applyRebalance n (m.setChild j (inner n)) j leftBro rightBro
      (chooseRebalance n (m.setChild j (inner n)) leftBro rightBro) with
  | none => rfl
  | some x => rfl

/-- A root with two inner children, the left one short. -/
theorem mergeParentRight_outcome {leftBro : Option (InnerNode Node)}
    (hm : Context d P Q (h + 1) lo hi m 0) (hroot : m.isRoot = true ∧ m.nChild = 2)
    (hn : Short d Q h (low lo (m.liveKeys.take 0)) (upp (m.liveKeys.drop 0) hi) n ls)
    (hr : m.childrens 1 = inner r) (hlt : r.nKeys + n.nKeys < 2 * d) :
    ∃ m', applyRebalance n (m.setChild (0 : ℕ) (inner n)) (0 : ℕ) leftBro
        (some r) .mergeParentRight = some (m', true) ∧
      Outcome d Q (h + 1) lo hi m 0 (around m 0 ls) true m' ∧ ∀ w, deleteChild m' 0 true w = w := by
  have hmc := hm.filled.nChild
  have hk1 : m.nKeys = 1 := by omega
  have hj : 0 + 1 < m.nChild := by omega
  obtain ⟨r', hr', hrr, hrf, hrs⟩ := ranged_succ.mp (hm.right_ranged hj)
  obtain rfl : r = r' := inner.inj (hr.symm.trans hr')
  have hs := hn.seps
  rw [low_take_zero, upp_drop (by omega)] at hs
  rw [show 0 + 1 = m.nKeys by omega, upp_drop_last] at hrs
  have hleaves : n.liveChildren.flatMap leaves ++ r.liveChildren.flatMap leaves =
      around m 0 ls := by
    rw [around_right hj hr, hn.leaves, List.drop_of_length_le (by simp; omega)]
    simp
  obtain ⟨m', hres, hout⟩ := @mergeParent_outcome d h 0 Q lo hi m (around m 0 ls) n n r
    (m.setChild (0 : ℕ) (inner n)) ⟨rfl, rfl, rfl, rfl⟩ rfl hroot.1 hm.filled.degree
    (by have := hn.nKeys; have := hrf.le_nKeys; omega) hn.nChild hrf.nChild hn.degree
    hrf.degree hs hrs hleaves
  refine ⟨m', ?_, hout⟩
  simp only [applyRebalance, InnerNode.mergeParentRight, Option.bind_eq_bind,
    Option.bind_some, hres]

/-- A root with two inner children, the right one short. -/
theorem mergeParentLeft_outcome {rightBro : Option (InnerNode Node)}
    (hm : Context d P Q (h + 1) lo hi m 1) (hroot : m.isRoot = true ∧ m.nChild = 2)
    (hn : Short d Q h (low lo (m.liveKeys.take 1)) (upp (m.liveKeys.drop 1) hi) n ls)
    (hl : m.childrens 0 = inner l) (hlt : l.nKeys + n.nKeys < 2 * d) :
    ∃ m', applyRebalance n (m.setChild (1 : ℕ) (inner n)) (1 : ℕ) (some l) rightBro
        .mergeParentLeft = some (m', true) ∧
      Outcome d Q (h + 1) lo hi m 1 (around m 1 ls) true m' ∧ ∀ w, deleteChild m' 1 true w = w := by
  have hmc := hm.filled.nChild
  have hk1 : m.nKeys = 1 := by omega
  obtain ⟨l', hl', hlr, hlf, hls⟩ := ranged_succ.mp (Context.left_ranged hm)
  obtain rfl : l = l' := inner.inj (hl.symm.trans hl')
  have hs := hn.seps
  have hupp : upp (m.liveKeys.drop 1) hi = hi := by
    rw [← hk1]
    exact upp_drop_last
  rw [low_take_succ (by omega), hupp] at hs
  rw [low_take_zero] at hls
  have hleaves : l.liveChildren.flatMap leaves ++ n.liveChildren.flatMap leaves =
      around m 1 ls := by
    rw [around_left (by omega) hl, hn.leaves, List.drop_of_length_le (by simp; omega)]
    simp
  obtain ⟨m', hres, hout⟩ := @mergeParent_outcome d h 1 Q lo hi m (around m 1 ls) n l n
    (m.setChild (1 : ℕ) (inner n)) ⟨rfl, rfl, rfl, rfl⟩ rfl hroot.1 hm.filled.degree
    (by have := hn.nKeys; have := hlf.le_nKeys; omega) hlf.nChild hn.nChild hlf.degree
    hn.degree hls hs hleaves
  refine ⟨m', ?_, hout⟩
  simp only [applyRebalance, InnerNode.mergeParentLeft, Option.bind_eq_bind, Option.bind_some, hres]

theorem rebalance_spec (hm : Context d P Q (h + 1) lo hi m j)
    (hn : Short d Q h (low lo (m.liveKeys.take j)) (upp (m.liveKeys.drop j) hi) n ls)
    (log : List Rebalance) :
    Finished d Q (h + 1) lo hi m j (around m j ls) (finishRemove n j (some m) log) := by
  obtain ⟨leftBro, rightBro, hla, hra, hleft, hright⟩ := brothers hm (inner n)
  rw [finishRemove_of_short hn hla hra]
  have hnd := hn.degree
  have hnk := hn.nKeys
  have hmc := hm.filled.nChild
  have hm1 := hm.filled.le_nKeys
  -- the right brother has keys to spare
  by_cases hR : ∃ r, rightBro = some r ∧ 2 * d ≤ r.nKeys + n.nKeys
  · obtain ⟨r, rfl, hle⟩ := hR
    obtain ⟨hj, hr⟩ : j + 1 < m.nChild ∧ m.childrens (j + 1) = inner r := by
      rcases hright with ⟨h, -⟩ | ⟨r', hr', hj, hc⟩
      · cases h
      · obtain rfl := Option.some.inj hr'
        exact ⟨hj, hc⟩
    have hchoice : chooseRebalance n (m.setChild j (inner n)) leftBro (some r) =
        .redistributeRight :=
      if_pos (by simp [hnd, hle])
    obtain ⟨m', hap, hout⟩ :=
      @redistributeRight_outcome _ _ _ _ _ _ _ _ _ _ _ leftBro hm hj hn hr hle
    rw [hchoice, hap]
    exact ⟨m', rfl, hout, fun w => rfl⟩
  have hR' : ¬ (rightBro.any fun r => r.nKeys + n.nKeys ≥ 2 * n.degree) = true := by
    rcases hright with ⟨rfl, -⟩ | ⟨r, rfl, -⟩
    · simp
    · simpa [hnd] using fun h => hR ⟨r, rfl, h⟩
  -- the left brother has keys to spare
  by_cases hL : ∃ l, leftBro = some l ∧ 2 * d ≤ l.nKeys + n.nKeys
  · obtain ⟨l, rfl, hle⟩ := hL
    have hchoice : chooseRebalance n (m.setChild j (inner n)) (some l) rightBro =
        .redistributeLeft := by
      rw [chooseRebalance, if_neg hR', if_pos (by simp [hnd, hle])]
    rw [hchoice, applyRebalance_redistributeLeft hn hle]
    exact List.mem_append_right _ (List.mem_singleton_self _)
  have hL' : ¬ (leftBro.any fun l => l.nKeys + n.nKeys ≥ 2 * n.degree) = true := by
    rcases hleft with ⟨rfl, -⟩ | ⟨j', l, rfl, -⟩
    · simp
    · simpa [hnd] using fun h => hL ⟨l, rfl, h⟩
  have hmerge : chooseRebalance n (m.setChild j (inner n)) leftBro rightBro =
      if m.isRoot = true ∧ m.nChild = 2 then
        if leftBro.isSome then .mergeParentLeft else .mergeParentRight
      else if rightBro.isSome then .mergeRight else .mergeLeft := by
    rw [chooseRebalance, if_neg hR', if_neg hL']
    rfl
  by_cases hroot : m.isRoot = true ∧ m.nChild = 2
  · -- the root takes over its two children
    rcases hleft with ⟨rfl, rfl⟩ | ⟨j', l, rfl, rfl, hl⟩
    · obtain ⟨r, rfl, hj, hr⟩ := hright.resolve_left (by omega)
      have hchoice : chooseRebalance n (m.setChild (0 : ℕ) (inner n)) none (some r) =
          .mergeParentRight := by
        rw [hmerge, if_pos hroot]
        rfl
      obtain ⟨m', hap, hout⟩ := @mergeParentRight_outcome _ _ _ _ _ _ _ _ _ _ none hm hroot hn hr
        (by by_contra hlt; exact hR ⟨r, rfl, by omega⟩)
      rw [hchoice, hap]
      exact ⟨m', rfl, hout⟩
    · obtain rfl : j' = 0 := by have := hm.lt; omega
      have hchoice : chooseRebalance n (m.setChild ((0 + 1 : ℕ) : ℤ) (inner n)) (some l) rightBro =
          .mergeParentLeft := by
        rw [hmerge, if_pos hroot]
        rfl
      obtain ⟨m', hap, hout⟩ := @mergeParentLeft_outcome _ _ _ _ _ _ _ _ _ _ rightBro hm hroot hn hl
        (by by_contra hlt; exact hL ⟨l, rfl, by omega⟩)
      rw [hchoice, hap]
      exact ⟨m', rfl, hout⟩
  · rcases hright with ⟨rfl, hj⟩ | ⟨r, rfl, hj, hr⟩
    · obtain ⟨j', l, rfl, rfl, hl⟩ := hleft.resolve_left (by omega)
      have hchoice : chooseRebalance n (m.setChild ((j' + 1 : ℕ) : ℤ) (inner n)) (some l) none =
          .mergeLeft := by
        rw [hmerge, if_neg hroot]
        rfl
      obtain ⟨m', hap, hout⟩ := @mergeLeft_outcome _ _ _ _ _ _ _ _ _ _ _ none hm hj hn hl
        (by by_contra hlt; exact hL ⟨l, rfl, by omega⟩) hroot
      rw [hchoice, hap]
      exact ⟨m', rfl, hout⟩
    · have hchoice : chooseRebalance n (m.setChild j (inner n)) leftBro (some r) = .mergeRight := by
        rw [hmerge, if_neg hroot]
        rfl
      obtain ⟨m', hap, hout⟩ := @mergeRight_outcome _ _ _ _ _ _ _ _ _ _ _ leftBro hm hj hn hr
        (by by_contra hlt; exact hR ⟨r, rfl, by omega⟩) hroot
      rw [hchoice, hap]
      exact ⟨m', rfl, hout⟩

end Node

end FPTreeDB
