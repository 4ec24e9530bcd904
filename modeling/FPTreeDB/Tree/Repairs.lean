import FPTreeDB.Tree.Ranged

/-!
# What a repair does to a parent and two of its children

`InnerNode::remove` repairs a node with `d - 1` keys by one of the helpers that
`applyRebalance` calls; the frame of the parent finishes the work (`followUp`): it
takes out the child and its key, or restores `nChild` of a root that was merged with
its two children.

* `redistributeRight_repair`, `mergeRight_repair`, `mergeLeft_repair`: the arrays of
  the parent and the brother afterwards.
* `repairCall_of_choose`: the calls that `remove` makes.
* `repair_keeps_sequence`: helper and clean-up together keep the separators and
  children below the parent in order, stay inside the arrays and leave the nodes
  that remain with `d` to `2 * d` keys.
-/

namespace FPTreeDB

open SepChain

namespace Node

variable {d j : ℕ} {n m r l : InnerNode Node}

/-! ## Two neighbouring slots -/

theorem drop_liveChildren (hj : j + 1 < m.nChild) :
    m.liveChildren.drop (j + 1) = m.childrens (j + 1) :: m.liveChildren.drop (j + 2) := by
  have hlen : j + 1 < m.liveChildren.length := by simpa using hj
  rw [List.drop_eq_getElem_cons hlen]
  congr 1
  exact CArray.getElem_live _ _ _ _

theorem liveChildren_pair (hj : j + 1 < m.nChild) :
    m.liveChildren = m.liveChildren.take j ++
      (m.childrens j :: m.childrens (j + 1) :: m.liveChildren.drop (j + 2)) := by
  have := InnerNode.liveChildren_split (show j < m.nChild by omega)
  rwa [drop_liveChildren hj] at this

theorem set_pair_left {α : Type} {l1 l2 : List α} {x y : α} (c : α) (hl : l1.length = j) :
    (l1 ++ x :: y :: l2).set j c = l1 ++ c :: y :: l2 := by
  subst hl
  simp

theorem set_pair_right {α : Type} {l1 l2 : List α} {x y : α} (c : α) (hl : l1.length = j) :
    (l1 ++ x :: y :: l2).set (j + 1) c = l1 ++ x :: c :: l2 := by
  subst hl
  simp

theorem erase_pair_left {α : Type} {l1 l2 : List α} {x y : α} (hl : l1.length = j) :
    (l1 ++ x :: y :: l2).take j ++ (l1 ++ x :: y :: l2).drop (j + 1) = l1 ++ y :: l2 := by
  subst hl
  simp

theorem erase_pair_right {α : Type} {l1 l2 : List α} {x y : α} (hl : l1.length = j) :
    (l1 ++ x :: y :: l2).take (j + 1) ++ (l1 ++ x :: y :: l2).drop (j + 1 + 1) = l1 ++ x :: l2 := by
  subst hl
  have h2 : l1.length + 1 + 1 = l1.length + 2 := rfl
  rw [List.take_length_add_append, h2, List.drop_length_add_append]
  simp

theorem length_take_liveChildren (hj : j ≤ m.nChild) : (m.liveChildren.take j).length = j := by
  rw [List.length_take, InnerNode.length_liveChildren]
  omega

theorem length_take_liveKeys (hj : j ≤ m.nKeys) : (m.liveKeys.take j).length = j := by
  rw [List.length_take, InnerNode.length_liveKeys]
  omega

/-- The arrays of the parent when the two children at `j` and `j + 1` were exchanged. -/
theorem liveChildren_setPair {c c' : Node} (hj : j + 1 < m.nChild) :
    ((m.setChild (j : ℤ) c).setChild ((j : ℤ) + 1) c').liveChildren =
      m.liveChildren.take j ++ c :: c' :: m.liveChildren.drop (j + 2) := by
  have hlen := @length_take_liveChildren j m (by omega)
  have hcast : ((j : ℤ) + 1) = ((j + 1 : ℕ) : ℤ) := by push_cast; rfl
  rw [hcast, InnerNode.liveChildren_setChild, InnerNode.liveChildren_setChild]
  conv_lhs => rw [liveChildren_pair hj]
  rw [set_pair_left c hlen, set_pair_right c' hlen]

/-- Only `childrens` and `nChild` matter for the list of children. -/
theorem liveChildren_congr {m' : InnerNode Node} (hc : m'.childrens = m.childrens)
    (hn : m'.nChild = m.nChild) : m'.liveChildren = m.liveChildren := by
  rw [InnerNode.liveChildren, InnerNode.liveChildren, hc, hn]

theorem childrens_of_append {l1 l2 : List Node} {c : Node} (h : m.liveChildren = l1 ++ c :: l2)
    (hl : l1.length = j) : m.childrens j = c := by
  have hlt : j < m.nChild := by
    rw [← InnerNode.length_liveChildren, h, ← hl]
    simp
  have hget := InnerNode.getElem?_liveChildren hlt
  rw [h, ← hl] at hget
  subst hl
  simpa using hget.symm

/-- The brothers of the child at slot `j`. -/
theorem getBrother_eq (hj : j < m.nChild) : InnerNode.getBrother j m =
    (if j = 0 then none else some (m.childrens (j - 1)),
      if j + 1 = m.nChild then none else some (m.childrens (j + 1))) := by
  unfold InnerNode.getBrother
  rw [if_neg (by omega)]
  congr 1
  · by_cases h0 : j = 0
    · simp [h0]
    · rw [if_neg (by exact_mod_cast h0), if_neg h0, show ((j : ℤ) - 1).toNat = j - 1 by omega]
  · by_cases h1 : j + 1 = m.nChild
    · rw [if_pos (by omega), if_pos h1]
    · rw [if_neg (by omega), if_neg h1, show ((j : ℤ) + 1).toNat = j + 1 by omega]

theorem of_rightBro {c : Node} (hj : j < m.nChild) (h : (InnerNode.getBrother j m).2 = some c) :
    j + 1 < m.nChild ∧ m.childrens (j + 1) = c := by
  rw [getBrother_eq hj] at h
  dsimp only at h
  split_ifs at h with h1
  exact ⟨by omega, Option.some.inj h⟩

theorem of_leftBro {c : Node} (hj : j < m.nChild) (h : (InnerNode.getBrother j m).1 = some c) :
    ∃ i, j = i + 1 ∧ m.childrens i = c := by
  rw [getBrother_eq hj] at h
  dsimp only at h
  split_ifs at h with h1
  exact ⟨j - 1, by omega, Option.some.inj h⟩

theorem last_of_no_rightBro (hj : j < m.nChild) (h : (InnerNode.getBrother j m).2 = none) :
    j + 1 = m.nChild := by
  by_contra h1
  rw [getBrother_eq hj] at h
  dsimp only at h
  rw [if_neg h1] at h
  cases h

theorem first_of_no_leftBro (hj : j < m.nChild) (h : (InnerNode.getBrother j m).1 = none) :
    j = 0 := by
  by_contra h0
  rw [getBrother_eq hj] at h
  dsimp only at h
  rw [if_neg h0] at h
  cases h

/-! ## The helpers -/

/-- The fields other than the arrays. -/
structure SameFields (m m' : InnerNode Node) : Prop where
  degree : m'.degree = m.degree
  isRoot : m'.isRoot = m.isRoot
  nKeys : m'.nKeys = m.nKeys
  nChild : m'.nChild = m.nChild

theorem SameFields.filled {m' : InnerNode Node} {i : ℕ} (h : SameFields m m') (hm : Filled d i m) :
    Filled d i m' where
  degree := h.degree.trans hm.degree
  le_nKeys := by rw [h.nKeys]; exact hm.le_nKeys
  nKeys_le := by rw [h.nKeys]; exact hm.nKeys_le
  nChild := by rw [h.nChild, h.nKeys]; exact hm.nChild

/-- The fields of a node that has to be repaired. -/
structure Underfull (d : ℕ) (n : InnerNode Node) : Prop where
  degree : n.degree = d
  nKeys : n.nKeys + 1 = d
  nChild : n.nChild = n.nKeys + 1

/-- The keys and children of `a` and `b`, with `k` between them, are those of `a'`
    and `b'` with `k'` between them. -/
structure SamePair (a b : InnerNode Node) (k : Key) (a' b' : InnerNode Node) (k' : Key) : Prop where
  keys : a'.liveKeys ++ k' :: b'.liveKeys = a.liveKeys ++ k :: b.liveKeys
  children : a'.liveChildren ++ b'.liveChildren = a.liveChildren ++ b.liveChildren

/-- `c` holds the keys and children of `a` and `b`, with `k` between them. -/
structure Joined (a b : InnerNode Node) (k : Key) (c : InnerNode Node) : Prop where
  keys : c.liveKeys = a.liveKeys ++ k :: b.liveKeys
  children : c.liveChildren = a.liveChildren ++ b.liveChildren

/-- `moveKeys` of `redistributeRight` leaves both nodes with enough keys. -/
theorem moveKeys_bounds {a b : ℕ} (ha : a + 1 = d) (hb : d + 1 ≤ b) (hb' : b ≤ 2 * d) :
    ∃ mv, mv = (a + b) / 2 - a ∧ 1 ≤ mv ∧ mv ≤ b ∧ d ≤ a + mv ∧ a + mv ≤ 2 * d ∧ d + mv ≤ b :=
  ⟨_, rfl, by omega⟩

theorem redistributeRight_repair (l : Option (InnerNode Node)) (hm : Filled d 0 m)
    (hj : j + 1 < m.nChild) (hn : Underfull d n) (hr : Filled d (d + 1) r) :
    ∃ m' n' r' k', applyRebalance n m j l (some r) .redistributeRight = some (m', false) ∧
      SameFields m m' ∧ m'.liveKeys = m.liveKeys.take j ++ k' :: m.liveKeys.drop (j + 1) ∧
      m'.liveChildren = m.liveChildren.take j ++ inner n' :: inner r' ::
      m.liveChildren.drop (j + 2) ∧
      (Filled d d n' ∧ n'.isRoot = n.isRoot) ∧ (Filled d d r' ∧ r'.isRoot = r.isRoot) ∧
      SamePair n r (m.keys j) n' r' k' := by
  have hmd := hm.degree
  have hmk := hm.nKeys_le
  have hmc := hm.nChild
  have hnd := hn.degree
  have hnk := hn.nKeys
  have hnc := hn.nChild
  have hrd := hr.degree
  have hrk := hr.le_nKeys
  have hrk' := hr.nKeys_le
  have hrc := hr.nChild
  obtain ⟨mv, hmv, hmv1, hmv2, hmv3, hmv4, hmv5⟩ := moveKeys_bounds hnk hrk hrk'
  obtain ⟨t', r', p', hres, t1, t2, t3, t4, t5, t6, r1, r2, r3, r4, r5, r6, hp⟩ :=
    @InnerNode.redistributeRight_spec _ n r m j mv hmv hmv1 hmv2 (by rw [hnd]; exact hmv4)
      (by rw [hrd]; exact hrk') hnc hrc (show j < m.nKeys by omega) (by rw [hmd]; exact hmk)
  clear hmv
  refine ⟨(p'.setChild j (inner t')).setChild (j + 1) (inner r'), t', r', r.keys (mv - 1),
    by simp [applyRebalance, hres], ?_, ?_, ?_, ⟨⟨?_, ?_, ?_, ?_⟩, t2⟩, ⟨⟨?_, ?_, ?_, ?_⟩, r2⟩, ?_⟩
  · exact ⟨by rw [hp]; rfl, by rw [hp]; rfl, by rw [hp]; rfl, by rw [hp]; rfl⟩
  · have hset : ((p'.setChild j (inner t')).setChild (j + 1) (inner r')).liveKeys =
        m.liveKeys.set j (r.keys (mv - 1)) := by
      rw [hp]
      exact CArray.live_update_of_lt _ _
    rw [hset, List.set_eq_take_append_cons_drop, if_pos (by simp; omega)]
  · rw [← liveChildren_setPair hj, hp]
    refine liveChildren_congr ?_ rfl
    simp [InnerNode.setChild]
  · exact t1.trans hnd
  · omega
  · omega
  · omega
  · exact r1.trans hrd
  · omega
  · omega
  · omega
  · have hy := @InnerNode.liveKeys_split _ r (mv - 1) (by omega)
    rw [show mv - 1 + 1 = mv by omega] at hy
    refine ⟨?_, ?_⟩
    · rw [t5, r5, List.append_assoc, List.cons_append, ← hy]
    · rw [t6, r6, List.append_assoc, List.take_append_drop]

theorem mergeRight_repair (l : Option (InnerNode Node)) (hm : Filled d 0 m) (hj : j + 1 < m.nChild)
    (hn : Underfull d n) (hr : Filled d d r) (hk : r.nKeys = d) :
    ∃ m' r', applyRebalance n m j l (some r) .mergeRight = some (m', true) ∧
      SameFields m m' ∧ m'.liveKeys = m.liveKeys ∧
      m'.liveChildren = m.liveChildren.take j ++ m.childrens j :: inner r' ::
      m.liveChildren.drop (j + 2) ∧
      (Filled d d r' ∧ r'.isRoot = r.isRoot) ∧ Joined n r (m.keys j) r' := by
  have hmd := hm.degree
  have hmk := hm.nKeys_le
  have hmc := hm.nChild
  have hnd := hn.degree
  have hnk := hn.nKeys
  have hnc := hn.nChild
  have hrd := hr.degree
  have hrc := hr.nChild
  obtain ⟨r', hres, r1, r2, r3, r4, r5, r6⟩ := @InnerNode.mergeRight_spec _ n r (m.keys j)
    (by omega) hrc hnc (by omega)
  have hread : CArray.read m.keyCap m.keys j = some (m.keys j) :=
    CArray.read_of_lt (show j < 2 * m.degree + 1 by omega)
  refine ⟨m.setChild (j + 1) (inner r'), r', by simp [applyRebalance, hread, hres],
    ⟨rfl, rfl, rfl, rfl⟩,
    rfl, ?_, ⟨⟨r1.trans hrd, by omega, by omega, by omega⟩, r2⟩, ⟨r5, r6⟩⟩
  have hcast : ((j : ℤ) + 1) = ((j + 1 : ℕ) : ℤ) := by push_cast; rfl
  rw [hcast, InnerNode.liveChildren_setChild]
  conv_lhs => rw [liveChildren_pair hj]
  exact set_pair_right _ (length_take_liveChildren (by omega))

theorem mergeLeft_repair (r : Option (InnerNode Node)) (hm : Filled d 0 m) (hj : j + 1 < m.nChild)
    (hn : Underfull d n) (hl : Filled d d l) (hk : l.nKeys = d) :
    ∃ m' l', applyRebalance n m ((j + 1 : ℕ) : ℤ) (some l) r .mergeLeft = some (m', true) ∧
      SameFields m m' ∧ m'.liveKeys = m.liveKeys ∧
      m'.liveChildren =
        m.liveChildren.take j ++ inner l' :: m.childrens (j + 1) :: m.liveChildren.drop (j + 2) ∧
      (Filled d d l' ∧ l'.isRoot = l.isRoot) ∧ Joined l n (m.keys j) l' := by
  have hmd := hm.degree
  have hmk := hm.nKeys_le
  have hmc := hm.nChild
  have hnd := hn.degree
  have hnk := hn.nKeys
  have hnc := hn.nChild
  have hld := hl.degree
  have hlc := hl.nChild
  obtain ⟨l', hres, l1, l2, l3, l4, l5, l6⟩ := @InnerNode.mergeLeft_spec _ n l (m.keys j)
    (by omega) hlc hnc (by omega)
  have hidx : ((j + 1 : ℕ) : ℤ) - 1 = (j : ℤ) := by push_cast; omega
  have hread : CArray.read m.keyCap m.keys j = some (m.keys j) :=
    CArray.read_of_lt (show j < 2 * m.degree + 1 by omega)
  refine ⟨m.setChild (j : ℤ) (inner l'), l', ?_, ⟨rfl, rfl, rfl, rfl⟩, rfl, ?_,
    ⟨⟨l1.trans hld, by omega, by omega, by omega⟩, l2⟩, ⟨l5, l6⟩⟩
  · simp only [applyRebalance, hidx, hread, hres, Option.bind_eq_bind, Option.bind_some]
  · rw [InnerNode.liveChildren_setChild]
    conv_lhs => rw [liveChildren_pair hj]
    exact set_pair_left _ (length_take_liveChildren (by omega))

/-! ## The clean-up by the parent -/

/-- `InnerNode::remove` after the call on the child in slot `pos`, up to the test of
    its own key count (fptree.cpp:246-267): the child is to be deleted or not, and a
    root with `nChild = 0` was merged with its two children. -/
def followUp (n : InnerNode Node) (pos : ℕ) (ifDelete : Bool) : Option (InnerNode Node) :=
  if !ifDelete then some n
  else if n.isRoot ∧ n.nChild = 0 then some { n with nChild := n.nKeys + 1 }
  else n.removeChild (if pos < n.nKeys then pos else pos - 1) pos

/-- The number of the key that goes with the child at `j` when it is taken out. -/
def keyIdx (m : InnerNode Node) (j : ℕ) : ℕ := if j < m.nKeys then j else j - 1

/-- `afterChild` is `followUp` and then the repair of the node itself, unless no
    child was deleted or the root was merged. -/
theorem afterChild_followUp {pos : ℕ} {ifDelete : Bool} {index : ℤ}
    {parent : Option (InnerNode Node)} {log : List Rebalance} :
      afterChild n pos ifDelete index parent log =
      (followUp n pos ifDelete).elim (.error log) fun n' =>
        if ifDelete = false ∨ (n.isRoot ∧ n.nChild = 0) then
          .ok ⟨ifDelete, .inner n', parent.map fun m => m.setChild index (.inner n'), log⟩
        else finishRemove n' index parent log := by
  unfold afterChild followUp
  cases ifDelete with
  | false => simp
  | true =>
    by_cases h : n.isRoot ∧ n.nChild = 0
    · simp [h]
    · simp only [Bool.not_true, Bool.false_eq_true, if_false, if_neg h, false_or, reduceCtorEq]
      cases n.removeChild (if pos < n.nKeys then pos else pos - 1) pos <;> rfl

/-- The child at `j` was taken out of `m`, with its key. -/
structure Deleted (m : InnerNode Node) (j : ℕ) (m' : InnerNode Node) : Prop where
  degree : m'.degree = m.degree
  isRoot : m'.isRoot = m.isRoot
  nKeys : m'.nKeys = m.nKeys - 1
  nChild : m'.nChild = m.nChild - 1
  keys : m'.liveKeys = m.liveKeys.take (keyIdx m j) ++ m.liveKeys.drop (keyIdx m j + 1)
  children : m'.liveChildren = m.liveChildren.take j ++ m.liveChildren.drop (j + 1)

theorem followUp_delete (hm : Filled d 1 m) (hj : j < m.nChild) :
    ∃ m', followUp m j true = some m' ∧ Deleted m j m' := by
  have hmd := hm.degree
  have hm1 := hm.le_nKeys
  have hmk := hm.nKeys_le
  have hmc := hm.nChild
  have hcast : (if j < m.nKeys then (j : ℤ) else j - 1) = (keyIdx m j : ℤ) := by
    unfold keyIdx
    split_ifs <;> omega
  have hkey : keyIdx m j < m.nKeys := by
    unfold keyIdx
    split_ifs <;> omega
  obtain ⟨m', hres, h1, h2, h3, h4, h5, h6⟩ := InnerNode.removeChild_spec hkey hj
    (by unfold InnerNode.keyCap; omega) (by unfold InnerNode.childCap; omega)
  refine ⟨m', ?_, h1, h2, h3, h4, h5, h6⟩
  unfold followUp
  rw [if_neg (by simp), if_neg (by omega), hcast, hres]

theorem afterChild_delete (hm : Filled d 1 m) (hj : j < m.nChild) :
    ∃ m', Deleted m j m' ∧ ∀ index parent log,
      afterChild m j true index parent log = finishRemove m' index parent log := by
  have hmc := hm.nChild
  obtain ⟨m', hres, hdel⟩ := followUp_delete hm hj
  refine ⟨m', hdel, fun index parent log => ?_⟩
  rw [afterChild_followUp, hres, Option.elim_some, if_neg]
  rintro (h | ⟨-, h⟩)
  · cases h
  · omega

/-! ## The sequence below a parent -/

/-- The children of a node with its keys between them. -/
def sequence (n : InnerNode Node) : List (Key ⊕ Node) := weave n.liveKeys n.liveChildren

/-- An inner child is replaced by its own sequence. -/
def expand : Key ⊕ Node → List (Key ⊕ Node)
  | .inr (inner n) => sequence n
  | x => [x]

/-- The separators and children below a parent, in order: the parent's own keys, and
    between them what its children hold. -/
def sequenceBelow (m : InnerNode Node) : List (Key ⊕ Node) := (sequence m).flatMap expand

theorem Joined.sequence {a b c : InnerNode Node} {k : Key} (h : Joined a b k c)
    (ha : a.nChild = a.nKeys + 1) : sequence c = sequence a ++ .inl k :: sequence b := by
  unfold Node.sequence
  rw [h.keys, h.children, weave_join (by simp [ha])]

theorem SamePair.sequence {a b a' b' : InnerNode Node} {k k' : Key} (h : SamePair a b k a' b' k')
    (ha : a.nChild = a.nKeys + 1) (ha' : a'.nChild = a'.nKeys + 1) :
    sequence a' ++ .inl k' :: sequence b' = sequence a ++ .inl k :: sequence b := by
  unfold Node.sequence
  rw [← weave_join (by simp [ha']), ← weave_join (by simp [ha]), h.keys, h.children]

/-- The sequence below a parent, around one of its children. -/
theorem sequenceBelow_child {ks1 ks2 : List Key} {cs1 cs2 : List Node} {a : InnerNode Node}
    (hk : m.liveKeys = ks1 ++ ks2) (hc : m.liveChildren = cs1 ++ inner a :: cs2)
    (hlen : ks1.length = cs1.length) : sequenceBelow m =
      (weave ks1 cs1).flatMap expand ++ (sequence a ++ (weaveTail ks2 cs2).flatMap expand) := by
  unfold sequenceBelow
  rw [Node.sequence, hk, hc, weave_append hlen, weave_cons, List.flatMap_append, List.flatMap_cons]
  rfl

/-- The sequence below a parent, around two neighbouring children. -/
theorem sequenceBelow_pair {ks1 ks2 : List Key} {cs1 cs2 : List Node} {k : Key}
    {a b : InnerNode Node} (hk : m.liveKeys = ks1 ++ k :: ks2)
    (hc : m.liveChildren = cs1 ++ inner a :: inner b :: cs2) (hlen : ks1.length = cs1.length) :
      sequenceBelow m = (weave ks1 cs1).flatMap expand ++
      ((sequence a ++ .inl k :: sequence b) ++ (weaveTail ks2 cs2).flatMap expand) := by
  rw [sequenceBelow_child hk hc hlen, weaveTail, weave_cons]
  simp [expand]

/-! ## Repairs keep the sequence -/

/-- The brother with which `remove` calls a helper: `l` and `r` are its `leftBro` and
    `rightBro`. A redistribution from the left is not among these calls. -/
def BrotherFor (d : ℕ) (m : InnerNode Node) (j : ℕ) (l r : Option (InnerNode Node)) :
    Rebalance → Prop
  | .redistributeRight => ∃ b, (InnerNode.getBrother j m).2 = some (inner b) ∧ r = some b ∧
      Filled d (d + 1) b
  | .mergeRight => ∃ b, (InnerNode.getBrother j m).2 = some (inner b) ∧ r = some b ∧
      Filled d d b ∧ b.nKeys = d
  | .mergeLeft => (InnerNode.getBrother j m).2 = none ∧
      ∃ b, (InnerNode.getBrother j m).1 = some (inner b) ∧ l = some b ∧ Filled d d b ∧ b.nKeys = d
  | .mergeParentLeft => (m.isRoot = true ∧ m.nChild = 2) ∧
      ∃ b, (InnerNode.getBrother j m).1 = some (inner b) ∧ l = some b ∧ Filled d d b ∧ b.nKeys = d
  | .mergeParentRight => (m.isRoot = true ∧ m.nChild = 2) ∧ (InnerNode.getBrother j m).1 = none ∧
      ∃ b, (InnerNode.getBrother j m).2 = some (inner b) ∧ r = some b ∧ Filled d d b ∧ b.nKeys = d
  | .redistributeLeft => False

/-- A call of a helper on the node `n` in slot `j` of `m`. -/
structure RepairCall (d : ℕ) (m : InnerNode Node) (j : ℕ) (n : InnerNode Node)
    (l r : Option (InnerNode Node)) (op : Rebalance) : Prop where
  one_le : 1 ≤ d
  parent : Filled d 0 m
  slot : j < m.nChild
  child : m.childrens j = inner n
  node : Underfull d n
  brother : BrotherFor d m j l r op

theorem asInner_eq_some {o : Option Node} {b : Option (InnerNode Node)} (h : asInner o = some b) :
    o = b.map inner := by
  cases o with
  | none => cases h; rfl
  | some c =>
    cases c with
    | inner a => cases h; rfl
    | uninit => cases h
    | leaf p => cases h

/-- `remove` makes such a call on every short child of a parent with at least two
    children whose others have `d` keys or more, unless it chooses the redistribution
    from the left. -/
theorem repairCall_of_choose {l r : Option (InnerNode Node)} (hd : 1 ≤ d) (hm : Filled d 1 m)
    (hj : j < m.nChild) (hc : m.childrens j = inner n) (hn : Underfull d n)
    (hl : asInner (InnerNode.getBrother j m).1 = some l)
    (hr : asInner (InnerNode.getBrother j m).2 = some r)
    (hfull : ∀ i a, i < m.nChild → i ≠ j → m.childrens i = inner a → Filled d d a)
    (hne : chooseRebalance n m l r ≠ .redistributeLeft) :
    RepairCall d m j n l r (chooseRebalance n m l r) := by
  have hm1 := hm.le_nKeys
  have hmc := hm.nChild
  have hnd := hn.degree
  have hnk := hn.nKeys
  have hl' := asInner_eq_some hl
  have hr' := asInner_eq_some hr
  have hright : ∀ a, r = some a → (InnerNode.getBrother j m).2 = some (inner a) ∧ Filled d d a := by
    rintro a rfl
    obtain ⟨hlt, ha⟩ := of_rightBro hj hr'
    exact ⟨hr', hfull _ _ hlt (by omega) ha⟩
  have hleft : ∀ a, l = some a → (InnerNode.getBrother j m).1 = some (inner a) ∧ Filled d d a := by
    rintro a rfl
    obtain ⟨i, hi, ha⟩ := of_leftBro hj hl'
    exact ⟨hl', hfull i _ (by omega) (by omega) ha⟩
  refine ⟨hd, ⟨hm.degree, Nat.zero_le _, hm.nKeys_le, hmc⟩, hj, hc, hn, ?_⟩
  unfold chooseRebalance at hne ⊢
  cases r with
  | some a =>
    obtain ⟨hbro, hf⟩ := hright a rfl
    by_cases h1 : a.nKeys + n.nKeys ≥ 2 * n.degree
    · rw [if_pos (by simpa using h1)]
      exact ⟨a, hbro, rfl, hf.degree, by omega, hf.nKeys_le, hf.nChild⟩
    · have hak : a.nKeys = d := by
        have := hf.le_nKeys
        omega
      rw [if_neg (by simpa using h1)] at hne ⊢
      split_ifs at hne ⊢ with h2 h3 h4 h5
      · exact absurd rfl hne
      · obtain ⟨x, rfl⟩ := Option.isSome_iff_exists.mp h4
        obtain ⟨hxb, hxf⟩ := hleft x rfl
        have hxk : ¬ x.nKeys + n.nKeys ≥ 2 * n.degree := by simpa using h2
        have := hxf.le_nKeys
        exact ⟨h3, x, hxb, rfl, hxf, by omega⟩
      · rw [Option.not_isSome_iff_eq_none] at h4
        exact ⟨h3, by rw [hl', h4]; rfl, a, hbro, rfl, hf, hak⟩
      · exact ⟨a, hbro, rfl, hf, hak⟩
      · exact absurd rfl h5
  | none =>
    have hlast := last_of_no_rightBro hj hr'
    cases l with
    | none =>
      have := first_of_no_leftBro hj hl'
      omega
    | some x =>
      obtain ⟨hxb, hxf⟩ := hleft x rfl
      have := hxf.le_nKeys
      rw [if_neg (by simp)] at hne ⊢
      by_cases h2 : x.nKeys + n.nKeys ≥ 2 * n.degree
      · rw [if_pos (by simpa using h2)] at hne
        exact absurd rfl hne
      · rw [if_neg (by simpa using h2)]
        by_cases h3 : m.isRoot = true ∧ m.nChild = 2
        · rw [if_pos h3]
          exact ⟨h3, x, hxb, rfl, hxf, by omega⟩
        · rw [if_neg h3]
          exact ⟨hr', x, hxb, rfl, hxf, by omega⟩

/-- A child with `d` to `2 * d` keys and one child more. -/
def FilledChild (d : ℕ) (c : Node) : Prop := ∃ a, c = inner a ∧ Filled d d a

/-- The nodes that remain: the siblings of a redistribution, the brother of a merge
    in the slot where it is after the clean-up, or the root that took over both. -/
def Survivors (d j : ℕ) (m' : InnerNode Node) : Rebalance → Prop
  | .redistributeRight => FilledChild d (m'.childrens j) ∧ FilledChild d (m'.childrens (j + 1))
  | .mergeRight => FilledChild d (m'.childrens j)
  | .mergeLeft => FilledChild d (m'.childrens (j - 1))
  | .mergeParentLeft | .mergeParentRight => m'.nKeys = 2 * d ∧ m'.nChild = 2 * d + 1
  | .redistributeLeft => False

/-- The sequence below the parent after a repair. A root that was merged holds it
    itself. -/
def sequenceAfter (m' : InnerNode Node) : Rebalance → List (Key ⊕ Node)
  | .mergeParentLeft | .mergeParentRight => sequence m'
  | _ => sequenceBelow m'

/-- What a repair and the clean-up by the parent leave behind. -/
structure Repaired (d : ℕ) (m : InnerNode Node) (j : ℕ) (op : Rebalance) (m' : InnerNode Node) :
    Prop where
  sequence : sequenceAfter m' op = sequenceBelow m
  survivors : Survivors d j m' op
  nChild : m'.nChild = m'.nKeys + 1

section Repaired

variable {b : InnerNode Node} {lo ro : Option (InnerNode Node)}

theorem redistributeRight_repaired (h : RepairCall d m j n lo ro .redistributeRight) :
    ∃ m1 del m', applyRebalance n m j lo ro .redistributeRight = some (m1, del) ∧
      followUp m1 j del = some m' ∧ Repaired d m j .redistributeRight m' := by
  obtain ⟨b, hb, rfl, hf⟩ := h.brother
  obtain ⟨hj, hb⟩ := of_rightBro h.slot hb
  have hmc := h.parent.nChild
  obtain ⟨m', n', r', k', hres, hm', hk, hc, hn', hr', hpair⟩ :=
    redistributeRight_repair lo h.parent hj h.node hf
  have hlen := @length_take_liveChildren j m (by omega)
  have hlenk := @length_take_liveKeys j m (by omega)
  refine ⟨m', false, m', hres, rfl, ?_, ?_, ?_⟩
  · have hold := liveChildren_pair hj
    rw [h.child, hb] at hold
    show sequenceBelow m' = sequenceBelow m
    rw [sequenceBelow_pair hk hc (hlenk.trans hlen.symm),
      sequenceBelow_pair (InnerNode.liveKeys_split (by omega)) hold (hlenk.trans hlen.symm),
      hpair.sequence h.node.nChild hn'.1.nChild]
  · have hc' : m'.liveChildren =
        (m.liveChildren.take j ++ [inner n']) ++ inner r' :: m.liveChildren.drop (j + 2) := by
      rw [hc, List.append_assoc]
      rfl
    exact ⟨⟨n', childrens_of_append hc hlen, hn'.1⟩,
      ⟨r', childrens_of_append hc' (by simp [hlen]), hr'.1⟩⟩
  · rw [hm'.nChild, hm'.nKeys, hmc]

/-- The child `c` has taken the place of two neighbouring children. -/
theorem Joined.sequenceBelow {a c m' : InnerNode Node} {i : ℕ} (h : Joined a b (m.keys i) c)
    (ha : a.nChild = a.nKeys + 1) (hm : Filled d 0 m) (hi : i + 1 < m.nChild)
    (hold : m.liveChildren = m.liveChildren.take i ++ inner a :: inner b ::
      m.liveChildren.drop (i + 2))
    (hk : m'.liveKeys = m.liveKeys.take i ++ m.liveKeys.drop (i + 1))
    (hc : m'.liveChildren = m.liveChildren.take i ++ inner c :: m.liveChildren.drop (i + 2)) :
    sequenceBelow m' = sequenceBelow m := by
  have hmc := hm.nChild
  have hlen := @length_take_liveChildren i m (by omega)
  have hlenk := @length_take_liveKeys i m (by omega)
  rw [sequenceBelow_child hk hc (hlenk.trans hlen.symm), h.sequence ha,
    sequenceBelow_pair (InnerNode.liveKeys_split (by omega)) hold (hlenk.trans hlen.symm)]

theorem mergeRight_repaired (h : RepairCall d m j n lo ro .mergeRight) :
    ∃ m1 del m', applyRebalance n m j lo ro .mergeRight = some (m1, del) ∧
      followUp m1 j del = some m' ∧ Repaired d m j .mergeRight m' := by
  obtain ⟨b, hb, rfl, hf, hbk⟩ := h.brother
  obtain ⟨hj, hb⟩ := of_rightBro h.slot hb
  have hmc := h.parent.nChild
  obtain ⟨m1, r', hres, hm1, hk1, hc1, hr', hjoin⟩ :=
    mergeRight_repair lo h.parent hj h.node hf hbk
  have hfill : Filled d 1 m := ⟨h.parent.degree, by omega, h.parent.nKeys_le, hmc⟩
  obtain ⟨m', hdel, hd⟩ := followUp_delete (hm1.filled hfill) (hm1.nChild.symm ▸ h.slot)
  have hlen := @length_take_liveChildren j m (by omega)
  have hkey : keyIdx m1 j = j := if_pos (by rw [hm1.nKeys]; omega)
  have hk := hd.keys
  rw [hkey, hk1] at hk
  have hc := hd.children
  rw [hc1, erase_pair_left hlen] at hc
  have hnk := hd.nKeys
  rw [hm1.nKeys] at hnk
  have hnc := hd.nChild
  rw [hm1.nChild] at hnc
  have hold := liveChildren_pair hj
  rw [h.child, hb] at hold
  refine ⟨m1, true, m', hres, hdel, ?_, ?_, by omega⟩
  · exact hjoin.sequenceBelow h.node.nChild h.parent hj hold hk hc
  · exact ⟨r', childrens_of_append hc hlen, hr'.1⟩

theorem mergeLeft_repaired (h : RepairCall d m j n lo ro .mergeLeft) :
    ∃ m1 del m', applyRebalance n m j lo ro .mergeLeft = some (m1, del) ∧
      followUp m1 j del = some m' ∧ Repaired d m j .mergeLeft m' := by
  obtain ⟨hright, b, hleft, rfl, hf, hbk⟩ := h.brother
  have hslot := h.slot
  have hlast := last_of_no_rightBro hslot hright
  obtain ⟨i, rfl, hb⟩ := of_leftBro hslot hleft
  have hmc := h.parent.nChild
  obtain ⟨m1, l', hres, hm1, hk1, hc1, hl', hjoin⟩ :=
    mergeLeft_repair ro h.parent hslot h.node hf hbk
  have hfill : Filled d 1 m := ⟨h.parent.degree, by omega, h.parent.nKeys_le, hmc⟩
  obtain ⟨m', hdel, hd⟩ := followUp_delete (hm1.filled hfill) (hm1.nChild.symm ▸ hslot)
  have hlen := @length_take_liveChildren i m (by omega)
  -- the deleted child is the last, so its key is the one before it
  have hkey : keyIdx m1 (i + 1) = i := if_neg (by rw [hm1.nKeys]; omega)
  have hk := hd.keys
  rw [hkey, hk1] at hk
  have hc := hd.children
  rw [hc1, erase_pair_right hlen] at hc
  have hnk := hd.nKeys
  rw [hm1.nKeys] at hnk
  have hnc := hd.nChild
  rw [hm1.nChild] at hnc
  have hold := liveChildren_pair hslot
  rw [h.child, hb] at hold
  refine ⟨m1, true, m', hres, hdel, ?_, ?_, by omega⟩
  · exact hjoin.sequenceBelow hf.nChild h.parent hslot hold hk hc
  · exact ⟨l', childrens_of_append hc hlen, hl'.1⟩

/-- The root takes over its two children, `first` and `second`. -/
theorem mergeParent_repaired {self : Node} {first second : InnerNode Node} {op : Rebalance}
    (hm : Filled d 0 m) (hroot : m.isRoot = true ∧ m.nChild = 2)
    (hd1 : first.degree = d) (hd2 : second.degree = d)
    (hk : first.nKeys + second.nKeys + 1 = 2 * d) (hc1 : first.nChild = first.nKeys + 1)
    (hc2 : second.nChild = second.nKeys + 1) (h1 : m.childrens 0 = inner first)
    (h2 : m.childrens 1 = inner second) (hop : op = .mergeParentLeft ∨ op = .mergeParentRight) :
    ∃ m1 m', InnerNode.mergeParent self first second m = some m1 ∧
      followUp m1 j true = some m' ∧ Repaired d m j op m' := by
  have hmd := hm.degree
  have hmc := hm.nChild
  obtain ⟨m1, hres, -, m2, m3, m4, -, m6, m7⟩ :=
    @InnerNode.mergeParent_spec _ self first second m (by omega) hc1 hc2 (by omega) (by omega)
  have hnk : m1.nKeys = 2 * d := by omega
  have hseq : sequence { m1 with nChild := m1.nKeys + 1 } = sequenceBelow m := by
    have hjoin : Joined first second (m.keys 0) { m1 with nChild := m1.nKeys + 1 } := ⟨m6, m7⟩
    have hold : m.liveChildren = [] ++ inner first :: inner second :: [] := by
      rw [liveChildren_pair (show 0 + 1 < m.nChild by omega), h1, h2]
      simp [hroot.2]
    have hkeys : m.liveKeys = [] ++ m.keys 0 :: [] := by
      rw [InnerNode.liveKeys_split (show 0 < m.nKeys by omega),
        List.drop_of_length_le (by simp; omega)]
      rfl
    rw [hjoin.sequence hc1, sequenceBelow_pair hkeys hold rfl]
    simp [weave, weaveTail]
  refine ⟨m1, { m1 with nChild := m1.nKeys + 1 }, hres, ?_, ?_, ?_, rfl⟩
  · unfold followUp
    rw [if_neg (by simp), if_pos ⟨m2.trans hroot.1, m4⟩]
  · rcases hop with rfl | rfl <;> exact hseq
  · have hcount : m1.nKeys = 2 * d ∧ m1.nKeys + 1 = 2 * d + 1 := ⟨hnk, by omega⟩
    rcases hop with rfl | rfl <;> exact hcount

theorem mergeParentLeft_repaired (h : RepairCall d m j n lo ro .mergeParentLeft) :
    ∃ m1 del m', applyRebalance n m j lo ro .mergeParentLeft = some (m1, del) ∧
      followUp m1 j del = some m' ∧ Repaired d m j .mergeParentLeft m' := by
  obtain ⟨hroot, b, hleft, rfl, hf, hbk⟩ := h.brother
  have hslot := h.slot
  have hnk := h.node.nKeys
  obtain ⟨i, rfl, hb⟩ := of_leftBro hslot hleft
  obtain rfl : i = 0 := by omega
  obtain ⟨m1, m', hres, hdel, hrep⟩ :=
    @mergeParent_repaired d (0 + 1) m (inner n) b n .mergeParentLeft
      h.parent hroot hf.degree h.node.degree (by omega) hf.nChild h.node.nChild hb
      h.child (Or.inl rfl)
  refine ⟨m1, true, m', ?_, hdel, hrep⟩
  simp [applyRebalance, InnerNode.mergeParentLeft, hres]

theorem mergeParentRight_repaired (h : RepairCall d m j n lo ro .mergeParentRight) :
    ∃ m1 del m', applyRebalance n m j lo ro .mergeParentRight = some (m1, del) ∧
      followUp m1 j del = some m' ∧ Repaired d m j .mergeParentRight m' := by
  obtain ⟨hroot, hfirst, b, hb, rfl, hf, hbk⟩ := h.brother
  have hnk := h.node.nKeys
  obtain rfl := first_of_no_leftBro h.slot hfirst
  obtain ⟨-, hb⟩ := of_rightBro h.slot hb
  obtain ⟨m1, m', hres, hdel, hrep⟩ := @mergeParent_repaired d 0 m (inner n) n b .mergeParentRight
    h.parent hroot h.node.degree hf.degree (by omega) h.node.nChild hf.nChild h.child
    hb (Or.inr rfl)
  refine ⟨m1, true, m', ?_, hdel, hrep⟩
  simp [applyRebalance, InnerNode.mergeParentRight, hres]

end Repaired

/-- Every helper that `remove` calls, but for the redistribution from the left, stays
    inside the arrays; together with the clean-up by the parent it keeps the separators
    and children below the parent in order. -/
theorem repair_keeps_sequence (d : ℕ) (m : InnerNode Node) (j : ℕ) (n : InnerNode Node)
    (l r : Option (InnerNode Node)) (op : Rebalance) (h : RepairCall d m j n l r op) :
    ∃ m1 del m', applyRebalance n m j l r op = some (m1, del) ∧ followUp m1 j del = some m' ∧
      Repaired d m j op m' := by
  cases op with
  | redistributeRight => exact redistributeRight_repaired h
  | redistributeLeft => exact h.brother.elim
  | mergeParentLeft => exact mergeParentLeft_repaired h
  | mergeParentRight => exact mergeParentRight_repaired h
  | mergeRight => exact mergeRight_repaired h
  | mergeLeft => exact mergeLeft_repaired h

/-- The first child of a root with three children is merged into the second. -/
theorem repair_keeps_sequence_two :
    let n : InnerNode Node := ⟨2, false, 1, 2, fun _ => 5, fun i => leaf ⟨1, i⟩⟩
    let b : InnerNode Node := ⟨2, false, 2, 3, fun i => Fin.ofNat _ (7 + i), fun i => leaf ⟨2, i⟩⟩
    let m : InnerNode Node :=
      ⟨2, true, 2, 3, fun i => Fin.ofNat _ (6 + 4 * i), fun i => inner (if i = 0 then n else b)⟩
    RepairCall 2 m 0 n none (some b) .mergeRight ∧
      ∃ m1 del m', applyRebalance n m (0 : ℕ) none (some b) .mergeRight = some (m1, del) ∧
        followUp m1 0 del = some m' ∧ Repaired 2 m 0 .mergeRight m' := by
  intro n b m
  have h : RepairCall 2 m 0 n none (some b) .mergeRight :=
    { one_le := by decide
      parent := ⟨rfl, by decide, by decide, rfl⟩
      slot := by decide
      child := rfl
      node := ⟨rfl, rfl, rfl⟩
      brother := ⟨b, rfl, rfl, ⟨rfl, by decide, by decide, rfl⟩, rfl⟩ }
  exact ⟨h, repair_keeps_sequence 2 m 0 n none (some b) .mergeRight h⟩

end Node

end FPTreeDB
