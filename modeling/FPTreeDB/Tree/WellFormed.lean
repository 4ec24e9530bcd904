import FPTreeDB.Tree.Map

/-!
# Well-formed trees, node by node

`SearchTree env d cap t s` states what a correct tree is, one node at a time: the keys
of every inner node ascend and separate the keys stored below its children, all
leaves are equally deep, the nodes are filled between their bounds, only the root
is marked as root, and every leaf is consistent. `WellFormed` adds the leaf chain.
They are equivalent to the recursive invariants that the proofs work with.

* `ranged_iff`: the same for a subtree and its key range.
* `searchTree_iff`: the whole tree.
-/

namespace FPTreeDB

open SepChain

namespace Node

/-- The inner nodes of a subtree. -/
def inners : Node → List (InnerNode Node)
  | inner n => n :: (List.range n.nChild).flatMap fun i => inners (n.childrens i)
  | _ => []

/-- The inner nodes below the node `n`. -/
def descendants (n : InnerNode Node) : List (InnerNode Node) :=
  (List.range n.nChild).flatMap fun i => (n.childrens i).inners

/-- Every leaf of the subtree is `h` levels down. -/
def Depth : ℕ → Node → Prop
  | 0, leaf _ => True
  | h + 1, inner n => ∀ i < n.nChild, Depth h (n.childrens i)
  | _, _ => False

/-- The keys in the leaves of a subtree. -/
def storedKeys (s : World) (c : Node) : List Key :=
  c.leaves.flatMap fun p => (s.leafAt p).keys LEAF_DEGREE

/-- The keys of a node ascend, and every key below child `i` is in
    `[keys[i - 1], keys[i])`. -/
structure Separated (s : World) (n : InnerNode Node) : Prop where
  sorted : ∀ i j, i < j → j < n.nKeys → n.keys i < n.keys j
  lower : ∀ i, i + 1 < n.nChild → i < n.nKeys →
    ∀ k ∈ storedKeys s (n.childrens (i + 1)), n.keys i ≤ k
  upper : ∀ i, i < n.nChild → i < n.nKeys → ∀ k ∈ storedKeys s (n.childrens i), k < n.keys i

end Node

/-- A search tree over consistent leaves, which have at most `cap` entries. -/
structure SearchTree (env : Env) (d cap : ℕ) (t : FPTree) (s : World) : Prop where
  separated : ∀ n ∈ t.root :: Node.descendants t.root, Node.Separated s n
  degree : ∀ n ∈ t.root :: Node.descendants t.root, n.degree = d
  nChild_root : t.root.nChild = t.root.nKeys + 1 ∨ (t.root.nKeys = 0 ∧ t.root.nChild = 0)
  only_leaf : t.root.nKeys = 0 → t.root.nChild = 0 ∨ ∃ p, t.root.childrens 0 = .leaf p
  nKeys_root : t.root.nKeys ≤ 2 * d
  nChild : ∀ n ∈ Node.descendants t.root, n.nChild = n.nKeys + 1
  nKeys : ∀ n ∈ Node.descendants t.root, d ≤ n.nKeys ∧ n.nKeys ≤ 2 * d
  isRoot : t.root.isRoot = true ∧ ∀ n ∈ Node.descendants t.root, n.isRoot = false
  depth : ∃ h, Node.Depth (h + 1) (.inner t.root)
  leaf : ∀ p ∈ (Node.inner t.root).leaves, LeafWf env cap s p

/-- A well-formed tree: its leaves are linked and registered with the allocator. -/
structure WellFormed (env : Env) (d cap : ℕ) (t : FPTree) (s : World) : Prop extends
    SearchTree env d cap t s where
  store : StoreInv s (Node.inner t.root).leaves

namespace Node

variable {env : Env} {d h cap : ℕ} {s : World} {lo hi : Option Key} {c : Node}
  {n : InnerNode Node} {k : Key}

/-! ## Bounds, slot by slot -/

/-- A chain over the slots of a node. -/
theorem seps_iff_forall {R : Option Key → Option Key → Node → Prop} :
    Seps R lo n.liveKeys n.liveChildren hi ↔ n.nChild = n.nKeys + 1 ∧
      ∀ i < n.nChild, R (low lo (n.liveKeys.take i)) (upp (n.liveKeys.drop i) hi)
        (n.childrens i) := by
  constructor
  · intro hs
    exact ⟨by simpa using hs.length_eq, fun i hi' => (seps_child hs hi').2.1⟩
  · rintro ⟨hlen, h⟩
    refine seps_of_forall (by simpa using hlen) fun i c hc => ?_
    obtain ⟨hi', -⟩ := List.getElem?_eq_some_iff.mp hc
    rw [InnerNode.length_liveChildren] at hi'
    rw [InnerNode.getElem?_liveChildren hi', Option.some.injEq] at hc
    exact hc ▸ h i hi'

/-- The range of the child at `i`. -/
theorem inRange_slot_iff {i : ℕ} (hn : n.nChild = n.nKeys + 1) (hi' : i < n.nChild)
    (hk : InRange lo hi k) :
    InRange (low lo (n.liveKeys.take i)) (upp (n.liveKeys.drop i) hi) k ↔
      (∀ j, j + 1 = i → n.keys j ≤ k) ∧ (i < n.nKeys → k < n.keys i) := by
  have hlow : (∀ l ∈ low lo (n.liveKeys.take i), l ≤ k) ↔ ∀ j, j + 1 = i → n.keys j ≤ k := by
    cases i with
    | zero =>
      rw [low_take_zero]
      exact ⟨fun _ j hj => by omega, fun _ => hk.1⟩
    | succ i =>
      rw [low_take_succ (by omega)]
      constructor
      · rintro h j hj
        obtain rfl : j = i := by omega
        exact h _ rfl
      · rintro h l hl
        obtain rfl := Option.some.inj hl
        exact h i rfl
  have hupp : (∀ u ∈ upp (n.liveKeys.drop i) hi, k < u) ↔ (i < n.nKeys → k < n.keys i) := by
    by_cases hlt : i < n.nKeys
    · rw [upp_drop hlt]
      constructor
      · exact fun h _ => h _ rfl
      · rintro h u hu
        obtain rfl := Option.some.inj hu
        exact h hlt
    · obtain rfl : i = n.nKeys := by omega
      rw [upp_drop_last]
      exact ⟨fun _ h => absurd h hlt, fun _ => hk.2⟩
  rw [InRange, hlow, hupp]

/-! ## Subtrees -/

theorem mem_inners : n ∈ c.inners ↔ ∃ m, c = inner m ∧ (n = m ∨ n ∈ descendants m) := by
  cases c with
  | inner m => simp [inners, descendants]
  | leaf p => simp [inners]
  | uninit => simp [inners]

theorem mem_descendants {m : InnerNode Node} :
    m ∈ descendants n ↔ ∃ i < n.nChild, m ∈ (n.childrens i).inners := by
  simp [descendants]

theorem mem_storedKeys_inner :
    k ∈ storedKeys s (inner n) ↔ ∃ i < n.nChild, k ∈ storedKeys s (n.childrens i) := by
  simp only [storedKeys, leaves, List.mem_flatMap, List.mem_range]
  constructor
  · rintro ⟨p, ⟨i, hi', hp⟩, hk⟩
    exact ⟨i, hi', p, hp, hk⟩
  · rintro ⟨i, hi', p, hp, hk⟩
    exact ⟨p, ⟨i, hi', hp⟩, hk⟩

/-- An inner node below the root. -/
structure InnerOk (d : ℕ) (s : World) (n : InnerNode Node) : Prop where
  isRoot : n.isRoot = false
  filled : Filled d d n
  separated : Separated s n

/-- The children of a node, from the pieces of a well-formed tree. -/
theorem Separated.seps (hsep : Separated s n) (hn : n.nChild = n.nKeys + 1)
    (hrange : ∀ k ∈ storedKeys s (inner n), InRange lo hi k)
    (hchild : ∀ i < n.nChild, ∀ a b, (∀ k ∈ storedKeys s (n.childrens i), InRange a b k) →
      Ranged d (leafPred env cap s) h a b (n.childrens i)) :
    Seps (Ranged d (leafPred env cap s) h) lo n.liveKeys n.liveChildren hi := by
  rw [seps_iff_forall]
  refine ⟨hn, fun i hi' => hchild i hi' _ _ fun k hk => ?_⟩
  rw [inRange_slot_iff hn hi' (hrange k (mem_storedKeys_inner.mpr ⟨i, hi', hk⟩))]
  constructor
  · rintro j rfl
    exact hsep.lower j hi' (by omega) k hk
  · exact fun hlt => hsep.upper i hi' hlt k hk

/-- The pieces of a well-formed tree, from the chain of a node's children. -/
theorem separated_of_seps
    (hs : Seps (Ranged d (leafPred env cap s) h) lo n.liveKeys n.liveChildren hi)
    (hchild : ∀ a b c, Ranged d (leafPred env cap s) h a b c → ∀ k ∈ storedKeys s c,
      InRange a b k) :
    Separated s n ∧ ∀ k ∈ storedKeys s (inner n), InRange lo hi k := by
  have hsorted := seps_sorted leafPred_gap hs
  obtain ⟨hn, hall⟩ := seps_iff_forall.mp hs
  have hrange : ∀ i < n.nChild, ∀ k ∈ storedKeys s (n.childrens i), InRange lo hi k ∧
      InRange (low lo (n.liveKeys.take i)) (upp (n.liveKeys.drop i) hi) k := fun i hi' k hk => by
    have hslot := hchild _ _ _ (hall i hi') k hk
    refine ⟨inRange_of_child (fun x hx => hsorted.2 x ?_) hslot, hslot⟩
    rwa [List.take_append_drop] at hx
  refine ⟨⟨fun i j hij hj => ?_, fun i hi' hlt k hk => ?_, fun i hi' hlt k hk => ?_⟩,
    fun k hk => ?_⟩
  · have := List.pairwise_iff_getElem.mp hsorted.1 i j (by simp; omega) (by simpa using hj) hij
    simpa [InnerNode.liveKeys] using this
  · obtain ⟨h1, h2⟩ := hrange (i + 1) hi' k hk
    exact ((inRange_slot_iff hn hi' h1).mp h2).1 i rfl
  · obtain ⟨h1, h2⟩ := hrange i hi' k hk
    exact ((inRange_slot_iff hn hi' h1).mp h2).2 hlt
  · obtain ⟨i, hi', hk⟩ := mem_storedKeys_inner.mp hk
    exact (hrange i hi' k hk).1

/-- A subtree on a key range, node by node. -/
theorem ranged_iff : ∀ {h : ℕ} {lo hi : Option Key} {c : Node},
    Ranged d (leafPred env cap s) h lo hi c ↔ Depth h c ∧ (∀ n ∈ c.inners, InnerOk d s n) ∧
      (∀ p ∈ c.leaves, LeafWf env cap s p) ∧ ∀ k ∈ storedKeys s c, InRange lo hi k := by
  intro h
  induction h with
  | zero =>
    intro lo hi c
    rw [ranged_zero]
    constructor
    · rintro ⟨p, rfl, hP⟩
      exact ⟨trivial, by simp [inners], by simpa [leaves] using hP.1,
        by simpa [storedKeys, leaves] using hP.2⟩
    · rintro ⟨hd, -, hl, hk⟩
      cases c with
      | leaf p => exact ⟨p, rfl, hl p (by simp [leaves]), by simpa [storedKeys, leaves] using hk⟩
      | inner n => exact hd.elim
      | uninit => exact hd.elim
  | succ h ih =>
    intro lo hi c
    rw [ranged_succ]
    constructor
    · rintro ⟨n, rfl, hroot, hf, hs⟩
      have hchild := (seps_iff_forall.mp hs).2
      obtain ⟨hsep, hk⟩ := separated_of_seps hs fun a b c hc => (ih.mp hc).2.2.2
      refine ⟨fun i hi' => (ih.mp (hchild i hi')).1, ?_, ?_, hk⟩
      · intro m hm
        rw [mem_inners] at hm
        obtain ⟨n', hn', rfl | hm⟩ := hm
        · obtain rfl := inner.inj hn'
          exact ⟨hroot, hf, hsep⟩
        · obtain rfl := inner.inj hn'
          obtain ⟨i, hi', hm⟩ := mem_descendants.mp hm
          exact (ih.mp (hchild i hi')).2.1 m hm
      · intro p hp
        simp only [leaves, List.mem_flatMap, List.mem_range] at hp
        obtain ⟨i, hi', hp⟩ := hp
        exact (ih.mp (hchild i hi')).2.2.1 p hp
    · rintro ⟨hd, hin, hl, hk⟩
      cases c with
      | leaf p => exact hd.elim
      | uninit => exact hd.elim
      | inner n =>
        have hok := hin n (by simp [inners])
        refine ⟨n, rfl, hok.isRoot, hok.filled, ?_⟩
        refine hok.separated.seps hok.filled.nChild hk fun i hi' a b hkc =>
          ih.mpr ⟨hd i hi', ?_, ?_, hkc⟩
        · intro m hm
          exact hin m (mem_inners.mpr ⟨n, rfl, Or.inr (mem_descendants.mpr ⟨i, hi', hm⟩)⟩)
        · exact fun p hp => hl p (mem_leaves_of_child hi' hp)

end Node

/-! ## The whole tree -/

section

open Node

variable {env : Env} {d cap h : ℕ} {t : FPTree} {s : World}

theorem SearchTree.innerOk (hw : SearchTree env d cap t s) {n : InnerNode Node}
    (hn : n ∈ descendants t.root) : InnerOk d s n := by
  have hmem : n ∈ t.root :: descendants t.root := List.mem_cons_of_mem _ hn
  obtain ⟨h1, h2⟩ := hw.nKeys n hn
  exact ⟨hw.isRoot.2 n hn, ⟨hw.degree n hmem, h1, h2, hw.nChild n hn⟩, hw.separated n hmem⟩

theorem SearchTree.treeOk (hw : SearchTree env d cap t s) : TreeOk env d cap t s := by
  have hself : t.root ∈ t.root :: descendants t.root := List.mem_cons_self
  rcases hw.nChild_root with hn | ⟨h0, h1⟩
  · obtain ⟨h, hdepth⟩ := hw.depth
    refine Or.inr ⟨h, hw.isRoot.1, ⟨hw.degree _ hself, Nat.zero_le _, hw.nKeys_root, hn⟩, ?_, ?_⟩
    · intro h0
      rcases hw.only_leaf h0 with hc | ⟨p, hp⟩
      · omega
      · have h1 := hdepth 0 (by omega)
        rw [hp] at h1
        cases h with
        | zero => rfl
        | succ h => exact h1.elim
    · refine (hw.separated _ hself).seps hn (fun k _ => by simp [InRange]) fun i hi' a b hk => ?_
      refine ranged_iff.mpr ⟨hdepth i hi', fun n hn => hw.innerOk
        (mem_descendants.mpr ⟨i, hi', hn⟩), ?_, hk⟩
      exact fun p hp => hw.leaf p (mem_leaves_of_child hi' hp)
  · exact Or.inl ⟨hw.isRoot.1, hw.degree _ hself, h0, h1⟩

theorem Node.EmptyRoot.searchTree (hr : EmptyRoot d t.root) : SearchTree env d cap t s := by
  have hdesc : descendants t.root = [] := by rw [descendants, hr.nChild]; rfl
  refine ⟨?_, ?_, Or.inr ⟨hr.nKeys, hr.nChild⟩, fun _ => Or.inl hr.nChild, ?_, ?_, ?_,
    ⟨hr.isRoot, ?_⟩,
    ⟨0, ?_⟩, ?_⟩
  · intro n hn
    rw [hdesc, List.mem_singleton] at hn
    subst hn
    refine ⟨fun i j _ hj => ?_, fun i hi' _ => ?_, fun i hi' _ => ?_⟩
    · rw [hr.nKeys] at hj; omega
    · rw [hr.nChild] at hi'; omega
    · rw [hr.nChild] at hi'; omega
  · intro n hn
    rw [hdesc, List.mem_singleton] at hn
    exact hn ▸ hr.degree
  · rw [hr.nKeys]; omega
  · simp [hdesc]
  · simp [hdesc]
  · simp [hdesc]
  · intro i hi'
    rw [hr.nChild] at hi'
    omega
  · simp [hr.leaves_eq]

theorem Node.RootRanged.searchTree (hr : RootRanged d (leafPred env cap s) h t.root) :
    SearchTree env d cap t s := by
  have hchild := fun i hi' => ranged_iff.mp ((seps_iff_forall.mp hr.seps).2 i hi')
  obtain ⟨hsep, -⟩ := separated_of_seps hr.seps fun a b c hc => (ranged_iff.mp hc).2.2.2
  have hdesc : ∀ n ∈ descendants t.root, InnerOk d s n := fun n hn => by
    obtain ⟨i, hi', hn⟩ := mem_descendants.mp hn
    exact (hchild i hi').2.1 n hn
  refine ⟨?_, ?_, Or.inl hr.filled.nChild, ?_, hr.filled.nKeys_le,
    fun n hn => (hdesc n hn).filled.nChild,
    fun n hn => ⟨(hdesc n hn).filled.le_nKeys, (hdesc n hn).filled.nKeys_le⟩,
    ⟨hr.isRoot, fun n hn => (hdesc n hn).isRoot⟩, ⟨h, fun i hi' => (hchild i hi').1⟩, ?_⟩
  · intro n hn
    rcases List.mem_cons.mp hn with rfl | hn
    · exact hsep
    · exact (hdesc n hn).separated
  · intro n hn
    rcases List.mem_cons.mp hn with rfl | hn
    · exact hr.filled.degree
    · exact (hdesc n hn).filled.degree
  · intro h0
    obtain ⟨-, -, -, q, hq, -⟩ := hr.only_leaf h0
    exact Or.inr ⟨q, hq⟩
  · intro p hp
    simp only [leaves, List.mem_flatMap, List.mem_range] at hp
    obtain ⟨i, hi', hp⟩ := hp
    exact (hchild i hi').2.2.1 p hp

/-- The two descriptions of a tree agree. -/
theorem searchTree_iff : SearchTree env d cap t s ↔ TreeOk env d cap t s := by
  constructor
  · exact SearchTree.treeOk
  · rintro (hr | ⟨h, hr⟩)
    · exact hr.searchTree
    · exact hr.searchTree

theorem Inv.wellFormed (hi : Inv env d t s) : WellFormed env d LEAF_MAX t s :=
  ⟨searchTree_iff.mpr hi.tree, hi.store⟩

theorem WellFormed.inv (hw : WellFormed env d LEAF_MAX t s) : Inv env d t s := ⟨hw.treeOk, hw.store⟩

end

end FPTreeDB
