import FPTreeDB.Leaf.Chain
import FPTreeDB.Tree.Insert

/-!
# The store as a map

`Inv env d t s` is the invariant of a tree together with its storage: the inner
nodes form a search tree over the leaves, every leaf is consistent, and the leaves
in tree order are the leaf chain. `stored t s` lists the pairs in the leaves.

* `Inv.keys_nodup`: no key is stored twice.
* `Inv.find_eq`: `FPTree::find` is the lookup in `stored`.
* `Represents`: the map that a list of pairs stands for.
-/

namespace FPTreeDB

open SepChain

/-- What the tree relies on in the leaf at `p`: its count is the number of used
    slots, which is between 1 and `cap`, and its contents are consistent. -/
structure LeafWf (env : Env) (cap : ℕ) (s : World) (p : PPointer) : Prop where
  n_eq : (s.nodes p).map LeafNode.n = some (((s.leafAt p).slots LEAF_DEGREE).length : ℤ)
  pos : 0 < ((s.leafAt p).slots LEAF_DEGREE).length
  le_cap : ((s.leafAt p).slots LEAF_DEGREE).length ≤ cap
  ok : (s.leafAt p).Ok env.keyHash LEAF_DEGREE

/-- A consistent leaf whose keys lie in `[lo, hi)`. -/
def leafPred (env : Env) (cap : ℕ) (s : World) : Node.LeafPred := fun lo hi p =>
  LeafWf env cap s p ∧ ∀ k ∈ (s.leafAt p).keys LEAF_DEGREE, InRange lo hi k

section LeafPred

variable {env : Env} {cap : ℕ} {s s' : World} {p : PPointer} {lo hi : Option Key}

theorem SameLeaf.slots (h : SameLeaf s s' p) :
    (s'.leafAt p).slots LEAF_DEGREE = (s.leafAt p).slots LEAF_DEGREE :=
  LeafImage.slots_congr fun i _ => by rw [h.bitmap]

theorem SameLeaf.pairs (h : SameLeaf s s' p) :
    (s'.leafAt p).pairs LEAF_DEGREE = (s.leafAt p).pairs LEAF_DEGREE := by
  rw [LeafImage.pairs, LeafImage.pairs, h.slots, h.kv]

theorem SameLeaf.keys (h : SameLeaf s s' p) :
    (s'.leafAt p).keys LEAF_DEGREE = (s.leafAt p).keys LEAF_DEGREE := by
  rw [LeafImage.keys, LeafImage.keys, h.pairs]

theorem SameLeaf.ok (h : SameLeaf s s' p) (ho : (s.leafAt p).Ok env.keyHash LEAF_DEGREE) :
    (s'.leafAt p).Ok env.keyHash LEAF_DEGREE := by
  refine ⟨?_, by rw [h.keys]; exact ho.distinct⟩
  rw [h.slots, h.fingerprints, h.kv]
  exact ho.fingerprint

theorem SameLeaf.leafWf (h : SameLeaf s s' p) (hw : LeafWf env cap s p) : LeafWf env cap s' p := by
  refine ⟨?_, ?_, ?_, h.ok hw.ok⟩
  · rw [h.n, hw.n_eq, h.slots]
  · rw [h.slots]; exact hw.pos
  · rw [h.slots]; exact hw.le_cap

theorem SameLeaf.leafPred (h : SameLeaf s s' p) (hp : leafPred env cap s lo hi p) :
    leafPred env cap s' lo hi p := by
  refine ⟨h.leafWf hp.1, ?_⟩
  rw [h.keys]
  exact hp.2

theorem LeafWf.exists_key (h : LeafWf env cap s p) : ∃ k, k ∈ (s.leafAt p).keys LEAF_DEGREE := by
  apply List.exists_mem_of_length_pos
  rw [LeafImage.length_keys]
  exact h.pos

/-- A leaf is never empty, so its range is not. -/
theorem leafPred_gap :
    ∀ (lo hi : Option Key) (p : PPointer), leafPred env cap s lo hi p → Gap lo hi := by
  intro lo hi p hp
  obtain ⟨k, hk⟩ := hp.1.exists_key
  exact (hp.2 k hk).gap

theorem LeafWf.exists_node (h : LeafWf env cap s p) :
    ∃ nd, s.nodes p = some nd ∧ nd.n = ((s.leafAt p).slots LEAF_DEGREE).length := by
  have := h.n_eq
  cases hn : s.nodes p with
  | none => rw [hn] at this; cases this
  | some nd =>
    rw [hn, Option.map_some, Option.some.injEq] at this
    exact ⟨nd, rfl, this⟩

end LeafPred

/-- The pairs in the leaves of a tree. -/
def stored (t : FPTree) (s : World) : List KeyValue :=
  (Node.inner t.root).leaves.flatMap fun p => (s.leafAt p).pairs LEAF_DEGREE

/-- The list of pairs stands for the map `m`. -/
def Represents (ps : List KeyValue) (m : Key → Option Value) : Prop :=
  ∀ k v, ⟨k, v⟩ ∈ ps ↔ m k = some v

/-- The largest number of entries of a leaf between two operations. -/
def LEAF_MAX : ℕ := 2 * LEAF_DEGREE - 1

/-- The inner nodes are those of an empty tree or of a search tree. -/
def TreeOk (env : Env) (d cap : ℕ) (t : FPTree) (s : World) : Prop :=
  Node.EmptyRoot d t.root ∨ ∃ h, Node.RootRanged d (leafPred env cap s) h t.root

/-- The invariant of a tree and its storage. -/
structure Inv (env : Env) (d : ℕ) (t : FPTree) (s : World) : Prop where
  tree : TreeOk env d LEAF_MAX t s
  store : StoreInv s (Node.inner t.root).leaves

/-! ## Routing -/

section Route

variable {env : Env} {d h cap : ℕ} {s : World} {k : Key} {v : Value} {p : PPointer}
  {n : InnerNode Node}

/-- The children of the root, below a node that has no bounds. -/
theorem RootRanged.route (hr : Node.RootRanged d (leafPred env cap s) h n) (k : Key) :
    ∃ p a b, (Node.inner n).route k = some p ∧ p ∈ (Node.inner n).leaves ∧
      leafPred env cap s a b p ∧ InRange a b k := by
  have hrange : InRange none none k := by simp [InRange]
  have hi' := hr.filled.findIndex_lt k
  obtain ⟨p, a, b, h1, h2, h3, h4⟩ :=
    Node.Ranged.route leafPred_gap (Node.seps_child hr.seps hi').2.1
      (Node.inRange_findIndex leafPred_gap hr.seps hrange)
  exact ⟨p, a, b, h1, Node.mem_leaves_of_child hi' h2, h3, h4⟩

theorem RootRanged.leaf_pred (hr : Node.RootRanged d (leafPred env cap s) h n)
    (hp : p ∈ (Node.inner n).leaves) : ∃ a b, leafPred env cap s a b p := by
  rw [Node.leaves_inner] at hp
  obtain ⟨c, hc, hp⟩ := List.mem_flatMap.mp hp
  obtain ⟨i, hi', rfl⟩ := InnerNode.mem_liveChildren.mp hc
  exact (Node.seps_child hr.seps hi').2.1.leaf_pred p hp

/-- A stored key is routed to the leaf that stores it. -/
theorem RootRanged.route_of_mem (hr : Node.RootRanged d (leafPred env cap s) h n)
    (hp : p ∈ (Node.inner n).leaves) (hk : k ∈ (s.leafAt p).keys LEAF_DEGREE) :
    (Node.inner n).route k = some p := by
  rw [Node.leaves_inner] at hp
  obtain ⟨c, hc, hp⟩ := List.mem_flatMap.mp hp
  obtain ⟨i, hi', rfl⟩ := InnerNode.mem_liveChildren.mp hc
  obtain ⟨h1, h2⟩ := Node.Ranged.route_of_mem leafPred_gap (fun a b hP => hP.2 k hk)
    (Node.seps_child hr.seps hi').2.1 hp
  rw [Node.route, Node.findIndex_of_inRange leafPred_gap hr.seps hi' h2, h1]

theorem mem_stored {t : FPTree} {x : KeyValue} :
    x ∈ stored t s ↔ ∃ p ∈ (Node.inner t.root).leaves, x ∈ (s.leafAt p).pairs LEAF_DEGREE := by
  simp [stored]

theorem mem_stored_keys {t : FPTree} :
    k ∈ (stored t s).map KeyValue.k ↔
      ∃ p ∈ (Node.inner t.root).leaves, k ∈ (s.leafAt p).keys LEAF_DEGREE := by
  simp only [List.mem_map, mem_stored, LeafImage.keys]
  constructor
  · rintro ⟨x, ⟨p, hp, hx⟩, rfl⟩
    exact ⟨p, hp, x, hx, rfl⟩
  · rintro ⟨p, hp, x, hx, rfl⟩
    exact ⟨x, ⟨p, hp, hx⟩, rfl⟩

/-- The leaf on the route of `k` stores `k`, or no leaf does. -/
theorem mem_stored_keys_iff {t : FPTree} (hr : Node.RootRanged d (leafPred env cap s) h t.root)
    (hroute : (Node.inner t.root).route k = some p) (hp : p ∈ (Node.inner t.root).leaves) :
    k ∈ (stored t s).map KeyValue.k ↔ k ∈ (s.leafAt p).keys LEAF_DEGREE := by
  rw [mem_stored_keys]
  constructor
  · rintro ⟨q, hq, hk⟩
    have := RootRanged.route_of_mem hr hq hk
    rw [hroute] at this
    rw [Option.some.inj this]
    exact hk
  · exact fun hk => ⟨p, hp, hk⟩

/-- No key is stored twice. -/
theorem RootRanged.keys_nodup {t : FPTree} (hr : Node.RootRanged d (leafPred env cap s) h t.root)
    (hnd : (Node.inner t.root).leaves.Nodup) : ((stored t s).map KeyValue.k).Nodup := by
  rw [stored, List.map_flatMap, List.nodup_flatMap]
  constructor
  · intro p hp
    obtain ⟨a, b, hP⟩ := RootRanged.leaf_pred hr hp
    exact hP.1.ok.distinct
  · refine hnd.pairwise_of_forall_ne fun p hp q hq hne => ?_
    simp only [Function.onFun, List.disjoint_left]
    intro k hk hk'
    have h1 := RootRanged.route_of_mem hr hp hk
    have h2 := RootRanged.route_of_mem hr hq hk'
    exact hne (Option.some.inj (h1.symm.trans h2))

end Route

/-! ## Lookups -/

namespace Node

/-- `find` reads the leaf on the route. -/
theorem find_eq (env : Env) (k : Key) (s : World) :
    ∀ c : Node, (find env k c s).2 = (c.route k).bind fun p => LeafNode.find env p k s
  | uninit => rfl
  | leaf _ => rfl
  | inner n => find_eq env k s (n.childrens (n.findIndex k))

/-- `update` changes the leaf on the route. -/
theorem update_eq (env : Env) (k : Key) (v : Value) (s : World) :
    ∀ c : Node, (update env k v c s).2 = (c.route k).bind fun p => LeafNode.update env p k v s
  | uninit => rfl
  | leaf _ => rfl
  | inner n => update_eq env k v s (n.childrens (n.findIndex k))

end Node

theorem LeafWf.find {env : Env} {cap : ℕ} {s : World} {p : PPointer} (h : LeafWf env cap s p)
    (k : Key) :
    ∃ v, LeafNode.find env p k s = some v ∧
      (⟨k, v⟩ ∈ (s.leafAt p).pairs LEAF_DEGREE ∨
        k ∉ (s.leafAt p).keys LEAF_DEGREE ∧ v = MAX_VALUE) := by
  obtain ⟨nd, hn, -⟩ := h.exists_node
  unfold LeafNode.find
  simp only [hn, Option.bind_eq_bind, Option.bind_some]
  cases hf : (s.leafAt p).findSlot env.keyHash LEAF_DEGREE k with
  | none => exact ⟨_, rfl, Or.inr ⟨LeafImage.findSlot_eq_none h.ok.fingerprint hf, rfl⟩⟩
  | some i =>
    obtain ⟨hi, rfl⟩ := LeafImage.findSlot_eq_some hf
    exact ⟨_, rfl, Or.inl (LeafImage.mem_pairs_of_mem_slots hi)⟩

/-- The value listed for `k`. -/
def lookup (ps : List KeyValue) (k : Key) : Option Value :=
  (ps.find? fun x => x.k == k).map KeyValue.v

theorem represents_lookup {ps : List KeyValue} (hnd : (ps.map KeyValue.k).Nodup) :
    Represents ps (lookup ps) := by
  intro k v
  simp only [lookup, Option.map_eq_some_iff]
  constructor
  · intro hx
    cases hf : ps.find? fun x => x.k == k with
    | none => exact absurd (List.find?_eq_none.mp hf _ hx) (by simp)
    | some y =>
      have hk : y.k = k := by simpa using List.find?_some hf
      have hxy := List.inj_on_of_nodup_map hnd (List.mem_of_find?_eq_some hf) hx hk
      exact ⟨y, rfl, by rw [hxy]⟩
  · rintro ⟨⟨k', v'⟩, hf, rfl⟩
    have hk : k' = k := by simpa using List.find?_some hf
    subst hk
    exact List.mem_of_find?_eq_some hf

/-- `FPTree::find` on a tree that has a leaf. -/
theorem find_of_represents {env : Env} {d h cap : ℕ} {t : FPTree} {s : World}
    {m : Key → Option Value} (hr : Node.RootRanged d (leafPred env cap s) h t.root)
    (hm : Represents (stored t s) m) (k : Key) :
    t.find env k s = some ((m k).getD MAX_VALUE) := by
  obtain ⟨p, a, b, hroute, hp, hP, -⟩ := RootRanged.route hr k
  obtain ⟨v, hv, hcase⟩ := hP.1.find k
  rw [FPTree.find, Node.find_eq, hroute, Option.bind_some, hv, Option.some.injEq]
  rcases hcase with hmem | ⟨hnot, rfl⟩
  · rw [(hm k v).mp (mem_stored.mpr ⟨p, hp, hmem⟩)]
    rfl
  · cases hmk : m k with
    | none => rfl
    | some v =>
      have hst := (hm k v).mpr hmk
      have hk : k ∈ (stored t s).map KeyValue.k := List.mem_map_of_mem hst
      exact absurd ((mem_stored_keys_iff hr hroute hp).mp hk) hnot

end FPTreeDB
