import FPTreeDB.Tree.Ranged

/-!
# Adding a child

`InnerNode::insert` and `InnerNode::insertLeaf` add one key and one child to a
node, split it when it is overfull, and put a new root above a root that was split.
`Grown` describes the node and the `KeyNode` it returns by the lists of keys and
children before the split.

* `addChild_spec`, `splitFull_spec`: the two places where a node grows.
* `Grown.seps`: a node below the root, with the node split off from it.
* `Grown.root`: the root.
-/

namespace FPTreeDB

open SepChain

namespace Node

variable {d h : ℕ} {P Q : LeafPred} {lo hi : Option Key} {n n' : InnerNode Node}
  {up : Option KeyNode} {ks : List Key} {cs : List Node}

/-- The key of a `KeyNode` that goes up, if any. -/
def upKeys (up : Option KeyNode) : List Key := up.toList.map KeyNode.key

/-- The node of a `KeyNode` that goes up, if any. -/
def upNodes (up : Option KeyNode) : List Node := up.toList.map KeyNode.node

@[simp] theorem upKeys_none : upKeys none = [] := rfl
@[simp] theorem upNodes_none : upNodes none = [] := rfl
@[simp] theorem upKeys_some (kn : KeyNode) : upKeys (some kn) = [kn.key] := rfl
@[simp] theorem upNodes_some (kn : KeyNode) : upNodes (some kn) = [kn.node] := rfl

/-- A node with the keys `ks` and children `cs` has become `n'` and the nodes in
    `up`. -/
inductive Grown (d : ℕ) (r : Bool) (ks : List Key) (cs : List Node) (n' : InnerNode Node) :
    Option KeyNode → Prop
  | fits (hr : n'.isRoot = r) (hf : Filled d 0 n') (hk : n'.liveKeys = ks)
      (hc : n'.liveChildren = cs) : Grown d r ks cs n' none
  | split (key : Key) (m : InnerNode Node) (hr : n'.isRoot = r) (hf : Filled d d n')
      (hmr : m.isRoot = false) (hm : Filled d d m) (hk : ks = n'.liveKeys ++ key :: m.liveKeys)
      (hc : cs = n'.liveChildren ++ m.liveChildren) : Grown d r ks cs n' (some ⟨key, inner m⟩)

/-- Appending a key and a child. -/
theorem pushKeyNode_spec {kn : KeyNode} (hk : n.nKeys < n.keyCap) (hc : n.nChild < n.childCap) :
    ∃ n', pushKeyNode n kn = some n' ∧ n'.degree = n.degree ∧ n'.isRoot = n.isRoot ∧
      n'.nKeys = n.nKeys + 1 ∧ n'.nChild = n.nChild + 1 ∧ n'.liveKeys = n.liveKeys ++ [kn.key] ∧
      n'.liveChildren = n.liveChildren ++ [kn.node] := by
  obtain ⟨n1, h1, e1, k1⟩ := InnerNode.pushKey_spec kn.key hk
  obtain ⟨n2, h2, e2, k2⟩ := @InnerNode.pushChild_spec _ n1 kn.node (by rw [e1]; exact hc)
  have hkeys : n2.liveKeys = n1.liveKeys := by rw [e2]; rfl
  have hchildren : n1.liveChildren = n.liveChildren := by rw [e1]; rfl
  refine ⟨n2, ?_, ?_, ?_, ?_, ?_, by rw [hkeys, k1], by rw [k2, hchildren]⟩
  · simp [pushKeyNode, h1, h2]
  all_goals rw [e2, e1]

theorem splitFull_spec (hd : n.degree = d) (hk : n.nKeys ≤ 2 * d + 1)
    (hc : n.nChild = n.nKeys + 1) :
    ∃ n' up, splitFull n = some (n', up) ∧ Grown d n.isRoot n.liveKeys n.liveChildren n' up := by
  unfold splitFull
  by_cases hfull : n.nKeys > 2 * n.degree
  · obtain ⟨n', m, key, hs, h1, h2, h3, h4, h5, h6, h7, h8, h9, h10⟩ :=
      @InnerNode.split_spec _ n _ (by omega) (by omega)
    rw [if_pos hfull, hs]
    refine ⟨n', some ⟨key, inner m⟩, rfl, ?_⟩
    subst hd
    exact .split key m h3 ⟨h1, h5.ge, by omega, by omega⟩ h4 ⟨h2, h6.ge, by omega, by omega⟩ h9 h10
  · rw [if_neg hfull]
    exact ⟨n, none, rfl, .fits rfl ⟨hd, Nat.zero_le _, by omega, hc⟩ rfl rfl⟩

theorem addChild_eq {env : Env} {kn : KeyNode} :
    addChild env n (some kn) =
      (n.insertNonFull (kn.node.nKeysField env) kn.key kn.node).bind splitFull := rfl

/-- The returned key and node go right of the keys that are `≤` the key. -/
theorem addChild_spec {env : Env} {kn : KeyNode} {m : ℕ} (hf : Filled d m n)
    (h0 : kn.node.nKeysField env ≠ 0) :
    ∃ n' up, addChild env n (some kn) = some (n', up) ∧
      Grown d n.isRoot
        (n.liveKeys.take (n.findIndex kn.key) ++ kn.key :: n.liveKeys.drop (n.findIndex kn.key))
        (n.liveChildren.take (n.findIndex kn.key + 1) ++
          kn.node :: n.liveChildren.drop (n.findIndex kn.key + 1)) n' up := by
  have hd := hf.degree
  have hle := hf.nKeys_le
  obtain ⟨n1, hi, h1, h2, h3, h4, h5, h6⟩ :=
    @InnerNode.insertNonFull_spec _ n _ kn.key kn.node h0 (by omega) hf.nChild
  have hc := hf.nChild
  obtain ⟨n', up, hs, hg⟩ := @splitFull_spec d n1 (by omega) (by omega) (by omega)
  refine ⟨n', up, by rw [addChild_eq, hi, Option.bind_some, hs], ?_⟩
  rwa [h2, h5, h6] at hg

/-! ## Below the root -/

theorem growRoot_of_not_root {newRoot : Option (InnerNode Node)} (hr : n.isRoot = false) :
    growRoot n up newRoot = some ⟨up, .inner n, newRoot⟩ := by
  unfold growRoot
  cases up with
  | none => rfl
  | some kn => simp [hr]

/-- The node and the one split off from it, as neighbours. -/
theorem Grown.seps (hg : Grown d false ks cs n' up) (hd : d ≤ ks.length)
    (hs : Seps (Ranged d Q h) lo ks cs hi) :
    Seps (Ranged d Q (h + 1)) lo (upKeys up) (inner n' :: upNodes up) hi := by
  cases hg with
  | fits hr hf hk hc =>
    subst hk hc
    rw [upKeys_none, upNodes_none, seps_singleton]
    rw [InnerNode.length_liveKeys] at hd
    exact ⟨hr, ⟨hf.degree, hd, hf.nKeys_le, hf.nChild⟩, hs⟩
  | split key m hr hf hmr hm hk hc =>
    subst hk hc
    rw [seps_append (by simp [hf.nChild])] at hs
    rw [upKeys_some, upNodes_some, seps_pair]
    exact ⟨⟨hr, hf, hs.1⟩, ⟨hmr, hm, hs.2⟩⟩

theorem Grown.leaves {r : Bool} (hg : Grown d r ks cs n' up) :
    (inner n' :: upNodes up).flatMap leaves = cs.flatMap leaves := by
  cases hg with
  | fits hr hf hk hc => subst hc; simp [leaves_inner]
  | split key m hr hf hmr hm hk hc => subst hc; simp [leaves_inner]

/-- An inner node that goes up has keys. -/
theorem Grown.nKeysField_ne_zero {env : Env} {r : Bool} {kn : KeyNode} (hd : 1 ≤ d)
    (hg : Grown d r ks cs n' (some kn)) : kn.node.nKeysField env ≠ 0 := by
  cases hg with
  | split key m hr hf hmr hm hk hc =>
    have := hm.le_nKeys
    simp only [nKeysField]
    omega

/-! ## The root -/

/-- A root that was split gets a new root above it. -/
theorem growRoot_of_root {kn : KeyNode} {newRoot : Option (InnerNode Node)} (hr : n.isRoot = true) :
    ∃ root, growRoot n (some kn) newRoot =
        some ⟨none, inner { n with isRoot := false }, some root⟩ ∧ root.isRoot = true ∧
      root.degree = n.degree ∧ root.nKeys = 1 ∧ root.nChild = 2 ∧ root.liveKeys = [kn.key] ∧
      root.liveChildren = [inner { n with isRoot := false }, kn.node] := by
  obtain ⟨r1, h1, e1, k1⟩ :=
    @InnerNode.pushKey_spec _ (InnerNode.create n.degree true : InnerNode Node)
      kn.key (by simp [InnerNode.create, InnerNode.keyCap])
  obtain ⟨r2, h2, e2, k2⟩ := @InnerNode.pushChild_spec _ r1 (inner { n with isRoot := false })
    (by rw [e1]; simp [InnerNode.create, InnerNode.childCap])
  obtain ⟨r3, h3, e3, k3⟩ := @InnerNode.pushChild_spec _ r2 kn.node
    (by rw [e2, e1]; simp [InnerNode.create, InnerNode.childCap])
  refine ⟨r3, ?_, ?_, ?_, ?_, ?_, ?_, ?_⟩
  · unfold growRoot
    simp [hr, h1, h2, h3]
  · rw [e3, e2, e1]; rfl
  · rw [e3, e2, e1]; rfl
  · rw [e3, e2, e1]; rfl
  · rw [e3, e2, e1]; rfl
  · have : r3.liveKeys = r1.liveKeys := by rw [e3, e2]; rfl
    rw [this, k1]; rfl
  · have : r1.liveChildren = [] := by rw [e1]; rfl
    rw [k3, k2, this]; rfl

/-- The tree after `insert` or `insertLeaf` on the root. -/
theorem Grown.root (hg : Grown d true ks cs n' up) (hd : 1 ≤ d) (hh : ks = [] → h = 0)
    (hs : Seps (Ranged d Q h) none ks cs none) (t : FPTree) :
    ∃ r t' h', growRoot n' up none = some r ∧ t.afterInsert r = some t' ∧ t'.degree = t.degree ∧
      RootRanged d Q h' t'.root ∧ (inner t'.root).leaves = cs.flatMap Node.leaves := by
  cases hg with
  | fits hr hf hk hc =>
    subst hk hc
    refine ⟨⟨none, inner n', none⟩, { t with root := n' }, h, rfl, rfl, rfl, ⟨hr, hf, ?_, hs⟩,
      leaves_inner n'⟩
    intro h0
    exact hh (List.eq_nil_of_length_eq_zero (by simpa using h0))
  | split key m hr hf hmr hm hk hc =>
    subst hk hc
    rw [seps_append (by simp [hf.nChild])] at hs
    obtain ⟨root, hgr, h1, h2, h3, h4, h5, h6⟩ :=
      @growRoot_of_root n' ⟨key, inner m⟩ none hr
    refine ⟨_, { t with root := root }, h + 1, hgr, rfl, rfl, ⟨h1, ?_, ?_, ?_⟩, ?_⟩
    · exact ⟨h2.trans hf.degree, Nat.zero_le _, by dsimp only; omega, by dsimp only; omega⟩
    · intro h0
      simp [h3] at h0
    · rw [h5, h6, seps_pair]
      exact ⟨⟨rfl, ⟨hf.degree, hf.le_nKeys, hf.nKeys_le, hf.nChild⟩, hs.1⟩, ⟨hmr, hm, hs.2⟩⟩
    · rw [leaves_inner, h6]
      simp [leaves_inner]
      rfl

end Node

end FPTreeDB
