import FPTreeDB.Leaf.Split
import FPTreeDB.Tree.Store

/-!
# The leaf methods on a consistent leaf

What `LeafNode::insert`, `update` and `remove` do to the chain, to the pairs in the
leaf and to the key range it is responsible for, when the leaf is consistent.

* `LeafWf.insert`, `LeafWf.insert_some`: an insertion, with the split of a leaf
  that became full.
* `LeafWf.update`.
* `LeafWf.remove`.
* `insert_keeps_iff`: what becomes of a leaf that is full already.
-/

namespace FPTreeDB

open SepChain PAllocator Node

/-- The pairs of the leaves in a list. -/
def pairsOf (s : World) (l : List PPointer) : List KeyValue :=
  l.flatMap fun p => (s.leafAt p).pairs LEAF_DEGREE

theorem pairsOf_congr {s s' : World} {l : List PPointer} (h : ∀ q ∈ l, SameLeaf s s' q) :
    pairsOf s' l = pairsOf s l :=
  List.flatMap_congr fun q hq => (h q hq).pairs

/-- The leaf that a `KeyNode` of an insertion brings is not taken for an empty node. -/
theorem nKeysField_leaf_ne_zero (env : Env) {q : PPointer} (hq : Aligned q) :
    (Node.leaf q).nKeysField env ≠ 0 := by
  obtain ⟨i, hi, hq⟩ := hq
  -- the mapping is page-aligned and no leaf of a group starts on a page boundary
  have hpage : ∀ i < 16, (24 + i * 1934) % 4096 ≠ 0 := by decide
  have h0 := hpage i hi
  have hoff : q.offset = 24 + i * 1934 := congrArg PPointer.offset hq
  obtain ⟨c, hc⟩ := env.pmemAddr_aligned q.fileId
  intro h
  rw [Node.nKeysField, hc, hoff] at h
  have hmod : (4096 * c + (24 + i * 1934)) % 4096 = 0 := by
    rw [← Nat.mod_mod_of_dvd _ (show 4096 ∣ 2 ^ 32 by decide), h]
  rw [Nat.mul_add_mod] at hmod
  exact h0 hmod

section Insert

variable {env : Env} {s s1 : World} {l1 l2 : List PPointer} {p : PPointer} {k : Key} {v : Value}
  {nc : Option (Key × PPointer)}

/-- The effect of an insertion into the leaf at `p`. -/
structure LeafInserted (env : Env) (s : World) (l1 : List PPointer) (p : PPointer)
    (l2 : List PPointer) (k : Key) (v : Value) (nc : Option (Key × PPointer))
    (s1 : World) : Prop where
  store : StoreInv s1 (l1 ++ (newLeaves p nc ++ l2))
  pairs : (pairsOf s1 (newLeaves p nc)).Perm (⟨k, v⟩ :: (s.leafAt p).pairs LEAF_DEGREE)
  same : ∀ q ∈ l1 ++ l2, SameLeaf s s1 q
  leaf : ∀ a b, leafPred env LEAF_MAX s a b p → InRange a b k → ∀ d,
    Seps (Ranged d (leafPred env LEAF_MAX s1) 0) a (upKeys (leafKeyNode nc))
      (Node.leaf p :: upNodes (leafKeyNode nc)) b
  count : (nc = none ∧ ((s1.leafAt p).slots LEAF_DEGREE).length =
      ((s.leafAt p).slots LEAF_DEGREE).length + 1) ∨
    ∃ x, nc = some x ∧ ((s1.leafAt p).slots LEAF_DEGREE).length = LEAF_DEGREE ∧
      ((s1.leafAt x.2).slots LEAF_DEGREE).length = LEAF_DEGREE
  disk : DiskInv s → DiskInv s1
  allocInv : AllocInv s → AllocInv s1

/-- The leaf after `insertNonFull`. -/
def World.fillSlot (env : Env) (s : World) (p : PPointer) (nd : LeafNode) (k : Key) (v : Value) :
    World :=
  s.edit p ((s.leafAt p).insertAt env.keyHash ((s.leafAt p).findFirstZero LEAF_DEGREE) k v)
    { nd with n := nd.n + 1 }

theorem insert_eq {sys : Sys} {nd : LeafNode} (hn : s.nodes p = some nd)
    (hfree : (s.leafAt p).findFirstZero LEAF_DEGREE < LEAF_DEGREE * 2) :
    LeafNode.insert env sys p k v s =
      if nd.n + 1 ≥ LEAF_DEGREE * 2 then LeafNode.split sys p (s.fillSlot env p nd k v)
      else some (none, s.fillSlot env p nd k v) := by
  have hnode : (s.fillSlot env p nd k v).nodes p = some { nd with n := nd.n + 1 } := edit_nodes_self
  unfold LeafNode.insert
  rw [insertNonFull_eq hn, if_neg (by omega)]
  simp only [Option.bind_eq_bind, Option.bind_some]
  show ((s.fillSlot env p nd k v).nodes p).bind _ = _
  rw [hnode, Option.bind_some]
  rfl

/-- The leaf after `insertNonFull` is consistent but may be full. -/
structure Filled1 (env : Env) (s : World) (p : PPointer) (k : Key) (v : Value) (s1 : World) :
    Prop where
  ok : (s1.leafAt p).Ok env.keyHash LEAF_DEGREE
  pairs : ((s1.leafAt p).pairs LEAF_DEGREE).Perm (⟨k, v⟩ :: (s.leafAt p).pairs LEAF_DEGREE)
  length : ((s1.leafAt p).slots LEAF_DEGREE).length = ((s.leafAt p).slots LEAF_DEGREE).length + 1
  n_eq : (s1.nodes p).map LeafNode.n = some (((s1.leafAt p).slots LEAF_DEGREE).length : ℤ)

/-- `insertNonFull` finds a slot and adds the pair. -/
theorem fillSlot_pairs {nd : LeafNode} (hlen : ((s.leafAt p).slots LEAF_DEGREE).length ≤ LEAF_MAX) :
    (s.leafAt p).findFirstZero LEAF_DEGREE < LEAF_DEGREE * 2 ∧
      (((s.fillSlot env p nd k v).leafAt p).pairs LEAF_DEGREE).Perm
        (⟨k, v⟩ :: (s.leafAt p).pairs LEAF_DEGREE) := by
  have hfree : (s.leafAt p).findFirstZero LEAF_DEGREE < LEAF_DEGREE * 2 := by
    refine LeafImage.findFirstZero_lt ?_
    simp only [LEAF_MAX, LEAF_DEGREE] at *
    omega
  have hleaf : (s.fillSlot env p nd k v).leafAt p = (s.leafAt p).insertAt env.keyHash
      ((s.leafAt p).findFirstZero LEAF_DEGREE) k v := edit_leafAt_self
  refine ⟨hfree, ?_⟩
  rw [hleaf]
  exact LeafImage.pairs_insertAt hfree (LeafImage.findFirstZero_spec hfree)

theorem fillSlot_length {nd : LeafNode}
    (hlen : ((s.leafAt p).slots LEAF_DEGREE).length ≤ LEAF_MAX) :
    (((s.fillSlot env p nd k v).leafAt p).slots LEAF_DEGREE).length =
      ((s.leafAt p).slots LEAF_DEGREE).length + 1 := by
  have := (@fillSlot_pairs env s p k v nd hlen).2.length_eq
  rwa [List.length_cons, LeafImage.length_pairs, LeafImage.length_pairs] at this

theorem fillSlot_n {nd : LeafNode} (hlen : ((s.leafAt p).slots LEAF_DEGREE).length ≤ LEAF_MAX)
    (hnn : nd.n = ((s.leafAt p).slots LEAF_DEGREE).length) :
    ((s.fillSlot env p nd k v).nodes p).map LeafNode.n =
      some ((((s.fillSlot env p nd k v).leafAt p).slots LEAF_DEGREE).length : ℤ) := by
  have hnode : (s.fillSlot env p nd k v).nodes p = some { nd with n := nd.n + 1 } := edit_nodes_self
  rw [hnode, fillSlot_length hlen, Option.map_some, hnn]
  push_cast
  rfl

/-- The other leaves keep their entries. -/
theorem fillSlot_same {nd : LeafNode} (hst : StoreInv s (l1 ++ p :: l2)) :
    ∀ q ∈ l1 ++ l2, SameLeaf s (s.fillSlot env p nd k v) q := hst.edit_same

theorem fillSlot_spec {nd : LeafNode} (hok : (s.leafAt p).Ok env.keyHash LEAF_DEGREE)
    (hlen : ((s.leafAt p).slots LEAF_DEGREE).length ≤ LEAF_MAX)
    (hnn : nd.n = ((s.leafAt p).slots LEAF_DEGREE).length)
    (hk : k ∉ (s.leafAt p).keys LEAF_DEGREE) :
    (s.leafAt p).findFirstZero LEAF_DEGREE < LEAF_DEGREE * 2 ∧
      Filled1 env s p k v (s.fillSlot env p nd k v) := by
  obtain ⟨hfree, hpairs⟩ := @fillSlot_pairs env s p k v nd hlen
  have hleaf : (s.fillSlot env p nd k v).leafAt p = (s.leafAt p).insertAt env.keyHash
      ((s.leafAt p).findFirstZero LEAF_DEGREE) k v := edit_leafAt_self
  refine ⟨hfree, ?_, hpairs, fillSlot_length hlen, fillSlot_n hlen hnn⟩
  rw [hleaf]
  exact hok.insertAt hfree (LeafImage.findFirstZero_spec hfree) hk

theorem Filled1.keys {k' : Key} (h : Filled1 env s p k v s1) :
    k' ∈ (s1.leafAt p).keys LEAF_DEGREE ↔ k' = k ∨ k' ∈ (s.leafAt p).keys LEAF_DEGREE := by
  rw [LeafImage.keys, (h.pairs.map _).mem_iff, List.map_cons, List.mem_cons]
  rfl

/-- The new key is in the range of the leaf. -/
theorem Filled1.inRange {a b : Option Key} (h : Filled1 env s p k v s1)
    (hP : leafPred env LEAF_MAX s a b p) (hab : InRange a b k) :
    ∀ k' ∈ (s1.leafAt p).keys LEAF_DEGREE, InRange a b k' := by
  intro k' hk'
  rcases h.keys.mp hk' with rfl | hk'
  · exact hab
  · exact hP.2 k' hk'

/-- No split. -/
theorem Filled1.inserted {nd : LeafNode} (hst : StoreInv s (l1 ++ p :: l2))
    (hn : s.nodes p = some nd) (h : Filled1 env s p k v (s.fillSlot env p nd k v))
    (hroom : ((s.leafAt p).slots LEAF_DEGREE).length + 1 ≤ LEAF_MAX) :
    LeafInserted env s l1 p l2 k v none (s.fillSlot env p nd k v) := by
  have hp : p ∈ l1 ++ p :: l2 := by simp
  refine ⟨?_, ?_, ?_, ?_, Or.inl ⟨rfl, h.length⟩, fun hd => hd.edit,
    fun hi => hi.congr edit_sameHeads⟩
  · exact hst.edit hn rfl rfl rfl
  · simpa [pairsOf, newLeaves] using h.pairs
  · exact fillSlot_same hst
  · intro a b hP hab d
    refine seps_singleton.mpr ⟨⟨h.n_eq, by rw [h.length]; omega,
      by rw [h.length]; exact hroom, h.ok⟩, ?_⟩
    exact h.inRange hP hab

/-- The two halves of a full leaf. -/
theorem SplitLeaf.halves {q : PPointer} (h : SplitLeaf s l1 p q l2 s1)
    (hok : (s.leafAt p).Ok env.keyHash LEAF_DEGREE)
    (hfull : ((s.leafAt p).slots LEAF_DEGREE).length = LEAF_DEGREE * 2) :
    let mid := (s.leafAt p).findSplitKey LEAF_DEGREE
    (LeafWf env LEAF_MAX s1 p ∧ LeafWf env LEAF_MAX s1 q ∧
      ((s1.leafAt p).slots LEAF_DEGREE).length = LEAF_DEGREE ∧
      ((s1.leafAt q).slots LEAF_DEGREE).length = LEAF_DEGREE) ∧
    ((s1.leafAt p).pairs LEAF_DEGREE ++ (s1.leafAt q).pairs LEAF_DEGREE).Perm
      ((s.leafAt p).pairs LEAF_DEGREE) ∧
    (∀ k ∈ (s1.leafAt p).keys LEAF_DEGREE, k ∈ (s.leafAt p).keys LEAF_DEGREE ∧ k < mid) ∧
    ∀ k ∈ (s1.leafAt q).keys LEAF_DEGREE, k ∈ (s.leafAt p).keys LEAF_DEGREE ∧ mid ≤ k := by
  intro mid
  have hL : 0 < LEAF_DEGREE := by decide
  have hpart := @LeafImage.partition_split _ _ LeafImage.zero q hL hfull hok.distinct
  rw [← h.leaf_old, ← h.leaf_new] at hpart
  have hold := hpart.length_old
  have hnew := hpart.length_new
  have hmax : LEAF_DEGREE ≤ LEAF_MAX := by decide
  have hpairs : ((s1.leafAt p).pairs LEAF_DEGREE ++ (s1.leafAt q).pairs LEAF_DEGREE).Perm
      ((s.leafAt p).pairs LEAF_DEGREE) := by
    rw [h.leaf_old, h.leaf_new, LeafImage.pairs_splitOld hfull, LeafImage.pairs_splitNew hfull]
    exact List.perm_append_comm.trans (List.filter_append_perm _ _)
  have hkeys := hpairs.map KeyValue.k
  rw [List.map_append] at hkeys
  refine ⟨⟨⟨?_, ?_, ?_, ?_⟩, ⟨?_, ?_, ?_, ?_⟩, hold, hnew⟩, hpairs, ?_, ?_⟩
  · rw [h.n_old, hold]
  · rw [hold]; exact hL
  · rw [hold]; exact hmax
  · rw [h.leaf_old]; exact LeafImage.Ok.splitOld hfull hok
  · rw [h.n_new, hnew]
  · rw [hnew]; exact hL
  · rw [hnew]; exact hmax
  · rw [h.leaf_new]; exact LeafImage.Ok.splitNew hfull hok
  · intro k hk
    exact ⟨hkeys.mem_iff.mp (List.mem_append_left _ hk), hpart.below k hk⟩
  · intro k hk
    exact ⟨hkeys.mem_iff.mp (List.mem_append_right _ hk), hpart.above k hk⟩

theorem SplitLeaf.inserted {nd : LeafNode} {q : PPointer}
    (hst : StoreInv s (l1 ++ p :: l2)) (h : Filled1 env s p k v (s.fillSlot env p nd k v))
    (hfull : ((s.leafAt p).slots LEAF_DEGREE).length + 1 = LEAF_DEGREE * 2)
    (hs : SplitLeaf (s.fillSlot env p nd k v) l1 p q l2 s1) :
    LeafInserted env s l1 p l2 k v
      (some (((s.fillSlot env p nd k v).leafAt p).findSplitKey LEAF_DEGREE, q)) s1 := by
  have hp : p ∈ l1 ++ p :: l2 := by simp
  obtain ⟨⟨hwp, hwq, hlp, hlq⟩, hpairs, hkp, hkq⟩ := hs.halves h.ok (h.length.trans hfull)
  refine ⟨?_, ?_, ?_, ?_, Or.inr ⟨_, rfl, hlp, hlq⟩, fun hd => hs.disk hd.edit,
    fun hi => hs.allocInv (hi.congr edit_sameHeads)⟩
  · exact hs.store
  · have : pairsOf s1 [p, q] = (s1.leafAt p).pairs LEAF_DEGREE ++
        (s1.leafAt q).pairs LEAF_DEGREE := by
      simp [pairsOf]
    exact (List.Perm.of_eq this).trans (hpairs.trans h.pairs)
  · exact fun x hx => (fillSlot_same hst x hx).trans (hs.same x hx)
  · intro a b hP hab d
    have hrange := h.inRange hP hab
    refine seps_pair.mpr ⟨⟨hwp, fun k' hk' => ?_⟩, ⟨hwq, fun k' hk' => ?_⟩⟩
    · obtain ⟨hk1, hk2⟩ := hkp k' hk'
      refine ⟨(hrange k' hk1).1, fun u hu => ?_⟩
      obtain rfl := Option.some.inj hu
      exact hk2
    · obtain ⟨hk1, hk2⟩ := hkq k' hk'
      refine ⟨fun l hl => ?_, (hrange k' hk1).2⟩
      obtain rfl := Option.some.inj hl
      exact hk2

/-- The two ways of `LeafNode::insert` into a leaf that has a free slot: the leaf stays
    below its capacity, or it gets full and is split. -/
inductive LeafInsertCase (env : Env) (s : World) (l1 : List PPointer) (p : PPointer)
    (l2 : List PPointer) (nd : LeafNode) (k : Key) (v : Value) :
    Option (Key × PPointer) → World → Prop
  | fits (hroom : ((s.leafAt p).slots LEAF_DEGREE).length + 1 ≤ LEAF_MAX) :
      LeafInsertCase env s l1 p l2 nd k v none (s.fillSlot env p nd k v)
  | split {q : PPointer} {s1 : World}
      (hfull : ((s.leafAt p).slots LEAF_DEGREE).length + 1 = LEAF_DEGREE * 2)
      (hs : SplitLeaf (s.fillSlot env p nd k v) l1 p q l2 s1) :
      LeafInsertCase env s l1 p l2 nd k v
        (some (((s.fillSlot env p nd k v).leafAt p).findSplitKey LEAF_DEGREE, q)) s1

/-- `LeafNode::split` returns only when it got a new leaf. -/
theorem split_create {nd : LeafNode} (hn : s.nodes p = some nd)
    (hfull : 2 * (LEAF_DEGREE : ℤ) ≤ nd.n) (hres : LeafNode.split Sys.ok p s = some (nc, s1)) :
    ∃ q s0, LeafNode.create Sys.ok s = (some q, s0) := by
  cases hc : LeafNode.create Sys.ok s with
  | mk q s0 =>
    cases q with
    | some q => exact ⟨q, s0, rfl⟩
    | none =>
      unfold LeafNode.split at hres
      simp only [hn, Option.bind_eq_bind, Option.bind_some, hc] at hres
      rw [if_neg (by omega)] at hres
      cases hres

theorem StoreInv.split_of_some {nd : LeafNode} (hst : StoreInv s (l1 ++ p :: l2))
    (hn : s.nodes p = some nd) (hfull : 2 * (LEAF_DEGREE : ℤ) ≤ nd.n)
    (hres : LeafNode.split Sys.ok p s = some (nc, s1)) :
    ∃ q, nc = some ((s.leafAt p).findSplitKey LEAF_DEGREE, q) ∧ SplitLeaf s l1 p q l2 s1 := by
  obtain ⟨q, s0, hc⟩ := split_create hn hfull hres
  obtain ⟨s', hsplit, hs⟩ := hst.split hn hfull hc
  rw [hsplit] at hres
  obtain ⟨rfl, rfl⟩ := Prod.mk.inj (Option.some.inj hres)
  exact ⟨q, rfl, hs⟩

theorem insert_cases {nd : LeafNode} (hst : StoreInv s (l1 ++ p :: l2)) (hn : s.nodes p = some nd)
    (hnn : nd.n = ((s.leafAt p).slots LEAF_DEGREE).length)
    (hlen : ((s.leafAt p).slots LEAF_DEGREE).length ≤ LEAF_MAX)
    (hres : LeafNode.insert env Sys.ok p k v s = some (nc, s1)) :
    LeafInsertCase env s l1 p l2 nd k v nc s1 := by
  have hfree : (s.leafAt p).findFirstZero LEAF_DEGREE < LEAF_DEGREE * 2 := by
    refine LeafImage.findFirstZero_lt ?_
    simp only [LEAF_MAX, LEAF_DEGREE] at *
    omega
  rw [insert_eq hn hfree] at hres
  split_ifs at hres with hfull
  · have hnode : (s.fillSlot env p nd k v).nodes p = some { nd with n := nd.n + 1 } :=
      edit_nodes_self
    have hst' : StoreInv (s.fillSlot env p nd k v) (l1 ++ p :: l2) := hst.edit hn rfl rfl rfl
    obtain ⟨q, rfl, hs⟩ := hst'.split_of_some hnode (by dsimp only; omega) hres
    refine .split ?_ hs
    rw [hnn] at hfull
    simp only [LEAF_MAX, LEAF_DEGREE] at *
    omega
  · obtain ⟨rfl, rfl⟩ := Prod.mk.inj (Option.some.inj hres)
    refine .fits ?_
    rw [hnn] at hfull
    simp only [LEAF_MAX, LEAF_DEGREE] at *
    omega

/-- The effect of `LeafNode::insert` of a key that the leaf does not store. -/
theorem LeafWf.insert (hw : LeafWf env LEAF_MAX s p) (hst : StoreInv s (l1 ++ p :: l2))
    (hk : k ∉ (s.leafAt p).keys LEAF_DEGREE)
    (hres : LeafNode.insert env Sys.ok p k v s = some (nc, s1)) :
    LeafInserted env s l1 p l2 k v nc s1 := by
  obtain ⟨nd, hn, hnn⟩ := hw.exists_node
  obtain ⟨-, hf⟩ := @fillSlot_spec env s p k v nd hw.ok hw.le_cap hnn hk
  cases insert_cases hst hn hnn hw.le_cap hres with
  | fits hroom => exact hf.inserted hst hn hroom
  | split hfull hs => exact hs.inserted hst hf hfull

/-- An insertion goes through when the allocator has its full invariant. -/
theorem StoreInv.insert_some {nd : LeafNode} (hst : StoreInv s (l1 ++ p :: l2))
    (hn : s.nodes p = some nd) (hlen : ((s.leafAt p).slots LEAF_DEGREE).length ≤ LEAF_MAX)
    (hi : AllocInv s) :
    ∃ nc s1, LeafNode.insert env Sys.ok p k v s = some (nc, s1) := by
  obtain ⟨hfree, -⟩ := @fillSlot_pairs env s p k v nd hlen
  rw [insert_eq hn hfree]
  split_ifs with hfull
  · have hnode : (s.fillSlot env p nd k v).nodes p = some { nd with n := nd.n + 1 } :=
      edit_nodes_self
    have hst' : StoreInv (s.fillSlot env p nd k v) (l1 ++ p :: l2) := hst.edit hn rfl rfl rfl
    have hfull' : 2 * (LEAF_DEGREE : ℤ) ≤ nd.n + 1 := by omega
    have hi' : AllocInv (s.fillSlot env p nd k v) := hi.congr edit_sameHeads
    obtain ⟨q, s0, hg, -⟩ := hi'.getLeaf_ok
    have hc : LeafNode.create Sys.ok (s.fillSlot env p nd k v) =
        (some q, s0.setNode q (some ⟨0, none, none⟩)) := by
      rw [LeafNode.create, hg]
    obtain ⟨s', hsplit, -⟩ := hst'.split hnode hfull' hc
    exact ⟨_, _, hsplit⟩
  · exact ⟨_, _, rfl⟩

theorem LeafWf.insert_some (hw : LeafWf env LEAF_MAX s p) (hst : StoreInv s (l1 ++ p :: l2))
    (hi : AllocInv s) :
    ∃ nc s1, LeafNode.insert env Sys.ok p k v s = some (nc, s1) := by
  obtain ⟨nd, hn, -⟩ := hw.exists_node
  exact hst.insert_some hn hw.le_cap hi

theorem LeafInsertCase.allocInv {nd : LeafNode} (hc : LeafInsertCase env s l1 p l2 nd k v nc s1)
    (hi : AllocInv s) :
    AllocInv s1 := by
  cases hc with
  | fits hroom => exact hi.congr edit_sameHeads
  | split hfull hs => exact hs.allocInv (hi.congr edit_sameHeads)

/-- The effect of the first insertion of an empty store. -/
theorem StoreInv.insert_first {s0 : World} (h : StoreInv s [])
    (hc : LeafNode.create Sys.ok s = (some p, s0)) :
    ∃ s1, LeafNode.insert env Sys.ok p k v s0 = some (none, s1) ∧ StoreInv s1 [p] ∧
      leafPred env LEAF_MAX s1 none none p ∧ (s1.leafAt p).pairs LEAF_DEGREE = [⟨k, v⟩] ∧
      (DiskInv s → DiskInv s1) ∧ (AllocInv s → AllocInv s1) := by
  obtain ⟨hst, hzero, hn⟩ := h.create_first hc
  have hslots : (s0.leafAt p).slots LEAF_DEGREE = [] := by rw [hzero]; exact LeafImage.slots_zero
  have hpairs : (s0.leafAt p).pairs LEAF_DEGREE = [] := by rw [LeafImage.pairs, hslots]; rfl
  have hkeys : (s0.leafAt p).keys LEAF_DEGREE = [] := by rw [LeafImage.keys, hpairs]; rfl
  have hok : (s0.leafAt p).Ok env.keyHash LEAF_DEGREE :=
    ⟨by simp [hslots], by rw [hkeys]; exact List.nodup_nil⟩
  obtain ⟨hfree, hf⟩ := @fillSlot_spec env s0 p k v ⟨0, none, none⟩ hok (by simp [hslots])
    (by simp [hslots]) (by simp [hkeys])
  have hone : (((s0.fillSlot env p ⟨0, none, none⟩ k v).leafAt p).pairs LEAF_DEGREE) =
      [⟨k, v⟩] := by
    have := hf.pairs
    rwa [hpairs, List.perm_singleton] at this
  have hlen := hf.length
  rw [hslots, List.length_nil] at hlen
  refine ⟨s0.fillSlot env p ⟨0, none, none⟩ k v, ?_, hst.edit hn rfl rfl rfl, ?_, hone, ?_, ?_⟩
  · rw [insert_eq hn hfree, if_neg (by simp [LEAF_DEGREE])]
  · refine ⟨⟨hf.n_eq, by rw [hlen]; exact Nat.one_pos, by rw [hlen]; decide, hf.ok⟩, ?_⟩
    intro k' _
    simp [InRange]
  · exact fun hd => (hd.create h.alloc hc).edit
  · intro hi
    obtain ⟨s2, hg, rfl⟩ := create_spec hc
    have hi2 : AllocInv s2 := hi.getLeaf hg
    exact (hi2.congr (SameHeads.setNode _)).congr edit_sameHeads

/-! ## A full leaf -/

/-- Nothing is lost by an insertion: the new pair and the earlier ones are in the
    leaf and the new leaf, each in one of them, and neither is full. -/
def InsertKeeps (s : World) (p : PPointer) (k : Key) (v : Value) (nc : Option (Key × PPointer))
    (s1 : World) : Prop :=
  (pairsOf s1 (newLeaves p nc)).Perm (⟨k, v⟩ :: (s.leafAt p).pairs LEAF_DEGREE) ∧
    ∀ q ∈ newLeaves p nc, ((s1.leafAt q).slots LEAF_DEGREE).length < LEAF_DEGREE * 2

/-- `insertNonFull` finds no slot in a full leaf; the split that follows only moves
    the old entries. -/
theorem insert_full_eq {nd : LeafNode} (hn : s.nodes p = some nd)
    (hnn : nd.n = ((s.leafAt p).slots LEAF_DEGREE).length)
    (hfull : ((s.leafAt p).slots LEAF_DEGREE).length = LEAF_DEGREE * 2) :
    LeafNode.insert env Sys.ok p k v s = LeafNode.split Sys.ok p s := by
  have hnone : ¬ (s.leafAt p).findFirstZero LEAF_DEGREE < LEAF_DEGREE * 2 := by
    intro hlt
    have hbit := LeafImage.findFirstZero_spec hlt
    have hmem : (s.leafAt p).findFirstZero LEAF_DEGREE ∈ (s.leafAt p).slots LEAF_DEGREE := by
      rw [LeafImage.slots_eq_range hfull]
      exact List.mem_range.mpr hlt
    rw [LeafImage.mem_slots.mp hmem] at hbit
    cases hbit
  unfold LeafNode.insert
  rw [insertNonFull_eq hn, if_pos (not_lt.mp hnone)]
  simp only [Option.bind_eq_bind, Option.bind_some, hn]
  rw [if_pos (by rw [hnn, hfull]; push_cast; exact le_rfl)]

/-- A full leaf loses the pair. -/
theorem not_insertKeeps_of_full {nd : LeafNode} (hst : StoreInv s (l1 ++ p :: l2))
    (hn : s.nodes p = some nd) (hnn : nd.n = ((s.leafAt p).slots LEAF_DEGREE).length)
    (hok : (s.leafAt p).Ok env.keyHash LEAF_DEGREE)
    (hfull : ((s.leafAt p).slots LEAF_DEGREE).length = LEAF_DEGREE * 2)
    (hres : LeafNode.insert env Sys.ok p k v s = some (nc, s1)) : ¬ InsertKeeps s p k v nc s1 := by
  intro hkeep
  rw [insert_full_eq hn hnn hfull] at hres
  obtain ⟨q, rfl, hs⟩ := hst.split_of_some hn (by rw [hnn, hfull]; push_cast; omega) hres
  have hold := (hs.halves hok hfull).2.1
  have hlen : (pairsOf s1 [p, q]).length = (⟨k, v⟩ :: (s.leafAt p).pairs LEAF_DEGREE).length :=
    hkeep.1.length_eq
  have hold' : (pairsOf s1 [p, q]).length = ((s.leafAt p).pairs LEAF_DEGREE).length := by
    rw [← hold.length_eq]
    simp [pairsOf]
  rw [hold', List.length_cons] at hlen
  omega

/-- `LeafNode::insert` of a key that the leaf does not hold keeps all pairs exactly
    when the leaf is not full. -/
theorem insert_keeps_iff (env : Env) (s : World) (chain : List PPointer) (p : PPointer)
    (nd : LeafNode) (k : Key) (v : Value) (nc : Option (Key × PPointer)) (s1 : World)
    (hst : StoreInv s chain) (hn : s.nodes p = some nd)
    (hnn : nd.n = ((s.leafAt p).slots LEAF_DEGREE).length)
    (hok : (s.leafAt p).Ok env.keyHash LEAF_DEGREE) (hk : k ∉ (s.leafAt p).keys LEAF_DEGREE)
    (hres : LeafNode.insert env Sys.ok p k v s = some (nc, s1)) :
    InsertKeeps s p k v nc s1 ↔ ((s.leafAt p).slots LEAF_DEGREE).length < LEAF_DEGREE * 2 := by
  obtain ⟨l1, l2, rfl⟩ := List.append_of_mem (hst.mem_of_node hn)
  constructor
  · intro hkeep
    by_contra hnot
    refine not_insertKeeps_of_full hst hn hnn hok ?_ hres hkeep
    have hle : ((s.leafAt p).slots LEAF_DEGREE).length ≤ LEAF_DEGREE * 2 :=
      (List.length_filter_le _ _).trans (by simp)
    omega
  · intro hlt
    have hlen : ((s.leafAt p).slots LEAF_DEGREE).length ≤ LEAF_MAX := by
      simp only [LEAF_MAX, LEAF_DEGREE] at *
      omega
    obtain ⟨-, hf⟩ := @fillSlot_spec env s p k v nd hok hlen hnn hk
    cases insert_cases hst hn hnn hlen hres with
    | fits hroom =>
      refine ⟨(hf.inserted hst hn hroom).pairs, fun q hq => ?_⟩
      obtain rfl := List.mem_singleton.mp hq
      rw [hf.length]
      simp only [LEAF_MAX, LEAF_DEGREE] at *
      omega
    | split hfull hs =>
      obtain ⟨⟨-, -, hlp, hlq⟩, -⟩ := hs.halves hf.ok (hf.length.trans hfull)
      have hhalf : LEAF_DEGREE < LEAF_DEGREE * 2 := by decide
      refine ⟨(hs.inserted hst hf hfull).pairs, fun x hx => ?_⟩
      rcases List.mem_cons.mp hx with rfl | hx
      · rw [hlp]
        exact hhalf
      · obtain rfl := List.mem_singleton.mp hx
        rw [hlq]
        exact hhalf

theorem insert_keeps_iff_zero : ∃ s p s1, s.leafAt p = LeafImage.zero ∧
    LeafNode.insert Env.flat Sys.ok p 5 50 s = some (none, s1) ∧ InsertKeeps s p 5 50 none s1 := by
  obtain ⟨s, p, hst, -, hleaf, hn⟩ := exists_oneLeaf Env.flat LeafImage.zero rfl 0
  have hslots : (s.leafAt p).slots LEAF_DEGREE = [] := by rw [hleaf]; exact LeafImage.slots_zero
  have hkeys : (s.leafAt p).keys LEAF_DEGREE = [] := by
    rw [LeafImage.keys, LeafImage.pairs, hslots]
    rfl
  have hfree : (s.leafAt p).findFirstZero LEAF_DEGREE < LEAF_DEGREE * 2 :=
    LeafImage.findFirstZero_lt (by rw [hslots]; decide)
  have hres : LeafNode.insert Env.flat Sys.ok p 5 50 s =
      some (none, s.fillSlot Env.flat p ⟨0, none, none⟩ 5 50) := by
    rw [insert_eq hn hfree, if_neg (by decide)]
  refine ⟨s, p, _, hleaf, hres, ?_⟩
  refine (insert_keeps_iff Env.flat s [p] p _ 5 50 _ _ hst hn (by rw [hslots]; rfl)
    ⟨?_, ?_⟩ ?_ hres).mpr ?_
  · simp [hslots]
  · rw [hkeys]
    exact List.nodup_nil
  · simp [hkeys]
  · rw [hslots]
    decide

/-- The leaf that a stop between the persist of `insertNonFull` and the last one of
    `split` leaves behind. -/
theorem insert_full_drops :
    ¬ ∀ (env : Env) (s : World) (chain : List PPointer) (p : PPointer) (nd : LeafNode)
    (k : Key) (v : Value) (nc : Option (Key × PPointer)) (s1 : World), StoreInv s chain →
    s.nodes p = some nd → nd.n = ((s.leafAt p).slots LEAF_DEGREE).length →
    (s.leafAt p).Ok env.keyHash LEAF_DEGREE → k ∉ (s.leafAt p).keys LEAF_DEGREE →
    LeafNode.insert env Sys.ok p k v s = some (nc, s1) → InsertKeeps s p k v nc s1 := by
  intro h
  obtain ⟨s, p, hst, ha, hleaf, hn⟩ := exists_oneLeaf Env.flat (LeafImage.full Env.flat.keyHash) rfl
    ((LEAF_DEGREE * 2 : ℕ) : ℤ)
  have hfull : ((s.leafAt p).slots LEAF_DEGREE).length = LEAF_DEGREE * 2 := by
    rw [hleaf, LeafImage.full_slots]
  have hok : (s.leafAt p).Ok Env.flat.keyHash LEAF_DEGREE := by
    rw [hleaf]; exact LeafImage.full_ok _
  have hk : (500 : Key) ∉ (s.leafAt p).keys LEAF_DEGREE := by
    rw [LeafImage.keys_full hfull, hleaf]
    intro hmem
    obtain ⟨i, hi, hik⟩ := List.mem_map.mp hmem
    have hi' : i < 112 := List.mem_range.mp hi
    have hval : i % 2 ^ 64 = 500 := congrArg Fin.val hik
    omega
  obtain ⟨q, s0, hg, -⟩ := ha.getLeaf_ok
  have hst' : StoreInv s ([] ++ p :: []) := hst
  obtain ⟨s1, hsplit, -⟩ := hst'.split hn (by dsimp only; push_cast; omega)
    (show LeafNode.create Sys.ok s = (some q, s0.setNode q (some ⟨0, none, none⟩)) by
      rw [LeafNode.create, hg])
  have hres : LeafNode.insert Env.flat Sys.ok p 500 9 s = some (_, s1) :=
    (insert_full_eq hn (by rw [hfull]) hfull).trans hsplit
  exact not_insertKeeps_of_full hst' hn (by rw [hfull]) hok hfull hres
    (h Env.flat s [p] p _ 500 9 _ s1 hst hn (by rw [hfull]) hok hk hres)

end Insert

/-! ## Update and removal -/

section Change

variable {env : Env} {cap : ℕ} {s : World} {l1 l2 : List PPointer} {p : PPointer}
  {k : Key} {v : Value}

/-- The effect of an update of a stored key. -/
structure LeafUpdated (env : Env) (cap : ℕ) (s : World) (l1 : List PPointer) (p : PPointer)
    (l2 : List PPointer) (k : Key) (v : Value) (s1 : World) : Prop where
  store : StoreInv s1 (l1 ++ p :: l2)
  pairs : ∃ old rest, ((s.leafAt p).pairs LEAF_DEGREE).Perm (⟨k, old⟩ :: rest) ∧
    ((s1.leafAt p).pairs LEAF_DEGREE).Perm (⟨k, v⟩ :: rest)
  same : ∀ q ∈ l1 ++ l2, SameLeaf s s1 q
  leaf : ∀ a b, leafPred env cap s a b p → leafPred env cap s1 a b p
  slots : (s1.leafAt p).slots LEAF_DEGREE = (s.leafAt p).slots LEAF_DEGREE
  disk : DiskInv s → DiskInv s1
  allocInv : AllocInv s → AllocInv s1

theorem LeafWf.update (hw : LeafWf env cap s p) (hst : StoreInv s (l1 ++ p :: l2)) :
    (k ∉ (s.leafAt p).keys LEAF_DEGREE ∧ LeafNode.update env p k v s = some (false, s)) ∨
    (k ∈ (s.leafAt p).keys LEAF_DEGREE ∧ ∃ s1, LeafNode.update env p k v s = some (true, s1) ∧
      LeafUpdated env cap s l1 p l2 k v s1) := by
  obtain ⟨nd, hn, hnn⟩ := hw.exists_node
  cases hf : (s.leafAt p).findSlot env.keyHash LEAF_DEGREE k with
  | none => exact Or.inl ⟨LeafImage.findSlot_eq_none hw.ok.fingerprint hf, update_eq_none hn hf⟩
  | some i =>
    obtain ⟨hi, rfl⟩ := LeafImage.findSlot_eq_some hf
    have hleaf : (s.edit p ((s.leafAt p).updateAt i v) nd).leafAt p = (s.leafAt p).updateAt i v :=
      edit_leafAt_self
    refine Or.inr ⟨LeafImage.mem_keys.mpr ⟨i, hi, rfl⟩, _, update_eq_some hn hf, ?_, ?_, ?_, ?_, ?_,
      fun hd => hd.edit, fun hi => hi.congr edit_sameHeads⟩
    · exact hst.edit hn rfl rfl rfl
    · obtain ⟨rest, h1, h2⟩ := @LeafImage.pairs_updateAt LEAF_DEGREE (s.leafAt p) v i hi
      exact ⟨((s.leafAt p).kv i).v, rest, h1, by rw [hleaf]; exact h2⟩
    · exact hst.edit_same
    · intro a b hP
      refine ⟨⟨?_, ?_, ?_, ?_⟩, ?_⟩
      · rw [edit_nodes_self, hleaf, LeafImage.slots_updateAt, Option.map_some, hnn]
      · rw [hleaf, LeafImage.slots_updateAt]; exact hP.1.pos
      · rw [hleaf, LeafImage.slots_updateAt]; exact hP.1.le_cap
      · rw [hleaf]; exact hP.1.ok.updateAt
      · rw [hleaf, LeafImage.keys_updateAt]; exact hP.2
    · rw [hleaf, LeafImage.slots_updateAt]

/-- The effect of a removal that leaves the leaf with an entry. -/
structure LeafShrunk (env : Env) (cap : ℕ) (s : World) (l1 : List PPointer) (p : PPointer)
    (l2 : List PPointer) (k : Key) (s1 : World) : Prop where
  store : StoreInv s1 (l1 ++ p :: l2)
  pairs : ∃ old, ((s.leafAt p).pairs LEAF_DEGREE).Perm (⟨k, old⟩ :: (s1.leafAt p).pairs LEAF_DEGREE)
  same : ∀ q ∈ l1 ++ l2, SameLeaf s s1 q
  leaf : ∀ a b, leafPred env cap s a b p → leafPred env cap s1 a b p
  disk : DiskInv s → DiskInv s1
  allocInv : AllocInv s → AllocInv s1

/-- The effect of a removal of the last entry of a leaf, with the deletion of its
    object by the parent. -/
structure LeafEmptied (sys : Sys) (s : World) (l1 : List PPointer) (p : PPointer)
    (l2 : List PPointer) (k : Key) (s1 : World) : Prop where
  pairs : ∃ old, (s.leafAt p).pairs LEAF_DEGREE = [⟨k, old⟩]
  dropped : DroppedLeaf s l1 l2 (LeafNode.destroy p s1)
  disk : sys = Sys.ok → DiskInv s → DiskInv (LeafNode.destroy p s1)

/-- The three outcomes of `LeafNode::remove`, with `ifDelete` as it was passed. -/
inductive LeafRemoved (env : Env) (sys : Sys) (cap : ℕ) (s : World) (l1 : List PPointer)
    (p : PPointer) (l2 : List PPointer) (k : Key) (b : Bool) : Bool × Bool × World → Prop
  | absent : k ∉ (s.leafAt p).keys LEAF_DEGREE →
      LeafRemoved env sys cap s l1 p l2 k b (false, b, s)
  | shrunk {s1 : World} : k ∈ (s.leafAt p).keys LEAF_DEGREE → LeafShrunk env cap s l1 p l2 k s1 →
      LeafRemoved env sys cap s l1 p l2 k b (true, false, s1)
  | emptied {s1 : World} : k ∈ (s.leafAt p).keys LEAF_DEGREE → LeafEmptied sys s l1 p l2 k s1 →
      LeafRemoved env sys cap s l1 p l2 k b (true, true, s1)

/-- The count and the slots of a leaf after one of its bits was cleared. -/
theorem clearSlot_count {nd : LeafNode} {i : ℕ}
    (hnn : nd.n = ((s.leafAt p).slots LEAF_DEGREE).length)
    (hi : i ∈ (s.leafAt p).slots LEAF_DEGREE) :
    ((s.clearSlot p nd i).nodes p).map LeafNode.n =
      some ((((s.clearSlot p nd i).leafAt p).slots LEAF_DEGREE).length : ℤ) ∧
    (((s.clearSlot p nd i).leafAt p).slots LEAF_DEGREE).length + 1 =
      ((s.leafAt p).slots LEAF_DEGREE).length := by
  have hleaf : (s.clearSlot p nd i).leafAt p = (s.leafAt p).removeAt i := edit_leafAt_self
  have hnode : (s.clearSlot p nd i).nodes p = some { nd with n := nd.n - 1 } := edit_nodes_self
  have hlen := (LeafImage.slots_removeAt hi).length_eq
  rw [List.length_cons] at hlen
  refine ⟨?_, by rw [hleaf]; exact hlen.symm⟩
  rw [hnode, hleaf, Option.map_some, Option.some.injEq]
  dsimp only
  omega

/-- The leaf after one of its bits was cleared. -/
theorem clearSlot_shrunk {nd : LeafNode} {i : ℕ} (hw : LeafWf env cap s p)
    (hst : StoreInv s (l1 ++ p :: l2)) (hn : s.nodes p = some nd)
    (hi : i ∈ (s.leafAt p).slots LEAF_DEGREE) (hpos : nd.n - 1 ≠ 0) :
    LeafShrunk env cap s l1 p l2 ((s.leafAt p).kv i).k (s.clearSlot p nd i) := by
  obtain ⟨nd', hn', hnn⟩ := hw.exists_node
  obtain rfl : nd = nd' := Option.some.inj (hn.symm.trans hn')
  have hleaf : (s.clearSlot p nd i).leafAt p = (s.leafAt p).removeAt i := edit_leafAt_self
  obtain ⟨hcount, hlen⟩ := clearSlot_count hnn hi
  have hpairs := LeafImage.pairs_removeAt hi
  have hcap := hw.le_cap
  refine ⟨hst.edit hn rfl rfl rfl, ⟨((s.leafAt p).kv i).v, by rw [hleaf]; exact hpairs⟩,
    hst.edit_same,
    ?_, fun hd => hd.edit, fun hi => hi.congr edit_sameHeads⟩
  intro a b hP
  refine ⟨⟨hcount, by omega, by omega, ?_⟩, ?_⟩
  · rw [hleaf]; exact hP.1.ok.removeAt hi
  · intro k hk
    rw [hleaf, LeafImage.keys] at hk
    refine hP.2 k ((hpairs.map KeyValue.k).mem_iff.mpr ?_)
    rw [List.map_cons]
    exact List.mem_cons_of_mem _ hk

theorem LeafWf.remove (sys : Sys) (b : Bool) (hw : LeafWf env cap s p)
    (hst : StoreInv s (l1 ++ p :: l2)) :
    ∃ r, LeafNode.remove env sys p k b s = some r ∧ LeafRemoved env sys cap s l1 p l2 k b r := by
  obtain ⟨nd, hn, hnn⟩ := hw.exists_node
  cases hf : (s.leafAt p).findSlot env.keyHash LEAF_DEGREE k with
  | none =>
      exact ⟨_, remove_eq_none hn hf, .absent (LeafImage.findSlot_eq_none hw.ok.fingerprint hf)⟩
  | some i =>
    obtain ⟨hi, rfl⟩ := LeafImage.findSlot_eq_some hf
    have hmem : ((s.leafAt p).kv i).k ∈ (s.leafAt p).keys LEAF_DEGREE :=
      LeafImage.mem_keys.mpr ⟨i, hi, rfl⟩
    rw [remove_eq_some hn hf]
    by_cases hpos : nd.n - 1 = 0
    · have hclear : StoreInv (s.clearSlot p nd i) (l1 ++ p :: l2) := hst.edit hn rfl rfl rfl
      have hnode : (s.clearSlot p nd i).nodes p = some { nd with n := nd.n - 1 } := edit_nodes_self
      obtain ⟨s2, hu, hdrop, hdisk⟩ := hclear.drop sys hnode
      rw [if_pos hpos, hu]
      refine ⟨_, rfl, .emptied hmem ⟨?_, ⟨hdrop.store, fun q hq => ?_, fun hi =>
        hdrop.allocInv (hi.congr edit_sameHeads)⟩, fun hs hd => hdisk hs hd.edit⟩⟩
      · have hlen : ((s.leafAt p).pairs LEAF_DEGREE).length = 1 := by
          rw [LeafImage.length_pairs]
          omega
        obtain ⟨x, hx⟩ := List.length_eq_one_iff.mp hlen
        have hmem := LeafImage.mem_pairs_of_mem_slots hi
        rw [hx, List.mem_singleton] at hmem
        exact ⟨((s.leafAt p).kv i).v, by rw [hx, ← hmem]⟩
      · have hclr : SameLeaf s (s.clearSlot p nd i) q := hst.edit_same q hq
        exact hclr.trans (hdrop.same q hq)
    · rw [if_neg hpos]
      exact ⟨_, rfl, .shrunk hmem (clearSlot_shrunk hw hst hn hi hpos)⟩

end Change

end FPTreeDB
