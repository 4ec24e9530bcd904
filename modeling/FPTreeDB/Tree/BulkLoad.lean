import FPTreeDB.Tree.Append
import FPTreeDB.Tree.LeafOps
import FPTreeDB.Tree.WellFormed

/-!
# Bulk loading

`FPTree::bulkLoading` walks the persistent chain from the allocator's `startLeaf`,
makes an object for each leaf and appends the leaf to the tree.

* `bulkLoop_spec`: the loop over a chain, for any invariant of the tree that one
  `insertLeaf` keeps.
* `Ascending.treeOk`: a chain of leaves in key order gives a search tree.
* `bulkLoading_correct`: the tree, the objects and the lookups after a bulk load.
-/

namespace FPTreeDB

open SepChain Links Node

/-- The leaves in use form a chain from `startLeaf` through `pNext` to a pointer that
    is not in use. -/
structure Chained (s : World) (chain : List PPointer) : Prop where
  nodup : chain.Nodup
  used : ∀ p ∈ chain, s.ifLeafUsed p = true
  links : ∃ e, s.ifLeafUsed e = false ∧ s.startLeaf = entry id chain e ∧
    Linked id (fun p => (s.leafAt p).pNext) chain e

/-- The objects after the leaves of `chain` were loaded into the state `s0`. -/
structure Loaded (s0 : World) (chain : List PPointer) (s : World) : Prop where
  rest : s = { s0 with nodes := s.nodes }
  n_eq : ∀ p ∈ chain, (s.nodes p).map LeafNode.n =
    some (((s0.leafAt p).slots LEAF_DEGREE).length : ℤ)
  next : Linked some s.next chain none
  prev : Linked some s.prev chain.reverse none
  other : ∀ x, x ∉ chain → s.nodes x = s0.nodes x

namespace Loaded

variable {s0 s : World} {chain : List PPointer} {p : PPointer}

theorem leafAt (h : Loaded s0 chain s) : s.leafAt p = s0.leafAt p := by
  rw [h.rest]
  rfl

theorem used (h : Loaded s0 chain s) : s.ifLeafUsed p = s0.ifLeafUsed p := by
  rw [h.rest]
  rfl

theorem isSome (h : Loaded s0 chain s) (hp : p ∈ chain) : ∃ nd, s.nodes p = some nd := by
  have := h.n_eq p hp
  cases hn : s.nodes p with
  | none => rw [hn] at this; cases this
  | some nd => exact ⟨nd, rfl⟩

/-- The store is consistent when every leaf in use was loaded. -/
theorem storeInv (h : Loaded s0 chain s) (ha : AllocOk s0)
    (hused : ∀ p, s0.ifLeafUsed p = true ↔ p ∈ chain) (hnd : chain.Nodup)
    (hstart : s0.startLeaf = entry id chain PPointer.zero)
    (hnext : Linked id (fun p => (s0.leafAt p).pNext) chain PPointer.zero)
    (hnodes : ∀ p, s0.nodes p = none) :
    StoreInv s chain := by
  have hheads : SameHeads s0 s :=
    SameHeads.congr (SameHeads.refl s0) (by rw [h.rest]) (by rw [h.rest]) (by rw [h.rest])
      (by rw [h.rest])
  refine ⟨hheads.allocOk ha, fun p => ?_, hnd, ?_, ?_, fun p => ?_, h.next, h.prev⟩
  · rw [hheads.used]
    exact hused p
  · rw [h.rest]
    exact hstart
  · exact hnext.congr fun p _ => by rw [h.leafAt]
  · by_cases hp : p ∈ chain
    · obtain ⟨nd, hn⟩ := h.isSome hp
      simp [hn, hp]
    · rw [h.other p hp, hnodes p]
      simp [hp]

end Loaded

theorem loaded_nil (s : World) : Loaded s [] s :=
  ⟨rfl, by simp, trivial, trivial, fun _ _ => rfl⟩

section Load

variable {s0 s s1 : World} {l : List PPointer} {p q : PPointer} {nd : LeafNode}

theorem countBits_leafAt (h : Loaded s0 l s) (p : PPointer) :
    (((s.leafAt p).countBits LEAF_DEGREE : ℕ) : ℤ) =
      (((s0.leafAt p).slots LEAF_DEGREE).length : ℤ) := by
  rw [h.leafAt, LeafImage.countBits_eq (by decide)]

theorem loadLeaf_none {c : ℤ} (hc : (((s.leafAt p).countBits LEAF_DEGREE : ℕ) : ℤ) = c) :
    FPTree.loadLeaf p none s = some (s.setNode p (some ⟨c, none, none⟩)) := by
  unfold FPTree.loadLeaf LeafNode.load
  rw [hc]
  simp [World.modifyNode, World.setNode]

theorem loadLeaf_some {c : ℤ} (hc : (((s.leafAt p).countBits LEAF_DEGREE : ℕ) : ℤ) = c)
    (hq : s.nodes q = some nd) (hqp : q ≠ p) :
    FPTree.loadLeaf p (some q) s =
      some ((s.setNode p (some ⟨c, some q, none⟩)).setNode q
        (some { nd with next := some p })) := by
  unfold FPTree.loadLeaf LeafNode.load
  rw [hc]
  simp [World.modifyNode, World.setNode, hqp, hq]

/-- The object made for the first leaf. -/
theorem loaded_first (h : Loaded s0 [] s) (p : PPointer) :
    ∃ s1, FPTree.loadLeaf p none s = some s1 ∧ Loaded s0 [p] s1 := by
  have hcount := countBits_leafAt h p
  generalize hc : (((s0.leafAt p).slots LEAF_DEGREE).length : ℤ) = c at hcount
  refine ⟨_, loadLeaf_none hcount, ?_, ?_, ?_, ?_, ?_⟩
  · conv_lhs => rw [h.rest]
    rfl
  · intro x hx
    rw [List.mem_singleton] at hx
    subst hx
    rw [hc]
    simp [World.setNode]
  · simp [Linked, World.next, World.setNode]
  · simp [Linked, World.prev, World.setNode]
  · intro x hx
    rw [List.mem_singleton] at hx
    simp only [World.setNode, Function.update_of_ne hx]
    exact h.other x (by simp)

/-- The object made for a leaf after `q`. -/
theorem loaded_next (h : Loaded s0 (l ++ [q]) s) (hp : p ∉ l ++ [q]) (hnd : (l ++ [q]).Nodup) :
    ∃ s1, FPTree.loadLeaf p (some q) s = some s1 ∧ Loaded s0 (l ++ [q] ++ [p]) s1 := by
  obtain ⟨nd, hq⟩ := h.isSome (show q ∈ l ++ [q] by simp)
  have hqp : q ≠ p := fun he => hp (by simp [he])
  have hql : q ∉ l := by
    rw [List.nodup_append] at hnd
    exact fun hm => hnd.2.2 q hm q (by simp) rfl
  have hpl : p ∉ l := fun hm => hp (by simp [hm])
  have hcount := countBits_leafAt h p
  generalize hc : (((s0.leafAt p).slots LEAF_DEGREE).length : ℤ) = c at hcount
  set s1 := (s.setNode p (some ⟨c, some q, none⟩)).setNode q
    (some { nd with next := some p }) with hs1
  have hnodep : s1.nodes p = some ⟨c, some q, none⟩ := by
    simp [hs1, World.setNode, hqp.symm]
  have hnodeq : s1.nodes q = some { nd with next := some p } := by simp [hs1, World.setNode]
  have hnode : ∀ x, x ≠ p → x ≠ q → s1.nodes x = s.nodes x := fun x h1 h2 => by
    simp [hs1, World.setNode, h1, h2]
  have hnext : ∀ x ∈ l, s1.next x = s.next x := fun x hx => by
    rw [World.next, World.next, hnode x (fun he => hpl (he ▸ hx)) (fun he => hql (he ▸ hx))]
  have hprev : ∀ x ∈ l ++ [q], s1.prev x = s.prev x := fun x hx => by
    by_cases hxq : x = q
    · subst hxq
      simp [World.prev, hnodeq, hq]
    · rw [World.prev, World.prev, hnode x (fun he => hp (he ▸ hx)) hxq]
  refine ⟨s1, loadLeaf_some hcount hq hqp, ?_, ?_, ?_, ?_, ?_⟩
  · have hrest : s1 = { s with nodes := s1.nodes } := rfl
    rw [hrest]
    conv_lhs => rw [h.rest]
  · intro x hx
    by_cases hxp : x = p
    · subst hxp
      rw [hc, hnodep]
      rfl
    · have hx' : x ∈ l ++ [q] := by simpa [hxp] using hx
      have hn := h.n_eq x hx'
      by_cases hxq : x = q
      · subst hxq
        rw [hq] at hn
        rw [hnodeq]
        exact hn
      · rw [hnode x hxp hxq]
        exact hn
  · have hl := h.next
    rw [linked_concat] at hl
    rw [linked_concat, linked_concat]
    refine ⟨⟨hl.1.congr hnext, ?_⟩, ?_⟩
    · simp [World.next, hnodeq]
    · simp [World.next, hnodep]
  · rw [List.reverse_concat]
    refine ⟨?_, h.prev.congr fun x hx => hprev x (List.mem_reverse.mp hx)⟩
    rw [List.reverse_concat]
    simp [World.prev, hnodep]
  · intro x hx
    simp only [List.mem_append, List.mem_singleton, not_or] at hx
    rw [hnode x hx.2 hx.1.2]
    exact h.other x (by simp [hx.1.1, hx.1.2])

theorem loadLeaf_spec (h : Loaded s0 l s) (hp : p ∉ l) (hnd : l.Nodup) :
    ∃ s1, FPTree.loadLeaf p l.getLast? s = some s1 ∧ Loaded s0 (l ++ [p]) s1 := by
  rcases List.eq_nil_or_concat l with rfl | ⟨l', q, rfl⟩
  · exact loaded_first h p
  · rw [List.concat_eq_append] at *
    rw [List.getLast?_concat]
    exact loaded_next h hp hnd

end Load

/-- The loop over the leaves `rest` of a chain. `T` is an invariant of the tree that
    appending one leaf keeps. -/
theorem bulkLoop_spec {env : Env} {s0 : World} {chain : List PPointer} {e : PPointer}
    {T : List PPointer → FPTree → World → Prop} (hnd : chain.Nodup)
    (hused : ∀ p ∈ chain, s0.ifLeafUsed p = true) (he : s0.ifLeafUsed e = false)
    (hstep : ∀ done p rest t s s1, chain = done ++ p :: rest → Loaded s0 done s → T done t s →
      Loaded s0 (done ++ [p]) s1 →
      ∃ r t', Node.insertLeaf env ⟨(s0.leafAt p).minKey LEAF_DEGREE,
        .leaf p⟩ (.inner t.root) = some r ∧
        t.afterInsert r = some t' ∧ T (done ++ [p]) t' s1) :
    ∀ (rest done : List PPointer) (t : FPTree) (s : World) (fuel : ℕ), chain = done ++ rest →
      Linked id (fun p => (s0.leafAt p).pNext) rest e → rest.length < fuel → Loaded s0 done s →
      T done t s → ∃ t' s', FPTree.bulkLoop env fuel (entry id rest e) done.getLast? t s =
        some (t', s') ∧
        Loaded s0 chain s' ∧ T chain t' s' := by
  intro rest
  induction rest with
  | nil =>
    intro done t s fuel hchain _ hfuel hl hT
    rw [List.append_nil] at hchain
    subst hchain
    obtain ⟨fuel, rfl⟩ : ∃ f, fuel = f + 1 := ⟨fuel - 1, by simp at hfuel; omega⟩
    refine ⟨t, s, ?_, hl, hT⟩
    rw [FPTree.bulkLoop, entry_nil, hl.used, he]
    rfl
  | cons p rest ih =>
    intro done t s fuel hchain hlink hfuel hl hT
    obtain ⟨fuel, rfl⟩ : ∃ f, fuel = f + 1 := ⟨fuel - 1, by omega⟩
    have hp : p ∈ chain := by simp [hchain]
    have hnd' : done.Nodup ∧ p ∉ done := by
      rw [hchain, List.nodup_middle, List.nodup_cons] at hnd
      exact ⟨(List.nodup_append.mp hnd.2).1, fun hm => hnd.1 (by simp [hm])⟩
    obtain ⟨s1, hload, hl1⟩ := loadLeaf_spec hl hnd'.2 hnd'.1
    obtain ⟨r, t1, hins, hafter, hT1⟩ := hstep done p rest t s s1 hchain hl hT hl1
    obtain ⟨t', s', hloop, hres⟩ := ih (done ++ [p]) t1 s1 fuel (by simp [hchain]) hlink.2
      (by simpa using hfuel) hl1 hT1
    refine ⟨t', s', ?_, hres⟩
    rw [List.getLast?_concat] at hloop
    have hnext : (s1.leafAt p).pNext = entry id rest e := by rw [hl1.leafAt]; exact hlink.1
    rw [FPTree.bulkLoop, entry_cons, id_eq, hl.used, hused p hp]
    simp only [if_true, hload, Option.bind_eq_bind, Option.bind_some, hl1.leafAt, hins, hafter]
    rw [← hl1.leafAt, hnext]
    exact hloop

/-! ## Leaves in key order -/

/-- The leaves of `chain` hold consistent entries, at least one each, and the keys of
    a leaf lie below those of the next one. -/
structure Ascending (env : Env) (s : World) (chain : List PPointer) : Prop where
  ne_nil : ∀ p ∈ chain, (s.leafAt p).slots LEAF_DEGREE ≠ []
  ok : ∀ p ∈ chain, (s.leafAt p).Ok env.keyHash LEAF_DEGREE
  sorted : chain.IsChain fun p q =>
    ∀ a ∈ (s.leafAt p).keys LEAF_DEGREE, ∀ b ∈ (s.leafAt q).keys LEAF_DEGREE, a < b

section Ascending

variable {env : Env} {d : ℕ} {s0 s s1 : World} {chain done rest : List PPointer}
  {p : PPointer} {t : FPTree}

/-- The keys of a leaf lie below those of every later one. -/
theorem Ascending.pairwise (h : Ascending env s chain) : chain.Pairwise fun p q =>
    ∀ a ∈ (s.leafAt p).keys LEAF_DEGREE, ∀ b ∈ (s.leafAt q).keys LEAF_DEGREE, a < b := by
  -- only a leaf with an entry passes the order on, so the relation is taken with that
  have hne : chain.IsChain fun p q => (s.leafAt q).slots LEAF_DEGREE ≠ [] ∧
      ∀ a ∈ (s.leafAt p).keys LEAF_DEGREE, ∀ b ∈ (s.leafAt q).keys LEAF_DEGREE, a < b := by
    refine h.sorted.imp_of_mem_imp fun p q _ hq hpq => ?_
    exact ⟨h.ne_nil q hq, hpq⟩
  have htrans : IsTrans PPointer fun p q => (s.leafAt q).slots LEAF_DEGREE ≠ [] ∧
      ∀ a ∈ (s.leafAt p).keys LEAF_DEGREE, ∀ b ∈ (s.leafAt q).keys LEAF_DEGREE, a < b := by
    refine ⟨fun p q r hpq hqr => ⟨hqr.1, fun a ha b hb => ?_⟩⟩
    obtain ⟨c, hc⟩ := List.exists_mem_of_ne_nil _
      (show (s.leafAt q).keys LEAF_DEGREE ≠ [] by
        rw [← List.length_pos_iff, LeafImage.length_keys, List.length_pos_iff]; exact hpq.1)
    exact (hpq.2 a ha c hc).trans (hqr.2 c hc b hb)
  exact hne.pairwise.imp fun h => h.2

/-- The bytes of the leaves are all that matters. -/
theorem Ascending.congr (h : Ascending env s chain)
    (hleaf : ∀ p ∈ chain, s0.leafAt p = s.leafAt p) :
    Ascending env s0 chain := by
  refine ⟨fun p hp => ?_, fun p hp => ?_, h.sorted.imp_of_mem_imp fun p q hp hq hpq => ?_⟩
  · rw [hleaf p hp]
    exact h.ne_nil p hp
  · rw [hleaf p hp]
    exact h.ok p hp
  · rw [hleaf p hp, hleaf q hq]
    exact hpq

/-- The leaves of a search tree, from left to right, are in key order. -/
theorem Node.RootRanged.ascending {cap h : ℕ} (hr : RootRanged d (leafPred env cap s) h t.root) :
    Ascending env s (inner t.root).leaves := by
  refine ⟨fun p hp => ?_, fun p hp => ?_, ?_⟩
  · obtain ⟨a, b, hP⟩ := FPTreeDB.RootRanged.leaf_pred hr hp
    exact List.length_pos_iff.mp hP.1.pos
  · obtain ⟨a, b, hP⟩ := FPTreeDB.RootRanged.leaf_pred hr hp
    exact hP.1.ok
  · have hleaf : ∀ a b p, leafPred env cap s a b p →
        Ordered (fun q => (s.leafAt q).keys LEAF_DEGREE) a b [p] := by
      intro a b p hP
      refine ⟨leafPred_gap a b p hP, fun q hq => ?_, List.pairwise_singleton _ _⟩
      obtain rfl := List.mem_singleton.mp hq
      exact hP.2
    have hord : Ordered (fun q => (s.leafAt q).keys LEAF_DEGREE) none none
        (inner t.root).leaves := by
      rw [leaves_inner]
      exact hr.seps.flatMap (fun _ _ _ _ _ => Ordered.append)
        fun _ _ _ hc => hc.flat (fun _ _ _ _ _ => Ordered.append) hleaf
    exact hord.2.2.isChain

theorem Ascending.lt (h : Ascending env s chain) (hchain : chain = done ++ p :: rest) {q : PPointer}
    (hq : q ∈ done) : ∀ a ∈ (s.leafAt q).keys LEAF_DEGREE,
    ∀ b ∈ (s.leafAt p).keys LEAF_DEGREE, a < b := by
  have := h.pairwise
  rw [hchain, List.pairwise_append] at this
  exact this.2.2 q hq p (by simp)

theorem Ascending.minKey_mem (h : Ascending env s chain) (hp : p ∈ chain) :
    (s.leafAt p).minKey LEAF_DEGREE ∈ (s.leafAt p).keys LEAF_DEGREE :=
  LeafImage.minKey_mem (h.ne_nil p hp)

/-- A loaded leaf is consistent. -/
theorem Loaded.leafWf (hl : Loaded s0 done s) (ha : Ascending env s0 chain) (hp : p ∈ done)
    (hpc : p ∈ chain) : LeafWf env (LEAF_DEGREE * 2) s p := by
  refine ⟨?_, ?_, ?_, ?_⟩
  · rw [hl.n_eq p hp, hl.leafAt]
  · rw [hl.leafAt, List.length_pos_iff]; exact ha.ne_nil p hpc
  · rw [hl.leafAt, LeafImage.slots]
    exact (List.length_filter_le _ _).trans (by simp)
  · rw [hl.leafAt]; exact ha.ok p hpc

theorem Loaded.sameLeaf (hl : Loaded s0 done s) (hl1 : Loaded s0 (done ++ [p]) s1) {q : PPointer}
    (hq : q ∈ done) : SameLeaf s s1 q := by
  refine ⟨?_, ?_, ?_, ?_⟩
  · rw [hl.leafAt, hl1.leafAt]
  · rw [hl.leafAt, hl1.leafAt]
  · rw [hl.leafAt, hl1.leafAt]
  · rw [hl.n_eq q hq, hl1.n_eq q (by simp [hq])]

/-- The next leaf of the chain goes to the right end of the tree. -/
theorem Ascending.leafAppend (ha : Ascending env s0 chain) (hchain : chain = done ++ p :: rest)
    (hl : Loaded s0 done s) (hl1 : Loaded s0 (done ++ [p]) s1) :
    LeafAppend (fun a b q => q ∈ done ∧ leafPred env (LEAF_DEGREE * 2) s a b q)
      (leafPred env (LEAF_DEGREE * 2) s1) ((s0.leafAt p).minKey LEAF_DEGREE) p := by
  have hp : p ∈ chain := by simp [hchain]
  have hmin := ha.minKey_mem hp
  have hbelow : ∀ q ∈ done, ∀ k ∈ (s.leafAt q).keys LEAF_DEGREE,
      k < (s0.leafAt p).minKey LEAF_DEGREE := fun q hq k hk => by
    rw [hl.leafAt] at hk
    exact ha.lt hchain hq k hk _ hmin
  refine ⟨fun a b q hq => leafPred_gap a b q hq.2, leafPred_gap, ?_, ?_, ?_, ?_⟩
  · rintro a b q ⟨hq, hP⟩ x hx y hy
    obtain rfl := Option.some.inj hy
    obtain ⟨k, hk⟩ := hP.1.exists_key
    exact ((hP.2 k hk).1 x hx).trans_lt (hbelow q hq k hk)
  · exact fun a b q hq => (hl.sameLeaf hl1 hq.1).leafPred hq.2
  · rintro a q ⟨hq, hP⟩
    obtain ⟨hw, hk⟩ := (hl.sameLeaf hl1 hq).leafPred hP
    refine ⟨hw, fun k hk' => ⟨(hk k hk').1, fun u hu => ?_⟩⟩
    obtain rfl := Option.some.inj hu
    rw [(hl.sameLeaf hl1 hq).keys] at hk'
    exact hbelow q hq k hk'
  · refine ⟨hl1.leafWf ha (by simp) hp, fun k hk => ⟨fun l hl' => ?_, by simp⟩⟩
    obtain rfl := Option.some.inj hl'
    rw [hl1.leafAt] at hk
    exact LeafImage.minKey_le hk

/-- The tree over the leaves loaded so far. -/
def BulkTree (env : Env) (d : ℕ) (done : List PPointer) (t : FPTree) (s : World) : Prop :=
  t.degree = d ∧ (inner t.root).leaves = done ∧ TreeOk env d (LEAF_DEGREE * 2) t s

/-- One turn of the loop keeps a search tree. -/
theorem Ascending.bulk_step (ha : Ascending env s0 chain) (hd : 1 ≤ d)
    (hchain : chain = done ++ p :: rest) (hl : Loaded s0 done s) (hT : BulkTree env d done t s)
    (hl1 : Loaded s0 (done ++ [p]) s1) :
    ∃ r t', Node.insertLeaf env ⟨(s0.leafAt p).minKey LEAF_DEGREE,
      .leaf p⟩ (.inner t.root) = some r ∧
      t.afterInsert r = some t' ∧ BulkTree env d (done ++ [p]) t' s1 := by
  obtain ⟨hdeg, hleaves, hr | ⟨h, hr⟩⟩ := hT
  · rw [hr.leaves_eq] at hleaves
    subst hleaves
    have hQ : leafPred env (LEAF_DEGREE * 2) s1 none none p :=
      ⟨hl1.leafWf ha (by simp) (by simp [hchain]), fun k _ => by simp [InRange]⟩
    obtain ⟨r, t', hins, hafter, hdeg', hr', hlv⟩ := @EmptyRoot.insertLeaf env d _
      ((s0.leafAt p).minKey LEAF_DEGREE) p t hr hQ
    exact ⟨r, t', hins, hafter, hdeg'.trans hdeg, hlv, Or.inr ⟨0, hr'⟩⟩
  · have hr1 : RootRanged d (fun a b q => q ∈ done ∧
        leafPred env (LEAF_DEGREE * 2) s a b q) h t.root :=
      hr.mono fun q hq a b hP => ⟨hleaves ▸ hq, hP⟩
    obtain ⟨r, t', h', hins, hafter, hdeg', hr', hlv⟩ :=
      @Node.RootRanged.insertLeaf env d h _ _ _ _ t hd
        (ha.leafAppend hchain hl hl1) hr1
    exact ⟨r, t', hins, hafter, hdeg'.trans hdeg, by rw [hlv, hleaves], Or.inr ⟨h', hr'⟩⟩

/-- The store after a bulk load of leaves in key order. -/
theorem Ascending.construct (ha : Ascending env s chain) (hc : Chained s chain) (hd : 1 ≤ d)
    (fuel : ℕ) (hfuel : chain.length < fuel) :
    ∃ t s', FPTree.construct env fuel d s = some (t, s') ∧ Loaded s chain s' ∧
      BulkTree env d chain t s' := by
  obtain ⟨e, he, hstart, hlink⟩ := hc.links
  have hT : BulkTree env d [] ⟨InnerNode.create d true, d⟩ s :=
    ⟨rfl, rfl, Or.inl ⟨rfl, rfl, rfl, rfl⟩⟩
  obtain ⟨t, s', hloop, hres⟩ := bulkLoop_spec hc.nodup hc.used he
    (fun done p rest t s2 s1 hchain hl hT hl1 => ha.bulk_step hd hchain hl hT hl1) chain
    [] _ s fuel rfl hlink hfuel (loaded_nil s) hT
  refine ⟨t, s', ?_, hres⟩
  rw [FPTree.construct, hstart]
  exact hloop

/-- A tree whose leaves have at most `cap'` entries each. -/
theorem TreeOk.lower {cap cap' : ℕ} (h : TreeOk env d cap t s)
    (hlen : ∀ p ∈ (inner t.root).leaves, ((s.leafAt p).slots LEAF_DEGREE).length ≤ cap') :
    TreeOk env d cap' t s := by
  rcases h with hempty | ⟨h, hr⟩
  · exact Or.inl hempty
  · refine Or.inr ⟨h, hr.mono fun p hp a b hP => ?_⟩
    exact ⟨⟨hP.1.n_eq, hP.1.pos, hlen p hp, hP.1.ok⟩, hP.2⟩

theorem BulkTree.rootRanged (hT : BulkTree env d chain t s) (hne : chain ≠ []) :
    ∃ h, RootRanged d (leafPred env (LEAF_DEGREE * 2) s) h t.root := by
  obtain ⟨-, hleaves, hr | hr⟩ := hT
  · exact absurd (hleaves ▸ hr.leaves_eq) hne
  · exact hr

theorem BulkTree.stored (hT : BulkTree env d chain t s1) (hl : Loaded s chain s1) :
    stored t s1 = pairsOf s chain := by
  rw [FPTreeDB.stored, hT.2.1]
  exact List.flatMap_congr fun p _ => by rw [hl.leafAt]

/-- What `find` returns after a bulk load. -/
theorem BulkTree.find {m : Key → Option Value} (hT : BulkTree env d chain t s1)
    (hl : Loaded s chain s1) (hne : chain ≠ []) (hm : Represents (pairsOf s chain) m) (k : Key) :
    t.find env k s1 = some ((m k).getD MAX_VALUE) := by
  obtain ⟨h, hr⟩ := hT.rootRanged hne
  rw [← hT.stored hl] at hm
  exact find_of_represents hr hm k

theorem BulkTree.represents (hT : BulkTree env d chain t s1) (hl : Loaded s chain s1)
    (hnd : chain.Nodup) (hne : chain ≠ []) :
    Represents (pairsOf s chain) (lookup (pairsOf s chain)) := by
  obtain ⟨h, hr⟩ := hT.rootRanged hne
  rw [← hT.stored hl]
  exact represents_lookup (RootRanged.keys_nodup hr (hT.2.1 ▸ hnd))

end Ascending

/-- Bulk loading. From every non-empty chain of leaves in key order, whatever their
    slots, `bulkLoading` terminates with a search tree of the given degree over
    exactly these leaves, with their counts and links, on which `find` returns what
    the leaves hold. -/
theorem bulkLoading_correct (env : Env) (d : ℕ) (hd : 1 ≤ d) (s : World) (chain : List PPointer)
    (hne : chain ≠ []) (hc : Chained s chain) (ha : Ascending env s chain) (fuel : ℕ)
    (hfuel : chain.length < fuel) :
    ∃ t s', FPTree.construct env fuel d s = some (t, s') ∧ (inner t.root).leaves = chain ∧
      (∀ p ∈ chain,
        (s'.nodes p).map LeafNode.n = some (((s.leafAt p).slots LEAF_DEGREE).length : ℤ)) ∧
      Linked some s'.next chain none ∧ Linked some s'.prev chain.reverse none ∧
      SearchTree env d (LEAF_DEGREE * 2) t s' ∧
      (∀ k v, (∃ p ∈ chain, ⟨k, v⟩ ∈ (s.leafAt p).pairs LEAF_DEGREE) → t.find env k s' = some v) ∧
      ∀ k, (∀ p ∈ chain, k ∉ (s.leafAt p).keys LEAF_DEGREE) → t.find env k s' = some MAX_VALUE := by
  obtain ⟨t, s', hres, hl, hdeg, hleaves, htree⟩ := ha.construct hc hd fuel hfuel
  have hT : BulkTree env d chain t s' := ⟨hdeg, hleaves, htree⟩
  have hrep := hT.represents hl hc.nodup hne
  have hfind := hT.find hl hne hrep
  refine ⟨t, s', hres, hleaves, hl.n_eq, hl.next, hl.prev, searchTree_iff.mpr htree, ?_, ?_⟩
  · intro k v hkv
    rw [hfind, (hrep k v).mp (List.mem_flatMap.mpr hkv)]
    rfl
  · intro k hk
    rw [hfind]
    cases hv : lookup (pairsOf s chain) k with
    | none => rfl
    | some v =>
      obtain ⟨p, hp, hmem⟩ := List.mem_flatMap.mp ((hrep k v).mpr hv)
      exact absurd (LeafImage.mem_keys_of_mem_pairs hmem) (hk p hp)

/-- A leaf whose only entry is in slot `pos`. -/
def LeafImage.single (keyHash : Key → Byte) (pos : ℕ) (k : Key) (v : Value) (pNext : PPointer) :
    LeafImage :=
  { LeafImage.zero.insertAt keyHash pos k v with pNext := pNext }

theorem LeafImage.single_pairs (keyHash : Key → Byte) {pos : ℕ} (hpos : pos < LEAF_DEGREE * 2)
    (k : Key) (v : Value) (pNext : PPointer) :
    (LeafImage.single keyHash pos k v pNext).pairs LEAF_DEGREE = [⟨k, v⟩] ∧
      (LeafImage.single keyHash pos k v pNext).Ok keyHash LEAF_DEGREE := by
  have hbit : LeafImage.zero.getBit LEAF_DEGREE pos = false := by
    simp [LeafImage.getBit, LeafImage.zero]
  have hzero : LeafImage.zero.pairs LEAF_DEGREE = [] := by
    rw [LeafImage.pairs, LeafImage.slots_zero]; rfl
  have hok : LeafImage.zero.Ok keyHash LEAF_DEGREE :=
    ⟨by simp [LeafImage.slots_zero], by simp [LeafImage.keys, hzero]⟩
  have hk : k ∉ LeafImage.zero.keys LEAF_DEGREE := by simp [LeafImage.keys, hzero]
  have hpairs := @LeafImage.pairs_insertAt _ _ keyHash k v pos hpos hbit
  have hins := hok.insertAt (v := v) hpos hbit hk
  rw [hzero, List.perm_singleton] at hpairs
  exact ⟨hpairs, hins.fingerprint, hins.distinct⟩

/-- Two leaves of leaf group 1, the first linked to the second. -/
def twoLeaves (env : Env) : World where
  startLeaf := groupPointer 1 0
  maxFileId := 2
  freeNum := 0
  freeList := []
  mem _ := ⟨2, fun i => if i < 2 then 1 else 0, fun i =>
    if i = 0 then LeafImage.single env.keyHash 7 5 50 (groupPointer 1 1)
    else LeafImage.single env.keyHash 0 9 90 PPointer.zero⟩
  disk := Storage.empty
  trace := []
  nodes _ := none

theorem bulkLoading_correct_two :
    ∃ t s', FPTree.construct Env.flat 3 1 (twoLeaves Env.flat) = some (t, s') ∧
    (inner t.root).leaves = [groupPointer 1 0, groupPointer 1 1] ∧
    t.find Env.flat 9 s' = some 90 ∧ t.find Env.flat 6 s' = some MAX_VALUE := by
  have h0 : (twoLeaves Env.flat).leafAt (groupPointer 1 0) =
      LeafImage.single Env.flat.keyHash 7 5 50 (groupPointer 1 1) := by
    rw [World.leafAt, leafIndex_groupPointer (by decide)]
    rfl
  have h1 : (twoLeaves Env.flat).leafAt (groupPointer 1 1) =
      LeafImage.single Env.flat.keyHash 0 9 90 PPointer.zero := by
    rw [World.leafAt, leafIndex_groupPointer (by decide)]
    rfl
  obtain ⟨p0, ok0⟩ :=
    LeafImage.single_pairs Env.flat.keyHash (show 7 < LEAF_DEGREE * 2 by decide) 5 50
      (groupPointer 1 1)
  obtain ⟨p1, ok1⟩ :=
    LeafImage.single_pairs Env.flat.keyHash (show 0 < LEAF_DEGREE * 2 by decide) 9 90
      PPointer.zero
  have hc : Chained (twoLeaves Env.flat) [groupPointer 1 0, groupPointer 1 1] := by
    refine ⟨by decide, ?_, PPointer.zero, not_used_zero _, rfl, congrArg LeafImage.pNext h0,
      congrArg LeafImage.pNext h1, trivial⟩
    simp only [List.mem_cons, List.not_mem_nil, or_false, forall_eq_or_imp, forall_eq]
    exact ⟨by decide +kernel, by decide +kernel⟩
  have ha : Ascending Env.flat (twoLeaves Env.flat) [groupPointer 1 0, groupPointer 1 1] := by
    refine ⟨?_, ?_, ?_⟩
    · simp only [List.mem_cons, List.not_mem_nil, or_false, forall_eq_or_imp, forall_eq, h0, h1,
        ← List.length_pos_iff, ← LeafImage.length_pairs, p0, p1]
      decide
    · simp only [List.mem_cons, List.not_mem_nil, or_false, forall_eq_or_imp, forall_eq, h0, h1]
      exact ⟨ok0, ok1⟩
    · simp only [List.isChain_cons_cons, List.isChain_singleton, and_true, h0, h1,
        LeafImage.keys, p0, p1, List.map_cons, List.map_nil, List.mem_singleton, forall_eq]
      exact Fin.lt_def.mpr (by decide)
  obtain ⟨t, s', hres, hleaves, -, -, -, -, hfind, hnone⟩ :=
    bulkLoading_correct Env.flat 1 le_rfl (twoLeaves Env.flat) _ (by simp) hc ha 3 (by decide)
  refine ⟨t, s', hres, hleaves,
    hfind 9 90 ⟨groupPointer 1 1, by simp, by simp [h1, p1]⟩, hnone 6 ?_⟩
  simp only [List.mem_cons, List.not_mem_nil, or_false, forall_eq_or_imp, forall_eq, h0, h1,
    LeafImage.keys, p0, p1, List.map_cons, List.map_nil]
  decide

end FPTreeDB
