import FPTreeDB.Tree.AllocFailure
import FPTreeDB.Tree.Recovery

/-!
# Stops inside an insert or an update

Every step that reaches the storage appends its contents to `trace`. A call that leaves
`s.trace ++ points` behind can be stopped at `s.disk` and at each of the `points`.

* `SplitPoints`: the four persists of a split.
* `Ascending.merge`: up to the last of them the old leaf holds what the two halves hold.
* `write_atomic`: stopped anywhere inside an insert or an update that needs no new leaf
  group, the store recovers to what it was before the call or after it.
-/

namespace FPTreeDB

open PAllocator Runs Node Links

/-! ## The storage inside a call -/

/-- `getLeaf` when the bytes of the leaf are zeroed and the group header is not yet
    written (p_allocator.cpp:146-158). -/
def zeroLeaf (p : PPointer) (s : World) : World :=
  let s := { s with
    startLeaf := if s.ifLeafUsed s.startLeaf then s.startLeaf else p
    freeList := s.freeList.dropLast
    freeNum := s.freeNum - 1 }
  (s.setLeaf p LeafImage.zero).persistLeaf p

section Points

variable {env : Env} {s s' x : World} {p q : PPointer} {l1 l2 : List PPointer} {a : LeafNode}
  {nc : Option (Key × PPointer)}

theorem claimLeaf_trace (p : PPointer) (s : World) :
    (claimLeaf p s).trace = s.trace ++ [(zeroLeaf p s).disk, (claimLeaf p s).disk] := by
  have h1 : (claimLeaf p s).trace = (zeroLeaf p s).trace ++ [(claimLeaf p s).disk] := rfl
  have h2 : (zeroLeaf p s).trace = s.trace ++ [(zeroLeaf p s).disk] := rfl
  rw [h1, h2, List.append_assoc]
  rfl

theorem edit_trace {img : LeafImage} {nd : LeafNode} :
    (s.edit p img nd).trace = s.trace ++ [(s.edit p img nd).disk] := rfl

/-- With a free leaf at hand `getLeaf` claims it. -/
theorem getLeaf_claims (hfree : s.freeNum ≠ 0) (hg : getLeaf Sys.ok s = (some p, s')) :
    takeLeaf s = (some p, s') ∧ s' = claimLeaf p s := by
  rw [getLeaf, if_neg hfree] at hg
  refine ⟨hg, ?_⟩
  unfold takeLeaf at hg
  split at hg
  · cases (Prod.mk.inj hg).1
  · split_ifs at hg
    · cases (Prod.mk.inj hg).1
    · obtain ⟨hp, rfl⟩ := Prod.mk.inj hg
      rw [Option.some.inj hp]

/-- The storage inside a split: the zeroed leaf, the group header, the new leaf and the
    old leaf are persisted in turn. -/
structure SplitPoints (x : World) (q : PPointer) (img : LeafImage) (nd : LeafNode) (s' : World) :
    Prop where
  taken : Taken x q (claimLeaf q x)
  trace : s'.trace = x.trace ++ [(zeroLeaf q x).disk, (claimLeaf q x).disk,
    ((claimLeaf q x).edit q img nd).disk, s'.disk]
  catalog : s'.disk.catalog = x.disk.catalog
  maxFileId : s'.maxFileId = x.maxFileId

theorem split_points (hst : StoreInv x (l1 ++ p :: l2)) (hn : x.nodes p = some a)
    (hfull : 2 * (LEAF_DEGREE : ℤ) ≤ a.n) (hfree : x.freeNum ≠ 0)
    (hs : LeafNode.split Sys.ok p x = some (nc, s')) :
    ∃ q img nd, nc = some ((x.leafAt p).findSplitKey LEAF_DEGREE, q) ∧ SplitLeaf x l1 p q l2 s' ∧
      SplitPoints x q img nd s' := by
  obtain ⟨q, s0, hc⟩ := split_create hn hfull hs
  obtain ⟨s'', hs', hsplit⟩ := hst.split hn hfull hc
  rw [hs] at hs'
  obtain ⟨rfl, rfl⟩ := Prod.mk.inj (Option.some.inj hs')
  obtain ⟨s1, hg, rfl⟩ := create_spec hc
  obtain ⟨htake, rfl⟩ := getLeaf_claims hfree hg
  obtain ⟨hpq, hleaf, hp1, hq1, -⟩ :=
    splitBytes_spec hst.alloc ((hst.used_iff p).mpr (by simp)) hn hc
  rw [split_eq hn hfull hc hp1 hpq hq1] at hs
  obtain ⟨s2, hlink, heq⟩ := Option.map_eq_some_iff.mp hs
  obtain ⟨-, rfl⟩ := Prod.mk.inj heq
  generalize hb : World.splitBytes _ p q a _ = b at hlink
  -- the links are not on storage
  obtain ⟨hdisk, htrace, hmax⟩ : s2.disk = b.disk ∧ s2.trace = b.trace ∧
      s2.maxFileId = b.maxFileId := by
    refine linkAfter_keeps (I := fun z => z.disk = b.disk ∧ z.trace = b.trace ∧
      z.maxFileId = b.maxFileId) (fun h hs => ?_) ⟨rfl, rfl, rfl⟩ hlink
    obtain ⟨nd, -, rfl⟩ := modifyNode_eq hs
    exact h
  subst hb
  refine ⟨q, ((claimLeaf q x).leafAt p).splitNew LEAF_DEGREE ((claimLeaf q x).leafAt q)
    (((claimLeaf q x).leafAt p).findSplitKey LEAF_DEGREE), ⟨LEAF_DEGREE, none, none⟩, rfl, hsplit,
    takeLeaf_spec htake, ?_, by rw [hdisk]; rfl, by rw [hmax]; rfl⟩
  rw [htrace, hdisk, World.splitBytes, edit_trace, edit_trace, List.append_assoc]
  show (claimLeaf q x).trace ++ _ = _
  rw [claimLeaf_trace, List.append_assoc]
  rfl

theorem Recoverable.recovers_congr {chain : List PPointer} {m : Key → Option Value} {y : World}
    (h : Recoverable env x chain) (hne : chain ≠ []) (hm : Represents (pairsOf x chain) m)
    (hs : Synced y) (hc : y.disk.catalog = x.disk.catalog) (hf : y.disk.freeList = x.disk.freeList)
    (hused : ∀ r ∈ chain, y.ifLeafUsed r = true) (hleaf : ∀ r ∈ chain, y.leafAt r = x.leafAt r) :
    Recovers env y.disk (answers m) := by
  refine (h.congr hs hc hf hused hleaf).recovers hne ?_
  have hpairs : pairsOf y chain = pairsOf x chain :=
    List.flatMap_congr fun r hr => by rw [hleaf r hr]
  rw [hpairs]
  exact hm

/-- Up to the persist of the old leaf, the new leaf is not part of the chain. -/
theorem SplitPoints.recovers {chain : List PPointer} {m : Key → Option Value} {img : LeafImage}
    {nd : LeafNode} (h : SplitPoints x q img nd s') (hrec : Recoverable env x chain)
    (hne : chain ≠ []) (hm : Represents (pairsOf x chain) m) (hq : q ∉ chain) :
    ∀ D ∈ [(zeroLeaf q x).disk, (claimLeaf q x).disk, ((claimLeaf q x).edit q img nd).disk],
      Recovers env D (answers m) := by
  have hqa : Aligned q := aligned_of_exist h.taken.exist
  have halign : ∀ r ∈ chain, Aligned r := fun r hr =>
    aligned_of_exist (Bool.and_eq_true_iff.mp (hrec.used r hr)).1
  have hrq : ∀ r ∈ chain, r ≠ q := fun r hr hrq => hq (hrq ▸ hr)
  have hsynced : Synced (claimLeaf q x) := h.taken.synced hrec.synced
  have hused : ∀ r ∈ chain, (claimLeaf q x).ifLeafUsed r = true := fun r hr =>
    h.taken.used_iff.mpr (Or.inr (hrec.used r hr))
  have hleaf : ∀ r ∈ chain, (claimLeaf q x).leafAt r = x.leafAt r := fun r hr =>
    h.taken.leafAt_of_ne (halign r hr) (hrq r hr)
  intro D hD
  simp only [List.mem_cons, List.not_mem_nil, or_false] at hD
  rcases hD with rfl | rfl | rfl
  · refine hrec.recovers_congr hne hm ?_ rfl rfl (fun r hr => ?_) fun r hr => ?_
    · have hx : Synced { x with
          startLeaf := if x.ifLeafUsed x.startLeaf then x.startLeaf else q
          freeList := x.freeList.dropLast
          freeNum := x.freeNum - 1 } := hrec.synced
      exact hx.setLeaf_persistLeaf _
    · rw [← hrec.used r hr]
      exact World.ifLeafUsed_congr rfl (World.headerByte_setLeaf _)
    · exact World.leafAt_setLeaf_of_ne _ hqa (halign r hr) (hrq r hr)
  · exact hrec.recovers_congr hne hm hsynced rfl rfl hused hleaf
  · refine hrec.recovers_congr hne hm (hsynced.setLeaf_persistLeaf _) rfl rfl (fun r hr => ?_)
      fun r hr => ?_
    · rw [edit_sameHeads.used]
      exact hused r hr
    · rw [edit_leafAt_of_ne hqa (halign r hr) (hrq r hr)]
      exact hleaf r hr

/-- The leaves before a split are in key order when those after it are: the old leaf still
    holds what the two halves hold. -/
theorem Ascending.merge (h : Ascending env s' (l1 ++ p :: q :: l2))
    (hok : (x.leafAt p).Ok env.keyHash LEAF_DEGREE) (hsame : ∀ r ∈ l1 ++ l2, SameLeaf x s' r)
    (hkeys : ∀ k, k ∈ (x.leafAt p).keys LEAF_DEGREE ↔
      k ∈ (s'.leafAt p).keys LEAF_DEGREE ∨ k ∈ (s'.leafAt q).keys LEAF_DEGREE) :
    Ascending env x (l1 ++ p :: l2) := by
  have hpair := h.pairwise
  rw [List.pairwise_append, List.pairwise_cons, List.pairwise_cons] at hpair
  obtain ⟨hl1, ⟨hp, hq, hl2⟩, hcross⟩ := hpair
  have hrest : ∀ r ∈ l1 ++ l2, (x.leafAt r).keys LEAF_DEGREE = (s'.leafAt r).keys LEAF_DEGREE :=
    fun r hr => (hsame r hr).keys.symm
  have hcases : ∀ r ∈ l1 ++ p :: l2, r = p ∨ (r ∈ l1 ++ l2 ∧ r ∈ l1 ++ p :: q :: l2) := by
    intro r hr
    simp only [List.mem_append, List.mem_cons] at hr ⊢
    tauto
  refine ⟨fun r hr => ?_, fun r hr => ?_, List.Pairwise.isChain ?_⟩
  · rcases hcases r hr with rfl | ⟨hr, hr'⟩
    · have hmem := (hkeys _).mpr (Or.inl (h.minKey_mem (p := r) (by simp)))
      rw [← List.length_pos_iff, ← LeafImage.length_keys]
      exact List.length_pos_of_mem hmem
    · rw [← (hsame r hr).slots]
      exact h.ne_nil r hr'
  · rcases hcases r hr with rfl | ⟨hr, hr'⟩
    · exact hok
    · exact (hsame r hr).symm.ok (h.ok r hr')
  · refine List.pairwise_append.mpr ⟨?_, List.pairwise_cons.mpr ⟨fun r hr a ha b hb => ?_, ?_⟩, ?_⟩
    · refine hl1.imp_of_mem fun {r r'} hr hr' hlt => ?_
      rw [hrest r (by simp [hr]), hrest r' (by simp [hr'])]
      exact hlt
    · rw [hrest r (by simp [hr])] at hb
      rcases (hkeys a).mp ha with ha | ha
      · exact hp r (by simp [hr]) a ha b hb
      · exact hq r hr a ha b hb
    · refine hl2.imp_of_mem fun {r r'} hr hr' hlt => ?_
      rw [hrest r (by simp [hr]), hrest r' (by simp [hr'])]
      exact hlt
    · intro r hr r' hr' a ha b hb
      rw [hrest r (by simp [hr])] at ha
      rcases List.mem_cons.mp hr' with rfl | hr'
      · rcases (hkeys b).mp hb with hb | hb
        · exact hcross r hr r' (by simp) a ha b hb
        · exact hcross r hr q (by simp) a ha b hb
      · rw [hrest r' (by simp [hr'])] at hb
        exact hcross r hr r' (by simp [hr']) a ha b hb

end Points

/-! ## Inserts and updates -/

/-- The step `s'` after `s` is one store to a leaf and its persist. -/
structure OneWrite (s s' : World) : Prop where
  trace : s'.trace = s.trace ++ [s'.disk]
  catalog : s'.disk.catalog = s.disk.catalog
  maxFileId : s'.maxFileId = s.maxFileId
  startLeaf : s'.startLeaf = s.startLeaf

/-- Stopped before, inside or after the call, the store recovers to one on which `find`
    answers as before the call or as after it. -/
def WriteAtomic (env : Env) (op : DbOp) (t : FPTree) (s : World) : Prop :=
  ∃ t' s' points, op.step env Sys.ok (t, s) = some (t', s') ∧ s'.trace = s.trace ++ points ∧
    ∀ D ∈ s.disk :: points,
      Recovers env D (fun k => t.find env k s) ∨ Recovers env D fun k => t'.find env k s'

/-- An insert of a fresh key that finds a free leaf if it needs one, or an update of a
    stored key. -/
def InPlace (t : FPTree) (s : World) : DbOp → Prop
  | .insert k _ => k ∉ (stored t s).map KeyValue.k ∧ (NeedsLeaf t s k → s.freeNum ≠ 0)
  | .update k _ => k ∈ (stored t s).map KeyValue.k
  | .remove _ => False

section Writes

variable {env : Env} {d h : ℕ} {t t' : FPTree} {s s' x : World} {p q : PPointer}
  {l1 l2 : List PPointer} {m : Key → Option Value} {k : Key} {v : Value}

theorem edit_oneWrite {img : LeafImage} {nd : LeafNode} : OneWrite s (s.edit p img nd) :=
  ⟨rfl, rfl, rfl, rfl⟩

theorem OneWrite.current (h : OneWrite s s') (hc : CatalogCurrent s) : CatalogCurrent s' := by
  obtain ⟨c, hcat, hmax, hstart⟩ := hc
  exact ⟨c, h.catalog.trans hcat, hmax.trans h.maxFileId.symm, hstart.trans h.startLeaf.symm⟩

theorem update_oneWrite (hu : LeafNode.update env p k v s = some (true, s')) : OneWrite s s' := by
  cases hn : s.nodes p with
  | none => rw [LeafNode.update, hn] at hu; cases hu
  | some nd =>
    cases hf : (s.leafAt p).findSlot env.keyHash LEAF_DEGREE k with
    | none =>
      rw [update_eq_none hn hf] at hu
      cases (Prod.mk.inj (Option.some.inj hu)).1
    | some i =>
      rw [update_eq_some hn hf] at hu
      obtain ⟨-, rfl⟩ := Prod.mk.inj (Option.some.inj hu)
      exact edit_oneWrite

/-- A call that persists one leaf. -/
theorem OneWrite.atomic {op : DbOp} {m' : Key → Option Value} (hw : OneWrite s s')
    (h : DbInv env (t, s) m) (hcat : CatalogCurrent s)
    (hstep : op.step env Sys.ok (t, s) = some (t', s')) (h' : DbInv env (t', s') m') :
    WriteAtomic env op t s := by
  refine ⟨t', s', [s'.disk], hstep, hw.trace, fun D hD => ?_⟩
  rcases List.mem_cons.mp hD with rfl | hD
  · exact Or.inl (h.recovers hcat.covers)
  · obtain rfl := List.mem_singleton.mp hD
    exact Or.inr (h'.recovers (hw.current hcat).covers)

theorem DbInv.update_atomic (h : DbInv env (t, s) m) (hcat : CatalogCurrent s)
    (hk : k ∈ (stored t s).map KeyValue.k) (v : Value) : WriteAtomic env (.update k v) t s := by
  obtain ⟨d, hd, hinv⟩ := h.inv
  rcases hinv.tree with hempty | ⟨_, hr⟩
  · rw [stored, hempty.leaves_eq] at hk
    cases hk
  · rcases @Inv.update env d _ t s k v hinv hr with ⟨hk', -⟩ | ⟨-, s', hu, hs⟩
    · exact absurd hk hk'
    · have hstep : (DbOp.update k v).step env Sys.ok (t, s) = some (t, s') := by
        simp [DbOp.step, hu]
      rw [FPTree.update, Node.update_eq, Option.bind_eq_some_iff] at hu
      obtain ⟨p, -, hu⟩ := hu
      exact (update_oneWrite hu).atomic h hcat hstep (h.updated hd hs)

/-- The keys of a full leaf are those of its two halves. -/
theorem Filled1.keys_split {nd : LeafNode} (hf : Filled1 env s p k v (s.fillSlot env p nd k v))
    {mid : Key} (hli : LeafInserted env s l1 p l2 k v (some (mid, q)) s') (k' : Key) :
    k' ∈ ((s.fillSlot env p nd k v).leafAt p).keys LEAF_DEGREE ↔
      k' ∈ (s'.leafAt p).keys LEAF_DEGREE ∨ k' ∈ (s'.leafAt q).keys LEAF_DEGREE := by
  have hperm : (((s.fillSlot env p nd k v).leafAt p).pairs LEAF_DEGREE).Perm
      ((s'.leafAt p).pairs LEAF_DEGREE ++ (s'.leafAt q).pairs LEAF_DEGREE) := by
    have hpairs := hli.pairs
    rw [show newLeaves p (some (mid, q)) = [p, q] from rfl, pairsOf_cons, pairsOf_cons, pairsOf,
      List.flatMap_nil, List.append_nil] at hpairs
    exact hf.pairs.trans hpairs.symm
  rw [LeafImage.keys, (hperm.map KeyValue.k).mem_iff, List.map_append, List.mem_append]
  rfl

theorem Filled1.represents {nd : LeafNode} (hst : StoreInv s (l1 ++ p :: l2))
    (hf : Filled1 env s p k v (s.fillSlot env p nd k v))
    (hm : Represents (pairsOf s (l1 ++ p :: l2)) m) (hk : m k = none) :
    Represents (pairsOf (s.fillSlot env p nd k v) (l1 ++ p :: l2))
      (Function.update m k (some v)) := by
  refine hm.cons ?_ hk
  have hmid : (pairsOf (s.fillSlot env p nd k v) [p] ++ []).Perm
      (pairsOf s [p] ++ [(⟨k, v⟩ : KeyValue)]) := by
    simp only [pairsOf, List.flatMap_cons, List.flatMap_nil, List.append_nil]
    exact hf.pairs.trans (List.perm_append_singleton _ _).symm
  have hall := pairsOf_middle (@fillSlot_same env s l1 l2 p k v nd hst) hmid
  rw [List.append_nil] at hall
  exact hall.trans (List.perm_append_singleton _ _)

/-- An insert that splits the leaf at `p`. -/
theorem DbInv.split_atomic {nd : LeafNode} {nc : Option (Key × PPointer)} (h : DbInv env (t, s) m)
    (hcat : CatalogCurrent s) (hl : (inner t.root).leaves = l1 ++ p :: l2) (hk : m k = none)
    (hstep : (DbOp.insert k v).step env Sys.ok (t, s) = some (t', s'))
    (hst : StoreInv s (l1 ++ p :: l2)) (hn : s.nodes p = some nd)
    (hfull : 2 * (LEAF_DEGREE : ℤ) ≤ nd.n + 1)
    (hfill : Filled1 env s p k v (s.fillSlot env p nd k v)) (hfree : s.freeNum ≠ 0)
    (hli : LeafInserted env s l1 p l2 k v nc s')
    (hsplit : LeafNode.split Sys.ok p (s.fillSlot env p nd k v) = some (nc, s')) :
    WriteAtomic env (.insert k v) t s := by
  set x := s.fillSlot env p nd k v with hx
  have hw : OneWrite s x := edit_oneWrite
  have hxst : StoreInv x (l1 ++ p :: l2) := hst.edit hn rfl rfl rfl
  obtain ⟨q, img, nd', rfl, hsl, hpts⟩ := split_points hxst edit_nodes_self hfull hfree hsplit
  have h' : DbInv env (t', s') (Function.update m k (some v)) :=
    h.step (.call (.insert k v)) hk hstep
  obtain ⟨_, -, hinv'⟩ := h'.inv
  have hl' : (inner t'.root).leaves = l1 ++ p :: q :: l2 := hinv'.store.unique hsl.store
  -- up to the last persist the leaf still holds all entries, and the chain is the old one
  have hasc : Ascending env x (l1 ++ p :: l2) :=
    (hl' ▸ hinv'.ascending).merge hfill.ok hsl.same (hfill.keys_split hli)
  have hrec : Recoverable env x (l1 ++ p :: l2) :=
    hxst.recoverable h.disk.edit (hw.current hcat).covers hasc
  have hm : Represents (pairsOf x (l1 ++ p :: l2)) (Function.update m k (some v)) := by
    refine hfill.represents hst ?_ hk
    rw [pairsOf, ← hl]
    exact h.represents
  have hne : l1 ++ p :: l2 ≠ [] := by simp
  have hmid := hpts.recovers hrec hne hm hsl.not_mem
  have hcat' : CatalogCurrent s' := by
    obtain ⟨c, hc, hmax, hstart⟩ := hw.current hcat
    refine ⟨c, hpts.catalog.trans hc, hmax.trans hpts.maxFileId.symm, hstart.trans ?_⟩
    rw [hxst.start, hsl.store.start, entry_append, entry_append]
    rfl
  have hfind : (fun k => t'.find env k s') = answers (Function.update m k (some v)) :=
    h'.find (by rw [hl']; simp)
  refine ⟨t', s', [x.disk, (zeroLeaf q x).disk, (claimLeaf q x).disk,
    ((claimLeaf q x).edit q img nd').disk, s'.disk], hstep, ?_, fun D hD => ?_⟩
  · rw [hpts.trace, hw.trace, List.append_assoc]
    rfl
  · simp only [List.mem_cons, List.not_mem_nil, or_false] at hD
    rcases hD with rfl | rfl | hD | hD | hD | rfl
    · exact Or.inl (h.recovers hcat.covers)
    · right
      rw [hfind]
      exact hrec.recovers hne hm
    · right
      rw [hfind]
      exact hmid D (by simp [hD])
    · right
      rw [hfind]
      exact hmid D (by simp [hD])
    · right
      rw [hfind]
      exact hmid D (by simp [hD])
    · exact Or.inr (h'.recovers hcat'.covers)

theorem WriteInv.insert_atomic (h : WriteInv env (t, s) m) (hcat : CatalogCurrent s)
    (hne : stored t s ≠ []) (hkn : k ∉ (stored t s).map KeyValue.k)
    (hroom : NeedsLeaf t s k → s.freeNum ≠ 0) (v : Value) :
    WriteAtomic env (.insert k v) t s := by
  obtain ⟨d, hd, hinv⟩ := h.inv
  rcases hinv.tree with hempty | ⟨_, hr⟩
  · rw [stored, hempty.leaves_eq] at hne
    exact absurd rfl hne
  have hk : m k = none := h.represents.not_mem_keys.mp hkn
  obtain ⟨t', s', hres⟩ := hinv.insert_some hd h.alloc hkn v
  obtain ⟨l1, p, l2, hl, hroute, hw, hst, hiff⟩ := hinv.route hr k
  obtain ⟨nc, hleaf⟩ := hr.insert_leaf hroute hres
  have hkp : k ∉ (s.leafAt p).keys LEAF_DEGREE := fun hk' => hkn (hiff.mpr hk')
  have hli := hw.insert hst hkp hleaf
  obtain ⟨nd, hn, hnn⟩ := hw.exists_node
  obtain ⟨hfree, hfill⟩ := @fillSlot_spec env s p k v nd hw.ok hw.le_cap hnn hkp
  rw [insert_eq hn hfree] at hleaf
  split_ifs at hleaf with hfull
  · have hneed : NeedsLeaf t s k := by
      refine Or.inr ⟨p, hroute, ?_⟩
      have := hw.le_cap
      rw [hnn] at hfull
      simp only [LEAF_MAX, LEAF_DEGREE] at *
      omega
    exact h.toDbInv.split_atomic hcat hl hk hres hst hn (by omega) hfill (hroom hneed) hli hleaf
  · obtain ⟨-, rfl⟩ := Prod.mk.inj (Option.some.inj hleaf)
    exact edit_oneWrite.atomic h.toDbInv hcat hres (h.toDbInv.step (.call (.insert k v)) hk hres)

end Writes

/-- Crash atomicity of `insert` and `update`. For every store with a key reached by inserts
    of fresh keys, updates and clean reopenings, whose catalog on storage is current:
    stopped at any point of an insert of a fresh key that needs no new leaf group, or of an
    update of a stored key, the store recovers to what it was before the call or after it. -/
theorem write_atomic (env : Env) (d : ℕ) (hd : 1 ≤ d) (acts : List DbAct)
    (hacts : Allowed DbAct.WritePre DbAct.apply acts fun _ => none) (t : FPTree) (s : World)
    (hrun : run (DbAct.step env) acts (emptyDb env d) = some (t, s)) (hne : stored t s ≠ [])
    (hcat : CatalogCurrent s) (op : DbOp) (hop : InPlace t s op) : WriteAtomic env op t s := by
  have h := acts_writeInv env hd acts hacts hrun
  cases op with
  | insert k v => exact h.insert_atomic hcat hne hop.1 hop.2 v
  | update k v => exact h.toDbInv.update_atomic hcat hop v
  | remove k => exact hop.elim

/-- A consistent store with fewer leaves than a group has leaves has a free one. -/
theorem StoreInv.freeNum_ne_zero {s : World} {chain : List PPointer} (hst : StoreInv s chain)
    (ha : AllocInv s) (hne : chain ≠ []) (hlen : chain.length < LEAF_GROUP_AMOUNT) :
    s.freeNum ≠ 0 := by
  obtain ⟨p, hp⟩ := List.exists_mem_of_ne_nil chain hne
  obtain ⟨h1, h2, -⟩ := ifLeafExist_iff.mp (ifLeafUsed_iff.mp ((hst.used_iff p).mpr hp)).1
  obtain ⟨q, hq, hqc⟩ : ∃ q ∈ groupPointers p.fileId, q ∉ chain := by
    by_contra hall
    have hsub : groupPointers p.fileId ⊆ chain := fun q hq => by
      by_contra hqc
      exact hall ⟨q, hq, hqc⟩
    have hle := ((nodup_groupPointers p.fileId).subperm hsub).length_le
    rw [length_groupPointers] at hle
    omega
  obtain ⟨hqa, hqf⟩ := mem_groupPointers.mp hq
  have hexist : s.ifLeafExist q = true := ifLeafExist_iff.mpr ⟨by omega, by omega, hqa⟩
  have hfree : s.headerByte q = 0 := by
    by_contra hb
    exact hqc ((hst.used_iff q).mp (ifLeafUsed_iff.mpr ⟨hexist, hb⟩))
  have hmem := ha.complete q hexist hfree
  rw [ha.freeNum_eq]
  exact (List.length_pos_of_mem hmem).ne'

/-- The insert that splits the only leaf of a reopened store. -/
theorem write_atomic_split :
    ∃ t s, run (DbAct.step Env.flat) (insertActs (keysBelow LEAF_MAX) ++ [.reopen 2 1])
        (emptyDb Env.flat 1) = some (t, s) ∧
      (inner t.root).leaves.length = 1 ∧ (stored t s).length = LEAF_MAX ∧
      WriteAtomic Env.flat (.insert 111 0) t s := by
  obtain ⟨t0, s0, hrun0, hall0, hlen0⟩ :=
    @insertActs_store 1 Env.flat le_rfl (keysBelow LEAF_MAX) (keysBelow_nodup (by decide))
  rw [length_keysBelow] at hlen0
  have hw0 := acts_writeInv Env.flat le_rfl _ hall0 hrun0
  obtain ⟨_, -, hinv0⟩ := hw0.inv
  have hle : (inner t0.root).leaves.length ≤ 1 := hw0.length_leaves_le_one (by rw [hlen0]; decide)
  obtain ⟨t, s, hres⟩ := hinv0.reopen_some (1 : ℕ+).pos hw0.disk.synced hw0.file
    (Nat.lt_succ_of_le hle)
  have hr := hinv0.reopen (1 : ℕ+).pos hw0.disk.synced hw0.file hres
  have hrun : run (DbAct.step Env.flat) (insertActs (keysBelow LEAF_MAX) ++ [.reopen 2 1])
      (emptyDb Env.flat 1) = some (t, s) := by
    rw [run_append, hrun0, Option.bind_some, run, DbAct.step, hres]
    rfl
  have hall : Allowed DbAct.WritePre DbAct.apply (insertActs (keysBelow LEAF_MAX) ++ [.reopen 2 1])
      fun _ => none :=
    hall0.append _ ⟨trivial, trivial⟩
  have hstored : (stored t s).length = LEAF_MAX := by rw [hr.stored, hlen0]
  have hne : stored t s ≠ [] := fun hnil => by
    rw [hnil] at hstored
    cases hstored
  have hleaves : (inner t.root).leaves ≠ [] := fun hnil => hne (by rw [stored, hnil]; rfl)
  have hone : (inner t.root).leaves.length = 1 := by
    rw [hr.leaves] at hleaves ⊢
    exact le_antisymm hle (List.length_pos_iff.mpr hleaves)
  have hw := acts_writeInv Env.flat le_rfl _ hall hrun
  refine ⟨t, s, hrun, hone, hstored, ?_⟩
  refine write_atomic Env.flat 1 le_rfl _ hall t s hrun hne ⟨_, hr.catalog, rfl, rfl⟩
    _ ⟨?_, fun _ => ?_⟩
  · rw [hw.represents.not_mem_keys, runSpec, List.foldl_append, List.foldl_cons,
      List.foldl_nil, DbAct.apply, ← runSpec]
    by_contra hkey
    rcases (insertActs_apply (keysBelow LEAF_MAX) (fun _ => none) 111).mp hkey with hmem | hmem
    · exact absurd (mem_keysBelow hmem) (by decide)
    · exact hmem rfl
  · exact hr.inv.store.freeNum_ne_zero hw.alloc hleaves (hone.trans_lt (by decide))

end FPTreeDB
