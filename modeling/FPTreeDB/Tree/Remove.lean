import FPTreeDB.Tree.Rebalance

/-!
# Removal from a tree

The recursion of `InnerNode::remove`, separated from what happens in the leaf: the
leaf at the end of the route stays or is taken out, and the nodes above it are
repaired. `P` is the leaf predicate before the removal, `Q` the one after it.

* `Ranged.remove`: the call on a child, and its parent afterwards.
* `RootRanged.remove`: the whole tree.
-/

namespace FPTreeDB

open SepChain

namespace Node

variable {env : Env} {sys : Sys} {d : ℕ} {P Q : LeafPred} {k : Key} {s s1 : World} {p : PPointer}
  {rm del : Bool}

/-- What is known of a removal from the leaf at `p`. A neighbour of a leaf that is
    taken out is then responsible for its range too. -/
structure LeafRemove (env : Env) (sys : Sys) (P Q : LeafPred) (k : Key) (s : World) (p : PPointer)
    (rm del : Bool) (s1 : World) : Prop where
  result : LeafNode.remove env sys p k false s = some (rm, del, s1)
  keep : del = false → ∀ a b, P a b p → Q a b p
  other : ∀ q, q ≠ p → ∀ a b, P a b q → Q a b q
  widenLow : ∀ a b x q, P a (some x) p → Q (some x) b q → Q a b q
  widenUpp : ∀ a b x q, Q a (some x) q → P (some x) b p → Q a b q

/-- The leaves that remain of `p`. -/
def remains (p : PPointer) (del : Bool) : List PPointer := if del then [] else [p]

/-- The state after the removal, with the object of an emptied leaf deleted. -/
def removedWorld (p : PPointer) (del : Bool) (s : World) : World :=
  if del then LeafNode.destroy p s else s

/-- What `remove` on the child at slot `j` leaves behind. -/
def ChildDone (d : ℕ) (Q : LeafPred) (h : ℕ) (lo hi : Option Key) (m : InnerNode Node) (j : ℕ)
    (ls : List PPointer) (rm : Bool) (w : World) : Except (List Rebalance) Removed → Prop
  | .ok r => r.ifRemove = rm ∧ ∃ m', r.pruned.parent = some m' ∧
      Outcome d Q h lo hi m j ls r.pruned.ifDelete m' ∧
      deleteChild m' j r.pruned.ifDelete r.world = w
  | .error log => .redistributeLeft ∈ log

section

variable {h j : ℕ} {lo hi : Option Key} {m c : InnerNode Node}

theorem Replaced.around {r ls : List PPointer} (hj : j < m.nChild)
    (hr : Replaced p r (m.childrens j).leaves ls) :
    Replaced p r (inner m).leaves (Node.around m j ls) := by
  rw [leaves_split hj]
  exact hr.append _ _

/-- The other children of the parent. -/
theorem LeafRemove.context (hl : LeafRemove env sys P Q k s p rm del s1) (hf : Filled d 1 m)
    (hs : Seps (Ranged d P h) lo m.liveKeys m.liveChildren hi) (hj : j < m.nChild)
    (hp : p ∈ (m.childrens j).leaves) (hnd : (inner m).leaves.Nodup) : Context d P Q h lo hi m j :=
  ⟨hf, hs, hj, fun _ hc _ _ hP => hP.mono
    fun q hq => hl.other q (ne_of_mem_sibling hj hnd hp hc hq)⟩

/-- A child that is in order takes the place of the one at `j`. -/
theorem Context.kept {ls : List PPointer} {c' : Node} (hm : Context d P Q h lo hi m j)
    (hc : Ranged d Q h (low lo (m.liveKeys.take j)) (upp (m.liveKeys.drop j) hi) c')
    (hls : c'.leaves = ls) :
    Outcome d Q h lo hi m j (Node.around m j ls) false (m.setChild j c') := by
  have hchildren := liveChildren_setChild_split hm.lt c'
  refine .kept ⟨rfl, rfl, rfl, rfl⟩ ?_ ?_
  · rw [hchildren]
    have hsep := seps_replace_child hm.seps hm.lt hm.other (seps_singleton.mpr hc)
    rw [List.nil_append, List.take_append_drop] at hsep
    exact hsep
  · rw [hchildren, List.flatMap_append, List.flatMap_cons, hls]
    rfl

/-- The leaf at `j` is to be taken out. -/
theorem LeafRemove.dropped (hl : LeafRemove env sys P Q k s p rm true s1)
    (hm : Context d P Q 0 lo hi m j) (hc : m.childrens j = leaf p) :
    Outcome d Q 0 lo hi m j (Node.around m j []) true m := by
  have hmc := hm.filled.nChild
  have hm1 := hm.filled.le_nKeys
  have hlt := hm.lt
  have hleaves : (m.liveChildren.take j ++ m.liveChildren.drop (j + 1)).flatMap leaves =
      Node.around m j [] := by
    rw [List.flatMap_append]
    rfl
  refine .dropped ⟨rfl, rfl, rfl, rfl⟩ (fun _ _ => rfl) ?_ hleaves
  by_cases hj : j < m.nKeys
  · -- the right neighbour takes over the range
    have hkey : keyIdx m j = j := if_pos hj
    obtain ⟨h1, -⟩ := seps_pair_slots hm.seps (show j + 1 < m.nChild by omega)
    have h2 := hm.right_ranged (by omega)
    rw [hc] at h1
    obtain ⟨q, hq, hQ⟩ := ranged_zero.mp h2
    have hwide := hl.widenLow _ _ _ q h1 hQ
    rw [hkey, drop_liveChildren (by omega), ← List.singleton_append]
    exact hm.replace_right [] (by omega)
      (seps_singleton.mpr (ranged_zero.mpr ⟨q, hq, hwide⟩))
  · -- the last leaf: the left neighbour takes over the range
    obtain ⟨i, rfl⟩ : ∃ i, j = i + 1 := ⟨j - 1, by omega⟩
    have hkey : keyIdx m (i + 1) = i := if_neg hj
    obtain ⟨-, h2⟩ := seps_pair_slots hm.seps hlt
    have h1 := Context.left_ranged hm
    rw [hc] at h2
    obtain ⟨q, hq, hQ⟩ := ranged_zero.mp h1
    have hwide := hl.widenUpp _ _ _ q hQ h2
    rw [hkey, take_liveChildren (by omega), List.append_assoc]
    exact Context.replace_left hm [] (seps_singleton.mpr (ranged_zero.mpr ⟨q, hq, hwide⟩))

/-- `remove` on the leaf at slot `j`. -/
theorem LeafRemove.leaf_done (hl : LeafRemove env sys P Q k s p rm del s1)
    (hm : Context d P Q 0 lo hi m j) (hc : m.childrens j = leaf p) :
    ChildDone d Q 0 lo hi m j (Node.around m j (remains p del)) rm (removedWorld p del s1)
      (Node.remove env sys k (m.childrens j) j (some m) false s) := by
  have hlt := hm.lt
  have hres : Node.remove env sys k (m.childrens j) j (some m) false s =
      .ok ⟨rm, ⟨del, .leaf p, some m, []⟩, s1⟩ := by
    rw [hc, Node.remove, hl.result]
  rw [hres]
  refine ⟨rfl, m, rfl, ?_, ?_⟩
  · cases del with
    | false =>
      have hP := (seps_child hm.seps hlt).2.1
      rw [hc] at hP
      have hkept := hm.kept (ranged_zero.mpr ⟨p, rfl, hl.keep rfl _ _ hP⟩) rfl
      have hset : m.setChild j (leaf p) = m := by
        rw [← hc]
        simp [InnerNode.setChild]
      rwa [hset] at hkept
    | true => exact hl.dropped hm hc
  · cases del with
    | false => rfl
    | true =>
      have hne : m.nChild ≠ 0 := by omega
      simp [deleteChild, hne, hc, delete, removedWorld]

/-- A node below the root after the work on one of its children. -/
theorem Outcome.afterChild {a b : Option Key} {i : ℕ} {lsc : List PPointer} {del' : Bool}
    {c' : InnerNode Node} {log : List Rebalance} (hd : 1 ≤ d) (hm : Context d P Q (h + 1) lo hi m j)
    (hroot : c.isRoot = false) (hf : Filled d d c) (hi' : i < c.nChild)
    (ha : a = low lo (m.liveKeys.take j)) (hb : b = upp (m.liveKeys.drop j) hi)
    (ho : Outcome d Q h a b c i lsc del' c') :
    Finished d Q (h + 1) lo hi m j (Node.around m j lsc)
      (Node.afterChild c' i del' j (some m) log) := by
  subst ha hb
  have hcd := hf.degree
  have hck := hf.le_nKeys
  have hck' := hf.nKeys_le
  have hcc := hf.nChild
  cases ho with
  | kept fields seps hleaves =>
    have hr : Ranged d Q (h + 1) (low lo (m.liveKeys.take j))
        (upp (m.liveKeys.drop j) hi) (inner c') :=
      ⟨fields.isRoot.trans hroot, ⟨fields.degree.trans hcd, by rw [fields.nKeys]; exact hck,
        by rw [fields.nKeys]; exact hck', by rw [fields.nKeys, fields.nChild]; exact hcc⟩, seps⟩
    exact ⟨_, rfl, hm.kept hr (by rw [leaves_inner, hleaves]), fun _ => rfl⟩
  | dropped fields level seps hleaves =>
    have hc'r : c'.isRoot = false := fields.isRoot.trans hroot
    have hk' := fields.nKeys
    have hc' := fields.nChild
    have hkey : keyIdx c' i = keyIdx c i := by rw [keyIdx, hk', keyIdx]
    have hf1 : Filled d 1 c := ⟨hcd, by omega, hck', hcc⟩
    obtain ⟨c'', hdel, hafter⟩ := afterChild_delete (fields.filled hf1) (hc'.symm ▸ hi')
    have e2 := hdel.isRoot
    have e3 := hdel.nKeys
    have e4 := hdel.nChild
    rw [hafter]
    rw [← hkey, ← hdel.keys, ← hdel.children] at seps
    rw [← hdel.children] at hleaves
    have hdeg : c''.degree = d := by rw [hdel.degree, fields.degree, hcd]
    by_cases hge : c''.nKeys ≥ c''.degree
    · have hfin : finishRemove c'' j (some m) log =
          .ok ⟨false, .inner c'', some (m.setChild j (inner c'')), log⟩ := by
        rw [finishRemove, if_pos hge]
        rfl
      have hr : Ranged d Q (h + 1) (low lo (m.liveKeys.take j)) (upp (m.liveKeys.drop j) hi)
          (inner c'') :=
        ⟨e2.trans hc'r, ⟨hdeg, by omega, by omega, by omega⟩, seps⟩
      rw [hfin]
      exact ⟨_, rfl, hm.kept hr (by rw [leaves_inner, hleaves]), fun _ => rfl⟩
    · exact rebalance_spec hm ⟨e2.trans hc'r, hdeg, by omega, by omega, seps, hleaves⟩ log
  | collapsed height root => rw [hroot] at root; cases root

theorem remove_inner_error {index : ℤ} {parent : Option (InnerNode Node)} {b : Bool}
    {log : List Rebalance} (hroot : ¬ (c.isRoot = true ∧ c.nKeys = 0))
    (hres : Node.remove env sys k (c.childrens (c.findIndex k)) (c.findIndex k)
      (some c) b s = .error log) :
    Node.remove env sys k (inner c) index parent b s = .error log := by
  rw [Node.remove, if_neg hroot]
  simp only [hres]

theorem remove_inner_ok {index : ℤ} {parent : Option (InnerNode Node)} {b : Bool} {r : Removed}
    {c' : InnerNode Node} (hroot : ¬ (c.isRoot = true ∧ c.nKeys = 0))
    (hres : Node.remove env sys k (c.childrens (c.findIndex k)) (c.findIndex k)
      (some c) b s = .ok r)
    (hpar : r.pruned.parent = some c') :
    Node.remove env sys k (inner c) index parent b s =
      (Node.afterChild c' (c.findIndex k) r.pruned.ifDelete index parent r.pruned.log).map
      fun pruned =>
        ⟨r.ifRemove, pruned, deleteChild c' (c.findIndex k) r.pruned.ifDelete r.world⟩ := by
  rw [Node.remove, if_neg hroot]
  simp only [hres, hpar]
  cases Node.afterChild c' (c.findIndex k) r.pruned.ifDelete index parent r.pruned.log <;> rfl

/-- `InnerNode::remove` and `LeafNode::remove` on the child at slot `j` of `m`. -/
theorem Ranged.remove (hd : 1 ≤ d) (hl : LeafRemove env sys P Q k s p rm del s1) :
    ∀ {h : ℕ} {lo hi : Option Key} {m : InnerNode Node} {j : ℕ}, Filled d 1 m →
      Seps (Ranged d P h) lo m.liveKeys m.liveChildren hi → j < m.nChild →
      (m.childrens j).route k = some p → (inner m).leaves.Nodup →
      ∃ ls, Replaced p (remains p del) (inner m).leaves ls ∧
        ChildDone d Q h lo hi m j ls rm (removedWorld p del s1)
          (Node.remove env sys k (m.childrens j) j (some m) false s) := by
  intro h
  induction h with
  | zero =>
    intro lo hi m j hf hs hj hroute hnd
    obtain ⟨q, hq, -⟩ := ranged_zero.mp (seps_child hs hj).2.1
    rw [hq] at hroute
    obtain rfl : q = p := Option.some.inj hroute
    have hm := hl.context hf hs hj (by simp [hq, leaves]) hnd
    refine ⟨_, Replaced.around hj ?_, hl.leaf_done hm hq⟩
    rw [hq]
    exact Replaced.single q _
  | succ h ih =>
    intro lo hi m j hf hs hj hroute hnd
    obtain ⟨c, hc, hroot, hcf, hcs⟩ := ranged_succ.mp (seps_child hs hj).2.1
    obtain ⟨q, hq, hqr⟩ := (seps_child hs hj).2.1.exists_route k
    obtain rfl : q = p := Option.some.inj (hqr.symm.trans hroute)
    have hm := hl.context hf hs hj hq hnd
    have hnd' := nodup_child hj hnd
    rw [hc] at hroute hnd'
    obtain ⟨lsc, hrep, hdone⟩ := ih (hcf.mono hd) hcs (hcf.findIndex_lt k) hroute hnd'
    refine ⟨_, Replaced.around hj (hc ▸ hrep), ?_⟩
    rw [hc]
    have hroot' : ¬ (c.isRoot = true ∧ c.nKeys = 0) := by simp [hroot]
    cases hres : Node.remove env sys k (c.childrens (c.findIndex k)) (c.findIndex k)
      (some c) false s with
    | error log =>
      rw [remove_inner_error hroot' hres]
      rw [hres] at hdone
      exact hdone
    | ok r =>
      rw [hres] at hdone
      obtain ⟨hrm, c', hpar, hout, hw⟩ := hdone
      have hfin := @Outcome.afterChild d P Q h j lo hi m c _ _ _ _ _ _ r.pruned.log hd hm hroot hcf
        (hcf.findIndex_lt k) rfl rfl hout
      rw [remove_inner_ok hroot' hres hpar]
      cases hac : Node.afterChild c' (c.findIndex k) r.pruned.ifDelete j (some m) r.pruned.log with
      | error log =>
        rw [hac] at hfin
        exact hfin
      | ok pruned =>
        rw [hac] at hfin
        obtain ⟨m', hm', hout', hdel⟩ := hfin
        exact ⟨hrm, m', hm', hout', by rw [← hw]; exact hdel _⟩

/-! ## The root -/

/-- The root after the work on one of its children. -/
theorem Outcome.root {i : ℕ} {ls : List PPointer} {del' : Bool} {c' : InnerNode Node}
    {log : List Rebalance} (hd : 1 ≤ d) (hroot : c.isRoot = true) (hf : Filled d 1 c)
    (hi' : i < c.nChild) (ho : Outcome d Q h none none c i ls del' c') :
    ∃ b n h', Node.afterChild c' i del' (-1) none log = .ok ⟨b, inner n, none, log⟩ ∧
      RootRanged d Q h' n ∧ (inner n).leaves = ls := by
  have hcd := hf.degree
  have hck := hf.le_nKeys
  have hck' := hf.nKeys_le
  have hcc := hf.nChild
  cases ho with
  | kept fields seps hleaves =>
    have hk' := fields.nKeys
    have hc' := fields.nChild
    refine ⟨false, c', h, rfl, ⟨fields.isRoot.trans hroot, ⟨fields.degree.trans hcd, Nat.zero_le _,
      by omega, by omega⟩, fun h0 => by omega, seps⟩, by rw [leaves_inner, hleaves]⟩
  | dropped fields level seps hleaves =>
    have hc'r : c'.isRoot = true := fields.isRoot.trans hroot
    have hk' := fields.nKeys
    have hc' := fields.nChild
    have hkey : keyIdx c' i = keyIdx c i := by rw [keyIdx, hk', keyIdx]
    obtain ⟨c'', hdel, hafter⟩ := afterChild_delete (fields.filled hf) (hc'.symm ▸ hi')
    have e3 := hdel.nKeys
    have e4 := hdel.nChild
    rw [← hkey, ← hdel.keys, ← hdel.children] at seps
    rw [← hdel.children] at hleaves
    have hr : RootRanged d Q h c'' :=
      ⟨hdel.isRoot.trans hc'r, ⟨by rw [hdel.degree, fields.degree, hcd],
        Nat.zero_le _, by omega, by omega⟩, fun h0 => level hroot (by omega), seps⟩
    rw [hafter, finishRemove]
    by_cases hge : c''.nKeys ≥ c''.degree
    · rw [if_pos hge]
      exact ⟨false, c'', h, rfl, hr, by rw [leaves_inner, hleaves]⟩
    · rw [if_neg hge, if_pos hr.isRoot]
      exact ⟨true, c'', h, rfl, hr, by rw [leaves_inner, hleaves]⟩
  | @collapsed c' h' height root isRoot degree nChild nKeys seps hleaves =>
    refine ⟨true, { c' with nChild := c'.nKeys + 1 }, h', ?_,
      ⟨isRoot, ⟨degree, Nat.zero_le _, nKeys.le, rfl⟩,
      fun h0 => ?_, seps⟩, ?_⟩
    · rw [Node.afterChild, if_neg (by simp), if_pos ⟨isRoot, nChild⟩]
      rfl
    · change c'.nKeys = 0 at h0
      omega
    · rw [leaves_inner, ← hleaves]
      rfl

/-- `FPTree::remove` on a tree that has a leaf: it returns, unless a left
    redistribution was chosen. -/
theorem RootRanged.remove {t : FPTree} (hd : 1 ≤ d) (hl : LeafRemove env sys P Q k s p rm del s1)
    (hr : RootRanged d P h t.root) (hroute : (inner t.root).route k = some p)
    (hnd : (inner t.root).leaves.Nodup) :
    (∃ log, t.remove env sys k s = .error log ∧ .redistributeLeft ∈ log) ∨
    ∃ n log, t.remove env sys k s = .ok ⟨rm, { t with root := n }, removedWorld p del s1, log⟩ ∧
      (EmptyRoot d n ∨ ∃ h', RootRanged d Q h' n) ∧
      Replaced p (remains p del) (inner t.root).leaves (inner n).leaves := by
  by_cases h0 : t.root.nKeys = 0
  · -- the only leaf
    obtain ⟨rfl, hc, hkeys, q, hq, hch, hP⟩ := hr.only_leaf h0
    have hfind : t.root.findIndex k = 0 := by
      have := t.root.findIndex_le k
      omega
    rw [route, hfind, hq] at hroute
    obtain rfl : q = p := Option.some.inj hroute
    right
    refine ⟨if del then { t.root with nChild := t.root.nChild - 1 } else t.root, [], ?_, ?_, ?_⟩
    · have hres : Node.remove env sys k (t.root.childrens 0) 0 (some t.root) false s =
          .ok ⟨rm, ⟨del, .leaf q, some t.root, []⟩, s1⟩ := by
        rw [hq, Node.remove, hl.result]
      have hnode : Node.remove env sys k (.inner t.root) (-1) none false s =
          .ok ⟨rm,
            ⟨del, .inner (if del then { t.root with nChild := t.root.nChild - 1 } else t.root),
            none, []⟩, removedWorld q del s1⟩ := by
        rw [Node.remove, if_pos ⟨hr.isRoot, h0⟩, if_pos (by omega)]
        simp only [hres]
        rw [hq]
        rfl
      rw [FPTree.remove, hnode]
    · cases del with
      | false =>
        refine Or.inr ⟨0, hr.isRoot, hr.filled, fun _ => rfl, ?_⟩
        show Seps (Ranged d Q 0) none t.root.liveKeys t.root.liveChildren none
        rw [hkeys, hch, seps_singleton]
        exact hl.keep rfl _ _ hP
      | true => exact Or.inl ⟨hr.isRoot, hr.filled.degree, h0, by simp [hc]⟩
    · rw [leaves_inner, hch]
      cases del with
      | false =>
        show Replaced q [q] _ (inner t.root).leaves
        rw [leaves_inner, hch]
        exact Replaced.single q [q]
      | true =>
        have hnil : (inner { t.root with nChild := t.root.nChild - 1 }).leaves = [] := by
          simp [leaves, hc]
        show Replaced q [] _ (inner { t.root with nChild := t.root.nChild - 1 }).leaves
        rw [hnil]
        exact Replaced.single q []
  · have hf : Filled d 1 t.root :=
      ⟨hr.filled.degree, by omega, hr.filled.nKeys_le, hr.filled.nChild⟩
    obtain ⟨ls, hrep, hdone⟩ :=
      Ranged.remove hd hl hf hr.seps (hr.filled.findIndex_lt k) hroute hnd
    have hroot' : ¬ (t.root.isRoot = true ∧ t.root.nKeys = 0) := by simp [h0]
    cases hres : Node.remove env sys k (t.root.childrens (t.root.findIndex k)) (t.root.findIndex k)
        (some t.root) false s with
    | error log =>
      rw [hres] at hdone
      left
      exact ⟨log, by rw [FPTree.remove, remove_inner_error hroot' hres], hdone⟩
    | ok r =>
      rw [hres] at hdone
      obtain ⟨hrm, c', hpar, hout, hw⟩ := hdone
      obtain ⟨b, n, h', hac, hr', hls⟩ :=
        @Outcome.root d Q h t.root _ _ _ _ r.pruned.log hd hr.isRoot hf
          (hr.filled.findIndex_lt k) hout
      right
      refine ⟨n, r.pruned.log, ?_, Or.inr ⟨h', hr'⟩, hls ▸ hrep⟩
      rw [FPTree.remove, remove_inner_ok hroot' hres hpar, hac, ← hw, ← hrm]
      rfl

end

end Node

end FPTreeDB
