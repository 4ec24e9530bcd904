import FPTreeDB.Tree.Insert

/-!
# Appending a leaf

`InnerNode::insertLeaf`, the construction path of bulk loading: the new leaf goes to
the right end of the tree, with a key above everything stored so far. `P` is the leaf
predicate before, `Q` the one after the call.

* `Ranged.insertLeaf`: below the root.
* `RootRanged.insertLeaf`, `EmptyRoot.insertLeaf`: the whole tree.
-/

namespace FPTreeDB

open SepChain

namespace Node

variable {env : Env} {d h : ℕ} {P Q : LeafPred} {key : Key} {p : PPointer} {lo hi : Option Key}

/-- What is known of a leaf `p` that is appended with the separator `key`. -/
structure LeafAppend (P Q : LeafPred) (key : Key) (p : PPointer) : Prop where
  gapP : ∀ a b q, P a b q → Gap a b
  gapQ : ∀ a b q, Q a b q → Gap a b
  above : ∀ a b q, P a b q → Gap a (some key)
  mono : ∀ a b q, P a b q → Q a b q
  last : ∀ a q, P a none q → Q a (some key) q
  new : Q (some key) none p

/-- The last child gets the upper bound `key`. -/
theorem seps_close {α : Type} {R R' : Option Key → Option Key → α → Prop}
    (h1 : ∀ a b c, R a b c → R' a b c) (h2 : ∀ a c, R a none c → R' a (some key) c) :
    ∀ {lo : Option Key} {ks : List Key} {cs : List α}, Seps R lo ks cs none →
      Seps R' lo ks cs (some key) := by
  intro lo ks
  induction ks generalizing lo with
  | nil =>
    intro cs hs
    obtain ⟨c, rfl⟩ := List.length_eq_one_iff.mp hs.length_eq
    exact seps_singleton.mpr (h2 _ _ (seps_singleton.mp hs))
  | cons k ks ih =>
    intro cs hs
    cases cs with
    | nil => exact hs.elim
    | cons c cs =>
      rw [seps_cons] at hs ⊢
      exact ⟨h1 _ _ _ hs.1, ih hs.2⟩

theorem Ranged.close (ha : LeafAppend P Q key p) : ∀ {h : ℕ} {lo : Option Key} {c : Node},
    Ranged d P h lo none c → Ranged d Q h lo (some key) c := by
  intro h
  induction h with
  | zero =>
    intro lo c hc
    obtain ⟨q, rfl, hq⟩ := ranged_zero.mp hc
    exact ha.last _ _ hq
  | succ h ih =>
    intro lo c hc
    obtain ⟨n, rfl, hr, hf, hs⟩ := ranged_succ.mp hc
    exact ⟨hr, hf, seps_close (fun a b c hc => hc.mono fun q _ => fun a b => ha.mono a b q)
      (fun a c hc => ih hc) hs⟩

/-- The key lies above every lower bound. -/
theorem Ranged.above (ha : LeafAppend P Q key p) : ∀ {h : ℕ} {lo hi : Option Key} {c : Node},
    Ranged d P h lo hi c → Gap lo (some key) := by
  intro h
  induction h with
  | zero =>
    intro lo hi c hc
    obtain ⟨q, rfl, hq⟩ := ranged_zero.mp hc
    exact ha.above _ _ _ hq
  | succ h ih =>
    intro lo hi c hc
    obtain ⟨n, rfl, hr, hf, hs⟩ := ranged_succ.mp hc
    have := (seps_child hs (show 0 < n.nChild by rw [hf.nChild]; omega)).2.1
    rw [low_take_zero] at this
    exact ih this

/-- The search for the key ends at the last child. -/
theorem findIndex_last (ha : LeafAppend P Q key p) {m : ℕ} {n : InnerNode Node} (hf : Filled d m n)
    (hs : Seps (Ranged d P h) lo n.liveKeys n.liveChildren none) : n.findIndex key = n.nKeys := by
  have hlt : n.nKeys < n.nChild := by rw [hf.nChild]; omega
  refine findIndex_of_inRange ha.gapP hs hlt ⟨fun l hl => ?_, fun u hu => ?_⟩
  · exact ((seps_child hs hlt).2.1.above ha l hl key rfl).le
  · rw [upp_drop_last] at hu
    cases hu

/-- A node above the leaves after the new leaf was appended to it. -/
theorem append_leaf (ha : LeafAppend P Q key p) {m : ℕ} {n : InnerNode Node} (hf : Filled d m n)
    (hs : Seps (Ranged d P 0) lo n.liveKeys n.liveChildren none) :
    ∃ n1 n' up, pushKeyNode n ⟨key, .leaf p⟩ = some n1 ∧ splitFull n1 = some (n', up) ∧
      Grown d n.isRoot (n.liveKeys ++ [key]) (n.liveChildren ++ [.leaf p]) n' up ∧
      Seps (Ranged d Q 0) lo (n.liveKeys ++ [key]) (n.liveChildren ++ [.leaf p]) none := by
  have hd := hf.degree
  have hk := hf.nKeys_le
  have hc := hf.nChild
  obtain ⟨n1, h1, e1, e2, e3, e4, e5, e6⟩ := @pushKeyNode_spec n ⟨key, .leaf p⟩
    (by rw [InnerNode.keyCap]; omega) (by rw [InnerNode.childCap]; omega)
  obtain ⟨n', up, h2, hg⟩ := @splitFull_spec d n1 (by omega) (by omega) (by omega)
  rw [e2, e5, e6] at hg
  refine ⟨n1, n', up, h1, h2, hg, ?_⟩
  refine (seps_append (by simp [hc])).mpr ⟨?_, seps_singleton.mpr ha.new⟩
  exact seps_close (fun a b c hc => hc.mono fun q _ => fun a b => ha.mono a b q)
    (fun a c hc => hc.close ha) hs

/-- `InnerNode::insertLeaf` below the root. -/
theorem Ranged.insertLeaf (hd : 1 ≤ d) (ha : LeafAppend P Q key p) :
    ∀ {h : ℕ} {lo : Option Key} {c : Node}, Ranged d P (h + 1) lo none c →
      ∃ up c', Node.insertLeaf env ⟨key, .leaf p⟩ c = some ⟨up, c', none⟩ ∧
        Seps (Ranged d Q (h + 1)) lo (upKeys up) (c' :: upNodes up) none ∧
        (∀ kn ∈ up, kn.node.nKeysField env ≠ 0) ∧
        (c' :: upNodes up).flatMap leaves = c.leaves ++ [p] := by
  intro h
  induction h with
  | zero =>
    intro lo c hc
    obtain ⟨n, rfl, hroot, hf, hs⟩ := ranged_succ.mp hc
    have hpos := hf.findIndex_lt key
    obtain ⟨q, hq, -⟩ := ranged_zero.mp (seps_child hs hpos).2.1
    obtain ⟨n1, n', up, h1, h2, hg, hs'⟩ := append_leaf ha hf hs
    rw [hroot] at hg
    have hr' : n'.isRoot = false := by cases hg <;> assumption
    refine ⟨up, .inner n', ?_, hg.seps ?_ hs', ?_, ?_⟩
    · rw [Node.insertLeaf, if_neg (by simp [hroot])]
      simp [hq, ifLeaf, h1, h2, growRoot_of_not_root hr']
    · have := hf.le_nKeys
      simp
      omega
    · rintro kn hkn
      rw [Option.mem_def] at hkn
      subst hkn
      exact hg.nKeysField_ne_zero hd
    · rw [hg.leaves, List.flatMap_append, leaves_inner]
      rfl
  | succ h ih =>
    intro lo c hc
    obtain ⟨n, rfl, hroot, hf, hs⟩ := ranged_succ.mp hc
    have hpos := hf.findIndex_lt key
    have hidx := findIndex_last ha hf hs
    have hchild := (seps_child hs hpos).2.1
    rw [hidx, upp_drop_last] at hchild
    obtain ⟨cn, hcn, -⟩ := ranged_succ.mp hchild
    obtain ⟨up, c', hins, hup, hfield, hlv⟩ := ih hchild
    rw [hidx] at hpos
    obtain ⟨n', up', ks, cs, hadd, hg, hlen, hseps, hleaves⟩ :=
      @grow_child env d P Q (h + 1) _ lo none n
        n.nKeys up c' ha.gapP ha.gapQ hf hs hpos
        (fun c _ a b hP => hP.mono fun q _ => fun a b => ha.mono a b q)
        (by rw [upp_drop_last]; exact hup) hfield
    rw [hroot] at hg
    have hr' : n'.isRoot = false := by cases hg <;> assumption
    refine ⟨up', .inner n', ?_, hg.seps (hf.le_nKeys.trans hlen) hseps, ?_, ?_⟩
    · rw [Node.insertLeaf, if_neg (by simp [hroot])]
      have hnl : (n.childrens n.nKeys).ifLeaf = false := by rw [hcn]; rfl
      simp only [hidx, hnl, Bool.not_false, if_true, hins, Option.bind_eq_bind,
        Option.bind_some, hadd]
      exact growRoot_of_not_root hr'
    · rintro kn hkn
      rw [Option.mem_def] at hkn
      subst hkn
      exact hg.nKeysField_ne_zero hd
    · rw [hg.leaves, hleaves, leaves_split hpos, List.flatMap_append, List.flatMap_append, hlv]
      have hdrop : n.liveChildren.drop (n.nKeys + 1) = [] :=
        List.drop_of_length_le (by simp [hf.nChild])
      simp [hdrop]

/-! ## The root -/

/-- The first leaf. -/
theorem EmptyRoot.insertLeaf {t : FPTree} (hr : EmptyRoot d t.root) (hQ : Q none none p) :
    ∃ r t', Node.insertLeaf env ⟨key, .leaf p⟩ (.inner t.root) = some r ∧
      t.afterInsert r = some t' ∧ t'.degree = t.degree ∧ RootRanged d Q 0 t'.root ∧
      (inner t'.root).leaves = [p] := by
  obtain ⟨n', h1, hroot, hch⟩ := hr.pushChild hQ
  refine ⟨⟨none, .inner n', none⟩, { t with root := n' }, ?_, rfl, rfl, hroot, ?_⟩
  · rw [Node.insertLeaf, if_pos ⟨hr.isRoot, hr.nKeys⟩, if_pos hr.nChild]
    simp [h1]
  · rw [leaves_inner, hch]
    rfl

/-- Every later leaf. -/
theorem RootRanged.insertLeaf {t : FPTree} (hd : 1 ≤ d) (ha : LeafAppend P Q key p)
    (hr : RootRanged d P h t.root) :
    ∃ r t' h', Node.insertLeaf env ⟨key, .leaf p⟩ (.inner t.root) = some r ∧
      t.afterInsert r = some t' ∧ t'.degree = t.degree ∧ RootRanged d Q h' t'.root ∧
      (inner t'.root).leaves = (inner t.root).leaves ++ [p] := by
  by_cases h0 : t.root.nKeys = 0
  · -- the second leaf
    obtain ⟨rfl, hc, hkeys, q, hq, hch, hP⟩ := hr.only_leaf h0
    have hset : t.root.setChild 0 (leaf q) = t.root := by
      rw [← hq]
      simp [InnerNode.setChild]
    have hup : Seps (Ranged d Q 0) none [key] [leaf q, leaf p] none :=
      seps_pair.mpr ⟨ha.last _ _ hP, ha.new⟩
    obtain ⟨n', h1, hroot, hch'⟩ :=
      @insert_second_leaf d P Q t.root ⟨key, .leaf p⟩ (leaf q) hr h0 hd hup
    rw [hset] at h1
    refine ⟨⟨none, .inner n', none⟩, { t with root := n' }, 0, ?_, rfl, rfl, hroot, ?_⟩
    · rw [Node.insertLeaf, if_pos ⟨hr.isRoot, h0⟩, if_neg (by omega)]
      simp [h1]
    · rw [leaves_inner, leaves_inner, hch', hch]
      rfl
  · have hne : ¬ (t.root.isRoot = true ∧ t.root.nKeys = 0) := by simp [h0]
    have hpos := hr.filled.findIndex_lt key
    have hchild := (seps_child hr.seps hpos).2.1
    cases h with
    | zero =>
      obtain ⟨q, hq, -⟩ := ranged_zero.mp hchild
      obtain ⟨n1, n', up, h1, h2, hg, hs'⟩ := append_leaf ha hr.filled hr.seps
      rw [hr.isRoot] at hg
      obtain ⟨r, t', h', hgrow, hafter, hdeg, hroot', hlv⟩ := hg.root hd (by simp) hs' t
      refine ⟨r, t', h', ?_, hafter, hdeg, hroot', ?_⟩
      · rw [Node.insertLeaf, if_neg hne]
        simp [hq, ifLeaf, h1, h2, hgrow]
      · rw [hlv, List.flatMap_append, leaves_inner]
        rfl
    | succ h =>
      have hidx := findIndex_last ha hr.filled hr.seps
      rw [hidx, upp_drop_last] at hchild
      rw [hidx] at hpos
      obtain ⟨cn, hcn, -⟩ := ranged_succ.mp hchild
      obtain ⟨up, c', hins, hup, hfield, hlv⟩ :=
        @Ranged.insertLeaf env d P Q key p hd ha _ _ _ hchild
      obtain ⟨n', up', ks, cs, hadd, hg, hlen, hseps, hleaves⟩ :=
        @grow_child env d P Q (h + 1) _ none none
          t.root t.root.nKeys up c' ha.gapP ha.gapQ hr.filled hr.seps hpos
          (fun c _ a b hP => hP.mono fun q _ => fun a b => ha.mono a b q)
          (by rw [upp_drop_last]; exact hup) hfield
      rw [hr.isRoot] at hg
      have hks : ks = [] → h + 1 = 0 := by
        rintro rfl
        simp only [List.length_nil] at hlen
        omega
      obtain ⟨r, t', h', hgrow, hafter, hdeg, hroot', hlv'⟩ := hg.root hd hks hseps t
      refine ⟨r, t', h', ?_, hafter, hdeg, hroot', ?_⟩
      · rw [Node.insertLeaf, if_neg hne]
        have hnl : (t.root.childrens t.root.nKeys).ifLeaf = false := by rw [hcn]; rfl
        simp only [hidx, hnl, Bool.not_false, if_true, hins, Option.bind_eq_bind,
          Option.bind_some, hadd, hgrow]
      · rw [hlv', hleaves, leaves_split hpos, List.flatMap_append, List.flatMap_append, hlv]
        have hdrop : t.root.liveChildren.drop (t.root.nKeys + 1) = [] :=
          List.drop_of_length_le (by simp [hr.filled.nChild])
        simp [hdrop]

end Node

end FPTreeDB
