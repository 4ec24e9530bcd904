import FPTreeDB.Tree.AllocFailure
import FPTreeDB.Tree.Recovery

/-!
# Which runs of a store return, and what they answer

A run is any sequence of inserts of fresh keys, updates, removals and clean reopenings
with trees of any degrees. Three kinds of calls in such a run have no defined result: an
insertion that is handed a null pointer of the free list, an update of a store without
leaves, and a removal that selects `redistributeLeft`.

* `acts_return_iff`: a run returns exactly when it has no such call.
* `acts_answer`: in a run that returns, the tree is well formed and every lookup, update
  and removal answers as the map does.
-/

namespace FPTreeDB

open PAllocator Runs Node Links

/-- The free list ends with a null pointer, which `getLeaf` takes for a leaf. -/
def LostLeaf (s : World) : Prop := s.freeList.getLast? = some PPointer.zero

/-! ## Insertions -/

section Insert

variable {env : Env} {sys : Sys} {d : ℕ} {t : FPTree} {s s' : World} {l1 l2 : List PPointer}
  {p : PPointer} {k : Key} {v : Value} {nd : LeafNode}

theorem takeLeaf_isSome (hl : s.freeList.getLast? = some p) (he : s.ifLeafExist p = true) :
    (takeLeaf s).1.isSome = true := by
  rw [takeLeaf_of_getLast? hl he]
  rfl

/-- The failures of `getLeaf` when the system calls succeed. -/
theorem getLeaf_ok_isSome_iff (hs : AllocOk s) :
    (getLeaf Sys.ok s).1.isSome = true ↔ ¬ LostLeaf s := by
  by_cases h0 : s.freeNum = 0
  · -- a new group is made, and its last leaf exists
    have hnil : s.freeList = [] := List.length_eq_zero_iff.mp (hs.freeNum_eq ▸ h0)
    obtain ⟨s1, h1, hG⟩ := newLeafGroup_spec s
    have hlast : s1.freeList.getLast? =
        some ⟨s.maxFileId, LEAF_GROUP_HEAD + 15 * calLeafSize LEAF_DEGREE⟩ := by
      rw [hG.freeList, hnil]
      rfl
    have hex :=
      (@NewGroup.exist_iff _ _ ⟨s.maxFileId, LEAF_GROUP_HEAD + 15 * calLeafSize LEAF_DEGREE⟩ hG
        hs).mpr (Or.inr (List.mem_map.mpr ⟨15, by simp [LEAF_GROUP_AMOUNT], rfl⟩))
    refine iff_of_true ?_ (by simp [LostLeaf, hnil])
    rw [getLeaf, if_pos h0, h1]
    exact takeLeaf_isSome hlast hex
  · rw [getLeaf, if_neg h0]
    have hne : s.freeList ≠ [] := fun h => h0 (by rw [hs.freeNum_eq, h]; rfl)
    have hlast := List.getLast?_eq_some_getLast hne
    by_cases hz : s.freeList.getLast hne = PPointer.zero
    · refine iff_of_false ?_ (not_not.mpr (by rw [LostLeaf, hlast, hz]))
      have hex : s.ifLeafExist PPointer.zero = false := by
        by_contra h
        exact ne_zero_of_exist (Bool.not_eq_false _ ▸ h) rfl
      rw [takeLeaf, hlast, hz]
      simp [hex]
    · refine iff_of_true (takeLeaf_isSome hlast ?_) fun h => hz ?_
      · exact (hs.free _ (List.getLast_mem hne) hz).1
      · exact Option.some.inj (hlast.symm.trans h)

theorem create_isSome : (LeafNode.create sys s).1 = (getLeaf sys s).1 := by
  unfold LeafNode.create
  cases getLeaf sys s with
  | mk q s1 => cases q <;> rfl

/-- An insertion into a leaf returns unless it fills the leaf and there is no new one. -/
theorem StoreInv.leafInsert_isSome_iff (hst : StoreInv s (l1 ++ p :: l2)) (hn : s.nodes p = some nd)
    (hnn : nd.n = ((s.leafAt p).slots LEAF_DEGREE).length)
    (hlen : ((s.leafAt p).slots LEAF_DEGREE).length ≤ LEAF_MAX) :
    (LeafNode.insert env Sys.ok p k v s).isSome = true ↔
      ¬ (((s.leafAt p).slots LEAF_DEGREE).length = LEAF_MAX ∧ LostLeaf s) := by
  obtain ⟨hfree, -⟩ := @fillSlot_pairs env s p k v nd hlen
  have hiff : nd.n + 1 ≥ LEAF_DEGREE * 2 ↔ ((s.leafAt p).slots LEAF_DEGREE).length = LEAF_MAX := by
    rw [hnn]
    simp only [LEAF_MAX, LEAF_DEGREE] at *
    omega
  rw [insert_eq hn hfree, ← hiff]
  split_ifs with hfull
  · have hnode : (s.fillSlot env p nd k v).nodes p = some { nd with n := nd.n + 1 } :=
      edit_nodes_self
    have hst' : StoreInv (s.fillSlot env p nd k v) (l1 ++ p :: l2) := hst.edit hn rfl rfl rfl
    have hfull' : 2 * (LEAF_DEGREE : ℤ) ≤ nd.n + 1 := by omega
    -- the stores to the slot leave the free list as it is
    have hlost : LostLeaf (s.fillSlot env p nd k v) ↔ LostLeaf s := Iff.rfl
    have hget := getLeaf_ok_isSome_iff hst'.alloc
    rw [hlost, ← create_isSome] at hget
    simp only [hfull, true_and]
    rw [← hget]
    cases hc : LeafNode.create Sys.ok (s.fillSlot env p nd k v) with
    | mk q s0 =>
      cases q with
      | none =>
        refine iff_of_false ?_ (by simp)
        unfold LeafNode.split
        simp only [hnode, Option.bind_eq_bind, Option.bind_some]
        rw [if_neg (by omega), hc]
        simp
      | some q =>
        obtain ⟨s1, hsplit, -⟩ := hst'.split hnode hfull' hc
        rw [hsplit]
        exact iff_of_true rfl rfl
  · exact iff_of_true rfl fun h => hfull h.1

theorem Node.RootRanged.needsLeaf_iff {P : LeafPred} {h : ℕ} (hr : RootRanged d P h t.root)
    (hroute : (inner t.root).route k = some p) :
    NeedsLeaf t s k ↔ ((s.leafAt p).slots LEAF_DEGREE).length = LEAF_MAX := by
  constructor
  · rintro (h0 | ⟨q, hq, hlen⟩)
    · exact absurd h0 (by rw [hr.filled.nChild]; omega)
    · obtain rfl := Option.some.inj (hroute.symm.trans hq)
      exact hlen
  · exact fun hlen => Or.inr ⟨p, hroute, hlen⟩

/-- An insertion of a fresh key returns unless it needs a leaf and gets a null pointer. -/
theorem Inv.insert_isSome_iff (hd : 1 ≤ d) (hinv : Inv env d t s)
    (hk : k ∉ (stored t s).map KeyValue.k) (v : Value) : (t.insert env Sys.ok k v s).isSome = true ↔
    ¬ (NeedsLeaf t s k ∧ LostLeaf s) := by
  rcases hinv.tree with hempty | ⟨h, hr⟩
  · have hst : StoreInv s [] := hempty.leaves_eq ▸ hinv.store
    have hneeds : NeedsLeaf t s k := Or.inl hempty.nChild
    have hget := getLeaf_ok_isSome_iff hst.alloc
    rw [← create_isSome] at hget
    simp only [hneeds, true_and]
    rw [← hget]
    cases hc : LeafNode.create Sys.ok s with
    | mk q s0 =>
      cases q with
      | none =>
        refine iff_of_false ?_ (by simp)
        rw [FPTree.insert, Node.insert, if_pos ⟨hempty.isRoot, hempty.nKeys⟩,
          if_pos hempty.nChild, hc]
        simp
      | some p =>
        obtain ⟨s1, hins, -, hP, -⟩ := @StoreInv.insert_first env s p k v _ hst hc
        obtain ⟨t', ht, -⟩ := hempty.insert hc hins hP
        rw [ht]
        exact iff_of_true rfl rfl
  · obtain ⟨l1, p, l2, hl, hroute, hw, hst, -⟩ := hinv.route hr k
    obtain ⟨nd, hn, hnn⟩ := hw.exists_node
    have hneeds := hr.needsLeaf_iff (s := s) hroute
    rw [hneeds, ← @StoreInv.leafInsert_isSome_iff env s l1 l2 p k v nd hst hn hnn hw.le_cap]
    cases hleaf : LeafNode.insert env Sys.ok p k v s with
    | none =>
      obtain ⟨F, hF⟩ := hr.insert_bind env v hroute
      rw [hF, hleaf]
      exact iff_of_false (by simp) (by simp)
    | some x =>
      obtain ⟨t', ht, -⟩ := hinv.insert_leaf hd hr hk hl hroute hleaf
      rw [ht]
      exact iff_of_true rfl rfl

end Insert

/-! ## Removals -/

section Remove

variable {env : Env} {sys : Sys} {d : ℕ} {t : FPTree} {s : World} {k : Key}

/-- A left brother with at least as many keys makes `moveKeys` zero or negative, and the
    parent's key is stored in front of `keys`. -/
theorem InnerNode.redistributeLeft_eq_none {α : Type} {this leftBro parent : InnerNode α}
    {index : ℤ} (h : this.nKeys ≤ leftBro.nKeys) :
    this.redistributeLeft index leftBro parent = none := by
  have hneg : ((leftBro.nKeys : ℤ) + this.nKeys) / 2 - leftBro.nKeys - 1 < 0 := by omega
  unfold InnerNode.redistributeLeft
  simp only [Option.bind_eq_bind, Option.bind_eq_none_iff]
  intro keys _ childrens _ pk _ keys' hw
  rw [CArray.write_neg hneg] at hw
  cases hw

/-- No repair that goes through is a left redistribution. -/
theorem applyRebalance_ne_left {n m m' : InnerNode Node} {index : ℤ} {l r : Option (InnerNode Node)}
    {b : Bool} (hn : n.nKeys < n.degree)
    (h : applyRebalance n m index l r (chooseRebalance n m l r) = some (m', b)) :
    chooseRebalance n m l r ≠ .redistributeLeft := by
  intro hleft
  rw [hleft] at h
  cases l with
  | none => cases h
  | some l =>
    have hlen : 2 * n.degree ≤ l.nKeys + n.nKeys := by
      unfold chooseRebalance at hleft
      split_ifs at hleft with h1 h2
      simpa using h2
    have hnone := @InnerNode.redistributeLeft_eq_none _ n l m index (by omega)
    rw [applyRebalance] at h
    simp [hnone] at h

theorem finishRemove_log {n : InnerNode Node} {index : ℤ} {parent : Option (InnerNode Node)}
    {log : List Rebalance} {pr : Pruned} (hlog : .redistributeLeft ∉ log)
    (h : finishRemove n index parent log = .ok pr) : .redistributeLeft ∉ pr.log := by
  unfold finishRemove at h
  dsimp only at h
  split_ifs at h with h1 h2
  · obtain rfl := Except.ok.inj h
    exact hlog
  · obtain rfl := Except.ok.inj h
    exact hlog
  · split at h
    · cases h
    · split at h
      · split at h
        · cases h
        · rename_i happ
          obtain rfl := Except.ok.inj h
          have hne := applyRebalance_ne_left (by omega) happ
          simpa [hlog] using Ne.symm hne
      · cases h

theorem afterChild_log {n : InnerNode Node} {pos : ℕ} {del : Bool} {index : ℤ}
    {parent : Option (InnerNode Node)} {log : List Rebalance} {pr : Pruned}
    (hlog : .redistributeLeft ∉ log) (h : afterChild n pos del index parent log = .ok pr) :
    .redistributeLeft ∉ pr.log := by
  unfold afterChild at h
  split at h
  · obtain rfl := Except.ok.inj h
    exact hlog
  · split at h
    · obtain rfl := Except.ok.inj h
      exact hlog
    · dsimp only at h
      split at h
      · cases h
      · exact finishRemove_log hlog h

/-- A removal that returns made no left redistribution on any level. -/
theorem Node.remove_log : ∀ (c : Node) {index : ℤ} {parent : Option (InnerNode Node)} {b : Bool}
    {r : Node.Removed}, Node.remove env sys k c index parent b s = .ok r →
    .redistributeLeft ∉ r.pruned.log
  | uninit, _, _, _, _, h => by cases h
  | leaf p, _, _, _, _, h => by
    unfold Node.remove at h
    split at h
    · cases h
    · obtain rfl := Except.ok.inj h
      exact List.not_mem_nil
  | inner n, index, parent, b, r, h => by
    unfold Node.remove at h
    split_ifs at h with h1 h2
    · -- the root has at most one leaf
      split at h
      · cases h
      · rename_i hr
        split at h
        · cases h
        · have hlog := remove_log (n.childrens 0) hr
          obtain rfl := Except.ok.inj h
          exact hlog
    · obtain rfl := Except.ok.inj h
      exact List.not_mem_nil
    · dsimp only at h
      split at h
      · cases h
      · rename_i hr
        split at h
        · cases h
        · split at h
          · cases h
          · rename_i hafter
            obtain rfl := Except.ok.inj h
            exact afterChild_log (remove_log (n.childrens (n.findIndex k)) hr) hafter

theorem FPTree.remove_log {r : FPTree.Removed} (h : t.remove env sys k s = .ok r) :
    .redistributeLeft ∉ r.log := by
  unfold FPTree.remove at h
  split at h
  · cases h
  · rename_i hr
    split at h
    · obtain rfl := Except.ok.inj h
      exact Node.remove_log _ hr
    · cases h

/-- A removal returns unless it selects a left redistribution. -/
theorem Inv.remove_ok_iff (hd : 1 ≤ d) (hinv : Inv env d t s) :
    (∃ r, t.remove env sys k s = .ok r) ↔
      .redistributeLeft ∉ FPTree.rebalances (t.remove env sys k s) := by
  constructor
  · rintro ⟨r, hr⟩
    rw [hr]
    exact FPTree.remove_log hr
  · intro hlog
    rcases hinv.remove hd sys k with ⟨log, herr, hmem⟩ | ⟨r, hok, -⟩
    · rw [herr] at hlog
      exact absurd hmem hlog
    · exact ⟨r, hok⟩

end Remove

/-! ## Reopenings -/

section Reopen

variable {env : Env} {d d' n fuel : ℕ} {t : FPTree} {s s' : World} {p : PPointer}

theorem loadLeaf_rest {oldLeaf : Option PPointer} (h : FPTree.loadLeaf p oldLeaf s = some s') :
    s' = { s with nodes := s'.nodes } := by
  unfold FPTree.loadLeaf at h
  simp only [Option.bind_eq_bind, Option.bind_eq_some_iff] at h
  obtain ⟨s1, h1, h2⟩ := h
  obtain ⟨nd, -, rfl⟩ := modifyNode_eq h1
  cases oldLeaf with
  | none =>
    obtain rfl := Option.some.inj h2
    rfl
  | some q =>
    obtain ⟨nd', -, rfl⟩ := modifyNode_eq h2
    rfl

/-- The loop of `bulkLoading` takes one turn for each leaf of the chain and one more. -/
theorem bulkLoop_eq_none {e : PPointer} :
    ∀ {fuel : ℕ} {chain : List PPointer} {oldLeaf : Option PPointer} {t : FPTree} {s : World},
      (∀ p ∈ chain, s.ifLeafUsed p = true) → Linked id (fun p => (s.leafAt p).pNext) chain e →
      fuel ≤ chain.length → FPTree.bulkLoop env fuel (entry id chain e) oldLeaf t s = none := by
  intro fuel
  induction fuel with
  | zero => intros; rfl
  | succ fuel ih =>
    intro chain oldLeaf t s hused hlink hlen
    cases chain with
    | nil => simp at hlen
    | cons p chain =>
      obtain ⟨hp, hlink⟩ := hlink
      rw [FPTree.bulkLoop, entry_cons, id_eq, if_pos (hused p (by simp))]
      simp only [Option.bind_eq_bind, Option.bind_eq_none_iff]
      intro s1 hs1 r _ t1 _
      -- loading a leaf changes nothing but the objects
      have hrest := loadLeaf_rest hs1
      have hleaf : ∀ q, s1.leafAt q = s.leafAt q := fun q => by rw [hrest]; rfl
      have hnext : (s1.leafAt p).pNext = entry id chain e := by rw [hleaf]; exact hp
      rw [hnext]
      refine ih (fun q hq => ?_) (hlink.congr fun q _ => by rw [hleaf]) (by simpa using hlen)
      rw [hrest]
      exact hused q (by simp [hq])

theorem Inv.reopen_isSome_iff (hd : 1 ≤ d') (hinv : Inv env d t s) (hs : Synced s)
    (hf : FreeFile s n) :
    (FPTree.construct env fuel d' (restart env (t.destruct s))).isSome = true ↔
      (inner t.root).leaves.length < fuel := by
  have hreset := hinv.reset hs hf
  have hch := hreset.chained hinv.store
  by_cases hfuel : (inner t.root).leaves.length < fuel
  · obtain ⟨t1, s1, h1⟩ := hinv.reopen_some hd hs hf hfuel
    rw [h1]
    exact iff_of_true rfl hfuel
  · obtain ⟨e, -, hstart, hlink⟩ := hch.links
    rw [FPTree.construct, hstart, bulkLoop_eq_none hch.used hlink (by omega)]
    exact iff_of_false (by simp) hfuel

end Reopen

/-! ## Runs -/

/-- The calls and reopenings whose result is defined: an insertion that needs a leaf does
    not find a null pointer, an update finds a leaf, a removal does not choose a left
    redistribution, and the loop of `bulkLoading` has a turn for each leaf and one more. -/
def DbAct.Defined (env : Env) : DbAct → Db → Prop
  | call (.insert k _), (t, s) => ¬ (NeedsLeaf t s k ∧ LostLeaf s)
  | call (.update _ _), (t, _) => t.root.nChild ≠ 0
  | call (.remove k), (t, s) => .redistributeLeft ∉ FPTree.rebalances (t.remove env Sys.ok k s)
  | reopen fuel _, (t, _) => (inner t.root).leaves.length < fuel

section Runs

variable {env : Env} {d h : ℕ} {t : FPTree} {s : World} {db : Db} {m : Key → Option Value}
  {k : Key} {v : Value}

theorem Inv.update_isSome_iff (hinv : Inv env d t s) :
    (t.update env k v s).isSome = true ↔ t.root.nChild ≠ 0 := by
  rcases hinv.tree with hempty | ⟨h, hr⟩
  · rw [hempty.update_eq_none hinv.store]
    exact iff_of_false (by simp) (not_not.mpr hempty.nChild)
  · have hne : t.root.nChild ≠ 0 := by rw [hr.filled.nChild]; omega
    rcases @Inv.update env d h t s k v hinv hr with ⟨-, hu⟩ | ⟨-, s', hu, -⟩
    · rw [hu]
      exact iff_of_true rfl hne
    · rw [hu]
      exact iff_of_true rfl hne

/-- One call or reopening of a store that stands for a map. -/
theorem DbInv.step_isSome_iff (act : DbAct) (h : DbInv env db m) (hpre : act.Pre m) :
    (act.step env db).isSome = true ↔ act.Defined env db := by
  obtain ⟨t, s⟩ := db
  obtain ⟨d, hd, hinv⟩ := h.inv
  cases act with
  | reopen fuel d' =>
    obtain ⟨n, hf⟩ := h.disk.freeFile
    exact hinv.reopen_isSome_iff d'.pos h.disk.synced hf
  | call op =>
    cases op with
    | insert k v => exact hinv.insert_isSome_iff hd (h.represents.not_mem_keys.mpr hpre) v
    | update k v =>
      show ((t.update env k v s).map fun r => (t, r.2)).isSome = true ↔ t.root.nChild ≠ 0
      rw [Option.isSome_map]
      exact hinv.update_isSome_iff
    | remove k =>
      refine Iff.trans ?_ (hinv.remove_ok_iff hd)
      show (DbOp.step env Sys.ok (.remove k) (t, s)).isSome = true ↔ _
      rw [DbOp.step]
      cases hr : t.remove env Sys.ok k s with
      | error log => simp
      | ok r => simp

/-- The store has no leaf exactly when the map has no key. -/
theorem DbInv.nChild_eq_zero_iff (h : DbInv env (t, s) m) :
    t.root.nChild = 0 ↔ ∀ k, m k = none := by
  obtain ⟨d, hd, hinv⟩ := h.inv
  rcases hinv.tree with hempty | ⟨h0, hr⟩
  · refine iff_of_true hempty.nChild fun k => h.represents.not_mem_keys.mp ?_
    rw [FPTreeDB.stored, hempty.leaves_eq]
    simp
  · refine iff_of_false (by rw [hr.filled.nChild]; omega) fun hnone => ?_
    obtain ⟨p, hp⟩ := List.exists_mem_of_ne_nil _ hr.leaves_ne_nil
    obtain ⟨a, b, hP⟩ := RootRanged.leaf_pred hr hp
    -- the leaf holds a key
    obtain ⟨i, hi⟩ := List.exists_mem_of_ne_nil _ (List.length_pos_iff.mp hP.1.pos)
    have hk : ((s.leafAt p).kv i).k ∈ (stored t s).map KeyValue.k :=
      mem_stored_keys.mpr ⟨p, hp, List.mem_map.mpr ⟨_, List.mem_map.mpr ⟨i, hi, rfl⟩, rfl⟩⟩
    rw [h.represents.mem_keys, hnone] at hk
    cases hk

theorem DbInv.update_answer {b : Bool} {s' : World} (h : DbInv env (t, s) m)
    (hu : t.update env k v s = some (b, s')) : b = (m k).isSome := by
  obtain ⟨d, -, hinv⟩ := h.inv
  rcases hinv.tree with hempty | ⟨_, hr⟩
  · rw [hempty.update_eq_none hinv.store] at hu
    cases hu
  · rcases @Inv.update env d _ t s k v hinv hr with ⟨hk, hu'⟩ | ⟨hk, s1, hu', -⟩
    · rw [h.represents.not_mem_keys] at hk
      rw [hk, (Prod.mk.inj (Option.some.inj (hu.symm.trans hu'))).1]
      rfl
    · rw [h.represents.mem_keys] at hk
      rw [hk, (Prod.mk.inj (Option.some.inj (hu.symm.trans hu'))).1]

theorem DbInv.remove_answer {r : FPTree.Removed} (h : DbInv env (t, s) m)
    (hr : t.remove env Sys.ok k s = .ok r) : r.ifRemove = (m k).isSome := by
  obtain ⟨d, hd, hinv⟩ := h.inv
  rcases hinv.remove hd Sys.ok k with ⟨log, herr, -⟩ | ⟨r', hok, hrm⟩
  · rw [hr] at herr
    cases herr
  · obtain rfl := Except.ok.inj (hr.symm.trans hok)
    rcases hrm.outcome with ⟨hb, hk, -⟩ | ⟨hb, old, hp⟩
    · rw [hb, h.represents.not_mem_keys.mp hk]
      rfl
    · rw [hb, h.represents.mem_keys.mp ((hp.map _).mem_iff.mpr (by simp))]

theorem DbInv.wellFormed (h : DbInv env (t, s) m) : WellFormed env t.root.degree LEAF_MAX t s := by
  obtain ⟨d, hd, hinv⟩ := h.inv
  have hdeg : t.root.degree = d := by
    rcases hinv.tree with hempty | ⟨_, hr⟩
    · exact hempty.degree
    · exact hr.filled.degree
  rw [hdeg]
  exact hinv.wellFormed

end Runs

/-- A run of inserts of fresh keys, updates, removals and reopenings returns exactly when
    the result of each of its steps is defined. -/
theorem acts_return_iff (env : Env) (d : ℕ) (hd : 1 ≤ d) (acts : List DbAct)
    (hacts : Allowed DbAct.Pre DbAct.apply acts fun _ => none) :
    (run (DbAct.step env) acts (emptyDb env d)).isSome = true ↔
      Meets (DbAct.step env) (DbAct.Defined env) acts (emptyDb env d) :=
  run_isSome_iff (R := DbInv env) (fun act _ _ h hpre => h.step_isSome_iff act hpre)
    (fun act _ _ _ h hpre hs => h.step act hpre hs) acts (emptyDb_dbInv env hd) hacts

/-- The first insert of a store returns, an update before it does not. -/
theorem acts_return_iff_one :
    (run (DbAct.step Env.flat) [.call (.insert 5 50)] (emptyDb Env.flat 1)).isSome = true ∧
    ¬ (run (DbAct.step Env.flat) [.call (.update 5 50)] (emptyDb Env.flat 1)).isSome = true := by
  constructor
  · refine (acts_return_iff Env.flat 1 le_rfl [.call (.insert 5 50)] ⟨rfl, trivial⟩).mpr
      ⟨?_, fun _ _ => trivial⟩
    rintro ⟨-, hlost⟩
    cases hlost
  · rw [acts_return_iff Env.flat 1 le_rfl [.call (.update 5 50)] ⟨trivial, trivial⟩]
    exact fun h => h.1 rfl

/-- In every run that returns, through any number of reopenings with any degrees, the
    tree is well formed and answers as the map of the completed calls does. -/
theorem acts_answer (env : Env) (d : ℕ) (hd : 1 ≤ d) (acts : List DbAct)
    (hacts : Allowed DbAct.Pre DbAct.apply acts fun _ => none) (t : FPTree) (s : World)
    (hrun : run (DbAct.step env) acts (emptyDb env d) = some (t, s)) :
    WellFormed env t.root.degree LEAF_MAX t s ∧
    (t.root.nChild = 0 ↔ ∀ k, runSpec DbAct.apply acts (fun _ => none) k = none) ∧
    (∀ k, t.root.nChild ≠ 0 →
      t.find env k s = some ((runSpec DbAct.apply acts (fun _ => none) k).getD MAX_VALUE)) ∧
    (∀ k v b s', t.update env k v s = some (b, s') →
      b = (runSpec DbAct.apply acts (fun _ => none) k).isSome) ∧
    ∀ k r, t.remove env Sys.ok k s = .ok r →
      r.ifRemove = (runSpec DbAct.apply acts (fun _ => none) k).isSome := by
  have h := acts_dbInv env hd acts hacts hrun
  refine ⟨h.wellFormed, h.nChild_eq_zero_iff, fun k hne => ?_, fun k v b s' => h.update_answer,
    fun k r => h.remove_answer⟩
  obtain ⟨d', -, hinv⟩ := h.inv
  rcases hinv.tree with hempty | ⟨_, hr⟩
  · exact absurd hempty.nChild hne
  · exact find_of_represents hr h.represents k

/-- A leaf is freed and taken again before the store is reopened. -/
theorem acts_answer_four : ∃ t s, run (DbAct.step Env.flat)
    [.call (.insert 5 50), .call (.remove 5), .call (.insert 6 60),
      .reopen 2 3] (emptyDb Env.flat 1) = some (t, s) ∧
    WellFormed Env.flat 3 LEAF_MAX t s ∧ t.find Env.flat 6 s = some 60 ∧
    t.find Env.flat 5 s = some MAX_VALUE := by
  have hrun : run (DbAct.step Env.flat)
    [.call (.insert 5 50), .call (.remove 5), .call (.insert 6 60),
      .reopen 2 3] (emptyDb Env.flat 1) = some (_, _) := rfl
  obtain ⟨hw, -, hfind, -⟩ := acts_answer Env.flat 1 le_rfl
    [.call (.insert 5 50), .call (.remove 5), .call (.insert 6 60), .reopen 2 3]
    ⟨rfl, trivial, rfl, trivial, trivial⟩ _ _ hrun
  exact ⟨_, _, hrun, hw, (hfind 6 (by decide +kernel)).trans rfl,
    (hfind 5 (by decide +kernel)).trans rfl⟩

end FPTreeDB
