import FPTreeDB.Tree.Runs

/-!
# Nothing is left unflushed

Every store to a mapped leaf-group file is followed by a persist of a range that
covers it before the method returns. `Synced` says that the files on storage equal the
mapped ones; it needs no invariant of the tree, so it holds for any keys, any starting
directory and any outcome of the system calls.

* `Node.insert_keeps`, `Node.remove_keeps`: a property of the state that the methods of
  a leaf keep is kept by the methods of the tree.
* `LeafKeeps`: a property that the steps of the leaf methods keep, and the methods of the
  leaf and of the tree that keep it then.
* `run_flushed`: the images agree at every return of every run.
-/

namespace FPTreeDB

open PAllocator Runs

/-! ## From the leaves to the tree -/

namespace Node

variable {env : Env} {sys : Sys} {k : Key} {v : Value} {I : World → Prop}

/-- `insert` changes the state only through the leaf it comes to. -/
theorem insert_keeps
    (hcreate : ∀ {s s' : World} {p : PPointer}, I s → LeafNode.create sys s = (some p, s') → I s')
    (hleaf : ∀ {s s' : World} {p : PPointer} {nc : Option (Key × PPointer)}, I s →
      LeafNode.insert env sys p k v s = some (nc, s') → I s') :
    ∀ (c : Node) {s s' : World} {r : Inserted}, I s → Node.insert env sys k v c s =
      some (r, s') → I s'
  | uninit, _, _, _, _, h => by cases h
  | leaf p, s, s', r, hI, h => by
    rw [Node.insert, Option.bind_eq_bind, Option.bind_eq_some_iff] at h
    obtain ⟨⟨nc, s1⟩, h1, h2⟩ := h
    obtain ⟨-, rfl⟩ := Prod.mk.inj (Option.some.inj h2)
    exact hleaf hI h1
  | inner n, s, s', r, hI, h => by
    rw [Node.insert] at h
    split_ifs at h
    · cases hc : LeafNode.create sys s with
      | mk q s1 =>
        cases q with
        | none => rw [hc] at h; cases h
        | some q =>
          rw [hc] at h
          simp only [Option.bind_eq_bind, Option.bind_eq_some_iff] at h
          obtain ⟨⟨nc, s2⟩, h1, n', -, h2⟩ := h
          obtain ⟨-, rfl⟩ := Prod.mk.inj (Option.some.inj h2)
          exact hleaf (hcreate hI hc) h1
    · simp only [Option.bind_eq_bind, Option.bind_eq_some_iff] at h
      obtain ⟨⟨r1, s1⟩, h1, h2⟩ := h
      have hI1 := insert_keeps hcreate hleaf (n.childrens 0) hI h1
      dsimp only at h2
      cases hn : r1.newChild with
      | none =>
        rw [hn] at h2
        obtain ⟨-, rfl⟩ := Prod.mk.inj (Option.some.inj h2)
        exact hI1
      | some kn =>
        rw [hn] at h2
        simp only [Option.bind_eq_some_iff] at h2
        obtain ⟨n', -, h2⟩ := h2
        obtain ⟨-, rfl⟩ := Prod.mk.inj (Option.some.inj h2)
        exact hI1
    · simp only [Option.bind_eq_bind, Option.bind_eq_some_iff] at h
      obtain ⟨⟨r1, s1⟩, h1, x, -, r2, -, h2⟩ := h
      obtain ⟨-, rfl⟩ := Prod.mk.inj (Option.some.inj h2)
      exact insert_keeps hcreate hleaf (n.childrens (n.findIndex k)) hI h1

theorem delete_keeps (hdestroy : ∀ {s : World} {p : PPointer}, I s → I (LeafNode.destroy p s))
    (c : Node) {s : World} (hI : I s) : I (c.delete s) := by
  cases c with
  | leaf p => exact hdestroy hI
  | uninit => exact hI
  | inner n => exact hI

theorem deleteChild_keeps (hdestroy : ∀ {s : World} {p : PPointer}, I s → I (LeafNode.destroy p s))
    (n : InnerNode Node) (pos : ℕ) (ifDelete : Bool) {s : World} (hI : I s) :
    I (deleteChild n pos ifDelete s) := by
  unfold deleteChild
  split_ifs
  · exact hI
  · exact delete_keeps hdestroy _ hI
  · exact delete_keeps hdestroy _ hI

/-- `remove` changes the state through the leaf it comes to and the objects it
    deletes. -/
theorem remove_keeps (hdestroy : ∀ {s : World} {p : PPointer}, I s → I (LeafNode.destroy p s))
    (hleaf : ∀ {s s' : World} {p : PPointer} {b rm del : Bool}, I s →
      LeafNode.remove env sys p k b s = some (rm, del, s') → I s') :
    ∀ (c : Node) {index : ℤ} {parent : Option (InnerNode Node)} {b : Bool} {s : World}
      {r : Removed}, I s →
      Node.remove env sys k c index parent b s = .ok r → I r.world
  | uninit, _, _, _, _, _, _, h => by cases h
  | leaf p, index, parent, b, s, r, hI, h => by
    rw [Node.remove] at h
    cases hl : LeafNode.remove env sys p k b s with
    | none => rw [hl] at h; cases h
    | some x =>
      obtain ⟨rm, del, s1⟩ := x
      rw [hl] at h
      obtain rfl := Except.ok.inj h
      exact hleaf hI hl
  | inner n, index, parent, b, s, r, hI, h => by
    rw [Node.remove] at h
    split_ifs at h
    · cases hr : Node.remove env sys k (n.childrens 0) 0 (some n) b s with
      | error log => rw [hr] at h; cases h
      | ok r1 =>
        rw [hr] at h
        have hI1 := remove_keeps hdestroy hleaf (n.childrens 0) hI hr
        dsimp only at h
        cases hp : r1.pruned.parent with
        | none => rw [hp] at h; cases h
        | some m =>
          rw [hp] at h
          obtain rfl := Except.ok.inj h
          dsimp only
          split_ifs
          · exact delete_keeps hdestroy _ hI1
          · exact hI1
    · obtain rfl := Except.ok.inj h
      exact hI
    · dsimp only at h
      cases hr : Node.remove env sys k (n.childrens (n.findIndex k)) (n.findIndex k)
        (some n) b s with
      | error log => rw [hr] at h; cases h
      | ok r1 =>
        rw [hr] at h
        have hI1 := remove_keeps hdestroy hleaf (n.childrens (n.findIndex k)) hI hr
        dsimp only at h
        cases hp : r1.pruned.parent with
        | none => rw [hp] at h; cases h
        | some m =>
          rw [hp] at h
          dsimp only at h
          cases ha : afterChild m (n.findIndex k) r1.pruned.ifDelete index parent r1.pruned.log with
          | error log => rw [ha] at h; cases h
          | ok pruned =>
            rw [ha] at h
            obtain rfl := Except.ok.inj h
            exact deleteChild_keeps hdestroy _ _ _ hI1

end Node

/-! ## The leaf methods -/

section Leaf

variable {env : Env} {sys : Sys} {s s' : World} {p q : PPointer} {k : Key} {v : Value}

theorem Synced.of_eq (h : Synced s) (hm : s'.mem = s.mem) (hd : s'.disk.groups = s.disk.groups) :
    Synced s' := by
  unfold Synced at *
  rw [hm, hd, h]

/-- A new group that is there does not depend on the other system calls. -/
theorem newLeafGroup_ok (h : newLeafGroup sys s = (true, s')) :
    newLeafGroup Sys.ok s = (true, s') := by
  unfold newLeafGroup at h ⊢
  cases hm : sys.mapFile with
  | false => rw [hm] at h; cases (Prod.mk.inj h).1
  | true =>
    cases hf : sys.openFreeList with
    | false => rw [hm, hf] at h; cases (Prod.mk.inj h).1
    | true => rw [hm, hf] at h; exact h

theorem getLeaf_ok (h : getLeaf sys s = (some p, s')) : getLeaf Sys.ok s = (some p, s') := by
  unfold getLeaf at h ⊢
  split_ifs at h ⊢
  · cases hg : newLeafGroup sys s with
    | mk b s1 =>
      rw [hg] at h
      cases b with
      | false => cases (Prod.mk.inj h).1
      | true => rw [newLeafGroup_ok hg]; exact h
  · exact h

theorem create_ok (h : LeafNode.create sys s = (some p, s')) :
    LeafNode.create Sys.ok s = (some p, s') := by
  unfold LeafNode.create at h ⊢
  cases hg : getLeaf sys s with
  | mk r s1 =>
    rw [hg] at h
    cases r with
    | none => cases (Prod.mk.inj h).1
    | some q => rw [getLeaf_ok hg]; exact h

theorem LeafNode.split_ok {r : Option (Key × PPointer) × World}
    (h : LeafNode.split sys p s = some r) :
    LeafNode.split Sys.ok p s = some r := by
  unfold LeafNode.split at h ⊢
  simp only [Option.bind_eq_bind, Option.bind_eq_some_iff] at h
  obtain ⟨nd, hn, h⟩ := h
  simp only [hn, Option.bind_eq_bind, Option.bind_some]
  split_ifs at h ⊢
  · exact h
  · cases hc : LeafNode.create sys s with
    | mk q s1 =>
      rw [hc] at h
      cases q with
      | none => cases h
      | some q => rw [create_ok hc]; exact h

/-- An insertion that returns got the leaf it asked for. -/
theorem LeafNode.insert_ok {r : Option (Key × PPointer) × World}
    (h : LeafNode.insert env sys p k v s = some r) :
    LeafNode.insert env Sys.ok p k v s = some r := by
  unfold LeafNode.insert at h ⊢
  simp only [Option.bind_eq_bind, Option.bind_eq_some_iff] at h ⊢
  obtain ⟨s1, h1, nd, hn, h⟩ := h
  refine ⟨s1, h1, nd, hn, ?_⟩
  split_ifs at h ⊢
  · exact LeafNode.split_ok h
  · exact h

/-- The zeroed leaf, the group header and a new group are persisted by `getLeaf`. -/
theorem getLeaf_synced (h : Synced s) (hg : getLeaf Sys.ok s = (some p, s')) : Synced s' := by
  unfold getLeaf at hg
  split_ifs at hg
  · obtain ⟨s1, h1, hG⟩ := newLeafGroup_spec s
    rw [h1] at hg
    exact (takeLeaf_spec hg).synced (hG.synced h)
  · exact (takeLeaf_spec hg).synced h

theorem LeafNode.create_synced (h : Synced s) (hc : LeafNode.create sys s = (some p, s')) :
    Synced s' := by
  obtain ⟨s1, hg, rfl⟩ := create_spec (create_ok hc)
  have hs1 : Synced s1 := getLeaf_synced h hg
  exact hs1

theorem freeLeaf_synced (h : Synced s) : Synced (freeLeaf sys p s).2 := by
  unfold freeLeaf
  split_ifs
  · exact h
  · exact (releaseLeaf_spec sys p s).synced h

end Leaf

/-- The property `I` of the state is kept by what the methods of a leaf do to it: taking a
    leaf, storing to a leaf with the persist that follows, and assignments to the objects. -/
structure LeafKeeps (sys : Sys) (I : World → Prop) : Prop where
  create : ∀ {s s' : World} {p : PPointer}, I s → LeafNode.create sys s = (some p, s') → I s'
  store : ∀ {s : World} {p : PPointer} {img : LeafImage}, I s → I ((s.setLeaf p img).persistLeaf p)
  node : ∀ {s : World} {p : PPointer} {nd : Option LeafNode}, I s → I (s.setNode p nd)

namespace LeafKeeps

variable {env : Env} {sys : Sys} {I : World → Prop} {s s' : World} {p q : PPointer}
  {k : Key} {v : Value} (hI : LeafKeeps sys I)
include hI

theorem edit {img : LeafImage} {nd : LeafNode} (h : I s) : I (s.edit p img nd) :=
  hI.node (hI.store h)

theorem modifyNode {f : LeafNode → LeafNode} (h : I s) (hs : s.modifyNode p f = some s') :
    I s' := by
  obtain ⟨nd, -, rfl⟩ := modifyNode_eq hs
  exact hI.node h

theorem insertNonFull (h : I s) (hi : LeafNode.insertNonFull env p k v s = some s') : I s' := by
  cases hn : s.nodes p with
  | none => rw [LeafNode.insertNonFull, hn] at hi; cases hi
  | some nd =>
    rw [insertNonFull_eq hn] at hi
    split_ifs at hi
    · obtain rfl := Option.some.inj hi
      exact h
    · obtain rfl := Option.some.inj hi
      exact hI.edit h

theorem linkAfter (h : I s) (hl : LeafNode.linkAfter p q s = some s') : I s' :=
  linkAfter_keeps (fun h hs => hI.modifyNode h hs) h hl

theorem split {nc : Option (Key × PPointer)} (h : I s)
    (hs : LeafNode.split sys p s = some (nc, s')) :
    I s' := by
  simp only [LeafNode.split, Option.bind_eq_bind, Option.bind_eq_some_iff] at hs
  obtain ⟨nd, -, hs⟩ := hs
  split_ifs at hs
  · obtain ⟨-, rfl⟩ := Prod.mk.inj (Option.some.inj hs)
    exact h
  · cases hc : LeafNode.create sys s with
    | mk r s1 =>
      rw [hc] at hs
      cases r with
      | none => cases hs
      | some q =>
        simp only [Option.bind_eq_some_iff] at hs
        obtain ⟨s2, h2, s3, h3, s4, h4, h5⟩ := hs
        obtain ⟨-, rfl⟩ := Prod.mk.inj (Option.some.inj h5)
        have hs2 := hI.modifyNode (hI.store (hI.store (hI.create h hc))) h2
        exact hI.linkAfter (hI.modifyNode hs2 h3) h4

theorem insert {nc : Option (Key × PPointer)} (h : I s)
    (hi : LeafNode.insert env sys p k v s = some (nc, s')) : I s' := by
  simp only [LeafNode.insert, Option.bind_eq_bind, Option.bind_eq_some_iff] at hi
  obtain ⟨s1, h1, nd, -, hi⟩ := hi
  have hs1 := hI.insertNonFull h h1
  split_ifs at hi
  · exact hI.split hs1 hi
  · obtain ⟨-, rfl⟩ := Prod.mk.inj (Option.some.inj hi)
    exact hs1

theorem update {r : Bool} (h : I s) (hu : LeafNode.update env p k v s = some (r, s')) : I s' := by
  cases hn : s.nodes p with
  | none => rw [LeafNode.update, hn] at hu; cases hu
  | some nd =>
    cases hf : (s.leafAt p).findSlot env.keyHash LEAF_DEGREE k with
    | none =>
      rw [update_eq_none hn hf] at hu
      obtain ⟨-, rfl⟩ := Prod.mk.inj (Option.some.inj hu)
      exact h
    | some i =>
      rw [update_eq_some hn hf] at hu
      obtain ⟨-, rfl⟩ := Prod.mk.inj (Option.some.inj hu)
      exact hI.edit h

theorem unlink (h : I s) (hu : LeafNode.unlink p s = some s') : I s' := by
  simp only [LeafNode.unlink, Option.bind_eq_bind, Option.bind_eq_some_iff] at hu
  obtain ⟨nd, -, hu⟩ := hu
  cases hp : nd.prev with
  | none =>
    rw [hp] at hu
    cases hn : nd.next with
    | none =>
      rw [hn] at hu
      obtain rfl := Option.some.inj hu
      exact h
    | some r =>
      rw [hn] at hu
      exact hI.modifyNode h hu
  | some q =>
    rw [hp] at hu
    simp only [Option.bind_some, Option.bind_eq_some_iff] at hu
    obtain ⟨s1, h1, hu⟩ := hu
    have h1' := hI.modifyNode h h1
    cases hn : nd.next with
    | none =>
      rw [hn] at hu
      obtain rfl := Option.some.inj hu
      exact hI.store h1'
    | some r =>
      rw [hn] at hu
      exact hI.modifyNode (hI.store h1') hu

theorem remove {b rm del : Bool}
    (hfree : ∀ {s : World} {p : PPointer}, I s → I (freeLeaf sys p s).2)
    (h : I s) (hr : LeafNode.remove env sys p k b s = some (rm, del, s')) : I s' := by
  cases hn : s.nodes p with
  | none => rw [LeafNode.remove, hn] at hr; cases hr
  | some nd =>
    cases hf : (s.leafAt p).findSlot env.keyHash LEAF_DEGREE k with
    | none =>
      rw [remove_eq_none hn hf] at hr
      obtain ⟨-, hr⟩ := Prod.mk.inj (Option.some.inj hr)
      obtain ⟨-, rfl⟩ := Prod.mk.inj hr
      exact h
    | some i =>
      have hclear : I (s.clearSlot p nd i) := hI.edit h
      rw [remove_eq_some hn hf] at hr
      split_ifs at hr
      · obtain ⟨s2, h2, h3⟩ := Option.map_eq_some_iff.mp hr
        obtain ⟨-, h3⟩ := Prod.mk.inj h3
        obtain ⟨-, rfl⟩ := Prod.mk.inj h3
        exact hI.unlink (hfree hclear) h2
      · obtain ⟨-, hr⟩ := Prod.mk.inj (Option.some.inj hr)
        obtain ⟨-, rfl⟩ := Prod.mk.inj hr
        exact hclear

/-- `FPTree::insert`. -/
theorem tree_insert {t t' : FPTree} (h : I s) (hi : t.insert env sys k v s = some (t', s')) :
    I s' := by
  simp only [FPTree.insert, Option.bind_eq_bind, Option.bind_eq_some_iff] at hi
  obtain ⟨⟨r, s1⟩, h1, t1, -, h2⟩ := hi
  obtain ⟨-, rfl⟩ := Prod.mk.inj (Option.some.inj h2)
  exact Node.insert_keeps hI.create hI.insert _ h h1

/-- `FPTree::update`. -/
theorem tree_update {t : FPTree} {r : Bool} (h : I s) (hu : t.update env k v s = some (r, s')) :
    I s' := by
  rw [FPTree.update, Node.update_eq, Option.bind_eq_some_iff] at hu
  obtain ⟨p, -, hu⟩ := hu
  exact hI.update h hu

/-- `FPTree::remove`. -/
theorem tree_remove {t : FPTree} {r : FPTree.Removed}
    (hdestroy : ∀ {s : World} {p : PPointer}, I s → I (LeafNode.destroy p s))
    (hfree : ∀ {s : World} {p : PPointer}, I s → I (freeLeaf sys p s).2)
    (h : I s) (hr : t.remove env sys k s = .ok r) : I r.world := by
  unfold FPTree.remove at hr
  cases hn : Node.remove env sys k (.inner t.root) (-1) none false s with
  | error log => rw [hn] at hr; cases hr
  | ok r1 =>
    rw [hn] at hr
    have hs1 := Node.remove_keeps hdestroy (hI.remove hfree) _ h hn
    dsimp only at hr
    split at hr
    · obtain rfl := Except.ok.inj hr
      exact hs1
    · cases hr

end LeafKeeps

theorem synced_keeps (sys : Sys) : LeafKeeps sys Synced :=
  ⟨LeafNode.create_synced, fun h => h.setLeaf_persistLeaf _, fun h => h⟩

/-! ## Whole runs -/

section Run

variable {env : Env} {s s' : World} {t t' : FPTree}

/-- `bulkLoading` only makes objects. -/
theorem loadLeaf_frame {p : PPointer} {oldLeaf : Option PPointer}
    (h : FPTree.loadLeaf p oldLeaf s = some s') :
    s'.mem = s.mem ∧ s'.disk = s.disk := by
  simp only [FPTree.loadLeaf, Option.bind_eq_bind, Option.bind_eq_some_iff] at h
  obtain ⟨s1, h1, h2⟩ := h
  obtain ⟨nd, -, rfl⟩ := modifyNode_eq h1
  cases oldLeaf with
  | none =>
    obtain rfl := Option.some.inj h2
    exact ⟨rfl, rfl⟩
  | some q =>
    obtain ⟨nd', -, rfl⟩ := modifyNode_eq h2
    exact ⟨rfl, rfl⟩

theorem bulkLoop_frame :
    ∀ {fuel : ℕ} {ppt : PPointer} {oldLeaf : Option PPointer} {t : FPTree} {s : World},
    FPTree.bulkLoop env fuel ppt oldLeaf t s = some (t', s') → s'.mem = s.mem ∧
    s'.disk = s.disk := by
  intro fuel
  induction fuel with
  | zero => intro ppt oldLeaf t s h; cases h
  | succ fuel ih =>
    intro ppt oldLeaf t s h
    rw [FPTree.bulkLoop] at h
    split_ifs at h
    · simp only [Option.bind_eq_bind, Option.bind_eq_some_iff] at h
      obtain ⟨s1, h1, r, -, t1, -, h2⟩ := h
      have hs1 := loadLeaf_frame h1
      exact ⟨(ih h2).1.trans hs1.1, (ih h2).2.trans hs1.2⟩
    · obtain ⟨-, rfl⟩ := Prod.mk.inj (Option.some.inj h)
      exact ⟨rfl, rfl⟩

theorem construct_synced (env : Env) (sys : Sys) (d : Storage) :
    Synced (PAllocator.construct env sys d) := by
  unfold PAllocator.construct
  split
  · rfl
  · unfold Synced
    rw [persistCatalog_groups, persistCatalog_mem]
    split_ifs <;> rfl

/-- A call with the outcomes of its system calls. -/
theorem step_synced (op : Sys × DbOp) {db db' : Db} (h : Synced db.2)
    (hstep : op.2.step env op.1 db = some db') : Synced db'.2 := by
  obtain ⟨sys, op⟩ := op
  obtain ⟨t, s⟩ := db
  cases op with
  | insert k v => exact (synced_keeps sys).tree_insert h hstep
  | update k v =>
    obtain ⟨⟨r, s1⟩, hu, rfl⟩ := Option.map_eq_some_iff.mp hstep
    exact (synced_keeps sys).tree_update h hu
  | remove k =>
    simp only [DbOp.step] at hstep
    cases hr : t.remove env sys k s with
    | error log => rw [hr] at hstep; cases hstep
    | ok r =>
      rw [hr] at hstep
      obtain rfl := Option.some.inj hstep
      exact (synced_keeps sys).tree_remove (fun hs => hs.persistLeaf) freeLeaf_synced h hr

end Run

/-- On a store opened from any data directory, after every call of a run of
    insertions, updates and removals of any keys, whatever the outcomes of the system
    calls, the leaf-group files on storage equal the mapped ones. -/
theorem run_flushed (env : Env) (sys : Sys) (d : Storage) (degree fuel : ℕ) (db₀ db : Db)
    (ops : List (Sys × DbOp))
    (hopen : FPTree.construct env fuel degree (PAllocator.construct env sys d) = some db₀)
    (hrun : run (fun op : Sys × DbOp => op.2.step env op.1) ops db₀ = some db) :
    db.2.disk.groups = db.2.mem := by
  have hstart : Synced db₀.2 := by
    obtain ⟨hm, hd⟩ := bulkLoop_frame hopen
    exact (construct_synced env sys d).of_eq hm (by rw [hd])
  exact run_inv (fun op _ _ h hstep => step_synced op h hstep) ops hstart hrun

theorem run_flushed_two : ∃ db : Db,
    run (fun op : Sys × DbOp => op.2.step Env.flat op.1)
      [(Sys.ok, .insert 5 50), (Sys.ok, .update 5 51)] (emptyDb Env.flat 1) = some db ∧
      db.2.disk.groups = db.2.mem := by
  obtain ⟨db, hrun, -⟩ := runs_simulate Env.flat (le_refl 1) 5 50 [.update 5 51]
    ⟨⟨rfl, rfl⟩, ⟨rfl, trivial⟩, trivial⟩
  exact ⟨db, hrun, run_flushed Env.flat Sys.ok Storage.empty 1 1 _ db
    [(Sys.ok, .insert 5 50), (Sys.ok, .update 5 51)] (construct_emptyDb Env.flat 0 1) hrun⟩

end FPTreeDB
