import FPTreeDB.Tree.CrashAtomic

/-!
# Crashes during a session

After a reopening the catalog on storage is current, and inserts that find a free leaf and
updates leave it current. A whole session of such calls can be stopped at any point: the
store recovers to the one after the calls that had returned, or to the one with the call in
progress.

* `WriteInv.insert_current`, `DbInv.update_current`: the catalog stays current.
* `session_atomic`: the store after each call of the session, and the points of the next one.
-/

namespace FPTreeDB

open PAllocator Runs Node Links

section Current

variable {env : Env} {d h : ℕ} {t t' : FPTree} {s s' : World} {m : Key → Option Value}
  {k : Key} {v : Value}

theorem DbInv.update_current (h : DbInv env (t, s) m) (hcat : CatalogCurrent s)
    (hk : k ∈ (stored t s).map KeyValue.k)
    (hs : (DbOp.update k v).step env Sys.ok (t, s) = some (t', s')) :
    CatalogCurrent s' := by
  obtain ⟨⟨b, s1⟩, hu, heq⟩ := Option.map_eq_some_iff.mp hs
  obtain ⟨-, rfl⟩ := Prod.mk.inj heq
  obtain ⟨d, -, hinv⟩ := h.inv
  rcases hinv.tree with hempty | ⟨_, hr⟩
  · rw [stored, hempty.leaves_eq] at hk
    cases hk
  rcases @Inv.update env d _ t s k v hinv hr with ⟨hk', -⟩ | ⟨-, s', hu', -⟩
  · exact absurd hk hk'
  · obtain ⟨rfl, rfl⟩ := Prod.mk.inj (Option.some.inj (hu.symm.trans hu'))
    rw [FPTree.update, Node.update_eq, Option.bind_eq_some_iff] at hu
    obtain ⟨p, -, hleaf⟩ := hu
    exact (update_oneWrite hleaf).current hcat

theorem WriteInv.insert_current (h : WriteInv env (t, s) m) (hcat : CatalogCurrent s)
    (hne : stored t s ≠ []) (hkn : k ∉ (stored t s).map KeyValue.k)
    (hroom : NeedsLeaf t s k → s.freeNum ≠ 0)
    (hs : (DbOp.insert k v).step env Sys.ok (t, s) = some (t', s')) : CatalogCurrent s' := by
  obtain ⟨d, -, hinv⟩ := h.inv
  rcases hinv.tree with hempty | ⟨_, hr⟩
  · rw [stored, hempty.leaves_eq] at hne
    exact absurd rfl hne
  obtain ⟨l1, p, l2, -, hroute, hw, hst, hiff⟩ := hinv.route hr k
  obtain ⟨nc, hleaf⟩ := hr.insert_leaf hroute hs
  have hkp : k ∉ (s.leafAt p).keys LEAF_DEGREE := fun hk' => hkn (hiff.mpr hk')
  obtain ⟨nd, hn, hnn⟩ := hw.exists_node
  obtain ⟨hfree, -⟩ := @fillSlot_spec env s p k v nd hw.ok hw.le_cap hnn hkp
  have hfilled : CatalogCurrent (s.fillSlot env p nd k v) := edit_oneWrite.current hcat
  rw [insert_eq hn hfree] at hleaf
  split_ifs at hleaf with hfull
  · have hneed : NeedsLeaf t s k := by
      refine Or.inr ⟨p, hroute, ?_⟩
      have := hw.le_cap
      rw [hnn] at hfull
      simp only [LEAF_MAX, LEAF_DEGREE] at *
      omega
    -- a split takes its leaf from the free list, behind the first leaf of the chain
    have hxst : StoreInv (s.fillSlot env p nd k v) (l1 ++ p :: l2) := hst.edit hn rfl rfl rfl
    have hfull' : 2 * (LEAF_DEGREE : ℤ) ≤ nd.n + 1 := by omega
    obtain ⟨q, img, nd', -, hsl, hpts⟩ :=
      split_points hxst edit_nodes_self hfull' (hroom hneed) hleaf
    obtain ⟨c, hc, hmax, hstart⟩ := hfilled
    refine ⟨c, hpts.catalog.trans hc, hmax.trans hpts.maxFileId.symm, hstart.trans ?_⟩
    rw [hxst.start, hsl.store.start, entry_append, entry_append]
    rfl
  · obtain ⟨-, rfl⟩ := Prod.mk.inj (Option.some.inj hleaf)
    exact hfilled

/-- Between two calls of a session. -/
structure SessionInv (env : Env) (db : Db) (m : Key → Option Value) : Prop where
  write : WriteInv env db m
  current : CatalogCurrent db.2
  ne_nil : stored db.1 db.2 ≠ []

theorem SessionInv.find (h : SessionInv env (t, s) m) : (fun k => t.find env k s) = answers m := by
  refine h.write.toDbInv.find fun hnil => h.ne_nil ?_
  rw [stored, hnil]
  rfl

/-- One call: the points inside it are good for the map before it or after it. -/
theorem SessionInv.step {op : DbOp} {db : Db} (h : SessionInv env db m)
    (hop : InPlace db.1 db.2 op) :
    ∃ db' pts, op.step env Sys.ok db = some db' ∧ SessionInv env db' (op.apply m) ∧
      db'.2.trace = db.2.trace ++ pts ∧
      ∀ D ∈ pts, Recovers env D (answers m) ∨ Recovers env D (answers (op.apply m)) := by
  obtain ⟨t, s⟩ := db
  have hatomic : WriteAtomic env op t s := by
    cases op with
    | insert k v => exact h.write.insert_atomic h.current h.ne_nil hop.1 hop.2 v
    | update k v => exact h.write.toDbInv.update_atomic h.current hop v
    | remove k => exact hop.elim
  obtain ⟨t', s', pts, hs, htrace, hgood⟩ := hatomic
  have hpre : WritePre op m := by
    cases op with
    | insert k v => exact ⟨rfl, h.write.represents.not_mem_keys.mp hop.1⟩
    | update k v => exact ⟨rfl, trivial⟩
    | remove k => exact hop.elim
  have hw : WriteInv env (t', s') (op.apply m) := h.write.step (.call op) hpre hs
  have h' : SessionInv env (t', s') (op.apply m) := by
    refine ⟨hw, ?_, ?_⟩
    · cases op with
      | insert k v => exact h.write.insert_current h.current h.ne_nil hop.1 hop.2 hs
      | update k v => exact h.write.toDbInv.update_current h.current hop hs
      | remove k => exact hop.elim
    · intro hnil
      have hkey : ∃ v, op.apply m op.key = some v := by
        cases op with
        | insert k v => exact ⟨v, Function.update_self k _ m⟩
        | update k v =>
          have hsome : (m k).isSome = true := by
            by_contra hnone
            rw [Bool.not_eq_true, Option.isSome_eq_false_iff, Option.isNone_iff_eq_none] at hnone
            exact h.write.represents.not_mem_keys.mpr hnone hop
          exact ⟨v, by simp [DbOp.apply, DbOp.key, hsome]⟩
        | remove k => exact hop.elim
      obtain ⟨v, hv⟩ := hkey
      have hmem := (hw.represents op.key v).mpr hv
      rw [hnil] at hmem
      exact List.not_mem_nil hmem
  refine ⟨(t', s'), pts, hs, h', htrace, fun D hD => ?_⟩
  have hD' := hgood D (List.mem_cons_of_mem _ hD)
  rwa [h.find, h'.find] at hD'

end Current

/-- Stopped at any point of a session of inserts that find a free leaf and of updates of
    stored keys, on a store reached without removals that has a key and a current catalog, the
    store recovers: between two calls, to the map after the calls that have returned; while
    call `i` runs, at any point that this call adds to the trace, to the map after the `i`
    calls before it or to the one after it. No call that returned is lost, and none shows in
    part. -/
theorem session_atomic (env : Env) (d : ℕ) (hd : 1 ≤ d) (acts : List DbAct)
    (hacts : Allowed DbAct.WritePre DbAct.apply acts fun _ => none) (t : FPTree) (s : World)
    (hrun : run (DbAct.step env) acts (emptyDb env d) = some (t, s)) (hne : stored t s ≠ [])
    (hcat : CatalogCurrent s) (ops : List DbOp)
    (hops : Meets (DbOp.step env Sys.ok) (fun op db => InPlace db.1 db.2 op) ops (t, s)) (i : ℕ) :
    let m := runSpec DbAct.apply acts fun _ => none
    ∃ tᵢ sᵢ, run (DbOp.step env Sys.ok) (ops.take i) (t, s) = some (tᵢ, sᵢ) ∧
      Recovers env sᵢ.disk (answers (runSpec DbOp.apply (ops.take i) m)) ∧
      ∀ op ∈ ops[i]?, ∃ t' s' pts, op.step env Sys.ok (tᵢ, sᵢ) = some (t', s') ∧
        s'.trace = sᵢ.trace ++ pts ∧ ∀ D ∈ pts,
          Recovers env D (answers (runSpec DbOp.apply (ops.take i) m)) ∨
          Recovers env D (answers (runSpec DbOp.apply (ops.take (i + 1)) m)) := by
  intro m
  have h := acts_writeInv env hd acts hacts hrun
  have hs : SessionInv env (t, s) m := ⟨h, hcat, hne⟩
  have hstep : ∀ (op : DbOp) (db : Db) (m : Key → Option Value), SessionInv env db m →
      InPlace db.1 db.2 op →
      ∃ db' pts, op.step env Sys.ok db = some db' ∧ SessionInv env db' (op.apply m) ∧
        db'.2.trace = db.2.trace ++ pts ∧
        ∀ D ∈ pts, Recovers env D (answers m) ∨ Recovers env D (answers (op.apply m)) :=
    fun op db m hR hop => hR.step hop
  have hpoints := @run_points DbOp Db (Key → Option Value) (DbOp.step env Sys.ok) DbOp.apply Storage
    (SessionInv env) (fun db => db.2.trace) (fun m D => Recovers env D (answers m))
    (fun op db => InPlace db.1 db.2 op) hstep ops
  obtain ⟨⟨tᵢ, sᵢ⟩, hrunᵢ, hsᵢ, hnext⟩ := hpoints hs hops i
  refine ⟨tᵢ, sᵢ, hrunᵢ, ?_, fun op hop => ?_⟩
  · rw [← hsᵢ.find]
    exact hsᵢ.write.toDbInv.recovers hsᵢ.current.covers
  · obtain ⟨⟨t', s'⟩, hcall⟩ := hnext op hop
    exact ⟨t', s', hcall⟩

/-- A reopened store with one key, stopped while the second call, the update, runs. -/
theorem session_atomic_two :
    ∃ t s tᵢ sᵢ, run (DbAct.step Env.flat) [.call (.insert 5 50), .reopen 2 1]
        (emptyDb Env.flat 1) = some (t, s) ∧
      run (DbOp.step Env.flat Sys.ok) [.insert 6 60] (t, s) = some (tᵢ, sᵢ) ∧
      Recovers Env.flat sᵢ.disk
        (answers (Function.update (Function.update (fun _ => none) 5 (some 50)) 6 (some 60))) := by
  have hrun : run (DbAct.step Env.flat) [.call (.insert 5 50), .reopen 2 1] (emptyDb Env.flat 1) =
      some (_, _) := rfl
  obtain ⟨tᵢ, sᵢ, hops, hrec, -⟩ :=
    session_atomic Env.flat 1 le_rfl [.call (.insert 5 50), .reopen 2 1]
      ⟨⟨rfl, rfl⟩, trivial, trivial⟩ _ _ hrun (by decide +kernel) ⟨_, rfl, rfl, rfl⟩
      [.insert 6 60, .update 5 51]
      ⟨⟨by decide +kernel, fun _ => by decide +kernel⟩, fun db hdb => by
        obtain rfl : _ = db := Option.some.inj hdb
        refine ⟨?_, fun _ _ => trivial⟩
        show (5 : Key) ∈ (stored _ _).map KeyValue.k
        decide +kernel⟩ 1
  exact ⟨_, _, tᵢ, sᵢ, hrun, hops, hrec⟩

end FPTreeDB
