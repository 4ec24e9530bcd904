import FPTreeDB.Lib.Runs
import FPTreeDB.Tree.BulkLoad

/-!
# The store as a map

A store is a tree with the process it belongs to. The abstract store is a map from
keys to values; a run of inserts of keys that are not stored and of updates, from
an empty data directory, is simulated by the same run on the map.

* `map_refinement`: `find`, the results of `update`, and the keys an operation
  does not touch.
* `insert_wellFormed`: the tree after a run of inserts.
* `remove_correct`: a removal from any well-formed tree.
-/

namespace FPTreeDB

open Links Node Runs

/-- A tree and the process it belongs to. -/
abbrev Db := FPTree × World

/-- The calls of `FPTree` that change the store. -/
inductive DbOp where
  | insert (k : Key) (v : Value)
  | update (k : Key) (v : Value)
  | remove (k : Key)
deriving DecidableEq

namespace DbOp

/-- The key that a call is about. -/
def key : DbOp → Key
  | insert k _ => k
  | update k _ => k
  | remove k => k

/-- A call of the code; `none` if it runs into undefined behaviour. -/
def step (env : Env) (sys : Sys) : DbOp → Db → Option Db
  | insert k v, (t, s) => t.insert env sys k v s
  | update k v, (t, s) => (t.update env k v s).map fun r => (t, r.2)
  | remove k, (t, s) =>
    match t.remove env sys k s with
    | .error _ => none
    | .ok r => some (r.tree, r.world)

/-- What a call does to the map. -/
def apply : DbOp → (Key → Option Value) → Key → Option Value
  | insert k v, m => Function.update m k (some v)
  | update k v, m => if (m k).isSome then Function.update m k (some v) else m
  | remove k, m => Function.update m k none

/-- The callers insert a key only when it is not stored. -/
def Pre : DbOp → (Key → Option Value) → Prop
  | insert k _, m => m k = none
  | _, _ => True

instance (op : DbOp) (m : Key → Option Value) : Decidable (op.Pre m) :=
  match op with
  | insert k _ => inferInstanceAs (Decidable (m k = none))
  | update _ _ => inferInstanceAs (Decidable True)
  | remove _ => inferInstanceAs (Decidable True)

/-- An insert or an update. -/
def isWrite : DbOp → Bool
  | remove _ => false
  | _ => true

theorem apply_of_ne {op : DbOp} {m : Key → Option Value} {k : Key} (h : k ≠ op.key) :
    op.apply m k = m k := by
  cases op with
  | insert k' v => exact Function.update_of_ne h _ _
  | update k' v =>
    show (if (m k').isSome then Function.update m k' (some v) else m) k = m k
    split_ifs
    · exact Function.update_of_ne h _ _
    · rfl
  | remove k' => exact Function.update_of_ne h _ _

end DbOp

/-- The store of an empty data directory: what `FPTree::FPTree` makes of the
    allocator constructed there. -/
def emptyDb (env : Env) (d : ℕ) : Db :=
  (⟨InnerNode.create d true, d⟩, PAllocator.construct env Sys.ok Storage.empty)

theorem construct_emptyDb (env : Env) (fuel d : ℕ) :
    FPTree.construct env (fuel + 1) d (PAllocator.construct env Sys.ok Storage.empty) =
      some (emptyDb env d) := rfl

theorem emptyDb_inv (env : Env) (d : ℕ) : Inv env d (emptyDb env d).1 (emptyDb env d).2 :=
  ⟨Or.inl ⟨rfl, rfl, rfl, rfl⟩, construct_empty_storeInv env⟩

/-! ## Maps -/

section Represents

variable {ps ps' rest : List KeyValue} {m : Key → Option Value} {k : Key} {v old : Value}

theorem Represents.mem_keys (h : Represents ps m) :
    k ∈ ps.map KeyValue.k ↔ (m k).isSome = true := by
  rw [List.mem_map, Option.isSome_iff_exists]
  constructor
  · rintro ⟨⟨k', v⟩, hx, rfl⟩
    exact ⟨v, (h k' v).mp hx⟩
  · rintro ⟨v, hv⟩
    exact ⟨⟨k, v⟩, (h k v).mpr hv, rfl⟩

theorem Represents.not_mem_keys (h : Represents ps m) : k ∉ ps.map KeyValue.k ↔ m k = none := by
  rw [h.mem_keys, Bool.not_eq_true, Option.isSome_eq_false_iff, Option.isNone_iff_eq_none]

/-- A list with one pair for each key stands for a map. -/
theorem Represents.cons (h : Represents ps m) (hp : ps'.Perm (⟨k, v⟩ :: ps)) (hk : m k = none) :
    Represents ps' (Function.update m k (some v)) := by
  intro k' v'
  rw [hp.mem_iff, List.mem_cons, h]
  by_cases hkk : k' = k
  · subst hkk
    simp [hk, eq_comm]
  · simp [hkk]

theorem Represents.erase (h : Represents ps m) (hp : ps.Perm (⟨k, old⟩ :: rest))
    (hnd : (ps.map KeyValue.k).Nodup) : Represents rest (Function.update m k none) := by
  have hnot : k ∉ rest.map KeyValue.k := by
    rw [(hp.map _).nodup_iff, List.map_cons, List.nodup_cons] at hnd
    exact hnd.1
  intro k' v'
  by_cases hkk : k' = k
  · subst hkk
    simp only [Function.update_self, reduceCtorEq, iff_false]
    exact fun hx => hnot (List.mem_map_of_mem hx)
  · rw [Function.update_of_ne hkk, ← h, hp.mem_iff, List.mem_cons]
    simp [hkk]

theorem Represents.replace (h : Represents ps m) (hp : ps.Perm (⟨k, old⟩ :: rest))
    (hp' : ps'.Perm (⟨k, v⟩ :: rest)) (hnd : (ps.map KeyValue.k).Nodup) :
    Represents ps' (Function.update m k (some v)) := by
  have := (h.erase hp hnd).cons hp' (Function.update_self _ _ _)
  rwa [Function.update_idem] at this

end Represents

/-! ## Simulation -/

section

variable {env : Env} {d : ℕ} {t t' : FPTree} {s s' : World} {m : Key → Option Value}

/-- The store of a tree that has a leaf stands for the map `m`. -/
structure Simulates (env : Env) (d : ℕ) (db : Db) (m : Key → Option Value) : Prop where
  tree : ∃ h, RootRanged d (leafPred env LEAF_MAX db.2) h db.1.root
  store : StoreInv db.2 (inner db.1.root).leaves
  represents : Represents (stored db.1 db.2) m

theorem Simulates.inv (h : Simulates env d (t, s) m) : Inv env d t s := ⟨Or.inr h.tree, h.store⟩

theorem Simulates.find (h : Simulates env d (t, s) m) (k : Key) :
    t.find env k s = some ((m k).getD MAX_VALUE) := by
  obtain ⟨_, hr⟩ := h.tree
  exact find_of_represents hr h.represents k

theorem StoreInserted.simulates {k : Key} {v : Value} (h : StoreInserted env d t s k v t' s')
    (hm : Represents (stored t s) m) (hk : m k = none) :
    Simulates env d (t', s') (Function.update m k (some v)) :=
  ⟨h.tree, h.store, hm.cons h.pairs hk⟩

/-- An update: its result and its effect on the map. -/
theorem Simulates.update (h : Simulates env d (t, s) m) (k : Key) (v : Value) :
    ∃ s', t.update env k v s = some ((m k).isSome, s') ∧
      Simulates env d (t, s') ((DbOp.update k v).apply m) ∧ (AllocInv s → AllocInv s') := by
  obtain ⟨ht, hr⟩ := h.tree
  rcases @Inv.update env d ht t s k v h.inv hr with ⟨hk, hu⟩ | ⟨hk, s', hu, hs⟩
  · rw [h.represents.mem_keys, Bool.not_eq_true] at hk
    refine ⟨s, by rw [hu, hk], ?_, id⟩
    simpa [DbOp.apply, hk] using h
  · have hnd := FPTreeDB.RootRanged.keys_nodup hr h.store.nodup
    rw [h.represents.mem_keys] at hk
    refine ⟨s', by rw [hu, hk], ?_, hs.allocInv⟩
    obtain ⟨old, rest, h1, h2⟩ := hs.pairs
    simp only [DbOp.apply, hk, if_true]
    exact ⟨hs.tree, hs.store, h.represents.replace h1 h2 hnd⟩

/-- The inserts and updates that the callers make. -/
def WritePre (op : DbOp) (m : Key → Option Value) : Prop := op.isWrite = true ∧ op.Pre m

theorem write_step (hd : 1 ≤ d) (op : DbOp) (db : Db) (m : Key → Option Value)
    (h : Simulates env d db m ∧ AllocInv db.2) (hop : WritePre op m) :
    ∃ db', op.step env Sys.ok db = some db' ∧ Simulates env d db' (op.apply m) ∧
      AllocInv db'.2 := by
  obtain ⟨t, s⟩ := db
  obtain ⟨hs, ha⟩ := h
  cases op with
  | insert k v =>
    have hk := hs.represents.not_mem_keys.mpr hop.2
    obtain ⟨t', s', hres⟩ := hs.inv.insert_some hd ha hk v
    have hi := hs.inv.insert hd hk hres
    exact ⟨(t', s'), hres, hi.simulates hs.represents hop.2, hi.allocInv ha⟩
  | update k v =>
    obtain ⟨s', hu, hs', ha'⟩ := hs.update k v
    exact ⟨(t, s'), by simp [DbOp.step, hu], hs', ha' ha⟩
  | remove k => exact absurd hop.1 (by simp [DbOp.isWrite])

/-- The first insertion. -/
theorem first_step (env : Env) (hd : 1 ≤ d) (k : Key) (v : Value) :
    ∃ db, (DbOp.insert k v).step env Sys.ok (emptyDb env d) = some db ∧
      Simulates env d db ((DbOp.insert k v).apply fun _ => none) ∧ AllocInv db.2 := by
  have hinv := emptyDb_inv env d
  have ha : AllocInv (emptyDb env d).2 := construct_empty_allocInv env
  have hst : stored (emptyDb env d).1 (emptyDb env d).2 = [] := rfl
  have hrep : Represents (stored (emptyDb env d).1 (emptyDb env d).2) fun _ => none := by
    intro k v
    simp [hst]
  have hk : k ∉ (stored (emptyDb env d).1 (emptyDb env d).2).map KeyValue.k := by simp [hst]
  obtain ⟨t', s', hres⟩ := hinv.insert_some hd ha hk v
  have hi := hinv.insert hd hk hres
  exact ⟨(t', s'), hres, hi.simulates hrep rfl, hi.allocInv ha⟩

theorem runs_simulate (env : Env) (hd : 1 ≤ d) (k : Key) (v : Value) (ops : List DbOp)
    (hops : Allowed WritePre DbOp.apply (.insert k v :: ops) fun _ => none) :
    ∃ db, run (DbOp.step env Sys.ok) (.insert k v :: ops) (emptyDb env d) = some db ∧
      Simulates env d db (runSpec DbOp.apply (.insert k v :: ops) fun _ => none) ∧
      AllocInv db.2 := by
  obtain ⟨db1, h1, hs1⟩ := first_step env hd k v
  obtain ⟨db2, h2, hs2⟩ := run_simulates (R := fun db m => Simulates env d db m ∧ AllocInv db.2)
    (write_step hd) ops hs1 hops.2
  exact ⟨db2, by rw [run, h1]; exact h2, hs2⟩

/-- Inserts of different keys are allowed, whatever operation `f k v` stands for one of them. -/
theorem allowed_inserts {Op : Type} {pre : Op → (Key → Option Value) → Prop}
    {apply : Op → (Key → Option Value) → Key → Option Value} {f : Key → Value → Op}
    (hpre : ∀ k v m, m k = none → pre (f k v) m)
    (happly : ∀ k v m, apply (f k v) m = Function.update m k (some v)) :
    ∀ (kvs : List (Key × Value)) (m : Key → Option Value), (kvs.map Prod.fst).Nodup →
    (∀ x ∈ kvs, m x.1 = none) → Allowed pre apply (kvs.map fun x => f x.1 x.2) m := by
  intro kvs
  induction kvs with
  | nil => exact fun _ _ _ => trivial
  | cons x kvs ih =>
    intro m hnd hm
    rw [List.map_cons, List.nodup_cons] at hnd
    refine ⟨hpre _ _ _ (hm x List.mem_cons_self), ih _ hnd.2 fun y hy => ?_⟩
    have hne : y.1 ≠ x.1 := fun h => hnd.1 (h ▸ List.mem_map_of_mem hy)
    rw [happly, Function.update_of_ne hne]
    exact hm y (List.mem_cons_of_mem _ hy)

end

/-- Map refinement. After any run of updates and of inserts of keys that are not
    stored, which starts with an insert into an empty store, every call returns;
    `find` answers as the map does, an update returns whether its key is stored, and
    no call changes what `find` answers for another key. -/
theorem map_refinement (env : Env) (d : ℕ) (hd : 1 ≤ d) (k₀ : Key) (v₀ : Value) (ops : List DbOp)
    (hops : Allowed WritePre DbOp.apply (.insert k₀ v₀ :: ops) fun _ => none) :
    ∃ t s, run (DbOp.step env Sys.ok) (.insert k₀ v₀ :: ops) (emptyDb env d) = some (t, s) ∧
      (∀ k, t.find env k s =
        some ((runSpec DbOp.apply (.insert k₀ v₀ :: ops) (fun _ => none) k).getD MAX_VALUE)) ∧
      (∀ k v, ∃ s', t.update env k v s =
        some ((runSpec DbOp.apply (.insert k₀ v₀ :: ops) (fun _ => none) k).isSome, s')) ∧
      ∀ op, WritePre op (runSpec DbOp.apply (.insert k₀ v₀ :: ops) fun _ => none) →
        ∃ t' s', op.step env Sys.ok (t, s) = some (t', s') ∧
          ∀ k, k ≠ op.key → t'.find env k s' = t.find env k s := by
  obtain ⟨⟨t, s⟩, hrun, hs, ha⟩ := runs_simulate env hd k₀ v₀ ops hops
  refine ⟨t, s, hrun, hs.find, fun k v => ?_, fun op hop => ?_⟩
  · obtain ⟨s', hu, -⟩ := hs.update k v
    exact ⟨s', hu⟩
  · obtain ⟨⟨t', s'⟩, hstep, hs', -⟩ := write_step hd op (t, s) _ ⟨hs, ha⟩ hop
    refine ⟨t', s', hstep, fun k hk => ?_⟩
    rw [hs'.find, hs.find, DbOp.apply_of_ne hk]

/-- One insert, one failing and one successful update. -/
theorem map_refinement_three :
    Allowed WritePre DbOp.apply [.insert 7 70, .update 8 80, .update 7 71] (fun _ => none) ∧
    ∃ t s, run (DbOp.step Env.flat Sys.ok) [.insert 7 70, .update 8 80, .update 7 71]
      (emptyDb Env.flat 1) =
      some (t, s) ∧ t.find Env.flat 7 s = some 71 ∧ t.find Env.flat 8 s = some MAX_VALUE := by
  have hops : Allowed WritePre DbOp.apply [.insert 7 70, .update 8 80, .update 7 71]
      fun _ => none :=
    ⟨⟨rfl, rfl⟩, ⟨rfl, trivial⟩, ⟨rfl, trivial⟩, trivial⟩
  obtain ⟨t, s, hrun, hfind, -⟩ :=
    map_refinement Env.flat 1 le_rfl 7 70 [.update 8 80, .update 7 71] hops
  exact ⟨hops, t, s, hrun, hfind 7, hfind 8⟩

/-- The structure of the tree after any run of inserts of different keys: every call
    stays inside its arrays and leaves a well-formed tree. -/
theorem insert_wellFormed (env : Env) (d : ℕ) (hd : 1 ≤ d) (kvs : List (Key × Value))
    (hnd : (kvs.map Prod.fst).Nodup) :
    ∃ t s, run (DbOp.step env Sys.ok) (kvs.map fun x => .insert x.1 x.2)
      (emptyDb env d) = some (t, s) ∧
      WellFormed env d LEAF_MAX t s := by
  cases kvs with
  | nil => exact ⟨_, _, rfl, (emptyDb_inv env d).wellFormed⟩
  | cons x kvs =>
    have hops : Allowed WritePre DbOp.apply ((x :: kvs).map fun x => .insert x.1 x.2)
        fun _ => none :=
      allowed_inserts (f := DbOp.insert) (fun _ _ _ hk => ⟨rfl, hk⟩) (fun _ _ _ => rfl) _ _ hnd
        fun _ _ => rfl
    obtain ⟨⟨t, s⟩, hrun, hs, -⟩ := runs_simulate env hd x.1 x.2 _ hops
    exact ⟨t, s, hrun, hs.inv.wellFormed⟩

theorem insert_wellFormed_two :
    ∃ t s, run (DbOp.step Env.flat Sys.ok) [.insert 5 50, .insert 3 30]
      (emptyDb Env.flat 1) = some (t, s) ∧
      WellFormed Env.flat 1 LEAF_MAX t s :=
  insert_wellFormed Env.flat 1 le_rfl [(5, 50), (3, 30)] (by decide)

/-! ## Removal -/

/-- What is left when the pair of `k` is taken out. -/
theorem perm_filter_of_cons {ps rest : List KeyValue} {k : Key} {old : Value}
    (hp : ps.Perm (⟨k, old⟩ :: rest)) (hnd : (ps.map KeyValue.k).Nodup) :
    rest.Perm (ps.filter fun x => x.k ≠ k) := by
  have hnot : k ∉ rest.map KeyValue.k := by
    rw [(hp.map _).nodup_iff, List.map_cons, List.nodup_cons] at hnd
    exact hnd.1
  have hrest : rest.filter (fun x => x.k ≠ k) = rest := by
    rw [List.filter_eq_self]
    intro x hx
    simp only [ne_eq, decide_not, Bool.not_eq_eq_eq_not, Bool.not_true, decide_eq_false_iff_not]
    exact fun hk => hnot (hk ▸ List.mem_map_of_mem hx)
  have hfilter := hp.filter fun x => decide (x.k ≠ k)
  rw [List.filter_cons_of_neg (by simp), hrest] at hfilter
  exact hfilter.symm

theorem Inv.keys_nodup {env : Env} {d : ℕ} {t : FPTree} {s : World} (h : Inv env d t s) :
    ((stored t s).map KeyValue.k).Nodup := by
  rcases h.tree with hempty | ⟨_, hr⟩
  · simp [stored, hempty.leaves_eq]
  · exact FPTreeDB.RootRanged.keys_nodup hr h.store.nodup

/-- Correctness of `remove` on every well-formed tree: unless a level that needs
    repair chooses a left redistribution, the call returns whether the key was
    stored, takes out its pair and no other, and leaves a well-formed tree. -/
theorem remove_correct (env : Env) (sys : Sys) (d : ℕ) (hd : 1 ≤ d) (t : FPTree) (s : World)
    (k : Key) (hw : WellFormed env d LEAF_MAX t s)
    (hlog : .redistributeLeft ∉ FPTree.rebalances (t.remove env sys k s)) :
    ∃ r, t.remove env sys k s = .ok r ∧
      (r.ifRemove = true ↔ k ∈ (stored t s).map KeyValue.k) ∧
      (stored r.tree r.world).Perm ((stored t s).filter fun x => x.k ≠ k) ∧
      WellFormed env d LEAF_MAX r.tree r.world := by
  rcases hw.inv.remove hd sys k with ⟨log, herr, hmem⟩ | ⟨r, hok, hr⟩
  · rw [herr] at hlog
    exact absurd hmem hlog
  · refine ⟨r, hok, ?_, ?_, hr.inv.wellFormed⟩
    · rcases hr.outcome with ⟨hf, hk, -⟩ | ⟨ht, old, hp⟩
      · simp [hf, hk]
      · rw [ht, (hp.map KeyValue.k).mem_iff]
        simp
    · rcases hr.outcome with ⟨-, hk, -, heq⟩ | ⟨-, old, hp⟩
      · rw [heq, List.filter_eq_self.mpr]
        intro x hx
        simp only [ne_eq, decide_not, Bool.not_eq_eq_eq_not, Bool.not_true, decide_eq_false_iff_not]
        exact fun hxk => hk (hxk ▸ List.mem_map_of_mem hx)
      · exact perm_filter_of_cons hp hw.inv.keys_nodup

/-- The first four leaves of leaf group 1, each with one key and linked to the next. -/
def fourLeaves (env : Env) : World where
  startLeaf := groupPointer 1 0
  maxFileId := 2
  freeNum := 0
  freeList := []
  mem _ := ⟨4, fun i => if i < 4 then 1 else 0, fun i =>
    LeafImage.single env.keyHash i (Fin.ofNat _ i) (Fin.ofNat _ (10 * i))
      (if i < 3 then groupPointer 1 (i + 1) else PPointer.zero)⟩
  disk := Storage.empty
  trace := []
  nodes _ := none

section FourLeaves

variable {env : Env} {p : PPointer} {i : ℕ}

theorem fourLeaves_leafAt (hi : i < 4) : (fourLeaves env).leafAt (groupPointer 1 i) =
    LeafImage.single env.keyHash i (Fin.ofNat _ i) (Fin.ofNat _ (10 * i))
      (if i < 3 then groupPointer 1 (i + 1) else PPointer.zero) := by
  rw [World.leafAt, leafIndex_groupPointer (by simp only [LEAF_GROUP_AMOUNT]; omega)]
  rfl

theorem fourLeaves_pairs (hi : i < 4) :
    ((fourLeaves env).leafAt (groupPointer 1 i)).pairs LEAF_DEGREE =
      [⟨Fin.ofNat _ i, Fin.ofNat _ (10 * i)⟩] ∧
    ((fourLeaves env).leafAt (groupPointer 1 i)).Ok env.keyHash LEAF_DEGREE := by
  rw [fourLeaves_leafAt hi]
  exact LeafImage.single_pairs env.keyHash (by simp only [LEAF_DEGREE]; omega) _ _ _

theorem fourLeaves_allocOk (env : Env) : AllocOk (fourLeaves env) where
  one_le := one_le_two
  freeNum_eq := rfl
  free p hp := absurd hp List.not_mem_nil
  nodup := List.nodup_nil
  byte p _ := by
    show (if leafIndex p < 4 then (1 : Byte) else 0) = 0 ∨
      (if leafIndex p < 4 then (1 : Byte) else 0) = 1
    split_ifs <;> simp

theorem fourLeaves_used :
    (fourLeaves env).ifLeafUsed p = true ↔ p ∈ (List.range 4).map (groupPointer 1) := by
  have hbyte : (fourLeaves env).headerByte p = if leafIndex p < 4 then 1 else 0 := rfl
  rw [ifLeafUsed_iff, ifLeafExist_iff, hbyte]
  constructor
  · rintro ⟨⟨h1, h2, ha⟩, hb⟩
    have hlt : leafIndex p < 4 := by
      by_contra hge
      exact hb (if_neg hge)
    have hf : p.fileId = 1 := by
      have : (fourLeaves env).maxFileId = 2 := rfl
      omega
    refine List.mem_map.mpr ⟨leafIndex p, List.mem_range.mpr hlt, ?_⟩
    rw [← hf]
    exact ha.eq_groupPointer.symm
  · intro hp
    obtain ⟨i, hi, rfl⟩ := List.mem_map.mp hp
    have hi' : i < LEAF_GROUP_AMOUNT := (List.mem_range.mp hi).trans (by decide)
    rw [leafIndex_groupPointer hi', if_pos (List.mem_range.mp hi)]
    exact ⟨⟨le_rfl, Nat.one_lt_two, aligned_groupPointer hi'⟩, by decide⟩

theorem fourLeaves_linked (env : Env) : Linked id (fun p => ((fourLeaves env).leafAt p).pNext)
    ((List.range 4).map (groupPointer 1)) PPointer.zero := by
  have hnext : ∀ i < 4, ((fourLeaves env).leafAt (groupPointer 1 i)).pNext =
      if i < 3 then groupPointer 1 (i + 1) else PPointer.zero := by
    intro i hi
    rw [fourLeaves_leafAt hi]
    rfl
  exact ⟨hnext 0 (by decide), hnext 1 (by decide), hnext 2 (by decide),
    hnext 3 (by decide), trivial⟩

theorem fourLeaves_ascending (env : Env) :
    Ascending env (fourLeaves env) ((List.range 4).map (groupPointer 1)) where
  ne_nil p hp := by
    obtain ⟨i, hi, rfl⟩ := List.mem_map.mp hp
    rw [← List.length_pos_iff, ← LeafImage.length_pairs,
      (fourLeaves_pairs (List.mem_range.mp hi)).1]
    exact Nat.one_pos
  ok p hp := by
    obtain ⟨i, hi, rfl⟩ := List.mem_map.mp hp
    exact (fourLeaves_pairs (List.mem_range.mp hi)).2
  sorted := by
    have hlt : ∀ i < 3, ∀ a ∈ ((fourLeaves env).leafAt (groupPointer 1 i)).keys LEAF_DEGREE,
        ∀ b ∈ ((fourLeaves env).leafAt (groupPointer 1 (i + 1))).keys LEAF_DEGREE, a < b := by
      intro i hi a ha b hb
      rw [LeafImage.keys, (fourLeaves_pairs (by omega)).1] at ha hb
      obtain rfl := List.mem_singleton.mp ha
      obtain rfl := List.mem_singleton.mp hb
      interval_cases i <;> exact Fin.lt_def.mpr (by decide)
    simp only [List.range, List.range.loop, List.map_cons, List.map_nil, List.isChain_cons_cons,
      List.isChain_singleton, and_true]
    exact ⟨hlt 0 (by decide), hlt 1 (by decide), hlt 2 (by decide)⟩

/-- The tree that is loaded from these leaves. -/
theorem fourLeaves_construct (env : Env) :
    ∃ t s, FPTree.construct env 5 1 (fourLeaves env) = some (t, s) ∧
    (inner t.root).leaves = (List.range 4).map (groupPointer 1) ∧
    WellFormed env 1 LEAF_MAX t s := by
  have hnd : ((List.range 4).map (groupPointer 1)).Nodup := by decide
  have hc : Chained (fourLeaves env) ((List.range 4).map (groupPointer 1)) :=
    ⟨hnd, fun p hp => fourLeaves_used.mpr hp, PPointer.zero, not_used_zero _, rfl,
      fourLeaves_linked env⟩
  obtain ⟨t, s, hres, hl, -, hleaves, htree⟩ :=
    (fourLeaves_ascending env).construct hc le_rfl 5 (by decide)
  refine ⟨t, s, hres, hleaves, Inv.wellFormed ⟨htree.lower fun p hp => ?_, ?_⟩⟩
  · obtain ⟨i, hi, rfl⟩ := List.mem_map.mp (hleaves ▸ hp)
    rw [hl.leafAt, ← LeafImage.length_pairs, (fourLeaves_pairs (List.mem_range.mp hi)).1]
    exact Nat.one_le_of_lt (show 0 < LEAF_MAX by decide)
  · rw [hleaves]
    exact hl.storeInv (fourLeaves_allocOk env) (fun p => fourLeaves_used) hnd rfl
      (fourLeaves_linked env) fun _ => rfl

end FourLeaves

/-- Two inner nodes below the root: the removal frees the leaf of its key, and the root is
    merged with its children. -/
theorem remove_correct_four :
    ∃ t s, FPTree.construct Env.flat 5 1 (fourLeaves Env.flat) = some (t, s) ∧
    (inner t.root).leaves.length = 4 ∧
    ∃ r, t.remove Env.flat Sys.ok 1 s = .ok r ∧ r.ifRemove = true ∧
      WellFormed Env.flat 1 LEAF_MAX r.tree r.world ∧
      FPTree.rebalances (t.remove Env.flat Sys.ok 1 s) = [.mergeParentRight] := by
  obtain ⟨t, s, hres, hleaves, hw⟩ := fourLeaves_construct Env.flat
  have hlog : FPTree.rebalances (t.remove Env.flat Sys.ok 1 s) = [.mergeParentRight] := by
    have hall : (FPTree.construct Env.flat 5 1 (fourLeaves Env.flat)).map (fun db =>
        FPTree.rebalances (db.1.remove Env.flat Sys.ok 1 db.2)) = some [.mergeParentRight] := by
      decide +kernel
    rw [hres] at hall
    exact Option.some.inj hall
  have hkey : 1 ∈ (stored t s).map KeyValue.k := by
    have hall : (FPTree.construct Env.flat 5 1 (fourLeaves Env.flat)).map (fun db =>
        (stored db.1 db.2).map KeyValue.k) = some [0, 1, 2, 3] := by
      decide +kernel
    rw [hres] at hall
    rw [show (stored t s).map KeyValue.k = [0, 1, 2, 3] from Option.some.inj hall]
    decide
  obtain ⟨r, hok, hrm, -, hr⟩ :=
    remove_correct Env.flat Sys.ok 1 le_rfl t s 1 hw (by rw [hlog]; decide)
  exact ⟨t, s, hres, by rw [hleaves]; rfl, r, hok, hrm.mpr hkey, hr, hlog⟩

end FPTreeDB
