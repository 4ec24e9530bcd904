import FPTreeDB.Tree.Sessions

/-!
# Closing and reopening a store

A clean stop runs `FPTree::~FPTree` and `PAllocator::~PAllocator`; the next start runs
the two constructors on the files left behind. The run of a store is a sequence of calls
and of such reopenings, each with a tree of a degree of its own.

* `Reopened`: everything that a reopening does to a store.
* `DbInv`: the invariant of every run, with the map that the store stands for.
* `WriteInv`: what holds in addition when no key is ever removed.
-/

namespace FPTreeDB

open PAllocator Runs Node

/-- A call, or a clean stop and a start with a tree of degree `d`, for which the loop of
    `bulkLoading` has `fuel` turns. -/
inductive DbAct where
  | call (op : DbOp)
  | reopen (fuel : ℕ) (d : ℕ+)

namespace DbAct

def step (env : Env) : DbAct → Db → Option Db
  | call op, db => op.step env Sys.ok db
  | reopen fuel d, (t, s) => FPTree.construct env fuel d (restart env (t.destruct s))

/-- A reopening leaves the map as it is. -/
def apply : DbAct → (Key → Option Value) → Key → Option Value
  | call op, m => op.apply m
  | reopen _ _, m => m

def Pre : DbAct → (Key → Option Value) → Prop
  | call op, m => op.Pre m
  | reopen _ _, _ => True

/-- Inserts of fresh keys, updates and reopenings. -/
def WritePre : DbAct → (Key → Option Value) → Prop
  | call op, m => FPTreeDB.WritePre op m
  | reopen _ _, _ => True

theorem WritePre.pre {act : DbAct} {m : Key → Option Value} (h : act.WritePre m) : act.Pre m := by
  cases act with
  | call op => exact h.2
  | reopen fuel d => trivial

end DbAct

/-! ## One reopening -/

/-- The store `(t', s')` after the store `(t, s)`, whose `free_list` starts with `n` null
    pointers, was closed and opened with degree `d`. -/
structure Reopened (env : Env) (d n : ℕ) (t : FPTree) (s : World) (t' : FPTree) (s' : World) :
    Prop where
  inv : Inv env d t' s'
  leaves : (inner t'.root).leaves = (inner t.root).leaves
  leafAt : ∀ p, s'.leafAt p = s.leafAt p
  synced : Synced s'
  freeFile : FreeFile s' n
  catalog : s'.disk.catalog = some ⟨s'.maxFileId, s'.freeNum, s'.startLeaf⟩
  allocInv : n = 0 → AllocInv s → AllocInv s'

section Reopen

variable {env : Env} {d d' n fuel : ℕ} {t t' : FPTree} {s s' : World}

theorem Synced.destruct (h : Synced s) (t : FPTree) : Synced (t.destruct s) :=
  t.destruct_keeps (fun hs => hs.persistLeaf) h

theorem FreeFile.destruct (h : FreeFile s n) (t : FPTree) : FreeFile (t.destruct s) n :=
  FPTree.destruct_keeps (I := fun s => FreeFile s n) (fun hf => hf.congr rfl rfl rfl) t h

theorem Inv.reset (hinv : Inv env d t s) (hs : Synced s) (hf : FreeFile s n) :
    Reset s (restart env (t.destruct s)) := by
  have hdel := t.destroyed s
  have hok := hdel.heads.allocOk hinv.store.alloc
  have hr := @restart_fields env _ _ (hs.destruct t) (hf.destruct t) hok.freeNum_eq
  refine ⟨restart_allocOk (hs.destruct t) (hf.destruct t) hok, fun p => ?_, ?_,
    fun p => ?_, fun p => ?_⟩
  · rw [hr]
    exact hdel.heads.used
  · rw [hr]
    exact hdel.startLeaf
  · rw [hr]
    exact hdel.leafAt p
  · rw [hr]

theorem Inv.ascending (hinv : Inv env d t s) : Ascending env s (inner t.root).leaves := by
  rcases hinv.tree with hempty | ⟨_, hr⟩
  · rw [hempty.leaves_eq]
    exact ⟨by simp, by simp, List.IsChain.nil⟩
  · exact hr.ascending

theorem Inv.length_le (hinv : Inv env d t s) {p : PPointer} (hp : p ∈ (inner t.root).leaves) :
    ((s.leafAt p).slots LEAF_DEGREE).length ≤ LEAF_MAX := by
  rcases hinv.tree with hempty | ⟨_, hr⟩
  · rw [hempty.leaves_eq] at hp
    cases hp
  · obtain ⟨a, b, hP⟩ := RootRanged.leaf_pred hr hp
    exact hP.1.le_cap

/-- A reopening returns when the loop has a turn for each leaf and one more. -/
theorem Inv.reopen_some (hd : 1 ≤ d') (hinv : Inv env d t s) (hs : Synced s) (hf : FreeFile s n)
    (hfuel : (inner t.root).leaves.length < fuel) :
    ∃ t' s', FPTree.construct env fuel d' (restart env (t.destruct s)) = some (t', s') := by
  have hreset := hinv.reset hs hf
  have ha := hinv.ascending.congr fun p _ => hreset.leafAt p
  obtain ⟨t', s', hres, -⟩ := ha.construct (hreset.chained hinv.store) hd fuel hfuel
  exact ⟨t', s', hres⟩

/-- A reopening that returns. -/
theorem Inv.reopen (hd : 1 ≤ d') (hinv : Inv env d t s) (hs : Synced s) (hf : FreeFile s n)
    (hres : FPTree.construct env fuel d' (restart env (t.destruct s)) = some (t', s')) :
    Reopened env d' n t s t' s' := by
  have hreset := hinv.reset hs hf
  have hch := hreset.chained hinv.store
  have ha := hinv.ascending.congr fun p _ => hreset.leafAt p
  obtain ⟨t1, s1, h1, hl, -, hleaves, htree⟩ := ha.construct hch hd
    (max fuel ((inner t.root).leaves.length + 1)) (by omega)
  -- the same loop, with turns to spare
  have hres' := bulkLoop_mono (le_max_left fuel ((inner t.root).leaves.length + 1)) hres
  obtain ⟨rfl, rfl⟩ := Prod.mk.inj (Option.some.inj (hres'.symm.trans h1))
  have hleafAt : ∀ p, s'.leafAt p = s.leafAt p := fun p => hl.leafAt.trans (hreset.leafAt p)
  have hok := (t.destroyed s).heads.allocOk hinv.store.alloc
  have hmem : s'.mem = (restart env (t.destruct s)).mem := by rw [hl.rest]
  have hdisk : s'.disk = (restart env (t.destruct s)).disk := by rw [hl.rest]
  have hlist : s'.freeList = (restart env (t.destruct s)).freeList := by rw [hl.rest]
  refine ⟨⟨htree.lower fun p hp => ?_, ?_⟩, hleaves, hleafAt, ?_, ?_, ?_, ?_⟩
  · rw [hleafAt]
    exact hinv.length_le (hleaves ▸ hp)
  · rw [hleaves]
    exact hreset.storeInv hinv.store hl
  · exact (restart_synced (hs.destruct t) (hf.destruct t) hok.freeNum_eq).of_eq hmem (by rw [hdisk])
  · exact (restart_freeFile (hs.destruct t) (hf.destruct t) hok.freeNum_eq).congr (by rw [hdisk])
      (by rw [hdisk]) hlist
  · rw [hl.rest, restart_fields (hs.destruct t) (hf.destruct t) hok.freeNum_eq]
  · rintro rfl hi
    have hi1 := hi.congr (t.destroyed s).heads
    refine (@restart_allocInv env _ (hs.destruct t) (hf.destruct t) hi1).congr ?_
    rw [hl.rest]
    exact ⟨rfl, rfl, rfl, fun _ => rfl, fun _ => rfl⟩

theorem Reopened.stored (h : Reopened env d n t s t' s') : stored t' s' = stored t s := by
  rw [FPTreeDB.stored, FPTreeDB.stored, h.leaves]
  exact List.flatMap_congr fun p _ => by rw [h.leafAt]

end Reopen

/-! ## Runs -/

/-- The store stands for the map `m`, and its files are those of the state. -/
structure DbInv (env : Env) (db : Db) (m : Key → Option Value) : Prop where
  inv : ∃ d, 1 ≤ d ∧ Inv env d db.1 db.2
  represents : Represents (stored db.1 db.2) m
  disk : DiskInv db.2

section Run

variable {env : Env} {d : ℕ} {t t' : FPTree} {s s' : World} {db db' : Db}
  {m : Key → Option Value} {k : Key} {v : Value}

/-- An update of a store without leaves goes through a slot that no object is behind. -/
theorem Node.EmptyRoot.update_eq_none (hr : EmptyRoot d t.root)
    (hst : StoreInv s (inner t.root).leaves) :
    t.update env k v s = none := by
  rw [hr.leaves_eq] at hst
  rw [FPTree.update, Node.update_eq, Option.bind_eq_none_iff]
  intro p _
  cases hu : LeafNode.update env p k v s with
  | none => rfl
  | some x => exact absurd (hst.leafUpdate hu).1 (by simp)

theorem DbInv.insert (h : DbInv env (t, s) m) (hk : m k = none)
    (hi : t.insert env Sys.ok k v s = some (t', s')) :
    ∃ d, 1 ≤ d ∧ StoreInserted env d t s k v t' s' := by
  obtain ⟨d, hd, hinv⟩ := h.inv
  exact ⟨d, hd, hinv.insert hd (h.represents.not_mem_keys.mpr hk) hi⟩

/-- An update that returns changes the map, or finds no pair and leaves the store. -/
theorem DbInv.update {b : Bool} (h : DbInv env (t, s) m) (hu : t.update env k v s = some (b, s')) :
    (m k = none ∧ s' = s) ∨ ((m k).isSome = true ∧ ∃ d, 1 ≤ d ∧ StoreUpdated env d t s k v s') := by
  obtain ⟨d, hd, hinv⟩ := h.inv
  rcases hinv.tree with hempty | ⟨_, hr⟩
  · rw [hempty.update_eq_none hinv.store] at hu
    cases hu
  · rcases @Inv.update env d _ t s k v hinv hr with ⟨hk, hu'⟩ | ⟨hk, s1, hu', hs⟩
    · rw [h.represents.not_mem_keys] at hk
      rw [hu] at hu'
      exact Or.inl ⟨hk, (Prod.mk.inj (Option.some.inj hu')).2⟩
    · rw [h.represents.mem_keys] at hk
      rw [hu] at hu'
      obtain ⟨-, rfl⟩ := Prod.mk.inj (Option.some.inj hu')
      exact Or.inr ⟨hk, d, hd, hs⟩

theorem DbInv.updated (h : DbInv env (t, s) m) (hd : 1 ≤ d)
    (hs : StoreUpdated env d t s k v s') : DbInv env (t, s') (Function.update m k (some v)) := by
  obtain ⟨_, -, hinv⟩ := h.inv
  obtain ⟨old, rest, h1, h2⟩ := hs.pairs
  exact ⟨⟨d, hd, Or.inr hs.tree, hs.store⟩, h.represents.replace h1 h2 hinv.keys_nodup,
    hs.disk h.disk⟩

theorem DbInv.remove {r : FPTree.Removed} (h : DbInv env (t, s) m)
    (hr : t.remove env Sys.ok k s = .ok r) :
    DbInv env (r.tree, r.world) (Function.update m k none) := by
  obtain ⟨d, hd, hinv⟩ := h.inv
  rcases hinv.remove hd Sys.ok k with ⟨log, herr, -⟩ | ⟨r', hok, hrm⟩
  · rw [hr] at herr
    cases herr
  · rw [hr] at hok
    obtain rfl := Except.ok.inj hok
    refine ⟨⟨d, hd, hrm.inv⟩, ?_, hrm.disk rfl h.disk⟩
    rcases hrm.outcome with ⟨-, hk, -, heq⟩ | ⟨-, old, hp⟩
    · rw [h.represents.not_mem_keys] at hk
      rw [heq, Function.update_eq_self_iff.mpr hk.symm]
      exact h.represents
    · exact h.represents.erase hp hinv.keys_nodup

/-- Every call and every reopening that returns. -/
theorem DbInv.step (act : DbAct) (h : DbInv env db m) (hpre : act.Pre m)
    (hs : act.step env db = some db') :
    DbInv env db' (act.apply m) := by
  obtain ⟨t, s⟩ := db
  obtain ⟨t', s'⟩ := db'
  cases act with
  | reopen fuel d' =>
    obtain ⟨d, -, hinv⟩ := h.inv
    obtain ⟨n, hf⟩ := h.disk.freeFile
    have hr := hinv.reopen d'.pos h.disk.synced hf hs
    refine ⟨⟨d', d'.pos, hr.inv⟩, ?_, hr.synced, n, hr.freeFile⟩
    show Represents (stored t' s') m
    rw [hr.stored]
    exact h.represents
  | call op =>
    cases op with
    | insert k v =>
      obtain ⟨d, hd, hi⟩ := h.insert hpre hs
      exact ⟨⟨d, hd, hi.inv⟩, h.represents.cons hi.pairs hpre, hi.disk h.disk⟩
    | update k v =>
      obtain ⟨⟨b, s1⟩, hu, heq⟩ := Option.map_eq_some_iff.mp hs
      obtain ⟨rfl, rfl⟩ := Prod.mk.inj heq
      show DbInv env (t, s1) (if (m k).isSome then Function.update m k (some v) else m)
      rcases h.update hu with ⟨hk, rfl⟩ | ⟨hk, d, hd, hsu⟩
      · simpa [hk] using h
      · rw [if_pos hk]
        exact h.updated hd hsu
    | remove k =>
      change DbOp.step env Sys.ok (.remove k) (t, s) = some (t', s') at hs
      rw [DbOp.step] at hs
      cases hr : t.remove env Sys.ok k s with
      | error log => rw [hr] at hs; cases hs
      | ok r =>
        rw [hr] at hs
        obtain ⟨rfl, rfl⟩ := Prod.mk.inj (Option.some.inj hs)
        exact h.remove hr

theorem emptyDb_dbInv (env : Env) (hd : 1 ≤ d) : DbInv env (emptyDb env d) fun _ => none := by
  refine ⟨⟨d, hd, emptyDb_inv env d⟩, fun k v => ?_, rfl, 0, construct_empty_freeFile env⟩
  show _ ∈ ([] : List KeyValue) ↔ _
  simp

theorem acts_dbInv (env : Env) (hd : 1 ≤ d) (acts : List DbAct)
    (hacts : Allowed DbAct.Pre DbAct.apply acts fun _ => none)
    (hrun : run (DbAct.step env) acts (emptyDb env d) = some db) :
    DbInv env db (runSpec DbAct.apply acts fun _ => none) :=
  run_simulates_of_some (fun act _ _ _ h hpre hs => h.step act hpre hs) acts
    (emptyDb_dbInv env hd) hacts hrun

end Run

/-! ## Runs without removals -/

/-- The store stands for the map `m` and no key of it was ever removed: no free leaf is
    lost by a restart, and the leaves are at least half full when there are two. -/
structure WriteInv (env : Env) (db : Db) (m : Key → Option Value) :
    Prop extends DbInv env db m where
  alloc : AllocInv db.2
  file : FreeFile db.2 0
  halfFull : HalfFull db.2 (inner db.1.root).leaves

section Write

variable {env : Env} {d : ℕ} {s s' : World} {p : PPointer} {db db' : Db} {m : Key → Option Value}

/-- `getLeaf` makes a new group only when the free list is empty. -/
theorem getLeaf_freeFile_zero (hf : FreeFile s 0) (hn : s.freeNum = s.freeList.length)
    (hg : getLeaf Sys.ok s = (some p, s')) : FreeFile s' 0 ∧ s'.freeNum = s'.freeList.length := by
  -- a leaf taken from a list without null pointers before it
  have htake : ∀ {s1 : World}, FreeFile s1 0 → s1.freeNum = s1.freeList.length →
      takeLeaf s1 = (some p, s') → FreeFile s' 0 ∧ s'.freeNum = s'.freeList.length := by
    intro s1 hf1 hn1 ht
    have hspec := takeLeaf_spec ht
    refine ⟨takeLeaf_freeFile ht hf1, ?_⟩
    rw [hspec.freeNum, hn1, hspec.freeList, List.length_append, List.length_singleton,
      Nat.add_sub_cancel]
  unfold getLeaf at hg
  split_ifs at hg with h0
  · obtain ⟨s1, h1, hG⟩ := newLeafGroup_spec s
    rw [h1] at hg
    refine htake (h0 ▸ newLeafGroup_freeFile h1 hf.catalog hn) ?_ hg
    rw [hG.freeNum, hG.freeList, hn, List.length_append]
    simp [groupPointers]
  · exact htake hf hn hg

theorem freeFile_keeps :
    LeafKeeps Sys.ok fun s => FreeFile s 0 ∧ s.freeNum = s.freeList.length where
  create h hc := by
    obtain ⟨s1, hg, rfl⟩ := create_spec hc
    obtain ⟨hf, hn⟩ := getLeaf_freeFile_zero h.1 h.2 hg
    exact ⟨hf.congr rfl rfl rfl, hn⟩
  store h := ⟨h.1.congr rfl rfl rfl, h.2⟩
  node h := ⟨h.1.congr rfl rfl rfl, h.2⟩

/-- Every insert of a fresh key, every update and every reopening that returns. -/
theorem WriteInv.step (act : DbAct) (h : WriteInv env db m) (hpre : act.WritePre m)
    (hs : act.step env db = some db') : WriteInv env db' (act.apply m) := by
  have hdb := h.toDbInv.step act hpre.pre hs
  obtain ⟨t, s⟩ := db
  obtain ⟨t', s'⟩ := db'
  cases act with
  | reopen fuel d' =>
    obtain ⟨d, -, hinv⟩ := h.inv
    have hr := hinv.reopen d'.pos h.disk.synced h.file hs
    refine ⟨hdb, hr.allocInv rfl h.alloc, hr.freeFile, ?_⟩
    show HalfFull s' (inner t'.root).leaves
    rw [hr.leaves]
    rcases h.halfFull with hone | hhalf
    · exact Or.inl hone
    · exact Or.inr fun p hp => by rw [hr.leafAt]; exact hhalf p hp
  | call op =>
    cases op with
    | insert k v =>
      obtain ⟨d, hd, hi⟩ := h.toDbInv.insert hpre.2 hs
      have hf := freeFile_keeps.tree_insert ⟨h.file, h.alloc.freeNum_eq⟩ hs
      exact ⟨hdb, hi.allocInv h.alloc, hf.1, hi.halfFull h.halfFull⟩
    | update k v =>
      obtain ⟨⟨b, s1⟩, hu, heq⟩ := Option.map_eq_some_iff.mp hs
      obtain ⟨rfl, rfl⟩ := Prod.mk.inj heq
      have hf := freeFile_keeps.tree_update ⟨h.file, h.alloc.freeNum_eq⟩ hu
      rcases h.toDbInv.update hu with ⟨-, rfl⟩ | ⟨-, d, hd, hsu⟩
      · exact ⟨hdb, h.alloc, h.file, h.halfFull⟩
      · exact ⟨hdb, hsu.allocInv h.alloc, hf.1, hsu.halfFull h.halfFull⟩
    | remove k => exact absurd hpre.1 (by simp [DbOp.isWrite])

theorem emptyDb_writeInv (env : Env) (hd : 1 ≤ d) : WriteInv env (emptyDb env d) fun _ => none :=
  ⟨emptyDb_dbInv env hd, construct_empty_allocInv env, construct_empty_freeFile env,
    Or.inl (Nat.zero_le 1)⟩

theorem acts_writeInv (env : Env) (hd : 1 ≤ d) (acts : List DbAct)
    (hacts : Allowed DbAct.WritePre DbAct.apply acts fun _ => none)
    (hrun : run (DbAct.step env) acts (emptyDb env d) = some db) :
    WriteInv env db (runSpec DbAct.apply acts fun _ => none) :=
  run_simulates_of_some (fun act _ _ _ h hpre hs => h.step act hpre hs) acts
    (emptyDb_writeInv env hd) hacts hrun

/-- An insertion of a fresh key returns. -/
theorem WriteInv.insert_fresh {t : FPTree} {m : Key → Option Value} {k : Key}
    (h : WriteInv env (t, s) m) (hk : m k = none) (v : Value) :
    ∃ db, t.insert env Sys.ok k v s = some db ∧ WriteInv env db (Function.update m k (some v)) := by
  obtain ⟨d, hd, hinv⟩ := h.inv
  obtain ⟨t', s', hins⟩ := hinv.insert_some hd h.alloc (h.represents.not_mem_keys.mpr hk) v
  exact ⟨(t', s'), hins, h.step (.call (.insert k v)) ⟨rfl, hk⟩ hins⟩

/-- The number of pairs between those of the smallest and of the largest leaf. -/
theorem length_stored_bounds {a b : ℕ} {l : List PPointer}
    (h : ∀ p ∈ l, a ≤ ((s.leafAt p).slots LEAF_DEGREE).length ∧
      ((s.leafAt p).slots LEAF_DEGREE).length ≤ b) :
    l.length * a ≤ (pairsOf s l).length ∧ (pairsOf s l).length ≤ l.length * b := by
  have hlen : ∀ p, ((s.leafAt p).pairs LEAF_DEGREE).length =
      ((s.leafAt p).slots LEAF_DEGREE).length :=
    fun p => List.length_map _
  induction l with
  | nil => simp [pairsOf]
  | cons p l ih =>
    have hp := h p (by simp)
    have hl := ih fun q hq => h q (by simp [hq])
    rw [pairsOf_cons, List.length_append, hlen, List.length_cons, Nat.add_mul, Nat.add_mul]
    omega

/-- A store without removals that has too few pairs for two leaves. -/
theorem WriteInv.length_leaves_le_one {t : FPTree} {m : Key → Option Value}
    (h : WriteInv env (t, s) m) (hlen : (stored t s).length < 2 * LEAF_DEGREE) :
    (inner t.root).leaves.length ≤ 1 := by
  obtain ⟨_, -, hinv⟩ := h.inv
  rcases h.halfFull with hone | hhalf
  · exact hone
  · have hpairs : (inner t.root).leaves.length * LEAF_DEGREE ≤ (stored t s).length :=
      (length_stored_bounds fun p hp => ⟨hhalf p hp, hinv.length_le hp⟩).1
    have hlt := Nat.lt_of_mul_lt_mul_right (hpairs.trans_lt hlen)
    omega

end Write

/-- A store with a key has a child. -/
theorem Inv.nChild_ne_zero {env : Env} {d : ℕ} {t : FPTree} {s : World} (hinv : Inv env d t s)
    (hne : stored t s ≠ []) : t.root.nChild ≠ 0 := by
  rcases hinv.tree with hempty | ⟨_, hr⟩
  · refine absurd ?_ hne
    rw [stored, hempty.leaves_eq]
    rfl
  · rw [hr.filled.nChild]
    omega

/-! ## Runs of inserts -/

/-- The inserts of a list of pairs. -/
def insertActs (kvs : List (Key × Value)) : List DbAct := kvs.map fun x => .call (.insert x.1 x.2)

section Inserts

variable {env : Env} {d : ℕ} {db : Db} {m : Key → Option Value}

/-- Inserts of different keys return. -/
theorem insertActs_run (kvs : List (Key × Value)) (h : WriteInv env db m)
    (hnd : (kvs.map Prod.fst).Nodup) (hm : ∀ x ∈ kvs, m x.1 = none) :
    ∃ db', run (DbAct.step env) (insertActs kvs) db = some db' := by
  have hstep : ∀ (act : DbAct) (db : Db) (m : Key → Option Value), WriteInv env db m →
      ((∃ k v, act = .call (.insert k v)) ∧ act.WritePre m) →
      ∃ db', act.step env db = some db' ∧ WriteInv env db' (act.apply m) := by
    rintro act ⟨t, s⟩ m h ⟨⟨k, v, rfl⟩, hpre⟩
    exact h.insert_fresh hpre.2 v
  have hall : Allowed (fun act m => (∃ k v, act = .call (.insert k v)) ∧ act.WritePre m) DbAct.apply
      (insertActs kvs) m :=
    allowed_inserts (f := fun k v => DbAct.call (.insert k v))
      (fun k v _ hk => ⟨⟨k, v, rfl⟩, rfl, hk⟩) (fun _ _ _ => rfl) kvs m hnd hm
  obtain ⟨db', hrun, -⟩ := run_simulates hstep _ h hall
  exact ⟨db', hrun⟩

/-- The keys of the inserts are stored. -/
theorem insertActs_apply : ∀ (kvs : List (Key × Value)) (m : Key → Option Value) (k : Key),
    runSpec DbAct.apply (insertActs kvs) m k ≠ none ↔ k ∈ kvs.map Prod.fst ∨ m k ≠ none := by
  intro kvs
  induction kvs with
  | nil => exact fun m k => ⟨Or.inr, fun h => h.resolve_left List.not_mem_nil⟩
  | cons x kvs ih =>
    intro m k
    refine (ih (Function.update m x.1 (some x.2)) k).trans ?_
    rw [List.map_cons, List.mem_cons]
    by_cases hk : k = x.1
    · rw [hk, Function.update_self]
      simp
    · rw [Function.update_of_ne hk]
      simp [hk]

theorem Represents.length_eq {ps : List KeyValue} {ks : List Key} (h : Represents ps m)
    (hps : (ps.map KeyValue.k).Nodup) (hnd : ks.Nodup) (hks : ∀ k, m k ≠ none ↔ k ∈ ks) :
    ps.length = ks.length := by
  have hperm : (ps.map KeyValue.k).Perm ks := by
    rw [List.perm_ext_iff_of_nodup hps hnd]
    intro k
    rw [← hks k, ne_eq, ← h.not_mem_keys, not_not]
  rw [← hperm.length_eq, List.length_map]

/-- The store after inserts of different keys into an empty data directory. -/
theorem insertActs_store (env : Env) (hd : 1 ≤ d) (kvs : List (Key × Value))
    (hnd : (kvs.map Prod.fst).Nodup) :
    ∃ t s, run (DbAct.step env) (insertActs kvs) (emptyDb env d) = some (t, s) ∧
      Allowed DbAct.WritePre DbAct.apply (insertActs kvs) (fun _ => none) ∧
      (stored t s).length = kvs.length := by
  obtain ⟨⟨t, s⟩, hrun⟩ := insertActs_run kvs (emptyDb_writeInv env hd) hnd fun _ _ => rfl
  have hall : Allowed DbAct.WritePre DbAct.apply (insertActs kvs) fun _ => none :=
    allowed_inserts (f := fun k v => DbAct.call (.insert k v)) (fun _ _ _ hk => ⟨rfl, hk⟩)
      (fun _ _ _ => rfl) kvs _ hnd fun _ _ => rfl
  have hw := acts_writeInv env hd _ hall hrun
  obtain ⟨_, -, hinv⟩ := hw.inv
  refine ⟨t, s, hrun, hall, ?_⟩
  have hlen := hw.represents.length_eq hinv.keys_nodup hnd fun k => by simp [insertActs_apply]
  rwa [List.length_map] at hlen

/-- The first keys, each with itself as its value. -/
def keysBelow (n : ℕ) : List (Key × Value) :=
  (List.range n).map fun i => (Fin.ofNat _ i, Fin.ofNat _ i)

@[simp] theorem length_keysBelow (n : ℕ) : (keysBelow n).length = n := by simp [keysBelow]

theorem keysBelow_nodup {n : ℕ} (hn : n ≤ 2 ^ 64) : ((keysBelow n).map Prod.fst).Nodup := by
  rw [keysBelow, List.map_map]
  refine List.Nodup.map_on (fun i hi j hj h => ?_) List.nodup_range
  have hval : i % 2 ^ 64 = j % 2 ^ 64 := congrArg Fin.val h
  have hi' := List.mem_range.mp hi
  have hj' := List.mem_range.mp hj
  omega

theorem mem_keysBelow {n : ℕ} {k : Key} (hk : k ∈ (keysBelow n).map Prod.fst) : k.val < n := by
  rw [keysBelow, List.map_map] at hk
  obtain ⟨i, hi, rfl⟩ := List.mem_map.mp hk
  exact (Nat.mod_le i _).trans_lt (List.mem_range.mp hi)

end Inserts

end FPTreeDB
