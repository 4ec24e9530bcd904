import FPTreeDB.Tree.Reopen

/-!
# Recovery from the files

When the process stops without running the destructors, the next start reads the catalog,
`free_list` and the leaf-group files as they are on storage. `Recovers env D f` says that
this gives, for every degree, a tree on which `find` answers as `f` does.

* `Recoverable`: the files hold a chain of leaves in key order that the catalog names.
* `Recoverable.recovers`: the tree that `bulkLoading` makes of such files.
* `stop_recovers`: a stop between two calls loses nothing, provided that the catalog names
  the first leaf and counts the leaf groups in use. Only `freeLeaf` and the destructor
  write the catalog, so `insert` alone does not keep this (`stop_loses`).
-/

namespace FPTreeDB

open PAllocator Runs Node Links

/-- A start on the storage `D`, with a tree of any degree, gives a tree on which `find`
    answers as `f` does. -/
def Recovers (env : Env) (D : Storage) (f : Key → Option Value) : Prop :=
  ∀ d : ℕ+, ∃ fuel t s, FPTree.construct env fuel d (PAllocator.construct env Sys.ok D) =
    some (t, s) ∧
    ∀ k, t.find env k s = f k

/-- What `find` returns on a store that stands for the map `m`. -/
def answers (m : Key → Option Value) (k : Key) : Option Value := some ((m k).getD MAX_VALUE)

/-- The catalog on storage names the first leaf and counts the groups of all leaves in
    use. -/
def CatalogCovers (s : World) : Prop :=
  ∃ c, s.disk.catalog = some c ∧ c.startLeaf = s.startLeaf ∧
    ∀ p, s.ifLeafUsed p = true → p.fileId < c.maxFileId

/-- The catalog on storage holds the current `maxFileId` and `startLeaf`. -/
def CatalogCurrent (s : World) : Prop :=
  ∃ c, s.disk.catalog = some c ∧ c.maxFileId = s.maxFileId ∧ c.startLeaf = s.startLeaf

/-! ## The files -/

/-- The files of `x` hold the leaves of `chain`, in key order and linked, and the catalog
    leads to the first of them. -/
structure Recoverable (env : Env) (x : World) (chain : List PPointer) : Prop where
  synced : Synced x
  catalog : ∃ c, x.disk.catalog = some c ∧ c.startLeaf = entry id chain PPointer.zero ∧
    ∀ p ∈ chain, p.fileId < c.maxFileId
  freeList : x.disk.freeList.isSome = true
  nodup : chain.Nodup
  used : ∀ p ∈ chain, x.ifLeafUsed p = true
  pNext : Linked id (fun p => (x.leafAt p).pNext) chain PPointer.zero
  ascending : Ascending env x chain

section Files

variable {env : Env} {d fuel : ℕ} {x x' s : World} {chain : List PPointer}
  {m : Key → Option Value} {t : FPTree}

/-- Of the files only the catalog and the leaves of the chain matter. -/
theorem Recoverable.congr (h : Recoverable env x chain) (hs : Synced x')
    (hc : x'.disk.catalog = x.disk.catalog) (hf : x'.disk.freeList = x.disk.freeList)
    (hused : ∀ p ∈ chain, x'.ifLeafUsed p = true) (hleaf : ∀ p ∈ chain, x'.leafAt p = x.leafAt p) :
    Recoverable env x' chain :=
  ⟨hs, by rw [hc]; exact h.catalog, by rw [hf]; exact h.freeList, h.nodup, hused,
    h.pNext.congr fun p hp => by rw [hleaf p hp], h.ascending.congr hleaf⟩

/-- The allocator that is constructed on the files. -/
theorem construct_of_files {c : Catalog} (hs : Synced x) (hc : x.disk.catalog = some c)
    (hf : x.disk.freeList.isSome = true) :
    (PAllocator.construct env Sys.ok x.disk).startLeaf = c.startLeaf ∧
    (PAllocator.construct env Sys.ok x.disk).maxFileId = c.maxFileId ∧
    (PAllocator.construct env Sys.ok x.disk).mem = x.mem := by
  obtain ⟨file, hfile⟩ := Option.isSome_iff_exists.mp hf
  unfold PAllocator.construct
  rw [hc, hfile]
  exact ⟨rfl, rfl, hs⟩

/-- A leaf in use is one after a start whose catalog counts its group. -/
theorem ifLeafUsed_of_lt {p : PPointer} (hm : x'.mem = x.mem) (hp : x.ifLeafUsed p = true)
    (hlt : p.fileId < x'.maxFileId) : x'.ifLeafUsed p = true := by
  have hbyte : x'.headerByte p = x.headerByte p := by rw [World.headerByte, World.headerByte, hm]
  have hexist : x'.ifLeafExist p = true := by
    have hx := (Bool.and_eq_true_iff.mp hp).1
    unfold World.ifLeafExist at hx ⊢
    split_ifs at hx ⊢ with h1 h2
    · omega
    · rfl
  have hx := hp
  rw [World.ifLeafUsed, World.ifLeafFree, (Bool.and_eq_true_iff.mp hp).1] at hx
  rw [World.ifLeafUsed, World.ifLeafFree, hexist, hbyte]
  exact hx

theorem Recoverable.chained (h : Recoverable env x chain) :
    Chained (PAllocator.construct env Sys.ok x.disk) chain := by
  obtain ⟨c, hc, hstart, hlt⟩ := h.catalog
  obtain ⟨h1, h2, h3⟩ := @construct_of_files env x c h.synced hc h.freeList
  refine ⟨h.nodup, fun p hp => ?_, PPointer.zero, not_used_zero _, h1.trans hstart, ?_⟩
  · exact ifLeafUsed_of_lt h3 (h.used p hp) (h2 ▸ hlt p hp)
  · exact h.pNext.congr fun p _ => by rw [World.leafAt, World.leafAt, h3]

/-- The tree that `bulkLoading` makes of the files. -/
theorem Recoverable.recovers (h : Recoverable env x chain) (hne : chain ≠ [])
    (hm : Represents (pairsOf x chain) m) : Recovers env x.disk (answers m) := by
  intro d
  obtain ⟨c, hc, -⟩ := h.catalog
  obtain ⟨-, -, hmem⟩ := @construct_of_files env x c h.synced hc h.freeList
  have hleaf : ∀ p, (PAllocator.construct env Sys.ok x.disk).leafAt p = x.leafAt p := fun p => by
    rw [World.leafAt, World.leafAt, hmem]
  obtain ⟨t, s, hres, hl, hT⟩ := (h.ascending.congr fun p _ => hleaf p).construct h.chained d.pos
    (chain.length + 1) (Nat.lt_succ_self _)
  refine ⟨chain.length + 1, t, s, hres, hT.find hl hne ?_⟩
  have hpairs : pairsOf (PAllocator.construct env Sys.ok x.disk) chain = pairsOf x chain :=
    List.flatMap_congr fun p _ => by rw [hleaf]
  rw [hpairs]
  exact hm

/-- When the catalog leads to no leaf, the tree is empty and `find` reads a slot that was
    never written. -/
theorem find_of_unused (hs : s.ifLeafUsed s.startLeaf = false)
    (hres : FPTree.construct env fuel d s = some (t, x)) (k : Key) : t.find env k x = none := by
  unfold FPTree.construct at hres
  cases fuel with
  | zero => cases hres
  | succ fuel =>
    rw [FPTree.bulkLoop, hs] at hres
    obtain ⟨rfl, rfl⟩ := Prod.mk.inj (Option.some.inj hres)
    rfl

theorem recovers_none {D : Storage}
    (hs : (PAllocator.construct env Sys.ok D).ifLeafUsed
      (PAllocator.construct env Sys.ok D).startLeaf = false) :
    Recovers env D fun _ => none := by
  intro d
  have hres : FPTree.construct env 1 d (PAllocator.construct env Sys.ok D) =
      some (⟨InnerNode.create d true, d⟩, PAllocator.construct env Sys.ok D) := by
    rw [FPTree.construct, FPTree.bulkLoop, hs]
    rfl
  exact ⟨1, _, _, hres, find_of_unused hs hres⟩

theorem not_recovers_of_unused {D : Storage} {f : Key → Option Value} {k : Key} {v : Value}
    (hs : (PAllocator.construct env Sys.ok D).ifLeafUsed
      (PAllocator.construct env Sys.ok D).startLeaf = false)
    (hf : f k = some v) : ¬ Recovers env D f := by
  intro h
  obtain ⟨fuel, t, s, hres, hfind⟩ := h 1
  have hk := hfind k
  rw [find_of_unused hs hres, hf] at hk
  cases hk

end Files

/-! ## A stop between two calls -/

section Stop

variable {env : Env} {d : ℕ} {t : FPTree} {s : World} {m : Key → Option Value}

theorem CatalogCurrent.covers (h : CatalogCurrent s) : CatalogCovers s := by
  obtain ⟨c, hc, hmax, hstart⟩ := h
  refine ⟨c, hc, hstart, fun p hp => ?_⟩
  have hexist := (Bool.and_eq_true_iff.mp hp).1
  unfold World.ifLeafExist at hexist
  split_ifs at hexist with h1
  omega

theorem StoreInv.recoverable {chain : List PPointer} (hst : StoreInv s chain) (hdisk : DiskInv s)
    (hc : CatalogCovers s) (ha : Ascending env s chain) : Recoverable env s chain := by
  obtain ⟨c, hcat, hstart, hlt⟩ := hc
  obtain ⟨n, hf⟩ := hdisk.freeFile
  obtain ⟨rest, hfile, -⟩ := hf.file
  refine ⟨hdisk.synced, ⟨c, hcat, hstart.trans hst.start, fun p hp => ?_⟩, ?_, hst.nodup,
    fun p hp => ?_,
    hst.pNext, ha⟩
  · exact hlt p ((hst.used_iff p).mpr hp)
  · rw [hfile]
    rfl
  · exact (hst.used_iff p).mpr hp

theorem DbInv.recoverable (h : DbInv env (t, s) m) (hc : CatalogCovers s) :
    Recoverable env s (inner t.root).leaves := by
  obtain ⟨_, -, hinv⟩ := h.inv
  exact hinv.store.recoverable h.disk hc hinv.ascending

/-- A lookup in a store without leaves. -/
theorem Node.EmptyRoot.find_eq_none (hr : EmptyRoot d t.root)
    (hst : StoreInv s (inner t.root).leaves) (k : Key) : t.find env k s = none := by
  rw [hr.leaves_eq] at hst
  rw [FPTree.find, Node.find_eq, Option.bind_eq_none_iff]
  intro p _
  rw [LeafNode.find, hst.node_eq_none (by simp)]
  rfl

/-- What `find` returns on a store that has a leaf. -/
theorem DbInv.find (h : DbInv env (t, s) m) (hne : (inner t.root).leaves ≠ []) :
    (fun k => t.find env k s) = answers m := by
  obtain ⟨_, -, hinv⟩ := h.inv
  rcases hinv.tree with hempty | ⟨_, hr⟩
  · exact absurd hempty.leaves_eq hne
  · funext k
    exact find_of_represents hr h.represents k

theorem DbInv.recovers_answers (h : DbInv env (t, s) m) (hc : CatalogCovers s)
    (hne : (inner t.root).leaves ≠ []) : Recovers env s.disk (answers m) :=
  (h.recoverable hc).recovers hne h.represents

theorem DbInv.recovers (h : DbInv env (t, s) m) (hc : CatalogCovers s) :
    Recovers env s.disk fun k => t.find env k s := by
  by_cases hne : (inner t.root).leaves = []
  · obtain ⟨d, -, hinv⟩ := h.inv
    obtain ⟨e, he, hstart, -⟩ := (h.recoverable hc).chained.links
    have hnone : (fun k => t.find env k s) = fun _ => none := by
      funext k
      rcases hinv.tree with hempty | ⟨h', hr⟩
      · exact hempty.find_eq_none hinv.store k
      · exact absurd hne hr.leaves_ne_nil
    rw [hnone]
    refine recovers_none ?_
    rw [hstart, hne]
    exact he
  · rw [h.find hne]
    exact h.recovers_answers hc hne

end Stop

/-- Durability. After every run of inserts of fresh keys, updates, removals and clean
    reopenings that starts with an empty store: when the process stops between two calls
    and the catalog on storage names the first leaf and counts the groups of the leaves in
    use, a start on the files gives, for every degree, a tree on which `find` returns what
    it returned before the stop. -/
theorem stop_recovers (env : Env) (d : ℕ) (hd : 1 ≤ d) (acts : List DbAct)
    (hacts : Allowed DbAct.Pre DbAct.apply acts fun _ => none) (t : FPTree) (s : World)
    (hrun : run (DbAct.step env) acts (emptyDb env d) = some (t, s)) (hcat : CatalogCovers s) :
    Recovers env s.disk fun k => t.find env k s :=
  (acts_dbInv env hd acts hacts hrun).recovers hcat

/-- A stop after an insert and a clean reopening. -/
theorem stop_recovers_one : ∃ t s, run (DbAct.step Env.flat) [.call (.insert 5 50), .reopen 2 1]
    (emptyDb Env.flat 1) = some (t, s) ∧ t.find Env.flat 5 s = some 50 ∧
    Recovers Env.flat s.disk fun k => t.find Env.flat k s := by
  have hrun : run (DbAct.step Env.flat) [.call (.insert 5 50), .reopen 2 1] (emptyDb Env.flat 1) =
      some (_, _) := rfl
  refine ⟨_, _, hrun, by decide +kernel, ?_⟩
  exact stop_recovers Env.flat 1 le_rfl [.call (.insert 5 50), .reopen 2 1]
    ⟨rfl, trivial, trivial⟩ _ _ hrun (CatalogCurrent.covers ⟨_, rfl, rfl, rfl⟩)

/-- A stop after the first insert: the catalog still says that there is no leaf. -/
theorem stop_loses : ¬ ∀ (env : Env) (d : ℕ), 1 ≤ d → ∀ (acts : List DbAct),
    Allowed DbAct.Pre DbAct.apply acts (fun _ => none) → ∀ (t : FPTree) (s : World),
    run (DbAct.step env) acts (emptyDb env d) = some (t, s) →
    Recovers env s.disk fun k => t.find env k s := by
  intro h
  have hrec := h Env.flat 1 le_rfl [.call (.insert 1 100)] ⟨rfl, trivial⟩ _ _ rfl
  refine @not_recovers_of_unused Env.flat _ _ 1 100 ?_ ?_ hrec
  · exact not_used_zero _
  · decide +kernel

end FPTreeDB
