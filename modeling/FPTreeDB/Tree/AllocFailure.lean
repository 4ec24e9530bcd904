import FPTreeDB.Allocator.Failure
import FPTreeDB.Tree.Flush

/-!
# An insertion for which there is no leaf

`LeafNode::LeafNode(FPTree*)` returns early when `getLeaf` fails and leaves the fields
of the object unset. Both callers go on with it: `InnerNode::insert` inserts into the
first leaf, `LeafNode::split` stores through the pointers of the new one.

* `getLeaf_eq_none_iff`: when `getLeaf` fails.
* `Inv.insert_sys`: an insertion is the one without failures, or undefined.
* `insert_survives_iff`: an insertion survives exactly when it gets the leaf it needs.
-/

namespace FPTreeDB

open PAllocator Runs Node

/-- There is a free leaf, or a new leaf group can be made. -/
def LeafAvailable (sys : Sys) (s : World) : Prop :=
  s.freeNum ≠ 0 ∨ (sys.mapFile = true ∧ sys.openFreeList = true)

/-- An insertion of `k` makes a leaf: the tree has none, or the one on the route has one
    free slot besides the last. -/
def NeedsLeaf (t : FPTree) (s : World) (k : Key) : Prop :=
  t.root.nChild = 0 ∨
    ∃ p, (inner t.root).route k = some p ∧ ((s.leafAt p).slots LEAF_DEGREE).length = LEAF_MAX

section Leaf

variable {env : Env} {sys : Sys} {s s' : World} {p : PPointer} {k : Key} {v : Value} {nd : LeafNode}

theorem getLeaf_of_available (h : LeafAvailable sys s) : getLeaf sys s = getLeaf Sys.ok s := by
  unfold getLeaf
  by_cases h0 : s.freeNum = 0
  · obtain ⟨hm, ho⟩ := h.resolve_left (not_not.mpr h0)
    have hnew : newLeafGroup sys s = newLeafGroup Sys.ok s := by
      unfold newLeafGroup
      rw [hm, ho]
      rfl
    rw [hnew]
  · rw [if_neg h0, if_neg h0]

theorem getLeaf_of_not_available (h : ¬ LeafAvailable sys s) : (getLeaf sys s).1 = none := by
  obtain ⟨h0, hsys⟩ := not_or.mp h
  have hfail : sys.mapFile = false ∨ sys.openFreeList = false := by
    rw [not_and_or] at hsys
    simpa using hsys
  exact (getLeaf_fails (not_not.mp h0) hfail).1

/-- The failures of `getLeaf`. -/
theorem getLeaf_eq_none_iff (ha : AllocInv s) :
    (getLeaf sys s).1 = none ↔ ¬ LeafAvailable sys s := by
  constructor
  · intro hnone h
    obtain ⟨p, s', hg, -⟩ := ha.getLeaf_ok
    rw [getLeaf_of_available h, hg] at hnone
    cases hnone
  · exact getLeaf_of_not_available

theorem create_of_available (h : LeafAvailable sys s) :
    LeafNode.create sys s = LeafNode.create Sys.ok s := by
  unfold LeafNode.create
  rw [getLeaf_of_available h]

theorem create_of_not_available (h : ¬ LeafAvailable sys s) :
    ∃ s', LeafNode.create sys s = (none, s') := by
  have hnone := getLeaf_of_not_available h
  unfold LeafNode.create
  cases hg : getLeaf sys s with
  | mk q s1 =>
    rw [hg] at hnone
    obtain rfl : q = none := hnone
    exact ⟨s1, rfl⟩

theorem split_of_available (h : LeafAvailable sys s) :
    LeafNode.split sys p s = LeafNode.split Sys.ok p s := by
  unfold LeafNode.split
  rw [create_of_available h]

/-- The stores through the unset pointers of the new leaf. -/
theorem split_of_not_available (h : ¬ LeafAvailable sys s) (hn : s.nodes p = some nd)
    (hfull : 2 * (LEAF_DEGREE : ℤ) ≤ nd.n) : LeafNode.split sys p s = none := by
  obtain ⟨s', hc⟩ := create_of_not_available h
  unfold LeafNode.split
  simp only [hn, Option.bind_eq_bind, Option.bind_some]
  rw [if_neg (by omega), hc]

/-- `LeafNode::insert` asks for a leaf exactly when it fills the last slot but one. -/
theorem leafInsert_sys (hn : s.nodes p = some nd)
    (hnn : nd.n = ((s.leafAt p).slots LEAF_DEGREE).length)
    (hlen : ((s.leafAt p).slots LEAF_DEGREE).length ≤ LEAF_MAX) :
    ((((s.leafAt p).slots LEAF_DEGREE).length = LEAF_MAX → LeafAvailable sys s) →
      LeafNode.insert env sys p k v s = LeafNode.insert env Sys.ok p k v s) ∧
    (((s.leafAt p).slots LEAF_DEGREE).length = LEAF_MAX → ¬ LeafAvailable sys s →
      LeafNode.insert env sys p k v s = none) := by
  have hfree : (s.leafAt p).findFirstZero LEAF_DEGREE < LEAF_DEGREE * 2 := by
    refine LeafImage.findFirstZero_lt ?_
    simp only [LEAF_MAX, LEAF_DEGREE] at *
    omega
  have hiff : nd.n + 1 ≥ LEAF_DEGREE * 2 ↔ ((s.leafAt p).slots LEAF_DEGREE).length = LEAF_MAX := by
    rw [hnn]
    simp only [LEAF_MAX, LEAF_DEGREE] at *
    omega
  -- the slot is filled first, which leaves the free list as it is
  have havail : LeafAvailable sys (s.fillSlot env p nd k v) ↔ LeafAvailable sys s := Iff.rfl
  have hnode : (s.fillSlot env p nd k v).nodes p = some { nd with n := nd.n + 1 } := edit_nodes_self
  rw [insert_eq hn hfree, insert_eq hn hfree, ← hiff]
  constructor
  · intro h
    split_ifs with hfull
    · exact split_of_available (havail.mpr (h hfull))
    · rfl
  · intro hfull h
    rw [if_pos hfull]
    exact split_of_not_available (fun ha => h (havail.mp ha)) hnode (by dsimp only; omega)

end Leaf

section Tree

variable {env : Env} {sys : Sys} {d : ℕ} {t : FPTree} {s : World} {k : Key}

/-- An insertion that gets the leaf it needs is the one without failures; the others
    are undefined. -/
theorem Inv.insert_sys (hinv : Inv env d t s) (sys : Sys) (k : Key) (v : Value) :
    ((NeedsLeaf t s k → LeafAvailable sys s) → t.insert env sys k v s = t.insert env Sys.ok k v s) ∧
    (NeedsLeaf t s k → ¬ LeafAvailable sys s → t.insert env sys k v s = none) := by
  rcases hinv.tree with hempty | ⟨h, hr⟩
  · have hneeds : NeedsLeaf t s k := Or.inl hempty.nChild
    constructor
    · intro havail
      have hst : StoreInv s [] := hempty.leaves_eq ▸ hinv.store
      have hroot : t.root.isRoot = true ∧ t.root.nKeys = 0 := ⟨hempty.isRoot, hempty.nKeys⟩
      rw [FPTree.insert, FPTree.insert, Node.insert, Node.insert, if_pos hroot, if_pos hroot,
        if_pos hempty.nChild, if_pos hempty.nChild, create_of_available (havail hneeds)]
      cases hc : LeafNode.create Sys.ok s with
      | mk q s1 =>
        cases q with
        | none => rfl
        | some p =>
          -- the first leaf is empty, so that the insertion into it asks for no other
          obtain ⟨-, hzero, hn⟩ := hst.create_first hc
          have hslots : (s1.leafAt p).slots LEAF_DEGREE = [] := by
            rw [hzero]; exact LeafImage.slots_zero
          have hins := (@leafInsert_sys env sys s1 p k v _ hn (by rw [hslots]; rfl)
            (by rw [hslots]; decide)).1 fun hlen => absurd hlen (by rw [hslots]; decide)
          dsimp only
          rw [hins]
    · intro _ hnot
      obtain ⟨s', hc⟩ := create_of_not_available hnot
      rw [FPTree.insert, Node.insert, if_pos ⟨hempty.isRoot, hempty.nKeys⟩,
        if_pos hempty.nChild, hc]
      rfl
  · obtain ⟨l1, p, l2, hl, hroute, hw, -, -⟩ := hinv.route hr k
    obtain ⟨nd, hn, hnn⟩ := hw.exists_node
    obtain ⟨hsame, hnone⟩ := @leafInsert_sys env sys s p k v nd hn hnn hw.le_cap
    obtain ⟨F, hF⟩ := hr.insert_bind env v hroute
    have hneeds : NeedsLeaf t s k ↔ ((s.leafAt p).slots LEAF_DEGREE).length = LEAF_MAX := by
      constructor
      · rintro (h0 | ⟨q, hq, hlen⟩)
        · exact absurd h0 (by rw [hr.filled.nChild]; omega)
        · obtain rfl := Option.some.inj (hroute.symm.trans hq)
          exact hlen
      · exact fun hlen => Or.inr ⟨p, hroute, hlen⟩
    rw [hneeds, hF sys s, hF Sys.ok s]
    constructor
    · intro h
      rw [hsame h]
    · intro hlen h
      rw [hnone hlen h]
      rfl

theorem Inv.insert_ok {v : Value} {db : Db} (hinv : Inv env d t s)
    (h : t.insert env sys k v s = some db) :
    t.insert env Sys.ok k v s = some db := by
  obtain ⟨hsame, hnone⟩ := hinv.insert_sys sys k v
  by_cases hall : NeedsLeaf t s k → LeafAvailable sys s
  · rw [← hsame hall]
    exact h
  · obtain ⟨hneeds, hnot⟩ := Classical.not_imp.mp hall
    rw [hnone hneeds hnot] at h
    cases h

end Tree

/-! ## Runs of inserts -/

section Runs

variable {env : Env} {d : ℕ} {db db' : Db} {ps : List KeyValue}

/-- The store holds the pairs `ps`. -/
structure Holds (env : Env) (d : ℕ) (db : Db) (ps : List KeyValue) : Prop where
  inv : Inv env d db.1 db.2
  alloc : AllocInv db.2
  pairs : (stored db.1 db.2).Perm ps

theorem Holds.keys (h : Holds env d db ps) {k : Key} :
    k ∈ (stored db.1 db.2).map KeyValue.k ↔ k ∈ ps.map KeyValue.k := (h.pairs.map _).mem_iff

theorem emptyDb_holds (env : Env) (d : ℕ) : Holds env d (emptyDb env d) [] :=
  ⟨emptyDb_inv env d, construct_empty_allocInv env, List.Perm.refl _⟩

theorem Holds.insert (hd : 1 ≤ d) (h : Holds env d db ps) {sys : Sys} {x : KeyValue}
    (hx : x.k ∉ ps.map KeyValue.k) (hres : (DbOp.insert x.k x.v).step env sys db = some db') :
    StoreInserted env d db.1 db.2 x.k x.v db'.1 db'.2 ∧ Holds env d db' (x :: ps) := by
  have hi := h.inv.insert hd (fun hk => hx (h.keys.mp hk)) (h.inv.insert_ok hres)
  exact ⟨hi, hi.inv, hi.allocInv h.alloc, hi.pairs.trans (h.pairs.cons x)⟩

/-- The call of an insertion, with the outcomes of its system calls. -/
def insertStep (env : Env) (x : Sys × KeyValue) : Db → Option Db :=
  (DbOp.insert x.2.k x.2.v).step env x.1

theorem inserts_hold (hd : 1 ≤ d) : ∀ (ops : List (Sys × KeyValue)) {db : Db} {ps : List KeyValue},
    Holds env d db ps → ((ops.map Prod.snd ++ ps).map KeyValue.k).Nodup →
    run (insertStep env) ops db = some db' → Holds env d db' (ops.map Prod.snd ++ ps) := by
  intro ops
  induction ops with
  | nil =>
    intro db ps h _ hrun
    obtain rfl := Option.some.inj hrun
    exact h
  | cons x ops ih =>
    intro db ps h hnd hrun
    obtain ⟨db1, h1, h2⟩ := Option.bind_eq_some_iff.mp hrun
    rw [List.map_cons, List.cons_append] at hnd ⊢
    have hx : x.2.k ∉ ps.map KeyValue.k := by
      rw [List.map_cons, List.nodup_cons, List.map_append, List.mem_append] at hnd
      exact fun hk => hnd.1 (Or.inr hk)
    have hperm : (ops.map Prod.snd ++ x.2 :: ps).Perm (x.2 :: (ops.map Prod.snd ++ ps)) :=
      List.perm_middle
    have := ih (h.insert hd hx h1).2 ((hperm.map _).nodup_iff.mpr hnd) h2
    exact ⟨this.inv, this.alloc, this.pairs.trans hperm⟩

/-- The pairs that the store holds are found. -/
theorem Holds.find {h : ℕ} (hh : Holds env d db ps)
    (hr : RootRanged d (leafPred env LEAF_MAX db.2) h db.1.root) {x : KeyValue} (hx : x ∈ ps) :
    db.1.find env x.k db.2 = some x.v := by
  have hrep := represents_lookup hh.inv.keys_nodup
  rw [find_of_represents hr hrep, (hrep x.k x.v).mp (hh.pairs.mem_iff.mpr hx)]
  rfl

end Runs

/-- The insertion of `k` returns, every leaf that the tree or a link refers to is in use,
    and the pairs inserted before are still found. -/
def InsertSurvives (env : Env) (sys : Sys) (ps : List KeyValue) (t : FPTree) (s : World) (k : Key)
    (v : Value) : Prop :=
  ∃ t' s', t.insert env sys k v s = some (t', s') ∧
    (∀ p ∈ (inner t'.root).leaves, s'.ifLeafUsed p = true) ∧
    (∀ p nd q, s'.nodes p = some nd → nd.prev = some q ∨ nd.next = some q →
      s'.ifLeafUsed q = true) ∧
    ∀ x ∈ ps, t'.find env x.k s' = some x.v

/-- The links of a chain stay in the chain. -/
theorem StoreInv.link_used {s : World} {chain : List PPointer} {p q : PPointer} {nd : LeafNode}
    (h : StoreInv s chain) (hn : s.nodes p = some nd) (hq : nd.prev = some q ∨ nd.next = some q) :
    s.ifLeafUsed q = true := by
  obtain ⟨l1, l2, rfl⟩ := List.append_of_mem (h.mem_of_node hn)
  obtain ⟨hnext, hprev⟩ := h.links hn
  rw [h.used_iff, List.mem_append, List.mem_cons]
  rcases hq with hq | hq
  · rw [hprev] at hq
    exact Or.inl (List.mem_of_getLast? hq)
  · rw [hnext] at hq
    exact Or.inr (Or.inr (List.mem_of_mem_head? hq))

/-- After any run of inserts of different keys, whatever the outcomes of the system
    calls, `getLeaf` fails exactly when there is no free leaf and no new group can be
    made; a further insertion survives exactly when it gets the leaf it needs. -/
theorem insert_survives_iff (env : Env) (sys : Sys) (d : ℕ) (hd : 1 ≤ d)
    (ops : List (Sys × KeyValue)) (k : Key) (v : Value) (hnd : (k :: ops.map fun x => x.2.k).Nodup)
    (t : FPTree) (s : World) (hrun : run (insertStep env) ops (emptyDb env d) = some (t, s)) :
    ((getLeaf sys s).1 = none ↔ ¬ LeafAvailable sys s) ∧
    (InsertSurvives env sys (ops.map Prod.snd) t s k v ↔
      (NeedsLeaf t s k → LeafAvailable sys s)) := by
  have hkeys : (ops.map Prod.snd ++ []).map KeyValue.k = ops.map fun x => x.2.k := by simp
  obtain ⟨hk, hnd⟩ := List.nodup_cons.mp hnd
  have hh := inserts_hold hd ops (emptyDb_holds env d) (by rw [hkeys]; exact hnd) hrun
  refine ⟨getLeaf_eq_none_iff hh.alloc, ?_⟩
  have hk' : k ∉ (stored t s).map KeyValue.k := by rwa [hh.keys, hkeys]
  obtain ⟨hsame, hnone⟩ := hh.inv.insert_sys sys k v
  constructor
  · rintro ⟨t', s', hins, -⟩ hneeds
    by_contra hnot
    rw [hnone hneeds hnot] at hins
    cases hins
  · intro hall
    obtain ⟨t', s', hins⟩ := hh.inv.insert_some hd hh.alloc hk' v
    obtain ⟨hi, hh'⟩ := hh.insert hd (show (KeyValue.mk k v).k ∉ _ by rwa [hkeys])
      (show (DbOp.insert k v).step env Sys.ok (t, s) = some (t', s') from hins)
    obtain ⟨h, hr⟩ := hi.tree
    refine ⟨t', s', (hsame hall).trans hins, fun p hp => (hi.store.used_iff p).mpr hp,
      fun p nd q => hi.store.link_used, fun x hx => hh'.find hr ?_⟩
    simp only [List.append_nil, List.mem_cons]
    exact Or.inr hx

/-- Leaves of the first group are left when no further group can be made. -/
theorem insert_survives_iff_one : ∃ t s,
    run (insertStep Env.flat) [(Sys.ok, ⟨5, 50⟩)] (emptyDb Env.flat 1) = some (t, s) ∧
    InsertSurvives Env.flat ⟨false, false, false⟩ [⟨5, 50⟩] t s 6 60 := by
  have hrun : run (insertStep Env.flat) [(Sys.ok, ⟨5, 50⟩)] (emptyDb Env.flat 1) =
      some (_, _) := rfl
  refine ⟨_, _, hrun, ?_⟩
  have h := insert_survives_iff Env.flat ⟨false, false, false⟩ 1 le_rfl [(Sys.ok, ⟨5, 50⟩)]
    6 60 (by decide) _ _ hrun
  exact h.2.mpr fun _ => Or.inl (by decide)

/-- The first insertion when no leaf group can be mapped. -/
theorem insert_needs_leaf : ¬ ∀ (env : Env) (sys : Sys) (d : ℕ), 1 ≤ d →
    ∀ (ops : List (Sys × KeyValue)) (k : Key) (v : Value), (k :: ops.map fun x => x.2.k).Nodup →
    ∀ (t : FPTree) (s : World), run (insertStep env) ops (emptyDb env d) = some (t, s) →
    NeedsLeaf t s k → (getLeaf sys s).1 = none →
    InsertSurvives env sys (ops.map Prod.snd) t s k v := by
  intro h
  obtain ⟨t', s', hins, -⟩ := h Env.flat ⟨false, true, true⟩ 1 le_rfl [] 5 50 (by simp) _ _ rfl
    (Or.inl rfl) rfl
  cases hins

end FPTreeDB
