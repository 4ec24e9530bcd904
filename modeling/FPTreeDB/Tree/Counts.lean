import FPTreeDB.Tree.Sessions

/-!
# The entry counts

The counter `n` of a leaf is kept by increments and decrements and set to `LEAF_DEGREE`
by a split, while the bitmaps of the two leaves come from comparisons with the median. The
two agree as long as every split divides its keys evenly, which it does exactly when the
two middle keys differ. Keys that are inserted again can be equal there.

* `LeafInsertCase.exact`: an insertion into a leaf with an exact count.
* `StepCase.exact`: every call.
* `counts_exact`: the counts after every run whose splits are even.
* `counts_spoiled`: the same key inserted until its leaf is split.
-/

namespace FPTreeDB

open PAllocator Runs Node LeafImage

/-- The counter of the leaf at `p` is the number of its set slots, which is between 1
    and `LEAF_MAX`. -/
structure Exact (s : World) (p : PPointer) : Prop where
  n_eq : (s.nodes p).map LeafNode.n = some (((s.leafAt p).slots LEAF_DEGREE).length : ℤ)
  pos : 0 < ((s.leafAt p).slots LEAF_DEGREE).length
  le_max : ((s.leafAt p).slots LEAF_DEGREE).length ≤ LEAF_MAX

/-- The number of set slots in the leaves of a list. -/
def slotsIn (s : World) (l : List PPointer) : ℕ :=
  (l.map fun p => ((s.leafAt p).slots LEAF_DEGREE).length).sum

section Leaf

variable {env : Env} {sys : Sys} {s s1 : World} {l1 l2 m m' : List PPointer}
  {p : PPointer} {k : Key} {v : Value} {nc : Option (Key × PPointer)} {nd : LeafNode}

theorem SameLeaf.exact (h : SameLeaf s s1 p) (he : Exact s p) : Exact s1 p := by
  refine ⟨?_, ?_, ?_⟩
  · rw [h.n, he.n_eq, h.slots]
  · rw [h.slots]; exact he.pos
  · rw [h.slots]; exact he.le_max

theorem Exact.exists_node (h : Exact s p) :
    ∃ nd, s.nodes p = some nd ∧ nd.n = ((s.leafAt p).slots LEAF_DEGREE).length := by
  obtain ⟨nd, hn, hnn⟩ := Option.map_eq_some_iff.mp h.n_eq
  exact ⟨nd, hn, hnn⟩

theorem slotsIn_append (s : World) (l l' : List PPointer) :
    slotsIn s (l ++ l') = slotsIn s l + slotsIn s l' := by
  simp [slotsIn]

theorem slotsIn_congr {l : List PPointer} (h : ∀ q ∈ l, SameLeaf s s1 q) :
    slotsIn s1 l = slotsIn s l := by
  rw [slotsIn, slotsIn]
  exact congrArg List.sum (List.map_congr_left fun q hq => congrArg List.length (h q hq).slots)

/-- The other leaves of a chain keep their slots. -/
theorem slotsIn_middle {c : ℕ} (hsame : ∀ q ∈ l1 ++ l2, SameLeaf s s1 q)
    (h : slotsIn s1 m' = slotsIn s m + c) :
    slotsIn s1 (l1 ++ (m' ++ l2)) = slotsIn s (l1 ++ (m ++ l2)) + c := by
  rw [slotsIn_append, slotsIn_append, slotsIn_append, slotsIn_append, h,
    slotsIn_congr fun q hq => hsame q (List.mem_append_left _ hq),
    slotsIn_congr fun q hq => hsame q (List.mem_append_right _ hq)]
  omega

theorem slotsIn_singleton :
    slotsIn s [p] = ((s.leafAt p).slots LEAF_DEGREE).length := by simp [slotsIn]

/-- What a call does to the counts of the leaves `m` of a chain, which become `m'`. -/
structure Counts (s : World) (l1 m l2 : List PPointer) (s1 : World) (m' : List PPointer) :
    Prop where
  same : ∀ q ∈ l1 ++ l2, SameLeaf s s1 q
  exact : ∀ q ∈ m', Exact s1 q

theorem Counts.all (h : Counts s l1 m l2 s1 m') (he : ∀ q ∈ l1 ++ (m ++ l2), Exact s q) :
    ∀ q ∈ l1 ++ (m' ++ l2), Exact s1 q := by
  intro q hq
  simp only [List.mem_append] at hq he
  rcases hq with hq | hq | hq
  · exact (h.same q (List.mem_append_left _ hq)).exact (he q (Or.inl hq))
  · exact h.exact q hq
  · exact (h.same q (List.mem_append_right _ hq)).exact (he q (Or.inr (Or.inr hq)))

/-- The two parts of a full leaf. -/
theorem SplitLeaf.lengths {q : PPointer} (h : SplitLeaf s l1 p q l2 s1)
    (hfull : ((s.leafAt p).slots LEAF_DEGREE).length = LEAF_DEGREE * 2) :
    ((s1.leafAt q).slots LEAF_DEGREE).length =
        ((s.leafAt p).keys LEAF_DEGREE).countP ((s.leafAt p).findSplitKey LEAF_DEGREE ≤ ·) ∧
      ((s1.leafAt p).slots LEAF_DEGREE).length + ((s1.leafAt q).slots LEAF_DEGREE).length =
        LEAF_DEGREE * 2 := by
  have hq : ((s1.leafAt q).slots LEAF_DEGREE).length =
      ((s.leafAt p).keys LEAF_DEGREE).countP ((s.leafAt p).findSplitKey LEAF_DEGREE ≤ ·) := by
    rw [h.leaf_new]
    exact length_splitNew_eq hfull
  refine ⟨hq, ?_⟩
  rw [hq, h.leaf_old]
  exact length_splitOld_add hfull

/-- An insertion, when the keys of a leaf that is split divide evenly. -/
theorem LeafInsertCase.exact (hst : StoreInv s (l1 ++ p :: l2)) (he : Exact s p)
    (hnn : nd.n = ((s.leafAt p).slots LEAF_DEGREE).length)
    (heven : ((s.leafAt p).slots LEAF_DEGREE).length = LEAF_MAX →
      MiddleDiffer LEAF_DEGREE (k :: (s.leafAt p).keys LEAF_DEGREE))
    (hc : LeafInsertCase env s l1 p l2 nd k v nc s1) :
    Counts s l1 [p] l2 s1 (newLeaves p nc) ∧ slotsIn s1 (newLeaves p nc) = slotsIn s [p] + 1 := by
  have hlen := @fillSlot_length env s p k v nd he.le_max
  cases hc with
  | fits hroom =>
    refine ⟨⟨fillSlot_same hst, fun q hq => ?_⟩, ?_⟩
    · obtain rfl := List.mem_singleton.mp hq
      exact ⟨fillSlot_n he.le_max hnn, by omega, by omega⟩
    · show slotsIn _ [p] = _
      rw [slotsIn_singleton, slotsIn_singleton, hlen]
  | @split q s1 hfull hs =>
    have hfull' := hlen.trans hfull
    have hpairs := (@fillSlot_pairs env s p k v nd he.le_max).2
    have hmid : MiddleDiffer LEAF_DEGREE (((s.fillSlot env p nd k v).leafAt p).keys LEAF_DEGREE) :=
      (heven (by simp only [LEAF_MAX, LEAF_DEGREE] at *; omega)).of_perm
        (hpairs.map KeyValue.k).symm
    obtain ⟨hq, hsum⟩ := hs.lengths hfull'
    rw [(findSplitKey_count_iff hfull' (by decide)).mpr hmid] at hq
    have hp : ((s1.leafAt p).slots LEAF_DEGREE).length = LEAF_DEGREE := by omega
    have hpos : 0 < LEAF_DEGREE := by decide
    have hmax : LEAF_DEGREE ≤ LEAF_MAX := by decide
    refine ⟨⟨fun x hx => (fillSlot_same hst x hx).trans (hs.same x hx), fun x hx => ?_⟩, ?_⟩
    · rcases List.mem_cons.mp hx with rfl | hx
      · exact ⟨by rw [hs.n_old, hp], by omega, by omega⟩
      · obtain rfl := List.mem_singleton.mp hx
        exact ⟨by rw [hs.n_new, hq], by omega, by omega⟩
    · have htwo :
          slotsIn s1
            (newLeaves p
              (some (((s.fillSlot env p nd k v).leafAt p).findSplitKey LEAF_DEGREE, q))) =
          ((s1.leafAt p).slots LEAF_DEGREE).length + ((s1.leafAt q).slots LEAF_DEGREE).length := by
        simp [slotsIn, newLeaves]
      rw [htwo, slotsIn_singleton]
      omega

/-- An update leaves every count alone. -/
theorem StoreInv.leafUpdate_same {chain : List PPointer} {b : Bool} (h : StoreInv s chain)
    (hu : LeafNode.update env p k v s = some (b, s1)) (he : ∀ q ∈ chain, Exact s q) :
    ∀ q ∈ chain, Exact s1 q := by
  obtain ⟨hp, -⟩ := h.leafUpdate hu
  obtain ⟨nd, hn, hnn⟩ := (he p hp).exists_node
  cases hf : (s.leafAt p).findSlot env.keyHash LEAF_DEGREE k with
  | none =>
    rw [update_eq_none hn hf] at hu
    obtain ⟨-, rfl⟩ := Prod.mk.inj (Option.some.inj hu)
    exact he
  | some i =>
    rw [update_eq_some hn hf] at hu
    obtain ⟨-, rfl⟩ := Prod.mk.inj (Option.some.inj hu)
    intro q hq
    by_cases hqp : q = p
    · subst hqp
      refine ⟨?_, ?_, ?_⟩
      · rw [edit_nodes_self, edit_leafAt_self, slots_updateAt, Option.map_some, hnn]
      · rw [edit_leafAt_self, slots_updateAt]; exact (he q hq).pos
      · rw [edit_leafAt_self, slots_updateAt]; exact (he q hq).le_max
    · exact (h.edit_sameLeaf hp hq hqp).exact (he q hq)

/-- A removal takes one slot away, and the leaf with its last one. -/
theorem StoreInv.leafRemove_exact {rm del : Bool} (h : StoreInv s (l1 ++ p :: l2)) (he : Exact s p)
    (hr : LeafNode.remove env sys p k false s = some (rm, del, s1)) :
    Counts s l1 [p] l2 (removedWorld p del s1) (remains p del) := by
  obtain ⟨nd, hn, hnn⟩ := he.exists_node
  cases hf : (s.leafAt p).findSlot env.keyHash LEAF_DEGREE k with
  | none =>
    rw [remove_eq_none hn hf] at hr
    obtain ⟨-, hr⟩ := Prod.mk.inj (Option.some.inj hr)
    obtain ⟨rfl, rfl⟩ := Prod.mk.inj hr
    refine ⟨fun q _ => SameLeaf.of_eq rfl rfl, fun q hq => ?_⟩
    obtain rfl := List.mem_singleton.mp hq
    exact he
  | some i =>
    have hi := (findSlot_eq_some hf).1
    have hclear : StoreInv (s.clearSlot p nd i) (l1 ++ p :: l2) := h.edit hn rfl rfl rfl
    have hnode : (s.clearSlot p nd i).nodes p = some { nd with n := nd.n - 1 } := edit_nodes_self
    have hsame : ∀ q ∈ l1 ++ l2, SameLeaf s (s.clearSlot p nd i) q := h.edit_same
    rw [remove_eq_some hn hf] at hr
    split_ifs at hr with hz
    · obtain ⟨s2, hu, hdrop, -⟩ := hclear.drop sys hnode
      rw [hu] at hr
      obtain ⟨-, hr⟩ := Prod.mk.inj (Option.some.inj hr)
      obtain ⟨rfl, rfl⟩ := Prod.mk.inj hr
      exact ⟨fun q hq => (hsame q hq).trans (hdrop.same q hq),
        fun q hq => absurd hq (by simp [remains])⟩
    · obtain ⟨-, hr⟩ := Prod.mk.inj (Option.some.inj hr)
      obtain ⟨rfl, rfl⟩ := Prod.mk.inj hr
      refine ⟨hsame, fun q hq => ?_⟩
      obtain rfl := List.mem_singleton.mp hq
      obtain ⟨hcount, hlen⟩ := clearSlot_count hnn hi
      have hmax := he.le_max
      show Exact (s.clearSlot q nd i) q
      exact ⟨hcount, by omega, by omega⟩

end Leaf

/-! ## Runs -/

/-- An insertion that splits its leaf finds two different keys in the middle. -/
def EvenInsert : DbOp → Db → Prop
  | .insert k _, (t, s) => ∀ p ∈ (inner t.root).leaves, (inner t.root).route k = some p →
      ((s.leafAt p).slots LEAF_DEGREE).length = LEAF_MAX →
      MiddleDiffer LEAF_DEGREE (k :: (s.leafAt p).keys LEAF_DEGREE)
  | _, _ => True

/-- The number of set slots in all leaves. -/
def totalSlots (t : FPTree) (s : World) : ℕ := slotsIn s (inner t.root).leaves

/-- The counter of every leaf is the number of its set slots, at least one and not all. -/
def CountsExact (t : FPTree) (s : World) : Prop :=
  ∀ p ∈ (inner t.root).leaves, ∃ nd, s.nodes p = some nd ∧
    nd.n = ((s.leafAt p).slots LEAF_DEGREE).length ∧ 0 < nd.n ∧ nd.n < 2 * (LEAF_DEGREE : ℤ)

section Run

variable {env : Env} {sys : Sys} {t t' : FPTree} {s s' : World}
  {chain chain' : List PPointer} {op : DbOp}

/-- The counts after a call. -/
theorem StepCase.exact (hc : Consistent (t, s) chain) (he : ∀ q ∈ chain, Exact s q)
    (heven : EvenInsert op (t, s)) (h : StepCase env sys t s chain op s' chain') :
    (∀ q ∈ chain', Exact s' q) ∧ ∀ k v, op = .insert k v →
      slotsIn s' chain' = slotsIn s chain + 1 := by
  cases h with
  | @first k v p s0 s1 hcr hi =>
    obtain ⟨s2, hi', -, hP, hpairs, -⟩ := @StoreInv.insert_first env s p k v s0 hc.store hcr
    rw [hi] at hi'
    obtain ⟨-, rfl⟩ := Prod.mk.inj (Option.some.inj hi')
    refine ⟨fun q hq => ?_, fun _ _ _ => ?_⟩
    · obtain rfl := List.mem_singleton.mp hq
      exact ⟨hP.1.n_eq, hP.1.pos, hP.1.le_cap⟩
    · rw [slotsIn_singleton, ← length_pairs, hpairs]
      rfl
  | @insert k v p l1 l2 nc s1 hroute hi =>
    have hp : p ∈ l1 ++ p :: l2 := by simp
    obtain ⟨nd, hn, hnn⟩ := (he p hp).exists_node
    have hcase := insert_cases hc.store hn hnn (he p hp).le_max hi
    obtain ⟨hcounts, htotal⟩ := hcase.exact hc.store (he p hp) hnn
      (heven p (hc.leaves.mem_iff.mpr hp) hroute)
    exact ⟨hcounts.all he, fun _ _ _ => slotsIn_middle hcounts.same htotal⟩
  | update hp hu => exact ⟨hc.store.leafUpdate_same hu he, fun _ _ h => by cases h⟩
  | absent => exact ⟨he, fun _ _ h => by cases h⟩
  | @remove k p l1 l2 rm del s1 hr =>
    have hcounts := hc.store.leafRemove_exact (he p (by simp)) hr
    exact ⟨hcounts.all he, fun _ _ h => by cases h⟩

/-- The store is consistent and its counts are exact. -/
def Counted (db : Db) : Prop := ∃ chain, Consistent db chain ∧ ∀ q ∈ chain, Exact db.2 q

theorem Counted.step {db db' : Db} (h : Counted db) (heven : EvenInsert op db)
    (hs : op.step env sys db = some db') :
    Counted db' ∧ ∀ k v, op = .insert k v → totalSlots db'.1 db'.2 = totalSlots db.1 db.2 + 1 := by
  obtain ⟨chain, hc, he⟩ := h
  obtain ⟨chain', hcase, hc'⟩ := hc.step hs
  obtain ⟨he', htotal⟩ := hcase.exact hc he heven
  refine ⟨⟨chain', hc', he'⟩, fun k v hop => ?_⟩
  rw [totalSlots, totalSlots, slotsIn, slotsIn, (hc'.leaves.map _).sum_eq, (hc.leaves.map _).sum_eq]
  exact htotal k v hop

theorem Counted.countsExact (h : Counted (t, s)) : CountsExact t s := by
  obtain ⟨chain, hc, he⟩ := h
  intro p hp
  have hex := he p (hc.leaves.mem_iff.mp hp)
  obtain ⟨nd, hn, hnn⟩ := hex.exists_node
  have hpos := hex.pos
  have hmax := hex.le_max
  refine ⟨nd, hn, hnn, by omega, ?_⟩
  simp only [LEAF_MAX, LEAF_DEGREE] at *
  omega

theorem emptyDb_counted (env : Env) {d : ℕ} (hd : 1 ≤ d) : Counted (emptyDb env d) :=
  ⟨[], emptyDb_consistent env hd, by simp⟩

end Run

/-- A call with the outcomes of its system calls. -/
def callStep (env : Env) (op : Sys × DbOp) : Db → Option Db := op.2.step env op.1

/-- In every run of inserts, updates and removes with any keys whose splits are all even,
    every state that is reached has exact counts, and an insertion with an even split
    adds exactly one set slot. -/
theorem counts_exact (env : Env) (d : ℕ) (hd : 1 ≤ d) (ops : List (Sys × DbOp))
    (heven : Meets (callStep env) (fun op => EvenInsert op.2) ops (emptyDb env d))
    (t : FPTree) (s : World) (hrun : run (callStep env) ops (emptyDb env d) = some (t, s)) :
    CountsExact t s ∧ ∀ sys k v t' s', EvenInsert (.insert k v) (t, s) →
      t.insert env sys k v s = some (t', s') →
      CountsExact t' s' ∧ totalSlots t' s' = totalSlots t s + 1 := by
  have h : Counted (t, s) := run_inv_of_meets (fun op db db' h hop hs => (h.step hop hs).1) ops
    (emptyDb_counted env hd) heven hrun
  refine ⟨h.countsExact, fun sys k v t' s' hop hins => ?_⟩
  obtain ⟨h', htotal⟩ :=
    h.step hop (show (DbOp.insert k v).step env sys (t, s) = some (t', s') from hins)
  exact ⟨h'.countsExact, htotal k v rfl⟩

/-! ## The same key again and again -/

section Repeat

variable {env : Env} {d : ℕ} {db db' : Db} {k : Key} {v : Value} {m : ℕ}

/-- The store has one leaf, with `m` entries that all have the key `k`. -/
structure Repeated (k : Key) (m : ℕ) (db : Db) (p : PPointer) : Prop where
  consistent : Consistent db [p]
  exact : Exact db.2 p
  length : ((db.2.leafAt p).slots LEAF_DEGREE).length = m
  keys : ∀ x ∈ (db.2.leafAt p).keys LEAF_DEGREE, x = k
  alloc : AllocInv db.2

theorem insert_once (env : Env) (hd : 1 ≤ d) (k : Key) (v : Value) :
    ∃ db p, (DbOp.insert k v).step env Sys.ok (emptyDb env d) = some db ∧ Repeated k 1 db p := by
  obtain ⟨db, hstep, -, ha⟩ := first_step env hd k v
  have hc := emptyDb_consistent env hd
  obtain ⟨chain, hcase, hc'⟩ := hc.step hstep
  generalize hnil : ([] : List PPointer) = l at hcase
  cases hcase with
  | @first _ _ p s0 s1 hcr hi =>
    obtain ⟨s2, hi', -, hP, hpairs, -⟩ := @StoreInv.insert_first env _ p k v s0 hc.store hcr
    rw [hi] at hi'
    obtain ⟨-, rfl⟩ := Prod.mk.inj (Option.some.inj hi')
    refine ⟨db, p, hstep, hc', ⟨hP.1.n_eq, hP.1.pos, hP.1.le_cap⟩, ?_, ?_, ha⟩
    · rw [← length_pairs, hpairs]
      rfl
    · rw [LeafImage.keys, hpairs]
      simp
  | insert hroute hi => cases List.append_eq_nil_iff.mp hnil.symm |>.2

/-- One more insertion of `k`. -/
theorem Repeated.insert {p : PPointer} (h : Repeated k m db p) (env : Env) (v : Value) :
    ∃ t' s' nc, ∃ nd : LeafNode, (DbOp.insert k v).step env Sys.ok db = some (t', s') ∧
      nd.n = ((db.2.leafAt p).slots LEAF_DEGREE).length ∧
      LeafInsertCase env db.2 [] p [] nd k v nc s' ∧ Consistent (t', s') (newLeaves p nc) := by
  obtain ⟨t, s⟩ := db
  obtain ⟨nd, hn, hnn⟩ := h.exact.exists_node
  have hst : StoreInv s ([] ++ p :: []) := h.consistent.store
  obtain ⟨nc, s', hleaf⟩ := @StoreInv.insert_some env s [] [] p k v nd hst hn h.exact.le_max h.alloc
  obtain ⟨d, hd, hempty | ⟨ht, hr⟩⟩ := h.consistent.tree
  · cases h.consistent.nil hempty
  · obtain ⟨l1, q, l2, hl, hroute⟩ := h.consistent.route hr k
    obtain ⟨rfl, rfl, rfl⟩ : l1 = [] ∧ q = p ∧ l2 = [] := by
      cases l1 with
      | nil =>
        obtain ⟨rfl, rfl⟩ := List.cons.inj hl
        exact ⟨rfl, rfl, rfl⟩
      | cons x l1 => cases List.append_eq_nil_iff.mp (List.cons.inj hl).2.symm |>.2
    have hc : Consistent (t, s) ([] ++ q :: []) := h.consistent
    obtain ⟨t', ht', hc'⟩ := hc.insert_leaf hd hr hroute hleaf
    rw [List.nil_append, List.append_nil] at hc'
    exact ⟨t', s', nc, nd, ht', hnn, insert_cases hst hn hnn h.exact.le_max hleaf, hc'⟩

theorem Repeated.next {p : PPointer} (h : Repeated k m db p) (hm : m < LEAF_MAX) (env : Env)
    (v : Value) :
    ∃ db', (DbOp.insert k v).step env Sys.ok db = some db' ∧ Repeated k (m + 1) db' p := by
  obtain ⟨t', s', nc, nd, hstep, hnn, hcase, hc'⟩ := h.insert env v
  have hst : StoreInv db.2 ([] ++ p :: []) := h.consistent.store
  have hne : ((db.2.leafAt p).slots LEAF_DEGREE).length ≠ LEAF_MAX := by
    rw [h.length]
    exact hm.ne
  obtain ⟨hcounts, -⟩ := hcase.exact hst h.exact hnn fun hlen => absurd hlen hne
  have ha := hcase.allocInv h.alloc
  cases hcase with
  | fits hroom =>
    have hpairs := (@fillSlot_pairs env db.2 p k v nd h.exact.le_max).2
    refine ⟨_, hstep, hc', hcounts.exact p (by simp [newLeaves]), ?_, ?_, ha⟩
    · rw [fillSlot_length h.exact.le_max, h.length]
    · intro x hx
      rw [LeafImage.keys, (hpairs.map _).mem_iff, List.map_cons, List.mem_cons] at hx
      exact hx.elim id (h.keys x)
  | split hfull hs =>
    rw [h.length] at hfull
    simp only [LEAF_MAX, LEAF_DEGREE] at hm hfull
    omega

/-- As many insertions as the leaf takes without a split. -/
theorem repeat_inserts (env : Env) (hd : 1 ≤ d) (k : Key) (v : Value) : ∀ m < LEAF_MAX,
    ∃ db p, run (callStep env) (List.replicate (m + 1) (Sys.ok, .insert k v)) (emptyDb env d) =
      some db ∧
      Repeated k (m + 1) db p := by
  intro m
  induction m with
  | zero =>
    intro _
    obtain ⟨db, p, hstep, h⟩ := insert_once env hd k v
    exact ⟨db, p, by rw [List.replicate_one, run, callStep, hstep]; rfl, h⟩
  | succ m ih =>
    intro hm
    obtain ⟨db, p, hrun, h⟩ := ih (by omega)
    obtain ⟨db', hstep, h'⟩ := h.next (by omega) env v
    refine ⟨db', p, ?_, h'⟩
    rw [List.replicate_succ', run_append, hrun, Option.bind_some, run, callStep, hstep]
    rfl

theorem not_middleDiffer {L : ℕ} {ks : List Key} (hL : 0 < L) (hlen : ks.length = L * 2)
    (hk : ∀ x ∈ ks, x = k) : ¬ MiddleDiffer L ks := by
  have hmem : ∀ i < L * 2, (ks.insertionSort (· ≤ ·)).getD i 0 = k := by
    intro i hi
    have hi' : i < (ks.insertionSort (· ≤ ·)).length := by
      rw [List.length_insertionSort, hlen]; exact hi
    rw [List.getD_eq_getElem _ _ hi']
    exact hk _ ((List.perm_insertionSort _ _).mem_iff.mp (List.getElem_mem hi'))
  intro h
  exact h ((hmem (L - 1) (by omega)).trans (hmem L (by omega)).symm)

/-- The insertion that fills a leaf of equal keys gives a leaf whose counter is wrong. -/
theorem Repeated.spoil {p : PPointer} (h : Repeated k LEAF_MAX db p) (env : Env) (v : Value) :
    ∃ t' s', (DbOp.insert k v).step env Sys.ok db = some (t', s') ∧ ¬ CountsExact t' s' := by
  obtain ⟨t', s', nc, nd, hstep, hnn, hcase, hc'⟩ := h.insert env v
  refine ⟨t', s', hstep, fun hexact => ?_⟩
  cases hcase with
  | fits hroom =>
    rw [h.length] at hroom
    omega
  | @split q _ hfull hs =>
    have hfull' := (@fillSlot_length env db.2 p k v nd h.exact.le_max).trans hfull
    have hpairs := (@fillSlot_pairs env db.2 p k v nd h.exact.le_max).2
    have hkeys : ∀ x ∈ ((db.2.fillSlot env p nd k v).leafAt p).keys LEAF_DEGREE, x = k := by
      intro x hx
      rw [LeafImage.keys, (hpairs.map _).mem_iff, List.map_cons, List.mem_cons] at hx
      exact hx.elim id (h.keys x)
    have hmid := @not_middleDiffer k LEAF_DEGREE _ (by decide) (by rw [length_keys, hfull']) hkeys
    rw [← findSplitKey_count_iff hfull' (by decide), ← (hs.lengths hfull').1] at hmid
    obtain ⟨nd', hn', hnn', -⟩ := hexact q (hc'.leaves.mem_iff.mpr (by simp [newLeaves]))
    have hn := hs.n_new
    rw [hn', Option.map_some, Option.some.injEq] at hn
    exact hmid (by omega)

end Repeat

/-- Two entries with the same key. -/
theorem counts_exact_two : ∃ t s, run (callStep Env.flat)
    [(Sys.ok, .insert 5 50), (Sys.ok, .insert 5 51)] (emptyDb Env.flat 1) = some (t, s) ∧
    CountsExact t s := by
  obtain ⟨db1, p, hstep, h1⟩ := insert_once (d := 1) Env.flat le_rfl 5 50
  obtain ⟨⟨t, s⟩, hstep', -⟩ := h1.next (by decide) Env.flat 51
  have hrun : run (callStep Env.flat) [(Sys.ok, .insert 5 50), (Sys.ok, .insert 5 51)]
      (emptyDb Env.flat 1) = some (t, s) := by
    rw [run, callStep, hstep, Option.bind_some, run, callStep, hstep']
    rfl
  have heven : Meets (callStep Env.flat) (fun op => EvenInsert op.2)
      [(Sys.ok, .insert 5 50), (Sys.ok, .insert 5 51)] (emptyDb Env.flat 1) := by
    refine ⟨fun q hq => absurd hq (by simp [leaves, InnerNode.create]), fun db hdb =>
      ⟨?_, fun _ _ => trivial⟩⟩
    obtain rfl : db1 = db := Option.some.inj (hstep.symm.trans hdb)
    intro q hq _ hlen
    obtain rfl := List.mem_singleton.mp (h1.consistent.leaves.mem_iff.mp hq)
    rw [h1.length] at hlen
    cases hlen
  exact ⟨t, s, hrun, (counts_exact Env.flat 1 le_rfl _ heven t s hrun).1⟩

/-- The same key, inserted until its leaf is split. -/
theorem counts_spoiled :
    ¬ ∀ (env : Env) (d : ℕ), 1 ≤ d → ∀ (ops : List (Sys × DbOp)) (t : FPTree) (s : World),
    run (callStep env) ops (emptyDb env d) = some (t, s) → CountsExact t s := by
  intro h
  obtain ⟨db, p, hrun, hrep⟩ := repeat_inserts Env.flat le_rfl 5 50 (LEAF_MAX - 1) (by decide)
  have hmax : LEAF_MAX - 1 + 1 = LEAF_MAX := by decide
  rw [hmax] at hrun hrep
  obtain ⟨t', s', hstep, hnot⟩ := hrep.spoil Env.flat 50
  refine hnot (h Env.flat 1 le_rfl
    (List.replicate LEAF_MAX (Sys.ok, .insert 5 50) ++ [(Sys.ok, .insert 5 50)]) t' s' ?_)
  rw [run_append, hrun, Option.bind_some, run, callStep, hstep]
  rfl

end FPTreeDB
