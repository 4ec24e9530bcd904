import FPTreeDB.Lib.Runs
import FPTreeDB.Leaf.Chain
import FPTreeDB.Leaf.Layout

/-!
# The accesses of a run

`Logged s log s'` says that the accesses `log` are all to fields, leaves, headers and
leaf groups, and lead from the leaf groups of `s` to those of `s'`. The only fact about
the state it takes is `Objects`: a `LeafNode` object has a leaf that exists.

* `Logged.stores`: stores in a row to one leaf.
* `getLeaf_logged`, `freeLeaf_logged`: the accesses of the allocator.
* `step_logged`, `run_logged`: the accesses of an operation and of a run.
* `run_layout`: what a run of operations reads and changes in the files.
-/

namespace FPTreeDB

open PAllocator Runs

/-- Every `LeafNode` object has a leaf that exists. -/
def Objects (s : World) : Prop := ∀ p, (s.nodes p).isSome = true → s.ifLeafExist p = true

namespace Objects

variable {s s' : World} {p : PPointer} {nd : LeafNode}

theorem exist (h : Objects s) (hn : s.nodes p = some nd) : s.ifLeafExist p = true :=
  h p (by rw [hn]; rfl)

theorem aligned (h : Objects s) (hn : s.nodes p = some nd) : Aligned p :=
  aligned_of_exist (h.exist hn)

theorem of_nodes (h : Objects s) (hn : s'.nodes = s.nodes) (hm : s.maxFileId ≤ s'.maxFileId) :
    Objects s' := by
  intro p hp
  rw [hn] at hp
  obtain ⟨h1, h2, h3⟩ := ifLeafExist_iff.mp (h p hp)
  exact ifLeafExist_iff.mpr ⟨h1, h2.trans_le hm, h3⟩

theorem setNode (h : Objects s) (hp : s.ifLeafExist p = true) (nd : Option LeafNode) :
    Objects (s.setNode p nd) := by
  intro q hq
  by_cases e : q = p
  · subst e
    exact hp
  · rw [World.setNode_nodes_of_ne e] at hq
    exact h q hq

theorem modifyNode {f : LeafNode → LeafNode} (h : Objects s) (hs : s.modifyNode p f = some s') :
    Objects s' := by
  obtain ⟨nd, hn, rfl⟩ := modifyNode_eq hs
  exact h.setNode (h.exist hn) _

end Objects

theorem construct_objects (env : Env) (sys : Sys) (d : Storage) :
    Objects (construct env sys d) := by
  have hnodes : (construct env sys d).nodes = fun _ => none := by
    unfold construct
    split
    · rfl
    · simp only [persistCatalog_nodes]
      split_ifs <;> rfl
  intro p hp
  rw [hnodes] at hp
  cases hp

/-- The accesses `log` lead from the leaf groups of `s` to those of `s'`. -/
structure Logged (s : World) (log : List Access) (s' : World) : Prop where
  valid : ∀ a ∈ log, a.Valid
  groups : Access.applyAll log s.groups = s'.groups

/-- The access stores nothing. -/
def Access.IsRead : Access → Prop
  | read _ | readOldNext _ => True
  | _ => False

namespace Logged

variable {s s1 s' s'' : World} {log log' : List Access} {p : PPointer}

theorem nil : Logged s [] s := ⟨by simp, rfl⟩

theorem append (h : Logged s log s1) (h' : Logged s1 log' s') : Logged s (log ++ log') s' where
  valid := List.forall_mem_append.mpr ⟨h.valid, h'.valid⟩
  groups := by
    rw [Access.applyAll, List.foldl_append]
    show Access.applyAll log' (Access.applyAll log s.groups) = _
    rw [h.groups, h'.groups]

theorem congr (h : Logged s log s') (e : s''.groups = s'.groups) : Logged s log s'' :=
  ⟨h.valid, h.groups.trans e.symm⟩

theorem reads (h : ∀ a ∈ log, a.Valid ∧ a.IsRead) : Logged s log s := by
  refine ⟨fun a ha => (h a ha).1, ?_⟩
  generalize s.groups = g
  induction log with
  | nil => rfl
  | cons a log ih =>
    obtain ⟨⟨-, ha⟩, hlog⟩ := List.forall_mem_cons.mp h
    have hg : a.apply g = g := by
      cases a with
      | read c => rfl
      | readOldNext p => rfl
      | _ => exact ha.elim
    show Access.applyAll log (a.apply g) = g
    rw [hg]
    exact ih hlog

theorem read {c : Cell} (hc : c.Valid) : Logged s [.read c] s := by
  apply reads
  intro a ha
  obtain rfl := List.mem_singleton.mp ha
  exact ⟨hc, trivial⟩

/-- Stores in a row to one leaf. -/
theorem stores (hp : Aligned p) (xs : List FieldStore) (hx : ∀ x ∈ xs, x.field.Valid) :
    Logged s (xs.map (Access.write p)) (s.setLeaf p (xs.foldl FieldStore.apply (s.leafAt p))) := by
  induction xs generalizing s with
  | nil =>
    rw [List.foldl_nil, World.setLeaf_leafAt]
    exact nil
  | cons x xs ih =>
    obtain ⟨hx1, hx⟩ := List.forall_mem_cons.mp hx
    have hfirst : Logged s [.write p x] (s.setLeaf p (x.apply (s.leafAt p))) := by
      refine ⟨fun a ha => ?_, rfl⟩
      obtain rfl := List.mem_singleton.mp ha
      exact ⟨hp, hx1⟩
    have hrest := ih (s := s.setLeaf p (x.apply (s.leafAt p))) hx
    rw [World.leafAt_setLeaf_self, World.setLeaf_setLeaf] at hrest
    exact hfirst.append hrest

theorem persistLeaf (hp : Aligned p) : Logged s [.persist (.leaf p)] (s.persistLeaf p) := by
  refine ⟨fun a ha => ?_, rfl⟩
  obtain rfl := List.mem_singleton.mp ha
  exact hp

theorem clearLeaf (hp : Aligned p) : Logged s [.clear (.leaf p)] (s.setLeaf p LeafImage.zero) := by
  refine ⟨fun a ha => ?_, rfl⟩
  obtain rfl := List.mem_singleton.mp ha
  exact hp

theorem header (hp : Aligned p) (u : ℕ) (x : Byte) :
    Logged s (headerLog p u x)
      ((s.setHeader p.fileId u
        (Function.update (s.mem p.fileId).bitmap (leafIndex p) x)).persistHeader p.fileId) := by
  constructor
  · intro a ha
    simp only [headerLog, List.mem_cons, List.not_mem_nil, or_false] at ha
    rcases ha with rfl | rfl | rfl | rfl
    · trivial
    · trivial
    · exact hp.leafIndex_lt
    · trivial
  · simp only [headerLog, Access.applyAll, List.foldl_cons, List.foldl_nil,
      Access.apply, Range.copy, Function.update_self, Function.update_idem, World.groups,
      World.setHeader, World.persistHeader,
      World.commit, Storage.setGroup]

theorem usedCheck : Logged s (ifLeafUsedLog p s) s := by
  unfold ifLeafUsedLog
  split_ifs with h
  · exact read (aligned_of_exist h).leafIndex_lt
  · exact nil

end Logged

/-! ## The allocator -/

section Allocator

variable {s s' : World} {sys : Sys} {p : PPointer}

theorem newLeafGroup_logged : Logged s (newLeafGroupLog sys s) (newLeafGroup sys s).2 := by
  unfold newLeafGroupLog newLeafGroup
  split_ifs
  · exact Logged.nil
  · refine ⟨fun a ha => ?_, rfl⟩
    obtain rfl := List.mem_singleton.mp ha
    trivial
  · refine ⟨fun a ha => ?_, rfl⟩
    simp only [List.mem_cons, List.not_mem_nil, or_false] at ha
    rcases ha with rfl | rfl <;> trivial

theorem newLeafGroup_nodes : (newLeafGroup sys s).2.nodes = s.nodes := by
  unfold newLeafGroup
  split_ifs <;> rfl

theorem newLeafGroup_maxFileId : s.maxFileId ≤ (newLeafGroup sys s).2.maxFileId := by
  unfold newLeafGroup
  split_ifs
  · exact Nat.le_refl _
  · exact Nat.le_refl _
  · exact Nat.le_succ _

theorem claimLeaf_logged (he : s.ifLeafExist p = true) :
    Logged s (claimLeafLog p s) (claimLeaf p s) := by
  have hp := aligned_of_exist he
  generalize hs0 : ({ s with
    startLeaf := if s.ifLeafUsed s.startLeaf then s.startLeaf else p
    freeList := s.freeList.dropLast
    freeNum := s.freeNum - 1 } : World) = s0
  have h0 : Logged s (ifLeafUsedLog s.startLeaf s) s0 := Logged.usedCheck.congr (by rw [← hs0]; rfl)
  have h1 : Logged s0 ([.clear (.leaf p)] ++ [.persist (.leaf p)])
      ((s0.setLeaf p LeafImage.zero).persistLeaf p) :=
    (Logged.clearLeaf hp).append (Logged.persistLeaf hp)
  have hu : (((s0.setLeaf p LeafImage.zero).persistLeaf p).mem p.fileId).usedNum =
      (s.mem p.fileId).usedNum := by
    rw [← hs0]
    simp [World.setLeaf, LeafGroup.setLeaf]
  have h2 := Logged.header (s := (s0.setLeaf p LeafImage.zero).persistLeaf p) hp
    ((s.mem p.fileId).usedNum + 1) 1
  have h := (h0.append h1).append h2
  rw [← hu] at h
  unfold claimLeafLog claimLeaf
  rw [hs0, ← hu]
  exact h

theorem takeLeaf_logged : Logged s (takeLeafLog s) (takeLeaf s).2 := by
  unfold takeLeafLog takeLeaf
  cases s.freeList.getLast? with
  | none => exact Logged.nil
  | some p =>
    by_cases he : s.ifLeafExist p = true
    · simp only [he, Bool.not_true, Bool.false_eq_true, if_false]
      exact claimLeaf_logged he
    · simp only [he, Bool.not_false, if_true]
      exact Logged.nil

theorem takeLeaf_nodes :
    (takeLeaf s).2.nodes = s.nodes ∧ (takeLeaf s).2.maxFileId = s.maxFileId := by
  unfold takeLeaf
  cases s.freeList.getLast? with
  | none => exact ⟨rfl, rfl⟩
  | some p =>
    dsimp only
    split_ifs <;> exact ⟨rfl, rfl⟩

theorem getLeaf_logged : Logged s (getLeafLog sys s) (getLeaf sys s).2 := by
  unfold getLeafLog getLeaf
  split_ifs with h0 hg
  · have hnew := @newLeafGroup_logged s sys
    cases hn : newLeafGroup sys s with
    | mk b s1 =>
      rw [hn] at hnew hg
      obtain rfl : b = true := hg
      exact hnew.append takeLeaf_logged
  · have hnew := @newLeafGroup_logged s sys
    cases hn : newLeafGroup sys s with
    | mk b s1 =>
      rw [hn] at hnew hg
      obtain rfl : b = false := Bool.eq_false_of_not_eq_true hg
      exact hnew.append Logged.nil
  · exact takeLeaf_logged

theorem getLeaf_objects (h : Objects s) : Objects (getLeaf sys s).2 := by
  have hnew : Objects (newLeafGroup sys s).2 := h.of_nodes newLeafGroup_nodes newLeafGroup_maxFileId
  unfold getLeaf
  split_ifs
  · cases hn : newLeafGroup sys s with
    | mk b s1 =>
      rw [hn] at hnew
      cases b with
      | false => exact hnew
      | true => exact hnew.of_nodes takeLeaf_nodes.1 takeLeaf_nodes.2.ge
  · exact h.of_nodes takeLeaf_nodes.1 takeLeaf_nodes.2.ge

theorem getLeaf_exist (h : getLeaf sys s = (some p, s')) : s'.ifLeafExist p = true := by
  have htake : ∀ {s : World}, takeLeaf s = (some p, s') → s'.ifLeafExist p = true := by
    intro s ht
    have hspec := takeLeaf_spec ht
    rw [World.ifLeafExist_congr hspec.maxFileId]
    exact hspec.exist
  unfold getLeaf at h
  split_ifs at h
  · cases hn : newLeafGroup sys s with
    | mk b s1 =>
      rw [hn] at h
      cases b with
      | false => cases (Prod.mk.inj h).1
      | true => exact htake h
  · exact htake h

theorem create_logged : Logged s (getLeafLog sys s) (LeafNode.create sys s).2 := by
  have h := @getLeaf_logged s sys
  unfold LeafNode.create
  cases hg : getLeaf sys s with
  | mk r s1 =>
    rw [hg] at h
    cases r with
    | none => exact h
    | some p => exact h.congr rfl

theorem create_objects (h : Objects s) : Objects (LeafNode.create sys s).2 := by
  have h1 : Objects (getLeaf sys s).2 := getLeaf_objects h
  unfold LeafNode.create
  cases hg : getLeaf sys s with
  | mk r s1 =>
    rw [hg] at h1
    cases r with
    | none => exact h1
    | some p => exact h1.setNode (getLeaf_exist hg) _

theorem create_exist (h : LeafNode.create sys s = (some p, s')) : s'.ifLeafExist p = true := by
  unfold LeafNode.create at h
  cases hg : getLeaf sys s with
  | mk r s1 =>
    rw [hg] at h
    cases r with
    | none => cases (Prod.mk.inj h).1
    | some q =>
      obtain ⟨hq, rfl⟩ := Prod.mk.inj h
      obtain rfl := Option.some.inj hq
      have he := getLeaf_exist hg
      exact he

theorem freeLeaf_logged : Logged s (freeLeafLog p s) (freeLeaf sys p s).2 := by
  unfold freeLeafLog freeLeaf
  by_cases hu : s.ifLeafUsed p = true
  · have hp := aligned_of_exist (ifLeafUsed_iff.mp hu).1
    simp only [hu, Bool.not_true, Bool.false_eq_true, if_false]
    obtain ⟨-, -, -, -, hmem, -, hdisk⟩ := unlist_fields sys p s
    generalize hs0 : ({ unlist sys p s with
      freeList := (unlist sys p s).freeList ++ [p]
      freeNum := (unlist sys p s).freeNum + 1 } : World) = s0
    have hm0 : s0.mem = s.mem := by rw [← hs0]; exact hmem
    have hg0 : s0.groups = s.groups := by
      rw [← hs0]
      show Groups.mk (unlist sys p s).mem (unlist sys p s).disk.groups = _
      rw [hmem, hdisk]
      rfl
    have hread : Logged s (if s.startLeaf = p then [.readOldNext p] else []) s0 := by
      refine Logged.congr (Logged.reads fun a ha => ?_) hg0
      split_ifs at ha
      · obtain rfl := List.mem_singleton.mp ha
        exact ⟨hp, trivial⟩
      · cases ha
    have h := (Logged.usedCheck (p := p)).append
      (hread.append (Logged.header hp ((s.mem p.fileId).usedNum - 1) 0))
    rw [releaseLeaf_eq, hs0, hmem]
    rw [hm0] at h
    exact h
  · simp only [hu, Bool.not_false, if_true, List.append_nil]
    exact Logged.usedCheck

theorem freeLeaf_objects (h : Objects s) : Objects (freeLeaf sys p s).2 := by
  unfold freeLeaf
  split_ifs
  · exact h
  · have hspec := releaseLeaf_spec sys p s
    exact h.of_nodes hspec.nodes hspec.maxFileId.ge

end Allocator

/-! ## The search loops -/

section Loops

variable {env : Env} {s : World} {p : PPointer} {img : LeafImage} {k : Key} {i : ℕ} {is : List ℕ}

theorem byte_valid (hp : Aligned p) (hi : i < LEAF_DEGREE * 2) :
    (Cell.field p (.bitmap (i / 8))).Valid := by
  refine ⟨hp, ?_⟩
  simp only [Field.Valid, bitmapSize, leafDegree_eq] at hi ⊢
  omega

theorem findFirstZeroLog_reads (hp : Aligned p) (his : ∀ i ∈ is, i < LEAF_DEGREE * 2) :
    ∀ a ∈ LeafNode.findFirstZeroLog p img is, a.Valid ∧ a.IsRead := by
  induction is with
  | nil => exact fun a ha => absurd ha List.not_mem_nil
  | cons i is ih =>
    obtain ⟨hi, his⟩ := List.forall_mem_cons.mp his
    rw [LeafNode.findFirstZeroLog]
    refine List.forall_mem_cons.mpr ⟨⟨byte_valid hp hi, trivial⟩, ?_⟩
    split_ifs
    · exact ih his
    · exact fun a ha => absurd ha List.not_mem_nil

theorem findSlotLog_reads (hp : Aligned p) (his : ∀ i ∈ is, i < LEAF_DEGREE * 2) :
    ∀ a ∈ LeafNode.findSlotLog env.keyHash p img k is, a.Valid ∧ a.IsRead := by
  induction is with
  | nil => exact fun a ha => absurd ha List.not_mem_nil
  | cons i is ih =>
    obtain ⟨hi, his⟩ := List.forall_mem_cons.mp his
    have hrest := ih his
    rw [LeafNode.findSlotLog]
    refine List.forall_mem_cons.mpr ⟨⟨byte_valid hp hi, trivial⟩, ?_⟩
    split_ifs
    · refine List.forall_mem_cons.mpr ⟨⟨⟨hp, hi⟩, trivial⟩, ?_⟩
      exact List.forall_mem_cons.mpr ⟨⟨⟨hp, hi⟩, trivial⟩, fun a ha => absurd ha List.not_mem_nil⟩
    · refine List.forall_mem_cons.mpr ⟨⟨⟨hp, hi⟩, trivial⟩, ?_⟩
      exact List.forall_mem_cons.mpr ⟨⟨⟨hp, hi⟩, trivial⟩, hrest⟩
    · exact List.forall_mem_cons.mpr ⟨⟨⟨hp, hi⟩, trivial⟩, hrest⟩
    · exact hrest

theorem getBitLog_reads (hp : Aligned p) : ∀ a ∈ LeafNode.getBitLog p i, a.Valid ∧ a.IsRead := by
  unfold LeafNode.getBitLog
  split_ifs with hi
  · exact List.forall_mem_singleton.mpr ⟨byte_valid hp hi, trivial⟩
  · exact fun a ha => absurd ha List.not_mem_nil

theorem printNodeLog_reads (hp : Aligned p) :
    ∀ a ∈ LeafNode.printNodeLog p img, a.Valid ∧ a.IsRead := by
  intro a ha
  obtain ⟨i, hi, ha⟩ := List.mem_flatMap.mp ha
  have hi := List.mem_range.mp hi
  rcases List.mem_cons.mp ha with rfl | ha
  · exact ⟨byte_valid hp hi, trivial⟩
  · split_ifs at ha
    · simp only [List.mem_cons, List.not_mem_nil, or_false] at ha
      rcases ha with rfl | rfl <;> exact ⟨⟨hp, hi⟩, trivial⟩
    · exact absurd ha List.not_mem_nil

theorem findSplitKeyLog_reads (hp : Aligned p) :
    ∀ a ∈ LeafNode.findSplitKeyLog p, a.Valid ∧ a.IsRead := by
  intro a ha
  obtain ⟨i, hi, rfl⟩ := List.mem_map.mp ha
  exact ⟨⟨hp, List.mem_range.mp hi⟩, trivial⟩

theorem findFirstZero_logged (hp : Aligned p) :
    Logged s (LeafNode.findFirstZeroLog p img (List.range (LEAF_DEGREE * 2))) s :=
  Logged.reads (findFirstZeroLog_reads hp fun _ => List.mem_range.mp)

theorem findSlot_logged (hp : Aligned p) :
    Logged s (LeafNode.findSlotLog env.keyHash p img k (List.range (LEAF_DEGREE * 2))) s :=
  Logged.reads (findSlotLog_reads hp fun _ => List.mem_range.mp)

theorem findSlot_lt (h : img.findSlot env.keyHash LEAF_DEGREE k = some i) : i < LEAF_DEGREE * 2 :=
  List.mem_range.mp (List.mem_of_find?_eq_some h)

end Loops

/-! ## The methods of a leaf -/

section Methods

variable {env : Env} {sys : Sys} {s s' : World} {p q : PPointer} {nd : LeafNode}
  {k : Key} {v : Value}

theorem edit_objects {img : LeafImage} (h : Objects s) (he : s.ifLeafExist p = true) :
    Objects (s.edit p img nd) := by
  have hs : Objects ((s.setLeaf p img).persistLeaf p) := h.of_nodes rfl (Nat.le_refl _)
  exact hs.setNode he _

/-- Stores to one leaf and the persist that follows. -/
theorem edit_logged (hp : Aligned p) {img : LeafImage} (xs : List FieldStore)
    (hx : ∀ x ∈ xs, x.field.Valid) (himg : xs.foldl FieldStore.apply (s.leafAt p) = img) :
    Logged s (xs.map (Access.write p) ++ [.persist (.leaf p)]) (s.edit p img nd) := by
  subst himg
  exact ((Logged.stores hp xs hx).append (Logged.persistLeaf hp)).congr rfl

theorem load_logged (he : s.ifLeafExist p = true) :
    Logged s (LeafNode.loadLog p) (LeafNode.load p s) := by
  refine Logged.congr (Logged.reads fun a ha => ?_) rfl
  obtain ⟨i, hi, rfl⟩ := List.mem_map.mp ha
  exact ⟨⟨aligned_of_exist he, List.mem_range.mp hi⟩, trivial⟩

theorem find_logged (hp : Aligned p) : Logged s (LeafNode.findLog env p k s) s := by
  unfold LeafNode.findLog
  refine (findSlot_logged hp).append ?_
  cases hf : (s.leafAt p).findSlot env.keyHash LEAF_DEGREE k with
  | none => exact Logged.nil
  | some i => exact Logged.read ⟨hp, findSlot_lt hf⟩

theorem update_logged (h : Objects s) (hn : s.nodes p = some nd) {r : Bool}
    (hu : LeafNode.update env p k v s = some (r, s')) :
    Logged s (LeafNode.updateLog env p k v s) s' ∧ Objects s' := by
  have hp := h.aligned hn
  unfold LeafNode.updateLog
  cases hf : (s.leafAt p).findSlot env.keyHash LEAF_DEGREE k with
  | none =>
    rw [update_eq_none hn hf] at hu
    obtain ⟨-, rfl⟩ := Prod.mk.inj (Option.some.inj hu)
    exact ⟨(findSlot_logged hp).append Logged.nil, h⟩
  | some i =>
    rw [update_eq_some hn hf] at hu
    obtain ⟨-, rfl⟩ := Prod.mk.inj (Option.some.inj hu)
    refine ⟨(findSlot_logged hp).append ?_, edit_objects h (h.exist hn)⟩
    apply edit_logged hp [.value i v] _ rfl
    intro x hx
    obtain rfl := List.mem_singleton.mp hx
    exact findSlot_lt hf

theorem insertNonFull_logged (h : Objects s) (hn : s.nodes p = some nd)
    (hi : LeafNode.insertNonFull env p k v s = some s') :
    Logged s (LeafNode.insertNonFullLog env p k v s) s' ∧ Objects s' := by
  have hp := h.aligned hn
  unfold LeafNode.insertNonFullLog
  rw [insertNonFull_eq hn] at hi
  dsimp only
  split_ifs at hi ⊢ with hpos
  · obtain rfl := Option.some.inj hi
    exact ⟨(findFirstZero_logged hp).append Logged.nil, h⟩
  · obtain rfl := Option.some.inj hi
    refine ⟨(findFirstZero_logged hp).append ?_, edit_objects h (h.exist hn)⟩
    generalize hz : (s.leafAt p).findFirstZero LEAF_DEGREE = pos at hpos ⊢
    have hlt : pos < LEAF_DEGREE * 2 := Nat.lt_of_not_le hpos
    have hbyte := byte_valid hp hlt
    apply (Logged.read hbyte).append
    apply edit_logged hp [.bitmap (pos / 8) _, .fingerprint pos _, .key pos k, .value pos v]
    · simp only [List.forall_mem_cons]
      exact ⟨hbyte.2, hlt, hlt, hlt, fun x hx => absurd hx List.not_mem_nil⟩
    · simp only [List.foldl_cons, List.foldl_nil, FieldStore.apply, LeafImage.insertAt,
        LeafImage.setBitmap, Function.update_self, Function.update_idem]

end Methods

/-! ## Splitting -/

namespace LeafImage

variable {img z : LeafImage} {midKey : Key}

/-- The new leaf after the turn of the loop of `split` at slot `i`. -/
def moveSlot (img : LeafImage) (midKey : Key) (z : LeafImage) (i : ℕ) : LeafImage :=
  if (img.kv i).k ≥ midKey then
    { z with
      fingerprints := Function.update z.fingerprints i (img.fingerprints i)
      kv := Function.update z.kv i (img.kv i) }
  else z

theorem update_piecewise {α : Type} {f g : ℕ → α} {c : ℕ → Prop} [DecidablePred c] (n : ℕ) :
    (fun i => if i < n + 1 ∧ c i then f i else g i) =
      if c n then Function.update (fun i => if i < n ∧ c i then f i else g i) n (f n)
      else fun i => if i < n ∧ c i then f i else g i := by
  funext i
  by_cases hi : i = n
  · subst hi
    by_cases hc : c i <;> simp [hc]
  · have hlt : i < n + 1 ↔ i < n := by omega
    by_cases hc : c n <;> simp [hc, hi, hlt]

theorem foldl_moveSlot (n : ℕ) :
    (List.range n).foldl (img.moveSlot midKey) z =
      { z with
        fingerprints := fun i =>
          if i < n ∧ (img.kv i).k ≥ midKey then img.fingerprints i else z.fingerprints i
        kv := fun i => if i < n ∧ (img.kv i).k ≥ midKey then img.kv i else z.kv i } := by
  induction n with
  | zero => simp
  | succ n ih =>
    rw [List.range_succ, List.foldl_append, ih, List.foldl_cons, List.foldl_nil, moveSlot,
      update_piecewise (c := fun i => (img.kv i).k ≥ midKey),
      update_piecewise (c := fun i => (img.kv i).k ≥ midKey)]
    split_ifs <;> rfl

theorem foldl_bitmap (b : ℕ → Byte) (n : ℕ) :
    ((List.range n).map fun i => FieldStore.bitmap i (b i)).foldl FieldStore.apply z =
      { z with bitmap := fun i => if i < n then b i else z.bitmap i } := by
  induction n with
  | zero => simp
  | succ n ih =>
    have hnext := update_piecewise (f := b) (g := z.bitmap) (c := fun _ => True) n
    simp only [and_true, if_true] at hnext
    rw [List.range_succ, List.map_append, List.foldl_append, ih, hnext]
    rfl

end LeafImage

section Split

variable {env : Env} {sys : Sys} {s s' : World} {p q : PPointer} {nd : LeafNode}
  {k : Key} {v : Value} {img : LeafImage} {midKey : Key} {i : ℕ} {is : List ℕ}

theorem move_logged (hp : Aligned p) (hq : Aligned q) (hi : i < LEAF_DEGREE * 2) :
    Logged s (LeafNode.moveLog p q img midKey i)
      (s.setLeaf q (img.moveSlot midKey (s.leafAt q) i)) := by
  have hkey : Logged s [.read (.field p (.key i))] s := Logged.read ⟨hp, hi⟩
  unfold LeafNode.moveLog LeafImage.moveSlot
  split_ifs
  · have h1 : Logged s [.read (.field p (.fingerprint i))] s := Logged.read ⟨hp, hi⟩
    have h2 := Logged.stores (s := s) hq [.fingerprint i (img.fingerprints i)]
      (List.forall_mem_singleton.mpr hi)
    generalize hz : List.foldl FieldStore.apply (s.leafAt q) _ = z at h2
    have h3 : Logged (s.setLeaf q z) [.read (.field p (.key i))] (s.setLeaf q z) :=
      Logged.read ⟨hp, hi⟩
    have h4 : Logged (s.setLeaf q z) [.read (.field p (.value i))] (s.setLeaf q z) :=
      Logged.read ⟨hp, hi⟩
    have h5 := Logged.stores (s := s.setLeaf q z) hq [.key i (img.kv i).k, .value i (img.kv i).v]
      (List.forall_mem_cons.mpr ⟨hi, List.forall_mem_singleton.mpr hi⟩)
    rw [World.leafAt_setLeaf_self, World.setLeaf_setLeaf] at h5
    have h := hkey.append (h1.append (h2.append (h3.append (h4.append h5))))
    rw [← hz] at h
    simp only [List.foldl_cons, List.foldl_nil, FieldStore.apply, Function.update_self,
      Function.update_idem] at h
    exact h
  · rw [World.setLeaf_leafAt]
    exact hkey

theorem moves_logged (hp : Aligned p) (hq : Aligned q) (his : ∀ i ∈ is, i < LEAF_DEGREE * 2) :
    Logged s (is.flatMap (LeafNode.moveLog p q img midKey))
      (s.setLeaf q (is.foldl (img.moveSlot midKey) (s.leafAt q))) := by
  induction is generalizing s with
  | nil =>
    rw [List.foldl_nil, World.setLeaf_leafAt]
    exact Logged.nil
  | cons i is ih =>
    obtain ⟨hi, his⟩ := List.forall_mem_cons.mp his
    have hfirst : Logged s (LeafNode.moveLog p q img midKey i) _ := move_logged hp hq hi
    have hrest := ih (s := s.setLeaf q (img.moveSlot midKey (s.leafAt q) i)) his
    rw [World.leafAt_setLeaf_self, World.setLeaf_setLeaf] at hrest
    rw [List.flatMap_cons, List.foldl_cons]
    exact hfirst.append hrest

/-- The stores to the bitmap and to `pNext` of a leaf, and the persist that follows. -/
theorem bitmapNext_logged (hp : Aligned p) (b : ℕ → Byte) (x : PPointer) {log : List Access}
    (hlog : ∀ a ∈ log, a.Valid ∧ a.IsRead) :
    Logged s (LeafNode.bitmapLog p b ++ (log ++ [.write p (.pNext x), .persist (.leaf p)]))
      ((s.setLeaf p { s.leafAt p with
        bitmap := fun i => if i < bitmapSize LEAF_DEGREE then b i else (s.leafAt p).bitmap i
        pNext := x }).persistLeaf p) := by
  have hbits := Logged.stores (s := s) hp
    ((List.range (bitmapSize LEAF_DEGREE)).map fun i => FieldStore.bitmap i (b i)) (by
      intro x hx
      obtain ⟨i, hi, rfl⟩ := List.mem_map.mp hx
      exact List.mem_range.mp hi)
  rw [LeafImage.foldl_bitmap, List.map_map] at hbits
  generalize hz : LeafImage.mk _ _ _ _ = z at hbits
  have hnext := Logged.stores (s := s.setLeaf p z) hp [.pNext x]
    (List.forall_mem_singleton.mpr trivial)
  rw [World.leafAt_setLeaf_self, World.setLeaf_setLeaf, ← hz] at hnext
  rw [← hz] at hbits
  exact hbits.append ((Logged.reads hlog).append (hnext.append (Logged.persistLeaf hp)))

/-- The old leaf is what `split` makes of `img`, also where the new leaf is the same. -/
theorem splitOld_eq (hp : Aligned p) (hq : Aligned q) :
    { (s.setLeaf q ((s.leafAt p).splitNew LEAF_DEGREE (s.leafAt q) midKey)).leafAt p with
      bitmap := fun i =>
        if i < bitmapSize LEAF_DEGREE then ~~~(s.leafAt p).newBitmap LEAF_DEGREE midKey i
        else
          ((s.setLeaf q ((s.leafAt p).splitNew LEAF_DEGREE (s.leafAt q) midKey)).leafAt p).bitmap i
      pNext := q } = (s.leafAt p).splitOld LEAF_DEGREE midKey q := by
  by_cases e : p = q
  · subst e
    rw [World.leafAt_setLeaf_self]
    simp only [LeafImage.splitNew, LeafImage.splitOld, ite_self, LeafImage.mk.injEq, and_true]
    funext i
    split_ifs <;> rfl
  · rw [World.leafAt_setLeaf_of_ne _ hq hp e]
    rfl

theorem splitNew_logged (hp : Aligned p) (hq : Aligned q) :
    Logged s
      (LeafNode.findSplitKeyLog p ++
        ((List.range (LEAF_DEGREE * 2)).flatMap (LeafNode.moveLog p q img midKey) ++
          (LeafNode.bitmapLog q (img.newBitmap LEAF_DEGREE midKey) ++
            ([.read (.field p .pNext)] ++ [.write q (.pNext img.pNext), .persist (.leaf q)]))))
      ((s.setLeaf q (img.splitNew LEAF_DEGREE (s.leafAt q) midKey)).persistLeaf q) := by
  have hkeys : Logged s (LeafNode.findSplitKeyLog p) s := Logged.reads (findSplitKeyLog_reads hp)
  have hmoves :
      Logged s ((List.range (LEAF_DEGREE * 2)).flatMap (LeafNode.moveLog p q img midKey)) _ :=
    moves_logged hp hq fun _ => List.mem_range.mp
  rw [LeafImage.foldl_moveSlot] at hmoves
  generalize hz : LeafImage.mk _ _ _ _ = z at hmoves
  have htail := bitmapNext_logged (s := s.setLeaf q z) hq
    (img.newBitmap LEAF_DEGREE midKey) img.pNext
    (List.forall_mem_singleton.mpr ⟨⟨hp, trivial⟩, trivial⟩ :
      ∀ a ∈ [Access.read (.field p .pNext)], a.Valid ∧ a.IsRead)
  rw [World.leafAt_setLeaf_self, World.setLeaf_setLeaf, ← hz] at htail
  rw [← hz] at hmoves
  exact hkeys.append (hmoves.append htail)

theorem splitBytes_logged (hp : Aligned p) (hq : Aligned q) :
    Logged s (LeafNode.splitBytesLog p q (s.leafAt p))
      ((((s.setLeaf q ((s.leafAt p).splitNew LEAF_DEGREE (s.leafAt q)
          ((s.leafAt p).findSplitKey LEAF_DEGREE))).persistLeaf q).setLeaf p
        ((s.leafAt p).splitOld LEAF_DEGREE ((s.leafAt p).findSplitKey LEAF_DEGREE) q)).persistLeaf
        p) := by
  generalize hmid : (s.leafAt p).findSplitKey LEAF_DEGREE = midKey
  have hnew := @splitNew_logged s p q (s.leafAt p) midKey hp hq
  have hold := bitmapNext_logged
    (s := (s.setLeaf q ((s.leafAt p).splitNew LEAF_DEGREE (s.leafAt q) midKey)).persistLeaf q) hp
    (fun i => ~~~(s.leafAt p).newBitmap LEAF_DEGREE midKey i) q
    (fun a ha => absurd ha List.not_mem_nil : ∀ a ∈ ([] : List Access), a.Valid ∧ a.IsRead)
  have himg := @splitOld_eq s p q midKey hp hq
  have h := hnew.append hold
  unfold LeafNode.splitBytesLog
  rw [← himg, hmid]
  simp only [List.append_assoc, List.nil_append, List.cons_append] at h ⊢
  exact h

theorem split_logged (h : Objects s) {nc : Option (Key × PPointer)}
    (hs : LeafNode.split sys p s = some (nc, s')) : Logged s (LeafNode.splitLog sys p s) s' ∧
    Objects s' := by
  simp only [LeafNode.split, Option.bind_eq_bind, Option.bind_eq_some_iff] at hs
  obtain ⟨nd, hn, hs⟩ := hs
  unfold LeafNode.splitLog
  rw [hn]
  dsimp only
  split_ifs at hs ⊢
  · obtain ⟨-, rfl⟩ := Prod.mk.inj (Option.some.inj hs)
    exact ⟨Logged.nil, h⟩
  · have hcreate := @create_logged s sys
    have hobj : Objects (LeafNode.create sys s).2 := create_objects h
    cases hc : LeafNode.create sys s with
    | mk r s1 =>
      rw [hc] at hs hcreate hobj
      cases r with
      | none => cases hs
      | some q =>
        simp only [Option.bind_eq_some_iff] at hs
        obtain ⟨s2, h2, s3, h3, s4, h4, h5⟩ := hs
        obtain ⟨-, rfl⟩ := Prod.mk.inj (Option.some.inj h5)
        have hbytes := splitBytes_logged (s := s1) (h.aligned hn)
          (aligned_of_exist (create_exist hc))
        generalize hb : World.persistLeaf _ p = b at h2 hbytes
        have hb1 : Objects b := by
          rw [← hb]
          exact hobj.of_nodes rfl (Nat.le_refl _)
        -- the objects are not in the files
        have hkeep : Objects s4 ∧ s4.groups = b.groups := by
          refine linkAfter_keeps (I := fun z => Objects z ∧ z.groups = b.groups)
            (fun hz hm => ?_) ?_ h4
          · refine ⟨hz.1.modifyNode hm, ?_⟩
            obtain ⟨nd, -, rfl⟩ := modifyNode_eq hm
            exact hz.2
          · refine ⟨(hb1.modifyNode h2).modifyNode h3, ?_⟩
            obtain ⟨nd, -, rfl⟩ := modifyNode_eq h3
            obtain ⟨nd, -, rfl⟩ := modifyNode_eq h2
            rfl
        exact ⟨(hcreate.append hbytes).congr hkeep.2, hkeep.1⟩

theorem insert_logged (h : Objects s) {nc : Option (Key × PPointer)}
    (hi : LeafNode.insert env sys p k v s = some (nc, s')) :
    Logged s (LeafNode.insertLog env sys p k v s) s' ∧ Objects s' := by
  simp only [LeafNode.insert, Option.bind_eq_bind, Option.bind_eq_some_iff] at hi
  obtain ⟨s1, h1, nd1, hn1, hi⟩ := hi
  cases hn : s.nodes p with
  | none => rw [LeafNode.insertNonFull, hn] at h1; cases h1
  | some nd =>
    obtain ⟨hfill, hobj⟩ := insertNonFull_logged h hn h1
    unfold LeafNode.insertLog
    rw [h1]
    dsimp only
    rw [hn1]
    dsimp only
    split_ifs at hi ⊢
    · obtain ⟨hsplit, hobj'⟩ := split_logged hobj hi
      exact ⟨hfill.append hsplit, hobj'⟩
    · obtain ⟨-, rfl⟩ := Prod.mk.inj (Option.some.inj hi)
      exact ⟨hfill.append Logged.nil, hobj⟩

end Split

/-! ## Removing -/

section Remove

variable {env : Env} {sys : Sys} {s s' : World} {p q : PPointer} {nd : LeafNode} {k : Key}

/-- The store to `pNext` of the leaf before. -/
theorem unlinkPrev_logged (h : Objects s) (hp : Aligned p) {f : LeafNode → LeafNode} {s1 : World}
    (hm : s.modifyNode q f = some s1) :
    Logged s [.read (.field p .pNext), .write q (.pNext (s.leafAt p).pNext), .persist (.leaf q)]
      ((s1.setLeaf q { s1.leafAt q with pNext := (s1.leafAt p).pNext }).persistLeaf q) ∧
    Objects ((s1.setLeaf q { s1.leafAt q with pNext := (s1.leafAt p).pNext }).persistLeaf q) := by
  have hobj := h.modifyNode hm
  obtain ⟨nq, hnq, rfl⟩ := modifyNode_eq hm
  have hq := h.aligned hnq
  have hread : Logged s [.read (.field p .pNext)] s := Logged.read ⟨hp, trivial⟩
  have hstore := (Logged.stores (s := s) hq [.pNext (s.leafAt p).pNext]
    (List.forall_mem_singleton.mpr trivial)).append (Logged.persistLeaf hq)
  exact ⟨(hread.append hstore).congr rfl, hobj.of_nodes rfl (Nat.le_refl _)⟩

theorem unlink_logged (h : Objects s) (hu : LeafNode.unlink p s = some s') :
    Logged s (LeafNode.unlinkLog p s) s' ∧ Objects s' := by
  have hnode : ∀ {z z' : World} {r : PPointer} {f : LeafNode → LeafNode} {log : List Access},
      Logged s log z ∧ Objects z → z.modifyNode r f = some z' → Logged s log z' ∧ Objects z' := by
    intro z z' r f log hz hm
    refine ⟨hz.1.congr ?_, hz.2.modifyNode hm⟩
    obtain ⟨nd, -, rfl⟩ := modifyNode_eq hm
    rfl
  simp only [LeafNode.unlink, Option.bind_eq_bind, Option.bind_eq_some_iff] at hu
  obtain ⟨nd, hn, hu⟩ := hu
  unfold LeafNode.unlinkLog
  rw [hn, Option.bind_some]
  cases hq : nd.prev with
  | none =>
    rw [hq] at hu
    cases hr : nd.next with
    | none =>
      rw [hr] at hu
      obtain rfl := Option.some.inj hu
      exact ⟨Logged.nil, h⟩
    | some r =>
      rw [hr] at hu
      exact hnode ⟨Logged.nil, h⟩ hu
  | some q =>
    rw [hq] at hu
    simp only [Option.bind_some, Option.bind_eq_some_iff] at hu
    obtain ⟨s1, h1, hu⟩ := hu
    have hprev := unlinkPrev_logged h (h.aligned hn) h1
    cases hr : nd.next with
    | none =>
      rw [hr] at hu
      obtain rfl := Option.some.inj hu
      exact hprev
    | some r =>
      rw [hr] at hu
      exact hnode hprev hu

theorem remove_logged (h : Objects s) {b rm del : Bool}
    (hr : LeafNode.remove env sys p k b s = some (rm, del, s')) :
    Logged s (LeafNode.removeLog env sys p k s) s' ∧ Objects s' := by
  cases hn : s.nodes p with
  | none => rw [LeafNode.remove, hn] at hr; cases hr
  | some nd =>
    have hp := h.aligned hn
    unfold LeafNode.removeLog
    cases hf : (s.leafAt p).findSlot env.keyHash LEAF_DEGREE k with
    | none =>
      rw [remove_eq_none hn hf] at hr
      obtain ⟨-, hr⟩ := Prod.mk.inj (Option.some.inj hr)
      obtain ⟨-, rfl⟩ := Prod.mk.inj hr
      exact ⟨(findSlot_logged hp).append Logged.nil, h⟩
    | some i =>
      rw [remove_eq_some hn hf] at hr
      rw [hn]
      dsimp only
      have hbyte := byte_valid hp (findSlot_lt hf)
      have hobj : Objects (s.clearSlot p nd i) := edit_objects h (h.exist hn)
      have hclear : Logged s
          ([.read (.field p (.bitmap (i / 8)))] ++ ([FieldStore.bitmap (i / 8)
            ((s.leafAt p).bitmap (i / 8) &&& ~~~LeafImage.bitMask i)].map (Access.write p) ++
              [.persist (.leaf p)])) (s.clearSlot p nd i) :=
        (Logged.read hbyte).append (edit_logged hp _ (List.forall_mem_singleton.mpr hbyte.2) rfl)
      split_ifs at hr ⊢
      · obtain ⟨s2, h2, h3⟩ := Option.map_eq_some_iff.mp hr
        obtain ⟨-, h3⟩ := Prod.mk.inj h3
        obtain ⟨-, rfl⟩ := Prod.mk.inj h3
        obtain ⟨hunlink, hobj'⟩ := unlink_logged (freeLeaf_objects hobj) h2
        exact ⟨(findSlot_logged hp).append (hclear.append (freeLeaf_logged.append hunlink)), hobj'⟩
      · obtain ⟨-, hr⟩ := Prod.mk.inj (Option.some.inj hr)
        obtain ⟨-, rfl⟩ := Prod.mk.inj hr
        exact ⟨(findSlot_logged hp).append (hclear.append Logged.nil), hobj⟩

end Remove

/-! ## Runs -/

theorem step_logged {env : Env} {op : Sys × LeafOp} {s s' : World} (h : Objects s)
    (hs : LeafOp.step env op s = some s') : Logged s (LeafOp.log env op s) s' ∧ Objects s' := by
  obtain ⟨sys, op⟩ := op
  -- the methods that only read
  have hread : ∀ {p : PPointer} {log : List Access}, (s.nodes p).map (fun _ => s) = some s' →
      (Aligned p → ∀ a ∈ log, a.Valid ∧ a.IsRead) → Logged s log s' ∧ Objects s' := by
    intro p log hmap hlog
    obtain ⟨nd, hn, rfl⟩ := Option.map_eq_some_iff.mp hmap
    exact ⟨Logged.reads (hlog (h.aligned hn)), h⟩
  cases op with
  | create =>
    obtain rfl := Option.some.inj hs
    exact ⟨create_logged, create_objects h⟩
  | load p =>
    simp only [LeafOp.step] at hs
    split_ifs at hs with he
    obtain rfl := Option.some.inj hs
    exact ⟨load_logged he, h.setNode he _⟩
  | insertNonFull p k v =>
    have hi : LeafNode.insertNonFull env p k v s = some s' := hs
    cases hn : s.nodes p with
    | none => rw [LeafNode.insertNonFull, hn] at hi; cases hi
    | some nd => exact insertNonFull_logged h hn hi
  | split p =>
    obtain ⟨⟨nc, s1⟩, hr, rfl⟩ := Option.map_eq_some_iff.mp hs
    exact split_logged h hr
  | insert p k v =>
    obtain ⟨⟨nc, s1⟩, hr, rfl⟩ := Option.map_eq_some_iff.mp hs
    exact insert_logged h hr
  | update p k v =>
    obtain ⟨⟨r, s1⟩, hr, rfl⟩ := Option.map_eq_some_iff.mp hs
    cases hn : s.nodes p with
    | none => rw [LeafNode.update, hn] at hr; cases hr
    | some nd => exact update_logged h hn hr
  | remove p k =>
    obtain ⟨⟨rm, del, s1⟩, hr, rfl⟩ := Option.map_eq_some_iff.mp hs
    exact remove_logged h hr
  | find p k =>
    obtain ⟨v, hr, rfl⟩ := Option.map_eq_some_iff.mp hs
    cases hn : s.nodes p with
    | none => rw [LeafNode.find, hn] at hr; cases hr
    | some nd => exact ⟨find_logged (h.aligned hn), h⟩
  | findSplitKey p => exact hread hs findSplitKeyLog_reads
  | printNode p => exact hread hs printNodeLog_reads
  | findFirstZero p => exact hread hs fun hp => findFirstZeroLog_reads hp fun _ => List.mem_range.mp
  | getBit p i => exact hread hs getBitLog_reads
  | getKey p i =>
    simp only [LeafOp.step] at hs
    split_ifs at hs with hi
    exact hread hs fun hp => List.forall_mem_singleton.mpr ⟨⟨hp, hi⟩, trivial⟩
  | getValue p i =>
    simp only [LeafOp.step] at hs
    split_ifs at hs with hi
    exact hread hs fun hp => List.forall_mem_singleton.mpr ⟨⟨hp, hi⟩, trivial⟩
  | persist p =>
    obtain ⟨nd, hn, rfl⟩ := Option.map_eq_some_iff.mp hs
    exact ⟨Logged.persistLeaf (h.aligned hn), h.of_nodes rfl (Nat.le_refl _)⟩
  | destroy p =>
    obtain ⟨nd, hn, rfl⟩ := Option.map_eq_some_iff.mp hs
    have hpersist : Objects (s.persistLeaf p) := h.of_nodes rfl (Nat.le_refl _)
    exact ⟨(Logged.persistLeaf (h.aligned hn)).congr rfl, hpersist.setNode (h.exist hn) _⟩

theorem run_logged {env : Env} (ops : List (Sys × LeafOp)) :
    ∀ {s s' : World}, Objects s → run (LeafOp.step env) ops s = some s' →
      Logged s (LeafOp.runLog env ops s) s' := by
  induction ops with
  | nil =>
    intro s s' _ hrun
    obtain rfl := Option.some.inj hrun
    exact Logged.nil
  | cons op ops ih =>
    intro s s' h hrun
    obtain ⟨s1, h1, h2⟩ := Option.bind_eq_some_iff.mp hrun
    obtain ⟨hlog, hobj⟩ := step_logged h h1
    rw [LeafOp.runLog, h1]
    exact hlog.append (ih hobj h2)

/-- The accesses `log` keep to the layout of the leaf-group files, where `b` stands for
    any bytes that they find there. -/
structure LayoutSafe (ctor : PPointer → Ctor) (log : List Access) : Prop where
  /-- Every access lies inside the mapped length. -/
  inside : ∀ a ∈ log, a.start ctor + a.size ≤ mappedLen
  /-- It does not matter which constructor computed the pointers into a leaf. -/
  constructors : ∀ a ∈ log, ∀ ctor' b, a.start ctor' = a.start ctor ∧ a.exec ctor' b = a.exec ctor b
  /-- A store to a field of a leaf changes nothing else. -/
  write : ∀ p x, Access.write p x ∈ log → Aligned p ∧ x.field.Valid ∧ ∀ b,
    FieldFrame ctor p x.field b.mem ((Access.write p x).exec ctor b).mem ∧
    ((Access.write p x).exec ctor b).file = b.file
  /-- An update of a header changes no byte of a leaf. -/
  header : ∀ a ∈ log, a.HeaderUpdate → ∀ b q, Aligned q →
    (Range.leaf q).bytes (a.exec ctor b).mem = (Range.leaf q).bytes b.mem ∧
    (Range.leaf q).bytes (a.exec ctor b).file = (Range.leaf q).bytes b.file
  /-- What `freeLeaf` reads is the value last stored to `pNext`. -/
  oldNext : ∀ pre suf, log = pre ++ suf → ∀ b p, Aligned p →
    (Access.execAll ctor pre b).oldNext p = (lastNext p pre).elim (b.oldNext p) PPointer.word64
  /-- What `getPNext` reads is inside the file, and the value last stored to `pNext` before
      the last persist. -/
  getPNext : ∀ pre a mid suf, log = pre ++ a :: mid ++ suf → ∀ b p, Aligned p → a.Persists p →
    (∀ a' ∈ mid, ¬ a'.Persists p) →
    (LEAF_DEGREE * 2 + 7) / 8 + p.offset + 16 ≤ mappedLen ∧
    (Access.execAll ctor (pre ++ a :: mid) b).getPNext p =
      (lastNext p pre).elim (b.oldNext p) PPointer.word64

theorem layoutSafe_of_valid {ctor : PPointer → Ctor} {log : List Access} (h : ∀ a ∈ log, a.Valid) :
    LayoutSafe ctor log where
  inside a ha := Access.fits (h a ha)
  constructors a _ ctor' b := ⟨Access.start_eq ctor ctor' a, Access.exec_eq ctor ctor' a b⟩
  write p x hx := ⟨(h _ hx).1, (h _ hx).2, fun _ => ⟨Access.exec_write_frame (h _ hx), rfl⟩⟩
  header a ha hu _ _ hq := Access.exec_header_frame (h a ha) hu hq
  oldNext pre suf hlog b p hp := by
    subst hlog
    exact Access.execAll_oldNext (List.forall_mem_append.mp h).1 hp
  getPNext pre a mid suf hlog b p hp ha hmid := by
    subst hlog
    refine ⟨?_, Access.execAll_getPNext (List.forall_mem_append.mp h).1 hp ha hmid⟩
    rw [Nat.add_comm _ p.offset]
    exact @Access.fits ctor (.readOldNext p) hp

/-- Every run of operations on any leaves, from any storage: its accesses keep to the
    layout of the files, bytes that hold the leaf groups before it hold them after it, and
    `freeLeaf` then reads the `pNext` of every leaf. -/
theorem run_layout (env : Env) (sys : Sys) (d : Storage) (ctor : PPointer → Ctor)
    (ops : List (Sys × LeafOp)) (s' : World)
    (hrun : run (LeafOp.step env) ops (construct env sys d) = some s') :
    LayoutSafe ctor (LeafOp.runLog env ops (construct env sys d)) ∧
    ∀ b : Bytes, b.Hold ctor (construct env sys d).groups →
      (Access.execAll ctor (LeafOp.runLog env ops (construct env sys d)) b).Hold ctor s'.groups ∧
      ∀ p, Aligned p →
        (Access.execAll ctor (LeafOp.runLog env ops (construct env sys d)) b).oldNext p =
          (s'.leafAt p).pNext.word64 := by
  have hlog := run_logged ops (construct_objects env sys d) hrun
  refine ⟨layoutSafe_of_valid hlog.valid, fun b hb => ?_⟩
  have hhold := Access.execAll_holds hlog.valid hb
  rw [hlog.groups] at hhold
  refine ⟨hhold, fun p hp => ?_⟩
  rw [Bytes.oldNext_eq]
  exact hhold.mem.nextOf_eq hp

/-- A new leaf and an insertion into it, on an empty directory. -/
theorem run_layout_insert :
    ∃ s', run (LeafOp.step Env.flat)
        [(Sys.ok, .create), (Sys.ok, .insert (groupPointer 1 15) 5 50)]
        (construct Env.flat Sys.ok Storage.empty) = some s' ∧
      LayoutSafe (fun _ => .create) (LeafOp.runLog Env.flat
        [(Sys.ok, .create), (Sys.ok, .insert (groupPointer 1 15) 5 50)]
        (construct Env.flat Sys.ok Storage.empty)) ∧
      (Access.execAll (fun _ => .create) (LeafOp.runLog Env.flat
        [(Sys.ok, .create), (Sys.ok, .insert (groupPointer 1 15) 5 50)]
        (construct Env.flat Sys.ok Storage.empty)) ⟨fun _ _ => 0, fun _ _ => 0⟩).Hold
          (fun _ => .create) s'.groups := by
  have hsome : (run (LeafOp.step Env.flat)
      [(Sys.ok, .create), (Sys.ok, .insert (groupPointer 1 15) 5 50)]
      (construct Env.flat Sys.ok Storage.empty)).isSome = true := by
    decide +kernel
  obtain ⟨s', hs'⟩ := Option.isSome_iff_exists.mp hsome
  obtain ⟨hsafe, hhold⟩ := run_layout Env.flat Sys.ok Storage.empty (fun _ => .create) _ s' hs'
  exact ⟨s', hs', hsafe, (hhold _ ⟨holdGroups_zero, holdGroups_zero⟩).1⟩

end FPTreeDB
