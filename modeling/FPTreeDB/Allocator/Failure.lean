import FPTreeDB.Allocator.Run

/-!
# System calls that fail inside the allocator

`newLeafGroup` maps a file and opens `free_list`, `getLeaf` may call it, and
`freeLeaf` opens `free_list`. A call that returns `false` because one of these
system calls failed should leave the allocator as it was.

Results:

* `attempt_same`: what an allocator call does depends on the groups below
  `maxFileId` only. A failed `newLeafGroup` leaves at most a cleared file above
  them, so the calls that follow cannot see it (`attempts_same`).
* `failureAtomic_iff`: a failure has no effect except in one place. `freeLeaf`
  reports that `free_list` could not be opened, goes on and returns `true`.
* `freeLeaf_without_freeList`: the first leaf of a new data directory is freed that way.
-/

namespace FPTreeDB

open PAllocator

namespace AllocOp

/-- One call, where `sys` holds the outcomes of its system calls. -/
def attempt (sys : Sys) : AllocOp → World → AllocResult × World
  | getLeaf, s => (.leaf (PAllocator.getLeaf sys s).1, (PAllocator.getLeaf sys s).2)
  | newLeafGroup, s =>
    (.flag (PAllocator.newLeafGroup sys s).1, (PAllocator.newLeafGroup sys s).2)
  | freeLeaf p, s => (.flag (PAllocator.freeLeaf sys p s).1, (PAllocator.freeLeaf sys p s).2)
  | store p img, s => (.flag true, if s.ifLeafUsed p then (s.setLeaf p img).persistLeaf p else s)

/-- Calls in a row, each with its own outcomes: their results and the last state. -/
def attempts : List (Sys × AllocOp) → World → List AllocResult × World
  | [], s => ([], s)
  | (sys, op) :: calls, s =>
    ((op.attempt sys s).1 :: (attempts calls (op.attempt sys s).2).1,
      (attempts calls (op.attempt sys s).2).2)

/-- `pmem_map_file` or the opening of `free_list` fails while the call runs. -/
def Fails (sys : Sys) : AllocOp → World → Prop
  | getLeaf, s => s.freeNum = 0 ∧ (sys.mapFile = false ∨ sys.openFreeList = false)
  | newLeafGroup, _ => sys.mapFile = false ∨ sys.openFreeList = false
  | freeLeaf p, s => s.ifLeafUsed p = true ∧ sys.openFreeList = false
  | store _ _, _ => False

end AllocOp

/-- The call returned `false`. -/
def AllocResult.failed : AllocResult → Prop
  | leaf p => p = none
  | flag b => b = false

/-- The allocator is as before: its members, the headers of the existing groups
    and the two files it keeps. -/
structure Unchanged (s s' : World) : Prop where
  freeList : s'.freeList = s.freeList
  freeNum : s'.freeNum = s.freeNum
  maxFileId : s'.maxFileId = s.maxFileId
  startLeaf : s'.startLeaf = s.startLeaf
  usedNum : ∀ f < s.maxFileId, (s'.mem f).usedNum = (s.mem f).usedNum
  bitmap : ∀ f < s.maxFileId, (s'.mem f).bitmap = (s.mem f).bitmap
  catalog : s'.disk.catalog = s.disk.catalog
  freeFile : s'.disk.freeList = s.disk.freeList

/-- A failure during the call has no effect: the call returns `false`, the
    allocator is unchanged, and whatever calls follow give the results that they
    would have given without it. -/
def FailureAtomic (sys : Sys) (op : AllocOp) (s : World) : Prop :=
  op.Fails sys s →
    (op.attempt sys s).1.failed ∧ Unchanged s (op.attempt sys s).2 ∧
    ∀ calls, (AllocOp.attempts calls (op.attempt sys s).2).1 = (AllocOp.attempts calls s).1 ∧
      Unchanged (AllocOp.attempts calls s).2 (AllocOp.attempts calls (op.attempt sys s).2).2

/-! ## States that differ above the existing groups only -/

/-- `t` is `s` except for the contents of files that are not leaf groups yet. -/
structure SameAllocator (s t : World) : Prop where
  rest : t = { s with mem := t.mem }
  mem : ∀ f < s.maxFileId, t.mem f = s.mem f

namespace SameAllocator

variable {s t : World} {p : PPointer} {f : ℕ} (h : SameAllocator s t)

theorem refl (s : World) : SameAllocator s s := ⟨rfl, fun _ _ => rfl⟩

include h

theorem maxFileId : t.maxFileId = s.maxFileId := by rw [h.rest]

theorem freeNum : t.freeNum = s.freeNum := by rw [h.rest]

theorem freeList : t.freeList = s.freeList := by rw [h.rest]

theorem startLeaf : t.startLeaf = s.startLeaf := by rw [h.rest]

theorem disk : t.disk = s.disk := by rw [h.rest]

theorem unchanged : Unchanged s t where
  freeList := h.freeList
  freeNum := h.freeNum
  maxFileId := h.maxFileId
  startLeaf := h.startLeaf
  usedNum f hf := by rw [h.mem f hf]
  bitmap f hf := by rw [h.mem f hf]
  catalog := by rw [h.disk]
  freeFile := by rw [h.disk]

theorem exist : t.ifLeafExist p = s.ifLeafExist p := World.ifLeafExist_congr h.maxFileId

theorem group (hp : s.ifLeafExist p = true) : t.mem p.fileId = s.mem p.fileId :=
  h.mem p.fileId (ifLeafExist_iff.mp hp).2.1

theorem leafAt (hp : s.ifLeafExist p = true) : t.leafAt p = s.leafAt p := by
  unfold World.leafAt
  rw [h.group hp]

theorem used : t.ifLeafUsed p = s.ifLeafUsed p := by
  by_cases hp : s.ifLeafExist p = true
  · apply World.ifLeafUsed_congr h.maxFileId
    unfold World.headerByte
    rw [h.group hp]
  · simp [World.ifLeafUsed, h.exist, hp]

theorem setMembers (start : PPointer) (l : List PPointer) (m : ℕ) :
    SameAllocator { s with startLeaf := start, freeList := l, freeNum := m }
      { t with startLeaf := start, freeList := l, freeNum := m } :=
  ⟨by rw [h.rest], h.mem⟩

theorem setLeaf (p : PPointer) (img : LeafImage) :
    SameAllocator (s.setLeaf p img) (t.setLeaf p img) where
  rest := by
    unfold World.setLeaf
    rw [h.rest]
  mem f hf := by
    show Function.update t.mem p.fileId _ f = Function.update s.mem p.fileId _ f
    by_cases hfp : f = p.fileId
    · subst hfp
      rw [Function.update_self, Function.update_self, h.mem _ hf]
    · rw [Function.update_of_ne hfp, Function.update_of_ne hfp, h.mem f hf]

theorem setHeader (u : ℕ) (b : ℕ → Byte) :
    SameAllocator (s.setHeader f u b) (t.setHeader f u b) where
  rest := by
    unfold World.setHeader
    rw [h.rest]
  mem f' hf := by
    show Function.update t.mem f _ f' = Function.update s.mem f _ f'
    by_cases hff : f' = f
    · subst hff
      rw [Function.update_self, Function.update_self, h.mem _ hf]
    · rw [Function.update_of_ne hff, Function.update_of_ne hff, h.mem f' hf]

theorem commit (d : Storage) : SameAllocator (s.commit d) (t.commit d) :=
  ⟨by unfold World.commit; rw [h.rest], h.mem⟩

theorem persistLeaf (hp : s.ifLeafExist p = true) :
    SameAllocator (s.persistLeaf p) (t.persistLeaf p) := by
  unfold World.persistLeaf
  rw [h.disk, h.leafAt hp]
  exact h.commit _

theorem persistHeader (hf : f < s.maxFileId) :
    SameAllocator (s.persistHeader f) (t.persistHeader f) := by
  unfold World.persistHeader
  rw [h.disk, h.mem f hf]
  exact h.commit _

theorem rewriteFreeList (pos : ℕ) (ps : List PPointer) :
    SameAllocator (rewriteFreeList s pos ps) (rewriteFreeList t pos ps) := by
  unfold PAllocator.rewriteFreeList
  rw [h.disk]
  exact (h.commit _).commit _

theorem persistCatalog (sys : Sys) :
    SameAllocator (persistCatalog sys s) (persistCatalog sys t) := by
  unfold PAllocator.persistCatalog
  rw [h.disk, h.maxFileId, h.freeNum, h.startLeaf]
  split_ifs with hc
  · exact h.commit _
  · exact h

end SameAllocator

/-! ## The calls on such states -/

section Calls

variable {s t : World} {p : PPointer} (sys : Sys) (h : SameAllocator s t)

include h

theorem claimLeaf_same (hp : s.ifLeafExist p = true) :
    SameAllocator (claimLeaf p s) (claimLeaf p t) := by
  have hf : p.fileId < s.maxFileId := (ifLeafExist_iff.mp hp).2.1
  unfold claimLeaf
  rw [h.used, h.startLeaf, h.freeList, h.freeNum]
  have h1 :=
    ((h.setMembers (if s.ifLeafUsed s.startLeaf then s.startLeaf else p) s.freeList.dropLast
      (s.freeNum - 1)).setLeaf p LeafImage.zero).persistLeaf hp
  dsimp only
  rw [h1.mem p.fileId hf]
  exact (h1.setHeader _ _).persistHeader hf

theorem takeLeaf_same :
    (takeLeaf t).1 = (takeLeaf s).1 ∧ SameAllocator (takeLeaf s).2 (takeLeaf t).2 := by
  unfold takeLeaf
  rw [h.freeList]
  cases hl : s.freeList.getLast? with
  | none => exact ⟨rfl, h⟩
  | some p =>
    dsimp only
    rw [h.exist]
    by_cases hp : s.ifLeafExist p = true
    · simp only [hp, Bool.not_true, Bool.false_eq_true, if_false, true_and]
      exact claimLeaf_same h hp
    · simp only [Bool.eq_false_iff.mpr hp, Bool.not_false, if_true, true_and]
      exact h

/-- The new group is cleared before it is used, so what its file held does not
    matter. -/
theorem newLeafGroup_same : (newLeafGroup sys t).1 = (newLeafGroup sys s).1 ∧
    SameAllocator (newLeafGroup sys s).2 (newLeafGroup sys t).2 := by
  obtain ⟨m, rfl⟩ : ∃ m, t = { s with mem := m } := ⟨t.mem, h.rest⟩
  have hmem : ∀ f, f ≠ s.maxFileId → f < s.maxFileId + 1 →
      Function.update m s.maxFileId LeafGroup.zero f =
      Function.update s.mem s.maxFileId LeafGroup.zero f := by
    intro f hne hf
    rw [Function.update_of_ne hne, Function.update_of_ne hne]
    exact h.mem f (by omega)
  unfold newLeafGroup
  by_cases hm : sys.mapFile = true
  · by_cases ho : sys.openFreeList = true
    · simp only [hm, ho, Bool.not_true, Bool.false_eq_true, if_false, true_and]
      refine ⟨?_, fun f hf => ?_⟩
      · unfold World.persistGroup World.commit rewriteFreeList
        dsimp only [World.commit]
        rw [Function.update_self, Function.update_self]
      · by_cases hf' : f = s.maxFileId
        · subst hf'
          show Function.update m s.maxFileId _ _ = Function.update s.mem s.maxFileId _ _
          rw [Function.update_self, Function.update_self]
        · exact hmem f hf' hf
    · simp only [hm, Bool.eq_false_iff.mpr ho, Bool.not_true, Bool.not_false, Bool.false_eq_true,
        if_false, if_true, true_and]
      exact ⟨rfl, fun f hf => hmem f (Nat.ne_of_lt hf) (Nat.lt_succ_of_lt hf)⟩
  · simp only [Bool.eq_false_iff.mpr hm, Bool.not_false, if_true, true_and]
    exact h

theorem getLeaf_same : (getLeaf sys t).1 = (getLeaf sys s).1 ∧
    SameAllocator (getLeaf sys s).2 (getLeaf sys t).2 := by
  unfold getLeaf
  rw [h.freeNum]
  by_cases h0 : s.freeNum = 0
  · rw [if_pos h0, if_pos h0]
    obtain ⟨hr, hs⟩ := newLeafGroup_same sys h
    generalize newLeafGroup sys s = x at hr hs ⊢
    generalize newLeafGroup sys t = y at hr hs ⊢
    obtain ⟨b, s1⟩ := x
    obtain ⟨b', t1⟩ := y
    obtain rfl : b' = b := hr
    cases b' with
    | false => exact ⟨rfl, hs⟩
    | true => exact takeLeaf_same hs
  · rw [if_neg h0, if_neg h0]
    exact takeLeaf_same h

theorem unlist_same (hp : s.ifLeafExist p = true) :
    SameAllocator (unlist sys p s) (unlist sys p t) := by
  unfold unlist
  rw [h.startLeaf, h.leafAt hp]
  have h1 : SameAllocator
      (if s.startLeaf = p then persistCatalog sys { s with startLeaf := (s.leafAt p).pNext } else s)
      (if s.startLeaf = p then persistCatalog sys
        { t with startLeaf := (s.leafAt p).pNext } else t) := by
    split_ifs with hstart
    · apply SameAllocator.persistCatalog
      exact ⟨by rw [h.rest], h.mem⟩
    · exact h
  dsimp only
  rw [h1.freeNum]
  by_cases ho : sys.openFreeList = true
  · rw [if_pos ho, if_pos ho]
    exact h1.rewriteFreeList _ _
  · rw [if_neg ho, if_neg ho]
    exact h1

theorem freeLeaf_same : (freeLeaf sys p t).1 = (freeLeaf sys p s).1 ∧
    SameAllocator (freeLeaf sys p s).2 (freeLeaf sys p t).2 := by
  by_cases hp : s.ifLeafUsed p = true
  · have hexist := (ifLeafUsed_iff.mp hp).1
    have hf : p.fileId < s.maxFileId := (ifLeafExist_iff.mp hexist).2.1
    rw [freeLeaf_of_used hp, freeLeaf_of_used (h.used.trans hp), releaseLeaf_eq, releaseLeaf_eq]
    refine ⟨rfl, ?_⟩
    have h1 := unlist_same sys h hexist
    have hmax : (unlist sys p s).maxFileId = s.maxFileId := (unlist_fields sys p s).2.1
    have h2 : SameAllocator
        { unlist sys p s with
          freeList := (unlist sys p s).freeList ++ [p], freeNum := (unlist sys p s).freeNum + 1 }
        { unlist sys p t with
          freeList := (unlist sys p t).freeList ++ [p],
          freeNum := (unlist sys p t).freeNum + 1 } := by
      rw [h1.freeList, h1.freeNum]
      exact ⟨by rw [h1.rest], h1.mem⟩
    rw [h1.mem p.fileId (hmax.symm ▸ hf)]
    exact (h2.setHeader _ _).persistHeader (hmax.symm ▸ hf)
  · rw [freeLeaf_of_not_used (Bool.eq_false_iff.mpr hp),
      freeLeaf_of_not_used (h.used.trans (Bool.eq_false_iff.mpr hp))]
    exact ⟨rfl, h⟩

/-- One call cannot tell the two states apart. -/
theorem attempt_same (op : AllocOp) : (op.attempt sys t).1 = (op.attempt sys s).1 ∧
    SameAllocator (op.attempt sys s).2 (op.attempt sys t).2 := by
  cases op with
  | getLeaf =>
    obtain ⟨hr, hs⟩ := getLeaf_same sys h
    exact ⟨congrArg AllocResult.leaf hr, hs⟩
  | newLeafGroup =>
    obtain ⟨hr, hs⟩ := newLeafGroup_same sys h
    exact ⟨congrArg AllocResult.flag hr, hs⟩
  | freeLeaf p =>
    obtain ⟨hr, hs⟩ := freeLeaf_same (p := p) sys h
    exact ⟨congrArg AllocResult.flag hr, hs⟩
  | store p img =>
    refine ⟨rfl, ?_⟩
    show SameAllocator (if s.ifLeafUsed p then _ else s) (if t.ifLeafUsed p then _ else t)
    rw [h.used]
    split_ifs with hp
    · exact (h.setLeaf p img).persistLeaf (ifLeafUsed_iff.mp hp).1
    · exact h

omit h in
/-- Nor can any number of them. -/
theorem attempts_same (calls : List (Sys × AllocOp)) : ∀ {s t : World}, SameAllocator s t →
    (AllocOp.attempts calls t).1 = (AllocOp.attempts calls s).1 ∧
      SameAllocator (AllocOp.attempts calls s).2 (AllocOp.attempts calls t).2 := by
  induction calls with
  | nil => exact fun h => ⟨rfl, h⟩
  | cons call calls ih =>
    intro s t h
    obtain ⟨sys, op⟩ := call
    obtain ⟨hr, hs⟩ := attempt_same sys h op
    obtain ⟨hrs, hss⟩ := ih hs
    exact ⟨congrArg₂ List.cons hr hrs, hss⟩

end Calls

/-! ## Failures -/

section Failures

variable {s : World} {sys : Sys}

/-- A `newLeafGroup` that fails has cleared the file of the group at most. -/
theorem newLeafGroup_fails (h : sys.mapFile = false ∨ sys.openFreeList = false) :
    (newLeafGroup sys s).1 = false ∧ SameAllocator s (newLeafGroup sys s).2 := by
  unfold newLeafGroup
  by_cases hm : sys.mapFile = true
  · have ho : sys.openFreeList = false := h.resolve_left (by simp [hm])
    simp only [hm, ho, Bool.not_true, Bool.not_false, Bool.false_eq_true, if_false,
      if_true, true_and]
    refine ⟨rfl, fun f hf => ?_⟩
    exact Function.update_of_ne (Nat.ne_of_lt hf) _ _
  · simp only [Bool.eq_false_iff.mpr hm, Bool.not_false, if_true, true_and]
    exact SameAllocator.refl s

theorem getLeaf_fails (h0 : s.freeNum = 0) (h : sys.mapFile = false ∨ sys.openFreeList = false) :
    (getLeaf sys s).1 = none ∧ SameAllocator s (getLeaf sys s).2 := by
  obtain ⟨hr, hs⟩ := newLeafGroup_fails (s := s) h
  unfold getLeaf
  rw [if_pos h0]
  generalize newLeafGroup sys s = x at hr hs ⊢
  obtain ⟨b, s1⟩ := x
  obtain rfl : b = false := hr
  exact ⟨rfl, hs⟩

/-- A call that fails and leaves the existing groups alone has no effect. -/
theorem failureAtomic_of_same {op : AllocOp}
    (h : op.Fails sys s → (op.attempt sys s).1.failed ∧ SameAllocator s (op.attempt sys s).2) :
    FailureAtomic sys op s := by
  intro hf
  obtain ⟨hr, hs⟩ := h hf
  refine ⟨hr, hs.unchanged, fun calls => ?_⟩
  obtain ⟨hrs, hss⟩ := attempts_same calls hs
  exact ⟨hrs, hss.unchanged⟩

end Failures

/-- A failing system call has no effect, except where `freeLeaf` goes on without
    `free_list`. -/
theorem failureAtomic_iff (sys : Sys) (op : AllocOp) (s : World) :
    FailureAtomic sys op s ↔
      ¬ ∃ p, op = .freeLeaf p ∧ s.ifLeafUsed p = true ∧ sys.openFreeList = false := by
  constructor
  · rintro h ⟨p, rfl, hp, ho⟩
    have hr : (freeLeaf sys p s).1 = false := (h ⟨hp, ho⟩).1
    rw [freeLeaf_of_used hp] at hr
    exact Bool.noConfusion hr
  · intro h
    apply failureAtomic_of_same
    intro hf
    cases op with
    | getLeaf => exact getLeaf_fails hf.1 hf.2
    | newLeafGroup => exact newLeafGroup_fails hf
    | freeLeaf p => exact absurd ⟨p, rfl, hf.1, hf.2⟩ h
    | store p img => exact hf.elim

/-- The first leaf of a new data directory is freed while `free_list` cannot be
    opened: the call returns `true` and the free list has grown. -/
theorem freeLeaf_without_freeList :
    let s := (getLeaf Sys.ok (construct Env.flat Sys.ok Storage.empty)).2
    let sys : Sys := ⟨true, false, true⟩
    s.ifLeafUsed (groupPointer 1 15) = true ∧ (freeLeaf sys (groupPointer 1 15) s).1 = true ∧
      (freeLeaf sys (groupPointer 1 15) s).2.freeNum = s.freeNum + 1 ∧
      ¬ FailureAtomic sys (.freeLeaf (groupPointer 1 15)) s := by
  intro s sys
  have hp : s.ifLeafUsed (groupPointer 1 15) = true := by decide +kernel
  refine ⟨hp, by rw [freeLeaf_of_used hp],
    by rw [freeLeaf_of_used hp, (releaseLeaf_spec _ _ _).freeNum], ?_⟩
  intro h
  have hr : (freeLeaf sys (groupPointer 1 15) s).1 = false := (h ⟨hp, rfl⟩).1
  rw [freeLeaf_of_used hp] at hr
  exact Bool.noConfusion hr

end FPTreeDB
