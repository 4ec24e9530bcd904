import FPTreeDB.Allocator.Run

/-!
# Restarting the allocator

`free_list` is written at entry `freeNum` by `newLeafGroup` and `freeLeaf`, and
popping never touches it. Both open the file with truncation, so a write at entry
`n > 0` leaves zeros in the entries before it: `FreeFile s n` says that the first
`n` entries on storage are null pointers and the rest are those of `freeList`.

* `run_freeFile`: `FreeFile` holds along every run, with `n` the value of
  `freeNum` at the last call that rewrote the file.
* `restart_agrees_iff`: a clean restart brings back the same allocator exactly
  when that value was 0, or when the free list is empty.
-/

namespace FPTreeDB

open PAllocator

/-- `~PAllocator` followed by the constructor on the files left behind. -/
def restart (env : Env) (s : World) : World := construct env Sys.ok (destruct Sys.ok s).disk

namespace AllocOp

/-- The results of a sequence of calls. -/
def results : List AllocOp → World → List AllocResult
  | [], _ => []
  | op :: ops, s => (op.exec s).1 :: results ops (op.exec s).2

/-- The call rewrites `free_list`. -/
def rewrites : AllocOp → World → Bool
  | getLeaf, s => s.freeNum = 0
  | newLeafGroup, _ => true
  | freeLeaf p, s => s.ifLeafUsed p
  | store _ _, _ => false

/-- The value of `freeNum` at the last call that rewrote `free_list`; `n` if no
    call did. -/
def lastRewrite : List AllocOp → ℕ → World → ℕ
  | [], n, _ => n
  | op :: ops, n, s => lastRewrite ops (if op.rewrites s then s.freeNum else n) (op.exec s).2

end AllocOp

/-- The allocator after a restart cannot be told from the one before it. -/
def RestartAgrees (env : Env) (s : World) : Prop :=
  (restart env s).maxFileId = s.maxFileId ∧ (restart env s).freeNum = s.freeNum ∧
  (restart env s).startLeaf = s.startLeaf ∧ (restart env s).freeList = s.freeList ∧
  ∀ later, AllocOp.results later (restart env s) = AllocOp.results later s

/-! ## The files -/

/-- The allocator's files: there is a catalog, and `free_list` has `n` null
    pointers followed by at least the entries of `freeList` from `n` on. -/
structure FreeFile (s : World) (n : ℕ) : Prop where
  catalog : s.disk.catalog.isSome
  file : ∃ rest, s.disk.freeList = some (List.replicate n PPointer.zero ++ rest) ∧
    s.freeList.drop n <+: rest ∧ s.freeList.length ≤ n + rest.length

theorem writeAt_nil (pos : ℕ) (ps : List PPointer) :
    writeAt [] pos ps = List.replicate pos PPointer.zero ++ ps := by
  simp [writeAt]

theorem freeFile_rewrite {s s' : World} {ps : List PPointer} (hc : s'.disk.catalog.isSome)
    (hf : s'.disk.freeList = some (writeAt [] s.freeNum ps)) (hl : s'.freeList = s.freeList ++ ps)
    (hn : s.freeNum = s.freeList.length) : FreeFile s' s.freeNum := by
  refine ⟨hc, ps, by rw [hf, writeAt_nil], ?_, ?_⟩
  · rw [hl, hn, List.drop_left']
    rfl
  · rw [hl, hn, List.length_append]

theorem FreeFile.pop {s s' : World} {n : ℕ} {p : PPointer} (h : FreeFile s n)
    (hd : s'.disk.catalog = s.disk.catalog) (hf : s'.disk.freeList = s.disk.freeList)
    (hl : s.freeList = s'.freeList ++ [p]) : FreeFile s' n := by
  obtain ⟨hc, rest, hr, hp, hlen⟩ := h
  refine ⟨by rw [hd]; exact hc, rest, by rw [hf]; exact hr, ?_, ?_⟩
  · refine List.IsPrefix.trans ?_ hp
    rw [hl]
    exact (List.prefix_append _ _).drop n
  · rw [hl, List.length_append] at hlen
    omega

theorem FreeFile.congr {s s' : World} {n : ℕ} (h : FreeFile s n)
    (hd : s'.disk.catalog = s.disk.catalog) (hf : s'.disk.freeList = s.disk.freeList)
    (hl : s'.freeList = s.freeList) : FreeFile s' n := by
  obtain ⟨hc, rest, hr, hp, hlen⟩ := h
  exact ⟨by rw [hd]; exact hc, rest, by rw [hf]; exact hr, by rw [hl]; exact hp,
    by rw [hl]; exact hlen⟩

theorem newLeafGroup_freeFile {s s' : World} (h : newLeafGroup Sys.ok s = (true, s'))
    (hc : s.disk.catalog.isSome) (hn : s.freeNum = s.freeList.length) : FreeFile s' s.freeNum := by
  obtain rfl : (newLeafGroup Sys.ok s).2 = s' := by rw [h]
  exact freeFile_rewrite hc rfl rfl hn

/-- Taking a leaf writes neither the catalog nor `free_list`. -/
theorem takeLeaf_files {s s' : World} {p : PPointer} (h : takeLeaf s = (some p, s')) :
    s'.disk.catalog = s.disk.catalog ∧ s'.disk.freeList = s.disk.freeList := by
  unfold takeLeaf at h
  split at h
  · simp at h
  · split_ifs at h
    · simp at h
    · simp only [Prod.mk.injEq] at h
      rw [← h.2]
      exact ⟨rfl, rfl⟩

theorem takeLeaf_freeFile {s s' : World} {n : ℕ} {p : PPointer} (h : takeLeaf s = (some p, s'))
    (hf : FreeFile s n) : FreeFile s' n :=
  hf.pop (takeLeaf_files h).1 (takeLeaf_files h).2 (takeLeaf_spec h).freeList

/-- `freeLeaf` leaves one entry in `free_list`, after null pointers. -/
theorem releaseLeaf_file (p : PPointer) (s : World) :
    (releaseLeaf Sys.ok p s).disk.freeList = some (writeAt [] s.freeNum [p]) := by
  rw [releaseLeaf_eq, unlist]
  simp only [Sys.ok_openFreeList, if_true]
  split_ifs <;> simp [World.persistHeader, World.setHeader, World.commit, Storage.setGroup,
    rewriteFreeList, persistCatalog]

theorem releaseLeaf_freeFile {s : World} (p : PPointer) (hc : s.disk.catalog.isSome)
    (hn : s.freeNum = s.freeList.length) : FreeFile (releaseLeaf Sys.ok p s) s.freeNum := by
  have hspec := releaseLeaf_spec Sys.ok p s
  refine freeFile_rewrite ?_ (releaseLeaf_file p s) hspec.freeList hn
  rw [releaseLeaf_eq, unlist]
  split_ifs <;> simp [World.persistHeader, World.setHeader, World.commit, Storage.setGroup,
    rewriteFreeList, persistCatalog, hc]

theorem construct_empty_freeFile (env : Env) : FreeFile (construct env Sys.ok Storage.empty) 0 :=
  ⟨rfl, [], rfl, List.prefix_rfl, le_rfl⟩

/-- One call: the file is rewritten at `freeNum`, or only popped. -/
theorem exec_freeFile (op : AllocOp) {s : World} {n : ℕ} (h : AllocInv s) (hf : FreeFile s n) :
    FreeFile (op.exec s).2 (if op.rewrites s then s.freeNum else n) := by
  cases op with
  | getLeaf =>
    obtain ⟨p, s', hg, -⟩ := h.getLeaf_ok
    simp only [AllocOp.exec, AllocOp.rewrites, hg, decide_eq_true_eq]
    unfold getLeaf at hg
    split_ifs at hg ⊢ with h0
    · obtain ⟨s1, h1, -⟩ := newLeafGroup_spec s
      rw [h1] at hg
      exact takeLeaf_freeFile hg (newLeafGroup_freeFile h1 hf.catalog h.freeNum_eq)
    · exact takeLeaf_freeFile hg hf
  | newLeafGroup =>
    obtain ⟨s1, h1, -⟩ := newLeafGroup_spec s
    simp only [AllocOp.exec, AllocOp.rewrites, h1, if_true]
    exact newLeafGroup_freeFile h1 hf.catalog h.freeNum_eq
  | freeLeaf p =>
    cases hp : s.ifLeafUsed p with
    | true =>
      simp only [AllocOp.exec, AllocOp.rewrites, freeLeaf_of_used hp, hp, if_true]
      exact releaseLeaf_freeFile p hf.catalog h.freeNum_eq
    | false =>
      simp only [AllocOp.exec, AllocOp.rewrites, freeLeaf_of_not_used hp, hp]
      exact hf
  | store p img =>
    simp only [AllocOp.exec, AllocOp.rewrites, Bool.false_eq_true, if_false]
    split_ifs
    · exact hf.congr rfl rfl rfl
    · exact hf

theorem exec_synced (op : AllocOp) {s : World} (h : AllocInv s) (hs : Synced s) :
    Synced (op.exec s).2 := by
  cases op with
  | getLeaf =>
    obtain ⟨p, s', hg, -⟩ := h.getLeaf_ok
    simp only [AllocOp.exec, hg]
    exact (getLeaf_spec h.toAllocOk hg).synced hs
  | newLeafGroup =>
    obtain ⟨s1, h1, hg⟩ := newLeafGroup_spec s
    simp only [AllocOp.exec, h1]
    exact hg.synced hs
  | freeLeaf p =>
    simp only [AllocOp.exec, freeLeaf]
    split_ifs
    · exact hs
    · exact (releaseLeaf_spec Sys.ok p s).synced hs
  | store p img =>
    simp only [AllocOp.exec]
    split_ifs
    · exact hs.setLeaf_persistLeaf img
    · exact hs

/-- Along a run, the leading null pointers of `free_list` are as many as there
    were entries when it was last rewritten. -/
theorem run_freeFile (ops : List AllocOp) {s : World} {n : ℕ} (h : AllocInv s) (hf : FreeFile s n)
    (hs : Synced s) :
    FreeFile (AllocOp.run ops s) (AllocOp.lastRewrite ops n s) ∧ Synced (AllocOp.run ops s) := by
  induction ops generalizing s n with
  | nil => exact ⟨hf, hs⟩
  | cons op ops ih => exact ih (exec_allocInv op h) (exec_freeFile op h hf) (exec_synced op h hs)

/-! ## The restart -/

theorem readEntries_eq_take {m : ℕ} : ∀ {pt : PPointer} {file : List PPointer}, m ≤ file.length →
    readEntries m pt file = file.take m := by
  induction m with
  | zero => intro pt file _; simp [readEntries]
  | succ m ih =>
    intro pt file h
    cases file with
    | nil => simp at h
    | cons q file => rw [readEntries, List.take_succ_cons, ih (by simpa using h)]

/-- `~PAllocator` writes the catalog and leaves the other files as they are. -/
theorem destruct_disk {s : World} (hs : Synced s) :
    (destruct Sys.ok s).disk =
      { s.disk with catalog := some ⟨s.maxFileId, s.freeNum, s.startLeaf⟩ } := by
  have hgroup : ∀ (l : List ℕ) (s : World), Synced s →
      (l.foldl World.persistGroup s).disk = s.disk := by
    intro l
    induction l with
    | nil => intro s _; rfl
    | cons f l ih =>
      intro s hs
      have hd : (s.persistGroup f).disk = s.disk := by
        unfold Synced at hs
        simp [World.persistGroup, Storage.setGroup, World.commit, ← hs]
      rw [List.foldl_cons, ih _ (by unfold Synced; rw [hd]; exact hs), hd]
  unfold destruct
  rw [hgroup _ _ (by simpa [Synced] using hs)]
  rfl

/-- The allocator that reads `free_list` when it has enough entries. -/
theorem restart_eq {env : Env} {s : World} {file : List PPointer} (hs : Synced s)
    (hf : s.disk.freeList = some file) (hlen : s.freeNum ≤ file.length) :
    restart env s =
      { startLeaf := s.startLeaf, maxFileId := s.maxFileId, freeNum := s.freeNum,
        freeList := file.take s.freeNum, mem := s.mem,
        disk := { s.disk with catalog := some ⟨s.maxFileId, s.freeNum, s.startLeaf⟩ },
        trace := [], nodes := fun _ => none } := by
  rw [restart, destruct_disk hs, construct]
  simp only [hf]
  rw [readEntries_eq_take hlen, hs]

theorem restart_fields {env : Env} {s : World} {n : ℕ} (hs : Synced s) (hf : FreeFile s n)
    (hn : s.freeNum = s.freeList.length) :
    restart env s =
      { startLeaf := s.startLeaf, maxFileId := s.maxFileId, freeNum := s.freeNum,
        freeList := List.replicate (min n s.freeNum) PPointer.zero ++ s.freeList.drop n,
        mem := s.mem,
        disk := { s.disk with catalog := some ⟨s.maxFileId, s.freeNum, s.startLeaf⟩ },
        trace := [], nodes := fun _ => none } := by
  obtain ⟨hc, rest, hr, hp, hlen⟩ := hf
  have hfile : (List.replicate n PPointer.zero ++ rest).take s.freeNum =
      List.replicate (min n s.freeNum) PPointer.zero ++ s.freeList.drop n := by
    rw [List.take_append]
    congr 1
    · simp [Nat.min_comm]
    · rw [List.prefix_iff_eq_take.mp hp, hn]
      simp
  rw [restart_eq hs hr (by rw [hn]; simpa using hlen), hfile]

section Reopened

variable {env : Env} {s : World} {n : ℕ}

theorem restart_synced (hs : Synced s) (hf : FreeFile s n) (hn : s.freeNum = s.freeList.length) :
    Synced (restart env s) := by
  rw [restart_fields hs hf hn]
  exact hs

/-- A restart leaves a consistent allocator, with null pointers in the place of the free
    leaves that `free_list` has lost. -/
theorem restart_allocOk (hs : Synced s) (hf : FreeFile s n) (h : AllocOk s) :
    AllocOk (restart env s) := by
  rw [restart_fields hs hf h.freeNum_eq]
  refine ⟨h.one_le, ?_, fun p hp hz => ?_, ?_, h.byte⟩
  · have := h.freeNum_eq
    simp
    omega
  · rcases List.mem_append.mp hp with hp | hp
    · exact absurd (List.eq_of_mem_replicate hp) hz
    · exact h.free p (List.mem_of_mem_drop hp) hz
  · rw [List.filter_append, List.filter_replicate_of_neg (by simp), List.nil_append]
    exact h.nodup.sublist ((List.drop_sublist n _).filter _)

/-- `free_list` is as it was. -/
theorem restart_freeFile (hs : Synced s) (hf : FreeFile s n) (hn : s.freeNum = s.freeList.length) :
    FreeFile (restart env s) n := by
  rw [restart_fields hs hf hn]
  obtain ⟨-, rest, hr, hp, hlen⟩ := hf
  refine ⟨rfl, rest, hr, ?_, ?_⟩
  · refine List.IsPrefix.trans ?_ hp
    rw [List.drop_append, List.drop_replicate, Nat.sub_eq_zero_of_le (Nat.min_le_left _ _),
      List.replicate_zero, List.nil_append]
    by_cases hle : n ≤ s.freeNum
    · simp [hle]
    · rw [List.drop_eq_nil_of_le (show s.freeList.length ≤ n by omega)]
      simp
  · simp
    omega

/-- Nothing is lost when `free_list` was last written by a call that found it empty. -/
theorem restart_allocInv (hs : Synced s) (hf : FreeFile s 0) (h : AllocInv s) :
    AllocInv (restart env s) := by
  rw [restart_fields hs hf h.freeNum_eq]
  exact h.congr ⟨rfl, rfl, by simp, fun _ => rfl, fun _ => rfl⟩

end Reopened

/-! ## Equal allocators behave alike -/

/-- What the allocator's results depend on. -/
def World.core (s : World) : World :=
  { s with disk := Storage.empty, trace := [], nodes := fun _ => none }

theorem newLeafGroup_core (s : World) :
    (newLeafGroup Sys.ok s.core).2.core = (newLeafGroup Sys.ok s).2.core := rfl

theorem claimLeaf_core (p : PPointer) (s : World) :
    (claimLeaf p s.core).core = (claimLeaf p s).core := rfl

theorem takeLeaf_core (s : World) :
    (takeLeaf s.core).1 = (takeLeaf s).1 ∧ (takeLeaf s.core).2.core = (takeLeaf s).2.core := by
  unfold takeLeaf
  rw [show s.core.freeList = s.freeList from rfl]
  cases s.freeList.getLast? with
  | none => exact ⟨rfl, rfl⟩
  | some p =>
    simp only [show s.core.ifLeafExist p = s.ifLeafExist p from rfl]
    split_ifs
    · exact ⟨rfl, rfl⟩
    · exact ⟨rfl, claimLeaf_core p s⟩

theorem takeLeaf_congr {s s' : World} (h : s.core = s'.core) :
    (takeLeaf s).1 = (takeLeaf s').1 ∧ (takeLeaf s).2.core = (takeLeaf s').2.core := by
  obtain ⟨h1, h2⟩ := takeLeaf_core s
  obtain ⟨h1', h2'⟩ := takeLeaf_core s'
  rw [← h1, ← h2, ← h1', ← h2', h]
  exact ⟨rfl, rfl⟩

theorem releaseLeaf_core (p : PPointer) (s : World) :
    (releaseLeaf Sys.ok p s.core).core = (releaseLeaf Sys.ok p s).core := by
  have h := releaseLeaf_spec Sys.ok p s
  have h' := releaseLeaf_spec Sys.ok p s.core
  simp only [World.core, World.mk.injEq, and_self, and_true]
  refine ⟨?_, ?_, ?_, ?_, ?_⟩
  · exact h'.startLeaf.trans h.startLeaf.symm
  · exact h'.maxFileId.trans h.maxFileId.symm
  · exact h'.freeNum.trans h.freeNum.symm
  · exact h'.freeList.trans h.freeList.symm
  · exact h'.mem.trans h.mem.symm

theorem exec_core (op : AllocOp) (s : World) :
    (op.exec s.core).1 = (op.exec s).1 ∧ (op.exec s.core).2.core = (op.exec s).2.core := by
  cases op with
  | getLeaf =>
    simp only [AllocOp.exec, getLeaf, show s.core.freeNum = s.freeNum from rfl,
      AllocResult.leaf.injEq]
    split_ifs
    · obtain ⟨s1, h1, -⟩ := newLeafGroup_spec s
      obtain ⟨s2, h2, -⟩ := newLeafGroup_spec s.core
      have hcore := newLeafGroup_core s
      rw [h1, h2] at hcore
      rw [h1, h2]
      exact takeLeaf_congr hcore
    · exact takeLeaf_core s
  | newLeafGroup => exact ⟨rfl, newLeafGroup_core s⟩
  | freeLeaf p =>
    simp only [AllocOp.exec, freeLeaf, show s.core.ifLeafUsed p = s.ifLeafUsed p from rfl]
    split_ifs
    · exact ⟨rfl, rfl⟩
    · exact ⟨rfl, releaseLeaf_core p s⟩
  | store p img =>
    simp only [AllocOp.exec, show s.core.ifLeafUsed p = s.ifLeafUsed p from rfl]
    split_ifs
    · exact ⟨trivial, rfl⟩
    · exact ⟨trivial, rfl⟩

theorem results_congr (later : List AllocOp) : ∀ {s s' : World}, s.core = s'.core →
    AllocOp.results later s = AllocOp.results later s' := by
  induction later with
  | nil => intro s s' _; rfl
  | cons op later ih =>
    intro s s' h
    obtain ⟨h1, h2⟩ := exec_core op s
    obtain ⟨h1', h2'⟩ := exec_core op s'
    have hres : (op.exec s).1 = (op.exec s').1 := by rw [← h1, ← h1', h]
    have hnext : (op.exec s).2.core = (op.exec s').2.core := by rw [← h2, ← h2', h]
    rw [AllocOp.results, AllocOp.results, hres, ih hnext]

/-! ## Main theorem -/

theorem replicate_append_drop_eq {l : List PPointer} {n : ℕ} (hl : PPointer.zero ∉ l) :
    List.replicate (min n l.length) PPointer.zero ++ l.drop n = l ↔ l.length = 0 ∨ n = 0 := by
  constructor
  · intro h
    by_contra hne
    have hpos : 0 < min n l.length := by omega
    refine hl ?_
    rw [← h]
    refine List.mem_append_left _ (List.mem_replicate.mpr ⟨by omega, rfl⟩)
  · rintro (h | rfl)
    · simp [List.length_eq_zero_iff.mp h]
    · simp

/-- After a run of allocator calls from an empty data directory, a clean restart
    gives the same allocator if and only if the free list is empty or `free_list`
    was last rewritten by a call that found it empty (as the constructor does). -/
theorem restart_agrees_iff (env : Env) (ops : List AllocOp) :
    RestartAgrees env (AllocOp.run ops (construct env Sys.ok Storage.empty)) ↔
      (AllocOp.run ops (construct env Sys.ok Storage.empty)).freeNum = 0 ∨
      AllocOp.lastRewrite ops 0 (construct env Sys.ok Storage.empty) = 0 := by
  have hinv := run_allocInv ops (construct_empty_allocInv env)
  obtain ⟨hfile, hsync⟩ := run_freeFile ops (construct_empty_allocInv env)
    (construct_empty_freeFile env) rfl
  have hr := @restart_fields env _ _ hsync hfile hinv.freeNum_eq
  have h1 := congrArg World.maxFileId hr
  have h2 := congrArg World.freeNum hr
  have h3 := congrArg World.startLeaf hr
  have h4 := congrArg World.mem hr
  have h5 := congrArg World.freeList hr
  dsimp only at h1 h2 h3 h4 h5
  rw [hinv.freeNum_eq] at h5
  rw [hinv.freeNum_eq, ← replicate_append_drop_eq hinv.zero_not_mem, ← h5]
  unfold RestartAgrees
  constructor
  · exact fun h => h.2.2.2.1
  · intro h
    refine ⟨h1, h2, h3, h, fun later => results_congr later ?_⟩
    simp only [World.core, World.mk.injEq]
    exact ⟨h3, h1, h2, h, h4, trivial, trivial, trivial⟩

/-- Two leaves taken from the first group, the second one freed: the write at
    entry 14 truncates `free_list`, and the restart reads 14 null pointers. -/
theorem restart_after_free_differs :
    ¬ ∀ (env : Env) (ops : List AllocOp),
      RestartAgrees env (AllocOp.run ops (construct env Sys.ok Storage.empty)) := by
  intro h
  have hlist := (h Env.flat [.getLeaf, .getLeaf, .freeLeaf (groupPointer 1 14)]).2.2.2.1
  revert hlist
  decide

end FPTreeDB
