import FPTreeDB.Allocator.Restart

/-!
# An unclean stop of the allocator

The constructor reads `freeNum` entries of `free_list`, with `freeNum` from the
catalog, and repeats the last one when the file is shorter. Neither file is written when
a leaf is handed out, and only the headers of the leaf groups say which leaves are in use.

* `ListedBut lost`: an entry of `free_list` below `freeNum` is the one in memory, and an
  entry from `freeNum` on is a leaf in use or one of the leaves `lost`, unless it is null.
* `session_listed`: without lost leaves this holds along every run, clean restarts included.
* `Covered.listed`: what the constructor makes of the files after a stop.
* `crash_free_iff`: when no leaf in use is on the free list that is read back, and none
  is handed out from then on.
-/

namespace FPTreeDB

open PAllocator

/-- A call of the allocator, or `~PAllocator` followed by the constructor. -/
inductive SessionOp where
  | call (op : AllocOp)
  | reopen

namespace SessionOp

def exec (env : Env) : SessionOp → World → World
  | call op, s => (op.exec s).2
  | reopen, s => restart env s

/-- Execute calls and clean restarts in order. -/
def run (env : Env) (ops : List SessionOp) (s : World) : World :=
  ops.foldl (fun s op => op.exec env s) s

end SessionOp

/-- The constructor on the files as they are, without `~PAllocator`. -/
def crash (env : Env) (s : World) : World := construct env Sys.ok s.disk

/-- No leaf on the free list is in use. -/
def NoLiveListed (s : World) : Prop := ∀ p ∈ s.freeList, s.ifLeafExist p = true → s.headerByte p = 0

instance (s : World) : Decidable (NoLiveListed s) :=
  inferInstanceAs (Decidable (∀ p ∈ s.freeList, s.ifLeafExist p = true → s.headerByte p = 0))

/-- No `getLeaf` hands out a leaf in use, whatever calls and clean restarts come before. -/
def NoLiveHandedOut (env : Env) (s : World) : Prop :=
  ∀ (later : List SessionOp) (p : PPointer),
    (getLeaf Sys.ok (SessionOp.run env later s)).1 = some p →
      (SessionOp.run env later s).ifLeafUsed p = false

/-- The constructor would find all the entries of `free_list` it reads, each null or below
    the allocator's `freeNum`. -/
def Covered (s : World) : Prop :=
  ∀ c ∈ s.disk.catalog, ∀ file ∈ s.disk.freeList, c.freeNum ≤ file.length ∧
    ∀ i < c.freeNum, ∀ p ∈ file[i]?, p = PPointer.zero ∨ i < s.freeNum

/-! ## The entries of `free_list` -/

/-- Entry `i` of `free_list` is null, or the leaf at `i` of the free list, or a leaf
    that was taken from there, or lost. -/
def Entry (lost : PPointer → Prop) (s : World) (i : ℕ) (p : PPointer) : Prop :=
  p = PPointer.zero ∨ (i < s.freeNum ∧ s.freeList[i]? = some p) ∨
    (s.freeNum ≤ i ∧ (s.ifLeafUsed p = true ∨ lost p))

/-- The allocator and its files. -/
structure ListedBut (lost : PPointer → Prop) (s : World) : Prop where
  ok : AllocOk s
  synced : Synced s
  catalog : s.disk.catalog.isSome
  file : ∃ file, s.disk.freeList = some file ∧ s.freeNum ≤ file.length ∧
    (∀ i p, file[i]? = some p → Entry lost s i p) ∧ (∀ p ∈ file.getLast?, p ≠ PPointer.zero) ∧
    ∀ c ∈ s.disk.catalog, 0 < c.freeNum → file ≠ []

/-- Every free leaf in `free_list` is on the free list. -/
abbrev Listed (s : World) : Prop := ListedBut (fun _ => False) s

section Steps

variable {lost : PPointer → Prop} {s s' : World} {p : PPointer}

/-- The allocator is consistent when its entries are among those of a consistent one, each
    at its place. -/
theorem AllocOk.of_entries (h : AllocOk s) (hm : s'.maxFileId = s.maxFileId) (hmem : s'.mem = s.mem)
    (hn : s'.freeNum = s'.freeList.length)
    (hget : ∀ (i : ℕ) (p : PPointer), s'.freeList[i]? = some p → p ≠ PPointer.zero →
      s.freeList[i]? = some p) : AllocOk s' := by
  have hexist : ∀ p, s'.ifLeafExist p = s.ifLeafExist p := fun p => World.ifLeafExist_congr hm
  have hbyte : ∀ p, s'.headerByte p = s.headerByte p := fun p => by
    rw [World.headerByte, World.headerByte, hmem]
  refine ⟨by rw [hm]; exact h.one_le, hn, fun p hp hz => ?_, ?_, fun p hp => ?_⟩
  · obtain ⟨i, hi⟩ := List.getElem?_of_mem hp
    rw [hexist, hbyte]
    exact h.free p (List.mem_of_getElem? (hget i p hi hz)) hz
  · rw [List.nodup_iff_pairwise_ne, List.pairwise_filter, List.pairwise_iff_getElem]
    intro i j hi hj hij hi0 hj0
    have hold := h.nodup
    rw [List.nodup_iff_pairwise_ne, List.pairwise_filter, List.pairwise_iff_getElem] at hold
    obtain ⟨hi', hie⟩ := List.getElem?_eq_some_iff.mp
      (hget i _ (List.getElem?_eq_getElem hi) (by simpa using hi0))
    obtain ⟨hj', hje⟩ := List.getElem?_eq_some_iff.mp
      (hget j _ (List.getElem?_eq_getElem hj) (by simpa using hj0))
    rw [← hie, ← hje]
    exact hold i j hi' hj' hij (by rw [hie]; exact hi0) (by rw [hje]; exact hj0)
  · rw [hbyte]
    exact h.byte p (hexist p ▸ hp)

/-- `free_list` was rewritten with the entries `ps` at `freeNum`. -/
theorem listed_rewrite {ps : List PPointer} (hok : AllocOk s) (hok' : AllocOk s')
    (hsync : Synced s') (hc : s'.disk.catalog.isSome)
    (hf : s'.disk.freeList = some (writeAt [] s.freeNum ps)) (hl : s'.freeList = s.freeList ++ ps)
    (hne : ps ≠ []) (hz : PPointer.zero ∉ ps) : ListedBut lost s' := by
  have hn : s'.freeNum = s.freeNum + ps.length := by
    rw [hok'.freeNum_eq, hl, List.length_append, hok.freeNum_eq]
  rw [writeAt_nil] at hf
  refine ⟨hok', hsync, hc, _, hf, by simp [hn], fun i p hi => ?_, fun p hp => ?_,
    fun _ _ _ => by simp [hne]⟩
  · rw [List.getElem?_append, List.length_replicate] at hi
    split_ifs at hi with hlt
    · rw [List.getElem?_replicate, if_pos hlt, Option.some.injEq] at hi
      exact Or.inl hi.symm
    · have hlen := (List.getElem?_eq_some_iff.mp hi).1
      refine Or.inr (Or.inl ⟨by omega, ?_⟩)
      rw [hl, List.getElem?_append_right (by rw [← hok.freeNum_eq]; omega), ← hok.freeNum_eq]
      exact hi
  · rw [List.getLast?_append_of_ne_nil _ hne] at hp
    exact fun hp0 => hz (hp0 ▸ List.mem_of_getLast? hp)

theorem ListedBut.congr (h : ListedBut lost s) (hs : SameHeads s s') (hsync : Synced s')
    (hc : s'.disk.catalog = s.disk.catalog) (hf : s'.disk.freeList = s.disk.freeList) :
    ListedBut lost s' := by
  obtain ⟨file, hfile, hlen, hentry, hlast, hne⟩ := h.file
  refine ⟨hs.allocOk h.ok, hsync, by rw [hc]; exact h.catalog, file, by rw [hf]; exact hfile,
    by rw [hs.freeNum]; exact hlen, fun i p hi => ?_, hlast, by rw [hc]; exact hne⟩
  rw [Entry, hs.freeNum, hs.freeList, hs.used]
  exact hentry i p hi

/-- The last entry becomes a leaf in use. -/
theorem ListedBut.take (h : ListedBut lost s) (ht : takeLeaf s = (some p, s')) :
    ListedBut lost s' := by
  have hT := takeLeaf_spec ht
  obtain ⟨hc, hf⟩ := takeLeaf_files ht
  obtain ⟨file, hfile, hlen, hentry, hlast, hne⟩ := h.file
  have hn := h.ok.freeNum_eq
  have hlist := congrArg List.length hT.freeList
  rw [List.length_append, List.length_singleton] at hlist
  refine ⟨hT.allocOk h.ok, hT.synced h.synced, by rw [hc]; exact h.catalog, file,
    by rw [hf]; exact hfile, ?_,
    fun i q hi => ?_, hlast, by rw [hc]; exact hne⟩
  · rw [hT.freeNum]
    omega
  · rcases hentry i q hi with hz | ⟨hlt, hq⟩ | ⟨hle, hq⟩
    · exact Or.inl hz
    · rw [hT.freeList, List.getElem?_append] at hq
      refine Or.inr ?_
      rw [hT.freeNum]
      split_ifs at hq with hi'
      · exact Or.inl ⟨by omega, hq⟩
      · have hi0 : i - s'.freeList.length = 0 := by omega
        rw [hi0, List.getElem?_cons_zero, Option.some.injEq] at hq
        exact Or.inr ⟨by omega, Or.inl (hT.used_iff.mpr (Or.inl hq.symm))⟩
    · refine Or.inr (Or.inr ⟨by rw [hT.freeNum]; omega, ?_⟩)
      exact hq.imp_left fun hused => hT.used_iff.mpr (Or.inr hused)

theorem ListedBut.takeLeaf (h : ListedBut lost s) : ListedBut lost (takeLeaf s).2 := by
  cases ht : PAllocator.takeLeaf s with
  | mk r s' =>
    cases r with
    | some p => exact h.take ht
    | none =>
      unfold PAllocator.takeLeaf at ht
      split at ht
      · obtain ⟨-, rfl⟩ := Prod.mk.inj ht
        exact h
      · split_ifs at ht
        · obtain ⟨-, rfl⟩ := Prod.mk.inj ht
          exact h
        · cases (Prod.mk.inj ht).1

theorem ListedBut.newLeafGroup (h : ListedBut lost s) (hg : newLeafGroup Sys.ok s = (true, s')) :
    ListedBut lost s' := by
  obtain ⟨s1, h1, hG⟩ := newLeafGroup_spec s
  rw [h1, Prod.mk.injEq] at hg
  obtain ⟨-, rfl⟩ := hg
  have hfile : s1.disk.freeList = some (writeAt [] s.freeNum (groupPointers s.maxFileId)) ∧
      s1.disk.catalog = s.disk.catalog := by
    obtain rfl : (PAllocator.newLeafGroup Sys.ok s).2 = s1 := by rw [h1]
    exact ⟨rfl, rfl⟩
  refine listed_rewrite h.ok (hG.allocOk h.ok) (hG.synced h.synced)
    (by rw [hfile.2]; exact h.catalog) hfile.1 hG.freeList ?_ fun hz => ?_
  · rw [← List.length_pos_iff, length_groupPointers]
    decide
  · have hfid := (mem_groupPointers.mp hz).2
    have hone := h.ok.one_le
    simp only [PPointer.zero, ILLEGAL_FILE_ID] at hfid
    omega

theorem ListedBut.releaseLeaf (h : ListedBut lost s) (hp : s.ifLeafUsed p = true) :
    ListedBut lost (releaseLeaf Sys.ok p s) := by
  have hF := releaseLeaf_spec Sys.ok p s
  refine listed_rewrite h.ok (hF.allocOk h.ok hp) (hF.synced h.synced) ?_ ?_
    hF.freeList (by simp) ?_
  · exact (releaseLeaf_freeFile p h.catalog h.ok.freeNum_eq).catalog
  · exact releaseLeaf_file p s
  · rw [List.mem_singleton]
    exact (ne_zero_of_exist (ifLeafUsed_iff.mp hp).1).symm

/-- The free list that the constructor reads back after `~PAllocator`. -/
theorem restart_listed {env : Env} (h : ListedBut lost s) : ListedBut lost (restart env s) := by
  obtain ⟨file, hfile, hlen, hentry, hlast, -⟩ := h.file
  have hr := @restart_eq env s file h.synced hfile hlen
  have hused : ∀ p, (restart env s).ifLeafUsed p = s.ifLeafUsed p := fun p => by
    rw [hr]
    rfl
  have hok : AllocOk (restart env s) := by
    refine h.ok.of_entries (by rw [hr]) (by rw [hr]) (by rw [hr]; simp [hlen]) fun i p hi hp => ?_
    rw [hr] at hi
    dsimp only at hi
    rw [List.getElem?_take] at hi
    split_ifs at hi with hlt
    rcases hentry i p hi with hz | ⟨-, hq⟩ | ⟨hle, -⟩
    · exact absurd hz hp
    · exact hq
    · omega
  refine ⟨hok, ?_, ?_, file, ?_, ?_, ?_, hlast, ?_⟩
  · rw [hr]
    exact h.synced
  · rw [hr]
    rfl
  · rw [hr]
    exact hfile
  · rw [hr]
    exact hlen
  · intro i p hi
    rcases hentry i p hi with hz | ⟨hlt, -⟩ | ⟨hle, hq⟩
    · exact Or.inl hz
    · refine Or.inr (Or.inl ⟨by rw [hr]; exact hlt, ?_⟩)
      rw [hr]
      dsimp only
      rw [List.getElem?_take, if_pos hlt]
      exact hi
    · exact Or.inr (Or.inr ⟨by rw [hr]; exact hle, by rw [hused]; exact hq⟩)
  · rw [hr]
    intro c hc hpos hnil
    obtain rfl := Option.some.inj hc
    rw [hnil, List.length_nil] at hlen
    exact absurd hpos (not_lt.mpr hlen)

end Steps

/-! ## Runs -/

theorem SessionOp.exec_listed (env : Env) (op : SessionOp) {lost : PPointer → Prop} {s : World}
    (h : ListedBut lost s) : ListedBut lost (op.exec env s) := by
  cases op with
  | reopen => exact restart_listed h
  | call op =>
    cases op with
    | getLeaf =>
      show ListedBut lost (getLeaf Sys.ok s).2
      unfold getLeaf
      split_ifs
      · obtain ⟨s1, h1, -⟩ := newLeafGroup_spec s
        rw [h1]
        exact (h.newLeafGroup h1).takeLeaf
      · exact h.takeLeaf
    | newLeafGroup =>
      obtain ⟨s1, h1, -⟩ := newLeafGroup_spec s
      show ListedBut lost (PAllocator.newLeafGroup Sys.ok s).2
      rw [h1]
      exact h.newLeafGroup h1
    | freeLeaf p =>
      show ListedBut lost (freeLeaf Sys.ok p s).2
      cases hp : s.ifLeafUsed p with
      | true =>
        rw [freeLeaf_of_used hp]
        exact h.releaseLeaf hp
      | false =>
        rw [freeLeaf_of_not_used hp]
        exact h
    | store p img =>
      show ListedBut lost (if s.ifLeafUsed p then (s.setLeaf p img).persistLeaf p else s)
      split_ifs
      · exact h.congr ((SameHeads.setLeaf img).congr rfl rfl rfl rfl)
          (h.synced.setLeaf_persistLeaf img) rfl rfl
      · exact h

theorem run_listed (env : Env) (ops : List SessionOp) {lost : PPointer → Prop} {s : World}
    (h : ListedBut lost s) : ListedBut lost (SessionOp.run env ops s) := by
  induction ops generalizing s with
  | nil => exact h
  | cons op ops ih => exact ih (op.exec_listed env h)

theorem construct_empty_listed (env : Env) : Listed (construct env Sys.ok Storage.empty) := by
  refine ⟨(construct_empty_allocInv env).toAllocOk, rfl, rfl, [], rfl, le_rfl, by simp, by simp, ?_⟩
  intro c hc hpos
  obtain rfl := Option.some.inj hc
  exact absurd hpos (Nat.lt_irrefl 0)

/-- Every run of calls and clean restarts. -/
theorem session_listed (env : Env) (ops : List SessionOp) :
    Listed (SessionOp.run env ops (construct env Sys.ok Storage.empty)) :=
  run_listed env ops (construct_empty_listed env)

/-- `getLeaf` takes its leaf from the free leaves. -/
theorem ListedBut.noLiveHandedOut {env : Env} {lost : PPointer → Prop} {s : World}
    (h : ListedBut lost s) : NoLiveHandedOut env s := by
  intro later p hp
  have hok := (run_listed env later h).ok
  exact (getLeaf_spec hok (Prod.ext hp rfl)).not_used

/-! ## The stop -/

/-- The constructor repeats the last entry when the file is too short. -/
theorem readEntries_eq_append {m : ℕ} {q pt : PPointer} {file : List PPointer}
    (hlast : file.getLast? = some q) (hlen : file.length ≤ m) :
    readEntries m pt file = file ++ List.replicate (m - file.length) q := by
  have hnil : ∀ (m : ℕ) (pt : PPointer), readEntries m pt [] = List.replicate m pt := by
    intro m
    induction m with
    | zero => intro pt; rfl
    | succ m ih => intro pt; rw [readEntries, ih, List.replicate_succ]
  induction file generalizing m pt with
  | nil => simp at hlast
  | cons r file ih =>
    obtain ⟨m, rfl⟩ : ∃ n, m = n + 1 := ⟨m - 1, by simp at hlen; omega⟩
    rw [List.length_cons] at hlen
    rw [readEntries, List.length_cons, Nat.add_sub_add_right, List.cons_append]
    cases file with
    | nil =>
      obtain rfl := Option.some.inj hlast
      rw [hnil, List.length_nil, List.nil_append]
      rfl
    | cons r' file =>
      rw [List.getLast?_cons_cons] at hlast
      rw [ih hlast (by omega)]

section Crash

variable (env : Env) {s : World} {c : Catalog} {file : List PPointer}

/-- The allocator that the constructor makes of the files. -/
theorem crash_eq (hc : s.disk.catalog = some c) (hf : s.disk.freeList = some file) :
    crash env s =
      { startLeaf := c.startLeaf, maxFileId := c.maxFileId, freeNum := c.freeNum,
        freeList := readEntries c.freeNum env.junk file, mem := s.disk.groups, disk := s.disk,
        trace := [], nodes := fun _ => none } := by
  rw [crash, construct]
  simp only [hc, hf]

/-- With the current `maxFileId` in the catalog, the leaves and their headers are as before. -/
theorem crash_leaves (h : Listed s) (hc : s.disk.catalog = some c) (hm : c.maxFileId = s.maxFileId)
    (p : PPointer) : (crash env s).ifLeafExist p = s.ifLeafExist p ∧
      (crash env s).headerByte p = s.headerByte p := by
  obtain ⟨file, hfile, -⟩ := h.file
  rw [crash_eq env hc hfile]
  refine ⟨World.ifLeafExist_congr hm, ?_⟩
  rw [World.headerByte, World.headerByte]
  exact congrArg (fun mem => (mem p.fileId).bitmap (leafIndex p)) h.synced

/-- The constructor reads back entries of the free list and null pointers; free leaves
    beyond the catalog's `freeNum` are lost. -/
theorem Covered.listed (hcov : Covered s) (h : Listed s) (hc : s.disk.catalog = some c)
    (hm : c.maxFileId = s.maxFileId) : ListedBut (fun _ => True) (crash env s) := by
  obtain ⟨file, hfile, -, hentry, hlast, -⟩ := h.file
  obtain ⟨hlen, hbelow⟩ := hcov c hc file hfile
  have hcrash := crash_eq env hc hfile
  rw [readEntries_eq_take hlen] at hcrash
  have hok : AllocOk (crash env s) := by
    refine h.ok.of_entries (by rw [hcrash]; exact hm) (by rw [hcrash]; exact h.synced)
      (by rw [hcrash]; simp [hlen]) fun i p hi hp => ?_
    rw [hcrash] at hi
    dsimp only at hi
    rw [List.getElem?_take] at hi
    split_ifs at hi with hlt
    have hi' := (hbelow i hlt p hi).resolve_left hp
    rcases hentry i p hi with hz | ⟨-, hq⟩ | ⟨hle, -⟩
    · exact absurd hz hp
    · exact hq
    · omega
  rw [hcrash] at hok ⊢
  refine ⟨hok, rfl, by rw [hc]; rfl, file, hfile, hlen, fun i p hi => ?_, hlast,
    fun c' hc' hpos hnil => ?_⟩
  · by_cases hlt : i < c.freeNum
    · refine Or.inr (Or.inl ⟨hlt, ?_⟩)
      dsimp only
      rw [List.getElem?_take, if_pos hlt]
      exact hi
    · exact Or.inr (Or.inr ⟨not_lt.mp hlt, Or.inr trivial⟩)
  · obtain rfl := Option.some.inj (hc.symm.trans hc')
    rw [hnil, List.length_nil] at hlen
    omega

/-- A leaf that is listed twice in a row is handed out twice. -/
theorem getLeaf_twice {l : List PPointer} {q : PPointer} (hl : s.freeList = l ++ [q, q])
    (hn : s.freeNum = s.freeList.length) (hq : s.ifLeafExist q = true) :
    ∃ s', (AllocOp.getLeaf.exec s).2 = s' ∧ (getLeaf Sys.ok s').1 = some q ∧
      s'.ifLeafUsed q = true := by
  have hn' : s.freeNum = l.length + 2 := by simp [hn, hl]
  have htake := takeLeaf_of_getLast? (s := s) (p := q) (by simp [hl]) hq
  have hT := takeLeaf_spec htake
  refine ⟨claimLeaf q s, ?_, ?_, hT.used_iff.mpr (Or.inl rfl)⟩
  · rw [AllocOp.exec, getLeaf, if_neg (by omega), htake]
  · have hlast : (claimLeaf q s).freeList.getLast? = some q := by
      have hrest : (claimLeaf q s).freeList ++ [q] = (l ++ [q]) ++ [q] := by
        rw [← hT.freeList, hl, List.append_assoc]
        rfl
      rw [List.append_cancel_right hrest]
      simp
    rw [getLeaf, if_neg (by rw [hT.freeNum]; omega),
      takeLeaf_of_getLast? hlast (by rw [World.ifLeafExist_congr hT.maxFileId]; exact hq)]

/-- A `free_list` that is too short makes the constructor list a leaf twice. -/
theorem length_le_of_noLive (h : Listed s) (hc : s.disk.catalog = some c)
    (hm : c.maxFileId = s.maxFileId) (hf : s.disk.freeList = some file)
    (hhand : NoLiveHandedOut env (crash env s)) :
    c.freeNum ≤ file.length := by
  by_contra hshort
  obtain ⟨file', hfile, -, hentry, hlast, hne⟩ := h.file
  obtain rfl := Option.some.inj (hfile.symm.trans hf)
  have hne' := hne c hc (by omega)
  obtain ⟨q, hq⟩ : ∃ q, file'.getLast? = some q := ⟨_, List.getLast?_eq_some_getLast hne'⟩
  have hqe : s.ifLeafExist q = true := by
    have hget : file'[file'.length - 1]? = some q := by rw [← List.getLast?_eq_getElem?]; exact hq
    rcases hentry _ q hget with hz | ⟨-, hq'⟩ | ⟨-, hused | hlost⟩
    · exact absurd hz (hlast q hq)
    · exact (h.ok.free q (List.mem_of_getElem? hq') (hlast q hq)).1
    · exact (ifLeafUsed_iff.mp hused).1
    · exact hlost.elim
  have hcrash := crash_eq env hc hfile
  have hlist : (crash env s).freeList =
      (file'.dropLast ++ List.replicate (c.freeNum - file'.length - 1) q) ++ [q, q] := by
    obtain ⟨k, hk⟩ : ∃ k, c.freeNum - file'.length = k + 1 :=
      ⟨c.freeNum - file'.length - 1, by omega⟩
    have hrep : q :: List.replicate (k + 1) q = List.replicate k q ++ [q, q] := by
      rw [← List.replicate_succ]
      exact (@List.replicate_append_replicate k _ q 2).symm
    rw [hcrash]
    dsimp only
    rw [readEntries_eq_append hq (by omega), hk, Nat.add_sub_cancel, List.append_assoc, ← hrep]
    conv_lhs => rw [← List.dropLast_append_getLast? q hq]
    rw [List.append_assoc]
    rfl
  obtain ⟨s', hs', hget, hused⟩ := getLeaf_twice hlist
    (by rw [hcrash]; simp [readEntries_eq_append hq
      (show file'.length ≤ c.freeNum by omega)]; omega)
    (by rw [(crash_leaves env h hc hm q).1]; exact hqe)
  have hrun : SessionOp.run env [.call .getLeaf] (crash env s) = s' := hs'
  have hfree := hhand [.call .getLeaf] q (by rw [hrun]; exact hget)
  rw [hrun, hused] at hfree
  cases hfree

end Crash

/-- After a stop without `~PAllocator`, in any state where the catalog has the current
    `maxFileId`: no leaf in use is on the free list that the constructor reads, and none is
    handed out later, exactly when `free_list` has all the entries that the catalog
    announces and none of them between the allocator's `freeNum` and that of the catalog. -/
theorem crash_free_iff (env : Env) (ops : List SessionOp) (c : Catalog)
    (hc : (SessionOp.run env ops (construct env Sys.ok Storage.empty)).disk.catalog = some c)
    (hm : c.maxFileId = (SessionOp.run env ops (construct env Sys.ok Storage.empty)).maxFileId) :
    (NoLiveListed (crash env (SessionOp.run env ops (construct env Sys.ok Storage.empty))) ∧
      NoLiveHandedOut env
        (crash env (SessionOp.run env ops (construct env Sys.ok Storage.empty)))) ↔
      Covered (SessionOp.run env ops (construct env Sys.ok Storage.empty)) := by
  have h := session_listed env ops
  generalize SessionOp.run env ops (construct env Sys.ok Storage.empty) = s at *
  constructor
  · rintro ⟨hno, hhand⟩ c' hc' file hfile
    obtain rfl := Option.some.inj (hc.symm.trans hc')
    have hlen := length_le_of_noLive env h hc hm hfile hhand
    refine ⟨hlen, fun i hi p hp => ?_⟩
    obtain ⟨file', hfile', -, hentry, -⟩ := h.file
    obtain rfl := Option.some.inj (hfile.symm.trans hfile')
    rcases hentry i p hp with hz | ⟨hlt, -⟩ | ⟨-, hused | hlost⟩
    · exact Or.inl hz
    · exact Or.inr hlt
    · -- a leaf in use at a position that the constructor reads
      have hmem : p ∈ (crash env s).freeList := by
        rw [crash_eq env hc hfile, readEntries_eq_take hlen]
        exact List.mem_of_getElem? (by rw [List.getElem?_take, if_pos hi]; exact hp)
      obtain ⟨he, hb⟩ := ifLeafUsed_iff.mp hused
      obtain ⟨hexist, hbyte⟩ := crash_leaves env h hc hm p
      have hzero := hno p hmem (by rw [hexist]; exact he)
      rw [hbyte] at hzero
      exact absurd hzero hb
    · exact hlost.elim
  · intro hcov
    have hcrash := hcov.listed env h hc hm
    exact ⟨fun p hp he => (hcrash.ok.free p hp (ne_zero_of_exist he)).2, hcrash.noLiveHandedOut⟩

/-- `freeLeaf` left 14 entries in `free_list`, and the catalog announces 15: no leaf in use is
    listed, but the last one is listed twice. -/
example : let s := crash Env.flat (SessionOp.run Env.flat
      [.call .getLeaf, .reopen, .call .getLeaf, .call .getLeaf,
        .call (.freeLeaf (groupPointer 1 13))]
      (construct Env.flat Sys.ok Storage.empty))
    NoLiveListed s ∧ (getLeaf Sys.ok s).1 = some (groupPointer 1 13) ∧
      (getLeaf Sys.ok (getLeaf Sys.ok s).2).1 = some (groupPointer 1 13) := by
  decide +kernel

/-- One leaf was taken and the allocator closed and opened again. -/
theorem crash_free_reopened :
    NoLiveListed (crash Env.flat (SessionOp.run Env.flat [.call .getLeaf, .reopen]
      (construct Env.flat Sys.ok Storage.empty))) ∧
    NoLiveHandedOut Env.flat (crash Env.flat (SessionOp.run Env.flat [.call .getLeaf, .reopen]
      (construct Env.flat Sys.ok Storage.empty))) := by
  refine (crash_free_iff Env.flat [.call .getLeaf, .reopen] ⟨2, 15, groupPointer 1 15⟩
    rfl rfl).mpr ?_
  intro c hc file hf
  obtain rfl := Option.some.inj hc
  obtain rfl := Option.some.inj hf
  exact ⟨by decide, fun i hi p _ => Or.inr hi⟩

/-- The leaf taken after the restart is still listed in `free_list`. -/
theorem crash_after_getLeaf_live :
    ¬ ∀ (env : Env) (ops : List SessionOp) (c : Catalog),
      (SessionOp.run env ops (construct env Sys.ok Storage.empty)).disk.catalog = some c →
      c.maxFileId = (SessionOp.run env ops (construct env Sys.ok Storage.empty)).maxFileId →
      c.startLeaf = (SessionOp.run env ops (construct env Sys.ok Storage.empty)).startLeaf →
      NoLiveListed (crash env (SessionOp.run env ops (construct env Sys.ok Storage.empty))) ∧
      NoLiveHandedOut env
        (crash env (SessionOp.run env ops (construct env Sys.ok Storage.empty))) := by
  intro h
  have hlive :=
    (h Env.flat [.call .getLeaf, .reopen, .call .getLeaf] ⟨2, 15, groupPointer 1 15⟩ rfl rfl
      (by decide +kernel)).1
  exact absurd hlive (by decide +kernel)

end FPTreeDB
