import FPTreeDB.Lib.Runs
import FPTreeDB.Model.Files
import FPTreeDB.Allocator.Restart
import FPTreeDB.Allocator.Failure

/-!
# The files of the allocator hold what the allocator reads back

The methods of `PAllocator` on the bytes of the catalog and of `free_list`, against the
model in which the catalog is a record and `free_list` a list of pointers.

* `files_persistCatalog`, `files_newLeafGroup`, `files_freeLeaf`: what is written.
* `openFiles_files`: what the constructor reads.
* `byteRun_refines`: any run of calls, clean restarts and crashes between two calls.
-/

namespace FPTreeDB

open ByteStore ByteFile PAllocator Runs

/-- `| maxFileId | freeNum | treeStartLeaf |`. -/
def Catalog.bytes (c : Catalog) : List Byte :=
  word c.maxFileId ++ word c.freeNum ++ c.startLeaf.bytes

/-- The bytes of the two files of a storage. -/
def Storage.files (d : Storage) : ByteDir where
  catalog := d.catalog.map Catalog.bytes
  freeList := d.freeList.map fun l => l.flatMap PPointer.bytes

/-- The number is a `uint64_t`. -/
def PPointer.IsWord (p : PPointer) : Prop := p.fileId < 2 ^ 64 ∧ p.offset < 2 ^ 64

/-- The numbers in the two files are `uint64_t`. -/
structure Storage.IsWord (d : Storage) : Prop where
  catalog : ∀ c ∈ d.catalog, c.maxFileId < 2 ^ 64 ∧ c.freeNum < 2 ^ 64 ∧ c.startLeaf.IsWord
  freeList : ∀ l ∈ d.freeList, ∀ p ∈ l, p.IsWord

instance (p : PPointer) : Decidable p.IsWord := inferInstanceAs (Decidable (_ ∧ _))

instance (d : Storage) : Decidable d.IsWord :=
  decidable_of_iff ((∀ c ∈ d.catalog, c.maxFileId < 2 ^ 64 ∧ c.freeNum < 2 ^ 64 ∧
    c.startLeaf.IsWord) ∧
    ∀ l ∈ d.freeList, ∀ p ∈ l, p.IsWord) ⟨fun h => ⟨h.1, h.2⟩, fun h => ⟨h.catalog, h.freeList⟩⟩

section Pointers

variable {p : PPointer}

@[simp] theorem PPointer.length_bytes :
    p.bytes.length = PPOINTER_SIZE := by simp [PPointer.bytes, PPOINTER_SIZE]

theorem PPointer.zero_bytes : PPointer.zero.bytes = List.replicate PPOINTER_SIZE 0 := by decide

theorem ofWord_word_of_lt {n : ℕ} (hn : n < 2 ^ 64) : ofWord (word n) = n := by
  rw [ofWord_word, Nat.mod_eq_of_lt hn]

theorem PPointer.ofBytes_bytes (hp : p.IsWord) : PPointer.ofBytes p.bytes = p := by
  rw [PPointer.ofBytes, PPointer.bytes, List.take_left' length_word, List.drop_left' length_word,
    ofWord_word_of_lt hp.1, ofWord_word_of_lt hp.2]

theorem flatMap_replicate_zero (n : ℕ) :
    (List.replicate n PPointer.zero).flatMap PPointer.bytes =
      List.replicate (n * PPOINTER_SIZE) 0 := by
  induction n with
  | zero => simp
  | succ n ih =>
    rw [List.replicate_succ, List.flatMap_cons, ih, PPointer.zero_bytes, ← List.replicate_add]
    congr 1
    ring

end Pointers

/-! ## What is written -/

section Write

variable {sys : Sys} {s : World} {p : PPointer}

theorem files_persistCatalog :
    (persistCatalog sys s).disk.files = persistCatalogFile sys s s.disk.files := by
  rw [persistCatalog, persistCatalogFile]
  split_ifs
  · have h0 : (truncated : Stream) = ⟨[], ([] : List Byte).length⟩ := rfl
    dsimp only
    rw [h0, Stream.write_end, Stream.write_end, Stream.write_end]
    rfl
  · rfl

/-- The gap that the seek leaves reads as null pointers. -/
theorem files_rewriteFreeList {pos : ℕ} {ps : List PPointer} :
    (rewriteFreeList s pos ps).disk.files = { s.disk.files with
      freeList := some (List.replicate (pos * PPOINTER_SIZE) 0 ++ ps.flatMap PPointer.bytes) } := by
  show ByteDir.mk _ (some ((writeAt [] pos ps).flatMap PPointer.bytes)) = _
  rw [writeAt_nil, List.flatMap_append, flatMap_replicate_zero]
  rfl

theorem files_newLeafGroup :
    (newLeafGroup sys s).2.disk.files = newLeafGroupFile sys s s.disk.files := by
  rw [newLeafGroup, newLeafGroupFile]
  cases hm : sys.mapFile with
  | false => rfl
  | true =>
    cases ho : sys.openFreeList with
    | false => rfl
    | true =>
      have hne : (groupPointers s.maxFileId).map PPointer.bytes ≠ [] := by
        simp [groupPointers, LEAF_GROUP_AMOUNT]
      have hflat : ((groupPointers s.maxFileId).map PPointer.bytes).flatten =
          (groupPointers s.maxFileId).flatMap PPointer.bytes := rfl
      show (rewriteFreeList
        { s with mem := Function.update s.mem s.maxFileId LeafGroup.zero } s.freeNum
        (groupPointers s.maxFileId)).disk.files = _
      rw [files_rewriteFreeList]
      simp only [Bool.not_true, Bool.or_self, Bool.false_eq_true, if_false]
      rw [Stream.truncated_writes _ _ hne, hflat]

/-- Taking a free leaf changes its group only. -/
theorem files_takeLeaf : (takeLeaf s).2.disk.files = s.disk.files := by
  unfold takeLeaf
  split
  · rfl
  · split_ifs <;> rfl

theorem files_getLeaf : (getLeaf sys s).2.disk.files = getLeafFile sys s s.disk.files := by
  rw [getLeaf, getLeafFile]
  split_ifs
  · have hgroup := @files_newLeafGroup sys s
    rcases hg : newLeafGroup sys s with ⟨b, s1⟩
    rw [hg] at hgroup
    cases b with
    | false => exact hgroup
    | true => exact files_takeLeaf.trans hgroup
  · exact files_takeLeaf

/-- The entry that a freed leaf gets in `free_list`. -/
theorem files_appendFree (n : ℕ) :
    (if sys.openFreeList then rewriteFreeList s n [p] else s).disk.files =
    if sys.openFreeList then
      { s.disk.files with
        freeList := some ((truncated.seek (n * PPOINTER_SIZE)).write p.bytes).bytes }
    else s.disk.files := by
  split_ifs
  · rw [files_rewriteFreeList, Stream.truncated_write, List.flatMap_singleton]
  · rfl

/-- A freed leaf: the catalog when it was the first one, then its entry of `free_list`. -/
theorem files_freeLeaf : (freeLeaf sys p s).2.disk.files = freeLeafFile sys p s s.disk.files := by
  rw [freeLeaf, freeLeafFile]
  by_cases hused : (!s.ifLeafUsed p) = true
  · rw [if_pos hused, if_pos hused]
  rw [if_neg hused, if_neg hused]
  by_cases hstart : s.startLeaf = p
  · let s1 := persistCatalog sys { s with startLeaf := (s.leafAt p).pNext }
    have hnum : s1.freeNum = s.freeNum := by
      show (persistCatalog sys _).freeNum = _
      rw [persistCatalog]
      split_ifs <;> rfl
    have hfiles : (releaseLeaf sys p s).disk.files =
        (if sys.openFreeList then rewriteFreeList s1 s1.freeNum [p] else s1).disk.files := by
      rw [releaseLeaf, if_pos hstart]
      rfl
    show (releaseLeaf sys p s).disk.files = _
    rw [hfiles, files_appendFree, hnum, files_persistCatalog, if_pos hstart]
  · have hfiles : (releaseLeaf sys p s).disk.files =
        (if sys.openFreeList then rewriteFreeList s s.freeNum [p] else s).disk.files := by
      rw [releaseLeaf, if_neg hstart]
      rfl
    show (releaseLeaf sys p s).disk.files = _
    rw [hfiles, files_appendFree, if_neg hstart]

end Write

/-! ## What is read -/

section Read

variable {env : Env} {members : Catalog} {d : Storage}

theorem readCatalog (c members : Catalog) (hm : c.maxFileId < 2 ^ 64) (hn : c.freeNum < 2 ^ 64)
    (hs : c.startLeaf.IsWord) (env : Env) (file : List Byte) :
    readFiles env members c.bytes file =
      (c, Stream.readRecords PPOINTER_SIZE PPointer.ofBytes c.freeNum
      env.junk.bytes ⟨file, 0⟩) := by
  have hlen : c.startLeaf.bytes.length = PPOINTER_SIZE := PPointer.length_bytes
  have h1 : (⟨c.bytes, 0⟩ : Stream).read 8 (word members.maxFileId) =
      (word c.maxFileId, ⟨c.bytes, 8⟩) :=
    Stream.read_at [] (word c.freeNum ++ c.startLeaf.bytes) (by simp [Catalog.bytes]) rfl
      length_word length_word
  have h2 : (⟨c.bytes, 8⟩ : Stream).read 8 (word members.freeNum) =
      (word c.freeNum, ⟨c.bytes, 16⟩) :=
    Stream.read_at (word c.maxFileId) c.startLeaf.bytes rfl length_word.symm length_word length_word
  have h3 : (⟨c.bytes, 16⟩ : Stream).read PPOINTER_SIZE members.startLeaf.bytes =
      (c.startLeaf.bytes, ⟨c.bytes, 16 + PPOINTER_SIZE⟩) :=
    Stream.read_at (word c.maxFileId ++ word c.freeNum) [] (by simp [Catalog.bytes]) (by simp) hlen
      PPointer.length_bytes
  rw [readFiles]
  simp only [h1, h2, h3, ofWord_word_of_lt hm, ofWord_word_of_lt hn, PPointer.ofBytes_bytes hs]

/-- The entries, and from the end of the file on the last one again. -/
theorem readRecords_bytes (m : ℕ) (pt : PPointer) (pre : List Byte) (file : List PPointer)
    (hpt : pt.IsWord) (hfile : ∀ p ∈ file, p.IsWord) :
    Stream.readRecords PPOINTER_SIZE PPointer.ofBytes m pt.bytes
      ⟨pre ++ file.flatMap PPointer.bytes, pre.length⟩ = readEntries m pt file := by
  induction m generalizing pt pre file with
  | zero => rfl
  | succ m ih =>
    cases file with
    | nil =>
      have hrest := ih pt pre [] hpt hfile
      rw [List.flatMap_nil, List.append_nil] at hrest ⊢
      rw [Stream.readRecords_end, hrest, PPointer.ofBytes_bytes hpt, readEntries]
    | cons p file =>
      have hp := hfile p List.mem_cons_self
      have hrest := ih p (pre ++ p.bytes) file hp fun q hq => hfile q (List.mem_cons_of_mem p hq)
      rw [List.flatMap_cons, ← List.append_assoc,
        Stream.readRecords_cons PPointer.length_bytes PPointer.length_bytes, hrest,
        PPointer.ofBytes_bytes hp, readEntries]

/-- The constructor on the bytes of a storage: the members of the allocator, and the files
    it leaves. -/
theorem openFiles_files (hd : d.IsWord) (hjunk : env.junk.IsWord) :
    openFiles env members d.files =
      ((⟨(construct env Sys.ok d).maxFileId, (construct env Sys.ok d).freeNum,
        (construct env Sys.ok d).startLeaf⟩,
        (construct env Sys.ok d).freeList), (construct env Sys.ok d).disk.files) := by
  obtain ⟨catalog, freeList, groups⟩ := d
  cases catalog with
  | none => cases freeList <;> rfl
  | some c =>
    cases freeList with
    | none => rfl
    | some l =>
      obtain ⟨hm, hn, hs⟩ := hd.catalog c rfl
      have hlist := readRecords_bytes c.freeNum env.junk [] l hjunk (hd.freeList l rfl)
      show (readFiles env members c.bytes (l.flatMap PPointer.bytes), _) = _
      rw [readCatalog c members hm hn hs]
      exact Prod.ext (Prod.ext rfl hlist) rfl

end Read

/-! ## Sessions -/

/-- A call with the outcomes of its system calls, a clean restart, and the loss of the
    process between two calls. `members` are the indeterminate values of the data members
    of the new allocator object. -/
inductive FileOp where
  | call (sys : Sys) (op : AllocOp)
  | reopen (members : Catalog)
  | crash (members : Catalog)

/-- What a call does to the bytes of the two files. -/
def AllocOp.files (sys : Sys) : AllocOp → World → ByteDir → ByteDir
  | getLeaf, s, dir => getLeafFile sys s dir
  | newLeafGroup, s, dir => newLeafGroupFile sys s dir
  | freeLeaf p, s, dir => freeLeafFile sys p s dir
  | store _ _, _, dir => dir

/-- The allocator's members become what the constructor read. -/
def World.withMembers (s : World) (r : Catalog × List PPointer) : World :=
  { s with
    startLeaf := r.1.startLeaf, maxFileId := r.1.maxFileId, freeNum := r.1.freeNum,
    freeList := r.2 }

namespace FileOp

def step (env : Env) : FileOp → World → World
  | call sys op, s => (op.attempt sys s).2
  | reopen _, s => restart env s
  | crash _, s => construct env Sys.ok s.disk

/-- The same on the bytes: a new process knows of the allocator what it reads from them. -/
def byteStep (env : Env) : FileOp → World × ByteDir → World × ByteDir
  | call sys op, (s, dir) => ((op.attempt sys s).2, op.files sys s dir)
  | reopen members, (s, dir) =>
    let r := openFiles env members (persistCatalogFile Sys.ok s dir)
    ((restart env s).withMembers r.1, r.2)
  | crash members, (s, dir) =>
    let r := openFiles env members dir
    ((construct env Sys.ok s.disk).withMembers r.1, r.2)

/-- The numbers that a new process reads are `uint64_t`. -/
def Words : FileOp → World → Prop
  | call _ _, _ => True
  | reopen _, s => (destruct Sys.ok s).disk.IsWord
  | crash _, s => s.disk.IsWord

end FileOp

section Sessions

variable {env : Env} {s : World}

theorem files_attempt (sys : Sys) (op : AllocOp) :
    (op.attempt sys s).2.disk.files = op.files sys s s.disk.files := by
  cases op with
  | getLeaf => exact files_getLeaf
  | newLeafGroup => exact files_newLeafGroup
  | freeLeaf p => exact files_freeLeaf
  | store p img =>
    show (if s.ifLeafUsed p then (s.setLeaf p img).persistLeaf p else s).disk.files = _
    split_ifs <;> rfl

/-- The destructor writes the catalog; the groups are other files. -/
theorem files_destruct :
    (destruct Sys.ok s).disk.files = persistCatalogFile Sys.ok s s.disk.files := by
  have hgroups : ∀ (l : List ℕ) (s : World), (l.foldl World.persistGroup s).disk.files =
      s.disk.files := by
    intro l
    induction l with
    | nil => exact fun _ => rfl
    | cons f l ih => exact fun s => ih (s.persistGroup f)
  rw [destruct, hgroups, files_persistCatalog]

/-- A new process on the bytes is the one on the records. -/
theorem withMembers_openFiles {members : Catalog} {d : Storage} (hd : d.IsWord)
    (hjunk : env.junk.IsWord) :
    (construct env Sys.ok d).withMembers (openFiles env members d.files).1 =
      construct env Sys.ok d ∧
      (openFiles env members d.files).2 = (construct env Sys.ok d).disk.files := by
  rw [openFiles_files hd hjunk]
  exact ⟨rfl, rfl⟩

theorem FileOp.byteStep_eq (op : FileOp) (hjunk : env.junk.IsWord) (hw : op.Words s) :
    op.byteStep env (s, s.disk.files) = (op.step env s, (op.step env s).disk.files) := by
  cases op with
  | call sys op => exact Prod.ext rfl (files_attempt sys op).symm
  | reopen members =>
    have hopen := @withMembers_openFiles env members _ hw hjunk
    rw [files_destruct] at hopen
    exact Prod.ext hopen.1 hopen.2
  | crash members =>
    have hopen := @withMembers_openFiles env members _ hw hjunk
    exact Prod.ext hopen.1 hopen.2

end Sessions

/-- The allocator on the bytes of its two files, from an empty data directory on, over any
    calls with any outcomes of their system calls, clean restarts and crashes between two
    calls: its members and the bytes of the files are those of the model in which the
    catalog is a record and `free_list` a list of pointers. -/
theorem byteRun_refines (env : Env) (hjunk : env.junk.IsWord) (members : Catalog)
    (ops : List FileOp)
    (hwords : Meets (fun op s => some (op.step env s)) FileOp.Words ops
      (construct env Sys.ok Storage.empty)) :
    let s := ops.foldl (fun s op => op.step env s) (construct env Sys.ok Storage.empty)
    ops.foldl (fun x op => op.byteStep env x)
      ((construct env Sys.ok Storage.empty).withMembers (openFiles env members ⟨none, none⟩).1,
        (openFiles env members ⟨none, none⟩).2) = (s, s.disk.files) := by
  have hrun : ∀ (ops : List FileOp) (s : World),
      Meets (fun op s => some (op.step env s)) FileOp.Words ops s →
      ops.foldl (fun x op => op.byteStep env x) (s, s.disk.files) =
        (ops.foldl (fun s op => op.step env s) s,
          (ops.foldl (fun s op => op.step env s) s).disk.files) := by
    intro ops
    induction ops with
    | nil => exact fun _ _ => rfl
    | cons op ops ih =>
      intro s hw
      rw [List.foldl_cons, List.foldl_cons, op.byteStep_eq hjunk hw.1]
      exact ih _ (hw.2 _ rfl)
  exact hrun ops _ hwords

theorem byteRun_refines_three : ∃ s,
    [FileOp.call Sys.ok .getLeaf, .call Sys.ok (.freeLeaf ⟨1, 29034⟩), .reopen ⟨7, 7, ⟨7, 7⟩⟩].foldl
      (fun x op => op.byteStep Env.flat x)
      ((construct Env.flat Sys.ok Storage.empty).withMembers
        (openFiles Env.flat ⟨5, 5, ⟨5, 5⟩⟩ ⟨none, none⟩).1,
        (openFiles Env.flat ⟨5, 5, ⟨5, 5⟩⟩ ⟨none, none⟩).2) = (s, s.disk.files) ∧
        s.freeNum = 16 := by
  have hwords : (destruct Sys.ok (freeLeaf Sys.ok ⟨1, 29034⟩
      (getLeaf Sys.ok (construct Env.flat Sys.ok
        Storage.empty)).2).2).disk.IsWord := by decide +kernel
  have hrun := byteRun_refines Env.flat (by decide) ⟨5, 5, ⟨5, 5⟩⟩
    [.call Sys.ok .getLeaf, .call Sys.ok (.freeLeaf ⟨1, 29034⟩), .reopen ⟨7, 7, ⟨7, 7⟩⟩]
    ⟨trivial, fun _ h1 => Option.some.inj h1 ▸ ⟨trivial, fun _ h2 => Option.some.inj h2 ▸
      ⟨hwords, fun _ _ => trivial⟩⟩⟩
  exact ⟨_, hrun, by decide +kernel⟩

end FPTreeDB
