import FPTreeDB.Model.Ycsb
import FPTreeDB.Tree.Progress

/-!
# The YCSB driver reports the failing reads

* `Line`: a line of a workload file. Only the word `INSERT` makes a difference to the driver.
* `readFile_workload`: the reading of a file gives back the operations of its lines, as long
  as they fit in the arrays.
* `loadPhase_spec`, `runPhase_spec`: the phases on a store in which no key is inserted
  twice.
* `main_spec`: what the driver reports after any run without removals.
-/

namespace FPTreeDB

namespace Ycsb

open Runs Node

/-! ## The workload files -/

/-- A line of a workload file: a word of graphic characters that `op` has room for, and a
    key. -/
structure Line where
  word : List Char
  key : Key
  ne_nil : word ≠ []
  lt : word.length < 7
  graphic : ∀ c ∈ word, 33 ≤ c.toNat ∧ c.toNat ≤ 126

namespace Line

/-- The line as it stands in the file. -/
def text (line : Line) : List Char := line.word ++ ' ' :: (Nat.toDigits 10 line.key.val ++ ['\n'])

/-- What the driver keeps of it: every word but `INSERT` is a read. -/
def op (line : Line) : Bool × Key := (decide (line.word = "INSERT".toList), line.key)

def insert (k : Key) : Line := ⟨"INSERT".toList, k, by simp, by simp, by simp⟩

def read (k : Key) : Line := ⟨"READ".toList, k, by simp, by simp, by simp⟩

def update (k : Key) : Line := ⟨"UPDATE".toList, k, by simp, by simp, by simp⟩

theorem isspace_word (line : Line) {c : Char} (hc : c ∈ line.word) : isspace c = false := by
  have hgraphic := line.graphic c hc
  simp [isspace]
  omega

end Line

/-- A workload file. -/
def workload (lines : List Line) : List Char := lines.flatMap Line.text

section Scan

variable {α : Type} {p : α → Bool}

theorem skipSpace_word (line : Line) (rest : List Char) :
    skipSpace (line.word ++ rest) = line.word ++ rest := by
  obtain ⟨c, cs, hword⟩ := List.exists_cons_of_ne_nil line.ne_nil
  have hspace := line.isspace_word (c := c) (hword ▸ List.mem_cons_self)
  rw [hword, List.cons_append, skipSpace, List.dropWhile_cons_of_neg (by simp [hspace])]

/-- A workload file does not start with white space. -/
theorem workload_skip (lines : List Line) : skipSpace (workload lines) = workload lines := by
  cases lines with
  | nil => rfl
  | cons line lines =>
    rw [workload, List.flatMap_cons, Line.text, List.append_assoc]
    exact skipSpace_word line _

theorem isDigit_of_mem_toDigits {n : ℕ} {c : Char} (hc : c ∈ Nat.toDigits 10 n) :
    c.isDigit = true :=
  Nat.isDigit_of_mem_toDigits (by omega) (by omega) hc

theorem takeWhile_stop {l : List α} (hl : ∀ x ∈ l, p x = true) {y : α} (hy : p y = false)
    (rest : List α) :
    (l ++ y :: rest).takeWhile p = l ∧ (l ++ y :: rest).dropWhile p = y :: rest := by
  rw [List.takeWhile_append_of_pos hl, List.dropWhile_append_of_pos hl,
    List.takeWhile_cons_of_neg (by simp [hy]),
    List.dropWhile_cons_of_neg (by simp [hy]), List.append_nil]
  exact ⟨rfl, rfl⟩

/-- A digit is neither white space nor a sign. -/
theorem isDigit_head {c : Char} (hc : c.isDigit = true) (text : List Char) :
    isspace c = false ∧ sign (c :: text) = (false, c :: text) := by
  have hbounds : 48 ≤ c.toNat ∧ c.toNat ≤ 57 := Char.isDigit_iff_toNat.mp hc
  constructor
  · simp [isspace]
    omega
  · rw [sign]
    · intro rest h
      obtain rfl := (List.cons.inj h).1
      exact absurd hbounds (by decide)
    · intro rest h
      obtain rfl := (List.cons.inj h).1
      exact absurd hbounds (by decide)

/-- The digits of a key up to the end of the line. -/
theorem scanNumber_toDigits (k : Key) (rest : List Char) :
    scanNumber (skipSpace (' ' :: (Nat.toDigits 10 k.val ++ '\n' :: rest))) =
      some (some k, '\n' :: rest) := by
  obtain ⟨d, ds, hds⟩ := List.exists_cons_of_ne_nil (Nat.toDigits_ne_nil (n := k.val) (b := 10))
  have hdigit : d.isDigit = true := isDigit_of_mem_toDigits (hds ▸ List.mem_cons_self)
  obtain ⟨hspace, hsign⟩ := isDigit_head hdigit (ds ++ '\n' :: rest)
  rw [← List.cons_append, ← hds] at hsign
  have hskip : skipSpace (Nat.toDigits 10 k.val ++ '\n' :: rest) =
      Nat.toDigits 10 k.val ++ '\n' :: rest := by
    rw [hds, List.cons_append, skipSpace, List.dropWhile_cons_of_neg (by simp [hspace])]
  have hblank : skipSpace (' ' :: (Nat.toDigits 10 k.val ++ '\n' :: rest)) =
      skipSpace (Nat.toDigits 10 k.val ++ '\n' :: rest) := rfl
  have hstop := takeWhile_stop (fun c hc => isDigit_of_mem_toDigits (n := k.val) hc) (y := '\n')
    (by decide) rest
  rw [hblank, hskip, scanNumber, hskip, hsign]
  dsimp only
  rw [hstop.1, hstop.2, if_neg (by rw [hds]; simp), Nat.ofDigitChars_ten_toDigits, dif_pos k.isLt]
  rfl

theorem fscanf_line (line : Line) (lines : List Line) :
    fscanf (workload (line :: lines)) = some (some (line.word, some line.key, workload lines)) := by
  have htext : workload (line :: lines) =
      line.word ++ ' ' :: (Nat.toDigits 10 line.key.val ++ '\n' :: workload lines) := by
    rw [workload, List.flatMap_cons, ← workload, Line.text, List.append_assoc, List.cons_append,
      List.append_assoc]
    rfl
  have hstop := takeWhile_stop (p := fun c => !isspace c)
    (fun c hc => by rw [line.isspace_word hc]; rfl) (y := ' ') (by decide)
    (Nat.toDigits 10 line.key.val ++ '\n' :: workload lines)
  have hlt := line.lt
  rw [htext, fscanf, skipSpace_word]
  dsimp only
  rw [if_neg (by simp [line.ne_nil]), hstop.1, hstop.2, if_neg (by omega), scanNumber_toDigits]
  show some (some (line.word, some line.key, skipSpace ('\n' :: workload lines))) = _
  rw [show skipSpace ('\n' :: workload lines) = skipSpace (workload lines) from rfl, workload_skip]

end Scan

theorem readLoop_workload (lines : List Line) (fuel t : ℕ) (k : Option Key)
    (hfuel : lines.length < fuel) (hlen : t + lines.length ≤ ARRAY_LEN) :
    readLoop fuel (workload lines) k t =
      some (lines.map Line.op, (lines.getLast?.map Line.key).or k) := by
  induction lines generalizing fuel t k with
  | nil =>
    obtain ⟨f, rfl⟩ : ∃ f, fuel = f + 1 := ⟨fuel - 1, by simp at hfuel; omega⟩
    rfl
  | cons line lines ih =>
    obtain ⟨f, rfl⟩ : ∃ f, fuel = f + 1 := ⟨fuel - 1, by rw [List.length_cons] at hfuel; omega⟩
    rw [List.length_cons] at hfuel hlen
    have hrest := ih f (t + 1) (some line.key) (by omega) (by omega)
    have hkey : (lines.getLast?.map Line.key).or (some line.key) =
        (((line :: lines).getLast?).map Line.key).or k := by
      cases lines with
      | nil => rfl
      | cons line' lines => simp [List.getLast?_cons]
    rw [readLoop, fscanf_line]
    simp only [Option.bind_eq_bind, Option.bind_some, Option.some_or,
      if_pos (show t < ARRAY_LEN by omega), hrest, hkey, List.map_cons, Line.op]

/-- Reading a file gives the operations of its lines. -/
theorem readFile_workload {lines : List Line} (hlen : lines.length ≤ ARRAY_LEN) (k : Option Key) :
    readFile (workload lines) k = some (lines.map Line.op, (lines.getLast?.map Line.key).or k) := by
  have hfuel : lines.length ≤ (workload lines).length := by
    clear hlen
    induction lines with
    | nil => exact Nat.zero_le _
    | cons line lines ih =>
      rw [workload, List.flatMap_cons, ← workload, List.length_append, Line.text,
        List.length_append, List.length_cons, List.length_cons]
      omega
  exact readLoop_workload lines _ 0 k (Nat.lt_succ_of_le hfuel) (by omega)

/-! ## The phases -/

section Phases

variable {env : Env} {t : FPTree} {s : World} {m : Key → Option Value}

/-- The map after inserting every key with itself as its value. -/
def loaded (ops : List (Bool × Key)) (m : Key → Option Value) : Key → Option Value :=
  runSpec (fun op m => Function.update m op.2 (some op.2)) ops m

theorem loaded_apply (ops : List (Bool × Key)) (m : Key → Option Value) (k : Key) :
    loaded ops m k = if k ∈ ops.map Prod.snd then some k else m k := by
  induction ops generalizing m with
  | nil => rfl
  | cons op ops ih =>
    show loaded ops (Function.update m op.2 (some op.2)) k = _
    rw [ih, List.map_cons]
    by_cases hmem : k ∈ ops.map Prod.snd
    · rw [if_pos hmem, if_pos (List.mem_cons_of_mem _ hmem)]
    · rw [if_neg hmem]
      by_cases hk : k = op.2
      · rw [if_pos (hk ▸ List.mem_cons_self), hk, Function.update_self]
      · rw [if_neg (fun h => (List.mem_cons.mp h).elim hk hmem), Function.update_of_ne hk]

/-- The keys that are read when the map does not hold them with themselves as values, or
    that are `MAX_VALUE`. -/
def failedReads : List (Bool × Key) → (Key → Option Value) → List Key
  | [], _ => []
  | (true, k) :: ops, m => failedReads ops (Function.update m k (some k))
  | (false, k) :: ops, m => (if m k = some k ∧ k ≠ MAX_VALUE then [] else [k]) ++ failedReads ops m

theorem loadPhase_spec (ops : List (Bool × Key)) {db : FPTree × World} (h : WriteInv env db m)
    (n : ℕ) (hnd : (ops.map Prod.snd).Nodup) (hfresh : ∀ op ∈ ops, m op.2 = none) :
    ∃ db', loadPhase env ops db n = some (n + ops.length, db') ∧
      WriteInv env db' (loaded ops m) := by
  induction ops generalizing db m n with
  | nil => exact ⟨db, rfl, h⟩
  | cons op ops ih =>
    obtain ⟨i, k⟩ := op
    obtain ⟨t, s⟩ := db
    obtain ⟨hk, hnd'⟩ := List.nodup_cons.mp hnd
    have hmk : m k = none := hfresh (i, k) List.mem_cons_self
    obtain ⟨db₁, hins, h₁⟩ := h.insert_fresh hmk k
    have hfresh₁ : ∀ op ∈ ops, Function.update m k (some k) op.2 = none := by
      intro op hop
      have hne : op.2 ≠ k := fun he => hk (by rw [← he]; exact List.mem_map.mpr ⟨op, hop, rfl⟩)
      rw [Function.update_of_ne hne]
      exact hfresh op (List.mem_cons_of_mem _ hop)
    obtain ⟨db', hload, h'⟩ := ih h₁ (n + 1) hnd' hfresh₁
    refine ⟨db', ?_, h'⟩
    rw [loadPhase, hins, Option.bind_eq_bind, Option.bind_some, hload, List.length_cons,
      Nat.add_assoc, Nat.add_comm 1]

/-- A read that the driver does not report. -/
theorem find_spec (h : WriteInv env (t, s) m) (hne : ∃ k, m k ≠ none) (k : Key) :
    ∃ value, t.find env k s = some value ∧
      ((value = MAX_VALUE ∨ value ≠ k) ↔ ¬ (m k = some k ∧ k ≠ MAX_VALUE)) := by
  have hleaves : (inner t.root).leaves ≠ [] := by
    intro hnil
    obtain ⟨k', hk'⟩ := hne
    obtain ⟨v, hv⟩ := Option.ne_none_iff_exists'.mp hk'
    have hmem := (h.represents k' v).mpr hv
    rw [show stored t s = [] by rw [stored, hnil]; rfl] at hmem
    exact List.not_mem_nil hmem
  refine ⟨(m k).getD MAX_VALUE, congrFun (h.toDbInv.find hleaves) k, ?_⟩
  cases m k with
  | none => simp
  | some v =>
    rw [Option.getD_some, Option.some.injEq]
    constructor
    · rintro (rfl | hne') ⟨rfl, hmax⟩
      · exact hmax rfl
      · exact hne' rfl
    · intro hfail
      by_contra hok
      obtain ⟨hmax, hvk⟩ := not_or.mp hok
      obtain rfl := not_not.mp hvk
      exact hfail ⟨rfl, hmax⟩

theorem runPhase_spec (ops : List (Bool × Key)) {db : FPTree × World} (h : WriteInv env db m)
    (c : Counts) (hne : ∃ k, m k ≠ none) (hnd : ((ops.filter Prod.fst).map Prod.snd).Nodup)
    (hfresh : ∀ op ∈ ops, op.1 = true → m op.2 = none) :
    ∃ db', runPhase env ops db c =
      some (⟨c.operation_num + ops.length, c.inserted + ops.countP Prod.fst,
      c.failed ++ failedReads ops m⟩, db') ∧ WriteInv env db' (loaded (ops.filter Prod.fst) m) := by
  induction ops generalizing db m c with
  | nil => exact ⟨db, by simp [runPhase, failedReads], h⟩
  | cons op ops ih =>
    obtain ⟨i, k⟩ := op
    obtain ⟨t, s⟩ := db
    cases i with
    | true =>
      rw [List.filter_cons_of_pos rfl] at hnd
      obtain ⟨hk, hnd'⟩ := List.nodup_cons.mp hnd
      obtain ⟨db₁, hins, h₁⟩ := h.insert_fresh (hfresh (true, k) List.mem_cons_self rfl) k
      have hfresh₁ : ∀ op ∈ ops, op.1 = true → Function.update m k (some k) op.2 = none := by
        intro op hop htrue
        have hne : op.2 ≠ k := fun he => hk (by
          rw [← he]
          exact List.mem_map.mpr ⟨op, List.mem_filter.mpr ⟨hop, htrue⟩, rfl⟩)
        rw [Function.update_of_ne hne]
        exact hfresh op (List.mem_cons_of_mem _ hop) htrue
      obtain ⟨db', hrun, h'⟩ := ih h₁ ⟨c.operation_num + 1, c.inserted + 1, c.failed⟩ ⟨k, by simp⟩
        hnd' hfresh₁
      refine ⟨db', ?_, by rw [List.filter_cons_of_pos rfl]; exact h'⟩
      rw [runPhase]
      dsimp only
      rw [if_pos rfl, hins, Option.bind_eq_bind, Option.bind_some, hrun, List.length_cons,
        List.countP_cons_of_pos rfl, failedReads]
      simp only [Option.some.injEq, Prod.mk.injEq, Counts.mk.injEq, and_true]
      omega
    | false =>
      obtain ⟨value, hfind, hfails⟩ := find_spec h hne k
      obtain ⟨db', hrun, h'⟩ := ih h ⟨c.operation_num + 1, c.inserted,
        c.failed ++ if m k = some k ∧ k ≠ MAX_VALUE then [] else [k]⟩ hne
        (by rwa [List.filter_cons_of_neg (by simp)] at hnd)
        fun op hop => hfresh op (List.mem_cons_of_mem _ hop)
      refine ⟨db', ?_, by rw [List.filter_cons_of_neg (by simp)]; exact h'⟩
      have hcounts : (if value = MAX_VALUE ∨ value ≠ k then
          (⟨c.operation_num + 1, c.inserted, c.failed ++ [k]⟩ : Counts)
          else ⟨c.operation_num + 1, c.inserted, c.failed⟩) =
          ⟨c.operation_num + 1, c.inserted, c.failed ++ if m k = some k ∧
            k ≠ MAX_VALUE then [] else [k]⟩ := by
        by_cases hok : m k = some k ∧ k ≠ MAX_VALUE
        · rw [if_neg (fun hv => hfails.mp hv hok), if_pos hok, List.append_nil]
        · rw [if_pos (hfails.mpr hok), if_neg hok]
      rw [runPhase]
      dsimp only
      rw [if_neg (by simp), hfind, Option.bind_eq_bind, Option.bind_some, hcounts, hrun,
        List.length_cons, List.countP_cons_of_neg (by simp), failedReads]
      simp only [Option.some.injEq, Prod.mk.injEq, Counts.mk.injEq, and_true, List.append_assoc]
      omega

end Phases

/-- The driver on two workload files of at most `ARRAY_LEN` lines, the first one not empty,
    that insert no key twice, on any store in which no key was ever removed: it loads every
    line of the first file, whatever its word, and reports from the second the reads of keys
    that no line before them inserted, or that the store held with another value, and those
    of `MAX_VALUE`. Every word of the second file but `INSERT` is a read. -/
theorem main_spec (env : Env) (d : ℕ) (hd : 1 ≤ d) (acts : List DbAct)
    (hacts : Allowed DbAct.WritePre DbAct.apply acts fun _ => none) (db : Db)
    (hrun : Runs.run (DbAct.step env) acts (emptyDb env d) = some db) (load run : List Line)
    (hload : load.length ≤ ARRAY_LEN) (hrunlen : run.length ≤ ARRAY_LEN) (hne : load ≠ [])
    (hnd : ((load.map Line.op ++ (run.map Line.op).filter Prod.fst).map Prod.snd).Nodup)
    (hfresh : ∀ op ∈ load.map Line.op ++ (run.map Line.op).filter Prod.fst,
      runSpec DbAct.apply acts (fun _ => none) op.2 = none) :
    let m := runSpec DbAct.apply acts fun _ => none
    ∃ db', main env (workload load) (workload run) db =
        some (load.length, ⟨run.length, (run.map Line.op).countP Prod.fst,
          failedReads (run.map Line.op) (loaded (load.map Line.op) m)⟩, db') ∧
      WriteInv env db' (loaded (load.map Line.op ++ (run.map Line.op).filter Prod.fst) m) := by
  intro m
  rw [List.map_append] at hnd
  have h := acts_writeInv env hd acts hacts hrun
  obtain ⟨db₁, hl, h₁⟩ := loadPhase_spec (load.map Line.op) h 0 (List.Nodup.of_append_left hnd)
    fun op hop => hfresh op (List.mem_append_left _ hop)
  have hsome : ∃ k, loaded (load.map Line.op) (runSpec DbAct.apply acts fun _ => none)
      k ≠ none := by
    obtain ⟨line, hline⟩ := List.exists_mem_of_ne_nil load hne
    refine ⟨line.key, ?_⟩
    have hmem : line.key ∈ (load.map Line.op).map Prod.snd :=
      List.mem_map.mpr ⟨line.op, List.mem_map.mpr ⟨line, hline, rfl⟩, rfl⟩
    rw [loaded_apply, if_pos hmem]
    exact Option.some_ne_none _
  obtain ⟨db', hr, h'⟩ := runPhase_spec (run.map Line.op) h₁ ⟨0, 0, []⟩ hsome
    (List.Nodup.of_append_right hnd) (by
      intro op hop htrue
      have hmem : op ∈ (run.map Line.op).filter Prod.fst := List.mem_filter.mpr ⟨hop, htrue⟩
      have hnot : op.2 ∉ (load.map Line.op).map Prod.snd := fun hl =>
        List.disjoint_of_nodup_append hnd hl (List.mem_map.mpr ⟨op, hmem, rfl⟩)
      rw [loaded_apply, if_neg hnot]
      exact hfresh op (List.mem_append_right _ hmem))
  refine ⟨db', ?_, ?_⟩
  · rw [main, readFile_workload hload]
    simp only [Option.bind_eq_bind, Option.bind_some, hl, readFile_workload hrunlen, hr,
      Nat.zero_add, List.nil_append, List.length_map]
    rfl
  · rw [loaded, runSpec, List.foldl_append]
    exact h'

/-- An update is read like any other word. -/
theorem main_spec_four : ∃ db', main Env.flat (workload [.insert 5])
    (workload [.read 5, .insert 6, .read 7, .update 8]) (emptyDb Env.flat 1028) =
      some (1, ⟨4, 1, [7, 8]⟩, db') := by
  obtain ⟨db', hmain, -⟩ :=
    main_spec Env.flat 1028 (by omega) [] trivial (emptyDb Env.flat 1028) rfl
      [.insert 5] [.read 5, .insert 6, .read 7, .update 8] (by decide) (by decide)
      (by simp) (by decide) (fun _ _ => rfl)
  exact ⟨db', hmain⟩

end Ycsb

end FPTreeDB
