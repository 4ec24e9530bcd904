import FPTreeDB.Model.FPTree

/-!
# The YCSB driver

Models of the part of `main` in `src/ycsb.cpp` that works on an `FPTree` (lines 17-121):
the two workload files are read with `fscanf`, the first is loaded, the second is run.
The time measurements are left out. A file is the list of its characters; `none` is
undefined behaviour, an access outside an array or a use of an indeterminate value.
-/

namespace FPTreeDB

namespace Ycsb

/-- The number of elements of `key` and `ifInsert`. -/
def ARRAY_LEN : ℕ := 2200000

/-! ## `fscanf(file, "%s %lu\n", op, &k)` -/

/-- `isspace` in the `"C"` locale. -/
def isspace (c : Char) : Bool := c.toNat = 32 || (9 ≤ c.toNat && c.toNat ≤ 13)

def skipSpace (text : List Char) : List Char := text.dropWhile isspace

/-- The optional sign of a number. -/
def sign : List Char → Bool × List Char
  | '-' :: text => (true, text)
  | '+' :: text => (false, text)
  | text => (false, text)

/-- `%lu`: the number, if there is one, and the text behind it. A number that `uint64_t`
    cannot hold is undefined behaviour. -/
def scanNumber (text : List Char) : Option (Option Key × List Char) :=
  let (negative, text) := sign (skipSpace text)
  let digits := text.takeWhile Char.isDigit
  let rest := text.dropWhile Char.isDigit
  if digits = [] then some (none, rest)
  else
    let n := Nat.ofDigitChars 10 digits 0
    if h : n < 2 ^ 64 then some (some (if negative then 0 - ⟨n, h⟩ else ⟨n, h⟩), rest) else none

/-- One call: `op`, the number that is stored to `k` if there is one, and the text behind;
    `some none` is `EOF`. `op` has room for six characters. -/
def fscanf (text : List Char) : Option (Option (List Char × Option Key × List Char)) :=
  let text := skipSpace text
  if text = [] then some none
  else
    let op := text.takeWhile fun c => !isspace c
    if 7 ≤ op.length then none
    else do
      let (k, rest) ← scanNumber (skipSpace (text.dropWhile fun c => !isspace c))
      some (some (op, k, if k.isSome then skipSpace rest else rest))

/-- `while (fscanf(...) != EOF) { key[t] = k; ifInsert[t] = ...; t++; }`, at most `fuel`
    calls: the pairs `(ifInsert[t], key[t])` and `k` afterwards. -/
def readLoop : ℕ → List Char → Option Key → ℕ → Option (List (Bool × Key) × Option Key)
  | 0, _, _, _ => none
  | fuel + 1, text, k, t => do
    match ← fscanf text with
    | none => some ([], k)
    | some (op, scanned, rest) =>
      let key ← scanned.or k
      if t < ARRAY_LEN then do
        let (ops, k) ← readLoop fuel rest (some key) (t + 1)
        some ((decide (op = "INSERT".toList), key) :: ops, k)
      else none

/-- The reading of a file: every call but the last takes a character. -/
def readFile (text : List Char) (k : Option Key) : Option (List (Bool × Key) × Option Key) :=
  readLoop (text.length + 1) text k 0

/-! ## The phases -/

/-- The loop of the load phase: every key is inserted, whatever the operation. -/
def loadPhase (env : Env) : List (Bool × Key) → FPTree × World → ℕ → Option (ℕ × FPTree × World)
  | [], db, inserted => some (inserted, db)
  | (_, key) :: ops, (t, s), inserted => do
    let db ← t.insert env Sys.ok key key s
    loadPhase env ops db (inserted + 1)

/-- The counters of the run phase and the keys of the lines `" read failed"`. -/
structure Counts where
  operation_num : ℕ
  inserted : ℕ
  failed : List Key
deriving DecidableEq

/-- The loop of the run phase. -/
def runPhase (env : Env) :
    List (Bool × Key) → FPTree × World → Counts → Option (Counts × FPTree × World)
  | [], db, c => some (c, db)
  | (ifInsert, key) :: ops, (t, s), c =>
    let c := { c with operation_num := c.operation_num + 1 }
    if ifInsert then do
      let db ← t.insert env Sys.ok key key s
      runPhase env ops db { c with inserted := c.inserted + 1 }
    else do
      let value ← t.find env key s
      runPhase env ops (t, s)
        (if value = MAX_VALUE ∨ value ≠ key then { c with failed := c.failed ++ [key] } else c)

/-- The number of items loaded, the counters of the run phase and the store afterwards, for
    the texts of the two files. -/
def main (env : Env) (load run : List Char) (db : FPTree × World) :
    Option (ℕ × Counts × FPTree × World) := do
  let (ops, k) ← readFile load none
  let (inserted, db) ← loadPhase env ops db 0
  let (ops, _) ← readFile run k
  let (c, db) ← runPhase env ops db ⟨0, 0, []⟩
  some (inserted, c, db)

end Ycsb

end FPTreeDB
