import Mathlib

/-!
# Shared types and constants

Models of `include/utility/utility.h` and `src/utility.cpp`.

* `Key` and `Value` are `uint64_t`; only their order and their maximum matter, so
  they are `Fin (2 ^ 64)`. `Byte` is `BitVec 8`.
* File numbers, offsets and counters are `uint64_t` values held in `ℕ`. The one
  subtraction that can wrap, `p.offset - LEAF_GROUP_HEAD`, is `sub64`.
* `keyHash` is a fixed function from keys to bytes (CLHash of the decimal
  representation); the model takes it as a parameter, see `Env`.
-/

namespace FPTreeDB

/-- `typedef unsigned char Byte` (utility.h:22). -/
abbrev Byte := BitVec 8

/-- `typedef uint64_t Key` (utility.h:24). -/
abbrev Key := Fin (2 ^ 64)

/-- `typedef uint64_t Value` (utility.h:25). -/
abbrev Value := Fin (2 ^ 64)

/-- `Key` and `Value` have a zero. -/
instance word_neZero : NeZero (2 ^ 64) := ⟨by norm_num⟩

/-- `MAX_KEY` (utility.h:12), `UINT64_MAX`. -/
def MAX_KEY : Key := ⊤

/-- `MAX_VALUE` (utility.h:13), `UINT64_MAX`. -/
def MAX_VALUE : Value := ⊤

/-- `LEAF_DEGREE` (utility.h:9). -/
def LEAF_DEGREE : ℕ := 56

/-- `LEAF_GROUP_AMOUNT` (utility.h:15). -/
def LEAF_GROUP_AMOUNT : ℕ := 16

/-- `ILLEGAL_FILE_ID` (utility.h:16). -/
def ILLEGAL_FILE_ID : ℕ := 0

/-- `LEAF_GROUP_HEAD = sizeof(uint64_t) + LEAF_GROUP_AMOUNT` (utility.h:31). -/
def LEAF_GROUP_HEAD : ℕ := 8 + LEAF_GROUP_AMOUNT

/-- A persistent pointer (utility.h:33-40): a leaf-group file and the offset of
    a leaf in it. -/
structure PPointer where
  fileId : ℕ
  offset : ℕ
deriving DecidableEq, Repr

/-- The pointer all of whose bytes are zero, as in a zeroed leaf or in the gap
    that a seek past the end of a file leaves. -/
def PPointer.zero : PPointer := ⟨ILLEGAL_FILE_ID, 0⟩

/-- `(L * 2 + 7) / 8`: the number of bitmap bytes of a leaf of degree `L`. -/
def bitmapSize (L : ℕ) : ℕ := (L * 2 + 7) / 8

/-- `calLeafSize()` (utility.cpp:8-16) for `LEAF_DEGREE = L`:
    `| bitmap | pNext | fingerprints array | KV array |`. -/
def calLeafSize (L : ℕ) : ℕ :=
  let n := L * 2
  let bitArrNum := (n + 7) / 8
  bitArrNum + 16 + n * 1 + n * (8 + 8)

/-- `uint64_t` subtraction. -/
def sub64 (a b : ℕ) : ℕ := (a + (2 ^ 64 - b)) % 2 ^ 64

/-- The loop of `countOneBits`, at most `fuel` turns. -/
def countOneBitsLoop : ℕ → Byte → ℕ
  | 0, _ => 0
  | fuel + 1, b => if b = 0 then 0 else countOneBitsLoop fuel (b &&& (b - 1)) + 1

/-- `countOneBits` (utility.cpp:18-25): `while (b != 0) { count++; b = b & (b - 1); }`.
    Each turn clears one bit, so eight turns suffice. -/
def countOneBits (b : Byte) : ℕ := countOneBitsLoop 8 b

/-- `countOneBits` counts the bits that are set. -/
theorem countOneBits_eq : ∀ b : Byte,
    countOneBits b = (List.range 8).countP (fun i => b.getLsbD i) := by
  decide +kernel

/-- What the program takes from outside its own source: `keyHash`, the
    addresses at which `pmem_map_file` maps the leaf-group files, and the value
    an uninitialised local `PPointer` happens to hold. `mmap` returns
    page-aligned addresses. -/
structure Env where
  keyHash : Key → Byte
  pmemAddr : ℕ → ℕ
  pmemAddr_aligned : ∀ f, 4096 ∣ pmemAddr f
  junk : PPointer

/-- An environment in which all keys have the same fingerprint. -/
def Env.flat : Env := ⟨fun _ => 0, fun f => 4096 * f, fun f => dvd_mul_right 4096 f, PPointer.zero⟩

/-- The outcomes of the system calls made during one operation: whether
    `pmem_map_file` succeeds and whether the `free_list` and catalog files can
    be opened for writing. -/
structure Sys where
  mapFile : Bool
  openFreeList : Bool
  openCatalog : Bool

/-- Every system call succeeds. -/
def Sys.ok : Sys := ⟨true, true, true⟩

@[simp] theorem Sys.ok_mapFile : Sys.ok.mapFile = true := rfl
@[simp] theorem Sys.ok_openFreeList : Sys.ok.openFreeList = true := rfl
@[simp] theorem Sys.ok_openCatalog : Sys.ok.openCatalog = true := rfl

end FPTreeDB
