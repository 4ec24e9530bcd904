import FPTreeDB.Lib.ByteStore
import FPTreeDB.Lib.CarryLess
import FPTreeDB.Model.Utility

/-!
# CLHash and `keyHash`

Models of `src/clhash.c` and of `keyHash` (utility.cpp:27-35), without `BITMIX`. A
`__m128i` is a `BitVec 128`; the intrinsics are under their names without the leading
underscore. A pointer into the string or into the random key is an index; `none` is a
load outside the string or outside the random key. Lengths are natural numbers.
-/

namespace FPTreeDB

namespace ClHash

open CarryLess

/-- `uint64_t`. -/
abbrev Word := BitVec 64

/-- `__m128i`. -/
abbrev M128 := BitVec 128

/-! ## Intrinsics -/

/-- The 64 high bits. -/
def hi (a : M128) : Word := a.extractLsb' 64 64

/-- The 64 low bits: `_mm_cvtsi128_si64`. -/
def lo (a : M128) : Word := a.extractLsb' 0 64

/-- Byte `i`. -/
def byteOf (a : M128) (i : ℕ) : Byte := a.extractLsb' (8 * i) 8

def mmSetEpi64x (e1 e0 : Word) : M128 := e1 ++ e0

/-- `_mm_cvtsi64_si128` and `_mm_loadl_epi64`: the high half is zero. -/
def mmCvtsi64Si128 (x : Word) : M128 := mmSetEpi64x 0 x

def mmSetrEpi8 (f : ℕ → Byte) : M128 :=
  BitVec.ofNat 128 (Nat.ofDigits 256 ((List.range 16).map fun i => (f i).toNat))

def mmSetrEpi32 (e0 e1 e2 e3 : BitVec 32) : M128 := (e3 ++ e2) ++ (e1 ++ e0)

def mmSlliEpi64 (a : M128) (n : ℕ) : M128 := (hi a <<< n) ++ (lo a <<< n)

def mmSrliEpi64 (a : M128) (n : ℕ) : M128 := (hi a >>> n) ++ (lo a >>> n)

def mmSlliSi128 (a : M128) (n : ℕ) : M128 := a <<< (8 * n)

def mmSrliSi128 (a : M128) (n : ℕ) : M128 := a >>> (8 * n)

/-- Bit 0 of the immediate selects the half of `a`, bit 4 the half of `b`. -/
def mmClmulepi64Si128 (a b : M128) (imm : ℕ) : M128 :=
  clmul (if imm.testBit 0 then hi a else lo a) (if imm.testBit 4 then hi b else lo b)

/-- A byte of `b` with its top bit set gives zero; the others select a byte of `a`. -/
def mmShuffleEpi8 (a b : M128) : M128 :=
  mmSetrEpi8 fun i => if (byteOf b i).getLsbD 7 then 0 else byteOf a ((byteOf b i).toNat % 16)

/-! ## Reductions -/

/-- The common body of `leftshift1` and `leftshift2`. -/
def leftshift (x : ℕ) (a : M128) : M128 :=
  let u64shift := mmSlliEpi64 a x
  let topbits := mmSlliSi128 (mmSrliEpi64 a (64 - x)) 8
  u64shift ||| topbits

/-- `leftshift1` (clhash.c:14-19). -/
def leftshift1 (a : M128) : M128 := leftshift 1 a

/-- `leftshift2` (clhash.c:22-27). -/
def leftshift2 (a : M128) : M128 := leftshift 2 a

/-- `lazymod127` (clhash.c:39-55). -/
def lazymod127 (Alow Ahigh : M128) : M128 :=
  let shift1 := leftshift1 Ahigh
  let shift2 := leftshift2 Ahigh
  (Alow ^^^ shift1) ^^^ shift2

/-- `mul128by128to128_lazymod127` (clhash.c:61-72). -/
def mul128by128to128Lazymod127 (A B : M128) : M128 :=
  let Amix1 := mmClmulepi64Si128 A B 0x01
  let Amix2 := mmClmulepi64Si128 A B 0x10
  let Alow := mmClmulepi64Si128 A B 0x00
  let Ahigh := mmClmulepi64Si128 A B 0x11
  let Amix := Amix1 ^^^ Amix2
  let Amix1 := mmSlliSi128 Amix 8
  let Amix2 := mmSrliSi128 Amix 8
  lazymod127 (Alow ^^^ Amix1) (Ahigh ^^^ Amix2)

/-- `lazyLengthHash` (clhash.c:78-82). -/
def lazyLengthHash (keylength length : Word) : M128 :=
  let lengthvector := mmSetEpi64x keylength length
  mmClmulepi64Si128 lengthvector lengthvector 0x10

/-- The table of `precompReduction64_si128`. -/
def reductionTable : M128 :=
  mmSetrEpi8 fun i => ([0, 27, 54, 45, 108, 119, 90, 65, 216, 195, 238, 245, 180, 175, 130, 153] :
    List Byte).getD i 0

/-- `precompReduction64_si128` (clhash.c:86-96). -/
def precompReduction64Si128 (A : M128) : M128 :=
  let C := mmCvtsi64Si128 ((1 <<< 4) + (1 <<< 3) + (1 <<< 1) + (1 <<< 0))
  let Q2 := mmClmulepi64Si128 A C 0x01
  let Q3 := mmShuffleEpi8 reductionTable (mmSrliSi128 Q2 8)
  let Q4 := Q2 ^^^ A
  Q3 ^^^ Q4

/-- `precompReduction64` (clhash.c:99-101). -/
def precompReduction64 (A : M128) : Word := lo (precompReduction64Si128 A)

/-- `simple128to64hashwithlength` (clhash.c:106-111). -/
def simple128to64hashwithlength (value key : M128) (keylength length : Word) : Word :=
  let add := value ^^^ key
  let clprod1 := mmClmulepi64Si128 add add 0x10
  precompReduction64 (clprod1 ^^^ lazyLengthHash keylength length)

/-! ## Loads -/

/-- `RANDOM_64BITWORDS_NEEDED_FOR_CLHASH` (clhash.h:25). -/
def RANDOM_64BITWORDS_NEEDED_FOR_CLHASH : ℕ := 133

/-- `_mm_load_si128(rs64 + i)`. -/
def loadKey (a64 : ℕ → Word) (i : ℕ) : Option M128 :=
  if 2 * i + 1 < RANDOM_64BITWORDS_NEEDED_FOR_CLHASH then
    some (mmSetEpi64x (a64 (2 * i + 1)) (a64 (2 * i)))
  else none

/-- `*(const uint64_t *)(rs64 + i)`. -/
def loadKeyWord (a64 : ℕ → Word) (i : ℕ) : Option Word :=
  if 2 * i < RANDOM_64BITWORDS_NEEDED_FOR_CLHASH then some (a64 (2 * i)) else none

/-- The bytes from `8 * i` on, at most eight of them, as a little-endian number. -/
def wordAt (s : List Byte) (i : ℕ) : Word :=
  BitVec.ofNat 64 (ByteStore.ofWord ((s.drop (8 * i)).take 8))

/-- `string[i]`. -/
def loadWord (s : List Byte) (i : ℕ) : Option Word :=
  if 8 * (i + 1) ≤ s.length then some (wordAt s i) else none

/-- `_mm_lddqu_si128((__m128i *) (string + i))`. -/
def loadPair (s : List Byte) (i : ℕ) : Option M128 := do
  let e0 ← loadWord s i
  let e1 ← loadWord s (i + 1)
  some (mmSetEpi64x e1 e0)

/-- `createLastWord` (clhash.c:250-255) on `string + i`; the bytes beyond those copied
    are zero. -/
def createLastWord (s : List Byte) (i : ℕ) : Word :=
  BitVec.ofNat 64 (ByteStore.ofWord ((s.drop (8 * i)).take (s.length % 8)))

/-! ## Half scalar products -/

/-- `add1 = temp1 ^ temp2; clprod1 = clmul(add1, add1, imm); acc = clprod1 ^ acc;`. -/
def addProduct (imm : ℕ) (temp1 temp2 acc : M128) : M128 :=
  let add1 := temp1 ^^^ temp2
  mmClmulepi64Si128 add1 add1 imm ^^^ acc

/-- The state of the loops: `randomsource`, `string` and `acc`. -/
structure Scan where
  randomsource : ℕ
  string : ℕ
  acc : M128

/-- `for (; string + 3 < endstring; randomsource += 2, string += 4)`, the loop that the
    three functions share, at most `fuel` tests. -/
def scanFours (a64 : ℕ → Word) (s : List Byte) (endstring : ℕ) : ℕ → Scan → Option Scan
  | 0, _ => none
  | fuel + 1, st =>
    if st.string + 3 < endstring then do
      let temp1 ← loadKey a64 st.randomsource
      let temp2 ← loadPair s st.string
      let acc := addProduct 0x10 temp1 temp2 st.acc
      let temp12 ← loadKey a64 (st.randomsource + 1)
      let temp22 ← loadPair s (st.string + 2)
      let acc := addProduct 0x10 temp12 temp22 acc
      scanFours a64 s endstring fuel ⟨st.randomsource + 2, st.string + 4, acc⟩
    else some st

/-- `if (string + 1 < endstring)` in the two functions with a tail. -/
def scanTwo (a64 : ℕ → Word) (s : List Byte) (endstring : ℕ) (st : Scan) : Option Scan :=
  if st.string + 1 < endstring then do
    let temp1 ← loadKey a64 st.randomsource
    let temp2 ← loadPair s st.string
    some ⟨st.randomsource + 1, st.string + 2, addProduct 0x10 temp1 temp2 st.acc⟩
  else some st

/-- `__clmulhalfscalarproductwithoutreduction` (clhash.c:118-141). -/
def clmulhalfscalarproductwithoutreduction (a64 : ℕ → Word) (s : List Byte) (string length : ℕ) :
    Option M128 := do
  let st ← scanFours a64 s (string + length) (length + 1) ⟨0, string, 0⟩
  some st.acc

/-- `__clmulhalfscalarproductwithtailwithoutreduction` (clhash.c:146-186). -/
def clmulhalfscalarproductwithtailwithoutreduction (a64 : ℕ → Word) (s : List Byte)
    (string length : ℕ) :
    Option M128 := do
  let endstring := string + length
  let st ← scanFours a64 s endstring (length + 1) ⟨0, string, 0⟩
  let st ← scanTwo a64 s endstring st
  if st.string < endstring then do
    let temp1 ← loadKey a64 st.randomsource
    let e0 ← loadWord s st.string
    some (addProduct 0x10 temp1 (mmCvtsi64Si128 e0) st.acc)
  else some st.acc

/-- `__clmulhalfscalarproductwithtailwithoutreductionWithExtraWord` (clhash.c:188-228). -/
def clmulhalfscalarproductwithtailwithoutreductionWithExtraWord (a64 : ℕ → Word) (s : List Byte)
    (string length : ℕ) (extraword : Word) : Option M128 := do
  let endstring := string + length
  let st ← scanFours a64 s endstring (length + 1) ⟨0, string, 0⟩
  let st ← scanTwo a64 s endstring st
  let temp1 ← loadKey a64 st.randomsource
  if st.string < endstring then do
    let e0 ← loadWord s st.string
    some (addProduct 0x10 temp1 (mmSetEpi64x extraword e0) st.acc)
  else some (addProduct 0x01 temp1 (mmCvtsi64Si128 extraword) st.acc)

/-- `__clmulhalfscalarproductOnlyExtraWord` (clhash.c:231-238). -/
def clmulhalfscalarproductOnlyExtraWord (a64 : ℕ → Word) (extraword : Word) : Option M128 := do
  let temp1 ← loadKey a64 0
  let add1 := temp1 ^^^ mmCvtsi64Si128 extraword
  some (mmClmulepi64Si128 add1 add1 0x01)

/-! ## `clhash` -/

/-- `m` (clhash.c:264). -/
def m : ℕ := 128

/-- `for (; t + m <= length; t += m)`, at most `fuel` tests: `t` and `acc`. -/
def blockLoop (a64 : ℕ → Word) (s : List Byte) (polyvalue : M128) (length : ℕ) :
    ℕ → ℕ → M128 → Option (ℕ × M128)
  | 0, _, _ => none
  | fuel + 1, t, acc =>
    if t + m ≤ length then do
      let acc := mul128by128to128Lazymod127 polyvalue acc
      let h1 ← clmulhalfscalarproductwithoutreduction a64 s t m
      blockLoop a64 s polyvalue length fuel (t + m) (acc ^^^ h1)
    else some (t, acc)

/-- The words after the last full block of a long string (clhash.c:287-315). -/
def lastBlock (a64 : ℕ → Word) (s : List Byte) (polyvalue : M128) (length t : ℕ) (acc : M128) :
    Option M128 :=
  let remain := length - t
  if remain ≠ 0 then do
    let acc := mul128by128to128Lazymod127 polyvalue acc
    if s.length % 8 = 0 then do
      let h1 ← clmulhalfscalarproductwithtailwithoutreduction a64 s t remain
      some (acc ^^^ h1)
    else do
      let lastword := createLastWord s length
      let h1 ← clmulhalfscalarproductwithtailwithoutreductionWithExtraWord a64 s t remain lastword
      some (acc ^^^ h1)
  else if s.length % 8 ≠ 0 then do
    let acc := mul128by128to128Lazymod127 polyvalue acc
    let lastword := createLastWord s length
    let h1 ← clmulhalfscalarproductOnlyExtraWord a64 lastword
    some (acc ^^^ h1)
  else some acc

/-- `clhash` (clhash.c:260-341) of the bytes `s` with the random key `a64`. -/
def clhash (a64 : ℕ → Word) (s : List Byte) : Option Word := do
  let m128neededperblock := m / 2
  let polyvalue ← loadKey a64 m128neededperblock
  let polyvalue := polyvalue &&& mmSetrEpi32 0xFFFFFFFF 0xFFFFFFFF 0xFFFFFFFF 0x3fffffff
  let lengthbyte := s.length
  let length := lengthbyte / 8
  let lengthinc := (lengthbyte + 8 - 1) / 8
  if m < lengthinc then do
    let acc ← clmulhalfscalarproductwithoutreduction a64 s 0 m
    let (t, acc) ← blockLoop a64 s polyvalue length (length + 1) m acc
    let acc ← lastBlock a64 s polyvalue length t acc
    let finalkey ← loadKey a64 (m128neededperblock + 1)
    let keylength ← loadKeyWord a64 (m128neededperblock + 2)
    some (simple128to64hashwithlength acc finalkey keylength (BitVec.ofNat 64 lengthbyte))
  else if lengthbyte % 8 = 0 then do
    let acc ← clmulhalfscalarproductwithtailwithoutreduction a64 s 0 length
    let keylength ← loadKeyWord a64 (m128neededperblock + 2)
    some (precompReduction64 (acc ^^^ lazyLengthHash keylength (BitVec.ofNat 64 lengthbyte)))
  else do
    let lastword := createLastWord s length
    let acc ← clmulhalfscalarproductwithtailwithoutreductionWithExtraWord a64 s 0 length lastword
    let keylength ← loadKeyWord a64 (m128neededperblock + 2)
    some (precompReduction64 (acc ^^^ lazyLengthHash keylength (BitVec.ofNat 64 lengthbyte)))

/-! ## The random key -/

/-- `xorshift128plus_key_t` (clhash.c:352-355). -/
structure Xorshift128plusKey where
  part1 : Word
  part2 : Word
deriving DecidableEq

/-- `xorshift128plus` (clhash.c:387-394): the number returned and the key afterwards. -/
def xorshift128plus (key : Xorshift128plusKey) : Word × Xorshift128plusKey :=
  let s1 := key.part1
  let s0 := key.part2
  let part1 := s0
  let s1 := s1 ^^^ (s1 <<< 23)
  let part2 := s1 ^^^ s0 ^^^ (s1 >>> 18) ^^^ (s0 >>> 5)
  (part2 + s0, ⟨part1, part2⟩)

/-- The first `n` numbers and the key after them. -/
def draws : ℕ → Xorshift128plusKey → List Word × Xorshift128plusKey
  | 0, k => ([], k)
  | n + 1, k =>
    let (x, k) := xorshift128plus k
    let (xs, k) := draws n k
    (x :: xs, k)

/-- `while((a64[128]==0) && (a64[129]==1))`, at most `fuel` tests. -/
def redraw : ℕ → (ℕ → Word) → Xorshift128plusKey → Option (ℕ → Word)
  | 0, _, _ => none
  | fuel + 1, a64, k =>
    if a64 128 = 0 ∧ a64 129 = 1 then
      let (x, k) := xorshift128plus k
      let a64 := Function.update a64 128 x
      let (y, k) := xorshift128plus k
      redraw fuel (Function.update a64 129 y) k
    else some a64

/-- `get_random_key_for_clhash` (clhash.c:396-413), when `posix_memalign` succeeds. -/
def getRandomKeyForClhash (fuel : ℕ) (seed1 seed2 : Word) : Option (ℕ → Word) :=
  let (xs, k) := draws RANDOM_64BITWORDS_NEEDED_FOR_CLHASH ⟨seed1, seed2⟩
  redraw fuel (fun i => xs.getD i 0) k

/-! ## `keyHash` -/

/-- The bytes of `std::to_string(k)`. -/
def toString (k : Key) : List Byte := (Nat.toDigits 10 k.val).map fun c => BitVec.ofNat 8 c.toNat

/-- `keyHash` (utility.cpp:27-35): the first byte of the hash of `to_string(k)`. -/
def keyHash (fuel : ℕ) (k : Key) : Option Byte := do
  let a64 ← getRandomKeyForClhash fuel 0x23a23cf5033c3c81 0xb3816f6a2c68e530
  let temp ← clhash a64 (toString k)
  some (temp.setWidth 8)

end ClHash

end FPTreeDB
