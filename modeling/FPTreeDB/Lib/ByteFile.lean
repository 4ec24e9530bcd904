import FPTreeDB.Lib.ByteStore

/-!
# Files of bytes

A stream is a file with a position. `write` fills the gap that a seek past the end leaves
with zero bytes; `read` into a buffer leaves the end of the buffer as it is when the file
ends before.

* `truncated_write`, `truncated_writes`: what a seek and the writes after it leave.
* `read_at`, `read_end`: a read inside the file, and one at its end.
* `readRecords_cons`, `readRecords_end`: a loop that reads records of one size.
-/

namespace ByteFile

/-- A file and the position in it. -/
structure Stream where
  bytes : List (BitVec 8)
  pos : ℕ

/-- A file opened for writing, which truncates it. -/
def truncated : Stream := ⟨[], 0⟩

namespace Stream

def seek (pos : ℕ) (f : Stream) : Stream := { f with pos := pos }

def write (bs : List (BitVec 8)) (f : Stream) : Stream where
  bytes := (f.bytes ++ List.replicate (f.pos - f.bytes.length) 0).take f.pos ++ bs ++
    f.bytes.drop (f.pos + bs.length)
  pos := f.pos + bs.length

/-- `n` bytes are read to `dst`: the buffer afterwards. -/
def read (n : ℕ) (dst : List (BitVec 8)) (f : Stream) : List (BitVec 8) × Stream :=
  let got := (f.bytes.drop f.pos).take n
  (got ++ dst.drop got.length, { f with pos := f.pos + got.length })

/-- Read `m` records of `size` bytes to the same buffer and decode each. -/
def readRecords {α : Type*} (size : ℕ) (decode : List (BitVec 8) → α) :
    ℕ → List (BitVec 8) → Stream → List α
  | 0, _, _ => []
  | m + 1, dst, f =>
    let (dst, f) := f.read size dst
    decode dst :: readRecords size decode m dst f

variable {f : Stream} {a b pre bs rest dst : List (BitVec 8)} {n pos : ℕ}

/-- What a write to a truncated file leaves. -/
theorem truncated_write (pos : ℕ) (bs : List (BitVec 8)) :
    (truncated.seek pos).write bs = ⟨List.replicate pos 0 ++ bs, pos + bs.length⟩ := by
  simp [truncated, seek, write]

/-- A write at the end of the file. -/
theorem write_end (pre bs : List (BitVec 8)) :
    (⟨pre, pre.length⟩ : Stream).write bs = ⟨pre ++ bs, (pre ++ bs).length⟩ := by
  simp [write]

/-- Writes at the end, one after the other. -/
theorem writes_end (chunks : List (List (BitVec 8))) (pre : List (BitVec 8)) :
    chunks.foldl (fun f bs => f.write bs) ⟨pre, pre.length⟩ =
      (⟨pre ++ chunks.flatten, (pre ++ chunks.flatten).length⟩ : Stream) := by
  induction chunks generalizing pre with
  | nil => simp
  | cons bs chunks ih => rw [List.foldl_cons, write_end, ih, List.flatten_cons, List.append_assoc]

/-- Writes to a truncated file behind a seek. -/
theorem truncated_writes (pos : ℕ) (chunks : List (List (BitVec 8))) (hne : chunks ≠ []) :
    (chunks.foldl (fun f bs => f.write bs) (truncated.seek pos)).bytes =
      List.replicate pos 0 ++ chunks.flatten := by
  obtain ⟨bs, chunks, rfl⟩ := List.exists_cons_of_ne_nil hne
  have hlen : pos + bs.length = (List.replicate pos (0 : BitVec 8) ++ bs).length := by simp
  rw [List.foldl_cons, truncated_write, hlen, writes_end, List.flatten_cons, List.append_assoc]

/-- A read of bytes that are there. -/
theorem read_at (pre rest : List (BitVec 8)) (hbytes : f.bytes = pre ++ bs ++ rest)
    (hpos : f.pos = pre.length) (hbs : bs.length = n) (hdst : dst.length = n) :
    f.read n dst = (bs, { f with pos := f.pos + n }) := by
  have hgot : (f.bytes.drop f.pos).take n = bs := by
    rw [hbytes, hpos, List.append_assoc, List.drop_left, ← hbs, List.take_left]
  rw [read, hgot, List.drop_eq_nil_of_le (by omega), List.append_nil, hbs]

/-- A read at the end of the file. -/
theorem read_end (pre dst : List (BitVec 8)) (n : ℕ) :
    (⟨pre, pre.length⟩ : Stream).read n dst = (dst, ⟨pre, pre.length⟩) := by
  simp [read]

variable {α : Type*} {size m : ℕ} {decode : List (BitVec 8) → α}

theorem readRecords_cons (hbs : bs.length = size) (hdst : dst.length = size) :
    readRecords size decode (m + 1) dst ⟨pre ++ bs ++ rest, pre.length⟩ =
      decode bs :: readRecords size decode m bs ⟨pre ++ bs ++ rest, (pre ++ bs).length⟩ := by
  rw [readRecords, read_at pre rest rfl rfl hbs hdst, List.length_append, hbs]

theorem readRecords_end (pre dst : List (BitVec 8)) :
    readRecords size decode (m + 1) dst ⟨pre, pre.length⟩ =
      decode dst :: readRecords size decode m dst ⟨pre, pre.length⟩ := by
  rw [readRecords, read_end]

end Stream

end ByteFile
