import FPTreeDB.Allocator.Pointers
import FPTreeDB.Model.Layout

/-!
# Fields that do not overlap

The bytes of a leaf-group file are the header and the leaves one after the other; a
leaf is its bitmap, `pNext`, the fingerprints and the slots.

* `Cell.disjoint`, `Range.covers_or_disjoint`: two fields share no byte, and a leaf,
  a header or a group contains a field or has no byte of it.
* `exec_write_frame`, `exec_header_frame`: what a store to a leaf and to a header
  leaves alone.
* `exec_holds`: an access has the same effect on the bytes and by field.
* `execAll_oldNext`, `execAll_getPNext`: the pointers read back.
-/

namespace FPTreeDB

open ByteStore

/-! ## Places -/

/-- The distance of a field from the start of its leaf. -/
def Field.off : Field → ℕ
  | bitmap i => i
  | pNext => 14
  | fingerprint i => 30 + i
  | key i => 142 + i * 16
  | value i => 150 + i * 16

/-- The field is one of the leaf. -/
def Field.Valid : Field → Prop
  | bitmap i => i < bitmapSize LEAF_DEGREE
  | pNext => True
  | fingerprint i | key i | value i => i < LEAF_DEGREE * 2

/-- The cell is one of a leaf-group file. -/
def Cell.Valid : Cell → Prop
  | field p x => Aligned p ∧ x.Valid
  | usedNum _ => True
  | headerByte _ i => i < LEAF_GROUP_AMOUNT

/-- The range is one of a leaf-group file. -/
def Range.Valid : Range → Prop
  | leaf p => Aligned p
  | header _ | group _ => True

/-- The access is to a leaf-group file. -/
def Access.Valid : Access → Prop
  | read c => c.Valid
  | readOldNext p => Aligned p
  | write p x => Aligned p ∧ x.field.Valid
  | writeUsedNum _ _ => True
  | writeHeaderByte _ i _ => i < LEAF_GROUP_AMOUNT
  | clear r | persist r => r.Valid

/-- The range contains the cell. -/
def Range.Covers : Range → Cell → Prop
  | leaf p, .field q _ => q = p
  | leaf _, _ => False
  | header _, .field _ _ => False
  | header f, c => c.fileId = f
  | group f, c => c.fileId = f

theorem mappedLen_eq : mappedLen = 30968 := rfl

theorem leafDegree_eq : LEAF_DEGREE = 56 := rfl

theorem Aligned.offset_eq {p : PPointer} (h : Aligned p) : p.offset = 24 + leafIndex p * 1934 := by
  conv_lhs => rw [h.eq_groupPointer]
  rfl

/-- A leaf lies behind the header and inside the mapped file. -/
theorem Aligned.bounds {p : PPointer} (h : Aligned p) :
    24 ≤ p.offset ∧ p.offset + 1934 ≤ 30968 := by
  have hoff := h.offset_eq
  have hlt : leafIndex p < 16 := h.leafIndex_lt
  omega

/-- Two leaves of a group share no byte. -/
theorem Aligned.apart {p q : PPointer} (hp : Aligned p) (hq : Aligned q) (hf : p.fileId = q.fileId)
    (hne : p ≠ q) : p.offset + 1934 ≤ q.offset ∨ q.offset + 1934 ≤ p.offset := by
  have hoff := hp.offset_eq
  have hoff' := hq.offset_eq
  have hi : leafIndex p ≠ leafIndex q := fun h => hne (hp.ext hq hf h)
  rcases Nat.lt_or_gt_of_ne hi with h | h <;> omega

theorem Field.addr_eq (c : Ctor) (a : ℕ) (x : Field) : x.addr (c.pointers a) = a + x.off := by
  cases c <;> cases x <;>
    simp only [Field.addr, Field.off, Ctor.pointers, LeafPointers.create, LeafPointers.load,
      leafDegree_eq] <;> omega

theorem Field.fits {x : Field} (h : x.Valid) : x.off + x.size ≤ 1934 := by
  cases x <;> simp only [Field.Valid, Field.off, Field.size, bitmapSize, leafDegree_eq]
    at h ⊢ <;> omega

theorem Field.disjoint {x y : Field} (hx : x.Valid) (hy : y.Valid) (h : x ≠ y) :
    x.off + x.size ≤ y.off ∨ y.off + y.size ≤ x.off := by
  cases x <;> cases y <;>
    simp only [Field.Valid, Field.off, Field.size, bitmapSize, leafDegree_eq, ne_eq,
      not_true_eq_false, Field.bitmap.injEq, Field.fingerprint.injEq, Field.key.injEq,
      Field.value.injEq] at hx hy h ⊢ <;>
    omega

section Places

variable {ctor : PPointer → Ctor} {c c' : Cell} {r : Range}

theorem Cell.start_field {p : PPointer} {x : Field} :
    (Cell.field p x).start ctor = p.offset + x.off := Field.addr_eq _ _ _

/-- The fields of a leaf lie inside it. -/
theorem Cell.field_within {p : PPointer} {x : Field} (h : (Cell.field p x).Valid) :
    p.offset ≤ (Cell.field p x).start ctor ∧
      (Cell.field p x).start ctor + x.size ≤ p.offset + 1934 := by
  have hfit := Field.fits h.2
  rw [Cell.start_field]
  omega

theorem Cell.usedNum_within (f : ℕ) : (Cell.usedNum f).start ctor + (Cell.usedNum f).size ≤ 8 := by
  simp only [Cell.start, Cell.size]
  omega

theorem Cell.headerByte_within {f i : ℕ} (h : (Cell.headerByte f i).Valid) :
    8 ≤ (Cell.headerByte f i).start ctor ∧
      (Cell.headerByte f i).start ctor + (Cell.headerByte f i).size ≤ 24 := by
  have hi : i < 16 := h
  simp only [Cell.start, Cell.size]
  omega

/-- Two fields of a leaf-group file share no byte. -/
theorem Cell.disjoint (hc : c.Valid) (hc' : c'.Valid) (hne : c ≠ c') (hf : c.fileId = c'.fileId) :
    c.start ctor + c.size ≤ c'.start ctor ∨ c'.start ctor + c'.size ≤ c.start ctor := by
  cases c with
  | field p x =>
    have hin := @Cell.field_within ctor _ _ hc
    have hb := hc.1.bounds
    cases c' with
    | field q y =>
      have hin' := @Cell.field_within ctor _ _ hc'
      by_cases hpq : p = q
      · subst hpq
        have hxy : x ≠ y := fun h => hne (by rw [h])
        have := Field.disjoint hc.2 hc'.2 hxy
        simp only [Cell.start_field, Cell.size]
        omega
      · have := hc.1.apart hc'.1 hf hpq
        simp only [Cell.size]
        omega
    | usedNum f =>
      have hin' := @Cell.usedNum_within ctor f
      omega
    | headerByte f i =>
      have hin' := @Cell.headerByte_within ctor _ _ hc'
      omega
  | usedNum f =>
    have hin := @Cell.usedNum_within ctor f
    cases c' with
    | field q y =>
      have hin' := @Cell.field_within ctor _ _ hc'
      have hb' := hc'.1.bounds
      omega
    | usedNum g =>
      have hfg : f = g := hf
      exact absurd (congrArg Cell.usedNum hfg) hne
    | headerByte g i =>
      have hin' := @Cell.headerByte_within ctor _ _ hc'
      omega
  | headerByte f i =>
    have hin := @Cell.headerByte_within ctor _ _ hc
    cases c' with
    | field q y =>
      have hin' := @Cell.field_within ctor _ _ hc'
      have hb' := hc'.1.bounds
      omega
    | usedNum g =>
      have hin' := @Cell.usedNum_within ctor g
      omega
    | headerByte g j =>
      have hfg : f = g := hf
      have hij : i ≠ j := fun h => hne (by rw [hfg, h])
      simp only [Cell.start, Cell.size]
      omega

/-- A range contains the cells of a header or has no byte of them. -/
theorem Range.covers_header (hr : r.Valid) (hin : c.start ctor + c.size ≤ 24)
    (hleaf : ∀ p, ¬ (Range.leaf p).Covers c) (hhead : ∀ f, c.fileId = f → (Range.header f).Covers c)
    (hf : c.fileId = r.fileId) :
    (r.Covers c ∧ r.start ≤ c.start ctor ∧ c.start ctor + c.size ≤ r.start + r.size) ∨
    (¬ r.Covers c ∧ (c.start ctor + c.size ≤ r.start ∨ r.start + r.size ≤ c.start ctor)) := by
  cases r with
  | leaf p =>
    have hb := Aligned.bounds hr
    refine Or.inr ⟨hleaf p, Or.inl ?_⟩
    simp only [Range.start]
    omega
  | header f =>
    refine Or.inl ⟨hhead f hf, Nat.zero_le _, ?_⟩
    simp only [Range.start, Range.size, leafGroupHead_eq]
    omega
  | group f =>
    refine Or.inl ⟨hf, Nat.zero_le _, ?_⟩
    simp only [Range.start, Range.size, mappedLen_eq]
    omega

/-- A range contains a field or has no byte of it. -/
theorem Range.covers_or_disjoint (hr : r.Valid) (hc : c.Valid) (hf : c.fileId = r.fileId) :
    (r.Covers c ∧ r.start ≤ c.start ctor ∧ c.start ctor + c.size ≤ r.start + r.size) ∨
    (¬ r.Covers c ∧ (c.start ctor + c.size ≤ r.start ∨ r.start + r.size ≤ c.start ctor)) := by
  cases c with
  | field q x =>
    have hin := @Cell.field_within ctor _ _ hc
    have hb := hc.1.bounds
    cases r with
    | leaf p =>
      simp only [Range.Covers, Range.start, Range.size, Cell.size, calLeafSize_eq]
      by_cases hqp : q = p
      · subst hqp
        exact Or.inl ⟨rfl, hin⟩
      · have := hc.1.apart hr hf hqp
        exact Or.inr ⟨hqp, by omega⟩
    | header f =>
      refine Or.inr ⟨fun h => h, Or.inr ?_⟩
      simp only [Range.start, Range.size, leafGroupHead_eq]
      omega
    | group f =>
      refine Or.inl ⟨hf, ?_⟩
      simp only [Range.start, Range.size, mappedLen_eq, Cell.size]
      omega
  | usedNum g =>
    have hin := @Cell.usedNum_within ctor g
    exact Range.covers_header hr (by omega) (fun p h => h) (fun f h => h) hf
  | headerByte g i =>
    have hin := @Cell.headerByte_within ctor _ _ hc
    exact Range.covers_header hr hin.2 (fun p h => h) (fun f h => h) hf

theorem Range.fits (hr : r.Valid) : r.start + r.size ≤ mappedLen := by
  cases r with
  | leaf p => exact (Aligned.bounds hr).2
  | header f => simp only [Range.start, Range.size, mappedLen_eq, leafGroupHead_eq]; omega
  | group f => simp only [Range.start, Range.size]; omega

theorem Cell.fits (hc : c.Valid) : c.start ctor + c.size ≤ mappedLen := by
  obtain ⟨-, -, h⟩ | ⟨h, -⟩ := @Range.covers_or_disjoint ctor c (.group c.fileId) trivial hc rfl
  · exact h.trans (Nat.le_of_eq (Nat.zero_add _))
  · exact absurd rfl h

/-- The address that `freeLeaf` computes is that of `pNext`. -/
theorem Access.start_readOldNext (p : PPointer) :
    (Access.readOldNext p).start ctor = (Cell.field p .pNext).start ctor := by
  rw [Cell.start_field]
  rfl

theorem Access.fits {a : Access} (ha : a.Valid) : a.start ctor + a.size ≤ mappedLen := by
  cases a with
  | read c => exact Cell.fits ha
  | readOldNext p =>
    rw [Access.start_readOldNext]
    exact Cell.fits (c := .field p .pNext) ⟨ha, trivial⟩
  | write p x => exact Cell.fits (c := .field p x.field) ha
  | writeUsedNum f u => exact @Cell.fits ctor (.usedNum f) trivial
  | writeHeaderByte f i b => exact @Cell.fits ctor (.headerByte f i) ha
  | clear r => exact Range.fits ha
  | persist r => exact Range.fits ha

theorem Range.fileId_of_covers (h : r.Covers c) : c.fileId = r.fileId := by
  cases r with
  | leaf p =>
    cases c with
    | field q x => exact congrArg PPointer.fileId h
    | usedNum f => exact h.elim
    | headerByte f i => exact h.elim
  | header f =>
    cases c with
    | field q x => exact h.elim
    | usedNum g => exact h
    | headerByte g i => exact h
  | group f => exact h

end Places

/-! ## Stores and copies -/

section Stores

variable {ctor : PPointer → Ctor} {c c' : Cell} {r : Range} {m src : ℕ → ℕ → Byte} {bs : List Byte}

/-- The bytes of a cell. -/
def Cell.bytes (ctor : PPointer → Ctor) (m : ℕ → ℕ → Byte) (c : Cell) : List Byte :=
  load (m c.fileId) (c.start ctor) c.size

/-- The bytes of a range. -/
def Range.bytes (m : ℕ → ℕ → Byte) (r : Range) : List Byte := load (m r.fileId) r.start r.size

/-- The bytes `bs` are stored to a cell. -/
def Cell.put (ctor : PPointer → Ctor) (m : ℕ → ℕ → Byte) (c : Cell) (bs : List Byte) :
    ℕ → ℕ → Byte :=
  Function.update m c.fileId (store (m c.fileId) (c.start ctor) bs)

/-- A range is copied. -/
def Range.put (src m : ℕ → ℕ → Byte) (r : Range) : ℕ → ℕ → Byte :=
  Function.update m r.fileId (ByteStore.copy (src r.fileId) (m r.fileId) r.start r.size)

theorem Cell.bytes_put_self (h : bs.length = c.size) : c.bytes ctor (c.put ctor m bs) = bs := by
  rw [Cell.bytes, Cell.put, Function.update_self, ← h]
  exact load_store_self

theorem Cell.bytes_put_of_ne (hc : c.Valid) (hc' : c'.Valid) (hne : c' ≠ c)
    (h : bs.length = c.size) :
    c'.bytes ctor (c.put ctor m bs) = c'.bytes ctor m := by
  rw [Cell.bytes, Cell.put, Cell.bytes]
  by_cases hf : c'.fileId = c.fileId
  · rw [hf, Function.update_self]
    apply load_store_of_disjoint
    rw [h]
    exact Cell.disjoint hc' hc hne hf
  · rw [Function.update_of_ne hf]

/-- A store to a cell outside a range changes no byte of it. -/
theorem Range.bytes_put_of_not_covers (hr : r.Valid) (hc : c.Valid) (hn : ¬ r.Covers c)
    (h : bs.length = c.size) : r.bytes (c.put ctor m bs) = r.bytes m := by
  rw [Range.bytes, Cell.put, Range.bytes]
  by_cases hf : r.fileId = c.fileId
  · rw [hf, Function.update_self]
    apply load_store_of_disjoint
    rw [h]
    obtain ⟨hcov, -⟩ | ⟨-, hd⟩ := @Range.covers_or_disjoint ctor c r hr hc hf.symm
    · exact absurd hcov hn
    · exact hd.symm
  · rw [Function.update_of_ne hf]

theorem Cell.bytes_copy_of_covers (hr : r.Valid) (hc : c.Valid) (h : r.Covers c) :
    c.bytes ctor (r.put src m) = c.bytes ctor src := by
  have hf := Range.fileId_of_covers h
  rw [Cell.bytes, Range.put, Cell.bytes, hf, Function.update_self]
  obtain ⟨-, h1, h2⟩ | ⟨hn, -⟩ := @Range.covers_or_disjoint ctor c r hr hc hf
  · exact load_copy_of_within h1 h2
  · exact absurd h hn

theorem Cell.bytes_copy_of_not_covers (hr : r.Valid) (hc : c.Valid) (h : ¬ r.Covers c) :
    c.bytes ctor (r.put src m) = c.bytes ctor m := by
  rw [Cell.bytes, Range.put, Cell.bytes]
  by_cases hf : c.fileId = r.fileId
  · rw [hf, Function.update_self]
    apply load_copy_of_disjoint
    obtain ⟨hcov, -⟩ | ⟨-, hd⟩ := @Range.covers_or_disjoint ctor c r hr hc hf
    · exact absurd hcov h
    · exact hd
  · rw [Function.update_of_ne hf]

end Stores

/-! ## Bytes and fields -/

namespace FieldStore

variable {img : LeafImage} {x : FieldStore} {y : Field}

@[simp] theorem length_bytes (x : FieldStore) : x.bytes.length = x.field.size := by
  cases x <;> simp [FieldStore.bytes, FieldStore.field, Field.size, PPointer.bytes]

theorem content_self : x.field.content (x.apply img) = x.bytes := by
  cases x <;> simp [FieldStore.bytes, FieldStore.field, FieldStore.apply, Field.content]

theorem content_of_ne (h : y ≠ x.field) : y.content (x.apply img) = y.content img := by
  cases x with
  | bitmap i b =>
    cases y with
    | bitmap j =>
      have hj : j ≠ i := fun e => h (congrArg Field.bitmap e)
      simp only [Field.content, FieldStore.apply, Function.update_of_ne hj]
    | _ => rfl
  | pNext q =>
    cases y with
    | pNext => exact absurd rfl h
    | _ => rfl
  | fingerprint i b =>
    cases y with
    | fingerprint j =>
      have hj : j ≠ i := fun e => h (congrArg Field.fingerprint e)
      simp only [Field.content, FieldStore.apply, Function.update_of_ne hj]
    | _ => rfl
  | key i k =>
    cases y with
    | key j =>
      have hj : j ≠ i := fun e => h (congrArg Field.key e)
      simp only [Field.content, FieldStore.apply, Function.update_of_ne hj]
    | value j =>
      by_cases hj : j = i
      · subst hj
        simp only [Field.content, FieldStore.apply, Function.update_self]
      · simp only [Field.content, FieldStore.apply, Function.update_of_ne hj]
    | _ => rfl
  | value i v =>
    cases y with
    | value j =>
      have hj : j ≠ i := fun e => h (congrArg Field.value e)
      simp only [Field.content, FieldStore.apply, Function.update_of_ne hj]
    | key j =>
      by_cases hj : j = i
      · subst hj
        simp only [Field.content, FieldStore.apply, Function.update_self]
      · simp only [Field.content, FieldStore.apply, Function.update_of_ne hj]
    | _ => rfl

end FieldStore

section Contents

variable {mem mem' src : ℕ → LeafGroup} {c : Cell} {r : Range} {p : PPointer}

theorem Cell.content_congr (h : mem' c.fileId = mem c.fileId) : c.content mem' = c.content mem := by
  cases c with
  | field q y => exact congrArg (fun g : LeafGroup => y.content (g.leaf (leafIndex q))) h
  | usedNum f => exact congrArg (fun g : LeafGroup => word g.usedNum) h
  | headerByte f i => exact congrArg (fun g : LeafGroup => [g.bitmap i]) h

/-- Replacing a leaf changes its own fields only. -/
theorem Cell.content_setLeaf (hp : Aligned p) (hc : c.Valid) (img : LeafImage)
    (h : ∀ y, c = .field p y → y.content img = y.content ((mem p.fileId).leaf (leafIndex p))) :
    c.content (Function.update mem p.fileId ((mem p.fileId).setLeaf (leafIndex p) img)) =
      c.content mem := by
  by_cases hf : c.fileId = p.fileId
  · cases c with
    | field q y =>
      have hf' : q.fileId = p.fileId := hf
      simp only [Cell.content, hf', Function.update_self, LeafGroup.setLeaf]
      by_cases hi : leafIndex q = leafIndex p
      · obtain rfl := hc.1.ext hp hf' hi
        rw [Function.update_self]
        exact h y rfl
      · rw [Function.update_of_ne hi]
    | usedNum f =>
      obtain rfl : f = p.fileId := hf
      simp only [Cell.content, Function.update_self, LeafGroup.setLeaf]
    | headerByte f i =>
      obtain rfl : f = p.fileId := hf
      simp only [Cell.content, Function.update_self, LeafGroup.setLeaf]
  · exact Cell.content_congr (Function.update_of_ne hf _ _)

theorem Cell.content_copy_of_covers (h : r.Covers c) :
    c.content (r.copy src mem) = c.content src := by
  cases r with
  | leaf p =>
    cases c with
    | field q y =>
      obtain rfl : q = p := h
      simp only [Cell.content, Range.copy, Function.update_self, LeafGroup.setLeaf]
    | usedNum f => exact h.elim
    | headerByte f i => exact h.elim
  | header f =>
    cases c with
    | field q y => exact h.elim
    | usedNum g =>
      obtain rfl : g = f := h
      simp only [Cell.content, Range.copy, Function.update_self]
    | headerByte g i =>
      obtain rfl : g = f := h
      simp only [Cell.content, Range.copy, Function.update_self]
  | group f =>
    apply Cell.content_congr
    obtain rfl : c.fileId = f := h
    exact Function.update_self _ _ _

theorem Cell.content_copy_of_not_covers (hr : r.Valid) (hc : c.Valid) (h : ¬ r.Covers c) :
    c.content (r.copy src mem) = c.content mem := by
  cases r with
  | leaf p =>
    apply Cell.content_setLeaf hr hc
    rintro y rfl
    exact absurd rfl h
  | header f =>
    by_cases hf : c.fileId = f
    · subst hf
      cases c with
      | field q y => simp only [Cell.content, Cell.fileId, Range.copy, Function.update_self]
      | usedNum g => exact absurd rfl h
      | headerByte g i => exact absurd rfl h
    · exact Cell.content_congr (Function.update_of_ne hf _ _)
  | group f => exact Cell.content_congr (Function.update_of_ne h _ _)

end Contents

/-- The bytes `m` hold the leaf groups `mem`. -/
def HoldGroups (ctor : PPointer → Ctor) (m : ℕ → ℕ → Byte) (mem : ℕ → LeafGroup) : Prop :=
  ∀ c : Cell, c.Valid → c.bytes ctor m = c.content mem

/-- The bytes hold the leaf groups, as mapped and on storage. -/
structure Bytes.Hold (ctor : PPointer → Ctor) (b : Bytes) (g : Groups) : Prop where
  mem : HoldGroups ctor b.mem g.mem
  file : HoldGroups ctor b.file g.disk

section Hold

variable {ctor : PPointer → Ctor} {m m' src : ℕ → ℕ → Byte} {mem mem' srcMem : ℕ → LeafGroup}
  {c : Cell} {r : Range} {bs : List Byte}

theorem holdGroups_zero : HoldGroups ctor (fun _ _ => 0) fun _ => LeafGroup.zero := by
  intro c _
  cases c with
  | field p x =>
    cases x <;> simp [Cell.bytes, Cell.size, Field.size, Cell.content, Field.content,
      LeafGroup.zero, LeafImage.zero, PPointer.zero, PPointer.bytes, ILLEGAL_FILE_ID]
  | usedNum f => simp [Cell.bytes, Cell.size, Cell.content, LeafGroup.zero]
  | headerByte f i => simp [Cell.bytes, Cell.size, Cell.content, LeafGroup.zero]

/-- A store to one cell. -/
theorem HoldGroups.put (h : HoldGroups ctor m mem) (hc : c.Valid) (hbs : bs.length = c.size)
    (hself : c.content mem' = bs)
    (hne : ∀ c' : Cell, c'.Valid → c' ≠ c → c'.content mem' = c'.content mem) :
    HoldGroups ctor (c.put ctor m bs) mem' := by
  intro c' hc'
  by_cases e : c' = c
  · subst e
    rw [Cell.bytes_put_self hbs, hself]
  · rw [Cell.bytes_put_of_ne hc hc' e hbs, hne c' hc' e]
    exact h c' hc'

/-- A copy of one range. -/
theorem HoldGroups.copy (h : HoldGroups ctor m mem) (hsrc : HoldGroups ctor src srcMem)
    (hr : r.Valid) :
    HoldGroups ctor (r.put src m) (r.copy srcMem mem) := by
  intro c hc
  by_cases hcov : r.Covers c
  · rw [Cell.bytes_copy_of_covers hr hc hcov, Cell.content_copy_of_covers hcov]
    exact hsrc c hc
  · rw [Cell.bytes_copy_of_not_covers hr hc hcov, Cell.content_copy_of_not_covers hr hc hcov]
    exact h c hc

end Hold

namespace Access

variable {ctor : PPointer → Ctor} {a : Access} {b : Bytes} {g : Groups} {log : List Access}

theorem exec_holds (ha : a.Valid) (h : b.Hold ctor g) : (a.exec ctor b).Hold ctor (a.apply g) := by
  cases a with
  | read c => exact h
  | readOldNext p => exact h
  | write p x =>
    refine ⟨?_, h.file⟩
    show HoldGroups ctor ((Cell.field p x.field).put ctor b.mem x.bytes) _
    apply h.mem.put (c := .field p x.field) ha x.length_bytes
    · simp only [Access.apply, Cell.content, Function.update_self, LeafGroup.setLeaf]
      exact FieldStore.content_self
    · intro c hc hne
      apply Cell.content_setLeaf ha.1 hc
      rintro y rfl
      apply FieldStore.content_of_ne
      rintro rfl
      exact hne rfl
  | writeUsedNum f u =>
    refine ⟨?_, h.file⟩
    show HoldGroups ctor ((Cell.usedNum f).put ctor b.mem (word u)) _
    apply h.mem.put (c := .usedNum f) trivial length_word
    · simp only [Access.apply, Cell.content, Function.update_self]
    · intro c _ hne
      by_cases hf : c.fileId = f
      · subst hf
        cases c with
        | field q y => simp only [Access.apply, Cell.content, Cell.fileId, Function.update_self]
        | usedNum f => exact absurd rfl hne
        | headerByte f i => simp only [Access.apply, Cell.content, Cell.fileId,
            Function.update_self]
      · exact Cell.content_congr (Function.update_of_ne hf _ _)
  | writeHeaderByte f i x =>
    refine ⟨?_, h.file⟩
    show HoldGroups ctor ((Cell.headerByte f i).put ctor b.mem [x]) _
    apply h.mem.put (c := .headerByte f i) ha rfl
    · simp only [Access.apply, Cell.content, Function.update_self]
    · intro c _ hne
      by_cases hf : c.fileId = f
      · subst hf
        cases c with
        | field q y => simp only [Access.apply, Cell.content, Cell.fileId, Function.update_self]
        | usedNum f => simp only [Access.apply, Cell.content, Cell.fileId, Function.update_self]
        | headerByte f j =>
          have hj : j ≠ i := fun e => hne (congrArg (Cell.headerByte f) e)
          simp only [Access.apply, Cell.content, Cell.fileId, Function.update_self,
            Function.update_of_ne hj]
      · exact Cell.content_congr (Function.update_of_ne hf _ _)
  | clear r => exact ⟨h.mem.copy holdGroups_zero ha, h.file⟩
  | persist r => exact ⟨h.mem, h.file.copy h.mem ha⟩

theorem execAll_holds (hlog : ∀ a ∈ log, a.Valid) (h : b.Hold ctor g) :
    (execAll ctor log b).Hold ctor (applyAll log g) := by
  induction log generalizing b g with
  | nil => exact h
  | cons a log ih =>
    obtain ⟨ha, hlog⟩ := List.forall_mem_cons.mp hlog
    exact ih hlog (exec_holds ha h)

/-- The constructors agree on the address of an access. -/
theorem start_eq (ctor ctor' : PPointer → Ctor) (a : Access) : a.start ctor' = a.start ctor := by
  have hcell : ∀ c : Cell, c.start ctor' = c.start ctor := by
    intro c
    cases c with
    | field p x => rw [Cell.start_field, Cell.start_field]
    | usedNum f => rfl
    | headerByte f i => rfl
  cases a with
  | read c => exact hcell c
  | write p x => exact hcell (.field p x.field)
  | _ => rfl

theorem exec_eq (ctor ctor' : PPointer → Ctor) (a : Access) (b : Bytes) :
    a.exec ctor' b = a.exec ctor b := by
  cases a with
  | write p x => simp only [Access.exec, Access.storeBytes, start_eq ctor ctor']
  | _ => rfl

end Access

/-! ## What a store leaves alone -/

/-- From `m` to `m'` nothing changes but field `x` of the leaf at `p`: no byte of another
    field, of another leaf or of the header of a leaf group. -/
structure FieldFrame (ctor : PPointer → Ctor) (p : PPointer) (x : Field) (m m' : ℕ → ℕ → Byte) :
    Prop where
  field : ∀ c : Cell, c.Valid → c ≠ .field p x → c.bytes ctor m' = c.bytes ctor m
  leaf : ∀ q, Aligned q → q ≠ p → (Range.leaf q).bytes m' = (Range.leaf q).bytes m
  header : ∀ f, (Range.header f).bytes m' = (Range.header f).bytes m

/-- The accesses by which the allocator updates the header of a leaf group. -/
def Access.HeaderUpdate : Access → Prop
  | writeUsedNum _ _ | writeHeaderByte _ _ _ | persist (.header _) => True
  | _ => False

namespace Access

variable {ctor : PPointer → Ctor} {a : Access} {b : Bytes} {p q : PPointer} {x : FieldStore}

theorem exec_write_frame (h : (write p x).Valid) :
    FieldFrame ctor p x.field b.mem ((write p x).exec ctor b).mem where
  field c hc hne := Cell.bytes_put_of_ne (c := .field p x.field) h hc hne x.length_bytes
  leaf q hq hne := by
    apply Range.bytes_put_of_not_covers (c := .field p x.field) (r := .leaf q) hq h _ x.length_bytes
    intro e
    exact hne (Eq.symm e)
  header f := Range.bytes_put_of_not_covers (c := .field p x.field) trivial h
    (fun e => e) x.length_bytes

theorem exec_header_frame (ha : a.Valid) (hu : a.HeaderUpdate) (hq : Aligned q) :
    (Range.leaf q).bytes (a.exec ctor b).mem = (Range.leaf q).bytes b.mem ∧
    (Range.leaf q).bytes (a.exec ctor b).file = (Range.leaf q).bytes b.file := by
  cases a with
  | writeUsedNum f u =>
    have hleaf := @Range.bytes_put_of_not_covers ctor (.usedNum f) (.leaf q) b.mem
      (word u) hq trivial (fun e => e) length_word
    exact ⟨hleaf, rfl⟩
  | writeHeaderByte f i y =>
    have hleaf := @Range.bytes_put_of_not_covers ctor (.headerByte f i) (.leaf q) b.mem [y] hq ha
      (fun e => e) rfl
    exact ⟨hleaf, rfl⟩
  | persist r =>
    cases r with
    | header f =>
      refine ⟨rfl, ?_⟩
      have hb := hq.bounds
      show load (Function.update b.file f _ q.fileId) q.offset _ = load (b.file q.fileId) q.offset _
      by_cases hf : q.fileId = f
      · rw [hf, Function.update_self]
        apply load_copy_of_disjoint
        simp only [Range.start, Range.size, leafGroupHead_eq]
        omega
      · rw [Function.update_of_ne hf]
    | leaf p => exact hu.elim
    | group f => exact hu.elim
  | read c => exact hu.elim
  | readOldNext p => exact hu.elim
  | write p y => exact hu.elim
  | clear r => exact hu.elim

end Access

/-! ## Reading `pNext` back -/

/-- The `PPointer` at byte `(2 * LEAF_DEGREE + 7) / 8` of the leaf at `p`. -/
def nextOf (m : ℕ → ℕ → Byte) (p : PPointer) : PPointer :=
  readPPointer (m p.fileId) (p.offset + (LEAF_DEGREE * 2 + 7) / 8)

theorem Bytes.oldNext_eq (b : Bytes) (p : PPointer) : b.oldNext p = nextOf b.mem p := rfl

theorem Bytes.getPNext_eq (b : Bytes) (p : PPointer) : b.getPNext p = nextOf b.file p := by
  rw [Bytes.getPNext, nextOf, Nat.add_comm]

theorem readPPointer_of_load {m : ℕ → Byte} {a : ℕ} {q : PPointer} (h : load m a 16 = q.bytes) :
    readPPointer m a = q.word64 := by
  rw [show 16 = 8 + 8 from rfl, load_add] at h
  obtain ⟨h1, h2⟩ := List.append_inj h (by simp)
  rw [readPPointer, h1, h2, ofWord_word, ofWord_word, PPointer.word64]

theorem readPPointer_congr {m m' : ℕ → Byte} {a : ℕ} (h : load m' a 16 = load m a 16) :
    readPPointer m' a = readPPointer m a := by
  rw [show 16 = 8 + 8 from rfl, load_add, load_add] at h
  obtain ⟨h1, h2⟩ := List.append_inj h (by simp)
  rw [readPPointer, h1, h2, readPPointer]

section NextOf

variable (ctor : PPointer → Ctor) {m m' : ℕ → ℕ → Byte} {p q : PPointer}

theorem nextOf_of_bytes (h : (Cell.field p .pNext).bytes ctor m = q.bytes) :
    nextOf m p = q.word64 := by
  rw [Cell.bytes, Cell.start_field] at h
  exact readPPointer_of_load h

theorem nextOf_congr
    (h : (Cell.field p .pNext).bytes ctor m' = (Cell.field p .pNext).bytes ctor m) :
    nextOf m' p = nextOf m p := by
  rw [Cell.bytes, Cell.bytes, Cell.start_field] at h
  exact readPPointer_congr h

end NextOf

/-- Bytes that hold the leaf groups hold the `pNext` of every leaf. -/
theorem HoldGroups.nextOf_eq {ctor : PPointer → Ctor} {m : ℕ → ℕ → Byte} {mem : ℕ → LeafGroup}
    {p : PPointer} (h : HoldGroups ctor m mem) (hp : Aligned p) :
    nextOf m p = ((mem p.fileId).leaf (leafIndex p)).pNext.word64 :=
  nextOf_of_bytes ctor (h (.field p .pNext) ⟨hp, trivial⟩)

/-- What an access stores to `pNext` of the leaf at `p`; `memset` stores the zero
    pointer. -/
def Access.nextStored (p : PPointer) : Access → Option PPointer
  | write q (.pNext x) => if q = p then some x else none
  | clear (.leaf q) => if q = p then some PPointer.zero else none
  | clear (.group f) => if f = p.fileId then some PPointer.zero else none
  | _ => none

/-- The value last stored to `pNext` of the leaf at `p`. -/
def lastNext (p : PPointer) (log : List Access) : Option PPointer :=
  (log.filterMap (Access.nextStored p)).getLast?

/-- The access makes `pNext` of the leaf at `p` durable. -/
def Access.Persists (p : PPointer) : Access → Prop
  | persist r => r.Covers (.field p .pNext)
  | _ => False

namespace Access

variable {ctor : PPointer → Ctor} {a : Access} {b : Bytes} {p : PPointer}
  {log pre mid : List Access}

theorem nextStored_clear_of_covers {r : Range} (h : r.Covers (.field p .pNext)) :
    (clear r).nextStored p = some PPointer.zero := by
  cases r with
  | leaf q =>
    obtain rfl : p = q := h
    exact if_pos rfl
  | header f => exact h.elim
  | group f =>
    obtain rfl : p.fileId = f := h
    exact if_pos rfl

theorem nextStored_clear_of_not_covers {r : Range} (h : ¬ r.Covers (.field p .pNext)) :
    (clear r).nextStored p = none := by
  cases r with
  | leaf q => exact if_neg fun e => h (Eq.symm e)
  | header f => rfl
  | group f => exact if_neg fun e => h (Eq.symm e)

theorem exec_oldNext (ha : a.Valid) (hp : Aligned p) :
    (a.exec ctor b).oldNext p = (a.nextStored p).elim (b.oldNext p) PPointer.word64 := by
  have hc : (Cell.field p .pNext).Valid := ⟨hp, trivial⟩
  rw [Bytes.oldNext_eq, Bytes.oldNext_eq]
  cases a with
  | read c => rfl
  | readOldNext q => rfl
  | write q x =>
    show nextOf ((Cell.field q x.field).put ctor b.mem x.bytes) p = _
    by_cases e : Cell.field p .pNext = .field q x.field
    · obtain ⟨rfl, hx⟩ := Cell.field.injEq .. ▸ e
      cases x with
      | pNext r =>
        rw [Access.nextStored, if_pos rfl]
        exact nextOf_of_bytes ctor (Cell.bytes_put_self (FieldStore.pNext r).length_bytes)
      | _ => cases hx
    · rw [nextOf_congr ctor (Cell.bytes_put_of_ne (c := .field q x.field) ha hc e x.length_bytes)]
      cases x with
      | pNext r =>
        rw [Access.nextStored, if_neg (fun h => e (by rw [h]; rfl))]
        rfl
      | _ => rfl
  | writeUsedNum f u =>
    exact nextOf_congr ctor (@Cell.bytes_put_of_ne ctor (.usedNum f) _ b.mem (word u) trivial hc
      Cell.noConfusion length_word)
  | writeHeaderByte f i y =>
    exact nextOf_congr ctor (@Cell.bytes_put_of_ne ctor (.headerByte f i) _ b.mem [y] ha hc
      Cell.noConfusion rfl)
  | clear r =>
    show nextOf (r.put (fun _ _ => 0) b.mem) p = _
    have hzero : (Cell.field p .pNext).bytes ctor (fun _ _ => 0) = PPointer.zero.bytes :=
      holdGroups_zero _ hc
    by_cases hcov : r.Covers (.field p .pNext)
    · rw [nextOf_of_bytes ctor ((Cell.bytes_copy_of_covers ha hc hcov).trans hzero)]
      rw [nextStored_clear_of_covers hcov]
      rfl
    · rw [nextOf_congr ctor (Cell.bytes_copy_of_not_covers ha hc hcov)]
      rw [nextStored_clear_of_not_covers hcov]
      rfl
  | persist r => rfl

theorem exec_getPNext_of_persists (ha : a.Valid) (hp : Aligned p) (h : a.Persists p) :
    (a.exec ctor b).getPNext p = b.oldNext p := by
  rw [Bytes.getPNext_eq, Bytes.oldNext_eq]
  cases a with
  | persist r => exact nextOf_congr ctor (Cell.bytes_copy_of_covers ha ⟨hp, trivial⟩ h)
  | _ => exact h.elim

theorem exec_getPNext_of_not_persists (ha : a.Valid) (hp : Aligned p) (h : ¬ a.Persists p) :
    (a.exec ctor b).getPNext p = b.getPNext p := by
  rw [Bytes.getPNext_eq, Bytes.getPNext_eq]
  cases a with
  | persist r => exact nextOf_congr ctor (Cell.bytes_copy_of_not_covers ha ⟨hp, trivial⟩ h)
  | _ => rfl

/-- The pointer that `freeLeaf` reads is the one last stored to `pNext`. -/
theorem execAll_oldNext (hlog : ∀ a ∈ log, a.Valid) (hp : Aligned p) :
    (execAll ctor log b).oldNext p = (lastNext p log).elim (b.oldNext p) PPointer.word64 := by
  induction log using List.reverseRecOn with
  | nil => rfl
  | append_singleton log a ih =>
    have ha : a.Valid := hlog a (by simp)
    have hlast : lastNext p (log ++ [a]) = (a.nextStored p).or (lastNext p log) := by
      simp only [lastNext, List.filterMap_append, List.getLast?_append]
      cases h : a.nextStored p <;> simp [h]
    rw [execAll, List.foldl_append, List.foldl_cons, List.foldl_nil, exec_oldNext ha hp, hlast]
    cases a.nextStored p with
    | some q => rw [Option.some_or, Option.elim_some, Option.elim_some]
    | none =>
      rw [Option.none_or, Option.elim_none]
      exact ih fun a' ha' => hlog a' (List.mem_append_left _ ha')

theorem execAll_getPNext_of_not_persists (hlog : ∀ a ∈ log, a.Valid) (hp : Aligned p)
    (h : ∀ a ∈ log, ¬ a.Persists p) : (execAll ctor log b).getPNext p = b.getPNext p := by
  induction log generalizing b with
  | nil => rfl
  | cons a log ih =>
    obtain ⟨ha, hlog⟩ := List.forall_mem_cons.mp hlog
    obtain ⟨hn, h⟩ := List.forall_mem_cons.mp h
    exact (ih hlog h).trans (exec_getPNext_of_not_persists ha hp hn)

/-- The pointer that `getPNext` reads is the one last stored to `pNext` before the
    leaf was last made durable. -/
theorem execAll_getPNext (hlog : ∀ a' ∈ pre ++ a :: mid, a'.Valid) (hp : Aligned p)
    (ha : a.Persists p) (hmid : ∀ a' ∈ mid, ¬ a'.Persists p) :
    (execAll ctor (pre ++ a :: mid) b).getPNext p =
      (lastNext p pre).elim (b.oldNext p) PPointer.word64 := by
  obtain ⟨hpre, hlog⟩ := List.forall_mem_append.mp hlog
  obtain ⟨hav, hmv⟩ := List.forall_mem_cons.mp hlog
  have hsplit : execAll ctor (pre ++ a :: mid) b =
      execAll ctor mid (a.exec ctor (execAll ctor pre b)) := by
    rw [execAll, List.foldl_append]
    rfl
  rw [hsplit, execAll_getPNext_of_not_persists hmv hp hmid, exec_getPNext_of_persists hav hp ha]
  exact execAll_oldNext hpre hp

end Access

end FPTreeDB
