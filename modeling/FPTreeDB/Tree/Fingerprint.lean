import FPTreeDB.Tree.LeafDegree

/-!
# Fingerprints

`find`, `update` and `remove` of a leaf compare a key only in the slots that carry
its fingerprint. The same methods without that test are the `scan` functions below.

* `Reached.inv`: in every leaf, each used slot carries the fingerprint of its key.
* `fingerprint_transparent`: the test makes no difference.
-/

namespace FPTreeDB

open LeafImage

/-! ## The plain scan -/

/-- The first used slot that holds `k`. -/
def LeafImage.scanSlot (L : ℕ) (img : LeafImage) (k : Key) : Option ℕ :=
  (List.range (L * 2)).find? fun i => img.getBit L i && k == (img.kv i).k

namespace LeafNode

/-- `find` without fingerprints. -/
def scanFind (p : PPointer) (k : Key) (s : World) : Option Value := do
  let _ ← s.nodes p
  match (s.leafAt p).scanSlot LEAF_DEGREE k with
  | some i => some ((s.leafAt p).kv i).v
  | none => some MAX_VALUE

/-- `update` without fingerprints. -/
def scanUpdate (p : PPointer) (k : Key) (v : Value) (s : World) : Option (Bool × World) := do
  let _ ← s.nodes p
  match (s.leafAt p).scanSlot LEAF_DEGREE k with
  | some i => some (true, (s.setLeaf p ((s.leafAt p).updateAt i v)).persistLeaf p)
  | none => some (false, s)

/-- `remove` without fingerprints. -/
def scanRemove (sys : Sys) (p : PPointer) (k : Key) (ifDelete : Bool) (s : World) :
    Option (Bool × Bool × World) := do
  let nd ← s.nodes p
  match (s.leafAt p).scanSlot LEAF_DEGREE k with
  | none => some (false, ifDelete, s)
  | some pos => do
    let s' ← s.modifyNode p fun x => { x with n := nd.n - 1 }
    let s' := (s'.setLeaf p ((s.leafAt p).removeAt pos)).persistLeaf p
    if nd.n - 1 = 0 then do
      let s' ← unlink p (PAllocator.freeLeaf sys p s').2
      some (true, true, s')
    else some (true, false, s')

end LeafNode

/-! ## The leaves of any run -/

/-- `LeafNode::update` (fptree.cpp:784-798). -/
def LeafObj.update (keyHash : Key → Byte) (L : ℕ) (k : Key) (v : Value) (x : LeafObj) : LeafObj :=
  match x.img.findSlot keyHash L k with
  | some i => ⟨x.img.updateAt i v, x.n⟩
  | none => x

/-- The leaves that insertions of fresh keys, with their splits, updates, removals and
    loading from the persistent pointer lead to. -/
inductive Reached (keyHash : Key → Byte) : LeafObj → Prop
  | create : Reached keyHash ⟨LeafImage.zero, 0⟩
  | insert {x y : LeafObj} {new : Option LeafObj} (k : Key) (v : Value) (q : PPointer) :
      Reached keyHash x →
      k ∉ x.img.keys LEAF_DEGREE → x.insert keyHash LEAF_DEGREE k v q = (y, new) → Reached keyHash y
  | split {x y z : LeafObj} (k : Key) (v : Value) (q : PPointer) : Reached keyHash x →
      k ∉ x.img.keys LEAF_DEGREE → x.insert keyHash LEAF_DEGREE k v q = (y, some z) →
      Reached keyHash z
  | update {x : LeafObj} (k : Key) (v : Value) : Reached keyHash x →
      Reached keyHash (x.update keyHash LEAF_DEGREE k v)
  | remove {x y : LeafObj} (k : Key) : Reached keyHash x → x.remove keyHash LEAF_DEGREE k = some y →
      Reached keyHash y
  | reload {x : LeafObj} : Reached keyHash x → Reached keyHash (x.reload LEAF_DEGREE)

section

variable {keyHash : Key → Byte} {L : ℕ} {b : Bool} {x : LeafObj} {k : Key} {v : Value}

theorem LeafObj.Inv.update (h : x.Inv keyHash L b) : (x.update keyHash L k v).Inv keyHash L b := by
  unfold LeafObj.update
  cases x.img.findSlot keyHash L k with
  | none => exact h
  | some i => exact ⟨by dsimp only; rw [slots_updateAt]; exact h.n_eq,
      by dsimp only; rw [slots_updateAt]; exact h.lt,
      h.ok.updateAt, h.padding⟩

/-- Every leaf has the right count and fingerprints. -/
theorem Reached.inv (h : Reached keyHash x) : ∃ b, x.Inv keyHash LEAF_DEGREE b := by
  have hL : 1 ≤ LEAF_DEGREE := by decide
  induction h with
  | create => exact ⟨false, LeafObj.inv_create hL⟩
  | insert k v q _ hk hres ih =>
    obtain ⟨b, ih⟩ := ih
    rcases ih.insert hL hk with ⟨y, hy, hinv⟩ | ⟨y, z, hy, hinv, -⟩
    · obtain ⟨rfl, -⟩ := Prod.mk.inj (hres.symm.trans hy)
      exact ⟨b, hinv⟩
    · obtain ⟨rfl, -⟩ := Prod.mk.inj (hres.symm.trans hy)
      exact ⟨true, hinv⟩
  | split k v q _ hk hres ih =>
    obtain ⟨b, ih⟩ := ih
    rcases ih.insert hL hk with ⟨y, hy, -⟩ | ⟨y, z, hy, -, hinv⟩
    · cases (Prod.mk.inj (hres.symm.trans hy)).2
    · obtain rfl := Option.some.inj (Prod.mk.inj (hres.symm.trans hy)).2
      exact ⟨false, hinv⟩
  | update k v _ ih =>
    obtain ⟨b, ih⟩ := ih
    exact ⟨b, ih.update⟩
  | remove k _ hres ih =>
    obtain ⟨b, ih⟩ := ih
    exact ⟨b, ih.remove hres⟩
  | reload _ ih =>
    obtain ⟨b, ih⟩ := ih
    exact ⟨b, congrArg Nat.cast (countBits_eq (by decide) _), ih.lt, ih.ok, ih.padding⟩

/-- Where the fingerprints match the keys, the test on them filters nothing. -/
theorem findSlot_eq_scanSlot {img : LeafImage} (h : img.Ok keyHash L) (k : Key) :
    img.findSlot keyHash L k = img.scanSlot L k := by
  unfold LeafImage.findSlot LeafImage.scanSlot
  congr 1
  funext i
  by_cases hbit : img.getBit L i = true
  · rw [h.fingerprint i (mem_slots.mpr hbit), hbit]
    by_cases hk : k = (img.kv i).k
    · rw [hk]
      simp
    · simp [hk]
  · simp [hbit]

end

/-! ## The methods on the leaves of a store -/

section

variable {env : Env} {s s1 : World} {p : PPointer} {x : LeafObj} {k : Key} {v : Value} {r : Bool}

/-- `LeafNode::update` on a leaf of the store. -/
theorem update_leafObj (hx : s.leafObj p = some x)
    (hres : LeafNode.update env p k v s = some (r, s1)) :
    s1.leafObj p = some (x.update env.keyHash LEAF_DEGREE k v) := by
  obtain ⟨nd, hn, rfl⟩ := Option.map_eq_some_iff.mp hx
  rw [LeafObj.update]
  cases hf : (s.leafAt p).findSlot env.keyHash LEAF_DEGREE k with
  | none =>
    rw [update_eq_none hn hf] at hres
    obtain ⟨-, rfl⟩ := Prod.mk.inj (Option.some.inj hres)
    exact hx
  | some i =>
    rw [update_eq_some hn hf] at hres
    obtain ⟨-, rfl⟩ := Prod.mk.inj (Option.some.inj hres)
    rw [World.leafObj, edit_nodes_self, edit_leafAt_self]
    rfl

/-- `LeafNode::remove` on a leaf of the store that keeps an entry. -/
theorem remove_leafObj {sys : Sys} {c : Bool} (hx : s.leafObj p = some x)
    (hres : LeafNode.remove env sys p k c s = some (r, false, s1)) :
    s1.leafObj p = x.remove env.keyHash LEAF_DEGREE k := by
  obtain ⟨nd, hn, rfl⟩ := Option.map_eq_some_iff.mp hx
  rw [LeafObj.remove]
  cases hf : (s.leafAt p).findSlot env.keyHash LEAF_DEGREE k with
  | none =>
    rw [remove_eq_none hn hf] at hres
    obtain ⟨-, hres⟩ := Prod.mk.inj (Option.some.inj hres)
    obtain ⟨-, rfl⟩ := Prod.mk.inj hres
    exact hx
  | some i =>
    rw [remove_eq_some hn hf] at hres
    dsimp only
    split_ifs at hres ⊢ with hzero
    · obtain ⟨s2, -, h2⟩ := Option.map_eq_some_iff.mp hres
      cases (Prod.mk.inj (Prod.mk.inj h2).2).1
    · obtain ⟨-, hres⟩ := Prod.mk.inj (Option.some.inj hres)
      obtain ⟨-, rfl⟩ := Prod.mk.inj hres
      rw [World.leafObj, World.clearSlot, edit_nodes_self, edit_leafAt_self]
      rfl

/-- `LeafNode::LeafNode(PPointer, FPTree*)` on a leaf of the store. -/
theorem load_leafObj (hx : s.leafObj p = some x) :
    (LeafNode.load p s).leafObj p = some (x.reload LEAF_DEGREE) := by
  obtain ⟨nd, hn, rfl⟩ := Option.map_eq_some_iff.mp hx
  refine World.leafObj_eq ?_
  rw [LeafNode.load, World.setNode_nodes_self]
  rfl

end

/-- For every function `keyHash`, and every leaf of a run, `find`, `update` and
    `remove` do what the plain scan does. -/
theorem fingerprint_transparent (env : Env) (sys : Sys) (s : World) (p : PPointer) (x : LeafObj)
    (hx : s.leafObj p = some x) (h : Reached env.keyHash x) (k : Key) (v : Value)
    (ifDelete : Bool) :
    LeafNode.find env p k s = LeafNode.scanFind p k s ∧
    LeafNode.update env p k v s = LeafNode.scanUpdate p k v s ∧
    LeafNode.remove env sys p k ifDelete s = LeafNode.scanRemove sys p k ifDelete s := by
  obtain ⟨nd, hn, rfl⟩ := Option.map_eq_some_iff.mp hx
  obtain ⟨b, hinv⟩ := h.inv
  have hslot := findSlot_eq_scanSlot hinv.ok k
  dsimp only at hslot
  cases hs : (s.leafAt p).scanSlot LEAF_DEGREE k with
  | none =>
    rw [hs] at hslot
    refine ⟨?_, ?_, ?_⟩
    · simp only [LeafNode.find, LeafNode.scanFind, hn, Option.bind_eq_bind,
        Option.bind_some, hslot, hs]
    · simp only [LeafNode.update, LeafNode.scanUpdate, hn, Option.bind_eq_bind,
        Option.bind_some, hslot, hs]
    · simp only [LeafNode.remove, LeafNode.scanRemove, hn, Option.bind_eq_bind,
        Option.bind_some, hslot, hs]
  | some i =>
    rw [hs] at hslot
    refine ⟨?_, ?_, ?_⟩
    · simp only [LeafNode.find, LeafNode.scanFind, hn, Option.bind_eq_bind,
        Option.bind_some, hslot, hs]
    · simp only [LeafNode.update, LeafNode.scanUpdate, hn, Option.bind_eq_bind,
        Option.bind_some, hslot, hs]
    · simp only [LeafNode.remove, LeafNode.scanRemove, hn, Option.bind_eq_bind,
        Option.bind_some, hslot, hs]

/-- A leaf with the entry 5 in a store where all keys have the same fingerprint. -/
theorem fingerprint_transparent_one : ∃ s p,
    (s.leafAt p).keys LEAF_DEGREE = [5] ∧
    LeafNode.find Env.flat p 5 s = LeafNode.scanFind p 5 s := by
  have hk : (5 : Key) ∉ LeafImage.zero.keys LEAF_DEGREE := by simp [keys, pairs, slots_zero]
  have hfree : LeafImage.zero.findFirstZero LEAF_DEGREE < LEAF_DEGREE * 2 :=
    findFirstZero_lt (by rw [slots_zero]; decide)
  have hpairs := @pairs_insertAt LEAF_DEGREE LeafImage.zero Env.flat.keyHash 5 50 _ hfree
    (findFirstZero_spec hfree)
  obtain ⟨img, himg⟩ : ∃ img, img =
      LeafImage.zero.insertAt Env.flat.keyHash
        (LeafImage.zero.findFirstZero LEAF_DEGREE) 5 50 := ⟨_, rfl⟩
  have hins : LeafObj.insert Env.flat.keyHash LEAF_DEGREE 5 50 PPointer.zero ⟨LeafImage.zero, 0⟩ =
      (⟨img, 1⟩, none) := by
    have hfill : LeafObj.insertNonFull Env.flat.keyHash LEAF_DEGREE 5 50 ⟨LeafImage.zero, 0⟩ =
        ⟨img, 1⟩ := by
      rw [LeafObj.insertNonFull, if_neg (not_le.mpr hfree), himg]
      rfl
    rw [LeafObj.insert, hfill, if_neg (by dsimp only; decide)]
  obtain ⟨s, p, -, -, hleaf, hn⟩ := exists_oneLeaf Env.flat img (by rw [himg]; rfl) 1
  have hobj : s.leafObj p = some ⟨img, 1⟩ := by
    rw [World.leafObj, hn, hleaf]
    rfl
  refine ⟨s, p, ?_, (fingerprint_transparent Env.flat Sys.ok s p _ hobj
    (Reached.insert 5 50 PPointer.zero Reached.create hk hins) 5 0 false).1⟩
  have hzero : LeafImage.zero.pairs LEAF_DEGREE = [] := by rw [pairs, slots_zero]; rfl
  rw [hzero, List.perm_singleton, ← himg] at hpairs
  rw [hleaf, keys, hpairs]
  rfl

end FPTreeDB
