import FPTreeDB.Lib.Links
import FPTreeDB.Allocator.Restart
import FPTreeDB.Leaf.Contents

/-!
# The leaf chain

The open leaves form one list that is represented three times: by the DRAM links
`prev` and `next`, by the persistent `pNext` from the allocator's `startLeaf` on,
and by the header bytes of the leaf groups. `StoreInv s chain` says that all three
describe `chain`. Each leaf-level operation is given by one lemma that says what it
does to `chain`; none of them depends on the keys or on where the inner nodes lead.

* `StoreInv.edit`: the bytes of one leaf change.
* `StoreInv.create_first`: the first leaf.
* `StoreInv.split`: a new leaf after `p`.
* `StoreInv.drop`: the leaf `p` is unlinked, freed and deleted.
-/

namespace FPTreeDB

open Links PAllocator

/-- The DRAM `next` of the leaf object at `p`. -/
def World.next (s : World) (p : PPointer) : Option PPointer := (s.nodes p).bind LeafNode.next

/-- The DRAM `prev` of the leaf object at `p`. -/
def World.prev (s : World) (p : PPointer) : Option PPointer := (s.nodes p).bind LeafNode.prev

/-- The DRAM links, the persistent links and the allocator agree on the list of
    leaves. -/
structure StoreInv (s : World) (chain : List PPointer) : Prop where
  alloc : AllocOk s
  used_iff : ∀ p, s.ifLeafUsed p = true ↔ p ∈ chain
  nodup : chain.Nodup
  start : s.startLeaf = entry id chain PPointer.zero
  pNext : Linked id (fun p => (s.leafAt p).pNext) chain PPointer.zero
  object : ∀ p, (s.nodes p).isSome = true ↔ p ∈ chain
  next : Linked some s.next chain none
  prev : Linked some s.prev chain.reverse none

/-- The storage holds what is mapped, and the allocator's files fit its state. -/
structure DiskInv (s : World) : Prop where
  synced : Synced s
  freeFile : ∃ n, FreeFile s n

/-- Leaf `q` has the same bitmap, fingerprints, pairs and count in both states. -/
structure SameLeaf (s s' : World) (q : PPointer) : Prop where
  bitmap : (s'.leafAt q).bitmap = (s.leafAt q).bitmap
  fingerprints : (s'.leafAt q).fingerprints = (s.leafAt q).fingerprints
  kv : (s'.leafAt q).kv = (s.leafAt q).kv
  n : (s'.nodes q).map LeafNode.n = (s.nodes q).map LeafNode.n

theorem SameLeaf.of_eq {s s' : World} {q : PPointer} (h : s'.leafAt q = s.leafAt q)
    (hn : s'.nodes q = s.nodes q) : SameLeaf s s' q := by
  constructor <;> simp [h, hn]

theorem SameLeaf.symm {s s' : World} {q : PPointer} (h : SameLeaf s s' q) : SameLeaf s' s q :=
  ⟨h.bitmap.symm, h.fingerprints.symm, h.kv.symm, h.n.symm⟩

theorem SameLeaf.trans {s s' s'' : World} {q : PPointer} (h : SameLeaf s s' q)
    (h' : SameLeaf s' s'' q) : SameLeaf s s'' q :=
  ⟨h'.bitmap.trans h.bitmap, h'.fingerprints.trans h.fingerprints, h'.kv.trans h.kv, h'.n.trans h.n⟩

namespace StoreInv

variable {s : World} {chain l1 l2 : List PPointer} {p q : PPointer}

theorem exist (h : StoreInv s chain) (hp : p ∈ chain) : s.ifLeafExist p = true :=
  (ifLeafUsed_iff.mp ((h.used_iff p).mpr hp)).1

theorem aligned (h : StoreInv s chain) (hp : p ∈ chain) : Aligned p := aligned_of_exist (h.exist hp)

theorem exists_node (h : StoreInv s chain) (hp : p ∈ chain) : ∃ nd, s.nodes p = some nd :=
  Option.isSome_iff_exists.mp ((h.object p).mpr hp)

theorem node_eq_none (h : StoreInv s chain) (hp : p ∉ chain) : s.nodes p = none := by
  rw [← Option.not_isSome_iff_eq_none, h.object]
  exact hp

theorem mem_of_node (h : StoreInv s chain) {nd : LeafNode} (hn : s.nodes p = some nd) : p ∈ chain :=
  (h.object p).mp (by rw [hn]; rfl)

/-- The neighbours of `p`. -/
theorem links (h : StoreInv s (l1 ++ p :: l2)) {nd : LeafNode} (hn : s.nodes p = some nd) :
    nd.next = l2.head? ∧ nd.prev = l1.getLast? := by
  have hnext := (linked_append.mp h.next).2.1
  have hprev := h.prev
  rw [List.reverse_append, List.reverse_cons, List.append_assoc, List.singleton_append,
    linked_append] at hprev
  have hprev := hprev.2.1
  simp only [World.next, World.prev, hn, Option.bind_some] at hnext hprev
  rw [hnext, hprev, entry, entry, List.head?_reverse]
  constructor
  · cases l2 <;> rfl
  · cases l1.getLast? <;> rfl

theorem mem_middle {x : PPointer} (hx : x ∈ l1 ++ l2) : x ∈ l1 ++ p :: l2 := by
  simp only [List.mem_append, List.mem_cons] at hx ⊢
  tauto

section Neighbours

variable (h : StoreInv s (l1 ++ p :: l2)) {x : PPointer} {nd : LeafNode}

include h

theorem ne_of_mem (hx : x ∈ l1 ++ l2) : x ≠ p := by
  have hnd := h.nodup
  rw [List.nodup_middle, List.nodup_cons] at hnd
  exact fun hxp => hnd.1 (hxp ▸ hx)

theorem nodup_others : (l1 ++ l2).Nodup := by
  have hnd := h.nodup
  rw [List.nodup_middle] at hnd
  exact hnd.of_cons

theorem disjoint_sides (h1 : x ∈ l1) : x ∉ l2 := fun h2 =>
  (List.nodup_append.mp h.nodup_others).2.2 x h1 x h2 rfl

theorem next_ne_of_left (hn : s.nodes p = some nd) (hx : x ∈ l1) : nd.next ≠ some x := by
  rw [(h.links hn).1]
  exact fun hax => h.disjoint_sides hx (List.mem_of_mem_head? hax)

/-- Only the first leaf of `l2` follows `p`. -/
theorem next_ne_of_tail (hn : s.nodes p = some nd) (hx : x ∈ l2.tail) : nd.next ≠ some x := by
  rw [(h.links hn).1]
  intro hax
  obtain ⟨l, rfl⟩ := List.head?_eq_some_iff.mp hax
  exact (List.nodup_cons.mp (List.nodup_append.mp h.nodup_others).2.1).1 hx

theorem prev_ne_of_right (hn : s.nodes p = some nd) (hx : x ∈ l2) : nd.prev ≠ some x := by
  rw [(h.links hn).2]
  exact fun hax => h.disjoint_sides (List.mem_of_getLast? hax) hx

/-- Only the last leaf of `l1` precedes `p`. -/
theorem prev_ne_of_dropLast (hn : s.nodes p = some nd) (hx : x ∈ l1.dropLast) :
    nd.prev ≠ some x := by
  rw [(h.links hn).2]
  intro hax
  obtain ⟨l, rfl⟩ := List.getLast?_eq_some_iff.mp hax
  rw [List.dropLast_concat] at hx
  exact (List.nodup_append.mp (List.nodup_append.mp h.nodup_others).1).2.2 x hx x (by simp) rfl

end Neighbours

/-- Following `pNext` from `startLeaf` visits the chain. -/
theorem walk_pNext (h : StoreInv s chain) {fuel : ℕ} (hf : chain.length ≤ fuel) :
    walk (fun p => if s.ifLeafUsed p then some p else none) (fun p => (s.leafAt p).pNext) fuel
      s.startLeaf = chain := by
  rw [h.start]
  exact h.pNext.walk (fun p hp => by simp [(h.used_iff p).mpr hp]) (by simp [not_used_zero]) fuel hf

theorem unique {chain' : List PPointer} (h : StoreInv s chain) (h' : StoreInv s chain') :
    chain = chain' := by
  rw [← h.walk_pNext (le_max_left chain.length chain'.length)]
  exact h'.walk_pNext (le_max_right _ _)

end StoreInv

theorem construct_empty_storeInv (env : Env) :
    StoreInv (construct env Sys.ok Storage.empty) [] := by
  have hused : ∀ p, (construct env Sys.ok Storage.empty).ifLeafUsed p = false := fun p => by
    rw [ifLeafUsed_eq_false_iff]
    exact fun _ => rfl
  refine ⟨(construct_empty_allocInv env).toAllocOk, fun p => ?_, List.nodup_nil, rfl,
    trivial, fun p => ?_,
    trivial, trivial⟩
  · rw [hused]
    simp
  · simp [construct, persistCatalog, Storage.empty, World.commit]

/-! ## Storing to one leaf -/

/-- Store the bytes `img` to the leaf at `p`, persist them, and set the fields of
    the object to `nd`. -/
def World.edit (s : World) (p : PPointer) (img : LeafImage) (nd : LeafNode) : World :=
  ((s.setLeaf p img).persistLeaf p).setNode p (some nd)

section Edit

variable {s : World} {chain : List PPointer} {p q : PPointer} {img : LeafImage} {nd nd' : LeafNode}

theorem edit_leafAt_self : (s.edit p img nd).leafAt p = img := World.leafAt_setLeaf_self img

theorem edit_leafAt_of_ne (hp : Aligned p) (hq : Aligned q) (h : q ≠ p) :
    (s.edit p img nd).leafAt q = s.leafAt q := World.leafAt_setLeaf_of_ne img hp hq h

theorem edit_startLeaf : (s.edit p img nd).startLeaf = s.startLeaf := rfl

theorem edit_sameHeads : SameHeads s (s.edit p img nd) :=
  (SameHeads.setLeaf img).congr rfl rfl rfl rfl

theorem edit_nodes_self : (s.edit p img nd).nodes p = some nd := by
  simp [World.edit, World.setNode]

theorem edit_nodes_of_ne (h : q ≠ p) : (s.edit p img nd).nodes q = s.nodes q := by
  simp [World.edit, World.setNode, h]

theorem StoreInv.edit (h : StoreInv s chain) (hn : s.nodes p = some nd)
    (himg : img.pNext = (s.leafAt p).pNext) (hprev : nd'.prev = nd.prev)
    (hnext : nd'.next = nd.next) : StoreInv (s.edit p img nd') chain := by
  have hp := h.mem_of_node hn
  refine ⟨edit_sameHeads.allocOk h.alloc, fun q => ?_, h.nodup, h.start, ?_, ?_,
    ?_, ?_⟩
  · rw [edit_sameHeads.used]; exact h.used_iff q
  · refine h.pNext.congr fun q hq => ?_
    by_cases hqp : q = p
    · subst hqp; rw [edit_leafAt_self, himg]
    · rw [edit_leafAt_of_ne (h.aligned hp) (h.aligned hq) hqp]
  · intro q
    by_cases hqp : q = p
    · subst hqp; simp [edit_nodes_self, hp]
    · rw [edit_nodes_of_ne hqp]; exact h.object q
  · refine h.next.congr fun q _ => ?_
    by_cases hqp : q = p
    · subst hqp; simp [World.next, edit_nodes_self, hn, hnext]
    · simp [World.next, edit_nodes_of_ne hqp]
  · refine h.prev.congr fun q _ => ?_
    by_cases hqp : q = p
    · subst hqp; simp [World.prev, edit_nodes_self, hn, hprev]
    · simp [World.prev, edit_nodes_of_ne hqp]

theorem StoreInv.edit_sameLeaf (h : StoreInv s chain) (hp : p ∈ chain) (hq : q ∈ chain)
    (hqp : q ≠ p) : SameLeaf s (s.edit p img nd) q :=
  SameLeaf.of_eq (edit_leafAt_of_ne (h.aligned hp) (h.aligned hq) hqp) (edit_nodes_of_ne hqp)

/-- The other leaves of the chain keep their entries. -/
theorem StoreInv.edit_same {l1 l2 : List PPointer} (h : StoreInv s (l1 ++ p :: l2)) :
    ∀ q ∈ l1 ++ l2, SameLeaf s (s.edit p img nd) q := by
  intro q hq
  exact h.edit_sameLeaf (by simp) (StoreInv.mem_middle hq) (h.ne_of_mem hq)

theorem DiskInv.edit (h : DiskInv s) : DiskInv (s.edit p img nd) := by
  obtain ⟨hs, n, hf⟩ := h
  exact ⟨hs.setLeaf_persistLeaf img, n, hf.congr rfl rfl rfl⟩

end Edit

/-! ## The methods of one leaf -/

section Methods

variable {env : Env} {s : World} {p : PPointer} {nd : LeafNode} {k : Key} {v : Value} {i : ℕ}

theorem insertNonFull_eq (hn : s.nodes p = some nd) :
    LeafNode.insertNonFull env p k v s =
      if (s.leafAt p).findFirstZero LEAF_DEGREE ≥ LEAF_DEGREE * 2 then some s
      else some (s.edit p
        ((s.leafAt p).insertAt env.keyHash ((s.leafAt p).findFirstZero LEAF_DEGREE) k v)
        { nd with n := nd.n + 1 }) := by
  unfold LeafNode.insertNonFull
  simp only [hn, Option.bind_eq_bind, Option.bind_some]
  split_ifs
  · rfl
  · simp only [World.modifyNode, World.setLeaf_nodes, hn, Option.map_some, Option.bind_some]
    rfl

theorem update_eq_some (hn : s.nodes p = some nd)
    (hi : (s.leafAt p).findSlot env.keyHash LEAF_DEGREE k = some i) :
    LeafNode.update env p k v s = some (true, s.edit p ((s.leafAt p).updateAt i v) nd) := by
  unfold LeafNode.update
  simp only [hn, Option.bind_eq_bind, Option.bind_some, hi, Option.some.injEq,
    Prod.mk.injEq, true_and]
  unfold World.edit World.setNode
  rw [show Function.update ((s.setLeaf p ((s.leafAt p).updateAt i v)).persistLeaf p).nodes p
    (some nd) = s.nodes by rw [← hn]; exact Function.update_eq_self p s.nodes]
  rfl

theorem update_eq_none (hn : s.nodes p = some nd)
    (hi : (s.leafAt p).findSlot env.keyHash LEAF_DEGREE k = none) :
    LeafNode.update env p k v s = some (false, s) := by
  unfold LeafNode.update
  simp [hn, hi]

theorem remove_eq_none {sys : Sys} {b : Bool} (hn : s.nodes p = some nd)
    (hi : (s.leafAt p).findSlot env.keyHash LEAF_DEGREE k = none) :
    LeafNode.remove env sys p k b s = some (false, b, s) := by
  unfold LeafNode.remove
  simp [hn, hi]

/-- The state after the bit of slot `i` was cleared and persisted. -/
def World.clearSlot (s : World) (p : PPointer) (nd : LeafNode) (i : ℕ) : World :=
  s.edit p ((s.leafAt p).removeAt i) { nd with n := nd.n - 1 }

theorem remove_eq_some {sys : Sys} {b : Bool} (hn : s.nodes p = some nd)
    (hi : (s.leafAt p).findSlot env.keyHash LEAF_DEGREE k = some i) :
    LeafNode.remove env sys p k b s =
      if nd.n - 1 = 0 then
        (LeafNode.unlink p (freeLeaf sys p (s.clearSlot p nd i)).2).map fun s => (true, true, s)
      else some (true, false, s.clearSlot p nd i) := by
  unfold LeafNode.remove
  simp only [hn, Option.bind_eq_bind, Option.bind_some, hi, World.modifyNode, Option.map_some]
  split_ifs
  · rw [Option.map_eq_bind]
    rfl
  · rfl

end Methods

/-! ## The first leaf -/

theorem getLeaf_freeFile {s s' : World} {p : PPointer} (h : getLeaf Sys.ok s = (some p, s'))
    (hn : s.freeNum = s.freeList.length) (hf : ∃ n, FreeFile s n) : ∃ n, FreeFile s' n := by
  obtain ⟨n, hf⟩ := hf
  unfold getLeaf at h
  split_ifs at h
  · obtain ⟨s1, h1, -⟩ := newLeafGroup_spec s
    rw [h1] at h
    exact ⟨_, takeLeaf_freeFile h (newLeafGroup_freeFile h1 hf.catalog hn)⟩
  · exact ⟨n, takeLeaf_freeFile h hf⟩

section Create

variable {s s' : World} {chain : List PPointer} {p q : PPointer}

/-- `LeafNode(FPTree*)` is `getLeaf` and a new object. -/
theorem create_spec (h : LeafNode.create Sys.ok s = (some p, s')) :
    ∃ s1, getLeaf Sys.ok s = (some p, s1) ∧ s' = s1.setNode p (some ⟨0, none, none⟩) := by
  unfold LeafNode.create at h
  split at h
  · simp at h
  · rename_i q s1 hg
    simp only [Prod.mk.injEq, Option.some.injEq] at h
    obtain ⟨rfl, rfl⟩ := h
    exact ⟨s1, hg, rfl⟩

theorem DiskInv.create (hd : DiskInv s) (hs : AllocOk s)
    (h : LeafNode.create Sys.ok s = (some p, s')) : DiskInv s' := by
  obtain ⟨s1, hg, rfl⟩ := create_spec h
  obtain ⟨n, hf⟩ := getLeaf_freeFile hg hs.freeNum_eq hd.freeFile
  exact ⟨(getLeaf_spec hs hg).synced hd.synced, n, hf.congr rfl rfl rfl⟩

theorem StoreInv.create_first (h : StoreInv s []) (hc : LeafNode.create Sys.ok s = (some p, s')) :
    StoreInv s' [p] ∧ s'.leafAt p = LeafImage.zero ∧ s'.nodes p = some ⟨0, none, none⟩ := by
  obtain ⟨s1, hg, rfl⟩ := create_spec hc
  have g := getLeaf_spec h.alloc hg
  have hleaf : (s1.setNode p (some ⟨0, none, none⟩)).leafAt p = LeafImage.zero := g.leafAt_self
  have hnode : (s1.setNode p (some ⟨0, none, none⟩)).nodes p = some ⟨0, none, none⟩ := by
    simp [World.setNode]
  refine ⟨⟨(SameHeads.setNode _).allocOk g.allocOk, ?_, List.nodup_singleton p, ?_, ?_, ?_, ?_,
    ?_⟩, hleaf, hnode⟩
  · intro q
    have hq : (s1.setNode p (some ⟨0, none, none⟩)).ifLeafUsed q = s1.ifLeafUsed q := rfl
    rw [hq, g.used_iff, h.used_iff]
    simp
  · have hstart : s.ifLeafUsed s.startLeaf = false := by
      rw [← Bool.not_eq_true, h.used_iff]
      simp
    have : (s1.setNode p (some ⟨0, none, none⟩)).startLeaf = s1.startLeaf := rfl
    rw [this, g.startLeaf, hstart]
    rfl
  · simp only [Linked, hleaf, and_true]
    rfl
  · intro q
    by_cases hq : q = p
    · subst hq; simp [hnode]
    · simp [World.setNode, hq, g.nodes, h.node_eq_none]
  · simp [Linked, World.next, hnode]
  · simp [Linked, World.prev, hnode]

end Create

/-! ## Splitting -/

section Split

variable {s s' : World} {l1 l2 : List PPointer} {p q : PPointer} {a b : LeafNode}

theorem modifyNode_eq {f : LeafNode → LeafNode} (h : s.modifyNode p f = some s') :
    ∃ nd, s.nodes p = some nd ∧ s' = s.setNode p (some (f nd)) := by
  obtain ⟨nd, hn, rfl⟩ := Option.map_eq_some_iff.mp h
  exact ⟨nd, hn, rfl⟩

/-- The links of `split` are assignments to objects. -/
theorem linkAfter_keeps {I : World → Prop}
    (hmodify : ∀ {s s' : World} {p : PPointer} {f : LeafNode → LeafNode}, I s →
      s.modifyNode p f = some s' → I s') (h : I s)
    (hl : LeafNode.linkAfter p q s = some s') : I s' := by
  simp only [LeafNode.linkAfter, Option.bind_eq_bind, Option.bind_eq_some_iff] at hl
  obtain ⟨nd, -, s1, h1, h2⟩ := hl
  cases hn : nd.next with
  | none =>
    rw [hn] at h2
    simp only [Option.bind_some, Option.bind_eq_some_iff] at h2
    obtain ⟨s2, h2, h3⟩ := h2
    exact hmodify (hmodify (hmodify h h1) h2) h3
  | some r =>
    rw [hn] at h2
    simp only [Option.bind_eq_some_iff] at h2
    obtain ⟨s2, h2, s3, h3, h4⟩ := h2
    exact hmodify (hmodify (hmodify (hmodify h h1) h2) h3) h4

/-- The objects after `linkAfter`. -/
structure LinkedAfter (s : World) (p q : PPointer) (a b : LeafNode) (s' : World) : Prop where
  rest : s' = { s with nodes := s'.nodes }
  node_old : s'.nodes p = some { a with next := some q }
  node_new : s'.nodes q = some { b with prev := some p, next := a.next }
  node_next : ∀ r, a.next = some r →
    s'.nodes r = (s.nodes r).map fun c => { c with prev := some q }
  node_of_ne : ∀ x, x ≠ p → x ≠ q → a.next ≠ some x → s'.nodes x = s.nodes x

theorem linkAfter_spec (hp : s.nodes p = some a) (hq : s.nodes q = some b) (hpq : p ≠ q)
    (hr : ∀ r, a.next = some r → r ≠ p ∧ r ≠ q ∧ (s.nodes r).isSome = true) :
    ∃ s', LeafNode.linkAfter p q s = some s' ∧ LinkedAfter s p q a b s' := by
  unfold LeafNode.linkAfter
  cases hnext : a.next with
  | none =>
    refine ⟨((s.setNode q (some { b with prev := some p })).setNode q
      (some { b with prev := some p, next := a.next })).setNode p (some { a with next := some q }),
      ?_, rfl, ?_, ?_, ?_, ?_⟩
    · simp [World.modifyNode, World.setNode, hp, hq, hnext, hpq]
    · simp [World.setNode]
    · simp [World.setNode, hpq.symm, hnext]
    · intro r h; rw [hnext] at h; cases h
    · intro x h1 h2 _; simp [World.setNode, h1, h2]
  | some r =>
    obtain ⟨h1, h2, h3⟩ := hr r hnext
    obtain ⟨c, hc⟩ := Option.isSome_iff_exists.mp h3
    refine ⟨(((s.setNode q (some { b with prev := some p })).setNode r
      (some { c with prev := some q })).setNode q
      (some { b with prev := some p, next := a.next })).setNode p (some { a with next := some q }),
      ?_, rfl, ?_, ?_, ?_, ?_⟩
    · simp [World.modifyNode, World.setNode, hp, hq, hnext, hpq, hc, h1.symm, h2, h2.symm]
    · simp [World.setNode]
    · simp [World.setNode, hpq.symm, hnext]
    · intro r' h
      rw [hnext] at h
      obtain rfl := Option.some.inj h
      simp [World.setNode, h1, h2, hc]
    · intro x hx1 hx2 hx3
      have : x ≠ r := fun h => hx3 (by rw [hnext, h])
      simp [World.setNode, hx1, hx2, this]

namespace LinkedAfter

variable (h : LinkedAfter s p q a b s') {x : PPointer}

include h

theorem next_old : s'.next p = some q := by simp [World.next, h.node_old]

theorem next_new : s'.next q = a.next := by simp [World.next, h.node_new]

theorem next_of_ne (hp : x ≠ p) (hq : x ≠ q) : s'.next x = s.next x := by
  unfold World.next
  by_cases hx : a.next = some x
  · rw [h.node_next x hx]
    cases s.nodes x <;> rfl
  · rw [h.node_of_ne x hp hq hx]

theorem prev_old : s'.prev p = a.prev := by simp [World.prev, h.node_old]

theorem prev_new : s'.prev q = some p := by simp [World.prev, h.node_new]

theorem prev_next (hx : a.next = some x) (hs : (s.nodes x).isSome = true) : s'.prev x = some q := by
  obtain ⟨c, hc⟩ := Option.isSome_iff_exists.mp hs
  simp [World.prev, h.node_next x hx, hc]

theorem prev_of_ne (hp : x ≠ p) (hq : x ≠ q) (hx : a.next ≠ some x) : s'.prev x = s.prev x := by
  simp [World.prev, h.node_of_ne x hp hq hx]

theorem n_of_ne (hp : x ≠ p) (hq : x ≠ q) :
    (s'.nodes x).map LeafNode.n = (s.nodes x).map LeafNode.n := by
  by_cases hx : a.next = some x
  · rw [h.node_next x hx]
    cases s.nodes x <;> rfl
  · rw [h.node_of_ne x hp hq hx]

end LinkedAfter

/-- What a split of the leaf at `p` does. -/
structure SplitLeaf (s : World) (l1 : List PPointer) (p q : PPointer) (l2 : List PPointer)
    (s' : World) : Prop where
  store : StoreInv s' (l1 ++ p :: q :: l2)
  not_mem : q ∉ l1 ++ p :: l2
  leaf_old : s'.leafAt p = (s.leafAt p).splitOld LEAF_DEGREE
    ((s.leafAt p).findSplitKey LEAF_DEGREE) q
  leaf_new : s'.leafAt q = (s.leafAt p).splitNew LEAF_DEGREE LeafImage.zero
    ((s.leafAt p).findSplitKey LEAF_DEGREE)
  n_old : (s'.nodes p).map LeafNode.n = some (LEAF_DEGREE : ℤ)
  n_new : (s'.nodes q).map LeafNode.n = some (LEAF_DEGREE : ℤ)
  same : ∀ x ∈ l1 ++ l2, SameLeaf s s' x
  disk : DiskInv s → DiskInv s'
  allocInv : AllocInv s → AllocInv s'

/-- The state of `split` before the links are set. -/
def World.splitBytes (s : World) (p q : PPointer) (a : LeafNode) (img : LeafImage) : World :=
  (s.edit q (img.splitNew LEAF_DEGREE (s.leafAt q) (img.findSplitKey LEAF_DEGREE))
    ⟨LEAF_DEGREE, none, none⟩).edit p (img.splitOld LEAF_DEGREE (img.findSplitKey LEAF_DEGREE) q)
    { a with n := LEAF_DEGREE }

theorem split_eq {s1 : World} (hn : s.nodes p = some a) (hfull : 2 * LEAF_DEGREE ≤ a.n)
    (hc : LeafNode.create Sys.ok s = (some q, s1)) (hp : s1.nodes p = some a) (hpq : p ≠ q)
    (hq : s1.nodes q = some ⟨0, none, none⟩) :
    LeafNode.split Sys.ok p s =
      (LeafNode.linkAfter p q (s1.splitBytes p q a (s1.leafAt p))).map fun s' =>
        (some ((s1.leafAt p).findSplitKey LEAF_DEGREE, q), s') := by
  unfold LeafNode.split
  simp only [hn, Option.bind_eq_bind, Option.bind_some, hc]
  rw [if_neg (by omega), Option.map_eq_bind]
  simp only [World.modifyNode, World.persistLeaf_nodes, World.setLeaf_nodes, hq, Option.map_some,
    Option.bind_some]
  have hp' : ∀ x, Function.update s1.nodes q x p = some a := fun x => by
    rw [Function.update_of_ne hpq, hp]
  simp only [World.setNode, World.persistLeaf_nodes, World.setLeaf_nodes, hp', Option.map_some,
    Option.bind_some]
  rfl

/-- What `split` has done before it sets the links. -/
structure SplitBytes (s : World) (p q : PPointer) (a : LeafNode) (s' : World) : Prop where
  leaf_old : s'.leafAt p = (s.leafAt p).splitOld LEAF_DEGREE
    ((s.leafAt p).findSplitKey LEAF_DEGREE) q
  leaf_new : s'.leafAt q = (s.leafAt p).splitNew LEAF_DEGREE LeafImage.zero
    ((s.leafAt p).findSplitKey LEAF_DEGREE)
  leaf_of_exist : ∀ x, s.ifLeafExist x = true → x ≠ p → x ≠ q → s'.leafAt x = s.leafAt x
  node_old : s'.nodes p = some { a with n := LEAF_DEGREE }
  node_new : s'.nodes q = some ⟨LEAF_DEGREE, none, none⟩
  node_of_ne : ∀ x, x ≠ p → x ≠ q → s'.nodes x = s.nodes x
  used_iff : ∀ x, s'.ifLeafUsed x = true ↔ x = q ∨ s.ifLeafUsed x = true
  startLeaf : s'.startLeaf = if s.ifLeafUsed s.startLeaf then s.startLeaf else q
  alloc : AllocOk s'
  disk : DiskInv s → DiskInv s'
  allocInv : AllocInv s → AllocInv s'

theorem splitBytes_spec {s1 : World} (hs : AllocOk s) (hp : s.ifLeafUsed p = true)
    (hn : s.nodes p = some a) (hc : LeafNode.create Sys.ok s = (some q, s1)) :
    p ≠ q ∧ s1.leafAt p = s.leafAt p ∧ s1.nodes p = some a ∧ s1.nodes q = some ⟨0, none, none⟩ ∧
      SplitBytes s p q a (s1.splitBytes p q a (s.leafAt p)) := by
  have hcreate := hc
  obtain ⟨s0, hg, rfl⟩ := create_spec hc
  have g := getLeaf_spec hs hg
  have hpe := (ifLeafUsed_iff.mp hp).1
  have hpq : p ≠ q := by
    rintro rfl
    rw [g.not_used] at hp
    cases hp
  have hpa := aligned_of_exist hpe
  have hqa := aligned_of_exist g.exist
  have hleaf : (s0.setNode q (some ⟨0, none, none⟩)).leafAt q = LeafImage.zero := g.leafAt_self
  have hheads : SameHeads s0 ((s0.setNode q (some ⟨0, none, none⟩)).splitBytes p q a
      (s.leafAt p)) :=
    ((SameHeads.setNode _).trans edit_sameHeads).trans edit_sameHeads
  refine ⟨hpq, g.leafAt_of_exist p hpe hpq, by simp [World.setNode, hpq, g.nodes, hn],
    by simp [World.setNode], ?_⟩
  constructor
  · exact edit_leafAt_self
  · rw [World.splitBytes, edit_leafAt_of_ne hpa hqa hpq.symm, edit_leafAt_self, hleaf]
  · intro x hx hxp hxq
    have hxa := aligned_of_exist hx
    rw [World.splitBytes, edit_leafAt_of_ne hpa hxa hxp, edit_leafAt_of_ne hqa hxa hxq]
    exact g.leafAt_of_exist x hx hxq
  · exact edit_nodes_self
  · rw [World.splitBytes, edit_nodes_of_ne hpq.symm, edit_nodes_self]
  · intro x hxp hxq
    rw [World.splitBytes, edit_nodes_of_ne hxp, edit_nodes_of_ne hxq]
    simp [World.setNode, hxq, g.nodes]
  · intro x
    rw [hheads.used]
    exact g.used_iff x
  · rw [World.splitBytes, edit_startLeaf, edit_startLeaf, World.setNode_startLeaf, g.startLeaf]
  · exact hheads.allocOk g.allocOk
  · exact fun hd => (hd.create hs hcreate).edit.edit
  · exact fun hi => (hi.getLeaf hg).congr hheads

section Links

variable {s2 : World} (h : StoreInv s (l1 ++ p :: l2)) (hn : s.nodes p = some a)
  (hqm : q ∉ l1 ++ p :: l2) (hb : SplitBytes s p q a s2)
  (hl : LinkedAfter s2 p q { a with n := LEAF_DEGREE } ⟨LEAF_DEGREE, none, none⟩ s')

include h hn hqm hb hl

theorem SplitBytes.next_linked : Linked some s'.next (l1 ++ p :: q :: l2) none := by
  have hnext : ∀ x ∈ l1 ++ l2, s'.next x = s.next x := fun x hx => by
    have hxp := h.ne_of_mem hx
    have hxq : x ≠ q := fun hxq => hqm (hxq ▸ StoreInv.mem_middle hx)
    rw [hl.next_of_ne hxp hxq, World.next, World.next, hb.node_of_ne x hxp hxq]
  refine h.next.insert_after hl.next_old ?_ (fun x hx => ?_) (fun x hx => ?_)
  · rw [hl.next_new, World.next, hn]; rfl
  · exact hnext x (by simp [hx])
  · exact hnext x (by simp [hx])

theorem SplitBytes.prev_linked : Linked some s'.prev (l1 ++ p :: q :: l2).reverse none := by
  have hprev : ∀ x ∈ l1 ++ l2, a.next ≠ some x → s'.prev x = s.prev x := fun x hx hax => by
    have hxp := h.ne_of_mem hx
    have hxq : x ≠ q := fun hxq => hqm (hxq ▸ StoreInv.mem_middle hx)
    rw [hl.prev_of_ne hxp hxq hax, World.prev, World.prev, hb.node_of_ne x hxp hxq]
  have hrev : (l1 ++ p :: q :: l2).reverse = l2.reverse ++ q :: p :: l1.reverse := by simp
  have hrev' : (l1 ++ p :: l2).reverse = l2.reverse ++ p :: l1.reverse := by simp
  rw [hrev]
  refine (hrev' ▸ h.prev).insert_before hl.prev_new (fun x hx => ?_) (fun x hx => ?_)
    (fun x hx => ?_)
  · rw [List.getLast?_reverse, ← (h.links hn).1] at hx
    have hxm : x ∈ l2 := List.mem_of_mem_head? (by rw [← (h.links hn).1]; exact hx)
    have hxq : x ≠ q := fun hxq => hqm (hxq ▸ by simp [hxm])
    refine hl.prev_next hx ?_
    rw [hb.node_of_ne x (h.ne_of_mem (by simp [hxm])) hxq, h.object]
    simp [hxm]
  · -- a leaf behind the first one right of `p`
    rw [List.dropLast_reverse, List.mem_reverse] at hx
    exact hprev x (by simp [List.mem_of_mem_tail hx]) (h.next_ne_of_tail hn hx)
  · rcases List.mem_cons.mp hx with rfl | hx
    · rw [hl.prev_old, World.prev, hn]; rfl
    · rw [List.mem_reverse] at hx
      exact hprev x (by simp [hx]) (h.next_ne_of_left hn hx)

/-- Setting the links puts `q` after `p`. -/
theorem SplitBytes.splitLeaf : SplitLeaf s l1 p q l2 s' := by
  have hleaf : ∀ x, s'.leafAt x = s2.leafAt x := fun x => by rw [hl.rest]; rfl
  have hheads : SameHeads s2 s' := by
    rw [hl.rest]; exact ⟨rfl, rfl, rfl, fun _ => rfl, fun _ => rfl⟩
  have hnd := h.nodup
  rw [List.nodup_middle, List.nodup_cons] at hnd
  have hne : ∀ x ∈ l1 ++ l2, x ≠ p ∧ x ≠ q := fun x hx =>
    ⟨h.ne_of_mem hx, fun hxq => hqm (hxq ▸ StoreInv.mem_middle hx)⟩
  have hsame : ∀ x ∈ l1 ++ l2, s'.leafAt x = s.leafAt x := fun x hx => by
    rw [hleaf, hb.leaf_of_exist x (h.exist (StoreInv.mem_middle hx)) (hne x hx).1 (hne x hx).2]
  refine ⟨?_, hqm, by rw [hleaf, hb.leaf_old], by rw [hleaf, hb.leaf_new], by simp [hl.node_old],
    by simp [hl.node_new], ?_, ?_, ?_⟩
  · refine ⟨hheads.allocOk hb.alloc, ?_, ?_, ?_, ?_, ?_, SplitBytes.next_linked h hn hqm hb hl,
      SplitBytes.prev_linked h hn hqm hb hl⟩
    · intro x
      rw [hheads.used, hb.used_iff, h.used_iff]
      simp only [List.mem_append, List.mem_cons]
      tauto
    · rw [List.nodup_middle, List.nodup_cons, List.nodup_middle, List.nodup_cons]
      simp only [List.mem_append, List.mem_cons] at *
      refine ⟨?_, fun hq => hqm (by tauto), hnd.2⟩
      rintro (hp | hp | hp)
      · exact hnd.1 (Or.inl hp)
      · exact hqm (by rw [← hp]; simp)
      · exact hnd.1 (Or.inr hp)
    · have hstart : s.startLeaf ∈ l1 ++ p :: l2 := by
        rw [h.start]
        cases l1 <;> simp
      have : s'.startLeaf = s2.startLeaf := by rw [hl.rest]
      rw [this, hb.startLeaf, if_pos ((h.used_iff _).mpr hstart), h.start,
        entry_append, entry_append]
      rfl
    · refine h.pNext.insert_after ?_ ?_ (fun x hx => ?_) (fun x hx => ?_)
      · simp only [hleaf, hb.leaf_old]; rfl
      · simp only [hleaf, hb.leaf_new]; rfl
      · rw [hsame x (by simp [hx])]
      · rw [hsame x (by simp [hx])]
    · intro x
      by_cases hxp : x = p
      · subst hxp; simp [hl.node_old]
      by_cases hxq : x = q
      · subst hxq; simp [hl.node_new]
      have hobj : (s'.nodes x).isSome = (s.nodes x).isSome := by
        rw [← hb.node_of_ne x hxp hxq]
        simpa using congrArg Option.isSome (hl.n_of_ne hxp hxq)
      rw [hobj, h.object]
      simp [hxp, hxq]
  · intro x hx
    have hx' := hsame x hx
    refine ⟨by rw [hx'], by rw [hx'], by rw [hx'], ?_⟩
    rw [hl.n_of_ne (hne x hx).1 (hne x hx).2, hb.node_of_ne x (hne x hx).1 (hne x hx).2]
  · intro hd
    obtain ⟨hs, n, hf⟩ := hb.disk hd
    rw [hl.rest]
    exact ⟨hs, n, hf.congr rfl rfl rfl⟩
  · exact fun hi => (hb.allocInv hi).congr hheads

end Links

theorem StoreInv.split (h : StoreInv s (l1 ++ p :: l2)) (hn : s.nodes p = some a)
    (hfull : 2 * LEAF_DEGREE ≤ a.n) {s1 : World} (hc : LeafNode.create Sys.ok s = (some q, s1)) :
    ∃ s', LeafNode.split Sys.ok p s =
        some (some ((s.leafAt p).findSplitKey LEAF_DEGREE, q), s') ∧ SplitLeaf s l1 p q l2 s' := by
  have hpm : p ∈ l1 ++ p :: l2 := by simp
  obtain ⟨hpq, hleaf, hp1, hq1, hb⟩ := splitBytes_spec h.alloc ((h.used_iff p).mpr hpm) hn hc
  have hqm : q ∉ l1 ++ p :: l2 := by
    obtain ⟨s0, hg, -⟩ := create_spec hc
    rw [← h.used_iff, (getLeaf_spec h.alloc hg).not_used]
    simp
  have hneighbour : ∀ r, a.next = some r → r ∈ l2 := fun r hr => by
    rw [(h.links hn).1] at hr
    exact List.mem_of_mem_head? hr
  obtain ⟨s', hlink, hl⟩ := linkAfter_spec hb.node_old hb.node_new hpq fun r hr => by
    have hr := hneighbour r hr
    have hrm : r ∈ l1 ++ p :: l2 := by simp [hr]
    have hrp : r ≠ p := by
      rintro rfl
      have := (List.nodup_append.mp h.nodup).2.1
      exact (List.nodup_cons.mp this).1 hr
    have hrq : r ≠ q := fun hrq => hqm (hrq ▸ hrm)
    exact ⟨hrp, hrq, by rw [hb.node_of_ne r hrp hrq, h.object]; exact hrm⟩
  refine ⟨s', ?_, hb.splitLeaf h hn hqm hl⟩
  rw [split_eq hn hfull hc hp1 hpq hq1, hleaf, hlink]
  rfl

end Split

/-! ## Dropping a leaf -/

section Drop

variable {s s' : World} {l1 l2 : List PPointer} {p : PPointer} {a : LeafNode}

/-- What `unlink` does. -/
structure Unlinked (s : World) (p : PPointer) (a : LeafNode) (s' : World) : Prop where
  heads : SameHeads s s'
  startLeaf : s'.startLeaf = s.startLeaf
  leaf_prev : ∀ q, a.prev = some q → s'.leafAt q = { s.leafAt q with pNext := (s.leafAt p).pNext }
  leaf_of_ne : ∀ x, Aligned x → a.prev ≠ some x → s'.leafAt x = s.leafAt x
  node_prev : ∀ q, a.prev = some q → s'.nodes q = (s.nodes q).map fun c => { c with next := a.next }
  node_next : ∀ r, a.next = some r → s'.nodes r = (s.nodes r).map fun c => { c with prev := a.prev }
  node_of_ne : ∀ x, a.prev ≠ some x → a.next ≠ some x → s'.nodes x = s.nodes x
  disk : DiskInv s → DiskInv s'

theorem unlink_spec (hp : s.nodes p = some a)
    (hprev : ∀ q, a.prev = some q → Aligned q ∧ (s.nodes q).isSome = true)
    (hnext : ∀ r, a.next = some r → (s.nodes r).isSome = true ∧ a.prev ≠ some r) :
    ∃ s', LeafNode.unlink p s = some s' ∧ Unlinked s p a s' := by
  unfold LeafNode.unlink
  cases hq : a.prev with
  | none =>
    cases hr : a.next with
    | none =>
      refine ⟨s, by simp [hp, hq, hr], SameHeads.refl s, rfl, ?_, fun _ _ _ => rfl, ?_, ?_,
        fun _ _ _ => rfl, id⟩ <;> intro x hx <;> simp [hq, hr] at hx
    | some r =>
      obtain ⟨c, hc⟩ := Option.isSome_iff_exists.mp (hnext r hr).1
      refine ⟨s.setNode r (some { c with prev := none }),
        by simp [hp, hq, hr, World.modifyNode, hc],
        SameHeads.setNode _, rfl, ?_, fun _ _ _ => rfl, ?_, ?_, ?_, ?_⟩
      · intro x hx; simp [hq] at hx
      · intro x hx; simp [hq] at hx
      · intro x hx
        rw [hr] at hx
        obtain rfl := Option.some.inj hx
        simp [World.setNode, hc, hq]
      · intro x _ hx
        have : x ≠ r := fun h => hx (by rw [hr, h])
        simp [World.setNode, this]
      · rintro ⟨hs, n, hf⟩
        exact ⟨hs, n, hf.congr rfl rfl rfl⟩
  | some q =>
    obtain ⟨hqa, hqs⟩ := hprev q hq
    obtain ⟨b, hb⟩ := Option.isSome_iff_exists.mp hqs
    set s1 := s.edit q { s.leafAt q with pNext := (s.leafAt p).pNext } { b with next := a.next }
      with hs1
    have hleaf : ∀ x, Aligned x → a.prev ≠ some x → s1.leafAt x = s.leafAt x := fun x hx hxq =>
      edit_leafAt_of_ne hqa hx fun h => hxq (by rw [hq, h])
    have hnode : ∀ x, a.prev ≠ some x → s1.nodes x = s.nodes x := fun x hxq =>
      edit_nodes_of_ne fun h => hxq (by rw [hq, h])
    cases hr : a.next with
    | none =>
      refine ⟨s1, ?_, edit_sameHeads, rfl, ?_, hleaf, ?_, ?_, fun x hx _ => hnode x hx,
        fun hd => hd.edit⟩
      · simp only [hp, hq, hr, Option.bind_eq_bind, Option.bind_some, World.modifyNode, hb,
          Option.map_some, Option.some.injEq]
        rw [hs1, hr]
        rfl
      · intro x hx
        rw [hq] at hx
        obtain rfl := Option.some.inj hx
        exact edit_leafAt_self
      · intro x hx
        rw [hq] at hx
        obtain rfl := Option.some.inj hx
        rw [hs1, edit_nodes_self, hb]
        rfl
      · intro x hx; simp [hr] at hx
    | some r =>
      obtain ⟨hrs, hrq⟩ := hnext r hr
      obtain ⟨c, hc⟩ := Option.isSome_iff_exists.mp hrs
      have hqr : q ≠ r := fun h => hrq (by rw [hq, h])
      refine ⟨s1.setNode r (some { c with prev := some q }), ?_,
        edit_sameHeads.trans (SameHeads.setNode _), rfl, ?_, hleaf, ?_, ?_, ?_, ?_⟩
      · simp only [hp, hq, hr, Option.bind_eq_bind, Option.bind_some, World.modifyNode, hb,
          Option.map_some]
        have hc1 : ∀ x, Function.update s.nodes q x r = some c := fun x => by
          rw [Function.update_of_ne hqr.symm, hc]
        simp only [World.persistLeaf_nodes, World.setLeaf_nodes, World.setNode, hc1,
          Option.map_some, Option.some.injEq]
        rw [hs1, hr]
        rfl
      · intro x hx
        rw [hq] at hx
        obtain rfl := Option.some.inj hx
        exact @edit_leafAt_self s q _ { b with next := a.next }
      · intro x hx
        rw [hq] at hx
        obtain rfl := Option.some.inj hx
        rw [World.setNode_nodes_of_ne hqr, hs1, edit_nodes_self, hb]
        rfl
      · intro x hx
        rw [hr] at hx
        obtain rfl := Option.some.inj hx
        simp [World.setNode, hc, hq]
      · intro x hxq hxr
        have : x ≠ r := fun h => hxr (by rw [hr, h])
        rw [World.setNode_nodes_of_ne this, hnode x hxq]
      · intro hd
        have hd1 : DiskInv s1 := hd.edit
        obtain ⟨hs, n, hf⟩ := hd1
        exact ⟨hs, n, hf.congr rfl rfl rfl⟩

namespace Unlinked

variable (h : Unlinked s p a s') {x : PPointer}

include h

theorem next_prev (hx : a.prev = some x) (hs : (s.nodes x).isSome = true) : s'.next x = a.next := by
  obtain ⟨c, hc⟩ := Option.isSome_iff_exists.mp hs
  simp [World.next, h.node_prev x hx, hc]

theorem next_of_ne (hx : a.prev ≠ some x) : s'.next x = s.next x := by
  unfold World.next
  by_cases hr : a.next = some x
  · rw [h.node_next x hr]
    cases s.nodes x <;> rfl
  · rw [h.node_of_ne x hx hr]

theorem prev_next (hx : a.next = some x) (hs : (s.nodes x).isSome = true) : s'.prev x = a.prev := by
  obtain ⟨c, hc⟩ := Option.isSome_iff_exists.mp hs
  simp [World.prev, h.node_next x hx, hc]

theorem prev_of_ne (hx : a.next ≠ some x) : s'.prev x = s.prev x := by
  unfold World.prev
  by_cases hq : a.prev = some x
  · rw [h.node_prev x hq]
    cases s.nodes x <;> rfl
  · rw [h.node_of_ne x hq hx]

theorem n_eq : (s'.nodes x).map LeafNode.n = (s.nodes x).map LeafNode.n := by
  by_cases hq : a.prev = some x
  · rw [h.node_prev x hq]
    cases s.nodes x <;> rfl
  · by_cases hr : a.next = some x
    · rw [h.node_next x hr]
      cases s.nodes x <;> rfl
    · rw [h.node_of_ne x hq hr]

theorem pNext_prev (hx : a.prev = some x) : (s'.leafAt x).pNext = (s.leafAt p).pNext := by
  rw [h.leaf_prev x hx]

theorem pNext_of_ne (hxa : Aligned x) (hx : a.prev ≠ some x) :
    (s'.leafAt x).pNext = (s.leafAt x).pNext := by
  rw [h.leaf_of_ne x hxa hx]

theorem sameLeaf (hxa : Aligned x) : SameLeaf s s' x := by
  by_cases hq : a.prev = some x
  · refine ⟨?_, ?_, ?_, h.n_eq⟩ <;> rw [h.leaf_prev x hq]
  · refine ⟨?_, ?_, ?_, h.n_eq⟩ <;> rw [h.leaf_of_ne x hxa hq]

end Unlinked

/-- What freeing, unlinking and deleting the leaf at `p` does. -/
structure DroppedLeaf (s : World) (l1 l2 : List PPointer) (s' : World) : Prop where
  store : StoreInv s' (l1 ++ l2)
  same : ∀ x ∈ l1 ++ l2, SameLeaf s s' x
  allocInv : AllocInv s → AllocInv s'

theorem DiskInv.releaseLeaf (h : DiskInv s) (hs : AllocOk s) :
    DiskInv (PAllocator.releaseLeaf Sys.ok p s) := by
  obtain ⟨hsync, n, hf⟩ := h
  exact ⟨(releaseLeaf_spec Sys.ok p s).synced hsync, _,
    releaseLeaf_freeFile p hf.catalog hs.freeNum_eq⟩

theorem DiskInv.destroy (h : DiskInv s) : DiskInv (LeafNode.destroy p s) := by
  obtain ⟨hsync, n, hf⟩ := h
  exact ⟨hsync.persistLeaf, n, hf.congr rfl rfl rfl⟩

theorem Unlinked.droppedLeaf {s1 s2 : World} (h : StoreInv s (l1 ++ p :: l2))
    (hn : s.nodes p = some a) (hpu : s.ifLeafUsed p = true) (hf : Freed s p s1)
    (hul : Unlinked s1 p a s2) : DroppedLeaf s l1 l2 (LeafNode.destroy p s2) := by
  have hne : ∀ x ∈ l1 ++ l2, x ≠ p := fun x hx => h.ne_of_mem hx
  obtain ⟨hnext, hprev⟩ := h.links hn
  have hobj : ∀ x ∈ l1 ++ l2, (s1.nodes x).isSome = true := fun x hx => by
    rw [hf.nodes, h.object]
    exact StoreInv.mem_middle hx
  have hleaf : ∀ x, (LeafNode.destroy p s2).leafAt x = s2.leafAt x := fun x => rfl
  have hnode : ∀ x, x ≠ p → (LeafNode.destroy p s2).nodes x = s2.nodes x := fun x hx =>
    World.setNode_nodes_of_ne hx
  have hheads : SameHeads s1 (LeafNode.destroy p s2) := hul.heads.congr rfl rfl rfl rfl
  have hnext3 : ∀ x ∈ l1 ++ l2, (LeafNode.destroy p s2).next x = s2.next x := fun x hx => by
    rw [World.next, World.next, hnode x (hne x hx)]
  have hprev3 : ∀ x ∈ l1 ++ l2, (LeafNode.destroy p s2).prev x = s2.prev x := fun x hx => by
    rw [World.prev, World.prev, hnode x (hne x hx)]
  have hs1n : ∀ x, s1.next x = s.next x := fun x => by rw [World.next, World.next, hf.nodes]
  have hs1p : ∀ x, s1.prev x = s.prev x := fun x => by rw [World.prev, World.prev, hf.nodes]
  have hal : ∀ x ∈ l1 ++ l2, Aligned x := fun x hx => h.aligned (StoreInv.mem_middle hx)
  refine ⟨⟨hheads.allocOk (hf.allocOk h.alloc hpu), ?_, h.nodup_others, ?_, ?_, ?_, ?_, ?_⟩, ?_, ?_⟩
  · intro x
    rw [hheads.used, hf.used_iff hpu, h.used_iff]
    simp only [List.mem_append, List.mem_cons]
    constructor
    · tauto
    · intro hx
      exact ⟨hne x (by simpa using hx), by tauto⟩
  · have hstart : (LeafNode.destroy p s2).startLeaf = s2.startLeaf := rfl
    have hchain : (s.leafAt p).pNext = entry id l2 PPointer.zero := (linked_append.mp h.pNext).2.1
    rw [hstart, hul.startLeaf, hf.startLeaf, h.start]
    cases l1 with
    | nil => simp [hchain]
    | cons x l1 =>
      have : x ≠ p := hne x (by simp)
      simp [this]
  · refine h.pNext.erase (fun x hx => ?_) (fun x hx => ?_) (fun x hx => ?_)
    · rw [hleaf, hul.pNext_prev (hprev.trans hx), hf.leafAt]
    · have hx1 := List.mem_of_mem_dropLast hx
      rw [hleaf, hul.pNext_of_ne (hal x (by simp [hx1])) (h.prev_ne_of_dropLast hn hx), hf.leafAt]
    · rw [hleaf, hul.pNext_of_ne (hal x (by simp [hx])) (h.prev_ne_of_right hn hx), hf.leafAt]
  · intro x
    by_cases hxp : x = p
    · subst hxp
      have : (LeafNode.destroy x s2).nodes x = none := World.setNode_nodes_self
      rw [this]
      simpa using fun hx : x ∈ l1 ++ l2 => hne x hx rfl
    · have hobj' : (s2.nodes x).isSome = (s.nodes x).isSome := by
        rw [← hf.nodes]
        simpa using congrArg Option.isSome (@Unlinked.n_eq _ _ _ _ hul x)
      rw [hnode x hxp, hobj', h.object]
      simp [hxp]
  · refine h.next.erase (fun x hx => ?_) (fun x hx => ?_) (fun x hx => ?_)
    · have hx1 : x ∈ l1 := List.mem_of_getLast? hx
      rw [hnext3 x (by simp [hx1]), hul.next_prev (hprev.trans hx) (hobj x (by simp [hx1])),
        World.next, hn]
      rfl
    · have hx1 := List.mem_of_mem_dropLast hx
      rw [hnext3 x (by simp [hx1]), hul.next_of_ne (h.prev_ne_of_dropLast hn hx), hs1n]
    · rw [hnext3 x (by simp [hx]), hul.next_of_ne (h.prev_ne_of_right hn hx), hs1n]
  · have hrev : (l1 ++ p :: l2).reverse = l2.reverse ++ p :: l1.reverse := by simp
    rw [List.reverse_append]
    refine (hrev ▸ h.prev).erase (fun x hx => ?_) (fun x hx => ?_) (fun x hx => ?_)
    · rw [List.getLast?_reverse] at hx
      have hx2 : x ∈ l2 := List.mem_of_mem_head? hx
      rw [hprev3 x (by simp [hx2]), hul.prev_next (hnext.trans hx) (hobj x (by simp [hx2])),
        World.prev, hn]
      rfl
    · rw [List.dropLast_reverse, List.mem_reverse] at hx
      have hx2 := List.mem_of_mem_tail hx
      rw [hprev3 x (by simp [hx2]), hul.prev_of_ne (h.next_ne_of_tail hn hx), hs1p]
    · rw [List.mem_reverse] at hx
      rw [hprev3 x (by simp [hx]), hul.prev_of_ne (h.next_ne_of_left hn hx), hs1p]
  · intro x hx
    have hfree : SameLeaf s s1 x := SameLeaf.of_eq hf.leafAt (by rw [hf.nodes])
    have hdel : SameLeaf s2 (LeafNode.destroy p s2) x :=
      SameLeaf.of_eq (hleaf x) (hnode x (hne x hx))
    exact (hfree.trans (hul.sameLeaf (hal x hx))).trans hdel
  · exact fun hi => (hi.freed hf hpu).congr hheads

theorem StoreInv.drop (sys : Sys) (h : StoreInv s (l1 ++ p :: l2)) (hn : s.nodes p = some a) :
    ∃ s2, LeafNode.unlink p (freeLeaf sys p s).2 = some s2 ∧
      DroppedLeaf s l1 l2 (LeafNode.destroy p s2) ∧
      (sys = Sys.ok → DiskInv s → DiskInv (LeafNode.destroy p s2)) := by
  have hpm : p ∈ l1 ++ p :: l2 := by simp
  have hpu := (h.used_iff p).mpr hpm
  obtain ⟨hnext, hprev⟩ := h.links hn
  rw [freeLeaf_of_used hpu]
  have hf := releaseLeaf_spec sys p s
  set s1 := PAllocator.releaseLeaf sys p s with hs1
  have hobj : ∀ x ∈ l1 ++ l2, (s1.nodes x).isSome = true := fun x hx => by
    rw [hf.nodes, h.object]
    exact StoreInv.mem_middle hx
  have hmem1 : ∀ x, a.prev = some x → x ∈ l1 := fun x hx => List.mem_of_getLast? (hprev ▸ hx)
  have hmem2 : ∀ x, a.next = some x → x ∈ l2 := fun x hx => List.mem_of_mem_head? (hnext ▸ hx)
  obtain ⟨s2, hu, hul⟩ := unlink_spec (hf.nodes ▸ hn)
    (fun q hq => ⟨h.aligned (by simp [hmem1 q hq]), hobj q (by simp [hmem1 q hq])⟩)
    (fun r hr => ⟨hobj r (by simp [hmem2 r hr]), h.prev_ne_of_right hn (hmem2 r hr)⟩)
  refine ⟨s2, hu, ?_, ?_⟩
  · exact hul.droppedLeaf h hn hpu hf
  · rintro rfl hd
    exact (hul.disk (hd.releaseLeaf h.alloc)).destroy

end Drop

end FPTreeDB
