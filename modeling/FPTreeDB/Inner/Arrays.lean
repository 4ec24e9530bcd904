import FPTreeDB.Lib.SepChain
import FPTreeDB.Model.InnerNode

/-!
# Inner nodes as lists of keys and children

Each method of `InnerNode` is described by what it does to the lists `liveKeys`
and `liveChildren`, under the bounds that keep it inside its arrays.

* `findIndex_eq`, `findIndex_le`: the binary search.
* `insertNonFull_spec`, `split_spec`: growing and cutting a node.
* `removeChild_spec`, `redistributeRight_spec`, `mergeLeft_spec`,
  `mergeRight_spec`, `mergeParent_spec`: the repairs of `remove`.
* `redistributeLeft_none`: the one repair that always leaves its arrays.
-/

namespace FPTreeDB

open CArray SepChain

namespace InnerNode

variable {α : Type} {n : InnerNode α}

@[simp] theorem length_liveKeys : n.liveKeys.length = n.nKeys := length_live _ _

@[simp] theorem length_liveChildren : n.liveChildren.length = n.nChild := length_live _ _

theorem getElem?_liveKeys {i : ℕ} (h : i < n.nKeys) : n.liveKeys[i]? = some (n.keys i) :=
  getElem?_live h

theorem getElem?_liveChildren {i : ℕ} (h : i < n.nChild) :
    n.liveChildren[i]? = some (n.childrens i) := getElem?_live h

theorem mem_liveChildren {c : α} :
    c ∈ n.liveChildren ↔ ∃ i < n.nChild, n.childrens i = c := mem_live

/-- The children around slot `i`. -/
theorem liveChildren_split {i : ℕ} (h : i < n.nChild) :
    n.liveChildren = n.liveChildren.take i ++ n.childrens i :: n.liveChildren.drop (i + 1) := by
  have hi : i < n.liveChildren.length := by simpa using h
  have hget : n.liveChildren[i] = n.childrens i := getElem_live _ _ _ _
  rw [← hget, ← List.drop_eq_getElem_cons hi, List.take_append_drop]

/-- The keys around slot `i`. -/
theorem liveKeys_split {i : ℕ} (h : i < n.nKeys) :
    n.liveKeys = n.liveKeys.take i ++ n.keys i :: n.liveKeys.drop (i + 1) := by
  have hi : i < n.liveKeys.length := by simpa using h
  have hget : n.liveKeys[i] = n.keys i := getElem_live _ _ _ _
  rw [← hget, ← List.drop_eq_getElem_cons hi, List.take_append_drop]

/-! ## `findIndex` -/

theorem findIndexLoop_bounds (keys : ℕ → Key) (k : Key) (hi : ℤ) :
    ∀ (fuel : ℕ) (left right : ℤ), 0 ≤ left → right < hi → left ≤ hi →
      0 ≤ findIndexLoop keys k fuel left right ∧ findIndexLoop keys k fuel left right ≤ hi := by
  intro fuel
  induction fuel with
  | zero => intro left right h0 _ h2; exact ⟨h0, h2⟩
  | succ fuel ih =>
    intro left right h0 h1 h2
    simp only [findIndexLoop]
    split_ifs with hle
    · exact ih _ _ h0 (by omega) h2
    · exact ih _ _ (by omega) h1 (by omega)
    · exact ⟨h0, h2⟩

/-- The index found is a child index of the node, whatever the keys are. -/
theorem findIndex_le (n : InnerNode α) (k : Key) : n.findIndex k ≤ n.nKeys := by
  have h := findIndexLoop_bounds n.keys k n.nKeys n.nKeys 0 ((n.nKeys : ℤ) - 1) le_rfl
    (by omega) (by omega)
  unfold findIndex
  omega

/-- On keys that ascend, the loop keeps the invariant that everything left of
    `left` is `≤ k` and everything right of `right` is `> k`. -/
theorem findIndexLoop_spec {keys : ℕ → Key} {k : Key} {m : ℕ}
    (hs : ∀ i j, i < j → j < m → keys i < keys j) :
    ∀ (fuel : ℕ) (left right : ℤ), 0 ≤ left → right < m → right - left < fuel → left ≤ right + 1 →
      (∀ i : ℕ, (i : ℤ) < left → keys i ≤ k) → (∀ i : ℕ, right < i → i < m → k < keys i) →
      ∃ r : ℕ, findIndexLoop keys k fuel left right = r ∧ r ≤ m ∧
        (∀ i < r, keys i ≤ k) ∧ ∀ i, r ≤ i → i < m → k < keys i := by
  intro fuel
  induction fuel with
  | zero =>
    intro left right h0 h1 h2 h3 hlo hhi
    refine ⟨left.toNat, ?_, by omega, fun i hi => hlo i (by omega), fun i hi him => hhi i ?_ him⟩
    · rw [findIndexLoop]; omega
    · push_cast at h2; omega
  | succ fuel ih =>
    intro left right h0 h1 h2 h3 hlo hhi
    rw [findIndexLoop]
    by_cases hle : left ≤ right
    · rw [if_pos hle]
      set mid := (left + right) / 2 with hmid
      by_cases hgt : keys mid.toNat > k
      · simp only [hgt, if_true]
        refine ih _ _ h0 (by omega) (by push_cast at h2 ⊢; omega) (by omega) hlo fun i hi him => ?_
        rcases Nat.lt_or_ge mid.toNat i with hlt | hge
        · exact lt_trans hgt (hs _ _ hlt him)
        · have : i = mid.toNat := by omega
          rw [this]; exact hgt
      · simp only [hgt, if_false]
        refine ih _ _ (by omega) h1 (by push_cast at h2 ⊢; omega) (by omega) (fun i hi => ?_) hhi
        rcases Nat.lt_or_ge i mid.toNat with hlt | hge
        · exact le_trans (hs _ _ hlt (by omega)).le (not_lt.mp hgt)
        · have : i = mid.toNat := by omega
          rw [this]; exact not_lt.mp hgt
    · rw [if_neg hle]
      refine ⟨left.toNat, by omega, by omega, fun i hi => hlo i (by omega),
        fun i hi him => hhi i ?_ him⟩
      omega

/-- On sorted keys, `findIndex` is the number of keys `≤ k`. -/
theorem findIndex_eq {k : Key} (hs : n.liveKeys.Pairwise (· < ·)) :
    n.findIndex k = childIndex n.liveKeys k := by
  have hs' : ∀ i j, i < j → j < n.nKeys → n.keys i < n.keys j := by
    intro i j hij hj
    have := List.pairwise_iff_getElem.mp hs i j (by simp; omega) (by simpa using hj) hij
    simpa [liveKeys] using this
  obtain ⟨r, hr, hrm, hlo, hhi⟩ :=
    findIndexLoop_spec (k := k) hs' n.nKeys 0 ((n.nKeys : ℤ) - 1) le_rfl
      (by omega) (by omega) (by omega) (fun i hi => absurd hi (by omega)) (fun i hi him => by omega)
  have hfind : n.findIndex k = r := by rw [findIndex, hr]; rfl
  rw [hfind, ← List.take_append_drop r n.liveKeys, childIndex_split]
  · simp [hrm]
  · intro x hx
    rw [liveKeys, take_live _ hrm] at hx
    obtain ⟨i, hi, rfl⟩ := mem_live.mp hx
    exact hlo i hi
  · intro x hx
    rw [liveKeys, drop_live _ hrm] at hx
    obtain ⟨i, hi, rfl⟩ := mem_live.mp hx
    exact hhi _ (by omega) (by omega)

/-! ## Adding keys and children -/

theorem pushKey_spec (k : Key) (h : n.nKeys < n.keyCap) :
    ∃ n', n.pushKey k = some n' ∧ n' = { n with keys := n'.keys, nKeys := n.nKeys + 1 } ∧
      n'.liveKeys = n.liveKeys ++ [k] := by
  refine ⟨{ n with keys := Function.update n.keys n.nKeys k, nKeys := n.nKeys + 1 }, ?_, rfl, ?_⟩
  · simp [pushKey, write_of_lt h]
  · exact live_update_self _ _ _

theorem pushChild_spec (c : α) (h : n.nChild < n.childCap) :
    ∃ n', n.pushChild c = some n' ∧
      n' = { n with childrens := n'.childrens, nChild := n.nChild + 1 } ∧
      n'.liveChildren = n.liveChildren ++ [c] := by
  refine ⟨{ n with childrens := Function.update n.childrens n.nChild c, nChild := n.nChild + 1 },
    ?_, rfl, ?_⟩
  · simp [pushChild, write_of_lt h]
  · exact live_update_self _ _ _

theorem liveChildren_setChild {i : ℕ} (c : α) :
    (n.setChild i c).liveChildren = n.liveChildren.set i c := live_update_of_lt _ _

/-- `insertNonFull` puts the key and the child right of the keys `≤ k`. -/
theorem insertNonFull_spec {nodeNKeys : ℕ} {k : Key} {node : α} (h0 : nodeNKeys ≠ 0)
    (hk : n.nKeys ≤ 2 * n.degree) (hc : n.nChild = n.nKeys + 1) :
    ∃ n', n.insertNonFull nodeNKeys k node = some n' ∧ n'.degree = n.degree ∧ n'.isRoot = n.isRoot ∧
      n'.nKeys = n.nKeys + 1 ∧ n'.nChild = n.nChild + 1 ∧
      n'.liveKeys = n.liveKeys.take (n.findIndex k) ++ k :: n.liveKeys.drop (n.findIndex k) ∧
      n'.liveChildren = n.liveChildren.take (n.findIndex k + 1) ++
        node :: n.liveChildren.drop (n.findIndex k + 1) := by
  have hpos := n.findIndex_le k
  set pos := n.findIndex k with hpos_def
  have hkeys : moveDown n.keyCap ((pos : ℤ) + 1) pos (n.nKeys - pos) n.keys =
      some (blit n.keys (pos + 1) n.keys pos (n.nKeys - pos)) := by
    exact_mod_cast @moveDown_eq _ n.keyCap (pos + 1) pos (by omega) (n.nKeys - pos) n.keys
      (by unfold keyCap; omega)
  have hchild : moveDown n.childCap ((pos : ℤ) + 2) (pos + 1) (n.nChild - (pos + 1)) n.childrens =
      some (blit n.childrens (pos + 2) n.childrens (pos + 1) (n.nChild - (pos + 1))) := by
    exact_mod_cast @moveDown_eq _ n.childCap (pos + 2) (pos + 1) (by omega) (n.nChild - (pos + 1))
      n.childrens (by unfold childCap; omega)
  have hwrite : ∀ a : ℕ → α, write n.childCap a ((pos : ℤ) + 1) node =
      some (Function.update a (pos + 1) node) := by
    intro a
    exact_mod_cast @write_of_lt _ n.childCap a (pos + 1) node (by unfold childCap; omega)
  refine ⟨⟨n.degree, n.isRoot, n.nKeys + 1, n.nChild + 1,
    Function.update (blit n.keys (pos + 1) n.keys pos (n.nKeys - pos)) pos k,
    Function.update (blit n.childrens (pos + 2) n.childrens (pos + 1)
      (n.nChild - (pos + 1))) (pos + 1) node⟩, ?_, rfl, rfl, rfl, rfl, ?_, ?_⟩
  · unfold insertNonFull
    rw [if_neg h0]
    simp only [← hpos_def, hkeys, Option.bind_eq_bind, Option.bind_some,
      write_of_lt (show pos < n.keyCap by unfold keyCap; omega), hchild, hwrite]
  · exact live_insert n.keys k hpos
  · exact live_insert n.childrens node (show pos + 1 ≤ n.nChild by omega)

/-- A node with one key too many is cut in half, its middle key going up. -/
theorem split_spec [Inhabited α] (hk : n.nKeys = 2 * n.degree + 1)
    (hc : n.nChild = 2 * n.degree + 2) :
    ∃ n' m key, n.split = some (n', some (key, m)) ∧
      n'.degree = n.degree ∧ m.degree = n.degree ∧ n'.isRoot = n.isRoot ∧ m.isRoot = false ∧
      n'.nKeys = n.degree ∧ m.nKeys = n.degree ∧ n'.nChild = n.degree + 1 ∧
      m.nChild = n.degree + 1 ∧
      n.liveKeys = n'.liveKeys ++ key :: m.liveKeys ∧
      n.liveChildren = n'.liveChildren ++ m.liveChildren := by
  set d := n.degree with hd
  have hkeys : copyUp (2 * d + 1) n.keyCap n.keys 0 ((d : ℤ) + 1) d (fun _ => (0 : Key)) =
      some (blit (fun _ => 0) 0 n.keys (d + 1) d) := by
    exact_mod_cast @copyUp_eq _ (2 * d + 1) n.keyCap n.keys d 0 (d + 1) (fun _ => 0) (by omega)
      (by unfold keyCap; omega)
  have hchild : copyUp (2 * d + 2) n.childCap n.childrens 0 ((d : ℤ) + 1) d (fun _ => default) =
      some (blit (fun _ => default) 0 n.childrens (d + 1) d) := by
    exact_mod_cast @copyUp_eq _ (2 * d + 2) n.childCap n.childrens d 0 (d + 1) (fun _ => default)
      (by omega) (by unfold childCap; omega)
  have hlast : read n.childCap n.childrens ((n.nChild : ℤ) - 1) =
      some (n.childrens (2 * d + 1)) := by
    rw [hc, show (((2 * d + 2 : ℕ) : ℤ) - 1) = ((2 * d + 1 : ℕ) : ℤ) by push_cast; ring]
    exact read_of_lt (by unfold childCap; omega)
  refine ⟨{ n with nKeys := d, nChild := d + 1 },
    ⟨d, false, d, d + 1, blit (fun _ => 0) 0 n.keys (d + 1) d,
      Function.update (blit (fun _ => default) 0 n.childrens (d + 1) d) d
      (n.childrens (2 * d + 1))⟩,
    n.keys d, ?_, rfl, rfl, rfl, rfl, rfl, rfl, rfl, rfl, ?_, ?_⟩
  · unfold split
    rw [if_neg (by omega)]
    simp only [keyCap, childCap, create, ← hd] at hkeys hchild hlast ⊢
    simp only [hkeys, hchild, hlast, Option.bind_eq_bind, Option.bind_some,
      write_of_lt (show d < 2 * d + 2 by omega), read_of_lt (show d < 2 * d + 1 by omega)]
  · unfold liveKeys
    rw [hk, show 2 * d + 1 = d + (1 + d) by omega, live_add, live_add]
    simp only [live, List.range_one, List.map_cons, List.map_nil, Nat.add_zero,
      List.singleton_append]
    congr 2
    refine List.map_congr_left fun t ht => ?_
    have ht := List.mem_range.mp ht
    rw [blit_of_mem (by omega) (by omega)]
    congr 1
    omega
  · unfold liveChildren
    rw [hc, show 2 * d + 2 = (d + 1) + (d + 1) by omega, live_add]
    congr 1
    refine live_congr fun t ht => ?_
    dsimp only
    by_cases htd : t = d
    · subst htd
      rw [Function.update_self]
      congr 1
      omega
    · rw [Function.update_of_ne htd, blit_of_mem (by omega) (by omega)]
      congr 1

/-! ## Removing and moving -/

theorem removeChild_spec {ki ci : ℕ} (hki : ki < n.nKeys) (hci : ci < n.nChild)
    (hk : n.nKeys ≤ n.keyCap) (hc : n.nChild ≤ n.childCap) :
    ∃ n', n.removeChild ki ci = some n' ∧ n'.degree = n.degree ∧ n'.isRoot = n.isRoot ∧
      n'.nKeys = n.nKeys - 1 ∧ n'.nChild = n.nChild - 1 ∧
      n'.liveKeys = n.liveKeys.take ki ++ n.liveKeys.drop (ki + 1) ∧
      n'.liveChildren = n.liveChildren.take ci ++ n.liveChildren.drop (ci + 1) := by
  have hkeys : moveUp n.keyCap ki ((ki : ℤ) + 1) ((n.nKeys : ℤ) - 1 - ki).toNat n.keys =
      some (blit n.keys ki n.keys (ki + 1) (n.nKeys - 1 - ki)) := by
    rw [show ((n.nKeys : ℤ) - 1 - ki).toNat = n.nKeys - 1 - ki by omega]
    exact_mod_cast @moveUp_eq _ n.keyCap (n.nKeys - 1 - ki) ki (ki + 1) n.keys (by omega) (by omega)
  have hchild : moveUp n.childCap ci ((ci : ℤ) + 1) ((n.nChild : ℤ) - 1 - ci).toNat n.childrens =
      some (blit n.childrens ci n.childrens (ci + 1) (n.nChild - 1 - ci)) := by
    rw [show ((n.nChild : ℤ) - 1 - ci).toNat = n.nChild - 1 - ci by omega]
    exact_mod_cast @moveUp_eq _ n.childCap (n.nChild - 1 - ci) ci (ci + 1) n.childrens (by omega)
      (by omega)
  refine ⟨⟨n.degree, n.isRoot, n.nKeys - 1, n.nChild - 1,
    blit n.keys ki n.keys (ki + 1) (n.nKeys - 1 - ki),
    blit n.childrens ci n.childrens (ci + 1) (n.nChild - 1 - ci)⟩, ?_, rfl, rfl, rfl, rfl, ?_, ?_⟩
  · unfold removeChild
    rw [if_neg (by omega)]
    simp only [hkeys, hchild, Option.bind_eq_bind, Option.bind_some]
  · exact live_erase n.keys hki
  · exact live_erase n.childrens hci

/-- The keys of `first`, one key and the keys of `second`, written over an array. -/
theorem live_join {β : Type} {a first second : ℕ → β} {x : β} {i j : ℕ} :
    live (i + j + 1) (blit (blit (Function.update a i x) 0 first 0 i) (i + 1) second 0 j) =
      live i first ++ x :: live j second := by
  rw [show i + j + 1 = i + 1 + j by omega, live_blit_end, live_succ, List.append_assoc,
    List.singleton_append]
  congr 1
  · refine live_congr fun t ht => ?_
    rw [blit_of_mem (by omega) (by omega)]
    congr 1
    omega
  · rw [blit_of_not_mem (by omega), Function.update_self]
    congr 1
    exact live_congr fun t _ => by rw [Nat.zero_add]

/-- The children of `first` and of `second`, written over an array. -/
theorem live_join_children {β : Type} {a first second : ℕ → β} {i j : ℕ} :
    live (i + j) (blit (blit a 0 first 0 i) i second 0 j) = live i first ++ live j second := by
  rw [live_blit_end]
  congr 1
  · refine live_congr fun t ht => ?_
    rw [blit_of_mem (by omega) (by omega)]
    congr 1
    omega
  · exact live_congr fun t _ => by rw [Nat.zero_add]

/-- The root takes over the keys and children of its two children, with its own
    key between them. -/
theorem mergeParent_spec {self : α} {first second parent : InnerNode α}
    (hk : first.nKeys + second.nKeys + 1 ≤ 2 * parent.degree)
    (hc1 : first.nChild = first.nKeys + 1) (hc2 : second.nChild = second.nKeys + 1)
    (h1 : first.nKeys ≤ 2 * first.degree) (h2 : second.nKeys ≤ 2 * second.degree) :
    ∃ p', mergeParent self first second parent = some p' ∧ p'.degree = parent.degree ∧
      p'.isRoot = parent.isRoot ∧ p'.nKeys = first.nKeys + second.nKeys + 1 ∧ p'.nChild = 0 ∧
      p'.childrens (p'.nKeys + 1) = self ∧
      p'.liveKeys = first.liveKeys ++ parent.keys 0 :: second.liveKeys ∧
      live (p'.nKeys + 1) p'.childrens = first.liveChildren ++ second.liveChildren := by
  have hcap : parent.keyCap = 2 * parent.degree + 1 := rfl
  have hcapc : parent.childCap = 2 * parent.degree + 2 := rfl
  have hfk : first.nKeys ≤ first.keyCap := by unfold keyCap; omega
  have hsk : second.nKeys ≤ second.keyCap := by unfold keyCap; omega
  have hfc : first.nChild ≤ first.childCap := by unfold childCap; omega
  have hsc : second.nChild ≤ second.childCap := by unfold childCap; omega
  have e1 : read parent.keyCap parent.keys 0 = some (parent.keys 0) :=
    @read_of_lt _ _ _ 0 (by omega)
  have e2 := fun a : ℕ → Key => @copyUp_eq _ parent.keyCap first.keyCap first.keys first.nKeys 0 0 a
    (by omega) (by omega)
  have e3 := fun a : ℕ → Key => @copyUp_eq _ parent.keyCap second.keyCap second.keys second.nKeys
    (first.nKeys + 1) 0 a (by omega) (by omega)
  have e4 := fun a : ℕ → α => @copyUp_eq _ parent.childCap first.childCap first.childrens
    first.nChild 0 0 a (by omega) (by omega)
  have e5 := fun a : ℕ → α => @copyUp_eq _ parent.childCap second.childCap second.childrens
    second.nChild first.nChild 0 a (by omega) (by omega)
  have e6 := fun a : ℕ → α => @write_of_lt _ parent.childCap a (first.nChild + second.nChild) self
    (by omega)
  push_cast at e2 e3 e4 e5 e6
  refine ⟨⟨parent.degree, parent.isRoot, first.nKeys + second.nKeys + 1, 0,
    blit (blit (Function.update parent.keys first.nKeys (parent.keys 0)) 0 first.keys 0 first.nKeys)
      (first.nKeys + 1) second.keys 0 second.nKeys,
    Function.update (blit (blit parent.childrens 0 first.childrens 0 first.nChild) first.nChild
      second.childrens 0 second.nChild) (first.nChild + second.nChild) self⟩,
    ?_, rfl, rfl, rfl, rfl, ?_, live_join, ?_⟩
  · unfold mergeParent
    simp only [e1, e2, e3, e4, e5, e6, Option.bind_eq_bind, Option.bind_some,
      write_of_lt (show first.nKeys < parent.keyCap by omega)]
  · dsimp only
    rw [show first.nKeys + second.nKeys + 1 + 1 = first.nChild + second.nChild by omega,
      Function.update_self]
  · dsimp only
    rw [show first.nKeys + second.nKeys + 1 + 1 = first.nChild + second.nChild by omega,
      live_update_of_le _ _ le_rfl, live_join_children]
    rfl

theorem mergeLeft_spec {this leftBro : InnerNode α} {k : Key}
    (hk : leftBro.nKeys + this.nKeys + 1 ≤ 2 * leftBro.degree)
    (hc1 : leftBro.nChild = leftBro.nKeys + 1) (hc2 : this.nChild = this.nKeys + 1)
    (h2 : this.nKeys ≤ 2 * this.degree) :
    ∃ l', this.mergeLeft leftBro k = some l' ∧ l'.degree = leftBro.degree ∧
      l'.isRoot = leftBro.isRoot ∧ l'.nKeys = leftBro.nKeys + (this.nKeys + 1) ∧
      l'.nChild = leftBro.nChild + this.nChild ∧
      l'.liveKeys = leftBro.liveKeys ++ k :: this.liveKeys ∧
      l'.liveChildren = leftBro.liveChildren ++ this.liveChildren := by
  have hcap : leftBro.keyCap = 2 * leftBro.degree + 1 := rfl
  have hcapc : leftBro.childCap = 2 * leftBro.degree + 2 := rfl
  have htk : this.nKeys ≤ this.keyCap := by unfold keyCap; omega
  have htc : this.nChild ≤ this.childCap := by unfold childCap; omega
  have e1 := @write_of_lt _ leftBro.keyCap leftBro.keys leftBro.nKeys k (by omega)
  have e2 := fun a : ℕ → Key => @copyUp_eq _ leftBro.keyCap this.keyCap this.keys this.nKeys
    (leftBro.nKeys + 1) 0 a (by omega) (by omega)
  have e3 := @copyUp_eq _ leftBro.childCap this.childCap this.childrens this.nChild leftBro.nChild 0
    leftBro.childrens (by omega) (by omega)
  push_cast at e2 e3
  refine ⟨⟨leftBro.degree, leftBro.isRoot, leftBro.nKeys + (this.nKeys + 1),
    leftBro.nChild + this.nChild,
    blit (Function.update leftBro.keys leftBro.nKeys k) (leftBro.nKeys + 1) this.keys 0 this.nKeys,
    blit leftBro.childrens leftBro.nChild this.childrens 0 this.nChild⟩, ?_, rfl, rfl,
    rfl, rfl, ?_, ?_⟩
  · unfold mergeLeft
    simp only [e1, e2, e3, Option.bind_eq_bind, Option.bind_some]
  · unfold liveKeys
    dsimp only
    rw [show leftBro.nKeys + (this.nKeys + 1) = leftBro.nKeys + 1 + this.nKeys by omega,
      live_blit_end, live_update_self, List.append_assoc, List.singleton_append]
    congr 2
    exact live_congr fun t _ => by rw [Nat.zero_add]
  · unfold liveChildren
    dsimp only
    rw [live_blit_end]
    congr 1
    exact live_congr fun t _ => by rw [Nat.zero_add]

/-- Writing `first` into the space in front of shifted slots. -/
theorem live_shift {β : Type} {a first : ℕ → β} {i j : ℕ} (h : ∀ t < j, a (i + t) = first t) :
    live (i + j) a = live i a ++ live j first := by
  rw [live_add]
  congr 1
  exact live_congr h

theorem mergeRight_spec {this rightBro : InnerNode α} {k : Key}
    (hk : rightBro.nKeys + this.nKeys + 1 ≤ 2 * rightBro.degree)
    (hc1 : rightBro.nChild = rightBro.nKeys + 1) (hc2 : this.nChild = this.nKeys + 1)
    (h2 : this.nKeys ≤ 2 * this.degree) :
    ∃ r', this.mergeRight rightBro k = some r' ∧ r'.degree = rightBro.degree ∧
      r'.isRoot = rightBro.isRoot ∧ r'.nKeys = rightBro.nKeys + (this.nKeys + 1) ∧
      r'.nChild = rightBro.nChild + this.nChild ∧
      r'.liveKeys = this.liveKeys ++ k :: rightBro.liveKeys ∧
      r'.liveChildren = this.liveChildren ++ rightBro.liveChildren := by
  have hcap : rightBro.keyCap = 2 * rightBro.degree + 1 := rfl
  have hcapc : rightBro.childCap = 2 * rightBro.degree + 2 := rfl
  have htk : this.nKeys ≤ this.keyCap := by unfold keyCap; omega
  have htc : this.nChild ≤ this.childCap := by unfold childCap; omega
  have e1 := @moveDown_eq _ rightBro.keyCap (this.nKeys + 1) 0
    (by omega) rightBro.nKeys rightBro.keys (by omega)
  have e2 := fun a : ℕ → Key => @write_of_lt _ rightBro.keyCap a this.nKeys k (by omega)
  have e3 := fun a : ℕ → Key => @copyUp_eq _ rightBro.keyCap this.keyCap this.keys this.nKeys 0 0 a
    (by omega) (by omega)
  have e4 := @moveDown_eq _ rightBro.childCap this.nChild 0 (by omega) rightBro.nChild
    rightBro.childrens (by omega)
  have e5 := fun a : ℕ → α => @copyUp_eq _ rightBro.childCap this.childCap this.childrens
    this.nChild 0 0 a (by omega) (by omega)
  push_cast at e1 e3 e4 e5
  refine ⟨⟨rightBro.degree, rightBro.isRoot, rightBro.nKeys + (this.nKeys + 1),
    rightBro.nChild + this.nChild,
    blit (Function.update (blit rightBro.keys (this.nKeys + 1) rightBro.keys 0 rightBro.nKeys)
      this.nKeys k) 0 this.keys 0 this.nKeys,
    blit (blit rightBro.childrens this.nChild rightBro.childrens 0 rightBro.nChild) 0
      this.childrens 0 this.nChild⟩, ?_, rfl, rfl, rfl, rfl, ?_, ?_⟩
  · unfold mergeRight
    simp only [e1, e2, e3, e4, e5, Option.bind_eq_bind, Option.bind_some]
  · unfold liveKeys
    dsimp only
    rw [show rightBro.nKeys + (this.nKeys + 1) = this.nKeys + 1 + rightBro.nKeys by omega,
      @live_shift _ _ rightBro.keys (this.nKeys + 1) rightBro.nKeys, live_succ, List.append_assoc,
      List.singleton_append]
    · congr 1
      · refine live_congr fun t ht => ?_
        rw [blit_of_mem (by omega) (by omega)]
        congr 1
        omega
      · rw [blit_of_not_mem (by omega), Function.update_self]
    · intro t ht
      rw [blit_of_not_mem (by omega), Function.update_of_ne (by omega),
        blit_of_mem (by omega) (by omega)]
      congr 1
      omega
  · unfold liveChildren
    dsimp only
    rw [Nat.add_comm, @live_shift _ _ rightBro.childrens this.nChild rightBro.nChild]
    · congr 1
      refine live_congr fun t ht => ?_
      rw [blit_of_mem (by omega) (by omega)]
      congr 1
      omega
    · intro t ht
      rw [blit_of_not_mem (by omega), blit_of_mem (by omega) (by omega)]
      congr 1
      omega

/-- The right brother gives its first keys and children; the separator between
    the two nodes moves along. -/
theorem redistributeRight_spec {this rightBro parent : InnerNode α} {index m : ℕ}
    (hm : m = (this.nKeys + rightBro.nKeys) / 2 - this.nKeys) (hm1 : 1 ≤ m)
    (hm2 : m ≤ rightBro.nKeys) (hthis : this.nKeys + m ≤ 2 * this.degree)
    (hright : rightBro.nKeys ≤ 2 * rightBro.degree)
    (hc1 : this.nChild = this.nKeys + 1) (hc2 : rightBro.nChild = rightBro.nKeys + 1)
    (hidx : index < parent.nKeys) (hp : parent.nKeys ≤ 2 * parent.degree) :
    ∃ t' r' p', this.redistributeRight index rightBro parent = some (t', r', p') ∧
      t'.degree = this.degree ∧ t'.isRoot = this.isRoot ∧ t'.nKeys = this.nKeys + m ∧
      t'.nChild = this.nChild + m ∧
      t'.liveKeys = this.liveKeys ++ parent.keys index :: rightBro.liveKeys.take (m - 1) ∧
      t'.liveChildren = this.liveChildren ++ rightBro.liveChildren.take m ∧
      r'.degree = rightBro.degree ∧ r'.isRoot = rightBro.isRoot ∧ r'.nKeys = rightBro.nKeys - m ∧
      r'.nChild = rightBro.nChild - m ∧ r'.liveKeys = rightBro.liveKeys.drop m ∧
      r'.liveChildren = rightBro.liveChildren.drop m ∧
      p' = { parent with keys := Function.update parent.keys index (rightBro.keys (m - 1)) } := by
  have hmove : ((this.nKeys : ℤ) + rightBro.nKeys) / 2 - this.nKeys = (m : ℤ) := by omega
  have hcap : this.keyCap = 2 * this.degree + 1 := rfl
  have hcapc : this.childCap = 2 * this.degree + 2 := rfl
  have hrk : rightBro.nKeys ≤ rightBro.keyCap := by unfold keyCap; omega
  have hrc : rightBro.nChild ≤ rightBro.childCap := by unfold childCap; omega
  have hpk : index < parent.keyCap := by unfold keyCap; omega
  have e1 : ((m : ℤ) - 1).toNat = m - 1 := by omega
  have e2 : ((m : ℤ)).toNat = m := by omega
  have e3 : ((rightBro.nKeys : ℤ) - m).toNat = rightBro.nKeys - m := by omega
  have e4 : ((rightBro.nChild : ℤ) - m).toNat = rightBro.nChild - m := by omega
  have e5 : ((this.nKeys : ℤ) + m).toNat = this.nKeys + m := by omega
  have e6 : ((this.nChild : ℤ) + m).toNat = this.nChild + m := by omega
  have f1 := fun a : ℕ → Key =>
    @write_of_lt _ this.keyCap a this.nKeys (parent.keys index) (by omega)
  have f2 := fun a : ℕ → Key => @copyUp_eq _ this.keyCap rightBro.keyCap rightBro.keys (m - 1)
    (this.nKeys + 1) 0 a (by omega) (by omega)
  have f3 := @copyUp_eq _ this.childCap rightBro.childCap rightBro.childrens m this.nChild 0
    this.childrens (by omega) (by omega)
  have f4 : read rightBro.keyCap rightBro.keys ((m : ℤ) - 1) = some (rightBro.keys (m - 1)) := by
    rw [show (m : ℤ) - 1 = ((m - 1 : ℕ) : ℤ) by omega]
    exact read_of_lt (by omega)
  have f5 := @moveUp_eq _ rightBro.keyCap (rightBro.nKeys - m) 0 m rightBro.keys
    (by omega) (by omega)
  have f6 := @moveUp_eq _ rightBro.childCap (rightBro.nChild - m) 0 m rightBro.childrens (by omega)
    (by omega)
  push_cast at f2 f3 f5 f6
  refine ⟨⟨this.degree, this.isRoot, this.nKeys + m, this.nChild + m,
      blit (Function.update this.keys this.nKeys (parent.keys index)) (this.nKeys + 1)
        rightBro.keys 0 (m - 1),
      blit this.childrens this.nChild rightBro.childrens 0 m⟩,
    ⟨rightBro.degree, rightBro.isRoot, rightBro.nKeys - m, rightBro.nChild - m,
      blit rightBro.keys 0 rightBro.keys m (rightBro.nKeys - m),
      blit rightBro.childrens 0 rightBro.childrens m (rightBro.nChild - m)⟩,
    _, ?_, rfl, rfl, rfl, rfl, ?_, ?_, rfl, rfl, rfl, rfl, ?_, ?_, rfl⟩
  · unfold redistributeRight
    simp only [hmove, e1, e2, e3, e4, e5, e6, read_of_lt hpk, f1, f2, f3, f4, f5, f6,
      write_of_lt hpk, Option.bind_eq_bind, Option.bind_some]
  · unfold liveKeys
    dsimp only
    rw [take_live _ (by omega), show this.nKeys + m = this.nKeys + 1 + (m - 1) by omega,
      live_blit_end, live_update_self, List.append_assoc, List.singleton_append]
    congr 2
    exact live_congr fun t _ => by rw [Nat.zero_add]
  · unfold liveChildren
    dsimp only
    rw [take_live _ (by omega), live_blit_end]
    congr 1
    exact live_congr fun t _ => by rw [Nat.zero_add]
  · unfold liveKeys
    dsimp only
    rw [drop_live _ (by omega)]
    refine live_congr fun t ht => ?_
    rw [blit_of_mem (by omega) (by omega), Nat.sub_zero]
  · unfold liveChildren
    dsimp only
    rw [drop_live _ (by omega)]
    refine live_congr fun t ht => ?_
    rw [blit_of_mem (by omega) (by omega), Nat.sub_zero]

/-- When the left brother has more keys, `moveKeys` is negative and the first
    loop that runs writes in front of its array. -/
theorem redistributeLeft_none {this leftBro parent : InnerNode α} {index : ℤ}
    (h : this.nKeys + 1 < leftBro.nKeys) (hc : 0 < this.nChild) :
    this.redistributeLeft index leftBro parent = none := by
  have hneg : ((leftBro.nKeys : ℤ) + this.nKeys) / 2 - leftBro.nKeys < 0 := by omega
  unfold redistributeLeft
  simp only [Option.bind_eq_bind]
  cases moveDown this.keyCap (((leftBro.nKeys : ℤ) + this.nKeys) / 2 - leftBro.nKeys) 0 this.nKeys
    this.keys with
  | none => rfl
  | some keys => rw [Option.bind_some, moveDown_neg hneg hc]; rfl

/-- The nodes on which `InnerNode::remove` calls `redistributeLeft` (fptree.cpp:290):
    `this` is the child of `parent` at `index` and has one key too few, and its left
    brother has keys to spare. -/
structure LeftCall (d index : ℕ) (this leftBro parent : InnerNode α) : Prop where
  one_le : 1 ≤ d
  degree : this.degree = d ∧ leftBro.degree = d ∧ parent.degree = d
  index : 1 ≤ index ∧ index < parent.nChild
  filled_parent : parent.nKeys ≤ 2 * d ∧ parent.nChild = parent.nKeys + 1
  short_this : this.nKeys = d - 1 ∧ this.nChild = this.nKeys + 1
  filled_left : leftBro.nKeys ≤ 2 * d ∧ leftBro.nChild = leftBro.nKeys + 1
  enough : 2 * d ≤ leftBro.nKeys + this.nKeys

instance (d index : ℕ) (this leftBro parent : InnerNode α) :
    Decidable (LeftCall d index this leftBro parent) :=
  decidable_of_iff (1 ≤ d ∧ (this.degree = d ∧ leftBro.degree = d ∧ parent.degree = d) ∧
      (1 ≤ index ∧ index < parent.nChild) ∧
      (parent.nKeys ≤ 2 * d ∧ parent.nChild = parent.nKeys + 1) ∧
      (this.nKeys = d - 1 ∧ this.nChild = this.nKeys + 1) ∧
      (leftBro.nKeys ≤ 2 * d ∧ leftBro.nChild = leftBro.nKeys + 1) ∧
      2 * d ≤ leftBro.nKeys + this.nKeys)
    ⟨fun ⟨h1, h2, h3, h4, h5, h6, h7⟩ => ⟨h1, h2, h3, h4, h5, h6, h7⟩,
      fun h => ⟨h.one_le, h.degree, h.index, h.filled_parent, h.short_this,
        h.filled_left, h.enough⟩⟩

/-- What a redistribution with the left brother is for: no access leaves the
    arrays, the keys and children of the two nodes keep their order around the key
    of the parent that separates them, and both nodes are filled. -/
def RedistributesLeft (d index : ℕ) (this leftBro parent : InnerNode α) : Prop :=
  ∃ t' l' p', this.redistributeLeft index leftBro parent = some (t', l', p') ∧
    l'.liveKeys ++ p'.keys (index - 1) :: t'.liveKeys =
      leftBro.liveKeys ++ parent.keys (index - 1) :: this.liveKeys ∧
    l'.liveChildren ++ t'.liveChildren = leftBro.liveChildren ++ this.liveChildren ∧
    (∀ i, i ≠ index - 1 → p'.keys i = parent.keys i) ∧
    (d ≤ t'.nKeys ∧ t'.nKeys ≤ 2 * d ∧ t'.nChild = t'.nKeys + 1) ∧
    (d ≤ l'.nKeys ∧ l'.nKeys ≤ 2 * d ∧ l'.nChild = l'.nKeys + 1)

/-- `redistributeLeft` runs out of its arrays on every call that `remove` makes:
    `moveKeys` has the opposite sign of the one its loops need. -/
theorem redistributeLeft_never (d index : ℕ) (this leftBro parent : InnerNode α)
    (h : LeftCall d index this leftBro parent) :
    this.redistributeLeft index leftBro parent = none ∧
      ¬ RedistributesLeft d index this leftBro parent := by
  have hnone : this.redistributeLeft index leftBro parent = none := by
    have h1 := h.one_le
    have h2 := h.short_this
    have h3 := h.enough
    exact redistributeLeft_none (by omega) (by omega)
  refine ⟨hnone, ?_⟩
  rintro ⟨t', l', p', hsome, -⟩
  rw [hnone] at hsome
  cases hsome

/-- A parent of degree 1 whose left child has two keys and whose right child has
    none. -/
theorem redistributeLeft_never_one :
    LeftCall 1 1 ⟨1, false, 0, 1, fun _ => 0,
      fun i => i⟩ ⟨1, false, 2, 3, fun i => Fin.ofNat _ i, fun i => i⟩
      ⟨1, false, 1, 2, fun _ => 9, fun i => i⟩ ∧
    redistributeLeft 1 ⟨1, false, 0, 1, fun _ => 0, fun i => i⟩
      ⟨1, false, 2, 3, fun i => Fin.ofNat _ i,
        fun i => i⟩ ⟨1, false, 1, 2, fun _ => 9, fun i => i⟩ = none :=
  ⟨by decide, (redistributeLeft_never 1 1 _ _ _ (by decide)).1⟩

theorem redistributeLeft_out_of_bounds :
    ¬ ∀ (d index : ℕ) (this leftBro parent : InnerNode ℕ),
      LeftCall d index this leftBro parent → RedistributesLeft d index this leftBro parent := by
  intro h
  obtain ⟨t', l', p', hsome, -⟩ := h 1 1 ⟨1, false, 0, 1, fun _ => 0, fun i => i⟩
    ⟨1, false, 2, 3, fun i => Fin.ofNat _ i,
      fun i => i⟩ ⟨1, false, 1, 2, fun _ => 9, fun i => i⟩ (by decide)
  exact absurd hsome nofun

end InnerNode

end FPTreeDB
