import Mathlib

/-!
# Separator chains

The children of a search-tree node, each responsible for the half-open key
range between its two neighbouring separators. `Seps P lo ks cs hi` says that
there is one child more than separators and that child `i` satisfies `P` on the
range from separator `i - 1` to separator `i`, where `lo` and `hi` (absent:
unbounded) close the chain at its ends.

* `seps_append`: a chain cut at a separator.
* `seps_segment`: replacing a run of children and the separators between them.
* `Seps.flatMap`: a property of what the children hold, from end to end.
* `weave_append`, `weave_join`: the children and separators in order, cut at a
  child and at a separator.
* `Seps.keys_sorted`: separators are strictly increasing when no range is empty.
* `inRange_childIndex`, `childIndex_of_inRange`: the number of separators `≤ k`
  is the index of the child responsible for `k`.
-/

namespace SepChain

variable {K α : Type*}

/-- The range `[lo, hi)` contains `k`. -/
def InRange [LinearOrder K] (lo hi : Option K) (k : K) : Prop :=
  (∀ l ∈ lo, l ≤ k) ∧ ∀ h ∈ hi, k < h

/-- The range `[lo, hi)` is not closed off by its bounds. -/
def Gap [LinearOrder K] (lo hi : Option K) : Prop := ∀ l ∈ lo, ∀ h ∈ hi, l < h

/-- The children right of a first one: child `j` follows separator `j`. -/
def Tail (P : Option K → Option K → α → Prop) : List K → List α → Option K → Prop
  | [], [], _ => True
  | k :: ks, c :: cs, hi => P (some k) (ks.head?.or hi) c ∧ Tail P ks cs hi
  | _, _, _ => False

/-- The children left of a last one: child `j` precedes separator `j`. -/
def Init (P : Option K → Option K → α → Prop) : Option K → List K → List α → Prop
  | _, [], [] => True
  | lo, k :: ks, c :: cs => P lo (some k) c ∧ Init P (some k) ks cs
  | _, _, _ => False

/-- A separator chain from `lo` to `hi`. -/
def Seps (P : Option K → Option K → α → Prop) (lo : Option K) (ks : List K) :
    List α → Option K → Prop
  | [], _ => False
  | c :: cs, hi => P lo (ks.head?.or hi) c ∧ Tail P ks cs hi

/-- The children with the separators between them, from left to right. -/
def weave : List K → List α → List (K ⊕ α)
  | _, [] => []
  | [], c :: _ => [.inr c]
  | k :: ks, c :: cs => .inr c :: .inl k :: weave ks cs

/-- What follows the first child. -/
def weaveTail : List K → List α → List (K ⊕ α)
  | [], _ => []
  | k :: ks, cs => .inl k :: weave ks cs

/-- The bound just left of what follows the separators `ks`. -/
def low (lo : Option K) (ks : List K) : Option K := ks.getLast?.or lo

/-- The bound just right of what precedes the separators `ks`. -/
def upp (ks : List K) (hi : Option K) : Option K := ks.head?.or hi

@[simp] theorem low_nil (lo : Option K) : low lo [] = lo := by simp [low]

@[simp] theorem upp_nil (hi : Option K) : upp [] hi = hi := by simp [upp]

@[simp] theorem upp_cons (k : K) (ks : List K) (hi : Option K) : upp (k :: ks) hi = some k := by
  simp [upp]

@[simp] theorem low_cons (lo : Option K) (k : K) (ks : List K) :
    low lo (k :: ks) = low (some k) ks := by
  cases ks with
  | nil => simp [low]
  | cons k' ks =>
    simp only [low, List.getLast?_cons_cons]
    cases h : (k' :: ks).getLast? with
    | none => simp at h
    | some _ => rfl

theorem low_append_singleton (lo : Option K) (ks : List K) (k : K) :
    low lo (ks ++ [k]) = some k := by
  simp [low]

/-! ## The sequence of children and separators -/

theorem weave_cons (ks : List K) (c : α) (cs : List α) :
    weave ks (c :: cs) = .inr c :: weaveTail ks cs := by
  cases ks <;> rfl

theorem weave_append : ∀ {ks1 ks2 : List K} {cs1 cs2 : List α}, ks1.length = cs1.length →
    weave (ks1 ++ ks2) (cs1 ++ cs2) = weave ks1 cs1 ++ weave ks2 cs2
  | [], _, [], _, _ => rfl
  | k :: ks1, ks2, c :: cs1, cs2, h => by
    have ih := @weave_append ks1 ks2 cs1 cs2 (Nat.succ.inj h)
    simp only [List.cons_append, weave, ih]

theorem weave_join : ∀ {ks1 ks2 : List K} {k : K} {cs1 cs2 : List α}, cs1.length = ks1.length + 1 →
    weave (ks1 ++ k :: ks2) (cs1 ++ cs2) = weave ks1 cs1 ++ .inl k :: weave ks2 cs2
  | [], _, _, [c], _, _ => rfl
  | k' :: ks1, ks2, k, c :: cs1, cs2, h => by
    have ih := @weave_join ks1 ks2 k cs1 cs2 (Nat.succ.inj h)
    simp only [List.cons_append, weave, ih]

variable {P Q : Option K → Option K → α → Prop}

/-! ## Shape -/

theorem Tail.length_eq : ∀ {ks : List K} {cs : List α} {hi : Option K},
    Tail P ks cs hi → cs.length = ks.length
  | [], [], _, _ => rfl
  | _ :: _, _ :: _, _, h => by simp [Tail.length_eq h.2]
  | [], _ :: _, _, h => h.elim
  | _ :: _, [], _, h => h.elim

theorem Seps.length_eq {lo hi : Option K} {ks : List K} {cs : List α} (h : Seps P lo ks cs hi) :
    cs.length = ks.length + 1 := by
  cases cs with
  | nil => exact h.elim
  | cons c cs => simp [h.2.length_eq]

theorem seps_singleton {lo hi : Option K} {c : α} : Seps P lo [] [c] hi ↔ P lo hi c := by
  simp [Seps, Tail]

theorem seps_cons {lo hi : Option K} {k : K} {ks : List K} {c : α} {cs : List α} :
    Seps P lo (k :: ks) (c :: cs) hi ↔ P lo (some k) c ∧ Seps P (some k) ks cs hi := by
  cases cs with
  | nil => simp [Seps, Tail]
  | cons c' cs => simp [Seps, Tail]

theorem seps_pair {lo hi : Option K} {k : K} {c c' : α} :
    Seps P lo [k] [c, c'] hi ↔ P lo (some k) c ∧ P (some k) hi c' := by
  rw [seps_cons, seps_singleton]

/-- A chain given child by child. -/
theorem seps_of_forall {hi : Option K} : ∀ {lo : Option K} {ks : List K} {cs : List α},
    cs.length = ks.length + 1 →
    (∀ i c, cs[i]? = some c → P (low lo (ks.take i)) (upp (ks.drop i) hi) c) →
    Seps P lo ks cs hi := by
  intro lo ks
  induction ks generalizing lo with
  | nil =>
    intro cs hl h
    obtain ⟨c, rfl⟩ := List.length_eq_one_iff.mp hl
    rw [seps_singleton]
    simpa using h 0 c rfl
  | cons k ks ih =>
    intro cs hl h
    cases cs with
    | nil => simp at hl
    | cons c cs =>
      rw [seps_cons]
      refine ⟨by simpa using h 0 c rfl, ih (by simpa using hl) fun i c' hc' => ?_⟩
      simpa using h (i + 1) c' (by simpa using hc')

/-! ## Cutting and replacing -/

/-- A chain cut at the separator `k`. -/
theorem seps_append {hi : Option K} {k : K} :
    ∀ {lo : Option K} {ks1 ks2 : List K} {cs1 cs2 : List α}, cs1.length = ks1.length + 1 →
      (Seps P lo (ks1 ++ k :: ks2) (cs1 ++ cs2) hi ↔
        Seps P lo ks1 cs1 (some k) ∧ Seps P (some k) ks2 cs2 hi) := by
  intro lo ks1
  induction ks1 generalizing lo with
  | nil =>
    intro ks2 cs1 cs2 hl
    obtain ⟨c, rfl⟩ := List.length_eq_one_iff.mp hl
    rw [List.nil_append, List.singleton_append, seps_cons, seps_singleton]
  | cons k' ks1 ih =>
    intro ks2 cs1 cs2 hl
    cases cs1 with
    | nil => simp at hl
    | cons c cs1 =>
      rw [List.cons_append, List.cons_append, seps_cons, seps_cons,
        ih (by simpa using hl), and_assoc]

/-- A run of children `ms` and the separators `ts` between them, inside a chain. -/
theorem seps_segment {hi : Option K} {ts ks2 : List K} {ms cs2 : List α}
    (hm : ms.length = ts.length + 1) :
    ∀ {lo : Option K} {ks1 : List K} {cs1 : List α}, cs1.length = ks1.length →
      (Seps P lo (ks1 ++ (ts ++ ks2)) (cs1 ++ (ms ++ cs2)) hi ↔
        Init P lo ks1 cs1 ∧ Seps P (low lo ks1) ts ms (upp ks2 hi) ∧ Tail P ks2 cs2 hi) := by
  intro lo ks1
  induction ks1 generalizing lo with
  | nil =>
    intro cs1 hl
    obtain rfl := List.length_eq_zero_iff.mp hl
    cases ks2 with
    | nil =>
      cases cs2 with
      | nil => simp [Init, Tail]
      | cons c cs2 =>
        refine ⟨fun h => ?_, fun h => h.2.2.elim⟩
        have := h.length_eq
        simp only [List.nil_append, List.append_nil, List.length_append, List.length_cons] at this
        omega
    | cons k ks2 =>
      cases cs2 with
      | nil =>
        refine ⟨fun h => ?_, fun h => h.2.2.elim⟩
        have := h.length_eq
        simp only [List.nil_append, List.append_nil, List.length_append, List.length_cons] at this
        omega
      | cons c cs2 =>
        rw [List.nil_append, List.nil_append, seps_append hm]
        simp [Init, Tail, Seps]
  | cons k ks1 ih =>
    intro cs1 hl
    cases cs1 with
    | nil => simp at hl
    | cons c cs1 =>
      rw [List.cons_append, List.cons_append, seps_cons, ih (by simpa using hl), low_cons]
      simp only [Init, and_assoc]

/-- The child at index `i` and what surrounds it. -/
theorem Seps.segment {lo hi : Option K} {ks : List K} {cs : List α} (h : Seps P lo ks cs hi) {i : ℕ}
    {c : α} (hc : cs = cs.take i ++ c :: cs.drop (i + 1)) :
    (cs.take i).length = i ∧ (ks.take i).length = i ∧ Init P lo (ks.take i) (cs.take i) ∧
      P (low lo (ks.take i)) (upp (ks.drop i) hi) c ∧ Tail P (ks.drop i) (cs.drop (i + 1)) hi := by
  have hlen := h.length_eq
  have hic : i < cs.length := by
    have := congrArg List.length hc
    simp only [List.length_append, List.length_take, List.length_cons, List.length_drop] at this
    omega
  have hct : (cs.take i).length = i := by rw [List.length_take]; omega
  have hkt : (ks.take i).length = i := by rw [List.length_take]; omega
  rw [hc, ← List.take_append_drop i ks] at h
  have hseg := (@seps_segment _ _ P hi [] (ks.drop i) [c] (cs.drop (i + 1)) rfl lo (ks.take i)
    (cs.take i) (by rw [hct, hkt])).mp (by simpa using h)
  exact ⟨hct, hkt, hseg.1, seps_singleton.mp hseg.2.1, hseg.2.2⟩

/-! ## Changing the predicate -/

theorem Tail.mono : ∀ {ks : List K} {cs : List α} {hi : Option K},
    (∀ c ∈ cs, ∀ a b, P a b c → Q a b c) → Tail P ks cs hi → Tail Q ks cs hi
  | [], [], _, _, _ => trivial
  | _ :: _, c :: cs, _, hpq, h =>
    ⟨hpq c (by simp) _ _ h.1, Tail.mono (fun x hx => hpq x (by simp [hx])) h.2⟩
  | [], _ :: _, _, _, h => h.elim
  | _ :: _, [], _, _, h => h.elim

theorem Init.mono : ∀ {lo : Option K} {ks : List K} {cs : List α},
    (∀ c ∈ cs, ∀ a b, P a b c → Q a b c) → Init P lo ks cs → Init Q lo ks cs
  | _, [], [], _, _ => trivial
  | _, _ :: _, c :: cs, hpq, h =>
    ⟨hpq c (by simp) _ _ h.1, Init.mono (fun x hx => hpq x (by simp [hx])) h.2⟩
  | _, [], _ :: _, _, h => h.elim
  | _, _ :: _, [], _, h => h.elim

theorem Seps.mono {lo hi : Option K} {ks : List K} {cs : List α}
    (hpq : ∀ c ∈ cs, ∀ a b, P a b c → Q a b c) (h : Seps P lo ks cs hi) : Seps Q lo ks cs hi := by
  cases cs with
  | nil => exact h
  | cons c cs =>
    exact ⟨hpq c (by simp) _ _ h.1, h.2.mono fun x hx => hpq x (by simp [hx])⟩

/-- A predicate that ignores the range only asks for the right number of children. -/
theorem seps_const {R : α → Prop} : ∀ {lo : Option K} {ks : List K} {cs : List α} {hi : Option K},
    Seps (fun _ _ c => R c) lo ks cs hi ↔ cs.length = ks.length + 1 ∧ ∀ c ∈ cs, R c := by
  intro lo ks
  induction ks generalizing lo with
  | nil =>
    intro cs hi
    match cs with
    | [] => simp [Seps]
    | [c] => simp [Seps, Tail]
    | c :: c' :: cs => simp [Seps, Tail]
  | cons k ks ih =>
    intro cs hi
    cases cs with
    | nil => simp [Seps]
    | cons c cs =>
      rw [seps_cons, ih]
      simp only [List.length_cons, List.mem_cons, forall_eq_or_imp, Nat.add_right_cancel_iff]
      tauto

/-- Replace the run `ms` by `ms'`, and `P` by `Q` on the other children. -/
theorem Seps.replace {lo hi : Option K} {ks1 ts ts' ks2 : List K} {cs1 ms ms' cs2 : List α}
    (h : Seps P lo (ks1 ++ (ts ++ ks2)) (cs1 ++ (ms ++ cs2)) hi)
    (hl : cs1.length = ks1.length) (hm : ms.length = ts.length + 1)
    (hpq : ∀ c ∈ cs1 ++ cs2, ∀ a b, P a b c → Q a b c)
    (hms : Seps Q (low lo ks1) ts' ms' (upp ks2 hi)) :
    Seps Q lo (ks1 ++ (ts' ++ ks2)) (cs1 ++ (ms' ++ cs2)) hi := by
  obtain ⟨h1, -, h3⟩ := (seps_segment hm hl).mp h
  rw [seps_segment hms.length_eq hl]
  exact ⟨h1.mono fun c hc => hpq c (by simp [hc]), hms, h3.mono fun c hc => hpq c (by simp [hc])⟩

/-! ## Bounds -/

section Bounds

variable {G : Option K → Option K → Prop} {β : Type*} {A : Option K → Option K → List β → Prop}
  {f : α → List β}

/-- What the children of a chain hold, from left to right: a property that two adjacent
    ranges pass on to their union holds of the whole chain. -/
theorem Seps.flatMap (hcat : ∀ a k b l l', A a (some k) l → A (some k) b l' → A a b (l ++ l'))
    (hP : ∀ a b c, P a b c → A a b (f c)) :
    ∀ {lo : Option K} {ks : List K} {cs : List α} {hi : Option K}, Seps P lo ks cs hi →
      A lo hi (cs.flatMap f) := by
  intro lo ks
  induction ks generalizing lo with
  | nil =>
    intro cs hi h
    obtain ⟨c, rfl⟩ := List.length_eq_one_iff.mp h.length_eq
    rw [List.flatMap_singleton]
    exact hP _ _ _ (seps_singleton.mp h)
  | cons k ks ih =>
    intro cs hi h
    cases cs with
    | nil => exact h.elim
    | cons c cs =>
      rw [seps_cons] at h
      rw [List.flatMap_cons]
      exact hcat _ k _ _ _ (hP _ _ _ h.1) (ih h.2)

/-- A chain whose ranges satisfy the transitive relation `G` satisfies it from end to end. -/
theorem Seps.rel (htrans : ∀ a k b, G a (some k) → G (some k) b → G a b)
    (hP : ∀ a b c, P a b c → G a b) {lo : Option K} {ks : List K} {cs : List α} {hi : Option K}
    (h : Seps P lo ks cs hi) : G lo hi :=
  Seps.flatMap (A := fun a b _ => G a b) (f := fun _ => ([] : List α))
    (fun a k b _ _ => htrans a k b) hP h

end Bounds

section Order

variable [LinearOrder K]

theorem Gap.trans {a b : Option K} {k : K} (h1 : Gap a (some k)) (h2 : Gap (some k) b) : Gap a b :=
  fun l hl h hh => lt_trans (h1 l hl k rfl) (h2 k rfl h hh)

theorem InRange.gap {lo hi : Option K} {k : K} (h : InRange lo hi k) : Gap lo hi :=
  fun l hl h' hh => lt_of_le_of_lt (h.1 l hl) (h.2 h' hh)

/-- The cells `l` hold keys of the range `[lo, hi)`, those of a cell below those of every
    later one. -/
def Ordered {β : Type*} (keys : β → List K) (lo hi : Option K) (l : List β) : Prop :=
  Gap lo hi ∧ (∀ x ∈ l, ∀ k ∈ keys x, InRange lo hi k) ∧
    l.Pairwise fun x y => ∀ a ∈ keys x, ∀ b ∈ keys y, a < b

/-- Two adjacent ranges of cells. -/
theorem Ordered.append {β : Type*} {keys : β → List K} {a b : Option K} {k : K} {l l' : List β}
    (h : Ordered keys a (some k) l) (h' : Ordered keys (some k) b l') :
    Ordered keys a b (l ++ l') := by
  obtain ⟨hgap, hin, hord⟩ := h
  obtain ⟨hgap', hin', hord'⟩ := h'
  refine ⟨hgap.trans hgap', fun x hx y hy => ?_, List.pairwise_append.mpr ⟨hord, hord', ?_⟩⟩
  · rcases List.mem_append.mp hx with hx | hx
    · exact ⟨(hin x hx y hy).1, fun u hu => ((hin x hx y hy).2 k rfl).trans (hgap' k rfl u hu)⟩
    · exact ⟨fun u hu => (hgap u hu k rfl).le.trans ((hin' x hx y hy).1 k rfl), (hin' x hx y hy).2⟩
  · intro x hx x' hx' y hy y' hy'
    exact ((hin x hx y hy).2 k rfl).trans_le ((hin' x' hx' y' hy').1 k rfl)

/-- Separators lie strictly inside the chain's own bounds and increase strictly. -/
theorem Seps.keys_sorted (hP : ∀ a b c, P a b c → Gap a b) :
    ∀ {lo : Option K} {ks : List K} {cs : List α} {hi : Option K}, Seps P lo ks cs hi →
      ks.Pairwise (· < ·) ∧ ∀ k ∈ ks, Gap lo (some k) ∧ Gap (some k) hi := by
  intro lo ks
  induction ks generalizing lo with
  | nil => intro cs hi _; simp
  | cons k ks ih =>
    intro cs hi h
    cases cs with
    | nil => exact h.elim
    | cons c cs =>
      rw [seps_cons] at h
      obtain ⟨hs, hb⟩ := ih h.2
      have hlo := hP _ _ _ h.1
      have hhi := h.2.rel (G := Gap) (fun a k b => Gap.trans) hP
      refine ⟨List.pairwise_cons.mpr ⟨fun k' hk' => (hb k' hk').1 k rfl k' rfl, hs⟩, ?_⟩
      intro k' hk'
      rcases List.mem_cons.mp hk' with rfl | hk'
      · exact ⟨hlo, hhi⟩
      · exact ⟨hlo.trans (hb k' hk').1, (hb k' hk').2⟩

/-- The number of separators `≤ k`. -/
def childIndex (ks : List K) (k : K) : ℕ := ks.countP (· ≤ k)

/-- In a sorted list the separators `≤ k` come first. -/
theorem childIndex_split {ks1 ks2 : List K} {k : K} (h1 : ∀ x ∈ ks1, x ≤ k)
    (h2 : ∀ x ∈ ks2, k < x) :
    childIndex (ks1 ++ ks2) k = ks1.length := by
  rw [childIndex, List.countP_append, List.countP_eq_length.mpr (by simpa using h1),
    List.countP_eq_zero.mpr (by simpa using h2), Nat.add_zero]

theorem le_of_mem_low {lo : Option K} {ks : List K} (hs : ks.Pairwise (· < ·)) {k x : K}
    (h : ∀ l ∈ low lo ks, l ≤ k) (hx : x ∈ ks) : x ≤ k := by
  rcases List.eq_nil_or_concat ks with rfl | ⟨ks', y, rfl⟩
  · simp at hx
  · rw [List.concat_eq_append] at *
    have hy : y ≤ k := h y (by rw [low_append_singleton]; rfl)
    rcases List.mem_append.mp hx with hx | hx
    · have : x < y := (List.pairwise_append.mp hs).2.2 x hx y (by simp)
      exact le_trans this.le hy
    · rw [List.mem_singleton.mp hx]; exact hy

theorem lt_of_mem_upp {hi : Option K} {ks : List K} (hs : ks.Pairwise (· < ·)) {k x : K}
    (h : ∀ u ∈ upp ks hi, k < u) (hx : x ∈ ks) : k < x := by
  cases ks with
  | nil => simp at hx
  | cons y ks =>
    have hy : k < y := h y (by rw [upp_cons]; rfl)
    rcases List.mem_cons.mp hx with rfl | hx
    · exact hy
    · exact lt_trans hy ((List.pairwise_cons.mp hs).1 x hx)

/-- A key in the range between two neighbouring separators has the index of that range. -/
theorem childIndex_of_inRange {lo hi : Option K} {ks1 ks2 : List K} {k : K}
    (hs : (ks1 ++ ks2).Pairwise (· < ·)) (h : InRange (low lo ks1) (upp ks2 hi) k) :
    childIndex (ks1 ++ ks2) k = ks1.length := by
  obtain ⟨hs1, hs2, -⟩ := List.pairwise_append.mp hs
  exact childIndex_split (fun x hx => le_of_mem_low hs1 h.1 hx)
    (fun x hx => lt_of_mem_upp hs2 h.2 hx)

/-- A sorted list splits at `childIndex` into the keys `≤ k` and those above. -/
theorem childIndex_take_drop {ks : List K} (hs : ks.Pairwise (· < ·)) (k : K) :
    (∀ x ∈ ks.take (childIndex ks k), x ≤ k) ∧ ∀ x ∈ ks.drop (childIndex ks k), k < x := by
  induction ks with
  | nil => simp
  | cons y ks ih =>
    obtain ⟨hy, hs'⟩ := List.pairwise_cons.mp hs
    by_cases hyk : y ≤ k
    · have hidx : childIndex (y :: ks) k = childIndex ks k + 1 := by
        simp [childIndex, hyk]
      rw [hidx, List.take_succ_cons, List.drop_succ_cons]
      refine ⟨fun x hx => ?_, (ih hs').2⟩
      rcases List.mem_cons.mp hx with rfl | hx
      · exact hyk
      · exact (ih hs').1 x hx
    · have hzero : childIndex (y :: ks) k = 0 := by
        rw [childIndex, List.countP_eq_zero]
        intro x hx
        rcases List.mem_cons.mp hx with rfl | hx
        · simpa using hyk
        · simpa using lt_trans (not_le.mp hyk) (hy x hx)
      rw [hzero]
      refine ⟨by simp, fun x hx => ?_⟩
      rcases List.mem_cons.mp hx with rfl | hx
      · exact not_le.mp hyk
      · exact lt_trans (not_le.mp hyk) (hy x hx)

/-- The range at `childIndex ks k` contains `k`. -/
theorem inRange_childIndex {lo hi : Option K} {ks : List K} {k : K} (hs : ks.Pairwise (· < ·))
    (h : InRange lo hi k) :
    InRange (low lo (ks.take (childIndex ks k))) (upp (ks.drop (childIndex ks k)) hi) k := by
  obtain ⟨h1, h2⟩ := childIndex_take_drop hs k
  constructor
  · intro l hl
    rw [low, Option.mem_def, Option.or_eq_some_iff] at hl
    rcases hl with hl | ⟨-, hl⟩
    · exact h1 l (List.mem_of_getLast? hl)
    · exact h.1 l hl
  · intro u hu
    rw [upp, Option.mem_def, Option.or_eq_some_iff] at hu
    rcases hu with hu | ⟨-, hu⟩
    · exact h2 u (List.mem_of_mem_head? hu)
    · exact h.2 u hu

/-- The range of one child lies in the range of the chain. -/
theorem inRange_of_child {lo hi : Option K} {ks1 ks2 : List K} {k : K}
    (hb : ∀ x ∈ ks1 ++ ks2, Gap lo (some x) ∧ Gap (some x) hi)
    (h : InRange (low lo ks1) (upp ks2 hi) k) : InRange lo hi k := by
  constructor
  · intro l hl
    cases hlast : ks1.getLast? with
    | none => exact h.1 l (by rw [low, hlast]; exact hl)
    | some x =>
      have hx := (hb x (List.mem_append_left _ (List.mem_of_getLast? hlast))).1
      exact le_trans (hx l hl x rfl).le (h.1 x (by rw [low, hlast]; rfl))
  · intro u hu
    cases hhead : ks2.head? with
    | none => exact h.2 u (by rw [upp, hhead]; exact hu)
    | some x =>
      have hx := (hb x (List.mem_append_right _ (List.mem_of_mem_head? hhead))).2
      exact lt_trans (h.2 x (by rw [upp, hhead]; rfl)) (hx x rfl u hu)

end Order

end SepChain
