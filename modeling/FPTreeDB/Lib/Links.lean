import Mathlib

/-!
# Linked lists in a heap

A linked list is a list `l` of cells together with the function `nxt`
that reads the link of a cell. `Linked emb nxt l e` says that every cell of `l`
links to the one after it and the last one to `e`; `emb` turns a cell into a link
to it. A doubly linked list is linked by one link on `l` and by the other on
`l.reverse`.

* `linked_append`, `linked_concat`: cutting a list.
* `Linked.insert_after`, `Linked.insert_before`, `Linked.erase`: relinking one cell.
* `Linked.walk`: following the links visits exactly the cells of `l`.
-/

namespace Links

variable {α β : Type*} {emb : α → β} {nxt nxt' : α → β} {e : β}

/-- A link to the first cell of `l`, or `e` if there is none. -/
def entry (emb : α → β) (l : List α) (e : β) : β := (l.head?.map emb).getD e

/-- Every cell of `l` links to the next one, the last one to `e`. -/
def Linked (emb : α → β) (nxt : α → β) : List α → β → Prop
  | [], _ => True
  | x :: l, e => nxt x = entry emb l e ∧ Linked emb nxt l e

@[simp] theorem entry_nil : entry emb [] e = e := rfl

@[simp] theorem entry_cons {x : α} {l : List α} : entry emb (x :: l) e = emb x := rfl

theorem entry_append {l1 l2 : List α} : entry emb (l1 ++ l2) e = entry emb l1 (entry emb l2 e) := by
  cases l1 <;> rfl

theorem linked_append {l1 l2 : List α} :
    Linked emb nxt (l1 ++ l2) e ↔ Linked emb nxt l1 (entry emb l2 e) ∧ Linked emb nxt l2 e := by
  induction l1 with
  | nil => simp [Linked]
  | cons x l1 ih => rw [List.cons_append, Linked, Linked, ih, entry_append, and_assoc]

theorem linked_concat {l : List α} {x : α} :
    Linked emb nxt (l ++ [x]) e ↔ Linked emb nxt l (emb x) ∧ nxt x = e := by
  rw [linked_append]
  simp [Linked]

/-- The links of the cells of the list are all that matters. -/
theorem Linked.congr {l : List α} (h : Linked emb nxt l e) (hn : ∀ x ∈ l, nxt' x = nxt x) :
    Linked emb nxt' l e := by
  induction l with
  | nil => exact h
  | cons x l ih =>
    exact ⟨by rw [hn x (by simp)]; exact h.1, ih h.2 fun y hy => hn y (by simp [hy])⟩

/-- `y` is put after `x`: `x` links to `y`, and `y` to where `x` linked. -/
theorem Linked.insert_after {l1 l2 : List α} {x y : α} (h : Linked emb nxt (l1 ++ x :: l2) e)
    (hx : nxt' x = emb y) (hy : nxt' y = nxt x) (h1 : ∀ z ∈ l1, nxt' z = nxt z)
    (h2 : ∀ z ∈ l2, nxt' z = nxt z) : Linked emb nxt' (l1 ++ x :: y :: l2) e := by
  rw [linked_append] at h ⊢
  obtain ⟨ha, hb, hc⟩ := h
  exact ⟨ha.congr h1, hx, hy.trans hb, hc.congr h2⟩

/-- `y` is put before `x`: `y` links to `x`, and the cell before `x` to `y`. -/
theorem Linked.insert_before {l1 l2 : List α} {x y : α} (h : Linked emb nxt (l1 ++ x :: l2) e)
    (hy : nxt' y = emb x) (hlast : ∀ z ∈ l1.getLast?, nxt' z = emb y)
    (h1 : ∀ z ∈ l1.dropLast, nxt' z = nxt z) (h2 : ∀ z ∈ x :: l2, nxt' z = nxt z) :
    Linked emb nxt' (l1 ++ y :: x :: l2) e := by
  rw [linked_append] at h ⊢
  obtain ⟨ha, hb⟩ := h
  refine ⟨?_, hy, hb.congr h2⟩
  rcases List.eq_nil_or_concat l1 with rfl | ⟨l, z, rfl⟩
  · trivial
  · rw [List.concat_eq_append] at *
    rw [entry_cons, linked_concat] at ha ⊢
    rw [List.dropLast_concat] at h1
    exact ⟨ha.1.congr h1, hlast z (by simp)⟩

/-- `x` is taken out: the cell before it links to where `x` linked. -/
theorem Linked.erase {l1 l2 : List α} {x : α} (h : Linked emb nxt (l1 ++ x :: l2) e)
    (hlast : ∀ z ∈ l1.getLast?, nxt' z = nxt x) (h1 : ∀ z ∈ l1.dropLast, nxt' z = nxt z)
    (h2 : ∀ z ∈ l2, nxt' z = nxt z) : Linked emb nxt' (l1 ++ l2) e := by
  rw [linked_append] at h ⊢
  obtain ⟨ha, hb, hc⟩ := h
  refine ⟨?_, hc.congr h2⟩
  rcases List.eq_nil_or_concat l1 with rfl | ⟨l, z, rfl⟩
  · trivial
  · rw [List.concat_eq_append] at *
    rw [entry_cons, linked_concat] at ha
    rw [List.dropLast_concat] at h1
    rw [linked_concat]
    exact ⟨ha.1.congr h1, (hlast z (by simp)).trans hb⟩

/-! ## Following the links -/

/-- The cells met from `b` on, at most `fuel` of them; `cell` is the cell a link
    leads to, `none` where the walk stops. -/
def walk (cell : β → Option α) (nxt : α → β) : ℕ → β → List α
  | 0, _ => []
  | fuel + 1, b =>
    match cell b with
    | none => []
    | some x => x :: walk cell nxt fuel (nxt x)

/-- Following the links from the first cell visits the cells of the list, in
    order, and stops. -/
theorem Linked.walk {cell : β → Option α} {l : List α} (h : Linked emb nxt l e)
    (hcell : ∀ x ∈ l, cell (emb x) = some x) (he : cell e = none) :
    ∀ fuel, l.length ≤ fuel → Links.walk cell nxt fuel (entry emb l e) = l := by
  induction l with
  | nil =>
    intro fuel _
    cases fuel with
    | zero => rfl
    | succ fuel => rw [Links.walk, entry_nil, he]
  | cons x l ih =>
    intro fuel hf
    cases fuel with
    | zero => simp at hf
    | succ fuel =>
      rw [Links.walk, entry_cons, hcell x (by simp)]
      simp only [h.1]
      rw [ih h.2 (fun y hy => hcell y (by simp [hy])) fuel (by simpa using hf)]

end Links
