import Mathlib

/-!
# Level order

A forest is walked with a queue of the nodes still to visit, each with its level; a new
line is started before the first node of a level (`walk`). The nodes are visited level by
level, each level from left to right.

* `Levels`: the levels below a nonempty list of nodes.
* `walk_eq_levels`: the walk visits them in order, one line for each.
* `walk_eq_none`: it takes one turn for each node, and one more to find the queue empty.
-/

namespace LevelOrder

variable {α ω : Type}

/-- The queue loop, at most `fuel` tests of the queue. A visit may fail, and returns what
    it prints with the children. -/
def walk (visit : α → Option (List ω × List α)) (newline : ω) :
    ℕ → List (α × ℕ) → ℕ → Option (List ω)
  | 0, _, _ => none
  | _ + 1, [], _ => some []
  | fuel + 1, (cur, level) :: q, maxLevel => do
    let line := if level > maxLevel then [newline] else []
    let maxLevel := if level > maxLevel then maxLevel + 1 else maxLevel
    let (out, children) ← visit cur
    let rest ← walk visit newline fuel (q ++ children.map fun c => (c, level + 1)) maxLevel
    some (line ++ out ++ rest)

/-- `ls` are the levels from `xs` down to nodes without children. -/
inductive Levels (children : α → List α) : List α → List (List α) → Prop
  | last {xs : List α} (hne : xs ≠ []) (hlast : xs.flatMap children = []) : Levels children xs [xs]
  | next {xs : List α} {ls : List (List α)} (hne : xs ≠ [])
    (hnext : Levels children (xs.flatMap children) ls) :
    Levels children xs (xs :: ls)

variable {children : α → List α} {visit : α → Option (List ω × List α)}
  {out : α → List ω} {newline : ω} {xs ys : List α} {ls : List (List α)} {level fuel : ℕ}

theorem Levels.levels_ne_nil (h : Levels children xs ls) : ls ≠ [] := by
  cases h <;> simp

theorem Levels.ne_nil (h : Levels children xs ls) : xs ≠ [] := by
  cases h with
  | last hne _ => exact hne
  | next hne _ => exact hne

/-- The rest of a level: what it prints, and its children behind those already queued. -/
theorem walk_level (newline : ω) (fuel level : ℕ) (ys : List α)
    (hvisit : ∀ x ∈ xs, visit x = some (out x, children x)) :
    walk visit newline (fuel + xs.length)
      (xs.map (fun x => (x, level)) ++ ys.map fun y => (y, level + 1)) level =
    (walk visit newline fuel ((ys ++ xs.flatMap children).map fun y => (y, level + 1)) level).map
      (xs.flatMap out ++ ·) := by
  induction xs generalizing ys with
  | nil => simp
  | cons x xs ih =>
    have hrest := ih (ys ++ children x) fun y hy => hvisit y (List.mem_cons_of_mem x hy)
    have hqueue : xs.map (fun x => (x, level)) ++ ys.map (fun y => (y, level + 1)) ++
        (children x).map (fun c => (c, level + 1)) =
        xs.map (fun x => (x, level)) ++ (ys ++ children x).map fun y => (y, level + 1) := by
      rw [List.append_assoc, ← List.map_append]
    have hnext : ys ++ (x :: xs).flatMap children = ys ++ children x ++ xs.flatMap children := by
      rw [List.flatMap_cons, List.append_assoc]
    rw [hnext, List.length_cons, ← Nat.add_assoc, List.map_cons, List.cons_append, walk]
    simp only [gt_iff_lt, Nat.lt_irrefl, if_false, hvisit x List.mem_cons_self, Option.bind_eq_bind,
      Option.bind_some, hqueue, hrest]
    cases walk visit newline fuel
      ((ys ++ children x ++ xs.flatMap children).map fun y => (y, level + 1)) level with
    | none => rfl
    | some rest => simp [List.append_assoc]

/-- The first node of a level that has not been entered starts a line. -/
theorem walk_enter (hne : xs ≠ []) :
    walk visit newline fuel (xs.map fun x => (x, level + 1)) level =
      (walk visit newline fuel (xs.map fun x => (x, level + 1)) (level + 1)).map
      (newline :: ·) := by
  obtain ⟨x, xs, rfl⟩ := List.exists_cons_of_ne_nil hne
  cases fuel with
  | zero => rfl
  | succ fuel =>
    rw [List.map_cons, walk, walk]
    simp only [gt_iff_lt, Nat.lt_succ_self, if_true, Nat.lt_irrefl, if_false]
    cases visit x with
    | none => rfl
    | some o =>
      cases walk visit newline fuel
        (xs.map (fun x => (x, level + 1)) ++ o.2.map fun c => (c, level + 1 + 1))
        (level + 1) <;> simp

/-- One line for each level, from left to right. -/
theorem walk_eq_levels (h : Levels children xs ls)
    (hvisit : ∀ l ∈ ls, ∀ x ∈ l, visit x = some (out x, children x))
    (hfuel : ls.flatten.length < fuel) :
    walk visit newline fuel (xs.map fun x => (x, level)) level =
      some ([newline].intercalate (ls.map fun l => l.flatMap out)) := by
  induction h generalizing level fuel with
  | @last xs hne hlast =>
    obtain ⟨f, rfl⟩ : ∃ f, fuel = f + 1 + xs.length :=
      ⟨fuel - 1 - xs.length, by simp at hfuel; omega⟩
    have hwalk := walk_level newline (f + 1) level []
      (hvisit xs List.mem_cons_self)
    rw [List.map_nil, List.append_nil, List.nil_append, hlast] at hwalk
    rw [hwalk]
    simp [walk]
  | @next xs ls hne hnext ih =>
    obtain ⟨f, rfl⟩ : ∃ f, fuel = f + xs.length := ⟨fuel - xs.length, by
      rw [List.flatten_cons, List.length_append] at hfuel; omega⟩
    have hwalk := walk_level newline f level []
      (hvisit xs List.mem_cons_self)
    have hbelow := @ih (level + 1) f (fun l hl => hvisit l (List.mem_cons_of_mem xs hl))
      (by rw [List.flatten_cons, List.length_append] at hfuel; omega)
    rw [List.map_nil, List.append_nil, List.nil_append, walk_enter hnext.ne_nil, hbelow] at hwalk
    rw [hwalk, List.map_cons, List.intercalate_cons_of_ne_nil (by simpa using hnext.levels_ne_nil)]
    simp

theorem walk_eq_none_level (newline : ω) (fuel level : ℕ) (q : List (α × ℕ))
    (hvisit : ∀ x ∈ xs, visit x = some (out x, children x)) (hfuel : fuel ≤ xs.length) :
    walk visit newline fuel (xs.map (fun x => (x, level)) ++ q) level = none := by
  induction xs generalizing fuel q with
  | nil =>
    obtain rfl : fuel = 0 := by simpa using hfuel
    rfl
  | cons x xs ih =>
    cases fuel with
    | zero => rfl
    | succ fuel =>
      have hrest := ih fuel (q ++ (children x).map fun c => (c, level + 1))
        (fun y hy => hvisit y (List.mem_cons_of_mem x hy)) (by simpa using hfuel)
      rw [List.map_cons, List.cons_append, walk]
      simp only [gt_iff_lt, Nat.lt_irrefl, if_false, hvisit x List.mem_cons_self,
        Option.bind_eq_bind, Option.bind_some, List.append_assoc, hrest, Option.bind_none]

/-- The walk takes a turn for each node. -/
theorem walk_eq_none (h : Levels children xs ls)
    (hvisit : ∀ l ∈ ls, ∀ x ∈ l, visit x = some (out x, children x))
    (hfuel : fuel ≤ ls.flatten.length) :
    walk visit newline fuel (xs.map fun x => (x, level)) level = none := by
  induction h generalizing level fuel with
  | @last xs hne hlast =>
    have hnone := walk_eq_none_level newline fuel level []
      (hvisit xs List.mem_cons_self) (by simpa using hfuel)
    rwa [List.append_nil] at hnone
  | @next xs ls hne hnext ih =>
    rcases Nat.lt_or_ge fuel xs.length with hlt | hge
    · have hnone := walk_eq_none_level newline fuel level []
        (hvisit xs List.mem_cons_self) hlt.le
      rwa [List.append_nil] at hnone
    · obtain ⟨f, rfl⟩ : ∃ f, fuel = f + xs.length := ⟨fuel - xs.length, by omega⟩
      have hwalk := walk_level newline f level []
        (hvisit xs List.mem_cons_self)
      have hbelow := @ih (level + 1) f (fun l hl => hvisit l (List.mem_cons_of_mem xs hl))
        (by rw [List.flatten_cons, List.length_append] at hfuel; omega)
      rw [List.map_nil, List.append_nil, List.nil_append, walk_enter hnext.ne_nil, hbelow] at hwalk
      exact hwalk

end LevelOrder
