import Mathlib

/-!
# Counting by changing a part

The states with a property are counted by changing one part of a state, such as one or two
values of a function, and counting the changes that lead to the property.

* `Part.count_mul_le`: at most `c` values of the part for each state are at most the share
  `c / card ν` of the states.
* `count_le_of_determines`, `count_le_mul`: the bounds for the values of the part.
-/

namespace Counting

open Finset

section Count

variable {α : Type*} [Fintype α] {P Q : α → Prop}

open Classical in
/-- The number of states with a property. -/
noncomputable def count (P : α → Prop) : ℕ := #{a | P a}

theorem count_mono (h : ∀ a, P a → Q a) : count P ≤ count Q := by
  classical
  exact card_le_card (monotone_filter_right univ fun a _ => h a)

theorem count_le_card (P : α → Prop) : count P ≤ Fintype.card α := by
  classical
  exact card_le_univ _

theorem count_le_add {R : α → Prop} (h : ∀ a, R a → P a ∨ Q a) : count R ≤ count P + count Q := by
  classical
  refine (card_le_card fun a ha => ?_).trans (card_union_le (univ.filter P) (univ.filter Q))
  rw [mem_filter_univ] at ha
  rw [mem_union, mem_filter_univ, mem_filter_univ]
  exact h a ha

theorem count_le_one (h : ∀ a b, P a → P b → a = b) : count P ≤ 1 := by
  classical
  refine card_le_one.mpr fun a ha b hb => ?_
  rw [mem_filter_univ] at ha hb
  exact h a b ha hb

/-- States that are determined by a value. -/
theorem count_le_of_determines {β : Type*} [Fintype β] (f : α → β)
    (h : ∀ a b, P a → P b → f a = f b → a = b) :
    count P ≤ Fintype.card β := by
  classical
  rw [← card_univ]
  refine card_le_card_of_injOn f (fun a _ => mem_univ _) fun a ha b hb heq => ?_
  rw [mem_coe, mem_filter_univ] at ha hb
  exact h a b ha hb heq

/-- States whose value is one of `t`, with at most `n` states for each value. -/
theorem count_le_mul {β : Type*} {t : Finset β} {n : ℕ} (f : α → β) (h : ∀ a, P a → f a ∈ t)
    (hn : ∀ b, (count fun a => f a = b) ≤ n) : count P ≤ n * #t := by
  classical
  refine card_le_mul_card_image_of_maps_to (fun a ha => h a ((mem_filter_univ a).mp ha))
    n fun b _ => ?_
  refine le_trans (card_le_card fun a ha => ?_) (hn b)
  rw [mem_filter] at ha
  exact (mem_filter_univ a).mpr ha.2

end Count

/-- A part of a state that can be read and set. -/
structure Part (α ν : Type*) where
  get : α → ν
  set : α → ν → α
  get_set : ∀ a v, get (set a v) = v
  set_get : ∀ a, set a (get a) = a
  set_set : ∀ a v w, set (set a v) w = set a w

namespace Part

section Function

variable {ι ν : Type*} [DecidableEq ι]

/-- One value of a function. -/
def single (i : ι) : Part (ι → ν) ν where
  get a := a i
  set a v := Function.update a i v
  get_set a v := Function.update_self i v a
  set_get a := Function.update_eq_self i a
  set_set a v w := Function.update_idem v w a

/-- Two values of a function. -/
def pair (i j : ι) (h : i ≠ j) : Part (ι → ν) (ν × ν) where
  get a := (a i, a j)
  set a v := Function.update (Function.update a i v.1) j v.2
  get_set a v := by simp [Function.update_of_ne h]
  set_get a := by simp
  set_set a v w := by
    funext k
    by_cases hj : k = j
    · rw [hj, Function.update_self, Function.update_self]
    · by_cases hi : k = i
      · simp [hi, h]
      · simp [hi, hj]

end Function

variable {α ν : Type*} [Fintype α] [Fintype ν] {P Q : α → Prop}

/-- Of the states with `Q`, which does not depend on the part, those with `P` are at most
    the share `c / card ν`. -/
theorem count_mul_le (p : Part α ν) (hPQ : ∀ a, P a → Q a) (hQ : ∀ a v, Q a → Q (p.set a v)) {c : ℕ}
    (hc : ∀ a, Q a → (count fun v => P (p.set a v)) ≤ c) :
    count P * Fintype.card ν ≤ c * count Q := by
  classical
  let S : Finset α := univ.filter P
  let T : Finset ((_ : α) × ν) := (univ.filter Q).sigma fun a => univ.filter fun v => P (p.set a v)
  -- a state with `P` and a value become the state with the value and what the value replaced
  let f : α × ν → (_ : α) × ν := fun x => ⟨p.set x.1 x.2, p.get x.1⟩
  have hinj : Set.InjOn f (S ×ˢ (univ : Finset ν) : Finset (α × ν)) := by
    rintro ⟨a, v⟩ - ⟨b, w⟩ - h
    have hset : p.set a v = p.set b w := congrArg Sigma.fst h
    have hget : p.get a = p.get b := congrArg Sigma.snd h
    have hv : v = w := by rw [← p.get_set a v, hset, p.get_set]
    have ha : a = b := by rw [← p.set_get a, ← p.set_set a v, hset, p.set_set, hget, p.set_get]
    rw [ha, hv]
  have hmaps : ∀ x ∈ (S ×ˢ (univ : Finset ν)), f x ∈ T := by
    rintro ⟨a, v⟩ h
    have ha : P a := (mem_filter_univ a).mp (mem_product.mp h).1
    refine mem_sigma.mpr ⟨(mem_filter_univ _).mpr (hQ a v (hPQ a ha)), (mem_filter_univ _).mpr ?_⟩
    show P (p.set (p.set a v) (p.get a))
    rwa [p.set_set, p.set_get]
  calc count P * Fintype.card ν = #(S ×ˢ (univ : Finset ν)) := by
        rw [card_product, card_univ]
        rfl
    _ ≤ #T := card_le_card_of_injOn f hmaps hinj
    _ = ∑ a ∈ univ.filter Q, count fun v => P (p.set a v) := card_sigma _ _
    _ ≤ ∑ _a ∈ univ.filter Q, c := sum_le_sum fun a ha => hc a ((mem_filter_univ a).mp ha)
    _ = c * count Q := by
        rw [sum_const, smul_eq_mul, mul_comm]
        rfl

theorem count_mul_le_card (p : Part α ν) {c : ℕ} (hc : ∀ a, (count fun v => P (p.set a v)) ≤ c) :
    count P * Fintype.card ν ≤ c * Fintype.card α := by
  have h := p.count_mul_le (fun a (_ : P a) => trivial) (fun _ _ => id) fun a _ => hc a
  exact h.trans (Nat.mul_le_mul_left c (count_le_card _))

/-- A property for which the rest of the state determines the part. -/
theorem count_mul_le_of_unique (p : Part α ν) (h : ∀ a v w, P (p.set a v) → P (p.set a w) → v = w) :
    count P * Fintype.card ν ≤ Fintype.card α := by
  have hcard := p.count_mul_le_card fun a => count_le_one (h a)
  rwa [one_mul] at hcard

end Part

end Counting
