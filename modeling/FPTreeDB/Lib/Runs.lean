import Mathlib

/-!
# Runs of a partial step function

`run step ops s` is the state after the operations `ops`, `none` if one of them
fails. An abstract machine has total operations `apply` and says by `pre` which of
them are allowed in a state.

* `run_append`: a run in two parts.
* `run_inv`: an invariant of every step is an invariant of every run.
* `run_inv_of_meets`: the same when the steps keep the invariant only under a condition.
* `run_simulates`: a step-by-step simulation of an abstract machine.
* `run_isSome_iff`: the runs that return, from the steps that do.
* `run_points`: what holds at the points inside the steps of a run.
-/

namespace Runs

variable {Op σ μ : Type*} {step : Op → σ → Option σ} {pre : Op → μ → Prop} {apply : Op → μ → μ}

/-- The state after a sequence of operations, if all of them succeed. -/
def run (step : Op → σ → Option σ) : List Op → σ → Option σ
  | [], s => some s
  | op :: ops, s => (step op s).bind (run step ops)

/-- The abstract state after a sequence of operations. -/
def runSpec (apply : Op → μ → μ) (ops : List Op) (m : μ) : μ := ops.foldl (fun m op => apply op m) m

/-- Every operation is allowed where it is made. -/
def Allowed (pre : Op → μ → Prop) (apply : Op → μ → μ) : List Op → μ → Prop
  | [], _ => True
  | op :: ops, m => pre op m ∧ Allowed pre apply ops (apply op m)

theorem Allowed.mono {pre' : Op → μ → Prop} (hpre : ∀ op m, pre op m → pre' op m) :
    ∀ (ops : List Op) {m : μ}, Allowed pre apply ops m → Allowed pre' apply ops m := by
  intro ops
  induction ops with
  | nil => exact fun _ => trivial
  | cons op ops ih => exact fun h => ⟨hpre op _ h.1, ih h.2⟩

theorem Allowed.append {ops : List Op} (ops' : List Op) {m : μ} (h : Allowed pre apply ops m)
    (h' : Allowed pre apply ops' (runSpec apply ops m)) : Allowed pre apply (ops ++ ops') m := by
  induction ops generalizing m with
  | nil => exact h'
  | cons op ops ih => exact ⟨h.1, ih h.2 h'⟩

theorem run_append (ops ops' : List Op) (s : σ) :
    run step (ops ++ ops') s = (run step ops s).bind (run step ops') := by
  induction ops generalizing s with
  | nil => rfl
  | cons op ops ih =>
    rw [List.cons_append, run, run, Option.bind_assoc]
    congr 1
    funext s'
    exact ih s'

theorem run_inv {I : σ → Prop} (hstep : ∀ op s s', I s → step op s = some s' → I s') :
    ∀ (ops : List Op) {s s' : σ}, I s → run step ops s = some s' → I s' := by
  intro ops
  induction ops with
  | nil =>
    intro s s' hs h
    obtain rfl := Option.some.inj h
    exact hs
  | cons op ops ih =>
    intro s s' hs h
    obtain ⟨s1, h1, h2⟩ := Option.bind_eq_some_iff.mp h
    exact ih (hstep op s s1 hs h1) h2

/-- Every step of a run meets the condition in the state in which it is made. -/
def Meets (step : Op → σ → Option σ) (cond : Op → σ → Prop) : List Op → σ → Prop
  | [], _ => True
  | op :: ops, s => cond op s ∧ ∀ s', step op s = some s' → Meets step cond ops s'

theorem run_inv_of_meets {I : σ → Prop} {cond : Op → σ → Prop}
    (hstep : ∀ op s s', I s → cond op s → step op s = some s' → I s') :
    ∀ (ops : List Op) {s s' : σ}, I s → Meets step cond ops s → run step ops s =
      some s' → I s' := by
  intro ops
  induction ops with
  | nil =>
    intro s s' hs _ h
    obtain rfl := Option.some.inj h
    exact hs
  | cons op ops ih =>
    rintro s s' hs ⟨hop, hops⟩ h
    obtain ⟨s1, h1, h2⟩ := Option.bind_eq_some_iff.mp h
    exact ih (hstep op s s1 hs hop h1) (hops s1 h1) h2

/-- A simulation in which every allowed operation succeeds. -/
theorem run_simulates {R : σ → μ → Prop}
    (hstep : ∀ op s m, R s m → pre op m → ∃ s', step op s = some s' ∧ R s' (apply op m)) :
    ∀ (ops : List Op) {s : σ} {m : μ}, R s m → Allowed pre apply ops m →
      ∃ s', run step ops s = some s' ∧ R s' (runSpec apply ops m) := by
  intro ops
  induction ops with
  | nil => exact fun hR _ => ⟨_, rfl, hR⟩
  | cons op ops ih =>
    rintro s m hR ⟨hop, hops⟩
    obtain ⟨s1, h1, hR1⟩ := hstep op s m hR hop
    obtain ⟨s2, h2, hR2⟩ := ih hR1 hops
    exact ⟨s2, by rw [run, h1]; exact h2, hR2⟩

/-- A simulation of the operations that succeed. -/
theorem run_simulates_of_some {R : σ → μ → Prop}
    (hstep : ∀ op s s' m, R s m → pre op m → step op s = some s' → R s' (apply op m)) :
    ∀ (ops : List Op) {s s' : σ} {m : μ}, R s m → Allowed pre apply ops m →
      run step ops s = some s' → R s' (runSpec apply ops m) := by
  intro ops
  induction ops with
  | nil =>
    intro s s' m hR _ h
    obtain rfl := Option.some.inj h
    exact hR
  | cons op ops ih =>
    rintro s s' m hR ⟨hop, hops⟩ h
    obtain ⟨s1, h1, h2⟩ := Option.bind_eq_some_iff.mp h
    exact ih (hstep op s s1 m hR hop h1) hops h2

/-- When the condition says of every step whether it returns, it says so of every run. -/
theorem run_isSome_iff {R : σ → μ → Prop} {cond : Op → σ → Prop}
    (hcond : ∀ op s m, R s m → pre op m → ((step op s).isSome = true ↔ cond op s))
    (hstep : ∀ op s s' m, R s m → pre op m → step op s = some s' → R s' (apply op m)) :
    ∀ (ops : List Op) {s : σ} {m : μ}, R s m → Allowed pre apply ops m →
      ((run step ops s).isSome = true ↔ Meets step cond ops s) := by
  intro ops
  induction ops with
  | nil => intro s m _ _; exact iff_of_true rfl trivial
  | cons op ops ih =>
    intro s m hR hall
    show ((step op s).bind (run step ops)).isSome = true ↔
      cond op s ∧ ∀ s', step op s = some s' → Meets step cond ops s'
    rw [← hcond op s m hR hall.1]
    cases hs : step op s with
    | none => simp
    | some s1 =>
      have hrest := ih (hstep op s s1 m hR hall.1 hs) hall.2
      simpa using hrest

/-- Runs whose steps leave points in a trace, each point good for the abstract state before
    the step or for the one after it: every prefix of the run returns, related to the
    abstract state after as many steps, and the points of the next step are those that the
    step adds to the trace. -/
theorem run_points {τ : Type*} {R : σ → μ → Prop} {trace : σ → List τ} {good : μ → τ → Prop}
    {cond : Op → σ → Prop}
    (hstep : ∀ op s m, R s m → cond op s → ∃ s' pts, step op s = some s' ∧ R s' (apply op m) ∧
      trace s' = trace s ++ pts ∧ ∀ D ∈ pts, good m D ∨ good (apply op m) D) :
    ∀ (ops : List Op) {s : σ} {m : μ}, R s m → Meets step cond ops s →
      ∀ i, ∃ sᵢ, run step (ops.take i) s = some sᵢ ∧ R sᵢ (runSpec apply (ops.take i) m) ∧
        ∀ op ∈ ops[i]?, ∃ s' pts, step op sᵢ = some s' ∧ trace s' = trace sᵢ ++ pts ∧ ∀ D ∈ pts,
          good (runSpec apply (ops.take i) m) D ∨ good (runSpec apply (ops.take (i + 1)) m) D := by
  intro ops
  induction ops with
  | nil =>
    intro s m hR _ i
    rw [List.take_nil]
    exact ⟨s, rfl, hR, fun op hop => by simp at hop⟩
  | cons op ops ih =>
    rintro s m hR ⟨hop, hops⟩ i
    obtain ⟨s1, pts, h1, hR1, htrace1, hgood1⟩ := hstep op s m hR hop
    cases i with
    | zero =>
      refine ⟨s, rfl, hR, fun op' hop' => ?_⟩
      obtain rfl := Option.some.inj hop'
      exact ⟨s1, pts, h1, htrace1, hgood1⟩
    | succ i =>
      obtain ⟨s2, h2, hR2, hnext⟩ := ih hR1 (hops s1 h1) i
      exact ⟨s2, by rw [List.take_succ_cons, run, h1]; exact h2, hR2, hnext⟩

end Runs
