import Mathlib.Data.List.Induction

/-!
# Runs of labelled transition systems

`Run step init labels s` says that `s` is reached from `init` by the steps named in
`labels`.  `Run.invariant` is the induction every safety proof uses: what holds
initially and survives each step holds in every state reached; `Run.refinement`
and `Run.simulation` are the ones that refinements use.  `Guarded` restricts
a transition relation to the steps that meet a condition on the state before the
step, and `execute` runs a transition function along a list of labels, so that a
concrete run can be computed; `outcome` makes such a function of one that can fail.
-/

namespace CS162.Library

variable {σ ℓ : Type*}

/-- `s` is reached from `init` by the steps named in the list. -/
inductive Run (step : σ → ℓ → σ → Prop) (init : σ) : List ℓ → σ → Prop
  | nil : Run step init [] init
  | snoc {labels : List ℓ} {s t : σ} {l : ℓ} :
      Run step init labels s → step s l t → Run step init (labels ++ [l]) t

/-- The steps of a system whose state before the step meets a condition. -/
def Guarded (guard : σ → ℓ → Prop) (step : σ → ℓ → σ → Prop) (s : σ) (l : ℓ) (t : σ) : Prop :=
  guard s l ∧ step s l t

variable {step : σ → ℓ → σ → Prop} {init : σ}

/-- What holds initially and survives every step holds in every state reached. -/
theorem Run.invariant {I : σ → Prop} (hinit : I init) (hstep : ∀ s l t, I s → step s l t → I t)
    {labels : List ℓ} {s : σ} (hrun : Run step init labels s) : I s := by
  induction hrun with
  | nil => exact hinit
  | snoc _ h ih => exact hstep _ _ _ ih h

theorem Run.mono {step' : σ → ℓ → σ → Prop} (h : ∀ s l t, step s l t → step' s l t)
    {labels : List ℓ} {s : σ} (hrun : Run step init labels s) : Run step' init labels s := by
  induction hrun with
  | nil => exact .nil
  | snoc _ hs ih => exact ih.snoc (h _ _ _ hs)

theorem Run.trans {mid : σ} {first second : List ℓ} {s : σ} (hfirst : Run step init first mid)
    (hsecond : Run step mid second s) : Run step init (first ++ second) s := by
  induction hsecond with
  | nil => rwa [List.append_nil]
  | snoc _ hs ih =>
    rw [← List.append_assoc]
    exact ih.snoc hs

/-- Forward simulation: a step whose label stands for one of another system is followed by that
system, and the other steps leave its state alone. -/
theorem Run.refinement {τ ℓ' : Type*} {step' : τ → ℓ' → τ → Prop} {init' : τ} {R : σ → τ → Prop}
    {f : ℓ → Option ℓ'} (hinit : R init init')
    (hstep : ∀ s l s' t l', R s t → step s l s' → f l = some l' → ∃ t', step' t l' t' ∧ R s' t')
    (hsilent : ∀ s l s' t, R s t → step s l s' → f l = none → R s' t) {labels : List ℓ} {s : σ}
    (hrun : Run step init labels s) : ∃ t, Run step' init' (labels.filterMap f) t ∧ R s t := by
  induction hrun with
  | nil => exact ⟨init', .nil, hinit⟩
  | @snoc labels _ _ l _ hs ih =>
    obtain ⟨t, hrun', hR⟩ := ih
    cases hl : f l with
    | none =>
      refine ⟨t, ?_, hsilent _ _ _ _ hR hs hl⟩
      simpa [hl] using hrun'
    | some l' =>
      obtain ⟨t', ht', hR'⟩ := hstep _ _ _ _ _ hR hs hl
      refine ⟨t', ?_, hR'⟩
      simpa [hl] using hrun'.snoc ht'

theorem Run.simulation {τ : Type*} {step' : τ → ℓ → τ → Prop} {init' : τ} {R : σ → τ → Prop}
    (hinit : R init init') (hstep : ∀ s l s' t, R s t → step s l s' → ∃ t', step' t l t' ∧ R s' t')
    {labels : List ℓ} {s : σ} (hrun : Run step init labels s) :
    ∃ t, Run step' init' labels t ∧ R s t := by
  have hsim := hrun.refinement (f := some) hinit
    (fun s l s' t l' hR hs hl => Option.some.inj hl ▸ hstep s l s' t hR hs)
    nofun
  rwa [List.filterMap_some] at hsim

/-- Follows a list of labels, as far as each step is possible. -/
def execute (next : σ → ℓ → Option σ) (s : σ) : List ℓ → Option σ
  | [] => some s
  | l :: rest => (next s l).bind fun t => execute next t rest

theorem execute_append (next : σ → ℓ → Option σ) (s : σ) (first second : List ℓ) :
    execute next s (first ++ second) =
      (execute next s first).bind fun t => execute next t second := by
  induction first generalizing s with
  | nil => rfl
  | cons l rest ih =>
    simp only [List.cons_append, execute]
    cases next s l with
    | none => rfl
    | some t => exact ih t

theorem run_of_execute {next : σ → ℓ → Option σ} {init s : σ} {labels : List ℓ}
    (h : execute next init labels = some s) :
    Run (fun s l t => next s l = some t) init labels s := by
  induction labels using List.reverseRecOn generalizing s with
  | nil =>
    cases h
    exact .nil
  | append_singleton labels l ih =>
    rw [execute_append, Option.bind_eq_some_iff] at h
    obtain ⟨mid, hmid, hlast⟩ := h
    simp only [execute, Option.bind_eq_some_iff, Option.some.injEq] at hlast
    obtain ⟨t, ht, rfl⟩ := hlast
    exact (ih hmid).snoc ht

section

variable {next : σ → ℓ → Option σ} {labels : List ℓ} {P Q : σ → Prop}
  (hnext : ∀ s l t, next s l = some t → step s l t)
include hnext

/-- A run to a state with a property, found by computing it. -/
theorem exists_run_of_execute (h : ∃ s ∈ execute next init labels, P s) :
    ∃ s, Run step init labels s ∧ P s := by
  obtain ⟨s, hexec, hs⟩ := h
  exact ⟨s, (run_of_execute hexec).mono hnext, hs⟩

theorem exists_run_of_imp (P : σ → Prop) (h : ∃ s ∈ execute next init labels, P s)
    (hQ : ∀ s, Run step init labels s → P s → Q s) : ∃ s, Run step init labels s ∧ Q s := by
  obtain ⟨s, hrun, hs⟩ := exists_run_of_execute hnext h
  exact ⟨s, hrun, hQ s hrun hs⟩

/-- The steps that might not meet a condition are left out. -/
theorem guarded_of_ite {guard refuse : σ → ℓ → Prop} [∀ s l, Decidable (refuse s l)]
    (hguard : ∀ s l, ¬ refuse s l → guard s l) (s : σ) (l : ℓ) (t : σ)
    (h : (if refuse s l then none else next s l) = some t) : Guarded guard step s l t := by
  obtain ⟨hnot, h⟩ := Option.ite_none_left_eq_some.mp h
  exact ⟨hguard s l hnot, hnext s l t h⟩

end

/-- The next state of a transition function that can refuse a label or fail. -/
def outcome {ε : Type*} (apply : σ → ℓ → Except ε (Option σ)) (s : σ) (l : ℓ) : Option σ :=
  (apply s l).toOption.join

theorem outcome_eq_some {ε : Type*} {apply : σ → ℓ → Except ε (Option σ)} {s t : σ} {l : ℓ} :
    outcome apply s l = some t ↔ apply s l = .ok (some t) := by
  unfold outcome
  cases apply s l <;> simp [Except.toOption]

end CS162.Library
