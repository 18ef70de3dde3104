import CS162.Library.Run

/-!
# Atomic objects

A sequential object says what an operation does to a state and what it returns; an operation that
has to wait is not possible.  The atomic object of several threads lets each call take effect at
one moment between its start and its return (`AtomicStep`).  An implementation is linearizable when
each of its runs is a run of the atomic object, if only the calls, the moments at which they take
effect and the returns are looked at.

`effects` are the operations in the order in which they took effect: they are a run of the
sequential object (`Run.effects`), and what the calls of one thread returned are the results of its
effects (`Run.results`).
-/

namespace CS162.Library

open Function

variable {ι σ op res : Type*}

/-- A sequential object. -/
structure SeqObject (σ op res : Type*) where
  init : σ
  apply : σ → op → Option (σ × res)

/-- What a thread is doing with an object. -/
inductive CallStatus (op res : Type*) where
  | idle
  | called (o : op)
  | done (r : res)

/-- The object, and what each thread is doing with it. -/
structure Atomic (ι σ op res : Type*) where
  obj : σ
  status : ι → CallStatus op res

/-- A call, its effect, or its return. -/
inductive AtomicLabel (ι op res : Type*) where
  | call (t : ι) (o : op)
  | effect (t : ι) (o : op) (r : res)
  | ret (t : ι) (r : res)

variable [DecidableEq ι]

/-- Nobody has called an operation yet. -/
def Atomic.start (O : SeqObject σ op res) : Atomic ι σ op res := ⟨O.init, fun _ => .idle⟩

/-- Each call takes effect at one moment. -/
def AtomicStep (O : SeqObject σ op res) (a : Atomic ι σ op res) :
    AtomicLabel ι op res → Atomic ι σ op res → Prop
  | .call t o, a' => a.status t = .idle ∧ a' = ⟨a.obj, update a.status t (.called o)⟩
  | .effect t o r, a' => a.status t = .called o ∧ ∃ obj, O.apply a.obj o = some (obj, r) ∧
      a' = ⟨obj, update a.status t (.done r)⟩
  | .ret t r, a' => a.status t = .done r ∧ a' = ⟨a.obj, update a.status t .idle⟩

/-- One operation after the other. -/
def SeqStep (O : SeqObject σ op res) (s : σ) (l : op × res) (s' : σ) : Prop :=
  O.apply s l.1 = some (s', l.2)

namespace AtomicLabel

/-- The operation that takes effect, and what it returns. -/
def operation : AtomicLabel ι op res → Option (op × res)
  | effect _ o r => some (o, r)
  | _ => none

/-- The result of an operation of `t` that takes effect. -/
def resultOf (t : ι) : AtomicLabel ι op res → Option res
  | effect u _ r => if u = t then some r else none
  | _ => none

/-- What a call of `t` returns. -/
def returnOf (t : ι) : AtomicLabel ι op res → Option res
  | ret u r => if u = t then some r else none
  | _ => none

end AtomicLabel

open AtomicLabel (resultOf returnOf)

/-- The result that a call has not returned yet. -/
def CallStatus.result : CallStatus op res → List res
  | done r => [r]
  | _ => []

variable {O : SeqObject σ op res} {a : Atomic ι σ op res} {labels : List (AtomicLabel ι op res)}

theorem Run.effects (hrun : Run (AtomicStep O) (Atomic.start O) labels a) :
    Run (SeqStep O) O.init (labels.filterMap AtomicLabel.operation) a.obj := by
  suffices hsim : ∃ s, Run (SeqStep O) O.init (labels.filterMap AtomicLabel.operation) s ∧
      a.obj = s by
    obtain ⟨s, hseq, rfl⟩ := hsim
    exact hseq
  refine hrun.refinement (R := fun a s => a.obj = s) rfl ?_ ?_
  · rintro a l a' s l' rfl hstep hl
    cases l with
    | call t o => cases hl
    | effect t o r =>
      cases hl
      obtain ⟨-, obj, happly, rfl⟩ := hstep
      exact ⟨obj, happly, rfl⟩
    | ret t r => cases hl
  · rintro a l a' s rfl hstep hl
    cases l with
    | call t o => rw [hstep.2]
    | effect t o r => cases hl
    | ret t r => rw [hstep.2]

/-- A step produces a result of `t` exactly if it leaves one more to be returned. -/
theorem AtomicStep.result {a' : Atomic ι σ op res} {l : AtomicLabel ι op res}
    (h : AtomicStep O a l a') (t : ι) :
    (a.status t).result ++ (l.resultOf t).toList =
      (l.returnOf t).toList ++ (a'.status t).result := by
  cases l with
  | call u o =>
    obtain ⟨hidle, rfl⟩ := h
    by_cases hu : t = u
    · subst hu
      simp [resultOf, returnOf, hidle, CallStatus.result]
    · simp [resultOf, returnOf, update_of_ne hu]
  | effect u o r =>
    obtain ⟨hcalled, obj, -, rfl⟩ := h
    by_cases hu : t = u
    · subst hu
      simp [resultOf, returnOf, hcalled, CallStatus.result]
    · simp [resultOf, returnOf, update_of_ne hu, Ne.symm hu]
  | ret u r =>
    obtain ⟨hdone, rfl⟩ := h
    by_cases hu : t = u
    · subst hu
      simp [resultOf, returnOf, hdone, CallStatus.result]
    · simp [resultOf, returnOf, update_of_ne hu, Ne.symm hu]

/-- The calls of a thread return the results of its effects, in their order. -/
theorem Run.results (hrun : Run (AtomicStep O) (Atomic.start O) labels a) (t : ι) :
    labels.filterMap (resultOf t) =
      labels.filterMap (returnOf t) ++ (a.status t).result := by
  induction hrun with
  | nil => rfl
  | @snoc labels b b' l _ hstep ih =>
    have hone (f : AtomicLabel ι op res → Option res) : [l].filterMap f = (f l).toList := by
      cases hl : f l <;> simp [hl]
    simp only [List.filterMap_append, hone, ih, List.append_assoc, hstep.result t]

end CS162.Library
