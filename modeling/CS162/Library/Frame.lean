import CS162.Library.Outcome

/-!
# Programs that leave a part of the state alone

`Leaves E view m` says that whatever `m` does, the part of the state that `view` shows is the
same afterwards, and that `m` stops only with faults in `E`.  The rules follow the shape of a
`do` block; `Leaves.andThen` uses such a program as a step of a longer one.
-/

namespace CS162.Library

variable {σ ε α β γ : Type} {E : ε → Prop} {view : σ → γ} {m : StateT σ (Except ε) α}

/-- `m` leaves what `view` shows. -/
def Leaves (E : ε → Prop) (view : σ → γ) (m : StateT σ (Except ε) α) : Prop :=
  ∀ s, Spec E m s fun _ t => view t = view s

namespace Leaves

theorem pure (a : α) : Leaves E view (Pure.pure a : StateT σ (Except ε) α) := fun _ => rfl

theorem throw {e : ε} (he : E e) :
    Leaves E view (MonadExcept.throw e : StateT σ (Except ε) α) := fun _ => he

theorem get : Leaves E view (MonadState.get : StateT σ (Except ε) σ) := fun _ => rfl

theorem modify {f : σ → σ} (hf : ∀ s, view (f s) = view s) :
    Leaves E view (modify f : StateT σ (Except ε) PUnit) := hf

theorem bind {f : α → StateT σ (Except ε) β} (hm : Leaves E view m)
    (hf : ∀ a, Leaves E view (f a)) : Leaves E view (m >>= f) := fun s =>
  Spec.bind ((hm s).post fun a t ht => (hf a t).post fun _ _ hu => hu.trans ht)

theorem ite {c : Prop} [Decidable c] {m' : StateT σ (Except ε) α} (hm : Leaves E view m)
    (hm' : Leaves E view m') : Leaves E view (if c then m else m') := by
  split
  · exact hm
  · exact hm'

theorem zoom {τ δ : Type} {part : σ → τ} {put : σ → τ → σ} {fault : δ → ε}
    (hput : ∀ s t, view (put s t) = view s) (hE : ∀ e, E (fault e)) (m : StateT τ (Except δ) α) :
    Leaves E view (zoom part put fault m) := fun s =>
  Spec.zoom (Spec.intro (fun _ t _ => hput s t) fun e _ => hE e)

theorem andThen {f : α → StateT σ (Except ε) β} {s : σ} {Q : β → σ → Prop} (hm : Leaves E view m)
    (hf : ∀ a t, view t = view s → Spec E (f a) t Q) : Spec E (m >>= f) s Q :=
  Spec.bind ((hm s).post hf)

end Leaves

end CS162.Library
