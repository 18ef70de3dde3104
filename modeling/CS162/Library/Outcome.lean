import Mathlib.Logic.Function.Basic
import Mathlib.Data.Nat.Notation

/-!
# Specifications of stateful programs that can fail

A program is a `StateT σ (Except ε) α`: it reads and updates a state `σ` and
either returns a value or stops with a fault `ε`.  `Spec E m s Q` says what one
run of `m` from `s` can do: if it returns, value and final state satisfy `Q`,
and if it stops, the fault satisfies `E`.  The two uses are

* `Returns m s Q`, where no fault is allowed (total correctness), and
* `Ensures m s Q`, where every fault is allowed (partial correctness).

The rules below follow the shape of a `do` block: `Spec.bind` for a sequence,
`Spec.ite` for a branch, `Spec.imp` to weaken what a callee's specification
promises.
-/

namespace CS162.Library

variable {σ ε α β : Type}

/-- What a run of `m` from `s` can do: return with `Q`, or stop with `E`. -/
def Spec (E : ε → Prop) (m : StateT σ (Except ε) α) (s : σ) (Q : α → σ → Prop) : Prop :=
  match m.run s with
  | .ok (a, t) => Q a t
  | .error e => E e

/-- `m` returns when started in `s`, and its result satisfies `Q`. -/
abbrev Returns (m : StateT σ (Except ε) α) (s : σ) (Q : α → σ → Prop) : Prop :=
  Spec (fun _ => False) m s Q

/-- If `m` returns when started in `s`, its result satisfies `Q`. -/
abbrev Ensures (m : StateT σ (Except ε) α) (s : σ) (Q : α → σ → Prop) : Prop :=
  Spec (fun _ => True) m s Q

variable {E F : ε → Prop} {m : StateT σ (Except ε) α} {s : σ} {Q R : α → σ → Prop}

theorem returns_iff : Returns m s Q ↔ ∃ a t, m.run s = .ok (a, t) ∧ Q a t := by
  unfold Returns Spec
  cases h : m.run s with
  | error e => simp
  | ok r =>
    obtain ⟨a, t⟩ := r
    simp only [Except.ok.injEq, Prod.mk.injEq]
    exact ⟨fun hq => ⟨a, t, ⟨rfl, rfl⟩, hq⟩, fun ⟨_, _, ⟨ha, ht⟩, hq⟩ => ha ▸ ht ▸ hq⟩

theorem ensures_iff : Ensures m s Q ↔ ∀ a t, m.run s = .ok (a, t) → Q a t := by
  unfold Ensures Spec
  cases h : m.run s with
  | error e => simp
  | ok r =>
    obtain ⟨a, t⟩ := r
    simp only [Except.ok.injEq, Prod.mk.injEq, and_imp]
    exact ⟨fun hq b u hb hu => hb ▸ hu ▸ hq, fun hq => hq a t rfl rfl⟩

/-! ## Weakening and combining -/

theorem Spec.imp (h : Spec E m s Q) (hQ : ∀ a t, Q a t → R a t) (hE : ∀ e, E e → F e) :
    Spec F m s R := by
  unfold Spec at h ⊢
  cases hm : m.run s with
  | error e => rw [hm] at h; exact hE e h
  | ok r => rw [hm] at h; exact hQ r.1 r.2 h

theorem Spec.post (h : Spec E m s Q) (hQ : ∀ a t, Q a t → R a t) : Spec E m s R :=
  h.imp hQ fun _ he => he

/-- A program that returns does so under any fault condition. -/
theorem Spec.of_returns (h : Returns m s Q) : Spec E m s Q :=
  h.imp (fun _ _ hq => hq) fun _ he => he.elim

theorem Spec.and (hQ : Spec E m s Q) (hR : Spec F m s R) :
    Spec (fun e => E e ∧ F e) m s fun a t => Q a t ∧ R a t := by
  unfold Spec at hQ hR ⊢
  cases hm : m.run s with
  | error e | ok r => rw [hm] at hQ hR; exact ⟨hQ, hR⟩

theorem Spec.of_run_eq (h : Spec E m s Q) {a : α} {t : σ} (hrun : m.run s = .ok (a, t)) :
    Q a t := by
  unfold Spec at h
  rwa [hrun] at h

theorem Spec.intro (hok : ∀ a t, m.run s = .ok (a, t) → Q a t)
    (herr : ∀ e, m.run s = .error e → E e) : Spec E m s Q := by
  unfold Spec
  cases hm : m.run s with
  | error e => exact herr e hm
  | ok r => exact hok r.1 r.2 hm

theorem Returns.iff_of_eq {a : α} {R : σ → Prop} (h : Returns m s fun r t => r = a ∧ R t)
    (P : α → Prop) : (Returns m s fun r _ => P r) ↔ P a := by
  constructor
  · intro hP
    obtain ⟨r, t, hrun, rfl, -⟩ := returns_iff.mp h
    exact hP.of_run_eq hrun
  · intro ha
    exact h.post fun r t hr => hr.1 ▸ ha

/-! ## One rule per construct -/

theorem Spec.pure {a : α} (h : Q a s) : Spec E (Pure.pure a : StateT σ (Except ε) α) s Q := h

theorem Spec.throw {e : ε} (h : E e) : Spec E (MonadExcept.throw e : StateT σ (Except ε) α) s Q := h

theorem Spec.bind {f : α → StateT σ (Except ε) β} {Q : β → σ → Prop}
    (h : Spec E m s fun a t => Spec E (f a) t Q) : Spec E (m >>= f) s Q := by
  unfold Spec at h ⊢
  rw [StateT.run_bind]
  cases hm : m.run s with
  | error e | ok r => rw [hm] at h; exact h

theorem Spec.get {Q : σ → σ → Prop} (h : Q s s) :
    Spec E (MonadState.get : StateT σ (Except ε) σ) s Q := h

theorem Spec.set {t : σ} {Q : PUnit → σ → Prop} (h : Q ⟨⟩ t) :
    Spec E (MonadStateOf.set t : StateT σ (Except ε) PUnit) s Q := h

theorem Spec.modify_bind {g : σ → σ} {f : PUnit → StateT σ (Except ε) α}
    (h : Spec E (f ⟨⟩) (g s) Q) : Spec E (modify g >>= f) s Q := .bind (s := s) (f := f) h

theorem Spec.modify {f : σ → σ} {Q : PUnit → σ → Prop} (h : Q ⟨⟩ (f s)) :
    Spec E (modify f : StateT σ (Except ε) PUnit) s Q := h

theorem Spec.seq {f : α → StateT σ (Except ε) β} {Q : β → σ → Prop} (h : Spec E m s R)
    (hf : ∀ a t, R a t → Spec E (f a) t Q) : Spec E (m >>= f) s Q := .bind (h.post hf)

theorem Spec.get_bind {f : σ → StateT σ (Except ε) α} (h : Spec E (f s) s Q) :
    Spec E (MonadState.get >>= f) s Q := .bind (Spec.get h)

theorem Spec.set_bind {t : σ} {f : PUnit → StateT σ (Except ε) α} (h : Spec E (f ⟨⟩) t Q) :
    Spec E (MonadStateOf.set t >>= f) s Q := .bind (Spec.set h)

theorem Spec.ite {c : Prop} [Decidable c] {m' : StateT σ (Except ε) α} (hpos : c → Spec E m s Q)
    (hneg : ¬ c → Spec E m' s Q) : Spec E (if c then m else m') s Q := by
  split
  · exact hpos ‹_›
  · exact hneg ‹_›

theorem Spec.ite_pos {c : Prop} [Decidable c] {m' : StateT σ (Except ε) α} (hc : c)
    (h : Spec E m s Q) : Spec E (if c then m else m') s Q := by
  rwa [if_pos hc]

theorem Spec.ite_neg {c : Prop} [Decidable c] {m' : StateT σ (Except ε) α} (hc : ¬ c)
    (h : Spec E m' s Q) : Spec E (if c then m else m') s Q := by
  rwa [if_neg hc]

/-! ## Programs on a part of the state -/

/-- A program on a part `part s` of the state `s`; its faults become faults of the whole. -/
def zoom {τ δ : Type} (part : σ → τ) (put : σ → τ → σ) (fault : δ → ε)
    (m : StateT τ (Except δ) α) : StateT σ (Except ε) α := fun s =>
  match m.run (part s) with
  | .ok (a, t) => .ok (a, put s t)
  | .error e => .error (fault e)

theorem Spec.zoom {τ δ : Type} {part : σ → τ} {put : σ → τ → σ} {fault : δ → ε}
    {m : StateT τ (Except δ) α}
    (h : Spec (fun e => E (fault e)) m (part s) fun a t => Q a (put s t)) :
    Spec E (zoom part put fault m) s Q := by
  unfold Spec at h ⊢
  have hrun : (Library.zoom part put fault m).run s = match m.run (part s) with
      | .ok (a, t) => .ok (a, put s t)
      | .error e => .error (fault e) := rfl
  rw [hrun]
  cases hm : m.run (part s) with
  | error e | ok r => rw [hm] at h; exact h

/-! ## Loops -/

/-- `for (i = start; i < start + n; i++) body (i);` -/
def forUpto (body : ℕ → StateT σ (Except ε) Unit) : ℕ → ℕ → StateT σ (Except ε) Unit
  | 0, _ => pure ()
  | n + 1, start => do
      body start
      forUpto body n (start + 1)

/-- A loop keeps an invariant that each of its rounds keeps. -/
theorem Spec.forUpto {body : ℕ → StateT σ (Except ε) Unit} (I : ℕ → σ → Prop) (n : ℕ) :
    ∀ (start : ℕ) {s : σ}, I start s →
      (∀ i s, start ≤ i → i < start + n → I i s → Spec E (body i) s fun _ t => I (i + 1) t) →
      Spec E (forUpto body n start) s fun _ t => I (start + n) t := by
  induction n with
  | zero => exact fun _ _ h _ => .pure h
  | succ n ih =>
    intro start s h hstep
    refine .bind ((hstep start s (Nat.le_refl _) (by omega) h).post fun _ t ht => ?_)
    refine (ih (start + 1) ht fun i u hlow hhigh =>
      hstep i u (by omega) (by omega)).post fun _ u hu => ?_
    rwa [Nat.add_right_comm] at hu

theorem run_forUpto {body : ℕ → StateT σ (Except ε) Unit} (state : ℕ → σ) (n : ℕ) :
    ∀ start, (∀ i, start ≤ i → i < start + n → (body i).run (state i) = .ok ((), state (i + 1))) →
      (forUpto body n start).run (state start) = .ok ((), state (start + n)) := by
  induction n with
  | zero => exact fun _ _ => rfl
  | succ n ih =>
    intro start hbody
    have hfirst := hbody start (Nat.le_refl _) (by omega)
    have hrest := ih (start + 1) fun i hlow hhigh => hbody i (by omega) (by omega)
    rw [Nat.add_right_comm] at hrest
    unfold forUpto
    rwa [StateT.run_bind, hfirst]

/-! ## Programs without a state -/

@[simp] theorem ok_bind (x : α) (f : α → Except ε β) : (Except.ok x >>= f) = f x := rfl

theorem bind_eq_ok {x : Except ε α} {f : α → Except ε β} {b : β} :
    x >>= f = .ok b ↔ ∃ a, x = .ok a ∧ f a = .ok b := by
  cases x with
  | error e => exact ⟨(nomatch ·), fun ⟨_, h, _⟩ => nomatch h⟩
  | ok a => exact ⟨fun h => ⟨a, rfl, h⟩, fun ⟨_, rfl, h⟩ => h⟩

theorem map_eq_ok {x : Except ε α} {f : α → β} {b : β} :
    f <$> x = .ok b ↔ ∃ a, x = .ok a ∧ f a = b := by
  cases x with
  | error e => exact ⟨(nomatch ·), fun ⟨_, h, _⟩ => nomatch h⟩
  | ok a => exact ⟨fun h => ⟨a, rfl, Except.ok.inj h⟩, fun ⟨_, rfl, h⟩ => congrArg _ h⟩

theorem ite_ok_none_eq_ok_some {p : Prop} [Decidable p] {x : Except ε (Option α)} {a : α} :
    (if p then x else .ok none) = .ok (some a) ↔ p ∧ x = .ok (some a) := by
  by_cases hp : p <;> simp [hp]

theorem ite_ok_none_isOk {p : Prop} [Decidable p] {x : Except ε (Option α)}
    (h : p → ∃ r, x = .ok r) : ∃ r, (if p then x else .ok none) = .ok r := by
  by_cases hp : p
  · rw [if_pos hp]
    exact h hp
  · rw [if_neg hp]
    exact ⟨none, rfl⟩

theorem ite_map_some_eq_ok {p : Prop} [Decidable p] {x : Except ε α} {a : α} :
    (if p then some <$> x else .ok none) = .ok (some a) ↔ p ∧ x = .ok a := by
  rw [ite_ok_none_eq_ok_some, map_eq_ok]
  simp

theorem ite_map_some_isOk {p : Prop} [Decidable p] {x : Except ε α} (h : p → ∃ a, x = .ok a) :
    ∃ r, (if p then some <$> x else .ok none) = .ok r := by
  apply ite_ok_none_isOk
  intro hp
  obtain ⟨a, ha⟩ := h hp
  exact ⟨some a, map_eq_ok.mpr ⟨a, ha, rfl⟩⟩

/-! ## Running a program -/

instance decidableEqError [DecidableEq ε] (x : Except ε α) (e : ε) : Decidable (x = .error e) :=
  match x with
  | .ok _ => isFalse nofun
  | .error d => decidable_of_iff (d = e) ⟨congrArg _, Except.error.inj⟩

instance decidableExistsOk (x : Except ε α) (P : α → Prop) [DecidablePred P] :
    Decidable (∃ a, x = .ok a ∧ P a) :=
  match x with
  | .ok a => decidable_of_iff (P a) ⟨fun h => ⟨a, rfl, h⟩, fun ⟨_, hb, h⟩ => Except.ok.inj hb ▸ h⟩
  | .error _ => isFalse fun ⟨_, h, _⟩ => nomatch h

instance decidableSpec [DecidablePred E] [∀ a t, Decidable (Q a t)] : Decidable (Spec E m s Q) :=
  match h : m.run s with
  | .ok (a, t) => decidable_of_iff (Q a t) (by rw [Spec, h])
  | .error e => decidable_of_iff (E e) (by rw [Spec, h])

end CS162.Library
