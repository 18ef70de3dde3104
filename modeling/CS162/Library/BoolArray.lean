import Mathlib.Data.List.Range
import Mathlib.Order.Bounds.Defs

/-!
# Arrays of booleans

An array of `n` booleans is a function of the index that is looked at below `n` only.  `BitGroup`
says that a number of neighbouring bits have one value, and `firstGroup` looks for the first such
group.
-/

namespace CS162.Library

variable {a a' : ℕ → Bool} {n start cnt i : ℕ} {value : Bool}

/-- The array with the bits from `start` on set to `value`. -/
def setRange (a : ℕ → Bool) (start cnt : ℕ) (value : Bool) : ℕ → Bool := fun j =>
  if start ≤ j ∧ j < start + cnt then value else a j

/-- The `cnt` bits from `i` on are at or behind `start`, before `n`, and equal to `value`. -/
def BitGroup (a : ℕ → Bool) (n start cnt : ℕ) (value : Bool) (i : ℕ) : Prop :=
  start ≤ i ∧ i + cnt ≤ n ∧ ∀ k < cnt, a (i + k) = value

instance : DecidablePred (BitGroup a n start cnt value) := fun _ =>
  inferInstanceAs (Decidable (_ ∧ _ ∧ _))

/-- The first group of `cnt` bits equal to `value`. -/
def firstGroup (a : ℕ → Bool) (n start cnt : ℕ) (value : Bool) : Option ℕ :=
  (List.range (n + 1)).find? (BitGroup a n start cnt value)

theorem BitGroup.lt_succ (h : BitGroup a n start cnt value i) : i < n + 1 := by
  have hroom := h.2.1
  omega

theorem firstGroup_eq_some : firstGroup a n start cnt value = some i ↔
    IsLeast {i | BitGroup a n start cnt value i} i := by
  unfold firstGroup
  simp only [List.find?_range_eq_some, List.mem_range, decide_eq_true_eq, Bool.not_eq_true',
    decide_eq_false_iff_not]
  constructor
  · rintro ⟨hgroup, -, hfirst⟩
    exact ⟨hgroup, fun j hj => Nat.le_of_not_lt fun hlt => hfirst j hlt hj⟩
  · rintro ⟨hgroup, hleast⟩
    exact ⟨hgroup, BitGroup.lt_succ hgroup, fun j hlt hj => Nat.not_le_of_lt hlt (hleast hj)⟩

theorem firstGroup_eq_none : firstGroup a n start cnt value = none ↔
    ∀ i, ¬ BitGroup a n start cnt value i := by
  unfold firstGroup
  simp only [List.find?_eq_none, List.mem_range, decide_eq_true_eq]
  exact ⟨fun h i hi => h i hi.lt_succ hi, fun h i _ => h i⟩

end CS162.Library
