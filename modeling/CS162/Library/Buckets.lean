import Mathlib.Data.List.Perm.Basic
import Mathlib.Data.List.Nodup
import Mathlib.Algebra.Ring.Nat

/-!
# Elements sorted into buckets

A list of buckets, each a list of elements, and a slot for every element.  `Placed` says that each
element is in the bucket of its slot.  Adding an element at the front of its bucket, taking one
out, and sorting everything into new buckets keep this, and do to the elements as a whole
(`List.flatten`) what they should.
-/

namespace CS162.Library

open List

variable {α : Type*} {slot : α → ℕ} {bs : List (List α)} {x y : α} {i n : ℕ}

/-- Every element is in the bucket of its slot. -/
def Placed (slot : α → ℕ) (bs : List (List α)) : Prop :=
  ∀ i b, bs[i]? = some b → ∀ x ∈ b, slot x = i

/-- Adds an element at the front of its bucket. -/
def addFront (slot : α → ℕ) (bs : List (List α)) (x : α) : List (List α) :=
  bs.modify (slot x) (x :: ·)

@[simp] theorem length_addFront : (addFront slot bs x).length = bs.length := length_modify ..

theorem Placed.mem_flatten_iff (h : Placed slot bs) : x ∈ bs.flatten ↔ x ∈ bs.getD (slot x) [] := by
  rw [mem_flatten, getD_eq_getElem?_getD]
  constructor
  · rintro ⟨b, hb, hx⟩
    obtain ⟨i, hi⟩ := getElem?_of_mem hb
    rwa [h i b hi x hx, hi]
  intro hx
  cases hb : bs[slot x]? with
  | none =>
    rw [hb] at hx
    cases hx
  | some b =>
    rw [hb] at hx
    exact ⟨b, mem_of_getElem? hb, hx⟩

theorem placed_replicate : Placed slot (replicate n []) := by
  intro i b hb x hx
  rw [getElem?_replicate] at hb
  split at hb
  · cases hb
    cases hx
  · cases hb

theorem Placed.addFront (h : Placed slot bs) : Placed slot (addFront slot bs x) := by
  intro i b hb y hy
  unfold Library.addFront at hb
  rw [getElem?_modify] at hb
  obtain ⟨b', hb', rfl⟩ := Option.map_eq_some_iff.mp hb
  split at hy
  next hslot =>
    rcases mem_cons.mp hy with rfl | hy
    · exact hslot
    · exact h i b' hb' y hy
  next => exact h i b' hb' y hy

theorem flatten_addFront (hx : slot x < bs.length) :
    (addFront slot bs x).flatten.Perm (x :: bs.flatten) := by
  unfold addFront
  generalize slot x = i at hx ⊢
  induction bs generalizing i with
  | nil => cases hx
  | cons b rest ih =>
    cases i with
    | zero => exact List.Perm.refl _
    | succ i =>
      rw [modify_succ_cons, flatten_cons]
      exact ((ih i (Nat.lt_of_succ_lt_succ hx)).append_left b).trans perm_middle

theorem Placed.filter (h : Placed slot bs) (p : α → Bool) : Placed slot (bs.map (filter p)) := by
  intro i b hb x hx
  rw [getElem?_map] at hb
  obtain ⟨b', hb', rfl⟩ := Option.map_eq_some_iff.mp hb
  exact h i b' hb' x (mem_of_mem_filter hx)

theorem addFront_foldl (xs : List α) (h : Placed slot bs) (hslot : ∀ x, slot x < bs.length) :
    Placed slot (xs.foldl (addFront slot) bs) ∧ (xs.foldl (addFront slot) bs).length = bs.length ∧
      (xs.foldl (addFront slot) bs).flatten.Perm (xs ++ bs.flatten) := by
  induction xs generalizing bs with
  | nil => exact ⟨h, rfl, List.Perm.refl _⟩
  | cons x rest ih =>
    have hlength : (addFront slot bs x).length = bs.length := length_addFront
    obtain ⟨hplaced, hlen, hperm⟩ := ih (h.addFront (x := x)) fun y => hlength ▸ hslot y
    refine ⟨hplaced, hlen.trans hlength, hperm.trans ?_⟩
    exact ((flatten_addFront (hslot x)).append_left rest).trans perm_middle

/-! ## Powers of two -/

/-- Turning off the lowest bit does not lead below the power of two under a number. -/
theorem two_pow_le_and_pred {m : ℕ} (hlow : 2 ^ n < m) (hhigh : m < 2 ^ (n + 1)) :
    2 ^ n ≤ m &&& (m - 1) := by
  apply Nat.ge_two_pow_of_testBit
  rw [Nat.testBit_and, Bool.and_eq_true]
  exact ⟨Nat.testBit_of_two_pow_le_and_two_pow_add_one_gt (Nat.le_of_lt hlow) hhigh,
    Nat.testBit_of_two_pow_le_and_two_pow_add_one_gt (by omega) (by omega)⟩

end CS162.Library
