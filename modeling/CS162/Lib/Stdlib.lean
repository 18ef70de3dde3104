import Mathlib.Data.List.Nodup
import CS162.Kernel.Bitmap

/-!
# Searching arrays (`lib/stdlib.c`)

`binary_search` halves a range of addresses.  An array knows where its elements are; whatever
else is read is undefined.

## Strategy

The elements that are equal to the key stay between `first` and `last`, which are addresses of
elements (`searchLoop_spec`).
-/

namespace CS162

open Library List

variable {α : Type} {compare : α → α → ℤ}

/-- A strcmp()-type comparison function that is a total preorder. -/
structure Preorders (compare : α → α → ℤ) : Prop where
  swap : ∀ x y, compare x y < 0 ↔ 0 < compare y x
  trans : ∀ x y z, compare x y ≤ 0 → compare y z ≤ 0 → compare x z ≤ 0

/-- `cnt` elements of `size` bytes each. -/
structure CArray (α : Type) where
  base : ℕ
  size : ℕ
  cnt : ℕ
  elem : ℕ → α
  size_pos : 0 < size
  stop_lt : base + size * cnt < sizeLimit

namespace CArray

variable {a : CArray α}

def elems (a : CArray α) : List α := (range a.cnt).map a.elem

/-- The element at an address. -/
def read (a : CArray α) (p : ℕ) : Except Fault α :=
  if a.base ≤ p ∧ p < a.base + a.size * a.cnt ∧ (p - a.base) % a.size = 0 then
    .ok (a.elem ((p - a.base) / a.size))
  else .error (.undefined "array")

/-- The loop of `binary_search`; the result `none` is the null pointer. -/
def searchLoop (compare : α → α → ℤ) (key : α) (a : CArray α) : ℕ → ℕ → ℕ → Except Fault (Option ℕ)
  | 0, _, _ => throw .outOfFuel
  | fuel + 1, first, last => do
      if first < last then
        let range := (last - first) / a.size
        let middle := first + range / 2 * a.size
        let cmp := compare key (← a.read middle)
        if cmp < 0 then searchLoop compare key a fuel first middle
        else if 0 < cmp then searchLoop compare key a fuel (middle + a.size) last
        else return some middle
      else return none

def binarySearch (compare : α → α → ℤ) (key : α) (a : CArray α) : Except Fault (Option ℕ) :=
  searchLoop compare key a (a.cnt + 1) a.base (a.base + a.size * a.cnt)

/-- `compare_thunk`; `aux` points to the function. -/
def compareThunk (x y : α) (aux : α → α → ℤ) : ℤ := aux x y

def bsearch (compare : α → α → ℤ) (key : α) (a : CArray α) : Except Fault (Option ℕ) :=
  binarySearch (compareThunk · · compare) key a

theorem read_base {k : ℕ} (hk : k < a.cnt) : a.read (a.base + k * a.size) = .ok (a.elem k) := by
  have hlt : k * a.size < a.size * a.cnt := by
    rw [mul_comm a.size]
    exact Nat.mul_lt_mul_of_pos_right hk a.size_pos
  rw [read, Nat.add_sub_cancel_left, Nat.mul_mod_left, Nat.mul_div_cancel _ a.size_pos,
    if_pos ⟨Nat.le_add_right _ _, by omega, rfl⟩]

/-- A range that is not empty, and the address of its middle element. -/
theorem middle_eq (a : CArray α) (lo n : ℕ) :
    let first := a.base + lo * a.size
    let last := a.base + (lo + n + 1) * a.size
    first < last ∧
      first + (last - first) / a.size / 2 * a.size = a.base + (lo + (n + 1) / 2) * a.size := by
  have hlt := Nat.mul_lt_mul_of_pos_right (show lo < lo + n + 1 by omega) a.size_pos
  refine ⟨Nat.add_lt_add_left hlt _, ?_⟩
  rw [Nat.add_sub_add_left, ← Nat.sub_mul, Nat.mul_div_cancel _ a.size_pos, add_assoc lo,
    Nat.add_sub_cancel_left, add_assoc, ← Nat.add_mul]

/-- What is equal to the key lies between the two addresses. -/
theorem searchLoop_spec (hc : Preorders compare) (key : α)
    (hle : ∀ {j k}, j < k → k < a.cnt → compare (a.elem j) (a.elem k) ≤ 0) (fuel : ℕ) :
    ∀ {lo hi : ℕ}, lo ≤ hi → hi ≤ a.cnt → hi < fuel + lo →
    (∀ k < a.cnt, compare key (a.elem k) = 0 → lo ≤ k ∧ k < hi) →
    ∃ r, searchLoop compare key a fuel (a.base + lo * a.size) (a.base + hi * a.size) = .ok r ∧
      match r with
      | none => ∀ k < a.cnt, compare key (a.elem k) ≠ 0
      | some p => ∃ k < a.cnt, p = a.base + k * a.size ∧ compare key (a.elem k) = 0 := by
  induction fuel with
  | zero =>
    intro lo hi _ _ hfuel
    omega
  | succ fuel ih =>
    intro lo hi hlohi hcnt hfuel hwithin
    rw [searchLoop]
    by_cases hempty : lo = hi
    · subst hempty
      refine ⟨none, if_neg (lt_irrefl _), fun k hk heq => ?_⟩
      have hnone := hwithin k hk heq
      omega
    obtain ⟨n, rfl⟩ := Nat.exists_eq_add_of_lt (lt_of_le_of_ne hlohi hempty)
    obtain ⟨hlt, haddr⟩ := a.middle_eq lo n
    obtain ⟨middle, hmiddle⟩ : ∃ middle, lo + (n + 1) / 2 = middle := ⟨_, rfl⟩
    rw [hmiddle] at haddr
    simp only [if_pos hlt, haddr, @read_base _ a middle (by omega), ok_bind]
    split
    · next hless =>
      -- The key is less than all elements from the middle on.
      refine ih (by omega) (by omega) (by omega) fun k hk heq => ⟨(hwithin k hk heq).1, ?_⟩
      by_contra hge
      rcases (Nat.le_of_not_lt hge).eq_or_lt with rfl | hlater
      · omega
      · have hswap := hc.swap key (a.elem middle)
        have hback := hc.swap key (a.elem k)
        have htrans := hc.trans _ _ key (hle hlater hk) (by omega)
        omega
    split
    · next hmore =>
      rw [add_assoc, ← Nat.succ_mul]
      refine ih (by omega) (by omega) (by omega) fun k hk heq => ⟨?_, (hwithin k hk heq).2⟩
      by_contra hge
      rcases (Nat.le_of_lt_succ (Nat.lt_of_not_le hge)).eq_or_lt with rfl | hearlier
      · omega
      · have htrans := hc.trans key _ _ heq.le (hle hearlier (by omega))
        omega
    · exact ⟨_, rfl, middle, by omega, rfl, by omega⟩

/-- **`binary_search` is complete**: it reads only elements of the array and returns the address
of one that is equal to the key, or null if there is none. -/
theorem binarySearch_complete (a : CArray α) (key : α) (hc : Preorders compare)
    (hsorted : a.elems.Pairwise fun x y => compare x y ≤ 0) :
    ∃ r, binarySearch compare key a = .ok r ∧ bsearch compare key a = .ok r ∧
      match r with
      | none => ∀ x ∈ a.elems, compare key x ≠ 0
      | some p => ∃ x ∈ a.elems, a.read p = .ok x ∧ compare key x = 0 := by
  have hle : ∀ {j k}, j < k → k < a.cnt → compare (a.elem j) (a.elem k) ≤ 0 := by
    intro j k hjk hk
    have hpair := pairwise_iff_getElem.mp (pairwise_map.mp hsorted) j k (by simp; omega)
      (by simpa using hk) hjk
    simpa using hpair
  obtain ⟨r, hr, hfound⟩ := searchLoop_spec hc key hle (a.cnt + 1) (Nat.zero_le _) le_rfl
    (by omega) fun k hk _ => ⟨Nat.zero_le _, hk⟩
  rw [Nat.zero_mul, add_zero, mul_comm a.cnt] at hr
  refine ⟨r, hr, hr, ?_⟩
  cases r with
  | none =>
    intro x hx
    obtain ⟨k, hk, rfl⟩ := mem_map.mp hx
    exact hfound k (mem_range.mp hk)
  | some p =>
    obtain ⟨k, hk, rfl, heq⟩ := hfound
    exact ⟨_, mem_map_of_mem (mem_range.mpr hk), read_base hk, heq⟩

/-- The number 5 in an array with 1, 3 and 5. -/
theorem binarySearch_complete_three : ∃ (a : CArray ℤ) (p : ℕ), a.elems = [1, 3, 5] ∧
    binarySearch (fun x y => x - y) 5 a = .ok (some p) ∧ a.read p = .ok 5 := by
  let a : CArray ℤ := ⟨4096, 4, 3, fun k => 2 * k + 1, by decide, by decide⟩
  obtain ⟨r, hr, -, hfound⟩ := @binarySearch_complete ℤ (fun x y => x - y) a 5
    ⟨fun x y => by omega, fun x y z => by omega⟩ (by decide)
  cases r with
  | none => exact absurd (hfound 5 (by decide)) (by decide)
  | some p =>
    obtain ⟨x, -, hread, heq⟩ := hfound
    exact ⟨a, p, rfl, hr, by rw [hread, ← Int.sub_eq_zero.mp heq]⟩

end CArray

end CS162
