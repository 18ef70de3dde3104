import Mathlib.Data.List.Count

/-!
# Objects with addresses

A `Heap` holds the objects that have been allocated so far.  An address names one object
for ever: it is never given out again, so that an access through an old address can be told
from an access to a new object.  `count` counts the objects that are alive and have a
property; `count_put` says how it changes when an object is changed or freed.
-/

namespace CS162.Library

open List

/-- What has been allocated; `none` has been freed. -/
structure Heap (α : Type*) where
  cells : List (Option α)

namespace Heap

variable {α : Type*} {h : Heap α} {i : ℕ} {a : α} {p : α → Bool}

def empty : Heap α := ⟨[]⟩

/-- The object at an address, if it is alive. -/
def get (h : Heap α) (i : ℕ) : Option α := (h.cells[i]?).join

def next (h : Heap α) : ℕ := h.cells.length

def alloc (h : Heap α) (a : α) : Heap α := ⟨h.cells ++ [some a]⟩

/-- The object is changed, or freed. -/
def put (h : Heap α) (i : ℕ) (c : Option α) : Heap α := ⟨h.cells.set i c⟩

/-- The number of objects alive that have a property. -/
def count (h : Heap α) (p : α → Bool) : ℕ := h.cells.countP (·.any p)

theorem lt_next (hget : h.get i = some a) : i < h.next := by
  by_contra hge
  rw [get, getElem?_eq_none (Nat.not_lt.mp hge)] at hget
  cases hget

@[simp] theorem get_empty (i : ℕ) : (empty : Heap α).get i = none := rfl

theorem get_alloc_of_ne (hne : i ≠ h.next) : (h.alloc a).get i = h.get i := by
  rcases Nat.lt_or_gt_of_ne hne with hlt | hgt
  · rw [get, alloc, getElem?_append_left hlt, get]
  · have hlen : h.cells.length + 1 ≤ i := hgt
    rw [get, alloc, getElem?_eq_none (by simpa using hlen), get, getElem?_eq_none (by omega)]

theorem get_put_self {c : Option α} (hi : i < h.next) : (h.put i c).get i = c := by
  rw [get, put, getElem?_set_self hi]
  rfl

theorem count_alloc : (h.alloc a).count p = h.count p + (if p a then 1 else 0) := by
  simp [count, alloc, countP_append, countP_cons]

theorem count_put {c : Option α} (hget : h.get i = some a) :
    (h.put i c).count p + (if p a then 1 else 0) = h.count p + (if c.any p then 1 else 0) := by
  have hi : i < h.cells.length := lt_next hget
  have hcell : h.cells[i] = some a := by
    rwa [get, getElem?_eq_getElem hi] at hget
  have hle : (if p a then 1 else 0) ≤ h.count p := by
    split
    · next ha => exact countP_pos_iff.mpr ⟨_, hcell ▸ getElem_mem hi, by simpa using ha⟩
    · exact Nat.zero_le _
  rw [count, put, countP_set hi, hcell]
  rw [Option.any_some]
  rw [count] at hle ⊢
  omega

theorem count_pos (hget : h.get i = some a) (ha : p a = true) : 0 < h.count p := by
  have hput := @count_put _ h i a p none hget
  rw [if_pos ha] at hput
  simp only [Option.any_none, Bool.false_eq_true, if_false] at hput
  omega

theorem exists_of_count_pos (hpos : 0 < h.count p) : ∃ i a, h.get i = some a ∧ p a = true := by
  obtain ⟨c, hmem, hc⟩ := countP_pos_iff.mp hpos
  obtain ⟨a, rfl, ha⟩ := (Option.any_eq_true _ _).mp hc
  obtain ⟨i, hi, hcell⟩ := getElem_of_mem hmem
  refine ⟨i, a, ?_, ha⟩
  rw [get, getElem?_eq_getElem hi, hcell]
  rfl

theorem count_le_count {q : α → Bool} (himp : ∀ a, p a = true → q a = true) :
    h.count p ≤ h.count q := by
  apply countP_mono_left
  intro c _ hc
  obtain ⟨a, rfl, ha⟩ := (Option.any_eq_true _ _).mp hc
  exact himp a ha

end Heap

end CS162.Library
