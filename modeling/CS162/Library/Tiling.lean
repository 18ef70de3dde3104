import Mathlib.Data.List.Pairwise
import CS162.Library.Extent

/-!
# Tilings of memory with linked headers

A tile is a header of fixed size and a payload.  Tiles fill a stretch of memory without gaps
(`Tiles`), and their headers form a doubly linked list from null to null (`Linked`); what a
header holds besides the two links is up to the user of this file.

Both notions are about lists of tiles and are taken apart at an append, so that a change to a
few neighbouring tiles is a change to the middle of a list.
-/

namespace CS162.Library

open List

/-- A header at `start` and a payload of `size` bytes behind it. -/
structure Tile where
  start : ℕ
  size : ℕ
  free : Bool
  deriving DecidableEq

section Tiles

variable {head lo hi mid : ℕ} {t u : Tile} {xs ys : List Tile}

/-- The tiles fill the memory from `lo` to `hi`. -/
def Tiles (head : ℕ) : ℕ → List Tile → ℕ → Prop
  | lo, [], hi => lo = hi
  | lo, t :: rest, hi => t.start = lo ∧ Tiles head (lo + head + t.size) rest hi

theorem tiles_append :
    Tiles head lo (xs ++ ys) hi ↔ ∃ mid, Tiles head lo xs mid ∧ Tiles head mid ys hi := by
  induction xs generalizing lo with
  | nil =>
    constructor
    · exact fun h => ⟨lo, rfl, h⟩
    · rintro ⟨mid, rfl, h⟩
      exact h
  | cons t rest ih =>
    rw [cons_append, Tiles, ih]
    constructor
    · rintro ⟨hstart, mid, hrest, hys⟩
      exact ⟨mid, ⟨hstart, hrest⟩, hys⟩
    · rintro ⟨mid, ⟨hstart, hrest⟩, hys⟩
      exact ⟨hstart, mid, hrest, hys⟩

theorem Tiles.le (h : Tiles head lo xs hi) : lo ≤ hi := by
  induction xs generalizing lo with
  | nil => exact Nat.le_of_eq h
  | cons t rest ih =>
    have hrest := ih h.2
    omega

theorem Tiles.bounds (h : Tiles head lo xs hi) (ht : t ∈ xs) :
    lo ≤ t.start ∧ t.start + head + t.size ≤ hi := by
  induction xs generalizing lo with
  | nil => cases ht
  | cons u rest ih =>
    obtain ⟨hstart, hrest⟩ := h
    rcases mem_cons.mp ht with rfl | ht
    · have hle := hrest.le
      omega
    · have hbounds := ih hrest ht
      omega

/-- **Tiles do not overlap.** -/
theorem Tiles.pairwise (h : Tiles head lo xs hi) :
    xs.Pairwise fun t u => t.start + head + t.size ≤ u.start := by
  induction xs generalizing lo with
  | nil => exact List.Pairwise.nil
  | cons t rest ih =>
    obtain ⟨hstart, hrest⟩ := h
    refine pairwise_cons.mpr ⟨fun u hu => ?_, ih hrest⟩
    have hbounds := hrest.bounds hu
    omega

theorem Tiles.before (h : Tiles head lo (xs ++ t :: ys) hi) (hu : u ∈ xs) :
    u.start + head + u.size ≤ t.start :=
  (pairwise_append.mp h.pairwise).2.2 u hu t mem_cons_self

theorem Tiles.after (h : Tiles head lo (xs ++ t :: ys) hi) (hu : u ∈ ys) :
    t.start + head + t.size ≤ u.start :=
  (pairwise_cons.mp (pairwise_append.mp h.pairwise).2.1).1 u hu

theorem Tiles.length_le (h : Tiles head lo xs hi) : lo + head * xs.length ≤ hi := by
  induction xs generalizing lo with
  | nil => exact Nat.le_of_eq h
  | cons t rest ih =>
    have hrest := ih h.2
    rw [length_cons, Nat.mul_succ]
    omega

/-- One of two different tiles ends before the other starts. -/
theorem Tiles.apart (h : Tiles head lo xs hi) (ht : t ∈ xs) (hu : u ∈ xs) (hne : t ≠ u) :
    t.start + head + t.size ≤ u.start ∨ u.start + head + u.size ≤ t.start := by
  have hsymm : Std.Symm fun t u : Tile =>
      t.start + head + t.size ≤ u.start ∨ u.start + head + u.size ≤ t.start := ⟨fun _ _ => Or.symm⟩
  have hpair : xs.Pairwise fun t u : Tile =>
      t.start + head + t.size ≤ u.start ∨ u.start + head + u.size ≤ t.start :=
    h.pairwise.imp Or.inl
  exact hpair.forall ht hu hne

theorem Tiles.eq_of_start (h : Tiles head lo xs hi) (hhead : 0 < head) (ht : t ∈ xs) (hu : u ∈ xs)
    (hstart : t.start = u.start) : t = u := by
  by_contra hne
  have hapart := h.apart ht hu hne
  omega

end Tiles

section Linked

variable {ν : Type*} {node : Tile → ℕ → ℕ → ν} {h h' : ℕ → Option ν} {p n : ℕ} {t : Tile}
  {xs ys : List Tile}

/-- The start of the first tile; `n` if there is none. -/
def firstOr : List Tile → ℕ → ℕ
  | [], n => n
  | t :: _, _ => t.start

/-- The start of the last tile; `p` if there is none. -/
def lastOr : ℕ → List Tile → ℕ
  | p, [] => p
  | _, t :: rest => lastOr t.start rest

theorem firstOr_append (xs ys : List Tile) (n : ℕ) :
    firstOr (xs ++ ys) n = firstOr xs (firstOr ys n) := by
  cases xs <;> rfl

theorem lastOr_append (p : ℕ) (xs ys : List Tile) :
    lastOr p (xs ++ ys) = lastOr (lastOr p xs) ys := by
  induction xs generalizing p with
  | nil => rfl
  | cons t rest ih => exact ih t.start

/-- The headers of the tiles form a list: `p` is the link back of the first one and `n` the link
of the last one.  A header is `node tile next prev`. -/
def Linked (node : Tile → ℕ → ℕ → ν) (h : ℕ → Option ν) : ℕ → List Tile → ℕ → Prop
  | _, [], _ => True
  | p, t :: rest, n =>
    h t.start = some (node t (firstOr rest n) p) ∧ Linked node h t.start rest n

theorem linked_append : Linked node h p (xs ++ ys) n ↔
    Linked node h p xs (firstOr ys n) ∧ Linked node h (lastOr p xs) ys n := by
  induction xs generalizing p with
  | nil => simp only [nil_append, Linked, lastOr, true_and]
  | cons t rest ih =>
    simp only [cons_append, Linked, ih, firstOr_append, lastOr, and_assoc]

theorem linked_split : Linked node h p (xs ++ t :: ys) n ↔
    Linked node h p xs t.start ∧ h t.start = some (node t (firstOr ys n) (lastOr p xs)) ∧
      Linked node h t.start ys n :=
  linked_append

theorem Linked.congr (hl : Linked node h p xs n) (heq : ∀ t ∈ xs, h' t.start = h t.start) :
    Linked node h' p xs n := by
  induction xs generalizing p with
  | nil => trivial
  | cons t rest ih =>
    refine ⟨?_, ih hl.2 fun u hu => heq u (mem_cons_of_mem t hu)⟩
    rw [heq t mem_cons_self]
    exact hl.1

end Linked

end CS162.Library
