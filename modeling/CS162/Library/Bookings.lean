import Mathlib.Data.List.Basic
import Mathlib.Data.List.Pairwise
import Mathlib.Data.Nat.Notation

/-!
# Booking places in arrays of bits

Several arrays, one for each key, have a bit for every place.  Places are booked in runs of
neighbours.  The bits and the list of bookings agree when a bit is set exactly if one of the
bookings has its place, and no place is booked twice.
-/

namespace CS162.Library

open List

/-- A run of places in one of the arrays. -/
structure Booking (κ : Type*) where
  key : κ
  start : ℕ
  size : ℕ
  deriving DecidableEq

namespace Booking

variable {κ : Type*} {a b : Booking κ} {k : κ} {i : ℕ}

/-- The booking has place `i` of array `k`. -/
def Has (b : Booking κ) (k : κ) (i : ℕ) : Prop := b.key = k ∧ b.start ≤ i ∧ i < b.start + b.size

instance [DecidableEq κ] (b : Booking κ) (k : κ) (i : ℕ) : Decidable (b.Has k i) :=
  inferInstanceAs (Decidable (_ ∧ _ ∧ _))

def Apart (a b : Booking κ) : Prop := ∀ k i, ¬ (a.Has k i ∧ b.Has k i)

theorem Apart.symm (h : Apart a b) : Apart b a := fun k i hab => h k i hab.symm

end Booking

/-- The bits and the bookings agree; array `k` has `size k` places. -/
structure Booked {κ : Type*} (size : κ → ℕ) (bits : κ → ℕ → Bool)
    (bookings : List (Booking κ)) : Prop where
  apart : bookings.Pairwise Booking.Apart
  inside : ∀ b ∈ bookings, 0 < b.size ∧ b.start + b.size ≤ size b.key
  bits : ∀ k i, i < size k → (bits k i = true ↔ ∃ b ∈ bookings, b.Has k i)

namespace Booked

variable {κ : Type*} {size : κ → ℕ} {bits bits' : κ → ℕ → Bool} {bookings : List (Booking κ)}
  {b : Booking κ}

theorem empty (h : ∀ k i, i < size k → bits k i = false) : Booked size bits [] where
  apart := List.Pairwise.nil
  inside _ hb := by cases hb
  bits k i hi := by simp [h k i hi]

theorem bits_of_mem (h : Booked size bits bookings) (hb : b ∈ bookings) {i : ℕ}
    (hi : b.Has b.key i) : bits b.key i = true := by
  have hinside := (h.inside b hb).2
  exact (h.bits b.key i (Nat.lt_of_lt_of_le hi.2.2 hinside)).mpr ⟨b, hb, hi⟩

variable [DecidableEq κ]

/-- **Free places can be booked.** -/
theorem book (h : Booked size bits bookings) (hpos : 0 < b.size)
    (hinside : b.start + b.size ≤ size b.key)
    (hfree : ∀ i, b.start ≤ i → i < b.start + b.size → bits b.key i = false)
    (hbits : ∀ k i, i < size k → bits' k i = if b.Has k i then true else bits k i) :
    Booked size bits' (b :: bookings) := by
  constructor
  · refine pairwise_cons.mpr ⟨?_, h.apart⟩
    intro c hc k i hboth
    obtain ⟨⟨rfl, hlow, hhigh⟩, hother⟩ := hboth
    have hset := (h.bits b.key i (by omega)).mpr ⟨c, hc, hother⟩
    rw [hfree i hlow hhigh] at hset
    cases hset
  · exact forall_mem_cons.mpr ⟨⟨hpos, hinside⟩, h.inside⟩
  intro k i hi
  rw [hbits k i hi]
  by_cases hb : b.Has k i
  · rw [if_pos hb]
    exact ⟨fun _ => ⟨b, mem_cons_self, hb⟩, fun _ => rfl⟩
  rw [if_neg hb, h.bits k i hi]
  constructor
  · rintro ⟨c, hc, hhas⟩
    exact ⟨c, mem_cons_of_mem _ hc, hhas⟩
  · rintro ⟨c, hc, hhas⟩
    rcases mem_cons.mp hc with rfl | hc
    · exact absurd hhas hb
    · exact ⟨c, hc, hhas⟩

/-- **A booking can be released.** -/
theorem release (h : Booked size bits bookings) (hb : b ∈ bookings)
    (hbits : ∀ k i, i < size k → bits' k i = if b.Has k i then false else bits k i) :
    Booked size bits' (bookings.erase b) := by
  have hperm := perm_cons_erase hb
  have hapart : (b :: bookings.erase b).Pairwise Booking.Apart :=
    hperm.pairwise h.apart fun hab => hab.symm
  obtain ⟨hothers, hrest⟩ := pairwise_cons.mp hapart
  constructor
  · exact hrest
  · exact fun c hc => h.inside c (mem_of_mem_erase hc)
  intro k i hi
  rw [hbits k i hi]
  by_cases hhas : b.Has k i
  · rw [if_pos hhas]
    refine ⟨nofun, ?_⟩
    rintro ⟨c, hc, hhas'⟩
    exact absurd ⟨hhas, hhas'⟩ (hothers c hc k i)
  rw [if_neg hhas, h.bits k i hi]
  constructor
  · rintro ⟨c, hc, hhas'⟩
    rcases mem_cons.mp (hperm.mem_iff.mp hc) with rfl | hc
    · exact absurd hhas' hhas
    · exact ⟨c, hc, hhas'⟩
  · rintro ⟨c, hc, hhas'⟩
    exact ⟨c, mem_of_mem_erase hc, hhas'⟩

end Booked

end CS162.Library
