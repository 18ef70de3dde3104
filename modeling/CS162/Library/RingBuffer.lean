import Mathlib.Data.List.Range
import Mathlib.Logic.Function.Basic

/-!
# Ring buffers

A buffer of `n` cells that is written at `head` and read at `tail`; both move on around the
buffer.  It is empty if the two are equal, and it is full while one cell is still free, since
otherwise a full buffer could not be told from an empty one.

`content` is the sequence that the buffer holds.  `content_put` and `content_take` say that
the operations work on it as on a queue.
-/

namespace CS162.Library

open Function List

variable {α : Type*}

structure RingBuffer (α : Type*) where
  buf : ℕ → α
  head : ℕ
  tail : ℕ

namespace RingBuffer

def next (n pos : ℕ) : ℕ := (pos + 1) % n

/-- The number of cells in use. -/
def count (n : ℕ) (r : RingBuffer α) : ℕ := (r.head + n - r.tail) % n

/-- What the buffer holds, the oldest first. -/
def content (n : ℕ) (r : RingBuffer α) : List α :=
  (List.range (r.count n)).map fun i => r.buf ((r.tail + i) % n)

/-- Writes at `head`. -/
def put (n : ℕ) (r : RingBuffer α) (a : α) : RingBuffer α :=
  { r with buf := update r.buf r.head a, head := next n r.head }

def first (r : RingBuffer α) : α := r.buf r.tail

def take (n : ℕ) (r : RingBuffer α) : RingBuffer α := { r with tail := next n r.tail }

/-- The positions are cells of the buffer. -/
structure Valid (n : ℕ) (r : RingBuffer α) : Prop where
  head_lt : r.head < n
  tail_lt : r.tail < n

variable {n : ℕ} {r : RingBuffer α}

theorem length_content (n : ℕ) (r : RingBuffer α) : (r.content n).length = r.count n := by
  simp [content]

theorem next_eq {pos : ℕ} (h : pos < n) : next n pos = if pos + 1 = n then 0 else pos + 1 := by
  unfold next
  split
  · next heq => rw [heq, Nat.mod_self]
  · exact Nat.mod_eq_of_lt (by omega)

namespace Valid

section

variable (h : r.Valid n)
include h

theorem count_eq :
    r.count n = if r.tail ≤ r.head then r.head - r.tail else r.head + n - r.tail := by
  obtain ⟨hhead, htail⟩ := h
  unfold count
  split
  · next hle =>
    have hsplit : r.head + n - r.tail = r.head - r.tail + n := by omega
    rw [hsplit, Nat.add_mod_right, Nat.mod_eq_of_lt (by omega)]
  · exact Nat.mod_eq_of_lt (by omega)

theorem count_lt : r.count n < n :=
  Nat.mod_lt _ (Nat.zero_lt_of_lt h.head_lt)

theorem empty_iff : r.head = r.tail ↔ r.count n = 0 := by
  rw [h.count_eq]
  obtain ⟨hhead, htail⟩ := h
  split <;> omega

/-- The buffer is full if the next write would make them meet. -/
theorem full_iff : next n r.head = r.tail ↔ r.count n = n - 1 := by
  rw [next_eq h.head_lt, h.count_eq]
  obtain ⟨hhead, htail⟩ := h
  split <;> split <;> omega

theorem put (a : α) : (r.put n a).Valid n :=
  ⟨Nat.mod_lt _ (Nat.zero_lt_of_lt h.head_lt), h.tail_lt⟩

theorem take : (r.take n).Valid n :=
  ⟨h.head_lt, Nat.mod_lt _ (Nat.zero_lt_of_lt h.head_lt)⟩

theorem count_put (a : α) (hroom : next n r.head ≠ r.tail) :
    (r.put n a).count n = r.count n + 1 := by
  have hnext := next_eq h.head_lt
  have hput : (r.put n a).count n = if r.tail ≤ next n r.head then next n r.head - r.tail
      else next n r.head + n - r.tail := (h.put a).count_eq
  rw [hput, h.count_eq]
  obtain ⟨hhead, htail⟩ := h
  rw [hnext] at hroom ⊢
  split_ifs at hroom ⊢ <;> omega

theorem count_take (hsome : r.head ≠ r.tail) : (r.take n).count n + 1 = r.count n := by
  have hnext := next_eq h.tail_lt
  have htake : (r.take n).count n = if next n r.tail ≤ r.head then r.head - next n r.tail
      else r.head + n - next n r.tail := h.take.count_eq
  rw [htake, h.count_eq]
  obtain ⟨hhead, htail⟩ := h
  rw [hnext]
  split_ifs <;> omega

/-- The cell that is written next is the one behind those in use. -/
theorem head_eq : (r.tail + r.count n) % n = r.head := by
  rw [h.count_eq]
  obtain ⟨hhead, htail⟩ := h
  split
  · next hle =>
    rw [Nat.add_sub_cancel' hle, Nat.mod_eq_of_lt hhead]
  · have hsum : r.tail + (r.head + n - r.tail) = r.head + n := by omega
    rw [hsum, Nat.add_mod_right, Nat.mod_eq_of_lt hhead]

theorem ne_head {i : ℕ} (hi : i < r.count n) : (r.tail + i) % n ≠ r.head := by
  have hcount := h.count_eq
  obtain ⟨hhead, htail⟩ := h
  rcases lt_or_ge (r.tail + i) n with hlt | hge
  · rw [Nat.mod_eq_of_lt hlt]
    split at hcount <;> omega
  · have hmod : (r.tail + i) % n = r.tail + i - n := by
      rw [Nat.mod_eq_sub_mod hge, Nat.mod_eq_of_lt]
      split at hcount <;> omega
    split at hcount <;> omega

theorem content_put (a : α) (hroom : next n r.head ≠ r.tail) :
    (r.put n a).content n = r.content n ++ [a] := by
  rw [content, h.count_put a hroom, range_succ, map_append]
  congr 1
  · apply map_congr_left
    intro i hi
    exact update_of_ne (h.ne_head (mem_range.mp hi)) _ _
  · simp only [map_cons, map_nil, RingBuffer.put]
    rw [h.head_eq, update_self]

theorem content_take (hsome : r.head ≠ r.tail) : r.content n = r.first :: (r.take n).content n := by
  rw [content, ← h.count_take hsome, range_succ_eq_map, map_cons, map_map]
  congr 1
  · rw [Nat.add_zero, Nat.mod_eq_of_lt h.tail_lt]
    rfl
  · apply map_congr_left
    intro i _
    simp only [comp_apply, RingBuffer.take, next, Nat.mod_add_mod]
    congr 2
    omega

end

end Valid

end RingBuffer

end CS162.Library
