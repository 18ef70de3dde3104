import Mathlib.Data.List.Nodup

/-!
# What has been used last

`recent` lists the different entries of a history, the last one first.  A list that keeps its
first `n` places and moves what is used to the front is the start of it (`take_recent_concat`).
-/

namespace CS162.Library

open List

variable {α : Type*} [DecidableEq α]

/-- The different entries of a history, the last one first. -/
def recent (history : List α) : List α := history.reverse.eraseDups

theorem eraseDups_filter_ne (a : α) : ∀ l : List α,
    (l.filter fun b => !b == a).eraseDups = l.eraseDups.erase a
  | [] => rfl
  | b :: l => by
      have hlen : (l.filter fun c => !c == b).length < l.length + 1 :=
        Nat.lt_succ_of_le (length_filter_le _ _)
      rw [eraseDups_cons]
      by_cases hb : b = a
      · rw [hb, erase_cons_head, filter_cons_of_neg (by simp)]
      · rw [erase_cons_tail (by simpa using hb), filter_cons_of_pos (by simpa using hb),
          eraseDups_cons, filter_comm, eraseDups_filter_ne a]
termination_by l => l.length

theorem recent_concat (history : List α) (a : α) :
    recent (history ++ [a]) = a :: (recent history).erase a := by
  unfold recent
  rw [reverse_append, reverse_singleton, singleton_append, eraseDups_cons, eraseDups_filter_ne]

theorem take_erase_take (a : α) (l : List α) : ∀ n,
    ((l.take (n + 1)).erase a).take n = (l.erase a).take n := by
  induction l with
  | nil => exact fun _ => by simp
  | cons b l ih =>
    intro n
    rw [take_succ_cons]
    by_cases hb : b = a
    · rw [hb, erase_cons_head, erase_cons_head, take_take, Nat.min_self]
    · rw [erase_cons_tail (by simpa using hb), erase_cons_tail (by simpa using hb)]
      cases n with
      | zero => rfl
      | succ n => rw [take_succ_cons, take_succ_cons, ih]

/-- A bounded list that moves what is used to the front. -/
theorem take_recent_concat (history : List α) (a : α) (n : ℕ) :
    (recent (history ++ [a])).take (n + 1) =
      (a :: ((recent history).take (n + 1)).erase a).take (n + 1) := by
  rw [recent_concat, take_succ_cons, take_succ_cons, take_erase_take]

end CS162.Library
