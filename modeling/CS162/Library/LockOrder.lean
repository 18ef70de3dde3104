import Mathlib.Logic.Relation
import Mathlib.Data.Nat.Notation

/-!
# Deadlock and the order of locks

Threads hold locks, and a thread may wait for one more.  If every thread waits for a lock
that comes after all it holds, in some order of the locks, then no threads wait for each
other in a circle.
-/

namespace CS162.Library

variable {Thread Lock : Type*} {holds : Thread → Lock → Prop} {wants : Thread → Option Lock}

/-- Thread `t` waits for a lock that `u` holds. -/
def WaitsFor (holds : Thread → Lock → Prop) (wants : Thread → Option Lock) (t u : Thread) : Prop :=
  ∃ lock, wants t = some lock ∧ holds u lock

section

variable (rank : Lock → ℕ)
  (horder : ∀ t lock next, holds t lock → wants t = some next → rank lock < rank next)
include rank horder

/-- Along a chain of waiting threads the locks they wait for come later and later. -/
theorem rank_lt_of_waitsFor {t u : Thread} (hchain : Relation.TransGen (WaitsFor holds wants) t u) :
    ∃ lock, wants t = some lock ∧ ∀ next, wants u = some next → rank lock < rank next := by
  induction hchain with
  | single hwait =>
    obtain ⟨lock, hwants, hholds⟩ := hwait
    exact ⟨lock, hwants, fun next => horder _ lock next hholds⟩
  | tail _ hwait ih =>
    obtain ⟨first, hfirst, hlt⟩ := ih
    obtain ⟨lock, hwants, hholds⟩ := hwait
    refine ⟨first, hfirst, ?_⟩
    intro next hnext
    exact Nat.lt_trans (hlt lock hwants) (horder _ lock next hholds hnext)

/-- **Locks taken in order cannot deadlock.** -/
theorem no_waiting_cycle (t : Thread) : ¬ Relation.TransGen (WaitsFor holds wants) t t := by
  intro hcycle
  obtain ⟨lock, hwants, hlt⟩ := rank_lt_of_waitsFor rank horder hcycle
  exact Nat.lt_irrefl _ (hlt lock hwants)

end

end CS162.Library
