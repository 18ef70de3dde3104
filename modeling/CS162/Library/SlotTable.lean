import Mathlib.Data.List.Find
import Mathlib.Logic.Function.Basic

/-!
# Tables of slots

A finite map kept as an array of slots.  Each slot has a key, or none if the slot is
free, and a key is looked up by walking over the slots from the first one on.  As long
as no key is in two slots (`Distinct`) the table behaves like a function from keys to
entries: filling a free slot adds one key (`lookup_fill`), clearing a slot removes one
(`lookup_clear`), and all other keys are looked up as before.

A table is given by any function on the natural numbers; only its first `n` entries
count.
-/

namespace CS162.Library.SlotTable

open Function List

variable {ε κ : Type*} [DecidableEq κ] {key : ε → Option κ} {table table' : ℕ → ε} {n k : ℕ}
  {name : κ}

/-- The first slot with the given key. -/
def find (key : ε → Option κ) (table : ℕ → ε) (n : ℕ) (name : κ) : Option ℕ :=
  (List.range n).find? fun k => key (table k) = some name

/-- The entry with the given key. -/
def lookup (key : ε → Option κ) (table : ℕ → ε) (n : ℕ) (name : κ) : Option ε :=
  (find key table n name).map table

/-- The first free slot. -/
def free (key : ε → Option κ) (table : ℕ → ε) (n : ℕ) : Option ℕ :=
  (List.range n).find? fun k => key (table k) = none

/-- No key is in two slots. -/
def Distinct (key : ε → Option κ) (table : ℕ → ε) (n : ℕ) : Prop :=
  ∀ i < n, ∀ j < n, key (table i) = key (table j) → key (table i) ≠ none → i = j

/-- The second table has `e` in slot `k` and is the first one otherwise. -/
def Updated (table table' : ℕ → ε) (n k : ℕ) (e : ε) : Prop :=
  ∀ j < n, table' j = if j = k then e else table j

theorem find_some (h : find key table n name = some k) : k < n ∧ key (table k) = some name := by
  have hk := find?_some h
  exact ⟨mem_range.mp (mem_of_find?_eq_some h), by simpa using hk⟩

theorem find_none (h : find key table n name = none) (hk : k < n) : key (table k) ≠ some name := by
  have := find?_eq_none.mp h k (mem_range.mpr hk)
  simpa using this

theorem find_eq_some_iff (h : Distinct key table n) :
    find key table n name = some k ↔ k < n ∧ key (table k) = some name := by
  constructor
  · exact find_some
  rintro ⟨hk, hname⟩
  cases hfind : find key table n name with
  | none => exact absurd hname (find_none hfind hk)
  | some j =>
    obtain ⟨hj, hjname⟩ := find_some hfind
    rw [h j hj k hk (hjname.trans hname.symm) (by simp [hjname])]

theorem find_eq_none_iff : find key table n name = none ↔ ∀ k < n, key (table k) ≠ some name := by
  constructor
  · exact fun h k hk => find_none h hk
  · exact fun h => find?_eq_none.mpr fun k hk => by simpa using h k (mem_range.mp hk)

omit [DecidableEq κ] in
theorem free_some (h : free key table n = some k) : k < n ∧ key (table k) = none := by
  have hk := find?_some h
  exact ⟨mem_range.mp (mem_of_find?_eq_some h), by simpa using hk⟩

theorem lookup_congr (h : ∀ j < n, table' j = table j) :
    lookup key table' n = lookup key table n := by
  funext name
  have hfind : find key table' n name = find key table n name :=
    find?_congr fun j hj => by rw [h j (mem_range.mp hj)]
  rw [lookup, lookup, hfind]
  exact Option.map_congr fun j hj => h j (find_some hj).1

variable {e : ε}

/-- A key that is neither the old nor the new key of the slot is looked up as before. -/
theorem lookup_updated_of_ne (hup : Updated table table' n k e) (hold : key (table k) ≠ some name)
    (hnew : key e ≠ some name) : lookup key table' n name = lookup key table n name := by
  have hsame : ∀ j < n, key (table' j) = some name ↔ key (table j) = some name := by
    intro j hj
    rw [hup j hj]
    split
    next heq =>
      subst heq
      exact iff_of_false hnew hold
    next => exact Iff.rfl
  have hfind : find key table' n name = find key table n name :=
    find?_congr fun i hi => by simpa using hsame i (mem_range.mp hi)
  rw [lookup, lookup, hfind]
  apply Option.map_congr
  intro j hj
  obtain ⟨hlt, hname⟩ := find_some hj
  have hne : j ≠ k := by
    rintro rfl
    exact hold hname
  rw [hup j hlt, if_neg hne]

omit [DecidableEq κ] in
theorem Distinct.updated (h : Distinct key table n) (hup : Updated table table' n k e)
    (hnew : ∀ j < n, key (table j) = key e → key e = none) : Distinct key table' n := by
  intro i hi j hj heq hsome
  rw [hup i hi, hup j hj] at heq
  rw [hup i hi] at hsome
  split at heq <;> split at heq
  next hik hjk => exact hik.trans hjk.symm
  next hik hjk => exact absurd (hnew j hj heq.symm) (by rwa [if_pos hik] at hsome)
  next hik hjk =>
    rw [if_neg hik] at hsome
    exact absurd (heq.trans (hnew i hi heq)) hsome
  next hik hjk =>
    rw [if_neg hik] at hsome
    exact h i hi j hj heq hsome

/-! ## Filling a free slot -/

theorem Distinct.fill (h : Distinct key table n) (hup : Updated table table' n k e)
    (hnew : key e = some name) (habsent : find key table n name = none) : Distinct key table' n :=
  h.updated hup fun _ hj heq => absurd (heq.trans hnew) (find_none habsent hj)

/-- **Filling a free slot** adds one key. -/
theorem lookup_fill (h : Distinct key table n) (hk : k < n)
    (hup : Updated table table' n k e) (hfree : key (table k) = none) (hnew : key e = some name)
    (habsent : find key table n name = none) :
    lookup key table' n = update (lookup key table n) name (some e) := by
  funext other
  by_cases heq : other = name
  · subst heq
    have htable : table' k = e := by rw [hup k hk, if_pos rfl]
    have hfind : find key table' n other = some k :=
      (find_eq_some_iff (h.fill hup hnew habsent)).mpr ⟨hk, by rw [htable, hnew]⟩
    rw [update_self, lookup, hfind, Option.map_some, htable]
  rw [update_of_ne heq]
  apply lookup_updated_of_ne hup
  · rw [hfree]
    exact Option.some_ne_none other |>.symm
  · rw [hnew]
    exact fun hname => heq (Option.some.inj hname).symm

/-! ## Clearing a slot -/

omit [DecidableEq κ] in
theorem Distinct.clear (h : Distinct key table n) (hup : Updated table table' n k e)
    (hnew : key e = none) : Distinct key table' n := h.updated hup fun _ _ _ => hnew

/-- **Clearing a slot** removes its key. -/
theorem lookup_clear (h : Distinct key table n) (hk : k < n)
    (hup : Updated table table' n k e) (hold : key (table k) = some name) (hnew : key e = none) :
    lookup key table' n = update (lookup key table n) name none := by
  funext other
  by_cases heq : other = name
  · subst heq
    have hnone : find key table' n other = none := by
      apply find_eq_none_iff.mpr
      intro j hj hname
      rw [hup j hj] at hname
      split at hname
      next => simp [hnew] at hname
      next hjk => exact hjk (h j hj k hk (hname.trans hold.symm) (by simp [hname]))
    rw [update_self, lookup, hnone]
    rfl
  · rw [update_of_ne heq]
    apply lookup_updated_of_ne hup
    · rw [hold]
      exact fun hname => heq (Option.some.inj hname).symm
    · simp [hnew]

end CS162.Library.SlotTable
