import Mathlib.Logic.Function.Basic
import Mathlib.Data.Nat.Notation

/-!
# Two-level tables in memory

A directory has entries, an entry may name a table, and a table has words.  Directory and tables
are pages of one memory; `Geometry` says where the words of a page are.  `lookup` follows an
entry to its table and reads a word of it.

In a `Tidy` directory the tables are pages of their own and no table is named twice.  Then a
write to a word of a table changes one value of `lookup`, and a new table of blank words
changes no other.
-/

namespace CS162.Library

open Function

variable {α ω : Type*}

/-- Where the words of a page are. -/
structure Geometry (α : Type*) where
  slot : ℕ → ℕ → α
  Page : ℕ → Prop
  width : ℕ
  inj : ∀ {p q i j : ℕ}, Page p → Page q → i < width → j < width → slot p i = slot q j →
    p = q ∧ i = j

namespace Geometry

variable (G : Geometry α) (table : ω → Option ℕ)

/-- The word that is found through entry `i` of the directory at place `j` of its table. -/
def lookup (memory : α → ω) (root i j : ℕ) : Option ω :=
  (table (memory (G.slot root i))).map fun t => memory (G.slot t j)

/-- The tables are pages other than the directory, each named by one entry. -/
structure Tidy (memory : α → ω) (root : ℕ) : Prop where
  isPage : G.Page root
  page : ∀ i < G.width, ∀ t, table (memory (G.slot root i)) = some t → G.Page t ∧ t ≠ root
  inj : ∀ i < G.width, ∀ j < G.width, ∀ t, table (memory (G.slot root i)) = some t →
    table (memory (G.slot root j)) = some t → i = j

variable {G table} {memory memory' : α → ω} {root i j k t : ℕ} {w : ω}

theorem lookup_congr (hroot : memory' (G.slot root i) = memory (G.slot root i))
    (hword : ∀ t, table (memory (G.slot root i)) = some t →
      memory' (G.slot t j) = memory (G.slot t j)) :
    G.lookup table memory' root i j = G.lookup table memory root i j := by
  unfold lookup
  rw [hroot]
  cases htable : table (memory (G.slot root i)) with
  | none => rfl
  | some t => rw [Option.map_some, Option.map_some, hword t htable]

theorem Tidy.congr (h : G.Tidy table memory root)
    (hroot : ∀ i < G.width, memory' (G.slot root i) = memory (G.slot root i)) :
    G.Tidy table memory' root := by
  refine ⟨h.isPage, ?_, ?_⟩
  · intro i hi t ht
    rw [hroot i hi] at ht
    exact h.page i hi t ht
  · intro i hi j hj t ht ht'
    rw [hroot i hi] at ht
    rw [hroot j hj] at ht'
    exact h.inj i hi j hj t ht ht'

/-! ## Writing a word -/

section Store

variable [DecidableEq α] (h : G.Tidy table memory root) (hi : i < G.width) (hj : j < G.width)
  (ht : table (memory (G.slot root i)) = some t)

include h hi hj ht

theorem Tidy.entry_store (hk : k < G.width) :
    update memory (G.slot t j) w (G.slot root k) = memory (G.slot root k) := by
  obtain ⟨hpage, hne⟩ := h.page i hi t ht
  rw [update_of_ne]
  intro heq
  exact hne (G.inj h.isPage hpage hk hj heq).1.symm

/-- **A write changes one value.** -/
theorem Tidy.lookup_store {i' j' : ℕ} (hi' : i' < G.width) (hj' : j' < G.width) :
    G.lookup table (update memory (G.slot t j) w) root i' j' =
      if i' = i ∧ j' = j then some w else G.lookup table memory root i' j' := by
  obtain ⟨hpage, hne⟩ := h.page i hi t ht
  by_cases hsame : i' = i ∧ j' = j
  · obtain ⟨rfl, rfl⟩ := hsame
    rw [if_pos ⟨rfl, rfl⟩, lookup, h.entry_store hi hj ht hi', ht, Option.map_some, update_self]
  rw [if_neg hsame]
  apply lookup_congr (h.entry_store hi hj ht hi')
  intro t' ht'
  rw [update_of_ne]
  intro heq
  obtain ⟨rfl, rfl⟩ := G.inj (h.page i' hi' t' ht').1 hpage hj' hj heq
  exact hsame ⟨h.inj i' hi' i hi t' ht' ht, rfl⟩

end Store

/-! ## A new table -/

section Attach

variable (h : G.Tidy table memory root) (hne : t ≠ root)
  (hfresh : ∀ k < G.width, table (memory (G.slot root k)) ≠ some t)
  (hentry : table (memory' (G.slot root i)) = some t)
  (hother : ∀ p, G.Page p → p ≠ t → ∀ k < G.width, ¬ (p = root ∧ k = i) →
    memory' (G.slot p k) = memory (G.slot p k))

include h hne hfresh hentry hother

theorem Tidy.attach (hpage : G.Page t) : G.Tidy table memory' root := by
  have hroot : ∀ k < G.width, k ≠ i → memory' (G.slot root k) = memory (G.slot root k) :=
    fun k hk hki => hother root h.isPage hne.symm k hk fun hboth => hki hboth.2
  refine ⟨h.isPage, ?_, ?_⟩
  · intro k hk t' ht'
    by_cases hki : k = i
    · rw [hki, hentry] at ht'
      cases ht'
      exact ⟨hpage, hne⟩
    · rw [hroot k hk hki] at ht'
      exact h.page k hk t' ht'
  intro k hk l hl t' hkt hlt
  by_cases hki : k = i
  · by_cases hli : l = i
    · rw [hki, hli]
    · rw [hki, hentry] at hkt
      rw [hroot l hl hli, ← hkt] at hlt
      exact absurd hlt (hfresh l hl)
  by_cases hli : l = i
  · rw [hli, hentry] at hlt
    rw [hroot k hk hki, ← hlt] at hkt
    exact absurd hkt (hfresh k hk)
  · rw [hroot k hk hki] at hkt
    rw [hroot l hl hli] at hlt
    exact h.inj k hk l hl t' hkt hlt

/-- **A new table** is seen through its entry only. -/
theorem Tidy.lookup_attach (hblank : ∀ k < G.width, memory' (G.slot t k) = w) {i' j' : ℕ}
    (hi' : i' < G.width) (hj' : j' < G.width) :
    G.lookup table memory' root i' j' =
      if i' = i then some w else G.lookup table memory root i' j' := by
  by_cases hsame : i' = i
  · rw [if_pos hsame, hsame, lookup, hentry, Option.map_some, hblank j' hj']
  rw [if_neg hsame]
  apply lookup_congr
  · exact hother root h.isPage hne.symm i' hi' fun hboth => hsame hboth.2
  · intro t' ht'
    obtain ⟨hpage', hne'⟩ := h.page i' hi' t' ht'
    refine hother t' hpage' ?_ j' hj' fun hboth => hne' hboth.1
    intro heq
    exact hfresh i' hi' (heq ▸ ht')

end Attach

/-! ## A copy of the directory -/

theorem Tidy.copy (h : G.Tidy table memory root) {root' : ℕ} (hpage : G.Page root')
    (hfresh : ∀ k < G.width, table (memory (G.slot root k)) ≠ some root')
    (hcopy : ∀ k < G.width, memory' (G.slot root' k) = memory (G.slot root k)) :
    G.Tidy table memory' root' := by
  refine ⟨hpage, ?_, ?_⟩
  · intro i hi t ht
    rw [hcopy i hi] at ht
    exact ⟨(h.page i hi t ht).1, fun heq => hfresh i hi (heq ▸ ht)⟩
  · intro i hi j hj t hit hjt
    rw [hcopy i hi] at hit
    rw [hcopy j hj] at hjt
    exact h.inj i hi j hj t hit hjt

end Geometry

end CS162.Library
