import Mathlib.Data.List.Nodup
import Mathlib.Data.List.Perm.Subperm
import Mathlib.Data.Set.Insert
import Mathlib.Tactic.ByContra

/-!
# Free lists of arenas cut into blocks

An arena is cut into blocks of which some are live and the others are free.  The free blocks of
several arenas are on one list.  `Slabs` says that the list has exactly the blocks that are not
live, each once; the lemmas say how it stays so when an arena is added, a block is taken from
the list or given back, and an arena without live blocks is removed.

`owner` finds the arena of a block.
-/

namespace CS162.Library

open List

variable {κ β : Type*} {blocks : κ → List β} {owner : β → κ} {arenas : Set κ}
  {free : List β} {live live' : Set β} {a : κ} {b : β}

/-- The free list of some arenas. -/
structure Slabs (blocks : κ → List β) (owner : β → κ) (arenas : Set κ) (free : List β)
    (live : Set β) : Prop where
  owns : ∀ a ∈ arenas, ∀ b ∈ blocks a, owner b = a
  distinct : ∀ a ∈ arenas, (blocks a).Nodup
  nodup : free.Nodup
  mem_iff : ∀ b, b ∈ free ↔ (∃ a ∈ arenas, b ∈ blocks a) ∧ b ∉ live

namespace Slabs

theorem empty : Slabs blocks owner ∅ [] live where
  owns _ ha := ha.elim
  distinct _ ha := ha.elim
  nodup := nodup_nil
  mem_iff b := by simp

theorem congr_live (h : Slabs blocks owner arenas free live)
    (hlive : ∀ a ∈ arenas, ∀ b ∈ blocks a, b ∈ live ↔ b ∈ live') :
    Slabs blocks owner arenas free live' where
  owns := h.owns
  distinct := h.distinct
  nodup := h.nodup
  mem_iff b := by
    rw [h.mem_iff]
    refine and_congr_right ?_
    rintro ⟨a, ha, hb⟩
    rw [hlive a ha b hb]

theorem mem_blocks (h : Slabs blocks owner arenas free live) (hb : b ∈ free) :
    owner b ∈ arenas ∧ b ∈ blocks (owner b) := by
  obtain ⟨⟨a, ha, hmem⟩, -⟩ := (h.mem_iff b).mp hb
  rw [h.owns a ha b hmem]
  exact ⟨ha, hmem⟩

/-- **A block is taken from the list.** -/
theorem take {rest : List β} (h : Slabs blocks owner arenas (b :: rest) live) :
    Slabs blocks owner arenas rest (insert b live) where
  owns := h.owns
  distinct := h.distinct
  nodup := h.nodup.of_cons
  mem_iff c := by
    have hc := h.mem_iff c
    have hnot := (nodup_cons.mp h.nodup).1
    rw [Set.mem_insert_iff, not_or]
    constructor
    · intro hrest
      have hne : c ≠ b := fun heq => hnot (heq ▸ hrest)
      obtain ⟨hblock, hdead⟩ := hc.mp (mem_cons_of_mem b hrest)
      exact ⟨hblock, hne, hdead⟩
    · rintro ⟨hblock, hne, hdead⟩
      exact (mem_cons.mp (hc.mpr ⟨hblock, hdead⟩)).resolve_left hne

section

variable (h : Slabs blocks owner arenas free live)
include h

/-- **A live block is given back.** -/
theorem give (ha : a ∈ arenas) (hb : b ∈ blocks a)
    (hlive : b ∈ live) : Slabs blocks owner arenas (b :: free) (live \ {b}) where
  owns := h.owns
  distinct := h.distinct
  nodup := nodup_cons.mpr ⟨fun hmem => ((h.mem_iff b).mp hmem).2 hlive, h.nodup⟩
  mem_iff c := by
    rw [mem_cons, h.mem_iff, Set.mem_sdiff, Set.mem_singleton_iff]
    by_cases heq : c = b
    · subst heq
      exact ⟨fun _ => ⟨⟨a, ha, hb⟩, fun hc => hc.2 rfl⟩, fun _ => .inl rfl⟩
    · simp [heq]

/-- **An arena whose blocks are all free is added.** -/
theorem grow (ha : a ∉ arenas) (howns : ∀ b ∈ blocks a, owner b = a) (hdistinct : (blocks a).Nodup)
    (hdead : ∀ b ∈ blocks a, b ∉ live) :
    Slabs blocks owner (insert a arenas) (free ++ blocks a) live where
  owns c hc := by
    rcases hc with rfl | hc
    · exact howns
    · exact h.owns c hc
  distinct c hc := by
    rcases hc with rfl | hc
    · exact hdistinct
    · exact h.distinct c hc
  nodup := by
    refine h.nodup.append hdistinct ?_
    intro b hfree hb
    have hmem := (h.mem_blocks hfree).1
    rw [howns b hb] at hmem
    exact ha hmem
  mem_iff b := by
    rw [mem_append, h.mem_iff]
    constructor
    · rintro (⟨⟨c, hc, hb⟩, hnot⟩ | hb)
      · exact ⟨⟨c, .inr hc, hb⟩, hnot⟩
      · exact ⟨⟨a, .inl rfl, hb⟩, hdead b hb⟩
    · rintro ⟨⟨c, rfl | hc, hb⟩, hnot⟩
      · exact .inr hb
      · exact .inl ⟨⟨c, hc, hb⟩, hnot⟩

/-- **An arena whose blocks are all free is removed.** -/
theorem drop [DecidableEq β] (ha : a ∈ arenas) :
    Slabs blocks owner (arenas \ {a}) (free.diff (blocks a)) live where
  owns c hc := h.owns c hc.1
  distinct c hc := h.distinct c hc.1
  nodup := h.nodup.diff
  mem_iff b := by
    rw [h.nodup.mem_sdiff_iff, h.mem_iff]
    constructor
    · rintro ⟨⟨⟨c, hc, hb⟩, hdead⟩, hnot⟩
      exact ⟨⟨c, ⟨hc, fun heq => hnot (heq ▸ hb)⟩, hb⟩, hdead⟩
    · rintro ⟨⟨c, ⟨hc, hne⟩, hb⟩, hdead⟩
      refine ⟨⟨⟨c, hc, hb⟩, hdead⟩, fun hba => hne ?_⟩
      rw [← h.owns c hc b hb, h.owns a ha b hba]
      rfl

end

variable [DecidableEq κ]

def freeCount (owner : β → κ) (free : List β) (a : κ) : ℕ := free.countP fun b => owner b = a

theorem freeCount_cons (owner : β → κ) (b : β) (free : List β) (a : κ) :
    freeCount owner (b :: free) a = freeCount owner free a + if owner b = a then 1 else 0 := by
  unfold freeCount
  rw [countP_cons]
  simp only [decide_eq_true_eq]

theorem freeCount_append (owner : β → κ) (free other : List β) (a : κ) :
    freeCount owner (free ++ other) a = freeCount owner free a + freeCount owner other a :=
  countP_append

theorem freeCount_of_owner (howns : ∀ b ∈ free, owner b = a) (c : κ) :
    freeCount owner free c = if a = c then free.length else 0 := by
  unfold freeCount
  by_cases heq : a = c
  · rw [if_pos heq, countP_eq_length]
    intro b hb
    rw [howns b hb]
    exact decide_eq_true heq
  · rw [if_neg heq, countP_eq_zero]
    intro b hb
    rw [howns b hb]
    simpa using heq

section

variable (h : Slabs blocks owner arenas free live)
include h

theorem filter_subset : (free.filter fun b => owner b = a) ⊆ blocks a := by
  intro b hb
  obtain ⟨hfree, howner⟩ := mem_filter.mp hb
  rw [← of_decide_eq_true howner]
  exact (h.mem_blocks hfree).2

theorem freeCount_eq [DecidableEq β] (ha : a ∈ arenas) :
    freeCount owner free a = (blocks a).countP fun b => b ∈ free := by
  unfold freeCount
  rw [countP_eq_length_filter, countP_eq_length_filter]
  apply List.Perm.length_eq
  rw [perm_ext_iff_of_nodup (h.nodup.filter _) ((h.distinct a ha).filter _)]
  intro b
  simp only [mem_filter, decide_eq_true_eq]
  constructor
  · rintro ⟨hfree, rfl⟩
    exact ⟨(h.mem_blocks hfree).2, hfree⟩
  · rintro ⟨hb, hfree⟩
    exact ⟨hfree, h.owns a ha b hb⟩

theorem freeCount_le : freeCount owner free a ≤ (blocks a).length := by
  unfold freeCount
  rw [countP_eq_length_filter]
  exact ((h.nodup.filter _).subperm h.filter_subset).length_le

/-- If as many blocks of an arena are free as it has, then all of them are. -/
theorem subset_of_freeCount
    (hcount : (blocks a).length ≤ freeCount owner free a) : blocks a ⊆ free := by
  unfold freeCount at hcount
  rw [countP_eq_length_filter] at hcount
  have hperm := ((h.nodup.filter _).subperm h.filter_subset).perm_of_length_le hcount
  intro b hb
  exact mem_of_mem_filter (hperm.mem_iff.mpr hb)

theorem freeCount_drop [DecidableEq β] (ha : a ∈ arenas)
    {c : κ} (hne : c ≠ a) : freeCount owner (free.diff (blocks a)) c = freeCount owner free c := by
  unfold freeCount
  rw [h.nodup.sdiff_eq_filter, countP_filter]
  refine countP_congr fun b _ => ?_
  simp only [Bool.and_eq_true, decide_eq_true_eq, and_iff_left_iff_imp]
  rintro rfl hb
  exact hne (h.owns a ha b hb)

end

end Slabs

end CS162.Library
