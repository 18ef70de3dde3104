import Mathlib.Data.List.TakeWhile
import Mathlib.Data.UInt

/-!
# Strings in memory

* `stringAt` reads the NUL-terminated string that starts at an offset of a block of bytes,
  and `StringAt` says that it ends before a given offset, so that a write behind that
  offset does not change it.
* `words` cuts a list at a separator and drops the empty pieces.
-/

namespace CS162.Library

open List

/-- A block of memory. -/
abbrev Bytes := List UInt8

/-! ## NUL-terminated strings -/

/-- The NUL-terminated string at an offset. -/
def stringAt (memory : Bytes) (offset : ℕ) : Bytes := (memory.drop offset).takeWhile (· ≠ 0)

/-- The string at `offset` is `w`, and its NUL is not behind `limit`. -/
def StringAt (memory : Bytes) (limit offset : ℕ) (w : Bytes) : Prop :=
  0 ∉ w ∧ ∃ tail, (memory.take (limit + 1)).drop offset = w ++ 0 :: tail

theorem takeWhile_string {w tail : Bytes} (h : 0 ∉ w) : (w ++ 0 :: tail).takeWhile (· ≠ 0) = w := by
  rw [takeWhile_append_of_pos]
  · simp
  · intro b hb
    simpa using ne_of_mem_of_not_mem hb h

theorem StringAt.stringAt_eq {memory : Bytes} {limit offset : ℕ} {w : Bytes}
    (h : StringAt memory limit offset w) : stringAt memory offset = w := by
  obtain ⟨hnul, tail, htake⟩ := h
  rw [drop_take] at htake
  have hdrop : memory.drop offset =
      w ++ 0 :: (tail ++ (memory.drop offset).drop (limit + 1 - offset)) := by
    conv_lhs => rw [← take_append_drop (limit + 1 - offset) (memory.drop offset), htake]
    simp
  rw [stringAt, hdrop, takeWhile_string hnul]

/-- A string stays as it is when only what is behind its limit changes. -/
theorem StringAt.mono {memory memory' : Bytes} {limit limit' offset : ℕ} {w : Bytes}
    (h : StringAt memory limit offset w) (hlimit : limit ≤ limit')
    (hsame : memory'.take (limit + 1) = memory.take (limit + 1)) :
    StringAt memory' limit' offset w := by
  obtain ⟨hnul, tail, htake⟩ := h
  obtain ⟨more, hsplit⟩ : ∃ more, memory'.take (limit' + 1) = memory.take (limit + 1) ++ more := by
    refine ⟨(memory'.take (limit' + 1)).drop (limit + 1), ?_⟩
    conv_lhs => rw [← take_append_drop (limit + 1) (memory'.take (limit' + 1))]
    rw [take_take, min_eq_left (by omega), hsame]
  have hoffset : offset ≤ (memory.take (limit + 1)).length := by
    by_contra hlt
    rw [drop_eq_nil_of_le (by omega)] at htake
    simp at htake
  refine ⟨hnul, tail ++ more, ?_⟩
  rw [hsplit, drop_append_of_le_length hoffset, htake]
  simp

/-! ## Words -/

section Words

variable {α : Type*} [DecidableEq α]

/-- The words of a list after a part of a word that has already been read. -/
def wordsFrom (sep : α) : List α → List α → List (List α)
  | part, [] => if part = [] then [] else [part]
  | part, b :: rest =>
    if b = sep then
      if part = [] then wordsFrom sep [] rest else part :: wordsFrom sep [] rest
    else wordsFrom sep (part ++ [b]) rest

/-- The maximal pieces of a list without the separator. -/
def words (sep : α) (l : List α) : List (List α) := wordsFrom sep [] l

variable {sep : α}

theorem words_sep (l : List α) : words sep (sep :: l) = words sep l := by
  simp [words, wordsFrom]

theorem words_gap {gap : List α} (h : ∀ b ∈ gap, b = sep) (l : List α) :
    words sep (gap ++ l) = words sep l := by
  induction gap with
  | nil => rfl
  | cons b gap ih =>
    obtain rfl := h b mem_cons_self
    rw [cons_append, words_sep]
    exact ih fun b hb => h b (mem_cons_of_mem _ hb)

theorem wordsFrom_word {part w : List α} (hw : sep ∉ w) (hne : part ++ w ≠ []) {rest : List α}
    (hrest : ∀ b ∈ rest.head?, b = sep) :
    wordsFrom sep part (w ++ rest) = (part ++ w) :: words sep rest := by
  induction w generalizing part with
  | nil =>
    rw [append_nil] at hne ⊢
    cases rest with
    | nil => simp [wordsFrom, words, hne]
    | cons b rest =>
      obtain rfl := hrest b (by simp)
      simp [wordsFrom, hne, words]
  | cons b w ih =>
    have hb : b ≠ sep := fun heq => hw (heq ▸ mem_cons_self)
    have hrec := @ih (part ++ [b]) (fun hmem => hw (mem_cons_of_mem b hmem)) (by simp)
    rw [cons_append, wordsFrom, if_neg hb, hrec]
    simp

theorem words_word {w : List α} (hw : sep ∉ w) (hne : w ≠ []) {rest : List α}
    (hrest : ∀ b ∈ rest.head?, b = sep) : words sep (w ++ rest) = w :: words sep rest :=
  @wordsFrom_word _ _ sep [] w hw hne rest hrest

theorem subset_of_mem_wordsFrom {part l w : List α} (hw : w ∈ wordsFrom sep part l) :
    w ⊆ part ++ l := by
  induction l generalizing part with
  | nil =>
    rw [wordsFrom] at hw
    split at hw
    · cases hw
    · simp [mem_singleton.mp hw]
  | cons c l ih =>
    have hrest : w ∈ wordsFrom sep [] l → w ⊆ part ++ c :: l := fun hrest =>
      Subset.trans (ih hrest) (subset_append_of_subset_right _ (subset_cons_self c l))
    rw [wordsFrom] at hw
    split at hw
    · split at hw
      · exact hrest hw
      · rcases mem_cons.mp hw with rfl | hw
        · exact subset_append_left _ _
        · exact hrest hw
    · simpa using ih hw

theorem mem_of_mem_words {l w : List α} (hw : w ∈ words sep l) : ∀ b ∈ w, b ∈ l :=
  fun _ hb => subset_of_mem_wordsFrom hw hb

theorem wordsFrom_append {part a b : List α} (hb : ∀ c ∈ b.head?, c = sep) :
    wordsFrom sep part (a ++ b) = wordsFrom sep part a ++ words sep b := by
  induction a generalizing part with
  | nil =>
    cases b with
    | nil => exact (append_nil _).symm
    | cons c b =>
      obtain rfl := hb c (by simp)
      by_cases hpart : part = [] <;> simp [wordsFrom, words, hpart]
  | cons c a ih =>
    simp only [cons_append, wordsFrom]
    split
    · split
      · exact ih
      · rw [ih, cons_append]
    · exact ih

theorem words_append (a : List α) {b : List α} (hb : ∀ c ∈ b.head?, c = sep) :
    words sep (a ++ b) = words sep a ++ words sep b := wordsFrom_append hb

theorem wordsFrom_eq_filter_splitOn (part l : List α) :
    wordsFrom sep part l = ((l.splitOn sep).modifyHead (part ++ ·)).filter (· ≠ []) := by
  induction l generalizing part with
  | nil =>
    by_cases hpart : part = [] <;> simp [wordsFrom, hpart]
  | cons c l ih =>
    have hsplit : (c :: l).splitOn sep = if c = sep then [] :: l.splitOn sep
        else (l.splitOn sep).modifyHead (cons c) := by
      simp [splitOn, splitOnP_cons_eq_if_modifyHead]
    rw [hsplit, wordsFrom]
    by_cases hc : c = sep
    · rw [if_pos hc, if_pos hc, ih]
      have hsame : (l.splitOn sep).modifyHead ([] ++ ·) = l.splitOn sep := congrFun modifyHead_id _
      rw [hsame]
      by_cases hpart : part = [] <;> simp [hpart]
    · rw [if_neg hc, if_neg hc, ih, modifyHead_modifyHead]
      congr 2
      funext w
      simp

/-- The words are the pieces between separators that are not empty. -/
theorem words_eq_filter_splitOn (l : List α) : words sep l = (l.splitOn sep).filter (· ≠ []) := by
  have hsame : (l.splitOn sep).modifyHead ([] ++ ·) = l.splitOn sep := congrFun modifyHead_id _
  rw [words, wordsFrom_eq_filter_splitOn, hsame]

end Words

end CS162.Library
