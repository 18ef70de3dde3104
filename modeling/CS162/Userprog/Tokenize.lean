import CS162.Library.Strings
import CS162.Threads.Vaddr

/-!
# Cutting up a command line

`strtok_r` of `lib/string.c` with the delimiter `" "`, on the page that `process_execute`
has copied the command line to.  Its calls cut the words of the line out one after the
other: each puts a NUL behind the word it returns and leaves the words before it alone.
-/

namespace CS162

open Library List

/-- `' '`, the only delimiter of `tokenize`. -/
abbrev space : UInt8 := 32

/-- `strlcpy (fn_copy, file_name, PGSIZE)`; what lies behind the NUL is never read. -/
def copyLine (line : Bytes) : Bytes := line.take (pgSize - 1) ++ [0]

/-- Where a word starts: the delimiters from `s` on are skipped. -/
def skipDelimiters (page : Bytes) (s : ℕ) : ℕ :=
  s + ((page.drop s).takeWhile (· = space)).length

/-- Where the word at `s` ends. -/
def skipWord (page : Bytes) (s : ℕ) : ℕ :=
  s + ((page.drop s).takeWhile fun b => decide (b ≠ space ∧ b ≠ 0)).length

/-- `strtok_r (s, " ", &save_ptr)`: the word found, the page, and the new `save_ptr`. -/
def strtokR (page : Bytes) (s : ℕ) : Option ℕ × Bytes × ℕ :=
  let token := skipDelimiters page s
  if page.getD token 0 = 0 then (none, page, token)
  else
    let last := skipWord page token
    if page.getD last 0 ≠ 0 then (some token, page.set last 0, last + 1)
    else (some token, page, last)

/-! ## One call -/

theorem takeWhile_concat {p : UInt8 → Bool} {b : UInt8} (hb : p b = false) (l : Bytes) :
    (l ++ [b]).takeWhile p = l.takeWhile p := by
  induction l with
  | nil => simp [hb]
  | cons c l ih =>
    rw [cons_append, takeWhile_cons, takeWhile_cons, ih]

/-- What one call of `strtok_r` leaves behind when it finds a word: the word stands before
the new `save_ptr`, what was scanned before is unchanged, and the rest is still to come. -/
structure Cut (page : Bytes) (s : ℕ) (w : Bytes) (ws : List Bytes) (page' : Bytes)
    (token save : ℕ) : Prop where
  eq : strtokR page s = (some token, page', save)
  string : StringAt page' save token w
  before : page'.take (s + 1) = page.take (s + 1)
  le : s ≤ save
  rest : ∃ rest, page'.drop save = rest ++ [0] ∧ 0 ∉ rest ∧ words space rest = ws

theorem cut_word {page w tail : Bytes} {s token : ℕ} (hle : s ≤ token)
    (htoken : skipDelimiters page s = token) (hfrom : page.drop token = w ++ tail ++ [0])
    (hne : w ≠ []) (hw : ∀ b ∈ w, b ≠ space ∧ b ≠ 0) (hnul : 0 ∉ tail)
    (htail : ∀ b ∈ tail.head?, b = space) :
    ∃ page' save, Cut page s w (words space tail) page' token save := by
  have hlen : 0 < w.length := length_pos_of_ne_nil hne
  have hnulw : 0 ∉ w := fun hmem => (hw 0 hmem).2 rfl
  have hstart : page.getD token 0 ≠ 0 := by
    obtain ⟨b, w', rfl⟩ := exists_cons_of_ne_nil hne
    have hget : page.getD token 0 = (page.drop token).getD 0 0 := by simp [getD_eq_getElem?_getD]
    rw [hget, hfrom]
    exact (hw b mem_cons_self).2
  have hlast : skipWord page token = token + w.length := by
    rw [skipWord, hfrom, takeWhile_concat (by decide), takeWhile_append_of_pos]
    · cases tail with
      | nil => simp
      | cons b tail =>
        obtain rfl := htail b (by simp)
        simp
    · intro b hb
      simpa using hw b hb
  have hend : page.drop (token + w.length) = tail ++ [0] := by
    rw [← drop_drop, hfrom, append_assoc, drop_left]
  have hget : page.getD (token + w.length) 0 = (tail ++ [0]).getD 0 0 := by
    rw [← hend]
    simp [getD_eq_getElem?_getD]
  cases tail with
  | nil =>
    refine ⟨page, token + w.length, ?_, ⟨hnulw, [], ?_⟩, rfl, by omega, [], ?_, by simp, rfl⟩
    · have hzero : page.getD (token + w.length) 0 = 0 := hget
      simp only [strtokR, htoken, if_neg hstart, hlast, hzero, ne_eq, not_true_eq_false, if_false]
    · rw [drop_take, hfrom, append_nil, take_of_length_le]
      simp
      omega
    · exact hend
  | cons b tail =>
    obtain rfl := htail b (by simp)
    refine ⟨page.set (token + w.length) 0, token + w.length + 1, ?_,
      ⟨hnulw, (tail ++ [0]).take 1, ?_⟩, ?_, by omega, tail, ?_, ?_, ?_⟩
    · have hspace : page.getD (token + w.length) 0 ≠ 0 := by
        rw [hget]
        exact show space ≠ 0 by decide
      rw [strtokR, htoken, if_neg hstart, hlast, if_pos hspace]
    · rw [drop_take, drop_set, if_neg (by omega), hfrom]
      have hset : (w ++ space :: tail ++ [0]).set (token + w.length - token) 0 =
          w ++ 0 :: (tail ++ [0]) := by
        simp
      have htake : token + w.length + 1 + 1 - token = w.length + 2 := by omega
      rw [hset, htake, take_append]
      simp
    · exact take_set_of_le (by omega)
    · rw [drop_set_of_lt (by omega), ← drop_drop, hend]
      rfl
    · exact fun hmem => hnul (mem_cons_of_mem _ hmem)
    · rw [words_sep]

theorem strtokR_spec {page rest : Bytes} {s : ℕ} (hdrop : page.drop s = rest ++ [0])
    (hnul : 0 ∉ rest) :
    (words space rest = [] ∧ ∃ save, strtokR page s = (none, page, save)) ∨
      ∃ w ws page' token save, words space rest = w :: ws ∧ Cut page s w ws page' token save := by
  obtain ⟨gap, body, hsplit, hgap, hbody⟩ : ∃ gap body, rest = gap ++ body ∧
      rest.takeWhile (· = space) = gap ∧ ∀ b ∈ body.head?, b ≠ space := by
    refine ⟨_, rest.dropWhile (· = space), (takeWhile_append_dropWhile).symm, rfl, ?_⟩
    intro b hb
    have hhead := head?_dropWhile_not (fun b => decide (b = space)) rest
    rw [Option.mem_def.mp hb] at hhead
    simpa using hhead
  have hall : ∀ b ∈ gap, b = space := by
    intro b hb
    rw [← hgap] at hb
    simpa using mem_takeWhile_imp hb
  have htoken : skipDelimiters page s = s + gap.length := by
    rw [skipDelimiters, hdrop, takeWhile_concat (by decide), hgap]
  have hfrom : page.drop (s + gap.length) = body ++ [0] := by
    rw [← drop_drop, hdrop, hsplit, append_assoc, drop_left]
  have hget : page.getD (s + gap.length) 0 = (body ++ [0]).getD 0 0 := by
    rw [← hfrom]
    simp [getD_eq_getElem?_getD]
  by_cases hnil : body = []
  · left
    subst hnil
    rw [append_nil] at hsplit
    refine ⟨?_, s + gap.length, ?_⟩
    · rw [hsplit, ← append_nil gap, words_gap hall]
      rfl
    · have hzero : page.getD (s + gap.length) 0 = 0 := hget
      simp only [strtokR, htoken, hzero, if_true]
  right
  have hnulb : 0 ∉ body := fun hmem => hnul (hsplit ▸ mem_append_right _ hmem)
  obtain ⟨w, tail, hcut, hw, htail⟩ : ∃ w tail, body = w ++ tail ∧ (∀ b ∈ w, b ≠ space) ∧
      ∀ b ∈ tail.head?, b = space := by
    refine ⟨_, _, (@takeWhile_append_dropWhile _ (fun b => decide (b ≠ space)) body).symm, ?_, ?_⟩
    · intro b hb
      simpa using mem_takeWhile_imp hb
    · intro b hb
      have hhead := head?_dropWhile_not (fun b => decide (b ≠ space)) body
      rw [Option.mem_def.mp hb] at hhead
      simpa using hhead
  have hne : w ≠ [] := by
    rintro rfl
    obtain ⟨b, body', rfl⟩ := exists_cons_of_ne_nil hnil
    rw [nil_append] at hcut
    exact hbody b (by simp) (htail b (by rw [← hcut]; simp))
  have hsep : space ∉ w := fun hmem => hw space hmem rfl
  obtain ⟨page', save, h⟩ := cut_word (Nat.le_add_right s gap.length) htoken (hcut ▸ hfrom) hne
    (fun b hb => ⟨hw b hb, fun hzero => hnulb (by rw [hcut, ← hzero]; simp [hb])⟩)
    (fun hmem => hnulb (by rw [hcut]; exact mem_append_right _ hmem)) htail
  refine ⟨w, words space tail, page', s + gap.length, save, ?_, h⟩
  rw [hsplit, words_gap hall, hcut, words_word hsep hne htail]

end CS162
