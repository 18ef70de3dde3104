import CS162.Library.Strings
import CS162.Block

/-!
# The words of a shell line (`hw1/tokenizer.c`)

`tokenize` collects the bytes of a word in a buffer of 4096 bytes.  `wordsFrom` cuts a line without
a buffer and says what its words are, and `Quoted` how words are written.

## Strategy

One round of the loop takes the words it has pushed off the front of `wordsFrom` (`exists_round`),
so the loop returns `wordsFrom` of the line, unless a word gets too long.  The counter of the loop
has 32 bits, and a line of 4 GB or more is longer than any value it takes.  What the loop then goes
through is `wrapped`; it has no end, but a word of it can get too long.
-/

namespace CS162.Shell

open Library (Bytes ok_bind)
open List

/-- `MODE_NORMAL`, `MODE_SQUOTE` and `MODE_DQUOTE`. -/
inductive Mode where
  | normal
  | squote
  | dquote

inductive Reaction where
  | enter (mode : Mode)
  | escape
  | endWord
  | put

def isspace (c : UInt8) : Bool := c = 32 || 9 ≤ c && c ≤ 13

/-- What `tokenize` does with a byte. -/
def react : Mode → UInt8 → Reaction
  | .normal, c =>
    if c = 39 then .enter .squote
    else if c = 34 then .enter .dquote
    else if c = 92 then .escape
    else if isspace c then .endWord
    else .put
  | .squote, c => if c = 39 then .enter .normal else if c = 92 then .escape else .put
  | .dquote, c => if c = 34 then .enter .normal else if c = 92 then .escape else .put

/-- The variables of `tokenize`; `token` has the first `n` bytes of the buffer. -/
structure Scan where
  i : ℕ
  mode : Mode
  token : Bytes
  tokens : List Bytes

/-- `line[i]`; a NUL stands behind the line. -/
def read (line : Bytes) (i : ℕ) : Except Fault UInt8 :=
  if i ≤ line.length then .ok (line.getD i 0) else .error (.undefined "line[i]")

/-- `token[n++] = c`.  Index 4095 is inside the buffer too, but the count must not become 4096. -/
def append (token : Bytes) (c : UInt8) : Except Fault Bytes :=
  if token.length < 4095 then .ok (token ++ [c]) else .error (.undefined "token[n++]")

/-- `copy_word` and `vector_push`, which are not to be called without a word. -/
def push (token : Bytes) (tokens : List Bytes) : Except Fault (List Bytes) :=
  if 0 < token.length ∧ token.length < 4096 then .ok (tokens ++ [token])
  else .error (.undefined "source[n]")

/-- One round of the loop, up to the check of `n`. -/
def body (line : Bytes) (s : Scan) : Except Fault Scan := do
  let c ← read line s.i
  match react s.mode c with
  | .enter mode => return { s with mode := mode }
  | .escape =>
    let i := (s.i + 1) % 2 ^ 32
    if i < line.length then return { s with i := i, token := ← append s.token (← read line i) }
    else return s
  | .endWord =>
    if 0 < s.token.length then return { s with token := [], tokens := ← push s.token s.tokens }
    else return s
  | .put => return { s with token := ← append s.token c }

def tokenizeLoop (line : Bytes) : ℕ → Scan → Except Fault (List Bytes)
  | 0, _ => .error .outOfFuel
  | fuel + 1, s =>
    if s.i < line.length then do
      let s ← body line s
      if 4096 ≤ s.token.length + 1 then .error (.panic "abort")
      else tokenizeLoop line fuel { s with i := (s.i + 1) % 2 ^ 32 }
    else if 0 < s.token.length then push s.token s.tokens
    else .ok s.tokens

/-- `tokenize` on a line without NULs, for at most `fuel` rounds. -/
def tokenize (fuel : ℕ) (line : Bytes) : Except Fault (List Bytes) :=
  tokenizeLoop line fuel ⟨0, .normal, [], []⟩

/-- The words of a line of which a part of a word has been read. -/
def wordsFrom : Mode → Bytes → Bytes → List Bytes
  | _, word, [] => if word = [] then [] else [word]
  | mode, word, c :: rest =>
    match react mode c, rest with
    | .enter mode, rest => wordsFrom mode word rest
    | .escape, [] => wordsFrom mode word []
    | .escape, d :: rest => wordsFrom mode (word ++ [d]) rest
    | .endWord, rest => if word = [] then wordsFrom mode [] rest else word :: wordsFrom mode [] rest
    | .put, rest => wordsFrom mode (word ++ [c]) rest
termination_by _ _ rest => rest.length

/-- One of these words has 4095 bytes or more. -/
def HasLong (mode : Mode) (word rest : Bytes) : Prop :=
  ∃ w ∈ wordsFrom mode word rest, 4095 ≤ w.length

/-- The first bytes that a counter of 32 bits finds in a line. -/
def wrapped (line : Bytes) (n : ℕ) : Bytes := (range n).map fun j => line.getD (j % 2 ^ 32) 0

/-- `tokenize` returns the words of the line, or aborts if one of them has 4095 bytes or more. -/
def Tokenizes (line : Bytes) : Prop :=
  ∃ fuel, tokenize fuel line = if ∀ w ∈ wordsFrom .normal [] line, w.length < 4095 then
    .ok (wordsFrom .normal [] line) else .error (.panic "abort")

variable {line text word rest w : Bytes} {s : Scan} {mode mode' : Mode} {c d : UInt8} {j n : ℕ}

/-! ## One round -/

theorem wordsFrom_enter (h : react mode c = .enter mode') :
    wordsFrom mode word (c :: rest) = wordsFrom mode' word rest := by
  simp [wordsFrom, h]

theorem wordsFrom_escape (h : react mode c = .escape) :
    wordsFrom mode word (c :: d :: rest) = wordsFrom mode (word ++ [d]) rest := by
  simp [wordsFrom, h]

theorem wordsFrom_put (h : react mode c = .put) :
    wordsFrom mode word (c :: rest) = wordsFrom mode (word ++ [c]) rest := by
  simp [wordsFrom, h]

theorem wordsFrom_endWord (h : react mode c = .endWord) :
    wordsFrom mode word (c :: rest) = wordsFrom mode word [] ++ wordsFrom mode [] rest := by
  by_cases hnil : word = [] <;> simp [wordsFrom, h, hnil]

/-- A word that is too long stays too long. -/
theorem hasLong_of_le (hlong : 4095 ≤ word.length) : HasLong mode word rest := by
  unfold HasLong
  fun_induction wordsFrom mode word rest with
  | case1 => cases hlong
  | case2 | case7 => exact ⟨_, mem_cons_self, hlong⟩
  | case3 _ _ _ _ _ _ ih | case4 _ _ _ _ ih | case6 _ _ _ _ ih => exact ih hlong
  | case5 _ _ _ _ _ _ ih | case8 _ _ _ _ _ ih => exact ih (by simp; omega)

theorem ne_nil_of_mem_wordsFrom (hw : w ∈ wordsFrom mode word rest) : w ≠ [] := by
  fun_induction wordsFrom mode word rest with
  | case1 => cases hw
  | case2 _ _ hne => rwa [mem_singleton.mp hw]
  | case7 _ _ _ _ _ hne ih =>
    rcases mem_cons.mp hw with rfl | hw
    · exact hne
    · exact ih hw
  | _ => rename_i ih; exact ih hw

theorem not_hasLong_nil (hshort : word.length < 4095) : ¬ HasLong mode word [] := by
  rintro ⟨w, hw, hle⟩
  unfold wordsFrom at hw
  split at hw
  · cases hw
  · rw [mem_singleton.mp hw] at hle
    omega

/-- What one round at place `j` of a text leaves of the words, and how far it gets. -/
structure Round (line text : Bytes) (s s' : Scan) (j j' : ℕ) (done : List Bytes) : Prop where
  eq : body line s = .ok s'
  le : j ≤ j'
  le_succ : j' ≤ j + 1
  lt : j' < text.length
  place : s'.i = j' % 2 ^ 32
  tokens : s'.tokens = s.tokens ++ done
  short : ∀ w ∈ done, w.length < 4095
  words : wordsFrom s.mode s.token (text.drop j) =
    done ++ wordsFrom s'.mode s'.token (text.drop (j' + 1))

/-- The text is what the counter finds in the line; it may be the line itself.  A backslash at its
end must be at the end of the line. -/
theorem exists_round (htext : ∀ k (hk : k < text.length), read line (k % 2 ^ 32) = .ok text[k])
    (hs : s.i = j % 2 ^ 32) (hj : j < text.length) (hn : s.token.length < 4095)
    (hend : react s.mode text[j] = .escape →
      ((j + 1) % 2 ^ 32 < line.length ↔ j + 1 < text.length)) :
    ∃ s' j' done, Round line text s s' j j' done := by
  have hdrop := drop_eq_getElem_cons hj
  -- most rounds push nothing and take one byte
  have hquiet : ∀ mode token, body line s = .ok { s with mode := mode, token := token } →
      wordsFrom s.mode s.token (text[j] :: text.drop (j + 1)) =
        wordsFrom mode token (text.drop (j + 1)) → ∃ s' j' done, Round line text s s' j j' done :=
    fun mode token heq hwords =>
      ⟨_, j, [], heq, le_rfl, by omega, hj, hs, by simp, nofun, hdrop ▸ hwords⟩
  have hmod : (s.i + 1) % 2 ^ 32 = (j + 1) % 2 ^ 32 := by rw [hs, Nat.mod_add_mod]
  have hread : read line s.i = .ok text[j] := hs ▸ htext j hj
  unfold body at hquiet
  simp only [hread, ok_bind, hmod] at hquiet
  cases hreact : react s.mode text[j] with
  | enter mode => exact hquiet mode s.token (by rw [hreact]; rfl) (wordsFrom_enter hreact)
  | escape =>
    by_cases hnext : j + 1 < text.length
    · refine ⟨⟨(j + 1) % 2 ^ 32, s.mode, s.token ++ [text[j + 1]], s.tokens⟩, j + 1, [], ?_,
        by omega, le_rfl, hnext, rfl, by simp, nofun, ?_⟩
      · simp only [body, hread, ok_bind, hreact, hmod, if_pos ((hend hreact).mpr hnext),
          htext _ hnext, append, if_pos hn]
        rfl
      · rw [hdrop, drop_eq_getElem_cons hnext, wordsFrom_escape hreact, nil_append]
    · refine hquiet s.mode s.token (by rw [hreact, if_neg (mt (hend hreact).mp hnext)]; rfl) ?_
      rw [drop_eq_nil_of_le (by omega)]
      simp [wordsFrom, hreact]
  | endWord =>
    by_cases hpos : 0 < s.token.length
    · refine ⟨{ s with token := [], tokens := s.tokens ++ [s.token] }, j, [s.token], ?_, le_rfl,
        by omega, hj, hs, rfl, by simpa, ?_⟩
      · have hpush : push s.token s.tokens = .ok _ := if_pos ⟨hpos, by omega⟩
        simp only [body, hread, ok_bind, hreact, if_pos hpos, hpush]
        rfl
      · rw [hdrop, wordsFrom_endWord hreact, wordsFrom, if_neg (ne_nil_of_length_pos hpos)]
    · have hnil : s.token = [] := by simpa using hpos
      refine hquiet s.mode s.token (by rw [hreact, if_neg hpos]; rfl) ?_
      rw [wordsFrom_endWord hreact, hnil, wordsFrom, if_pos rfl, nil_append]
  | put =>
    refine hquiet s.mode (s.token ++ [text[j]]) ?_ (wordsFrom_put hreact)
    rw [hreact, append, if_pos hn]
    rfl

/-! ## All rounds -/

theorem tokenizeLoop_eq (hsize : line.length < 2 ^ 32) {fuel : ℕ} (hi : s.i ≤ line.length)
    (hfuel : line.length - s.i < fuel) (hn : s.token.length < 4095) :
    tokenizeLoop line fuel s =
      if ∀ w ∈ wordsFrom s.mode s.token (line.drop s.i), w.length < 4095 then
        .ok (s.tokens ++ wordsFrom s.mode s.token (line.drop s.i))
      else .error (.panic "abort") := by
  induction fuel generalizing s with
  | zero => omega
  | succ fuel ih =>
    rw [tokenizeLoop]
    by_cases hlt : s.i < line.length
    · have hmod : ∀ {k}, k ≤ line.length → k % 2 ^ 32 = k := fun hk => Nat.mod_eq_of_lt (by omega)
      have htext : ∀ k (hk : k < line.length), read line (k % 2 ^ 32) = .ok (line)[k] :=
        fun k hk => by rw [hmod hk.le]; simp [read, hk, hk.le]
      obtain ⟨s', j, done, h⟩ := exists_round htext (hmod hi).symm hlt hn fun _ => by rw [hmod hlt]
      obtain rfl : s'.i = j := h.place.trans (hmod h.lt.le)
      have hlt' := h.lt
      have hle := h.le
      rw [if_pos hlt, h.eq, ok_bind, h.words]
      by_cases hlong : 4096 ≤ s'.token.length + 1
      · obtain ⟨w, hw, hw'⟩ := @hasLong_of_le s'.token (line.drop (s'.i + 1)) s'.mode (by omega)
        rw [if_pos hlong, if_neg fun hall => ?_]
        exact absurd (hall w (mem_append_right _ hw)) (by omega)
      · have hrest := @ih { s' with i := s'.i + 1 } hlt' (by dsimp only; omega)
          (by dsimp only; omega)
        rw [if_neg hlong, Nat.mod_eq_of_lt (by omega), hrest, h.tokens, append_assoc]
        refine if_congr ?_ rfl rfl
        rw [forall_mem_append, and_iff_right h.short]
    · rw [if_neg hlt, drop_eq_nil_of_le (by omega), wordsFrom]
      by_cases hnil : s.token = []
      · simp [hnil]
      · have hpos := length_pos_of_ne_nil hnil
        simp [hnil, hn, hpos, push, (by omega : s.token.length < 4096)]

/-- A line is too long for the counter. -/
theorem tokenizeLoop_ne_ok (hsize : 2 ^ 32 ≤ line.length) {fuel : ℕ} (hi : s.i < 2 ^ 32)
    (words : List Bytes) : tokenizeLoop line fuel s ≠ .ok words := by
  induction fuel generalizing s with
  | zero => nofun
  | succ fuel ih =>
    rw [tokenizeLoop, if_pos (by omega)]
    intro hrun
    obtain ⟨s', -, hrest⟩ := Library.bind_eq_ok.mp hrun
    split at hrest
    · cases hrest
    · exact ih (Nat.mod_lt _ (by decide)) hrest

/-- A round on a line that is too long for the counter. -/
theorem exists_round_wrapped (hsize : 2 ^ 32 ≤ line.length) (hs : s.i = j % 2 ^ 32) (hj : j < n)
    (hn : s.token.length < 4095)
    (hend : react s.mode (line.getD (j % 2 ^ 32) 0) = .escape → j + 1 < n) :
    ∃ s' j' done, Round line (wrapped line n) s s' j j' done := by
  have hlt : ∀ k, k % 2 ^ 32 < line.length := fun k => (Nat.mod_lt k (by decide)).trans_le hsize
  have hlength : (wrapped line n).length = n := by simp [wrapped]
  refine exists_round (fun k hk => ?_) hs (hlength.symm ▸ hj) hn fun hescape => ?_
  · rw [read, if_pos (hlt k).le]
    simp [wrapped]
  · exact iff_of_true (hlt _) (hlength.symm ▸ hend (by simpa [wrapped] using hescape))

theorem tokenizeLoop_abort (hsize : 2 ^ 32 ≤ line.length) {fuel : ℕ} (hs : s.i = j % 2 ^ 32)
    (hj : j ≤ n) (hfuel : n - j < fuel) (hn : s.token.length < 4095)
    (hlong : HasLong s.mode s.token ((wrapped line n).drop j)) :
    tokenizeLoop line fuel s = .error (.panic "abort") := by
  have hlength : (wrapped line n).length = n := by simp [wrapped]
  induction fuel generalizing s j with
  | zero => omega
  | succ fuel ih =>
    have hlt : j < n := by
      by_contra hle
      rw [drop_eq_nil_of_le (by omega)] at hlong
      exact not_hasLong_nil hn hlong
    obtain ⟨s', j', done, h⟩ := exists_round_wrapped hsize hs hlt hn fun hescape => by
      by_contra hlast
      rw [drop_eq_getElem_cons (by omega), drop_eq_nil_of_le (by omega)] at hlong
      have hget : (wrapped line n)[j] = line.getD (j % 2 ^ 32) 0 := by simp [wrapped]
      have hnone : HasLong s.mode s.token [] := by
        simpa only [HasLong, wordsFrom, hget, hescape] using hlong
      exact not_hasLong_nil hn hnone
    have hi : s.i < line.length := hs ▸ (Nat.mod_lt j (by decide)).trans_le hsize
    rw [tokenizeLoop, if_pos hi, h.eq, ok_bind]
    have hle := h.le
    have hlt' := h.lt
    refine ite_eq_left_iff.mpr fun hnot => ih (j := j' + 1) (by simp [h.place]) (by omega)
      (by omega) (by simp only; omega) ?_
    obtain ⟨w, hw, hw'⟩ := hlong
    rw [h.words, mem_append] at hw
    rcases hw with hdone | hw
    · have := h.short w hdone
      omega
    · exact ⟨w, hw, hw'⟩

/-- An abort comes from a long word of every text that is long enough to contain it. -/
theorem hasLong_of_abort (hsize : 2 ^ 32 ≤ line.length) (fuel : ℕ) (hs : s.i = j % 2 ^ 32)
    (hn : s.token.length < 4095) (habort : tokenizeLoop line fuel s = .error (.panic "abort")) :
    ∃ n, ∀ m ≥ n, HasLong s.mode s.token ((wrapped line m).drop j) := by
  induction fuel generalizing s j with
  | zero => simp [tokenizeLoop] at habort
  | succ fuel ih =>
    have hround := fun m (hm : j + 2 ≤ m) =>
      @exists_round_wrapped line s j m hsize hs (by omega) hn fun _ => by omega
    obtain ⟨s', j', _, h⟩ := hround _ le_rfl
    -- the round is the same one in every longer text
    have hsame : ∀ m ≥ j + 2, HasLong s'.mode s'.token ((wrapped line m).drop (j' + 1)) →
        HasLong s.mode s.token ((wrapped line m).drop j) := by
      rintro m hm ⟨w, hw, hlong⟩
      obtain ⟨t, k, done, ht⟩ := hround m hm
      obtain rfl : t = s' := by injection ht.eq.symm.trans h.eq
      obtain rfl : k = j' := by
        have := ht.place.symm.trans h.place
        have := ht.le
        have := ht.le_succ
        have := h.le
        have := h.le_succ
        omega
      exact ⟨w, ht.words ▸ mem_append_right _ hw, hlong⟩
    have hi : s.i < line.length := hs ▸ (Nat.mod_lt j (by decide)).trans_le hsize
    rw [tokenizeLoop, if_pos hi, h.eq, ok_bind] at habort
    by_cases hlong : 4096 ≤ s'.token.length + 1
    · exact ⟨j + 2, fun m hm => hsame m hm (hasLong_of_le (by omega))⟩
    · rw [if_neg hlong] at habort
      obtain ⟨n, hn⟩ := ih (j := j' + 1) (by simp [h.place]) (by simp only; omega) habort
      exact ⟨max n (j + 2), fun m hm => hsame m (by omega) (hn m (by omega))⟩

/-- **`tokenize` stays inside its line and its buffer** and pushes the words of the line, none of
them empty, or aborts exactly if one of them has 4095 bytes.  On a line of 4 GB it does so exactly
if there is such a word both in the line and in what the counter finds in it. -/
theorem tokenize_safe_iff (line : Bytes) : (∀ w ∈ wordsFrom .normal [] line, w ≠ []) ∧
    (Tokenizes line ↔ line.length < 2 ^ 32 ∨
      HasLong .normal [] line ∧ ∃ n, HasLong .normal [] (wrapped line n)) := by
  refine ⟨fun _ => ne_nil_of_mem_wordsFrom, ?_⟩
  by_cases hsize : line.length < 2 ^ 32
  · exact iff_of_true ⟨line.length + 1, tokenizeLoop_eq hsize (Nat.zero_le _) (by simp) (by simp)⟩
      (.inl hsize)
  rw [or_iff_right hsize]
  rw [not_lt] at hsize
  constructor
  · rintro ⟨fuel, hrun⟩
    split at hrun
    · exact absurd hrun (tokenizeLoop_ne_ok hsize (by decide) _)
    · next hshort =>
      push Not at hshort
      obtain ⟨n, hn⟩ := hasLong_of_abort (j := 0) hsize fuel rfl (by simp) hrun
      exact ⟨hshort, n, hn n le_rfl⟩
  · rintro ⟨⟨w, hw, hlong⟩, n, hn⟩
    refine ⟨n + 1, ?_⟩
    rw [if_neg fun hshort => by have := hshort w hw; omega]
    exact tokenizeLoop_abort hsize rfl (Nat.zero_le n) (by simp) (by simp) hn

theorem wordsFrom_spaces (n : ℕ) : wordsFrom .normal [] (replicate n 32) = [] := by
  induction n with
  | zero => simp [wordsFrom]
  | succ n ih => simp [replicate_succ, wordsFrom_endWord, react, isspace, ih, wordsFrom]

/-- A line of 4 GB of spaces has no words, but it does not end. -/
theorem tokenize_spaces : ¬ Tokenizes (replicate (2 ^ 32) 32) := by
  rintro ⟨fuel, hrun⟩
  rw [wordsFrom_spaces, if_pos nofun] at hrun
  exact tokenizeLoop_ne_ok length_replicate.ge (by decide) _ hrun

/-! ## Quoting -/

/-- In a given mode and behind a part `v` of a word, the text writes the words `vs`: bytes are
escaped or stand in quotes, and whitespace ends a word. -/
inductive Quoted : Mode → Bytes → List Bytes → Bytes → Prop
  | done : Quoted .normal [] [] []
  | last : v ≠ [] → Quoted .normal v [v] []
  | escaped : Quoted m (v ++ [b]) vs t → Quoted m v vs (92 :: b :: t)
  | single : b ≠ 39 → b ≠ 92 → Quoted .squote (v ++ [b]) vs t → Quoted .squote v vs (b :: t)
  | double : b ≠ 34 → b ≠ 92 → Quoted .dquote (v ++ [b]) vs t → Quoted .dquote v vs (b :: t)
  | openSingle : Quoted .squote v vs t → Quoted .normal v vs (39 :: t)
  | openDouble : Quoted .dquote v vs t → Quoted .normal v vs (34 :: t)
  | closeSingle : Quoted .normal v vs t → Quoted .squote v vs (39 :: t)
  | closeDouble : Quoted .normal v vs t → Quoted .dquote v vs (34 :: t)
  | word : v ≠ [] → isspace b → Quoted .normal [] vs t → Quoted .normal v (v :: vs) (b :: t)
  | space : isspace b → Quoted .normal [] vs t → Quoted .normal [] vs (b :: t)

theorem react_isspace (hc : isspace c) : react .normal c = .endWord := by
  have hne : c ≠ 39 ∧ c ≠ 34 ∧ c ≠ 92 := by
    refine ⟨?_, ?_, ?_⟩ <;> rintro rfl <;> revert hc <;> decide
  simp [react, hne, hc]

theorem Quoted.wordsFrom_eq {ws : List Bytes} (h : Quoted mode word ws line) :
    wordsFrom mode word line = ws := by
  induction h with
  | done => simp [wordsFrom]
  | last hne => simp [wordsFrom, hne]
  | @escaped mode _ _ _ _ _ ih => rw [wordsFrom_escape (by cases mode <;> rfl), ih]
  | single hq hs _ ih | double hq hs _ ih => rw [wordsFrom_put (by simp [react, hq, hs]), ih]
  | openSingle _ ih | openDouble _ ih | closeSingle _ ih | closeDouble _ ih =>
    rw [wordsFrom_enter rfl, ih]
  | word hne hb _ ih => simp [wordsFrom_endWord (react_isspace hb), wordsFrom, hne, ih]
  | space hb _ ih => simp [wordsFrom_endWord (react_isspace hb), wordsFrom, ih]

/-- **`tokenize` undoes quoting** exactly on the lines of less than 4 GB. -/
theorem tokenize_quoted_iff {ws : List Bytes} (h : Quoted .normal [] ws line)
    (hws : ∀ w ∈ ws, w.length ≤ 4094) :
    (∃ fuel, tokenize fuel line = .ok ws) ↔ line.length < 2 ^ 32 := by
  refine ⟨fun ⟨fuel, hrun⟩ => ?_, fun hsize => ⟨line.length + 1, ?_⟩⟩
  · by_contra hlong
    exact tokenizeLoop_ne_ok (Nat.le_of_not_lt hlong) (by decide) _ hrun
  · rw [tokenize, tokenizeLoop_eq hsize (Nat.zero_le _) (by simp) (by simp), drop_zero,
      h.wordsFrom_eq]
    exact if_pos fun w hw => Nat.lt_succ_of_le (hws w hw)

theorem quoted_spaces (n : ℕ) : Quoted .normal [] [[97]] (replicate n 32 ++ [92, 97]) := by
  induction n with
  | zero => exact .escaped (.last nofun)
  | succ n ih => exact .space rfl ih

/-- The line `\a 'b'`. -/
theorem tokenize_quoted_iff_two :
    ∃ fuel, tokenize fuel [92, 97, 32, 39, 98, 39] = .ok [[97], [98]] :=
  (tokenize_quoted_iff (.escaped (.word nofun rfl (.openSingle (.single (by decide) (by decide)
    (.closeSingle (.last nofun)))))) (by simp)).mpr (by decide)

/-- Two words with 4 GB of spaces between them are not found. -/
theorem tokenize_quoted_far : ∃ line, Quoted .normal [] [[97], [97]] line ∧
    ∀ fuel, tokenize fuel line ≠ .ok [[97], [97]] := by
  refine ⟨_, .escaped (.word nofun (show isspace 32 from rfl) (quoted_spaces (2 ^ 32))),
    fun fuel => ?_⟩
  refine tokenizeLoop_ne_ok ?_ (by decide) _
  rw [length_cons, length_cons, length_cons, length_append, length_replicate]
  omega

end CS162.Shell
