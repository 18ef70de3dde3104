import CS162.Library.Strings
import CS162.Filesys.Directory

/-!
# Splitting a path

`get_next_part` with its pointers: it reads the path byte by byte, stores a part in the
caller's buffer of 15 bytes and moves `*srcp` behind the part.  A read behind the end of the
path or a store outside the buffer is undefined, so a call that returns has made none.

## Strategy

* **One call.**  The two loops are walks along the path (`skipSlashes_eq`, `copyPart_eq`,
  `copyPart_tooLong`); together they do what `getNextPart` says (`getNextPartAt_done`,
  `getNextPartAt_tooLong`, `getNextPartAt_part`).
* **All calls.**  Between two calls `*srcp` is at the start of the path or right behind a
  part.  There the words of the path are those already returned and those of the rest
  (`words_append`).
-/

namespace CS162

open Library FileSys List

/-! ## The function -/

/-- `char part[NAME_MAX + 1]`. -/
abbrev PartBuffer := Fin (nameMax + 1) → UInt8

def storePart (part : PartBuffer) (dst : ℕ) (c : UInt8) : Except Fault PartBuffer :=
  if h : dst < nameMax + 1 then .ok (Function.update part ⟨dst, h⟩ c)
  else .error (.undefined "part")

/-- The loop that skips leading slashes. -/
def skipSlashes (path : CString) : ℕ → ℕ → Except Fault ℕ
  | 0, _ => .error .outOfFuel
  | fuel + 1, src => do
      if (← path.read src "*src") = 47 then skipSlashes path fuel (src + 1) else return src

/-- The loop that copies a part: where it stops, or nothing if the part is too long, and the
buffer. -/
def copyPart (path : CString) : ℕ → ℕ → ℕ → PartBuffer → Except Fault (Option (ℕ × ℕ) × PartBuffer)
  | 0, _, _, _ => .error .outOfFuel
  | fuel + 1, src, dst, part => do
      let c ← path.read src "*src"
      if c ≠ 47 ∧ c ≠ 0 then
        if dst < nameMax then
          copyPart path fuel (src + 1) (dst + 1) (← storePart part dst c)
        else return (none, part)
      else return (some (src, dst), part)

/-- `get_next_part`: the return value, the buffer and `*srcp`. -/
def getNextPartAt (path : CString) (part : PartBuffer) (srcp : ℕ) :
    Except Fault (ℤ × PartBuffer × ℕ) := do
  let src ← skipSlashes path (path.bytes.length + 1) srcp
  if (← path.read src "*src") = 0 then return (0, part, srcp)
  match ← copyPart path (path.bytes.length + 1) src 0 part with
  | (none, part) => return (-1, part, srcp)
  | (some (src, dst), part) => return (1, ← storePart part dst 0, src)

/-- The string in the buffer, if it is terminated. -/
def partString (part : PartBuffer) : Except Fault CString :=
  if 0 ∈ List.ofFn part then
    .ok ⟨(List.ofFn part).takeWhile (· ≠ 0), fun h => by simpa using mem_takeWhile_imp h⟩
  else .error (.undefined "part")

/-- Calls of `get_next_part` until it returns something else than 1: the parts, the last
return value and `*srcp`. -/
def splitPath (path : CString) : ℕ → PartBuffer → ℕ → Except Fault (List CString × ℤ × ℕ)
  | 0, _, _ => .error .outOfFuel
  | fuel + 1, part, srcp => do
      let (num, part, srcp) ← getNextPartAt path part srcp
      if num = 1 then
        let name ← partString part
        let (names, num, srcp) ← splitPath path fuel part srcp
        return (name :: names, num, srcp)
      else return ([], num, srcp)

/-! ## The loops -/

variable {path : CString} {src srcp dst fuel : ℕ} {part : PartBuffer}

theorem read_cons {c : UInt8} {rest : List UInt8} (h : path.bytes.drop src = c :: rest) :
    path.read src "*src" = .ok c ∧ path.bytes.drop (src + 1) = rest := by
  have hlt : src < path.bytes.length := by
    by_contra hge
    rw [drop_eq_nil_of_le (by omega)] at h
    cases h
  refine ⟨?_, ?_⟩
  · rw [CString.read_eq hlt.le, h]
    rfl
  · rw [← drop_drop, h]
    rfl

theorem read_end (h : path.bytes.drop src = []) (hsrc : src ≤ path.bytes.length) :
    path.read src "*src" = .ok 0 := by
  rw [CString.read_eq hsrc, h]
  rfl

/-- What follows a part, or precedes the first one: a slash or the end. -/
def AtSlash (l : List UInt8) : Prop := ∀ c ∈ l.head?, c = 47

theorem skipSlashes_eq (gap : List UInt8) (hgap : ∀ c ∈ gap, c = 47) {rest : List UInt8}
    (hrest : ∀ c ∈ rest.head?, c ≠ 47) :
    ∀ {src fuel : ℕ}, src ≤ path.bytes.length → path.bytes.drop src = gap ++ rest →
      gap.length < fuel → skipSlashes path fuel src = .ok (src + gap.length) := by
  induction gap with
  | nil =>
    intro src fuel hsrc hdrop hfuel
    obtain _ | fuel := fuel
    · omega
    cases rest with
    | nil =>
      rw [skipSlashes, read_end hdrop hsrc, ok_bind]
      rfl
    | cons c rest =>
      rw [skipSlashes, (read_cons hdrop).1, ok_bind, if_neg (hrest c (by simp))]
      rfl
  | cons c gap ih =>
    intro src fuel hsrc hdrop hfuel
    obtain _ | fuel := fuel
    · omega
    obtain ⟨hchar, hnext⟩ := read_cons hdrop
    have hle : src + 1 ≤ path.bytes.length := by
      have := congrArg length hdrop
      rw [length_drop, cons_append, length_cons] at this
      omega
    rw [length_cons] at hfuel
    rw [skipSlashes, hchar, ok_bind, if_pos (hgap c (by simp)),
      ih (fun b hb => hgap b (by simp [hb])) hle hnext (by omega), length_cons]
    congr 1
    omega

/-- The buffer after bytes have been stored from `dst` on. -/
def storedFrom (part : PartBuffer) (dst : ℕ) (w : List UInt8) : PartBuffer := fun i =>
  if dst ≤ i.val then (w[i.val - dst]?).getD (part i) else part i

theorem storePart_eq (hdst : dst < nameMax + 1) (c : UInt8) :
    storePart part dst c = .ok (storedFrom part dst [c]) := by
  rw [storePart, dif_pos hdst]
  congr 1
  funext i
  by_cases hi : i = ⟨dst, hdst⟩
  · subst hi
    simp [storedFrom]
  · have hne : i.val ≠ dst := fun heq => hi (Fin.ext heq)
    rw [Function.update_of_ne hi, storedFrom]
    split
    · rw [getElem?_eq_none (by rw [length_singleton]; omega), Option.getD_none]
    · rfl

theorem storedFrom_storedFrom (part : PartBuffer) (dst : ℕ) (a b : List UInt8) :
    storedFrom (storedFrom part dst a) (dst + a.length) b = storedFrom part dst (a ++ b) := by
  funext i
  unfold storedFrom
  by_cases hlow : dst + a.length ≤ i.val
  · have hbehind : a[i.val - dst]? = none := getElem?_eq_none (by omega)
    rw [if_pos hlow, if_pos (by omega), if_pos (by omega), hbehind, Option.getD_none,
      getElem?_append_right (by omega), Nat.sub_sub]
  · rw [if_neg hlow]
    split
    · rw [getElem?_append_left (by omega)]
    · rfl

theorem copyPart_eq (w : List UInt8) (hw : ∀ c ∈ w, c ≠ 47 ∧ c ≠ 0) {rest : List UInt8}
    (hrest : AtSlash rest) :
    ∀ {src dst fuel : ℕ} (part : PartBuffer), src ≤ path.bytes.length →
      path.bytes.drop src = w ++ rest → w.length < fuel → dst + w.length ≤ nameMax →
      copyPart path fuel src dst part =
        .ok (some (src + w.length, dst + w.length), storedFrom part dst w) := by
  induction w with
  | nil =>
    intro src dst fuel part hsrc hdrop hfuel _
    obtain _ | fuel := fuel
    · omega
    have hstored : storedFrom part dst [] = part := by
      funext i
      simp [storedFrom]
    rw [hstored]
    cases rest with
    | nil =>
      rw [copyPart, read_end hdrop hsrc, ok_bind]
      rfl
    | cons c rest =>
      rw [copyPart, (read_cons hdrop).1, ok_bind, if_neg (by simp [hrest c (by simp)])]
      rfl
  | cons c w ih =>
    intro src dst fuel part hsrc hdrop hfuel hlen
    obtain _ | fuel := fuel
    · omega
    obtain ⟨hchar, hnext⟩ := read_cons hdrop
    have hle : src + 1 ≤ path.bytes.length := by
      have := congrArg length hdrop
      rw [length_drop, cons_append, length_cons] at this
      omega
    rw [length_cons] at hfuel hlen
    rw [copyPart, hchar, ok_bind, if_pos (hw c (by simp)), if_pos (by omega),
      storePart_eq (by omega), ok_bind,
      ih (fun b hb => hw b (by simp [hb])) _ hle hnext (by omega) (by omega)]
    have hstored := storedFrom_storedFrom part dst [c] w
    rw [length_singleton] at hstored
    rw [hstored, Nat.add_right_comm src, Nat.add_right_comm dst]
    rfl

theorem copyPart_tooLong (w : List UInt8) (hw : ∀ c ∈ w, c ≠ 47 ∧ c ≠ 0) {rest : List UInt8} :
    ∀ {src dst fuel : ℕ} (part : PartBuffer), path.bytes.drop src = w ++ rest → w.length < fuel →
      nameMax < dst + w.length → dst ≤ nameMax →
      ∃ part', copyPart path fuel src dst part = .ok (none, part') := by
  induction w with
  | nil =>
    intro src dst fuel part _ _ hlen hdst
    rw [length_nil] at hlen
    omega
  | cons c w ih =>
    intro src dst fuel part hdrop hfuel hlen hdst
    obtain _ | fuel := fuel
    · omega
    obtain ⟨hchar, hnext⟩ := read_cons hdrop
    rw [length_cons] at hfuel hlen
    rw [copyPart, hchar, ok_bind, if_pos (hw c (by simp))]
    by_cases hfull : dst < nameMax
    · rw [if_pos hfull, storePart_eq (by omega)]
      exact ih (fun b hb => hw b (by simp [hb])) _ hnext (by omega) (by omega) (by omega)
    · rw [if_neg hfull]
      exact ⟨part, rfl⟩

/-! ## One call -/

/-- Slashes, a part, and what follows it. -/
structure NextPartOf (l gap w rest : List UInt8) : Prop where
  split : l = gap ++ (w ++ rest)
  slashes : ∀ c ∈ gap, c = 47
  noSlash : ∀ c ∈ w, c ≠ 47
  atSlash : AtSlash rest
  atEnd : w = [] → rest = []

theorem head?_dropWhile {p : UInt8 → Bool} {l : List UInt8} :
    ∀ c ∈ (l.dropWhile p).head?, p c = false := by
  intro c hc
  have := head?_dropWhile_not p l
  rwa [hc] at this

theorem nextPartOf (l : List UInt8) : NextPartOf l (l.takeWhile (· = 47))
    ((l.dropWhile (· = 47)).takeWhile (· ≠ 47)) ((l.dropWhile (· = 47)).dropWhile (· ≠ 47)) := by
  refine ⟨?_, fun c hc => ?_, fun c hc => ?_, fun c hc => ?_, fun hw => ?_⟩
  · rw [takeWhile_append_dropWhile, takeWhile_append_dropWhile]
  · simpa using mem_takeWhile_imp hc
  · simpa using mem_takeWhile_imp hc
  · simpa using head?_dropWhile c hc
  · -- the first byte that is not a slash would be in the part
    cases hrest : l.dropWhile (· = 47) with
    | nil => rfl
    | cons c rest =>
      have hc : decide (c = 47) = false := head?_dropWhile c (by rw [hrest]; rfl)
      rw [hrest, takeWhile_cons_of_pos (by simpa using hc)] at hw
      cases hw

section Call

variable {gap w rest : List UInt8} (h : NextPartOf (path.bytes.drop srcp) gap w rest)
include h

theorem NextPartOf.drop_gap : path.bytes.drop (srcp + gap.length) = w ++ rest := by
  rw [← drop_drop, h.split, drop_left]

theorem NextPartOf.nonzero : ∀ c ∈ w, c ≠ 47 ∧ c ≠ 0 := by
  intro c hc
  refine ⟨h.noSlash c hc, fun hzero => path.nonzero ?_⟩
  have hmem : c ∈ path.bytes.drop srcp := by
    rw [h.split]
    exact mem_append_right _ (mem_append_left _ hc)
  exact hzero ▸ mem_of_mem_drop hmem

theorem NextPartOf.read_ne (hw : w ≠ []) :
    ∃ c, path.read (srcp + gap.length) "*src" = .ok c ∧ c ≠ 0 := by
  cases w with
  | nil => exact absurd rfl hw
  | cons c w => exact ⟨c, (read_cons h.drop_gap).1, (h.nonzero c (by simp)).2⟩

variable (hsrcp : srcp ≤ path.bytes.length)
include hsrcp

theorem NextPartOf.length_le : srcp + gap.length + w.length + rest.length = path.bytes.length := by
  have := congrArg length h.split
  rw [length_drop, length_append, length_append] at this
  omega

theorem NextPartOf.skipSlashes :
    skipSlashes path (path.bytes.length + 1) srcp = .ok (srcp + gap.length) := by
  have hlen := h.length_le hsrcp
  refine skipSlashes_eq gap h.slashes (fun c hc => ?_) hsrcp h.split (by omega)
  cases w with
  | nil =>
    rw [h.atEnd rfl] at hc
    cases hc
  | cons b w =>
    obtain rfl := Option.some.inj hc
    exact h.noSlash _ mem_cons_self

theorem getNextPartAt_done (hw : w = []) : getNextPartAt path part srcp = .ok (0, part, srcp) := by
  have hlen := h.length_le hsrcp
  have hdrop := h.drop_gap
  rw [h.atEnd hw, hw] at hdrop
  rw [getNextPartAt, h.skipSlashes hsrcp, ok_bind, read_end hdrop (by omega), ok_bind]
  rfl

theorem getNextPartAt_tooLong (part : PartBuffer) (hw : nameMax < w.length) :
    ∃ part', getNextPartAt path part srcp = .ok (-1, part', srcp) := by
  have hlen := h.length_le hsrcp
  have hne : w ≠ [] := by
    rintro rfl
    exact absurd hw (Nat.not_lt_zero _)
  obtain ⟨c, hchar, hc⟩ := h.read_ne hne
  obtain ⟨part', hcopy⟩ := copyPart_tooLong w h.nonzero part h.drop_gap
    (show w.length < path.bytes.length + 1 by omega)
    (show nameMax < 0 + w.length by omega) (Nat.zero_le _)
  refine ⟨part', ?_⟩
  rw [getNextPartAt, h.skipSlashes hsrcp, ok_bind, hchar, ok_bind, if_neg hc, hcopy]
  rfl

theorem getNextPartAt_part (part : PartBuffer) (hne : w ≠ []) (hw : w.length ≤ nameMax) :
    getNextPartAt path part srcp =
      .ok (1, storedFrom part 0 (w ++ [0]), srcp + gap.length + w.length) := by
  have hlen := h.length_le hsrcp
  obtain ⟨c, hchar, hc⟩ := h.read_ne hne
  have hcopy := copyPart_eq w h.nonzero h.atSlash part
    (show srcp + gap.length ≤ path.bytes.length by omega) h.drop_gap
    (show w.length < path.bytes.length + 1 by omega) (show 0 + w.length ≤ nameMax by omega)
  have hstored := storedFrom_storedFrom part 0 w [0]
  rw [getNextPartAt, h.skipSlashes hsrcp, ok_bind, hchar, ok_bind, if_neg hc, hcopy, ok_bind]
  dsimp only
  rw [storePart_eq (by omega), hstored]
  rfl

end Call

theorem partString_storedFrom (part : PartBuffer) {w : List UInt8} (hw : w.length ≤ nameMax)
    (hzero : 0 ∉ w) : partString (storedFrom part 0 (w ++ [0])) = .ok ⟨w, hzero⟩ := by
  have hbytes : ofFn (storedFrom part 0 (w ++ [0])) =
      w ++ 0 :: (ofFn part).drop (w.length + 1) := by
    refine ext_getElem ?_ fun i hi hi' => ?_
    · rw [length_ofFn, length_append, length_cons, length_drop, length_ofFn]
      omega
    rw [length_ofFn] at hi
    rw [List.getElem_ofFn]
    show ((w ++ [0])[i]?).getD _ = _
    rcases Nat.lt_trichotomy i w.length with hlt | rfl | hgt
    · rw [getElem?_append_left hlt, getElem?_eq_getElem hlt, Option.getD_some,
        getElem_append_left hlt]
    · simp
    · rw [getElem?_eq_none (by rw [length_append, length_singleton]; omega),
        Option.getD_none, getElem_append_right (by omega), getElem_cons,
        dif_neg (by omega), getElem_drop, List.getElem_ofFn]
      congr 2
      omega
  have hmem : 0 ∈ ofFn (storedFrom part 0 (w ++ [0])) := by
    rw [hbytes]
    simp
  rw [partString, if_pos hmem]
  congr 1
  apply CString.ext
  show (ofFn (storedFrom part 0 (w ++ [0]))).takeWhile (· ≠ 0) = w
  rw [hbytes, takeWhile_string hzero]

/-- `get_next_part` does what `getNextPart` says about the rest of the path. -/
theorem getNextPartAt_refines (hsrcp : srcp ≤ path.bytes.length) {rest : CString}
    (hrest : rest.bytes = path.bytes.drop srcp) :
    match getNextPart rest with
    | .done => getNextPartAt path part srcp = .ok (0, part, srcp)
    | .tooLong => ∃ part', getNextPartAt path part srcp = .ok (-1, part', srcp)
    | .part name next => ∃ part' srcp', getNextPartAt path part srcp = .ok (1, part', srcp') ∧
        partString part' = .ok name ∧ next.bytes = path.bytes.drop srcp' := by
  have hnext := nextPartOf rest.bytes
  have hnext' : NextPartOf (path.bytes.drop srcp) (rest.bytes.takeWhile (· = 47))
      ((rest.bytes.dropWhile (· = 47)).takeWhile (· ≠ 47))
      ((rest.bytes.dropWhile (· = 47)).dropWhile (· ≠ 47)) := by
    rwa [← hrest]
  unfold getNextPart
  by_cases hdone : (rest.dropWhile (· = 47)).bytes = []
  · rw [if_pos hdone]
    exact getNextPartAt_done hnext' hsrcp (by
      rw [show rest.bytes.dropWhile (· = 47) = [] from hdone]
      rfl)
  rw [if_neg hdone]
  by_cases hlong : nameMax < ((rest.dropWhile (· = 47)).takeWhile (· ≠ 47)).bytes.length
  · rw [if_pos hlong]
    exact getNextPartAt_tooLong hnext' hsrcp part hlong
  rw [if_neg hlong]
  have hne : (rest.bytes.dropWhile (· = 47)).takeWhile (· ≠ 47) ≠ [] := fun hw => hdone (by
    have hsplit := takeWhile_append_dropWhile (p := fun c => decide (c ≠ 47))
      (l := rest.bytes.dropWhile (· = 47))
    rw [hw, hnext.atEnd hw] at hsplit
    exact hsplit.symm)
  have hshort : ((rest.bytes.dropWhile (· = 47)).takeWhile (· ≠ 47)).length ≤ nameMax :=
    Nat.le_of_not_lt hlong
  refine ⟨_, _, getNextPartAt_part hnext' hsrcp part hne hshort,
    partString_storedFrom part hshort ((rest.dropWhile (· = 47)).takeWhile (· ≠ 47)).nonzero, ?_⟩
  rw [← drop_drop, hnext'.drop_gap, drop_left]
  rfl

/-- From inside `/ab//c/xxx…`, a path whose last part is one letter too long: the part `c`, then
the error, and from its end nothing. -/
theorem getNextPartAt_refines_slashes :
    let path : CString := ⟨[47, 97, 98, 47, 47, 99, 47] ++ replicate 15 120, by decide⟩
    (∃ part srcp, getNextPartAt path (fun _ => 1) 3 = .ok (1, part, srcp) ∧
      partString part = .ok ⟨[99], by decide⟩ ∧ path.bytes.drop srcp = 47 :: replicate 15 120) ∧
    (∃ part, getNextPartAt path (fun _ => 1) 6 = .ok (-1, part, 6)) ∧
    getNextPartAt path (fun _ => 1) 22 = .ok (0, fun _ => 1, 22) := by
  intro path
  have hrefines := fun srcp hsrcp rest => @getNextPartAt_refines path srcp (fun _ => 1) hsrcp rest
  obtain ⟨part, srcp, hrun, hpart, hnext⟩ :=
    hrefines 3 (by decide) ⟨[47, 47, 99, 47] ++ replicate 15 120, by decide⟩ rfl
  exact ⟨⟨part, srcp, hrun, hpart, hnext.symm⟩,
    hrefines 6 (by decide) ⟨47 :: replicate 15 120, by decide⟩ rfl,
    hrefines 22 (by decide) ⟨[], by decide⟩ rfl⟩

/-! ## All calls -/

theorem NextPartOf.words {l gap w rest : List UInt8} (h : NextPartOf l gap w rest) :
    words 47 l = if w = [] then [] else w :: words 47 rest := by
  rw [h.split, words_gap h.slashes]
  by_cases hw : w = []
  · rw [hw, h.atEnd hw]
    rfl
  · rw [if_neg hw, words_word (fun hmem => h.noSlash 47 hmem rfl) hw h.atSlash]

/-- `*srcp` between two calls: at the start of the path or right behind a part. -/
structure Between (path : CString) (srcp : ℕ) : Prop where
  le : srcp ≤ path.bytes.length
  start : srcp = 0 ∨ AtSlash (path.bytes.drop srcp)
  behind : (path.bytes.take srcp).getLast? ≠ some 47

theorem Between.words (h : Between path srcp) :
    words 47 path.bytes = words 47 (path.bytes.take srcp) ++ words 47 (path.bytes.drop srcp) := by
  rcases h.start with rfl | hslash
  · rfl
  · rw [← words_append _ hslash, take_append_drop]

theorem Between.next {gap w rest : List UInt8} (h : Between path srcp)
    (hnext : NextPartOf (path.bytes.drop srcp) gap w rest) (hw : w ≠ []) :
    Between path (srcp + gap.length + w.length) ∧
      path.bytes.drop (srcp + gap.length + w.length) = rest := by
  have hlen := hnext.length_le h.le
  have hdrop : path.bytes.drop (srcp + gap.length + w.length) = rest := by
    rw [← drop_drop, hnext.drop_gap, drop_left]
  refine ⟨⟨by omega, .inr (by rw [hdrop]; exact hnext.atSlash), ?_⟩, hdrop⟩
  have htake : path.bytes.take (srcp + gap.length + w.length) =
      path.bytes.take (srcp + gap.length) ++ w := by
    rw [take_add, hnext.drop_gap, take_left]
  rw [htake, getLast?_append_of_ne_nil _ hw]
  exact fun hlast => hnext.noSlash 47 (mem_of_getLast? hlast) rfl

/-- What the calls return for these parts, and where they leave `*srcp`. -/
structure Splits (path : CString) (parts : List (List UInt8)) (names : List CString) (num : ℤ)
    (srcp : ℕ) : Prop where
  returned : names.map CString.bytes = parts.takeWhile (·.length ≤ nameMax)
  last : num = if ∀ w ∈ parts, w.length ≤ nameMax then 0 else -1
  between : Between path srcp
  left : words 47 (path.bytes.drop srcp) = parts.drop names.length

theorem splitPath_stop {num : ℤ} {part' : PartBuffer}
    (hcall : getNextPartAt path part srcp = .ok (num, part', srcp)) (hnum : num ≠ 1)
    (hfuel : 0 < fuel) : splitPath path fuel part srcp = .ok ([], num, srcp) := by
  obtain _ | fuel := fuel
  · omega
  rw [splitPath, hcall, ok_bind]
  dsimp only
  rw [if_neg hnum]
  rfl

theorem splitPath_part {part' : PartBuffer} {next srcp' : ℕ} {name : CString} {names : List CString}
    {num : ℤ} (hcall : getNextPartAt path part srcp = .ok (1, part', next))
    (hname : partString part' = .ok name)
    (hrest : splitPath path fuel part' next = .ok (names, num, srcp')) :
    splitPath path (fuel + 1) part srcp = .ok (name :: names, num, srcp') := by
  rw [splitPath, hcall, ok_bind]
  dsimp only
  rw [hname, ok_bind, hrest, ok_bind]
  rfl

/-- From any position between two calls the rest of the path is split.  The induction is on
the number of parts that are left. -/
theorem splitPath_spec (n : ℕ) : ∀ {srcp : ℕ} (part : PartBuffer), Between path srcp →
    (words 47 (path.bytes.drop srcp)).length < n →
    ∃ names num srcp', Splits path (words 47 (path.bytes.drop srcp)) names num srcp' ∧
      ∀ fuel, names.length < fuel → splitPath path fuel part srcp = .ok (names, num, srcp') := by
  induction n with
  | zero => exact fun _ _ hlen => absurd hlen (Nat.not_lt_zero _)
  | succ n ih =>
    intro srcp part hbetween hlen
    have hnext := nextPartOf (path.bytes.drop srcp)
    have hwords := hnext.words
    generalize ((path.bytes.drop srcp).dropWhile (· = 47)).takeWhile (· ≠ 47) = w at hnext hwords
    by_cases hw : w = []
    · rw [if_pos hw] at hwords
      refine ⟨[], 0, srcp, ⟨by rw [hwords]; rfl, by rw [hwords]; rfl, hbetween, rfl⟩,
        fun fuel hfuel => ?_⟩
      exact splitPath_stop (getNextPartAt_done hnext hbetween.le hw) (by decide) hfuel
    rw [if_neg hw] at hwords
    by_cases hlong : nameMax < w.length
    · obtain ⟨part', hcall⟩ := getNextPartAt_tooLong hnext hbetween.le part hlong
      refine ⟨[], -1, srcp, ⟨?_, ?_, hbetween, rfl⟩, fun fuel hfuel => ?_⟩
      · rw [hwords, takeWhile_cons_of_neg (by simpa using hlong)]
        rfl
      · rw [if_neg]
        intro hall
        exact absurd (hall w (by rw [hwords]; exact mem_cons_self)) (by omega)
      · exact splitPath_stop hcall (by decide) hfuel
    have hshort : w.length ≤ nameMax := by omega
    have hzero : 0 ∉ w := fun hmem => (hnext.nonzero 0 hmem).2 rfl
    obtain ⟨hbetween', hdrop⟩ := hbetween.next hnext hw
    have hcall := getNextPartAt_part hnext hbetween.le part hw hshort
    have hname := partString_storedFrom part hshort hzero
    obtain ⟨names, num, srcp', hsplits, hrun⟩ := ih (storedFrom part 0 (w ++ [0])) hbetween' (by
        rw [hdrop]
        rw [hwords, length_cons] at hlen
        omega)
    rw [hdrop] at hsplits
    refine ⟨⟨w, hzero⟩ :: names, num, srcp', ⟨?_, ?_, hsplits.between, ?_⟩, ?_⟩
    · rw [hwords, takeWhile_cons_of_pos (by simpa using hshort), ← hsplits.returned]
      rfl
    · rw [hsplits.last, hwords]
      simp only [forall_mem_cons, hshort, true_and]
    · rw [hsplits.left, hwords]
      rfl
    · intro fuel hfuel
      obtain _ | fuel := fuel
      · omega
      rw [length_cons] at hfuel
      exact splitPath_part hcall hname (hrun fuel (by omega))

/-- **Splitting a path.**  Calls of `get_next_part` from the start of a path return 1 with the
maximal parts between slashes, in order and each terminated in the buffer, up to the first part
that is too long.  If there is none the last call returns 0, otherwise it returns -1 and leaves
`*srcp` right behind the part before it. -/
theorem getNextPart_splits (path : CString) (part : PartBuffer) :
    let parts := (path.bytes.splitOn 47).filter (· ≠ [])
    let short := parts.takeWhile (·.length ≤ nameMax)
    ∃ names num srcp,
      (∀ fuel, short.length < fuel → splitPath path fuel part 0 = .ok (names, num, srcp)) ∧
      names.map CString.bytes = short ∧
      num = (if ∀ w ∈ parts, w.length ≤ nameMax then 0 else -1) ∧
      ((path.bytes.take srcp).splitOn 47).filter (· ≠ []) = short ∧
      ((path.bytes.drop srcp).splitOn 47).filter (· ≠ []) = parts.drop short.length ∧
      (path.bytes.take srcp).getLast? ≠ some 47 := by
  have hstart : Between path 0 := ⟨Nat.zero_le _, .inl rfl, by simp⟩
  obtain ⟨names, num, srcp, hsplits, hrun⟩ := splitPath_spec _ part hstart (Nat.lt_succ_self _)
  rw [drop_zero] at hsplits
  have hnames : names.length = ((words 47 path.bytes).takeWhile (·.length ≤ nameMax)).length := by
    rw [← hsplits.returned, length_map]
  have hleft := hsplits.left
  rw [hnames] at hleft
  -- what has been read and what is left together are all parts
  have hread : words 47 (path.bytes.take srcp) =
      (words 47 path.bytes).takeWhile (·.length ≤ nameMax) := by
    have hall := hsplits.between.words
    rw [hleft] at hall
    have hshort : (words 47 path.bytes).takeWhile (·.length ≤ nameMax) <+: words 47 path.bytes :=
      takeWhile_prefix _
    exact append_cancel_right (hall.symm.trans (prefix_iff_eq_append.mp hshort).symm)
  simp only [← words_eq_filter_splitOn]
  refine ⟨names, num, srcp, fun fuel hfuel => hrun fuel ?_, hsplits.returned, hsplits.last, hread,
    hleft, hsplits.between.behind⟩
  omega

/-! ## Components -/

/-- The parts of a path. -/
def components (path : CString) : List CString :=
  (words 47 path.bytes).pmap CString.mk fun _ hw h => path.nonzero (mem_of_mem_words hw 0 h)

theorem map_bytes_components (path : CString) :
    (components path).map CString.bytes = words 47 path.bytes := by
  rw [components, map_pmap, pmap_eq_map, map_id']

theorem components_eq {names : List CString}
    (h : words 47 path.bytes = names.map CString.bytes) : components path = names := by
  have hinj : Function.Injective CString.bytes := fun a b hab => CString.ext hab
  exact map_injective_iff.mpr hinj ((map_bytes_components path).trans h)

theorem components_of_done (h : getNextPart path = .done) : components path = [] := by
  have hnext := nextPartOf path.bytes
  unfold getNextPart at h
  dsimp only at h
  split at h
  next hdone =>
    refine components_eq ?_
    rw [hnext.words, if_pos (by rw [show path.bytes.dropWhile (· = 47) = [] from hdone]; rfl)]
    rfl
  next => split at h <;> cases h

theorem takeWhile_ne_nil {l : List UInt8} (h : l.dropWhile (· = 47) ≠ []) :
    (l.dropWhile (· = 47)).takeWhile (· ≠ 47) ≠ [] := by
  intro hw
  apply h
  rw [← takeWhile_append_dropWhile (p := fun c => decide (c ≠ 47))
    (l := l.dropWhile (· = 47)), hw, (nextPartOf l).atEnd hw]
  rfl

theorem components_of_tooLong (h : getNextPart path = .tooLong) :
    ∃ name names, components path = name :: names ∧ nameMax < name.bytes.length := by
  have hnext := nextPartOf path.bytes
  unfold getNextPart at h
  dsimp only at h
  split at h
  next => cases h
  next hmore =>
    split at h
    next hlong =>
      refine ⟨(path.dropWhile (· = 47)).takeWhile (· ≠ 47),
        components ((path.dropWhile (· = 47)).dropWhile (· ≠ 47)), components_eq ?_, hlong⟩
      rw [hnext.words, if_neg (takeWhile_ne_nil hmore), map_cons, map_bytes_components]
      rfl
    next => cases h

theorem components_of_part {name rest : CString} (h : getNextPart path = .part name rest) :
    components path = name :: components rest ∧ name.bytes.length ≤ nameMax ∧
      name.bytes ≠ [] ∧ ∃ gap, NextPartOf path.bytes gap name.bytes rest.bytes := by
  have hnext := nextPartOf path.bytes
  unfold getNextPart at h
  dsimp only at h
  split at h
  next => cases h
  next hmore =>
    split at h
    next => cases h
    next hshort =>
      cases h
      have hne : (path.bytes.dropWhile (· = 47)).takeWhile (· ≠ 47) ≠ [] := takeWhile_ne_nil hmore
      refine ⟨components_eq ?_, Nat.le_of_not_lt hshort, hne, _, hnext⟩
      rw [hnext.words, if_neg hne, map_cons, map_bytes_components]
      rfl

theorem eq_slash_of_components_nil (h : components path = []) : ∀ c ∈ path.bytes, c = 47 := by
  have hnext := nextPartOf path.bytes
  have hwords := map_bytes_components path
  rw [h, hnext.words] at hwords
  by_cases hw : (path.bytes.dropWhile (· = 47)).takeWhile (· ≠ 47) = []
  · intro c hc
    rw [hnext.split, hw, hnext.atEnd hw, append_nil, append_nil] at hc
    exact hnext.slashes c hc
  · rw [if_neg hw] at hwords
    cases hwords

end CS162
