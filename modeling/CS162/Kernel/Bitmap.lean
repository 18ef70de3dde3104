import CS162.Library.PackedBits
import CS162.Block

/-!
# The bitmaps of `lib/kernel/bitmap.c`

A bitmap is an array of 32-bit words in memory and the number of its bits.  The structure
carries that the words are enough for the bits, so an index that passes the `ASSERT` of
`bitmap_set` or `bitmap_test` is inside the array.

Every function is given with what it does to `Bitmap.bit`, the bits as a function of their
index: `bitmapSetMultiple_spec`, `bitmapContains_spec` and `bitmapScan_spec` are what callers
use.
-/

namespace CS162

open Library

/-- `SIZE_MAX + 1`. -/
abbrev sizeLimit : ℕ := 4294967296

/-- `DIV_ROUND_UP (x, step)`, computed in `size_t`. -/
def divRoundUp (x step : ℕ) : ℕ := (x + step - 1) % sizeLimit / step

/-- `struct bitmap`. -/
structure Bitmap where
  bitCnt : ℕ
  /-- The words from `bits` on that belong to the bitmap. -/
  bits : List (BitVec 32)
  room : bitCnt ≤ 32 * bits.length
  small : bitCnt < sizeLimit

namespace Bitmap

def elemIdx (bitIdx : ℕ) : ℕ := bitIdx / 32

def bitMask (bitIdx : ℕ) : BitVec 32 := 1#32 <<< (bitIdx % 32)

def elemCnt (bitCnt : ℕ) : ℕ := divRoundUp bitCnt 32

def byteCnt (bitCnt : ℕ) : ℕ := 4 * elemCnt bitCnt

/-- `bitmap_buf_size`; a `struct bitmap` takes 8 bytes. -/
def bitmapBufSize (bitCnt : ℕ) : ℕ := (8 + byteCnt bitCnt) % sizeLimit

def assert (condition : Prop) [Decidable condition] (site : String) : Except Fault Unit :=
  if condition then .ok () else .error (.panic site)

/-- Changes one word. -/
def modify (b : Bitmap) (idx : ℕ) (f : BitVec 32 → BitVec 32) : Bitmap :=
  { b with bits := b.bits.modify idx f, room := by simpa using b.room }

def bitmapMark (b : Bitmap) (bitIdx : ℕ) : Except Fault Bitmap :=
  if elemIdx bitIdx < b.bits.length then
    .ok (b.modify (elemIdx bitIdx) fun word => word ||| bitMask bitIdx)
  else .error (.undefined "b->bits[idx]")

def bitmapReset (b : Bitmap) (bitIdx : ℕ) : Except Fault Bitmap :=
  if elemIdx bitIdx < b.bits.length then
    .ok (b.modify (elemIdx bitIdx) fun word => word &&& ~~~(bitMask bitIdx))
  else .error (.undefined "b->bits[idx]")

def bitmapFlip (b : Bitmap) (bitIdx : ℕ) : Except Fault Bitmap :=
  if elemIdx bitIdx < b.bits.length then
    .ok (b.modify (elemIdx bitIdx) fun word => word ^^^ bitMask bitIdx)
  else .error (.undefined "b->bits[idx]")

def bitmapSet (b : Bitmap) (idx : ℕ) (value : Bool) : Except Fault Bitmap := do
  assert (idx < b.bitCnt) "idx < b->bit_cnt"
  if value then b.bitmapMark idx else b.bitmapReset idx

def bitmapTest (b : Bitmap) (idx : ℕ) : Except Fault Bool := do
  assert (idx < b.bitCnt) "idx < b->bit_cnt"
  return (b.bits.getD (elemIdx idx) 0 &&& bitMask idx) != 0

/-- The loop of `bitmap_set_multiple`, with `n` bits to go. -/
def setLoop (value : Bool) : ℕ → ℕ → Bitmap → Except Fault Bitmap
  | 0, _, b => return b
  | n + 1, idx, b => do setLoop value n (idx + 1) (← b.bitmapSet idx value)

/-- The two range checks of the functions on several bits. -/
def checkRange (b : Bitmap) (start cnt : ℕ) : Except Fault Unit := do
  assert (start ≤ b.bitCnt) "start <= b->bit_cnt"
  assert ((start + cnt) % sizeLimit ≤ b.bitCnt) "start + cnt <= b->bit_cnt"

def bitmapSetMultiple (b : Bitmap) (start cnt : ℕ) (value : Bool) : Except Fault Bitmap := do
  b.checkRange start cnt
  setLoop value cnt start b

def bitmapSetAll (b : Bitmap) (value : Bool) : Except Fault Bitmap :=
  b.bitmapSetMultiple 0 b.bitCnt value

/-- A bitmap on given words, all its bits cleared. -/
def clearBits (bitCnt : ℕ) (bits : List (BitVec 32)) : Except Fault Bitmap :=
  if h : bitCnt ≤ 32 * bits.length ∧ bitCnt < sizeLimit then
    bitmapSetAll ⟨bitCnt, bits, h.1, h.2⟩ false
  else .error (.undefined "b->bits")

/-- `bitmap_create_in_buf`; `words` is what the buffer holds behind the structure. -/
def bitmapCreateInBuf (bitCnt blockSize : ℕ) (words : ℕ → BitVec 32) : Except Fault Bitmap := do
  assert (blockSize ≥ bitmapBufSize bitCnt) "block_size >= bitmap_buf_size (bit_cnt)"
  clearBits bitCnt ((List.range ((blockSize - 8) / 4)).map words)

/-- `bitmap_create`; the flags say whether the two calls of `malloc` succeed, and `words` is what
the memory holds.  `malloc (0)` is null. -/
def bitmapCreate (bitCnt : ℕ) (granted bitsGranted : Bool) (words : ℕ → BitVec 32) :
    Except Fault (Option Bitmap) :=
  if granted then
    let bits := if bitsGranted ∧ byteCnt bitCnt ≠ 0 then
      some ((List.range (elemCnt bitCnt)).map words) else none
    if bits.isSome ∨ bitCnt = 0 then some <$> clearBits bitCnt (bits.getD [])
    else .ok none
  else .ok none

/-- The loop of `bitmap_count`, with `n` bits to go. -/
def countLoop (b : Bitmap) (value : Bool) : ℕ → ℕ → ℕ → Except Fault ℕ
  | 0, _, valueCnt => return valueCnt
  | n + 1, idx, valueCnt => do
      if (← b.bitmapTest idx) = value then countLoop b value n (idx + 1) (valueCnt + 1)
      else countLoop b value n (idx + 1) valueCnt

def bitmapCount (b : Bitmap) (start cnt : ℕ) (value : Bool) : Except Fault ℕ := do
  b.checkRange start cnt
  b.countLoop value cnt start 0

/-- The loop of `bitmap_contains`, with `n` bits to go. -/
def containsLoop (b : Bitmap) (value : Bool) : ℕ → ℕ → Except Fault Bool
  | 0, _ => return false
  | n + 1, idx => do
      if (← b.bitmapTest idx) = value then return true
      else containsLoop b value n (idx + 1)

def bitmapContains (b : Bitmap) (start cnt : ℕ) (value : Bool) : Except Fault Bool := do
  b.checkRange start cnt
  b.containsLoop value cnt start

def bitmapAny (b : Bitmap) (start cnt : ℕ) : Except Fault Bool :=
  b.bitmapContains start cnt true

def bitmapNone (b : Bitmap) (start cnt : ℕ) : Except Fault Bool := do
  return !(← b.bitmapContains start cnt true)

def bitmapAll (b : Bitmap) (start cnt : ℕ) : Except Fault Bool := do
  return !(← b.bitmapContains start cnt false)

def bitmapError : ℕ := sizeLimit - 1

/-- The loop of `bitmap_scan`, with `n` places to go. -/
def scanLoop (b : Bitmap) (cnt : ℕ) (value : Bool) : ℕ → ℕ → Except Fault ℕ
  | 0, _ => return bitmapError
  | n + 1, i => do
      if !(← b.bitmapContains i cnt (!value)) then return i
      else scanLoop b cnt value n (i + 1)

def bitmapScan (b : Bitmap) (start cnt : ℕ) (value : Bool) : Except Fault ℕ := do
  assert (start ≤ b.bitCnt) "start <= b->bit_cnt"
  if cnt ≤ b.bitCnt then
    let last := b.bitCnt - cnt
    b.scanLoop cnt value (last + 1 - start) start
  else return bitmapError

def bitmapScanAndFlip (b : Bitmap) (start cnt : ℕ) (value : Bool) : Except Fault (ℕ × Bitmap) := do
  let idx ← b.bitmapScan start cnt value
  if idx ≠ bitmapError then
    let b ← b.bitmapSetMultiple idx cnt (!value)
    return (idx, b)
  else return (idx, b)

/-! ## The bits -/

variable {b b' : Bitmap} {idx start cnt n i j : ℕ} {value : Bool}

def bit (b : Bitmap) (i : ℕ) : Bool := bitAt b.bits i

/-- `b'` is `b` with the bits from `start` on set to `value`. -/
structure SetTo (b b' : Bitmap) (start cnt : ℕ) (value : Bool) : Prop where
  bitCnt : b'.bitCnt = b.bitCnt
  bit : ∀ j, b'.bit j = if start ≤ j ∧ j < start + cnt then value else b.bit j

/-- All the bits from `start` on are `value`. -/
def AllEq (b : Bitmap) (start cnt : ℕ) (value : Bool) : Prop :=
  ∀ j, start ≤ j → j < start + cnt → b.bit j = value

theorem elemIdx_lt (h : idx < b.bitCnt) : elemIdx idx < b.bits.length := by
  have hroom := b.room
  unfold elemIdx
  omega

theorem bitmapTest_eq (h : idx < b.bitCnt) : b.bitmapTest idx = .ok (b.bit idx) := by
  have hmask := and_mask_ne_zero (x := b.bits.getD (elemIdx idx) 0) (Nat.mod_lt idx (by decide))
  unfold bitmapTest assert
  rw [if_pos h]
  exact congrArg Except.ok hmask

theorem setTo_modify (h : idx < b.bitCnt) {f : BitVec 32 → BitVec 32}
    (hf : ∀ k < 32, (f (b.bits.getD (elemIdx idx) 0)).getLsbD k =
      if k = idx % 32 then value else (b.bits.getD (elemIdx idx) 0).getLsbD k) :
    SetTo b (b.modify (elemIdx idx) f) idx 1 value := by
  refine ⟨rfl, ?_⟩
  intro j
  have hone : idx ≤ j ∧ j < idx + 1 ↔ j = idx := by omega
  simp only [hone]
  exact bitAt_modify (by decide) (elemIdx_lt h) hf j

theorem bitmapSet_spec (h : idx < b.bitCnt) (value : Bool) :
    ∃ b', b.bitmapSet idx value = .ok b' ∧ SetTo b b' idx 1 value := by
  unfold bitmapSet assert
  rw [if_pos h]
  cases value with
  | true =>
    refine ⟨_, if_pos (elemIdx_lt h), setTo_modify h ?_⟩
    exact fun k hk => getLsbD_or_mask hk
  | false =>
    refine ⟨_, if_pos (elemIdx_lt h), setTo_modify h ?_⟩
    exact fun k hk => getLsbD_and_not_mask hk

theorem SetTo.trans_one {c : Bitmap} (hfirst : SetTo b b' idx 1 value)
    (hrest : SetTo b' c (idx + 1) n value) : SetTo b c idx (n + 1) value := by
  refine ⟨hrest.bitCnt.trans hfirst.bitCnt, ?_⟩
  intro j
  rw [hrest.bit, hfirst.bit]
  by_cases hj : j = idx
  · have hnot : ¬ (idx + 1 ≤ j ∧ j < idx + 1 + n) := by omega
    have hone : idx ≤ j ∧ j < idx + 1 := by omega
    have hall : idx ≤ j ∧ j < idx + (n + 1) := by omega
    rw [if_neg hnot, if_pos hone, if_pos hall]
  · have hone : ¬ (idx ≤ j ∧ j < idx + 1) := by omega
    have hiff : idx + 1 ≤ j ∧ j < idx + 1 + n ↔ idx ≤ j ∧ j < idx + (n + 1) := by omega
    rw [if_neg hone]
    simp only [hiff]

theorem setLoop_spec (h : idx + n ≤ b.bitCnt) (value : Bool) :
    ∃ b', setLoop value n idx b = .ok b' ∧ SetTo b b' idx n value := by
  induction n generalizing idx b with
  | zero =>
    refine ⟨b, rfl, rfl, ?_⟩
    intro j
    rw [if_neg (by omega)]
  | succ n ih =>
    obtain ⟨b₁, hset, hone⟩ := bitmapSet_spec (b := b) (show idx < b.bitCnt by omega) value
    have hrange : idx + 1 + n ≤ b₁.bitCnt := by
      rw [hone.bitCnt]
      omega
    obtain ⟨b', hloop, hrest⟩ := ih hrange
    refine ⟨b', ?_, hone.trans_one hrest⟩
    rwa [setLoop, hset]

theorem checkRange_eq (h : start + cnt ≤ b.bitCnt) : b.checkRange start cnt = .ok () := by
  have hsmall := b.small
  have hmod : (start + cnt) % sizeLimit = start + cnt := Nat.mod_eq_of_lt (by omega)
  unfold checkRange assert
  rw [if_pos (by omega), hmod, if_pos h]
  rfl

/-- **`bitmap_set_multiple`.** -/
theorem bitmapSetMultiple_spec (h : start + cnt ≤ b.bitCnt) (value : Bool) :
    ∃ b', b.bitmapSetMultiple start cnt value = .ok b' ∧ SetTo b b' start cnt value := by
  obtain ⟨b', hloop, hset⟩ := setLoop_spec h value
  refine ⟨b', ?_, hset⟩
  rwa [bitmapSetMultiple, checkRange_eq h]

theorem containsLoop_spec (h : idx + n ≤ b.bitCnt) (value : Bool) :
    ∃ r, b.containsLoop value n idx = .ok r ∧ (r = false ↔ b.AllEq idx n (!value)) := by
  induction n generalizing idx with
  | zero => exact ⟨false, rfl, fun _ j hlow hhigh => by omega, fun _ => rfl⟩
  | succ n ih =>
    rw [containsLoop, bitmapTest_eq (show idx < b.bitCnt by omega)]
    by_cases hbit : b.bit idx = value
    · refine ⟨true, if_pos hbit, nofun, ?_⟩
      intro hall
      have hnot := hall idx (le_refl _) (by omega)
      rw [hbit] at hnot
      cases value <;> cases hnot
    obtain ⟨r, hloop, hiff⟩ := ih (show idx + 1 + n ≤ b.bitCnt by omega)
    refine ⟨r, (if_neg hbit).trans hloop, hiff.trans ?_⟩
    constructor
    · intro hrest j hlow hhigh
      rcases Nat.eq_or_lt_of_le hlow with rfl | hlt
      · cases value <;> simpa using hbit
      · exact hrest j hlt (by omega)
    · intro hall j hlow hhigh
      exact hall j (by omega) (by omega)

/-- **`bitmap_contains`.** -/
theorem bitmapContains_spec (h : start + cnt ≤ b.bitCnt) (value : Bool) :
    ∃ r, b.bitmapContains start cnt value = .ok r ∧ (r = false ↔ b.AllEq start cnt (!value)) := by
  obtain ⟨r, hloop, hiff⟩ := containsLoop_spec h value
  refine ⟨r, ?_, hiff⟩
  rwa [bitmapContains, checkRange_eq h]

theorem bitmapAll_eq (h : start + cnt ≤ b.bitCnt) (hall : b.AllEq start cnt true) :
    b.bitmapAll start cnt = .ok true := by
  obtain ⟨r, hcontains, hiff⟩ := bitmapContains_spec h false
  rw [bitmapAll, hcontains, hiff.mpr hall]
  rfl

/-- What a scan for `cnt` equal bits has found among the places from `start` to `stop`. -/
def Found (b : Bitmap) (start stop cnt : ℕ) (value : Bool) (r : ℕ) : Prop :=
  (r = bitmapError ∧ ∀ i, start ≤ i → i < stop → ¬ b.AllEq i cnt value) ∨
    (start ≤ r ∧ r < stop ∧ b.AllEq r cnt value ∧ ∀ i, start ≤ i → i < r → ¬ b.AllEq i cnt value)

theorem scanLoop_spec (h : ∀ i, start ≤ i → i < start + n → i + cnt ≤ b.bitCnt) (value : Bool) :
    ∃ r, b.scanLoop cnt value n start = .ok r ∧ b.Found start (start + n) cnt value r := by
  induction n generalizing start with
  | zero => exact ⟨bitmapError, rfl, .inl ⟨rfl, fun i hlow hhigh => by omega⟩⟩
  | succ n ih =>
    obtain ⟨found, hcontains, hiff⟩ :=
      bitmapContains_spec (h start (le_refl _) (by omega)) (!value)
    rw [Bool.not_not] at hiff
    rw [scanLoop, hcontains]
    cases found with
    | false =>
      refine ⟨start, rfl, .inr ⟨le_refl _, by omega, hiff.mp rfl, ?_⟩⟩
      exact fun i hlow hhigh => by omega
    | true =>
      have hplaces : ∀ i, start + 1 ≤ i → i < start + 1 + n → i + cnt ≤ b.bitCnt :=
        fun i hlow hhigh => h i (by omega) (by omega)
      obtain ⟨r, hloop, hfound⟩ := ih hplaces
      have hhere : ¬ b.AllEq start cnt value := fun hall => Bool.noConfusion (hiff.mpr hall)
      have hearlier : ∀ i, start ≤ i → ¬ start + 1 ≤ i → ¬ b.AllEq i cnt value := by
        intro i hlow hhigh
        obtain rfl : i = start := by omega
        exact hhere
      refine ⟨r, hloop, ?_⟩
      rcases hfound with ⟨herror, hnone⟩ | ⟨hlow, hhigh, hall, hfirst⟩
      · refine .inl ⟨herror, fun i hi hstop => ?_⟩
        by_cases hnext : start + 1 ≤ i
        · exact hnone i hnext (by omega)
        · exact hearlier i hi hnext
      · refine .inr ⟨by omega, by omega, hall, fun i hi hr => ?_⟩
        by_cases hnext : start + 1 ≤ i
        · exact hfirst i hnext hr
        · exact hearlier i hi hnext

/-- **`bitmap_scan`** finds the first place with `cnt` bits equal to `value`, if there is one. -/
theorem bitmapScan_spec (h : start ≤ b.bitCnt) (cnt : ℕ) (value : Bool) :
    ∃ r, b.bitmapScan start cnt value = .ok r ∧ b.Found start (b.bitCnt + 1 - cnt) cnt value r := by
  unfold bitmapScan assert
  rw [if_pos h]
  by_cases hcnt : cnt ≤ b.bitCnt
  · have hplaces : ∀ i, start ≤ i → i < start + (b.bitCnt - cnt + 1 - start) →
        i + cnt ≤ b.bitCnt := by omega
    obtain ⟨r, hloop, hfound⟩ := scanLoop_spec hplaces value
    refine ⟨r, (if_pos hcnt).trans hloop, ?_⟩
    rcases hfound with ⟨herror, hnone⟩ | ⟨hlow, hhigh, hall, hfirst⟩
    · exact .inl ⟨herror, fun i hi hstop => hnone i hi (by omega)⟩
    · exact .inr ⟨hlow, by omega, hall, hfirst⟩
  · exact ⟨bitmapError, if_neg hcnt, .inl ⟨rfl, fun i hi hstop => by omega⟩⟩

/-- **`bitmap_scan_and_flip`**, for at least one bit. -/
theorem bitmapScanAndFlip_spec (h : start ≤ b.bitCnt) (hcnt : 0 < cnt) (value : Bool) :
    ∃ r b', b.bitmapScanAndFlip start cnt value = .ok (r, b') ∧
      ((r = bitmapError ∧ b' = b ∧ ∀ i, start ≤ i → i + cnt ≤ b.bitCnt → ¬ b.AllEq i cnt value) ∨
      (r ≠ bitmapError ∧ start ≤ r ∧ r + cnt ≤ b.bitCnt ∧ b.AllEq r cnt value ∧
        SetTo b b' r cnt (!value))) := by
  obtain ⟨r, hscan, hfound⟩ := bitmapScan_spec h cnt value
  rcases hfound with ⟨herror, hnone⟩ | ⟨hlow, hhigh, hall, -⟩
  · refine ⟨r, b, ?_, .inl ⟨herror, rfl, fun i hi hroom => hnone i hi (by omega)⟩⟩
    rw [bitmapScanAndFlip, hscan]
    exact if_neg (not_not.mpr herror)
  have hrange : r + cnt ≤ b.bitCnt := by omega
  have hne : r ≠ bitmapError := by
    have hsmall := b.small
    unfold bitmapError
    omega
  obtain ⟨b', hset, hto⟩ := bitmapSetMultiple_spec hrange (!value)
  refine ⟨r, b', ?_, .inr ⟨hne, hlow, hrange, hall, hto⟩⟩
  rw [bitmapScanAndFlip, hscan]
  refine (if_pos hne).trans ?_
  rw [hset]
  rfl

theorem clearBits_spec {bitCnt : ℕ} {bits : List (BitVec 32)} (hroom : bitCnt ≤ 32 * bits.length)
    (hsmall : bitCnt < sizeLimit) :
    ∃ b, clearBits bitCnt bits = .ok b ∧ b.bitCnt = bitCnt ∧ ∀ j < bitCnt, b.bit j = false := by
  have hall : 0 + bitCnt ≤ (Bitmap.mk bitCnt bits hroom hsmall).bitCnt :=
    le_of_eq (zero_add _)
  obtain ⟨b, hset, hto⟩ := bitmapSetMultiple_spec hall false
  refine ⟨b, (dif_pos ⟨hroom, hsmall⟩).trans hset, hto.bitCnt, fun j hj => ?_⟩
  rw [hto.bit, if_pos (by omega)]

/-- A bitmap that could be created is clear, and not so large that `elem_cnt` wraps around. -/
theorem bitmapCreate_spec {bitCnt : ℕ} {granted bitsGranted : Bool} {words : ℕ → BitVec 32}
    (h : bitmapCreate bitCnt granted bitsGranted words = .ok (some b)) :
    b.bitCnt = bitCnt ∧ bitCnt < bitmapError ∧ ∀ j < bitCnt, b.bit j = false := by
  unfold bitmapCreate at h
  cases granted with
  | false => cases h
  | true =>
    simp only [if_true] at h
    generalize hbits : (if bitsGranted = true ∧ byteCnt bitCnt ≠ 0 then
      some ((List.range (elemCnt bitCnt)).map words) else none) = bits at h
    split at h
    next hsome =>
      obtain ⟨b', hclear, ⟨⟩⟩ := map_eq_ok.mp h
      by_cases hroom : bitCnt ≤ 32 * (bits.getD []).length ∧ bitCnt < sizeLimit
      · obtain ⟨b', hrun, hcnt, hbit⟩ := clearBits_spec hroom.1 hroom.2
        cases hclear.symm.trans hrun
        refine ⟨hcnt, ?_, hbit⟩
        split at hbits
        next hcnt =>
          -- there are words, so their number did not wrap around
          have hbytes := hcnt.2
          simp only [byteCnt, elemCnt, divRoundUp, sizeLimit, bitmapError] at hbytes hroom ⊢
          omega
        next =>
          subst hbits
          have hzero : bitCnt = 0 := hsome.resolve_left Bool.false_ne_true
          rw [hzero]
          decide
      · unfold clearBits at hclear
        rw [dif_neg hroom] at hclear
        cases hclear
    next => cases h

/-- **`bitmap_create_in_buf`** in a buffer that is large enough. -/
theorem bitmapCreateInBuf_spec {bitCnt blockSize : ℕ} (hsmall : bitCnt + 31 < sizeLimit)
    (hblock : bitmapBufSize bitCnt ≤ blockSize) (words : ℕ → BitVec 32) :
    ∃ b, bitmapCreateInBuf bitCnt blockSize words = .ok b ∧ b.bitCnt = bitCnt ∧
      ∀ j, j < bitCnt → b.bit j = false := by
  have hsize : 8 + 4 * ((bitCnt + 31) / 32) ≤ blockSize := by
    have hbuf : bitmapBufSize bitCnt = 8 + 4 * ((bitCnt + 31) / 32) := by
      unfold bitmapBufSize byteCnt elemCnt divRoundUp
      simp only [sizeLimit] at hsmall ⊢
      omega
    omega
  have hroom : bitCnt ≤ 32 * ((List.range ((blockSize - 8) / 4)).map words).length := by
    rw [List.length_map, List.length_range]
    omega
  obtain ⟨b, hclear, hb⟩ := clearBits_spec hroom (by omega)
  refine ⟨b, ?_, hb⟩
  unfold bitmapCreateInBuf assert
  rw [if_pos hblock]
  exact hclear

end Bitmap

end CS162
