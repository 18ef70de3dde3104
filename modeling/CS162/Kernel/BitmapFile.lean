import CS162.Kernel.Bitmap
import CS162.Library.Words

/-!
# Bitmaps in files (`lib/kernel/bitmap.c`)

`bitmap_write` writes the words of a bitmap as they are in memory; the unused bits of the last
word go into the file.  `bitmap_read` reads the words back and clears these bits with
`last_mask`.  `bitmapRead_spec` says which bits come back.
-/

namespace CS162

open Library List

namespace Bitmap

def lastMask (b : Bitmap) : BitVec 32 :=
  let lastBits := b.bitCnt % 32
  if lastBits ≠ 0 then (1#32 <<< lastBits) - 1#32 else -1#32

/-- The bytes of the words, as they are in memory. -/
def bytes (b : Bitmap) : ℕ → UInt8 := ofWords fun i => ⟨b.bits.getD i 0⟩

/-- `src` is copied over the first bytes of the words. -/
def overwrite (b : Bitmap) (src : List UInt8) : Bitmap :=
  { b with
    bits := (List.range b.bits.length).map fun i =>
      (wordAt (fun p => src.getD p (b.bytes p)) i).toBitVec
    room := by simpa using b.room }

/-- `bitmap_read`; `read` is what `file_read_at` has copied to `b->bits`. -/
def bitmapRead (b : Bitmap) (read : List UInt8) : Except Fault (Bitmap × Bool) :=
  if 0 < b.bitCnt then
    let last := (elemCnt b.bitCnt + sizeLimit - 1) % sizeLimit
    if last < b.bits.length then
      .ok ((b.overwrite read).modify last fun word => word &&& b.lastMask,
        read.length = byteCnt b.bitCnt)
    else .error (.undefined "b->bits[elem_cnt (b->bit_cnt) - 1]")
  else .ok (b, true)

variable {b : Bitmap} {read : List UInt8} {i : ℕ}

theorem getLsbD_lastMask (hi : i < 32) :
    b.lastMask.getLsbD i = decide (b.bitCnt % 32 = 0 ∨ i < b.bitCnt % 32) := by
  unfold lastMask
  by_cases hlast : b.bitCnt % 32 = 0
  · have hones : (-1#32).getLsbD i = true := by
      rw [BitVec.neg_one_eq_allOnes, BitVec.getLsbD_allOnes, decide_eq_true hi]
    simp only [hlast, ne_eq, not_true_eq_false, if_false, true_or, decide_true]
    exact hones
  · simp only [ne_eq, hlast, not_false_eq_true, if_true, false_or]
    exact getLsbD_low_mask (Nat.mod_lt _ (by decide))

theorem bit_overwrite (hi : i < 32 * b.bits.length) :
    (b.overwrite read).bit i = byteBit (fun p => read.getD p (b.bytes p)) i := by
  have hword : i / 32 < b.bits.length := by omega
  rw [← testBit_wordAt, bit, bitAt, overwrite, getD_eq_getElem?_getD, getElem?_map,
    getElem?_range hword]
  rfl

theorem elemCnt_eq {bitCnt : ℕ} (h : bitCnt + 31 < sizeLimit) :
    elemCnt bitCnt = (bitCnt + 31) / 32 := by
  unfold elemCnt divRoundUp
  rw [Nat.add_sub_assoc (by decide), Nat.mod_eq_of_lt h]

/-- The last word loses the bits that are not in the mask, the others stay. -/
theorem bit_mask_last (hcnt : 0 < b.bitCnt) (hlen : b.bits.length = (b.bitCnt + 31) / 32)
    (b' : Bitmap) (hlen' : b'.bits.length = b.bits.length) (i : ℕ) :
    (b'.modify ((b.bitCnt + 31) / 32 - 1) fun word => word &&& b.lastMask).bit i =
      (decide (i < b.bitCnt) && b'.bit i) := by
  unfold bit bitAt modify
  simp only [getD_eq_getElem?_getD, getElem?_modify]
  by_cases hi : i / 32 < b'.bits.length
  · rw [getElem?_eq_getElem hi]
    by_cases hlast : (b.bitCnt + 31) / 32 - 1 = i / 32
    · -- in the last word the mask says which bits are in use
      have hmask : (b.bitCnt % 32 = 0 ∨ i % 32 < b.bitCnt % 32) ↔ i < b.bitCnt := by omega
      simp only [hlast, if_true, Option.map_eq_map, Option.map_some, Option.getD_some,
        BitVec.getLsbD_and, getLsbD_lastMask (Nat.mod_lt i (by decide : 0 < 32)), hmask]
      exact Bool.and_comm _ _
    · have hin : i < b.bitCnt := by omega
      simp [hlast, hin]
  · have hout : ¬ i < b.bitCnt := by omega
    have hnone : b'.bits[i / 32]? = none := getElem?_eq_none (by omega)
    simp [hnone, hout]

/-- **`bitmap_read`.** After a complete read the bitmap has the bits of the file up to its length,
and the unused bits are clear. -/
theorem bitmapRead_spec (hcnt : 0 < b.bitCnt) (hsmall : b.bitCnt + 31 < sizeLimit)
    (hlen : b.bits.length = elemCnt b.bitCnt) (hread : read.length = byteCnt b.bitCnt) :
    ∃ b', b.bitmapRead read = .ok (b', true) ∧ b'.bitCnt = b.bitCnt ∧
      ∀ i, b'.bit i = (decide (i < b.bitCnt) && byteBit (fun p => read.getD p 0) i) := by
  rw [elemCnt_eq hsmall] at hlen
  have hindex : (elemCnt b.bitCnt + sizeLimit - 1) % sizeLimit = (b.bitCnt + 31) / 32 - 1 := by
    rw [elemCnt_eq hsmall, show (b.bitCnt + 31) / 32 + sizeLimit - 1 =
      (b.bitCnt + 31) / 32 - 1 + sizeLimit by omega, Nat.add_mod_right, Nat.mod_eq_of_lt (by omega)]
  refine ⟨(b.overwrite read).modify ((b.bitCnt + 31) / 32 - 1) fun word => word &&& b.lastMask,
    ?_, rfl, ?_⟩
  · unfold bitmapRead
    rw [if_pos hcnt, hindex, if_pos (by omega), decide_eq_true hread]
  intro i
  rw [bit_mask_last hcnt hlen _ (by simp [overwrite])]
  by_cases hi : i < b.bitCnt
  · rw [bit_overwrite (by omega)]
    have hbyte : i / 8 < read.length := by
      rw [hread, byteCnt, elemCnt_eq hsmall]
      omega
    simp only [byteBit, getD_eq_getElem?_getD, getElem?_eq_getElem hbyte, Option.getD_some]
  · simp [hi]

end Bitmap

end CS162
