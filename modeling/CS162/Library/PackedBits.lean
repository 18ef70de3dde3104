import Mathlib.Data.BitVec
import Mathlib.Data.Nat.Notation

/-!
# Bits packed in words

An array of bits is kept in a list of `w`-bit words: bit `i` is bit `i % w` of word `i / w`.
Setting, clearing, flipping and testing one bit are done on its word, with a mask that has
only that bit.
-/

namespace CS162.Library

variable {w : ℕ} {words : List (BitVec w)} {i j : ℕ}

def bitAt (words : List (BitVec w)) (i : ℕ) : Bool := (words.getD (i / w) 0).getLsbD (i % w)

theorem getLsbD_mask (hj : j < w) : (1#w <<< i).getLsbD j = decide (j = i) := by
  rw [BitVec.getLsbD_shiftLeft, BitVec.getLsbD_one, Bool.eq_iff_iff]
  simp only [Bool.and_eq_true, Bool.not_eq_true', decide_eq_true_eq, decide_eq_false_iff_not]
  omega

/-! ## One word -/

variable {x : BitVec w}

theorem getLsbD_or_mask (hj : j < w) :
    (x ||| 1#w <<< i).getLsbD j = if j = i then true else x.getLsbD j := by
  rw [BitVec.getLsbD_or, getLsbD_mask hj]
  by_cases h : j = i <;> simp [h]

theorem getLsbD_and_not_mask (hj : j < w) :
    (x &&& ~~~(1#w <<< i)).getLsbD j = if j = i then false else x.getLsbD j := by
  rw [BitVec.getLsbD_and, BitVec.getLsbD_not, getLsbD_mask hj]
  by_cases h : j = i <;> simp [h, hj]

theorem getLsbD_xor_mask (hj : j < w) :
    (x ^^^ 1#w <<< i).getLsbD j = if j = i then !x.getLsbD i else x.getLsbD j := by
  rw [BitVec.getLsbD_xor, getLsbD_mask hj]
  by_cases h : j = i <;> simp [h]

theorem getLsbD_low_mask {n : ℕ} (hn : n < w) : ((1#w <<< n) - 1#w).getLsbD j = decide (j < n) := by
  have hone : 1 < 2 ^ w := Nat.one_lt_two_pow (by omega)
  have hlt : 2 ^ n < 2 ^ w := Nat.pow_lt_pow_right (by decide) hn
  have hpos : 0 < 2 ^ n := Nat.two_pow_pos n
  have hvalue : ((1#w <<< n) - 1#w).toNat = 2 ^ n - 1 := by
    rw [BitVec.toNat_sub, BitVec.toNat_shiftLeft, BitVec.toNat_ofNat, Nat.mod_eq_of_lt hone,
      Nat.one_shiftLeft, Nat.mod_eq_of_lt hlt]
    rw [show 2 ^ w - 1 + 2 ^ n = 2 ^ n - 1 + 2 ^ w by omega, Nat.add_mod_right,
      Nat.mod_eq_of_lt (by omega)]
  rw [BitVec.getLsbD, hvalue, Nat.testBit_two_pow_sub_one]

/-- A word and a mask have a bit in common if the word has the mask's bit. -/
theorem and_mask_ne_zero (hi : i < w) : (x &&& 1#w <<< i != 0#w) = x.getLsbD i := by
  cases hx : x.getLsbD i with
  | false =>
    rw [bne_eq_false_iff_eq]
    apply BitVec.eq_of_getLsbD_eq
    intro k hk
    rw [BitVec.getLsbD_and, getLsbD_mask hk, BitVec.getLsbD_zero]
    by_cases h : k = i <;> simp [h, hx]
  | true =>
    rw [bne_iff_ne]
    intro hzero
    have hbit := congrArg (fun y => BitVec.getLsbD y i) hzero
    simp [BitVec.getLsbD_and, getLsbD_mask hi, hx] at hbit

/-! ## The array -/

theorem bitAt_modify (hw : 0 < w) {f : BitVec w → BitVec w} {v : Bool} (hi : i / w < words.length)
    (hf : ∀ k < w, (f (words.getD (i / w) 0)).getLsbD k =
      if k = i % w then v else (words.getD (i / w) 0).getLsbD k)
    (j : ℕ) : bitAt (words.modify (i / w) f) j = if j = i then v else bitAt words j := by
  unfold bitAt
  by_cases hword : i / w = j / w
  · have hj : j / w < words.length := hword ▸ hi
    have hbit : j % w = i % w ↔ j = i := by
      constructor
      · intro hmod
        rw [← Nat.div_add_mod j w, ← Nat.div_add_mod i w, hmod, hword]
      · exact fun hji => hji ▸ rfl
    have hbits := hf _ (Nat.mod_lt j hw)
    rw [hword, List.getD_eq_getElem?_getD, List.getElem?_eq_getElem hj] at hbits
    simp only [Option.getD_some, hbit] at hbits
    simp [hword, List.getElem?_eq_getElem hj, hbits]
  · have hne : j ≠ i := fun hji => hword (hji ▸ rfl)
    simp [hword, hne]

end CS162.Library
