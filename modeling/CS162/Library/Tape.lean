import Mathlib.Data.UInt
import Mathlib.Logic.Function.Basic

/-!
# Writing one block after another

`tape c p L` is a memory with contents `c` over which the blocks of `L` have been written
from address `p` on.  Writing the next block makes the list longer (`update_tape`), and a
second list that starts inside the first replaces its end (`tape_tape`).
-/

namespace CS162.Library

open List

variable {α : Type*} {c : UInt32 → α} {p : ℕ} {L : List α}

/-- The blocks `L` written from address `p` on. -/
def tape (c : UInt32 → α) (p : ℕ) (L : List α) : UInt32 → α := fun y =>
  if p ≤ y.toNat then (L[y.toNat - p]?).getD (c y) else c y

@[simp] theorem tape_nil : tape c p [] = c := by
  funext y
  simp [tape]

theorem tape_of_lt {y : UInt32} (h : y.toNat < p) : tape c p L y = c y :=
  if_neg (by omega)

theorem tape_of_ge {y : UInt32} (h : p + L.length ≤ y.toNat) : tape c p L y = c y := by
  rw [tape, if_pos (by omega), getElem?_eq_none (by omega), Option.getD_none]

/-- What the list holds at `k` is found `k` addresses behind its start. -/
theorem tape_getElem? {k : ℕ} {b : α} (h : L[k]? = some b) (hlt : p + k < 4294967296) :
    tape c p L (UInt32.ofNat (p + k)) = b := by
  have hnat : (UInt32.ofNat (p + k)).toNat = p + k := by
    rw [UInt32.toNat_ofNat', Nat.mod_eq_of_lt hlt]
  rw [tape, hnat, if_pos (by omega), Nat.add_sub_cancel_left, h, Option.getD_some]

theorem update_tape (c : UInt32 → α) (p : ℕ) (L : List α) (hlt : p + L.length < 4294967296)
    (b : α) :
    Function.update (tape c p L) (UInt32.ofNat (p + L.length)) b = tape c p (L ++ [b]) := by
  have hnat : (UInt32.ofNat (p + L.length)).toNat = p + L.length := by
    rw [UInt32.toNat_ofNat', Nat.mod_eq_of_lt hlt]
  funext y
  by_cases hy : y = UInt32.ofNat (p + L.length)
  · have hlast : (L ++ [b])[L.length]? = some b := getElem?_concat_length
    rw [hy, Function.update_self, tape_getElem? hlast hlt]
  have hne : y.toNat ≠ p + L.length := fun heq => hy (UInt32.toNat_inj.mp (heq.trans hnat.symm))
  rw [Function.update_of_ne hy]
  by_cases hlow : y.toNat < p + L.length
  · by_cases hp : p ≤ y.toNat
    · rw [tape, tape, if_pos hp, if_pos hp, getElem?_append_left (by omega)]
    · rw [tape_of_lt (by omega), tape_of_lt (by omega)]
  · rw [tape_of_ge (by omega), tape_of_ge (by rw [length_append, length_singleton]; omega)]

/-- A list that starts where the last block of the first one is, and is not empty. -/
theorem tape_tape (c : UInt32 → α) (p : ℕ) (L : List α) (b : α) {L' : List α} (h : L' ≠ []) :
    tape (tape c p (L ++ [b])) (p + L.length) L' = tape c p (L ++ L') := by
  have hpos : 0 < L'.length := length_pos_iff.mpr h
  funext y
  by_cases hlow : y.toNat < p + L.length
  · rw [tape_of_lt hlow]
    by_cases hp : p ≤ y.toNat
    · rw [tape, tape, if_pos hp, if_pos hp, getElem?_append_left (by omega),
        getElem?_append_left (by omega)]
    · rw [tape_of_lt (by omega), tape_of_lt (by omega)]
  by_cases hhigh : p + L.length + L'.length ≤ y.toNat
  · rw [tape_of_ge hhigh, tape_of_ge (by rw [length_append, length_singleton]; omega),
      tape_of_ge (by rw [length_append]; omega)]
  · have hright : (L ++ L')[y.toNat - p]? = L'[y.toNat - p - L.length]? :=
      getElem?_append_right (by omega)
    rw [tape, if_pos (by omega), tape, tape, if_pos (by omega), if_pos (by omega), hright,
      show y.toNat - (p + L.length) = y.toNat - p - L.length by omega,
      getElem?_eq_getElem (by omega), Option.getD_some, Option.getD_some]

end CS162.Library
