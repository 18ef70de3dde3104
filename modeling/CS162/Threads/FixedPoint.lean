import Mathlib.Tactic
import CS162.Block

/-!
# Fixed-point numbers

`threads/fixed-point.h`: an `int` counts the 65536th parts of a number.

## Strategy

The macros give 16 bits to the integer part, and the assertions admit all integers that fit in
them without their sign.  The sign needs one of these bits, and C divides toward zero, so both
results come down to linear arithmetic over `toInt`.
-/

namespace CS162

abbrev fixF : ℤ := 65536

/-- `FIX_MAX_INT`; `FIX_MIN_INT` is its negative. -/
abbrev fixMaxInt : ℤ := 65535

structure FixedPoint where
  f : BitVec 32

def mkFix (f : ℤ) : FixedPoint := ⟨BitVec.ofInt 32 f⟩

/-- `fix_int`; the product is an `int`. -/
def fixInt (n : BitVec 32) : Except Fault FixedPoint :=
  if -fixMaxInt ≤ n.toInt ∧ n.toInt ≤ fixMaxInt then
    if -2 ^ 31 ≤ n.toInt * fixF ∧ n.toInt * fixF < 2 ^ 31 then .ok (mkFix (n.toInt * fixF))
    else .error (.undefined "n * FIX_F")
  else .error (.panic "fix_int")

def fixFrac (n d : BitVec 32) : Except Fault FixedPoint :=
  if d = 0 then .error (.panic "fix_frac")
  else if -fixMaxInt ≤ n.toInt.tdiv d.toInt ∧ n.toInt.tdiv d.toInt ≤ fixMaxInt then
    -- The product is a `long long`, and the quotient is cut to an `int`.
    .ok (mkFix ((n.toInt * fixF).tdiv d.toInt))
  else .error (.panic "fix_frac")

def fixRound (x : FixedPoint) : ℤ := (x.f + BitVec.ofInt 32 (fixF / 2)).toInt.tdiv fixF

def fixTrunc (x : FixedPoint) : ℤ := x.f.toInt.tdiv fixF

/-- C divides toward zero. -/
theorem tdiv_fixF (y : ℤ) : y.tdiv fixF = if 0 ≤ y then y / 65536 else -(-y / 65536) := by
  split
  · exact Int.tdiv_eq_ediv_of_nonneg ‹_›
  · rw [← Int.tdiv_eq_ediv_of_nonneg (by omega), Int.neg_tdiv, neg_neg]

/-- The field holds the number exactly if the sign bit is not needed for it. -/
theorem toInt_mkFix_eq_iff {f : ℤ} : (mkFix f).f.toInt = f ↔ -2 ^ 31 ≤ f ∧ f < 2 ^ 31 := by
  have hmkFix : (mkFix f).f.toInt = f.bmod (2 ^ 32) := BitVec.toInt_ofInt ..
  constructor
  · intro heq
    have hle := BitVec.le_toInt (mkFix f).f
    have hlt := BitVec.toInt_lt (x := (mkFix f).f)
    omega
  · intro hrange
    rw [hmkFix, Int.bmod_eq_of_le] <;> omega

/-- A quotient of `int`s in 65536th parts fits exactly if the quotient lies in [-32768, 32768). -/
theorem tdiv_range_of_pos {n d : ℤ} (hd : 0 < d) (hn : -2 ^ 31 ≤ n) :
    (-2 ^ 31 ≤ (n * 2 ^ 16).tdiv d ∧ (n * 2 ^ 16).tdiv d < 2 ^ 31) ↔
      -2 ^ 15 ≤ (n / d : ℚ) ∧ (n / d : ℚ) < 2 ^ 15 := by
  have hd' : (0 : ℚ) < d := by exact_mod_cast hd
  have hlow : -2 ^ 15 ≤ (n / d : ℚ) ↔ -2 ^ 15 * d ≤ n := by
    rw [le_div_iff₀ hd']
    exact_mod_cast Iff.rfl
  have hhigh : (n / d : ℚ) < 2 ^ 15 ↔ n < 2 ^ 15 * d := by
    rw [div_lt_iff₀ hd']
    exact_mod_cast Iff.rfl
  rw [hlow, hhigh]
  rcases Int.le_total 0 n with hpos | hneg
  · have hquot : 0 ≤ n * 2 ^ 16 / d := Int.ediv_nonneg (by omega) hd.le
    rw [Int.tdiv_eq_ediv_of_nonneg (by omega), Int.ediv_lt_iff_lt_mul hd]
    omega
  · have hquot : 0 ≤ -(n * 2 ^ 16) / d := Int.ediv_nonneg (by omega) hd.le
    rw [← neg_neg (n * 2 ^ 16), Int.neg_tdiv, Int.tdiv_eq_ediv_of_nonneg (by omega), neg_le_neg_iff,
      ← Int.lt_add_one_iff, Int.ediv_lt_iff_lt_mul hd]
    -- A remainder below `d` would need `d` above 65536, and then `n` is no `int`.
    omega

theorem fixFrac_range {n d : BitVec 32} (hd : d ≠ 0) :
    (-2 ^ 31 ≤ (n.toInt * 2 ^ 16).tdiv d.toInt ∧ (n.toInt * 2 ^ 16).tdiv d.toInt < 2 ^ 31) ↔
      -2 ^ 15 ≤ (n.toInt / d.toInt : ℚ) ∧ (n.toInt / d.toInt : ℚ) < 2 ^ 15 := by
  have hle := BitVec.le_toInt n
  have hlt := BitVec.toInt_lt (x := n)
  rcases Int.lt_trichotomy d.toInt 0 with hneg | hzero | hpos
  · have hflip := tdiv_range_of_pos (n := -n.toInt) (Int.neg_pos.mpr hneg) (by omega)
    rw [neg_mul, Int.neg_tdiv, Int.tdiv_neg, neg_neg] at hflip
    push_cast at hflip
    rwa [neg_div_neg_eq] at hflip
  · exact absurd (BitVec.eq_of_toInt_eq hzero) hd
  · exact tdiv_range_of_pos hpos hle

/-- **Construction is exact** exactly if the number lies in [-32768, 32768).  The product of an
integer outside of it overflows, and the quotient is cut off. -/
theorem fixInt_fixFrac_exact_iff (n d : BitVec 32) (x : FixedPoint) :
    (-fixMaxInt ≤ n.toInt ∧ n.toInt ≤ fixMaxInt →
      ((∃ y, fixInt n = .ok y ∧ fixTrunc y = n.toInt) ↔ -2 ^ 15 ≤ n.toInt ∧ n.toInt < 2 ^ 15)) ∧
      (fixFrac n d = .ok x → (x.f.toInt = (n.toInt * 2 ^ 16).tdiv d.toInt ↔
        -2 ^ 15 ≤ (n.toInt / d.toInt : ℚ) ∧ (n.toInt / d.toInt : ℚ) < 2 ^ 15)) := by
  constructor
  · intro hrange
    rw [fixInt, if_pos hrange]
    by_cases hfits : -2 ^ 31 ≤ n.toInt * fixF ∧ n.toInt * fixF < 2 ^ 31
    · rw [if_pos hfits]
      refine iff_of_true ⟨_, rfl, ?_⟩ (by unfold fixF at hfits; omega)
      rw [fixTrunc, toInt_mkFix_eq_iff.mpr hfits, Int.mul_tdiv_cancel _ (by decide)]
    · rw [if_neg hfits]
      exact iff_of_false (by rintro ⟨_, ⟨⟩, -⟩) (by unfold fixF at hfits; omega)
  intro hfix
  unfold fixFrac at hfix
  split at hfix
  · cases hfix
  · split at hfix
    · cases hfix
      exact toInt_mkFix_eq_iff.trans (fixFrac_range ‹_›)
    · cases hfix

theorem fixInt_fixFrac_exact_iff_cases :
    (∃ y, fixInt (-3) = .ok y ∧ fixTrunc y = -3) ∧
      (mkFix 229376).f.toInt = (7 * 2 ^ 16 : ℤ).tdiv 2 :=
  ⟨((fixInt_fixFrac_exact_iff (-3) 0 ⟨0⟩).1 (by decide)).mpr (by decide),
    ((fixInt_fixFrac_exact_iff 7 2 _).2 rfl).mpr (by
      rw [show (7 : BitVec 32).toInt = 7 from rfl, show (2 : BitVec 32).toInt = 2 from rfl]
      norm_num)⟩

theorem fixInt_fixFrac_inexact :
    ∃ x, fixFrac 40000 1 = .ok x ∧ x.f.toInt = 40000 * 2 ^ 16 - 2 ^ 32 :=
  ⟨_, rfl, by decide⟩

/-- **Rounding is to the nearest integer** exactly if the sum with one half is not negative or is
an integer, and it is monotone. -/
theorem fixRound_nearest_iff (x : FixedPoint) (hx : x.f.toInt + 2 ^ 15 < 2 ^ 31) :
    (|(fixRound x - x.f.toInt / 2 ^ 16 : ℚ)| ≤ 1 / 2 ↔
      -2 ^ 15 ≤ x.f.toInt ∨ 2 ^ 16 ∣ x.f.toInt + 2 ^ 15) ∧
      ∀ y : FixedPoint, y.f.toInt + 2 ^ 15 < 2 ^ 31 → x.f.toInt ≤ y.f.toInt →
        fixRound x ≤ fixRound y := by
  have hround : ∀ y : FixedPoint, y.f.toInt + 2 ^ 15 < 2 ^ 31 →
      fixRound y = (y.f.toInt + 2 ^ 15).tdiv fixF := by
    intro y hy
    have hle := BitVec.le_toInt y.f
    have hconst : (BitVec.ofInt 32 (fixF / 2)).toInt = 2 ^ 15 := by decide
    rw [fixRound, BitVec.toInt_add, hconst, Int.bmod_eq_of_le] <;> omega
  have hhalf : |(fixRound x - x.f.toInt / 2 ^ 16 : ℚ)| ≤ 1 / 2 ↔
      |fixRound x * 2 ^ 16 - x.f.toInt| ≤ 2 ^ 15 := by
    have hscale : (fixRound x - x.f.toInt / 2 ^ 16 : ℚ) =
        (fixRound x * 2 ^ 16 - x.f.toInt : ℤ) / 2 ^ 16 := by
      push_cast
      ring
    rw [hscale, abs_div, abs_of_pos (by norm_num : (0 : ℚ) < 2 ^ 16), div_le_iff₀ (by norm_num),
      show (1 / 2 * 2 ^ 16 : ℚ) = (2 ^ 15 : ℤ) by norm_num]
    exact_mod_cast Iff.rfl
  constructor
  · rw [hhalf, hround x hx, tdiv_fixF, abs_le]
    split <;> omega
  · intro y hy hle
    rw [hround x hx, hround y hy, tdiv_fixF, tdiv_fixF]
    split <;> split <;> omega

theorem fixRound_nearest_iff_quarter : fixRound ⟨BitVec.ofInt 32 81920⟩ = 1 ∧
    |(fixRound ⟨BitVec.ofInt 32 81920⟩ - (BitVec.ofInt 32 81920).toInt / 2 ^ 16 : ℚ)| ≤ 1 / 2 :=
  ⟨by decide, (fixRound_nearest_iff ⟨BitVec.ofInt 32 81920⟩ (by decide)).1.mpr (.inl (by decide))⟩

/-- The number -1 is rounded to 0. -/
theorem fixRound_minus_one : fixRound ⟨BitVec.ofInt 32 (-65536)⟩ = 0 ∧
    ¬ |((0 : ℤ) - (BitVec.ofInt 32 (-65536)).toInt / 2 ^ 16 : ℚ)| ≤ 1 / 2 := by
  refine ⟨by decide, ?_⟩
  rw [show (BitVec.ofInt 32 (-65536)).toInt = -65536 from by decide]
  norm_num

end CS162
