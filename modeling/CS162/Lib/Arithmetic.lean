import Mathlib.Tactic.Linarith
import CS162.Block

/-!
# 64-bit division

`lib/arithmetic.c` divides 64-bit integers with the 32-bit `divl` instruction of the x86,
which traps when the quotient does not fit.  A divisor below `2^32` is handled by long
division in base `2^32`.  A larger one is shifted until its top bit is set, and `n / 2` is
divided by its upper half alone.

## Strategy

Dropping the low half of the shifted divisor, `c + 1` at most against a divisor of at least
`2^31 * (c + 2)`, raises the quotient by at most one (`estimate_le`), and the remainder shows
whether it did (`corrected`).  So `udiv64` is the division of `UInt64` (`udiv64_eq`).  The
signed division and the two remainders are computed from it, as they are for `BitVec`
(`sdiv64_eq`, `umod64_eq`, `smod64_eq`).  The remainders then pass through a 32-bit type.
-/

namespace CS162

open Library

/-! ## lib/arithmetic.c -/

/-- The `divl` instruction, which raises the exception #DE if the quotient does not fit in 32
bits. -/
def divl (n : UInt64) (d : UInt32) : Except Fault UInt32 :=
  if d = 0 ∨ 2 ^ 32 ≤ n.toNat / d.toNat then .error (.panic "#DE Divide Error")
  else .ok (.ofNat (n.toNat / d.toNat))

/-- The number of leading zero bits of `x`, which must be nonzero. -/
def nlz (x : UInt32) : ℕ :=
  let (n, x) := if x ≤ 0x0000FFFF then (16, x <<< 16) else (0, x)
  let (n, x) := if x ≤ 0x00FFFFFF then (n + 8, x <<< 8) else (n, x)
  let (n, x) := if x ≤ 0x0FFFFFFF then (n + 4, x <<< 4) else (n, x)
  let (n, x) := if x ≤ 0x3FFFFFFF then (n + 2, x <<< 2) else (n, x)
  if x ≤ 0x7FFFFFFF then n + 1 else n

def udiv64 (n d : UInt64) : Except Fault UInt64 := do
  if d >>> 32 = 0 then
    let b := (1 : UInt64) <<< 32
    let n1 := (n >>> 32).toUInt32
    let n0 := n.toUInt32
    let d0 := d.toUInt32
    return (← divl (b * (n1 % d0).toUInt64 + n0.toUInt64) d0).toUInt64 + b * (n1 / d0).toUInt64
  else if n < d then return 0
  else
    let d1 := (d >>> 32).toUInt32
    let s := nlz d1
    let q := ((← divl (n >>> 1) ((d <<< .ofNat s) >>> 32).toUInt32) >>> .ofNat (31 - s)).toUInt64
    return if n - (q - 1) * d < d then q - 1 else q

/-- Signed arithmetic wraps, as the compiled code's does: for `INT64_MIN / 1` the quotient
is the negation of `INT64_MIN`. -/
def sdiv64 (n d : Int64) : Except Fault Int64 := do
  let nAbs := if 0 ≤ n then n.toUInt64 else -n.toUInt64
  let dAbs := if 0 ≤ d then d.toUInt64 else -d.toUInt64
  let qAbs ← udiv64 nAbs dAbs
  return if (n < 0 ↔ d < 0) then qAbs.toInt64 else -qAbs.toInt64

def umod64 (n d : UInt64) : Except Fault UInt32 := do
  return (n - d * (← udiv64 n d)).toUInt32

def smod64 (n d : Int64) : Except Fault Int32 := do
  return (n - d * (← sdiv64 n d)).toInt32

def umoddi3 (n d : UInt64) : Except Fault UInt64 := do
  return (← umod64 n d).toUInt64

def moddi3 (n d : Int64) : Except Fault Int64 := do
  return (← smod64 n d).toInt64

/-! ## Division -/

/-- Shifting by `nlz` sets the top bit and loses none. -/
theorem nlz_spec (x : UInt32) (hx : x ≠ 0) :
    nlz x ≤ 31 ∧ 2 ^ 31 ≤ x.toNat * 2 ^ nlz x ∧ x.toNat * 2 ^ nlz x < 2 ^ 32 := by
  have hpos : x.toNat ≠ 0 := fun h => hx (UInt32.toNat_inj.mp h)
  have hlt := x.toNat_lt
  unfold nlz
  simp only [UInt32.le_iff_toNat_le]
  split_ifs <;> simp_all <;> omega

theorem divl_rule {n : UInt64} {d : UInt32} {f : UInt32 → Except Fault UInt64} {r : UInt64}
    (hd : 0 < d.toNat) (hlt : n.toNat / d.toNat < 2 ^ 32)
    (h : ∀ q, q.toNat = n.toNat / d.toNat → f q = .ok r) : divl n d >>= f = .ok r := by
  rw [divl, if_neg]
  · exact h _ (UInt32.toNat_ofNat_of_lt' hlt)
  · rintro (rfl | hle)
    · exact lt_irrefl 0 hd
    · exact not_lt.mpr hle hlt

/-- Without the low bits of the divisor, the quotient is at most one more. -/
theorem estimate_le {n d c S : ℕ} (hn : n < 2 ^ 64) (hc : (c + 2) * S = 2 ^ 32)
    (hlow : 2 ^ 31 ≤ d / (c + 2)) : n / (d / (c + 2) * (c + 2)) ≤ n / d + 1 := by
  obtain ⟨D, hD⟩ : ∃ D, d / (c + 2) * (c + 2) = D := ⟨_, rfl⟩
  have hDlow : 2 ^ 31 * (c + 2) ≤ D := hD ▸ Nat.mul_le_mul_right _ hlow
  have hle : D ≤ d := hD ▸ Nat.div_mul_le_self d (c + 2)
  have hd : d < D + (c + 2) := hD ▸ Nat.lt_div_mul_add (by omega)
  -- a quotient is below `2 * S`, so the bits left out are worth less than one divisor in all
  have hfew : (c + 1) * (2 * S) ≤ D := by
    have hS : c * S ≤ c * 2 ^ 31 := Nat.mul_le_mul_left c (by nlinarith)
    linarith
  rw [hD]
  by_contra! hmore
  have hDpos : 0 < D := by omega
  have hlow : (n / d + 2) * D ≤ n := (Nat.le_div_iff_mul_le hDpos).mp hmore
  have hhigh : n < (n / d + 1) * d := Nat.lt_mul_of_div_lt (Nat.lt_succ_self _) (by omega)
  have hquot : n / D < 2 * S := by
    refine (Nat.div_lt_iff_lt_mul hDpos).mpr ?_
    nlinarith
  have hle : (n / d + 1) * (c + 1) ≤ (2 * S) * (c + 1) := Nat.mul_le_mul_right _ (by omega)
  have hd' : (n / d + 1) * d ≤ (n / d + 1) * (D + (c + 1)) := Nat.mul_le_mul_left _ (by omega)
  linarith

/-- The remainder of an estimate that is at most one too large shows whether it is. -/
theorem corrected {n d q : UInt64} (hd : 0 < d.toNat) (hpos : 0 < q.toNat)
    (hge : n.toNat / d.toNat ≤ q.toNat) (hle : q.toNat ≤ n.toNat / d.toNat + 1) :
    (if n - (q - 1) * d < d then q - 1 else q) = n / d := by
  have hn := n.toNat_lt
  have hmul : (q.toNat - 1) * d.toNat ≤ n.toNat := (Nat.le_div_iff_mul_le hd).mp (by omega)
  have hone : (q - 1).toNat = q.toNat - 1 :=
    UInt64.toNat_sub_of_le _ _ (UInt64.le_iff_toNat_le.mpr hpos)
  have hprod : ((q - 1) * d).toNat = (q.toNat - 1) * d.toNat := by
    rw [UInt64.toNat_mul, hone, Nat.mod_eq_of_lt (by omega)]
  have hsub : (n - (q - 1) * d).toNat = n.toNat - (q.toNat - 1) * d.toNat := by
    rw [UInt64.toNat_sub_of_le _ _ (UInt64.le_iff_toNat_le.mpr (by rwa [hprod])), hprod]
  have hstep : q.toNat * d.toNat = (q.toNat - 1) * d.toNat + d.toNat := by
    rw [← Nat.succ_mul, Nat.succ_eq_add_one, Nat.sub_add_cancel hpos]
  apply UInt64.toNat_inj.mp
  rw [UInt64.toNat_div]
  simp only [UInt64.lt_iff_toNat_lt]
  split
  · have hlt : n.toNat / d.toNat < q.toNat := (Nat.div_lt_iff_lt_mul hd).mpr (by omega)
    omega
  · have hle' : q.toNat ≤ n.toNat / d.toNat := (Nat.le_div_iff_mul_le hd).mpr (by omega)
    omega

theorem udiv64_small {n d : UInt64} (hpos : 0 < d.toNat) (hsmall : d.toNat < 4294967296) :
    udiv64 n d = .ok (n / d) := by
  have hn := n.toNat_lt
  have hhigh : n.toNat / 4294967296 < 4294967296 := by omega
  have hrest := Nat.mod_lt (n.toNat / 4294967296) hpos
  have hshift : d >>> 32 = 0 := by
    apply UInt64.toNat_inj.mp
    simp
    omega
  unfold udiv64
  rw [if_pos hshift]
  refine divl_rule ?_ ?_ fun q hq => congrArg Except.ok (UInt64.toNat_inj.mp ?_)
  all_goals
    simp [Nat.shiftRight_eq_div_pow, Nat.mod_eq_of_lt hhigh, Nat.mod_eq_of_lt hsmall] at *
    try rw [Nat.mod_eq_of_lt (by omega)] at *
  · exact hpos
  · exact (Nat.div_lt_iff_lt_mul hpos).mpr (by omega)
  have hdivide := Nat.div_add_mod (n.toNat / 4294967296) d.toNat
  have hsplit : d.toNat * (4294967296 * (n.toNat / 4294967296 / d.toNat)) +
      (4294967296 * (n.toNat / 4294967296 % d.toNat) + n.toNat % 4294967296) = n.toNat := by
    nlinarith [Nat.div_add_mod n.toNat 4294967296]
  have hquot := Nat.mul_add_div hpos (4294967296 * (n.toNat / 4294967296 / d.toNat))
    (4294967296 * (n.toNat / 4294967296 % d.toNat) + n.toNat % 4294967296)
  rw [hsplit, ← hq, add_comm] at hquot
  rw [← hquot, Nat.mod_eq_of_lt (Nat.div_lt_of_lt hn)]

/-- The upper half of a divisor whose upper half `d1` fills 32 bits when it is shifted by `s`:
`c + 2` is the value that the lowest of its bits has in `d`. -/
theorem upper_half {d s : ℕ} (hs : s ≤ 31) (hlow : 2 ^ 31 ≤ d / 4294967296 * 2 ^ s)
    (hhigh : d / 4294967296 * 2 ^ s < 2 ^ 32) :
    ∃ c, 2 ^ (31 - s) * 2 = c + 2 ∧ (c + 2) * 2 ^ s = 4294967296 ∧
      d * 2 ^ s < 18446744073709551616 ∧ d * 2 ^ s / 4294967296 = d / (c + 2) ∧
      2147483648 ≤ d / (c + 2) := by
  have hpow := Nat.two_pow_pos s
  obtain ⟨c, hc⟩ : ∃ c, 2 ^ (31 - s) * 2 = c + 2 :=
    Nat.exists_eq_add_of_le' (Nat.mul_le_mul_right 2 Nat.one_le_two_pow)
  have hk : (c + 2) * 2 ^ s = 4294967296 := by
    rw [← hc, ← pow_succ, ← pow_add, show 31 - s + 1 + s = 32 by omega]
    rfl
  have hfit : d < 4294967296 * (c + 2) := by
    have hlt : d / 4294967296 < c + 2 := Nat.lt_of_mul_lt_mul_right (hhigh.trans_eq hk.symm)
    omega
  have hv : d * 2 ^ s / 4294967296 = d / (c + 2) := by rw [← hk, Nat.mul_div_mul_right _ _ hpow]
  refine ⟨c, hc, hk, ?_, hv, ?_⟩
  · calc d * 2 ^ s < 4294967296 * (c + 2) * 2 ^ s := Nat.mul_lt_mul_of_pos_right hfit hpow
      _ = 18446744073709551616 := by rw [Nat.mul_assoc, hk]
  · rw [← hv]
    refine (Nat.le_div_iff_mul_le (by decide)).mpr ?_
    calc 2147483648 * 4294967296 ≤ d / 4294967296 * 2 ^ s * 4294967296 := by omega
      _ = d / 4294967296 * 4294967296 * 2 ^ s := Nat.mul_right_comm ..
      _ ≤ d * 2 ^ s := Nat.mul_le_mul_right _ (Nat.div_mul_le_self _ _)

theorem udiv64_large {n d : UInt64} (hlarge : 4294967296 ≤ d.toNat) : udiv64 n d = .ok (n / d) := by
  have hn := n.toNat_lt
  have hd := d.toNat_lt
  have hd1 : (d >>> 32).toUInt32.toNat = d.toNat / 4294967296 := by
    simp
    omega
  have hne : d >>> 32 ≠ 0 ∧ (d >>> 32).toUInt32 ≠ 0 := by
    constructor <;> intro h <;> simp [h] at hd1 <;> omega
  unfold udiv64
  rw [if_neg hne.1]
  split
  · next hlt =>
    refine congrArg Except.ok (UInt64.toNat_inj.mp ?_)
    rw [UInt64.toNat_div, Nat.div_eq_of_lt (UInt64.lt_iff_toNat_lt.mp hlt)]
    rfl
  next hge =>
  rw [UInt64.not_lt, UInt64.le_iff_toNat_le] at hge
  obtain ⟨hs, hlow, hhigh⟩ := nlz_spec _ hne.2
  obtain ⟨s, hnlz⟩ : ∃ s, nlz (d >>> 32).toUInt32 = s := ⟨_, rfl⟩
  simp only [hd1, hnlz] at hs hlow hhigh ⊢
  obtain ⟨c, hc, hk, hfit, hv, hvlow⟩ := upper_half hs hlow hhigh
  have htop : ((d <<< .ofNat s) >>> 32).toUInt32.toNat = d.toNat / (c + 2) := by
    simp [Nat.shiftLeft_eq]
    rw [Nat.mod_eq_of_lt (show s < 64 by omega)]
    omega
  refine divl_rule (by omega) ?_ fun x hx => congrArg Except.ok ?_
  · rw [htop, Nat.div_lt_iff_lt_mul (by omega)]
    simp
    omega
  have hq : (x >>> .ofNat (31 - s)).toUInt64.toNat = n.toNat / (d.toNat / (c + 2) * (c + 2)) := by
    rw [htop] at hx
    simp [Nat.shiftRight_eq_div_pow, hx, Nat.mod_eq_of_lt (show 31 - s < 32 by omega),
      Nat.mod_eq_of_lt (show 31 - s < 64 by omega), Nat.div_div_eq_div_mul]
    rw [← hc, mul_comm 2, Nat.mul_assoc, mul_comm 2]
  have hD : d.toNat / (c + 2) * (c + 2) ≤ d.toNat := Nat.div_mul_le_self _ _
  have hDpos : 0 < d.toNat / (c + 2) * (c + 2) := Nat.mul_pos (by omega) (by omega)
  refine corrected (by omega) ?_ ?_ (hq ▸ estimate_le hn hk hvlow)
  · rw [hq]
    exact Nat.div_pos (by omega) hDpos
  · rw [hq]
    exact Nat.div_le_div_left hD hDpos

theorem udiv64_eq {n d : UInt64} (hd : d ≠ 0) : udiv64 n d = .ok (n / d) := by
  rcases lt_or_ge d.toNat 4294967296 with hsmall | hlarge
  · exact udiv64_small (Nat.pos_of_ne_zero fun h => hd (UInt64.toNat_inj.mp h)) hsmall
  · exact udiv64_large hlarge

theorem msb_eq_decide_neg (x : Int64) : x.toBitVec.msb = decide (x < 0) := by
  rw [BitVec.msb_eq_toInt, decide_eq_decide, Int64.lt_iff_toInt_lt]
  rfl

theorem sdiv64_eq {n d : Int64} (hd : d ≠ 0) : sdiv64 n d = .ok (n / d) := by
  have hdAbs : (if 0 ≤ d then d.toUInt64 else -d.toUInt64) ≠ 0 := by
    split <;> simpa [← UInt64.toBitVec_inj, ← Int64.toBitVec_inj] using hd
  unfold sdiv64
  simp only [udiv64_eq hdAbs]
  refine congrArg Except.ok (Int64.toBitVec_inj.mp ?_)
  rw [Int64.toBitVec_div, BitVec.sdiv_eq, msb_eq_decide_neg, msb_eq_decide_neg]
  by_cases hn : n < 0 <;> by_cases hneg : d < 0 <;> simp [← Int64.not_lt, hn, hneg]

/-- **Division is exact and never traps.** -/
theorem udiv64_sdiv64_exact :
    (∀ n d : UInt64, d ≠ 0 → UInt64.toNat <$> udiv64 n d = .ok (n.toNat / d.toNat)) ∧
      ∀ n d : Int64, d ≠ 0 → ¬ (n = .minValue ∧ d = -1) →
        Int64.toInt <$> sdiv64 n d = .ok (n.toInt.tdiv d.toInt) := by
  refine ⟨fun n d hd => ?_, fun n d hd hrange => ?_⟩
  · rw [udiv64_eq hd]
    rfl
  have hquot : (n / d).toInt = n.toInt.tdiv d.toInt := by
    by_cases hmin : n = .minValue
    · exact Int64.toInt_div_of_ne_right n d fun h => hrange ⟨hmin, h⟩
    · exact Int64.toInt_div_of_ne_left n d hmin
  rw [sdiv64_eq hd, ← hquot]
  rfl

theorem udiv64_sdiv64_exact_cases :
    UInt64.toNat <$> udiv64 0xFFFFFFFFFFFFFFFF 0x100000001 = .ok 0xFFFFFFFF ∧
      Int64.toInt <$> sdiv64 (-7) 2 = .ok (-3) :=
  ⟨udiv64_sdiv64_exact.1 _ _ (by decide), udiv64_sdiv64_exact.2 _ _ (by decide) (by decide)⟩

/-! ## Remainder -/

theorem umod64_eq {n d : UInt64} (hd : d ≠ 0) : umod64 n d = .ok (n % d).toUInt32 := by
  have hle := Nat.mul_div_le n.toNat d.toNat
  have hmul : (d * (n / d)).toNat = d.toNat * (n.toNat / d.toNat) := by
    rw [UInt64.toNat_mul, UInt64.toNat_div, Nat.mod_eq_of_lt (hle.trans_lt n.toNat_lt)]
  have hmod : n - d * (n / d) = n % d := by
    apply UInt64.toNat_inj.mp
    rw [UInt64.toNat_sub_of_le _ _ (UInt64.le_iff_toNat_le.mpr (hmul ▸ hle)), hmul,
      UInt64.toNat_mod, Nat.mod_eq_sub]
  rw [umod64, udiv64_eq hd, ok_bind, hmod]
  rfl

theorem smod64_eq {n d : Int64} (hd : d ≠ 0) : smod64 n d = .ok (n % d).toInt32 := by
  have hmod : n - d * (n / d) = n % d := by
    apply Int64.toInt_inj.mp
    rw [← Int64.toInt_bmod (n % d), Int64.toInt_mod, Int.tmod_def]
    simp [Int64.toInt_mul, Int64.toInt_div]
  rw [smod64, sdiv64_eq hd, ok_bind, hmod]
  rfl

/-- **A remainder is right exactly if it fits in 32 bits**, since `umod64` returns a
`uint32_t` and `smod64` an `int32_t`. -/
theorem umoddi3_moddi3_iff (n d : UInt64) (m e : Int64) : (d ≠ 0 →
      (UInt64.toNat <$> umoddi3 n d = .ok (n.toNat % d.toNat) ↔ n.toNat % d.toNat < 2 ^ 32)) ∧
    (e ≠ 0 → ¬ (m = .minValue ∧ e = -1) →
      (Int64.toInt <$> moddi3 m e = .ok (m.toInt - e.toInt * m.toInt.tdiv e.toInt) ↔
        -2 ^ 31 ≤ m.toInt.tmod e.toInt ∧ m.toInt.tmod e.toInt < 2 ^ 31)) := by
  refine ⟨fun hd => ?_, fun he _ => ?_⟩
  · have hresult : UInt64.toNat <$> umoddi3 n d = .ok (n.toNat % d.toNat % 2 ^ 32) := by
      rw [umoddi3, umod64_eq hd]
      exact congrArg Except.ok (by simp)
    rw [hresult, Except.ok.injEq]
    omega
  have hresult : Int64.toInt <$> moddi3 m e = .ok ((m.toInt.tmod e.toInt).bmod (2 ^ 32)) := by
    rw [moddi3, smod64_eq he]
    exact congrArg Except.ok (by simp)
  rw [hresult, Except.ok.injEq, ← Int.tmod_def]
  constructor
  · intro h
    rw [← h]
    exact ⟨Int.le_bmod (by decide), Int.bmod_lt (by decide)⟩
  · rintro ⟨hlow, hhigh⟩
    exact Int.bmod_eq_of_le hlow hhigh

theorem umoddi3_moddi3_iff_cases :
    UInt64.toNat <$> umoddi3 0x500000000 0x300000001 ≠ .ok 0x1FFFFFFFF ∧
      Int64.toInt <$> moddi3 (-7) 4 = .ok (-3) :=
  ⟨mt ((umoddi3_moddi3_iff _ _ 0 0).1 (by decide)).mp (by decide),
    ((umoddi3_moddi3_iff 0 0 _ _).2 (by decide) (by decide)).mpr (by decide)⟩

/-- The remainder of `2^32` by `2^33` comes out as 0, that of `2^31` by `2^32` as `-2^31`. -/
theorem umoddi3_moddi3_truncate : UInt64.toNat <$> umoddi3 0x100000000 0x200000000 = .ok 0 ∧
      Int64.toInt <$> moddi3 0x80000000 0x100000000 = .ok (-0x80000000) := by
  decide

end CS162
