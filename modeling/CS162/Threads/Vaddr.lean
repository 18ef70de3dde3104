import Mathlib.Data.Nat.Bitwise
import CS162.Block

/-!
# Virtual addresses (`threads/vaddr.h`)

Addresses are the numbers `uintptr_t` holds.  The macros and inline functions are given with
the masks and shifts of the source; the lemmas say what they compute.
-/

namespace CS162

/-- `BITMASK (SHIFT, CNT)`. -/
def bitmask (shift cnt : ℕ) : ℕ := ((1 <<< cnt) - 1) <<< shift

def pgBits : ℕ := 12

abbrev pgSize : ℕ := 4096

/-- `pg_ofs`; `PGMASK` is `BITMASK (PGSHIFT, PGBITS)` with `PGSHIFT` 0. -/
def pgOfs (va : ℕ) : ℕ := va &&& bitmask 0 pgBits

def pgNo (va : ℕ) : ℕ := va >>> pgBits

/-- `pg_round_down`; `~PGMASK` is a 32-bit mask. -/
def pgRoundDown (va : ℕ) : ℕ := va &&& (0xffffffff ^^^ bitmask 0 pgBits)

abbrev physBase : ℕ := 3221225472

def isUserVaddr (vaddr : ℕ) : Bool := vaddr < physBase

def isKernelVaddr (vaddr : ℕ) : Bool := physBase ≤ vaddr

def ptov (paddr : ℕ) : Except Fault ℕ :=
  if paddr < physBase then .ok ((paddr + physBase) % 4294967296)
  else .error (.panic "(void *) paddr < PHYS_BASE")

def vtop (vaddr : ℕ) : Except Fault ℕ :=
  if isKernelVaddr vaddr then .ok (vaddr - physBase) else .error (.panic "is_kernel_vaddr (vaddr)")

theorem pgOfs_eq (va : ℕ) : pgOfs va = va % pgSize :=
  Nat.and_two_pow_sub_one_eq_mod va 12

theorem pgNo_eq (va : ℕ) : pgNo va = va / pgSize :=
  Nat.shiftRight_eq_div_pow va 12

theorem pgRoundDown_eq {va : ℕ} (h : va < 4294967296) : pgRoundDown va = va / pgSize * pgSize := by
  have hmask : 0xffffffff ^^^ bitmask 0 pgBits = (2 ^ 20 - 1) <<< 12 := rfl
  have hround : va / pgSize * pgSize = (va >>> 12) <<< 12 := by
    rw [Nat.shiftRight_eq_div_pow, Nat.shiftLeft_eq]
  rw [pgRoundDown, hmask, hround]
  apply Nat.eq_of_testBit_eq
  intro i
  rw [Nat.testBit_and, Nat.testBit_shiftLeft, Nat.testBit_shiftLeft, Nat.testBit_two_pow_sub_one,
    Nat.testBit_shiftRight]
  by_cases hlow : 12 ≤ i
  · by_cases hhigh : i < 32
    · simp [hlow, show i - 12 < 20 by omega]
    · have hpow : 2 ^ 32 ≤ 2 ^ i := Nat.pow_le_pow_right (by decide) (by omega)
      have hbit : va.testBit i = false := Nat.testBit_lt_two_pow (h.trans_le hpow)
      simp [hlow, hbit]
  · simp [hlow]

/-- Physical memory of at most a gigabyte is mapped without wrapping around. -/
theorem ptov_eq {paddr : ℕ} (h : paddr < 0x40000000) : ptov paddr = .ok (paddr + physBase) := by
  have hlow : paddr < physBase := by
    rw [physBase]
    omega
  have hmod : (paddr + physBase) % 4294967296 = paddr + physBase := by
    rw [physBase]
    omega
  rw [ptov, if_pos hlow, hmod]

end CS162
