import CS162.Block

/-!
# Blocks of bytes (`lib/string.c`)

`memmove` copies upward if the source lies above the destination and downward otherwise, so
that no byte is overwritten before it is read.
-/

namespace CS162

open Function

/-- `while (size-- > 0) *dst++ = *src++;` with the pointer `dst` that it ends with. -/
def copyUp (memory : ℕ → UInt8) (dst src : ℕ) : ℕ → (ℕ → UInt8) × ℕ
  | 0 => (memory, dst)
  | size + 1 => copyUp (update memory dst (memory src)) (dst + 1) (src + 1) size

/-- `while (size-- > 0) *--dst = *--src;`. -/
def copyDown (memory : ℕ → UInt8) (dst src : ℕ) : ℕ → (ℕ → UInt8) × ℕ
  | 0 => (memory, dst)
  | size + 1 => copyDown (update memory (dst - 1) (memory (src - 1))) (dst - 1) (src - 1) size

/-- The memory and the pointer that is returned, which is the one the loop has moved. -/
def memmove (memory : ℕ → UInt8) (dst src size : ℕ) : Except Fault ((ℕ → UInt8) × ℕ) :=
  if (dst = 0 ∨ src = 0) ∧ size ≠ 0 then .error (.panic "memmove")
  else if dst < src then .ok (copyUp memory dst src size)
  else .ok (copyDown memory (dst + size) (src + size) size)

/-- The bytes at `src` stand at `dst`. -/
def moved (memory : ℕ → UInt8) (dst src size : ℕ) : ℕ → UInt8 := fun addr =>
  if dst ≤ addr ∧ addr < dst + size then memory (src + (addr - dst)) else memory addr

theorem moved_zero (memory : ℕ → UInt8) (dst src : ℕ) : moved memory dst src 0 = memory :=
  funext fun _ => if_neg (by omega)

theorem copyUp_eq {dst src : ℕ} (hlt : dst < src) (memory : ℕ → UInt8) (size : ℕ) :
    copyUp memory dst src size = (moved memory dst src size, dst + size) := by
  induction size generalizing memory dst src with
  | zero => simp [copyUp, moved_zero]
  | succ size ih =>
    -- The byte at `dst` is not read again, since the source lies above it.
    rw [copyUp, ih (Nat.succ_lt_succ hlt)]
    refine Prod.ext (funext fun addr => ?_) (by omega)
    grind [moved, update_apply]

theorem copyDown_eq {dst src : ℕ} (hle : src ≤ dst) (memory : ℕ → UInt8) (size : ℕ) :
    copyDown memory (dst + size) (src + size) size = (moved memory dst src size, dst) := by
  induction size generalizing memory with
  | zero => simp [copyDown, moved_zero]
  | succ size ih =>
    rw [copyDown, ← add_assoc, ← add_assoc, Nat.add_sub_cancel, Nat.add_sub_cancel, ih]
    refine Prod.ext (funext fun addr => ?_) rfl
    grind [moved, update_apply]

/-- **`memmove` moves the bytes for every overlap, and returns `dst`**, exactly if it copies
downward or has nothing to copy. -/
theorem memmove_moves_iff (memory : ℕ → UInt8) (dst src size : ℕ) :
    (∃ memory', memmove memory dst src size = .ok (memory', dst) ∧
      (∀ k < size, memory' (dst + k) = memory (src + k)) ∧
      ∀ addr, addr < dst ∨ dst + size ≤ addr → memory' addr = memory addr) ↔
      size = 0 ∨ dst ≠ 0 ∧ src ≠ 0 ∧ src ≤ dst := by
  unfold memmove
  split
  · refine iff_of_false (fun ⟨_, hmove, _⟩ => nomatch hmove) ?_
    omega
  have hmoved : (∀ k < size, moved memory dst src size (dst + k) = memory (src + k)) ∧
      ∀ addr, addr < dst ∨ dst + size ≤ addr → moved memory dst src size addr = memory addr := by
    grind [moved]
  split
  · rw [copyUp_eq ‹_›]
    simp only [Except.ok.injEq, Prod.mk.injEq, exists_eq_left', and_assoc]
    grind
  · rw [copyDown_eq (not_lt.mp ‹_›)]
    refine iff_of_true ⟨_, rfl, hmoved⟩ ?_
    omega

theorem memmove_returns_end : (memmove (fun _ => 0) 100 101 3).map Prod.snd = .ok 103 := rfl

end CS162
