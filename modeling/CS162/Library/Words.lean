import Mathlib.Data.UInt
import Mathlib.Data.Nat.Bits
import Mathlib.Logic.Function.Basic

/-!
# Bytes, words and bits

Memory as a little-endian 32-bit machine sees it.

* `word` and `byteOf` assemble a 32-bit word from its four bytes and take it apart;
  `wordAt` and `ofWords` do so for a whole array.
* `bitsByte` packs eight entries of a bit array into a byte, `byteBit` reads one back.
* `wrap32` is the value of a signed 32-bit computation, `intOfWord` and `wordOfInt`
  convert between a word and the signed integer it stands for.
* `overlay` copies bytes into an array, `slice` copies bytes out of it.
-/

namespace CS162.Library

/-! ## Words and bytes -/

/-- The word whose little-endian bytes are `b0` to `b3`. -/
def word (b0 b1 b2 b3 : UInt8) : UInt32 :=
  UInt32.ofNat (b0.toNat + 256 * b1.toNat + 65536 * b2.toNat + 16777216 * b3.toNat)

/-- Byte `k` of a word, counted from the low end. -/
def byteOf (w : UInt32) (k : ℕ) : UInt8 := UInt8.ofNat (w.toNat / 256 ^ k)

theorem word_byteOf (w : UInt32) :
    word (byteOf w 0) (byteOf w 1) (byteOf w 2) (byteOf w 3) = w := by
  have hw := w.toNat_lt
  apply UInt32.toNat_inj.mp
  simp only [word, byteOf, UInt8.toNat_ofNat', UInt32.toNat_ofNat']
  omega

/-- Word `i` of an array of bytes. -/
def wordAt (f : ℕ → UInt8) (i : ℕ) : UInt32 :=
  word (f (4 * i)) (f (4 * i + 1)) (f (4 * i + 2)) (f (4 * i + 3))

def ofWords (w : ℕ → UInt32) (k : ℕ) : UInt8 := byteOf (w (k / 4)) (k % 4)

theorem wordAt_congr {f g : ℕ → UInt8} {i : ℕ} (h : ∀ k < 4, f (4 * i + k) = g (4 * i + k)) :
    wordAt f i = wordAt g i := by
  have h0 := h 0 (by omega)
  have h1 := h 1 (by omega)
  have h2 := h 2 (by omega)
  have h3 := h 3 (by omega)
  simp only [add_zero] at h0
  simp only [wordAt, h0, h1, h2, h3]

@[simp] theorem wordAt_ofWords (w : ℕ → UInt32) (i : ℕ) : wordAt (ofWords w) i = w i := by
  have hdiv : ∀ k < 4, (4 * i + k) / 4 = i := by omega
  have hmod : ∀ k < 4, (4 * i + k) % 4 = k := by omega
  have h0 : 4 * i / 4 = i := by omega
  have h0' : 4 * i % 4 = 0 := by omega
  simp only [wordAt, ofWords, h0, h0', hdiv 1 (by omega), hdiv 2 (by omega), hdiv 3 (by omega),
    hmod 1 (by omega), hmod 2 (by omega), hmod 3 (by omega)]
  exact word_byteOf (w i)

theorem byteOf_wordAt (f : ℕ → UInt8) (i : ℕ) {k : ℕ} (hk : k < 4) :
    byteOf (wordAt f i) k = f (4 * i + k) := by
  have h0 := (f (4 * i)).toNat_lt
  have h1 := (f (4 * i + 1)).toNat_lt
  have h2 := (f (4 * i + 2)).toNat_lt
  have h3 := (f (4 * i + 3)).toNat_lt
  apply UInt8.toNat_inj.mp
  rw [byteOf, wordAt, word, UInt8.toNat_ofNat', UInt32.toNat_ofNat']
  obtain rfl | rfl | rfl | rfl : k = 0 ∨ k = 1 ∨ k = 2 ∨ k = 3 := by omega
  · show _ = (f (4 * i)).toNat
    omega
  all_goals omega

theorem testBit_byteOf (w : UInt32) (k : ℕ) {j : ℕ} (hj : j < 8) :
    (byteOf w k).toNat.testBit j = w.toNat.testBit (8 * k + j) := by
  rw [byteOf, UInt8.toNat_ofNat', Nat.testBit_mod_two_pow, decide_eq_true hj, Bool.true_and,
    show 256 ^ k = 2 ^ (8 * k) by rw [Nat.pow_mul], Nat.testBit_div_two_pow,
    add_comm]

theorem wordAt_of_all {f : ℕ → UInt8} {i : ℕ} (h : ∀ k < 4, f (4 * i + k) = 255) :
    wordAt f i = 4294967295 := by
  rw [wordAt_congr (g := fun _ => 255) h]
  show word 255 255 255 255 = _
  decide

/-! ## Bits -/

/-- Byte `j` of an array of bits, bit 0 lowest. -/
def bitsByte (bits : ℕ → Bool) (j : ℕ) : UInt8 :=
  UInt8.ofNat (Nat.ofBits fun k : Fin 8 => bits (8 * j + k))

def byteBit (f : ℕ → UInt8) (i : ℕ) : Bool := (f (i / 8)).toNat.testBit (i % 8)

@[simp] theorem byteBit_bitsByte (bits : ℕ → Bool) (i : ℕ) :
    byteBit (bitsByte bits) i = bits i := by
  have hlt : Nat.ofBits (fun k : Fin 8 => bits (8 * (i / 8) + k)) < 256 := Nat.ofBits_lt_two_pow _
  have hk : i % 8 < 8 := Nat.mod_lt _ (by omega)
  simp only [byteBit, bitsByte, UInt8.toNat_ofNat', Nat.mod_eq_of_lt hlt,
    Nat.testBit_ofBits_lt _ _ hk, Nat.div_add_mod]

theorem bitsByte_byteBit (f : ℕ → UInt8) (j : ℕ) : bitsByte (byteBit f) j = f j := by
  have hlt : Nat.ofBits (fun k : Fin 8 => byteBit f (8 * j + k)) < 256 := Nat.ofBits_lt_two_pow _
  apply UInt8.toNat_inj.mp
  rw [bitsByte, UInt8.toNat_ofNat', Nat.mod_eq_of_lt hlt]
  apply Nat.eq_of_testBit_eq
  intro k
  by_cases hk : k < 8
  · rw [Nat.testBit_ofBits_lt _ _ hk, byteBit, show (8 * j + k) / 8 = j by omega,
      show (8 * j + k) % 8 = k by omega]
  · have hpow : 2 ^ 8 ≤ 2 ^ k := Nat.pow_le_pow_right (by decide) (by omega)
    rw [Nat.testBit_lt_two_pow (lt_of_lt_of_le hlt hpow),
      Nat.testBit_lt_two_pow (lt_of_lt_of_le (f j).toNat_lt hpow)]

/-- The bits of the words are those of the bytes they are assembled from. -/
theorem testBit_wordAt (f : ℕ → UInt8) (i : ℕ) :
    (wordAt f (i / 32)).toNat.testBit (i % 32) = byteBit f i := by
  rw [← show 8 * (i / 8 % 4) + i % 8 = i % 32 by omega, ← testBit_byteOf _ _ (by omega),
    byteOf_wordAt f _ (by omega), byteBit, show 4 * (i / 32) + i / 8 % 4 = i / 8 by omega]

theorem bitsByte_of_all {bits : ℕ → Bool} {j : ℕ} (h : ∀ k < 8, bits (8 * j + k) = true) :
    bitsByte bits j = 255 := by
  have hall : (fun k : Fin 8 => bits (8 * j + k)) = fun _ => true := funext fun k => h k k.isLt
  rw [bitsByte, hall]
  decide

/-! ## Signed integers -/

/-- The value a signed 32-bit computation leaves, two's complement. -/
@[irreducible] def wrap32 (z : ℤ) : ℤ := z.bmod 4294967296

theorem wrap32_eq {z : ℤ} (hlow : -2147483648 ≤ z) (hhigh : z < 2147483648) : wrap32 z = z := by
  unfold wrap32
  rw [Int.bmod_eq_of_le] <;> omega

/-- A sum that exceeds the largest signed integer wraps around once. -/
theorem wrap32_overflow {z : ℤ} (hlow : 2147483648 ≤ z) (hhigh : z < 4294967296) :
    wrap32 z = z - 4294967296 := by
  unfold wrap32
  rw [Int.bmod_def, show ((4294967296 : ℕ) : ℤ) = 4294967296 from rfl]
  split <;> omega

theorem wrap32_lt (z : ℤ) : wrap32 z < 2147483648 := by
  unfold wrap32
  have := @Int.bmod_lt z 4294967296 (by omega)
  omega

/-- The signed integer a word stands for. -/
def intOfWord (w : UInt32) : ℤ := wrap32 w.toNat

/-- The word that stands for a signed integer. -/
def wordOfInt (z : ℤ) : UInt32 := UInt32.ofNat (z % 4294967296).toNat

theorem intOfWord_wordOfInt {z : ℤ} (hlow : -2147483648 ≤ z) (hhigh : z < 2147483648) :
    intOfWord (wordOfInt z) = z := by
  have hnat : ((wordOfInt z).toNat : ℤ) = z % 4294967296 := by
    rw [wordOfInt, UInt32.toNat_ofNat']
    omega
  calc intOfWord (wordOfInt z)
      = (z % (4294967296 : ℕ)).bmod 4294967296 := by rw [intOfWord, hnat, wrap32]; rfl
    _ = wrap32 z := by rw [wrap32]; exact Int.emod_bmod z 4294967296
    _ = z := wrap32_eq hlow hhigh

/-! ## Copying -/

section Copy

variable {α : Type*} {n : ℕ}

/-- The array `base` with `len` entries of `src` copied over it from `start` on. -/
def overlay (base : Fin n → α) (start len : ℕ) (src : ℕ → α) : Fin n → α := fun k =>
  if start ≤ k.val ∧ k.val < start + len then src (k.val - start) else base k

theorem overlay_of_mem {base : Fin n → α} {start len : ℕ} {src : ℕ → α} {k : Fin n}
    (h : start ≤ k.val ∧ k.val < start + len) :
    overlay base start len src k = src (k.val - start) :=
  if_pos h

theorem overlay_of_notMem {base : Fin n → α} {start len : ℕ} {src : ℕ → α} {k : Fin n}
    (h : ¬ (start ≤ k.val ∧ k.val < start + len)) : overlay base start len src k = base k :=
  if_neg h

/-- Entry `k` of an array, or the default past its end. -/
def entry [Inhabited α] (f : Fin n → α) (k : ℕ) : α := if h : k < n then f ⟨k, h⟩ else default

theorem entry_eq [Inhabited α] (f : Fin n → α) {k : ℕ} (h : k < n) : entry f k = f ⟨k, h⟩ :=
  dif_pos h

/-- `len` entries of an array from `start` on. -/
def slice [Inhabited α] (f : Fin n → α) (start len : ℕ) : List α :=
  (List.range len).map fun k => entry f (start + k)

end Copy

end CS162.Library
