import Mathlib.Data.Nat.Digits.Lemmas
import CS162.Library.Strings
import CS162.Library.Words

/-!
# Records of bytes

A packed record is an array of bytes that is read and written field by field.

* `Field.read` and `Field.write` access a field.  What is written to a field can be read
  back from it (`Field.read_write`), and fields that are apart do not interfere
  (`Field.read_write_of_apart`).
* `terminated` is a string cut to the size of its field and ended by a NUL, as `strlcpy`
  and `snprintf` store it.
* `numeral` is the numeral of a number in a given base, padded with zeros to a given width;
  `foldl_numeral` reads it back by Horner's rule.
-/

namespace CS162.Library

open List

/-! ## Fields -/

/-- A field of a record: its offset and its size. -/
structure Field where
  offset : ℕ
  size : ℕ
  deriving DecidableEq, Repr

namespace Field

variable {n : ℕ} {f g : Field} {bytes : Bytes} {record : Fin n → UInt8}

def read (f : Field) (record : Fin n → UInt8) : Bytes := slice record f.offset f.size

/-- The record after bytes have been stored from the start of a field on. -/
def write (f : Field) (bytes : Bytes) (record : Fin n → UInt8) : Fin n → UInt8 :=
  overlay record f.offset bytes.length fun k => bytes.getD k 0

/-- The fields have no byte in common. -/
def Apart (f g : Field) : Prop := f.offset + f.size ≤ g.offset ∨ g.offset + g.size ≤ f.offset

instance (f g : Field) : Decidable (f.Apart g) := inferInstanceAs (Decidable (_ ∨ _))

@[simp] theorem length_read : (f.read record).length = f.size := by
  simp [read, slice]

theorem entry_write_of_notMem {k : ℕ} (hlen : bytes.length ≤ f.size)
    (hk : ¬ (f.offset ≤ k ∧ k < f.offset + f.size)) :
    entry (f.write bytes record) k = entry record k := by
  by_cases hn : k < n
  · rw [entry_eq _ hn, entry_eq _ hn]
    refine overlay_of_notMem ?_
    dsimp only
    omega
  · rw [entry, entry, dif_neg hn, dif_neg hn]

theorem read_write_of_apart (hapart : f.Apart g) (hlen : bytes.length ≤ g.size) :
    f.read (g.write bytes record) = f.read record := by
  refine map_congr_left fun k hk => entry_write_of_notMem hlen ?_
  have hk := mem_range.mp hk
  unfold Apart at hapart
  omega

/-- What has been stored comes first, then what was there before. -/
theorem read_write (hn : f.offset + f.size ≤ n) (hlen : bytes.length ≤ f.size) :
    f.read (f.write bytes record) = bytes ++ (f.read record).drop bytes.length := by
  refine ext_getElem? fun k => ?_
  by_cases hk : k < f.size
  swap
  · rw [getElem?_eq_none (by simpa using hk), getElem?_eq_none (by simp; omega)]
  rw [read, slice, getElem?_map, getElem?_range hk, Option.map_some, entry_eq _ (by omega)]
  by_cases hb : k < bytes.length
  · rw [getElem?_append_left hb, write, overlay_of_mem (by dsimp only; omega)]
    simp [hb]
  · rw [getElem?_append_right (by omega), getElem?_drop, Nat.add_sub_cancel' (by omega),
      read, slice, getElem?_map, getElem?_range hk, Option.map_some,
      entry_eq _ (by omega), write, overlay_of_notMem (by dsimp only; omega)]

theorem read_const (hn : f.offset + f.size ≤ n) (b : UInt8) :
    f.read (fun _ : Fin n => b) = replicate f.size b := by
  refine eq_replicate_iff.mpr ⟨length_read, fun c hc => ?_⟩
  obtain ⟨k, hk, rfl⟩ := mem_map.mp hc
  have := mem_range.mp hk
  rw [entry_eq _ (by omega)]

theorem entry_eq_getD_read {k : ℕ} (hk : k < f.size) :
    entry record (f.offset + k) = (f.read record).getD k 0 := by
  simp [read, slice, hk]

/-! ### Several fields -/

/-- Fields and what is stored in them, one after another. -/
def writeAll (values : List (Field × Bytes)) (record : Fin n → UInt8) : Fin n → UInt8 :=
  values.foldl (fun record w => w.1.write w.2 record) record

theorem read_writeAll_of_apart {values : List (Field × Bytes)}
    (hapart : ∀ w ∈ values, f.Apart w.1) (hlen : ∀ w ∈ values, w.2.length ≤ w.1.size) :
    f.read (writeAll values record) = f.read record := by
  induction values generalizing record with
  | nil => rfl
  | cons w values ih =>
    have hrest := @ih (w.1.write w.2 record) (fun v hv => hapart v (by simp [hv]))
      fun v hv => hlen v (by simp [hv])
    exact hrest.trans (read_write_of_apart (hapart w (by simp)) (hlen w (by simp)))

/-- If the fields are apart, each of them holds what was stored in it. -/
theorem read_writeAll {values : List (Field × Bytes)} (hmem : (f, bytes) ∈ values)
    (hapart : values.Pairwise fun v w => v.1.Apart w.1)
    (hlen : ∀ w ∈ values, w.2.length ≤ w.1.size) (hn : f.offset + f.size ≤ n) :
    f.read (writeAll values record) = bytes ++ (f.read record).drop bytes.length := by
  induction values generalizing record with
  | nil => simp at hmem
  | cons w values ih =>
    obtain ⟨hhead, htail⟩ := pairwise_cons.mp hapart
    have hlen' : ∀ v ∈ values, v.2.length ≤ v.1.size := fun v hv => hlen v (by simp [hv])
    rcases mem_cons.mp hmem with rfl | hmem
    · -- later writes go to other fields
      exact (read_writeAll_of_apart hhead hlen').trans (read_write hn (hlen _ (by simp)))
    · have hf : f.Apart w.1 := (hhead _ hmem).symm
      have hrest := @ih (w.1.write w.2 record) hmem htail hlen'
      rwa [read_write_of_apart hf (hlen w (by simp))] at hrest

end Field

/-! ## Strings in fields -/

/-- A string cut to what a field of this size can hold, and its NUL. -/
def terminated (size : ℕ) (bytes : Bytes) : Bytes := bytes.take (size - 1) ++ [0]

theorem terminated_of_lt {size : ℕ} {bytes : Bytes} (h : bytes.length < size) :
    terminated size bytes = bytes ++ [0] := by
  rw [terminated, take_of_length_le (by omega)]

theorem length_terminated_le {size : ℕ} {bytes : Bytes} (h : 0 < size) :
    (terminated size bytes).length ≤ size := by
  rw [terminated, length_append, length_take, length_singleton]
  omega

/-! ## Numerals -/

/-- The digits of `n`, the most significant one first, with leading zeros up to `width`. -/
def numeral (base width n : ℕ) : List ℕ := (Nat.digitsAppend base width n).reverse

theorem length_numeral {base width n : ℕ} (hbase : 1 < base) (hn : n < base ^ width) :
    (numeral base width n).length = width := by
  rw [numeral, length_reverse, Nat.length_digitsAppend hbase width hn]

theorem foldl_numeral (base width n : ℕ) :
    (numeral base width n).foldl (fun value d => value * base + d) 0 = n := by
  calc (numeral base width n).foldl (fun value d => value * base + d) 0
      = (Nat.digitsAppend base width n).foldr (fun d value => d + base * value) 0 := by
        rw [numeral, foldl_reverse]
        congr 1
        funext d value
        rw [mul_comm, add_comm]
    _ = Nat.ofDigits base (Nat.digitsAppend base width n) := (Nat.ofDigits_eq_foldr base _).symm
    _ = n := by rw [Nat.digitsAppend, Nat.ofDigits_append_replicate_zero, Nat.ofDigits_digits]

theorem le_foldl_horner {base : ℕ} (hbase : 0 < base) (l : List ℕ) (v : ℕ) :
    v ≤ l.foldl (fun value d => value * base + d) v := by
  induction l generalizing v with
  | nil => exact le_rfl
  | cons d l ih => exact le_trans (by nlinarith) (ih _)

end CS162.Library
