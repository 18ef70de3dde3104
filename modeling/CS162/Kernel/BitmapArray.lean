import CS162.Library.BoolArray
import CS162.Kernel.Bitmap

/-!
# Bitmaps are arrays of booleans

The functions that change a bitmap are the labels of `BitmapOp`: `BitmapOp.apply` is what the
code does, on packed words, and `BitmapOp.reference` is what it is meant to do, on an array of
booleans.  `Agrees` says that all the functions that look at a bitmap answer from that array.

## Strategy

`Bitmap.Holds b a` says that the bits of `b` are those of `a`.  Each operation keeps it
(`BitmapOp.apply_spec`), hence so does a sequence, and it implies `Agrees`.
-/

namespace CS162

open Library Function List

/-- A call that changes a bitmap. -/
inductive BitmapOp where
  | set (idx : ℕ) (value : Bool)
  | mark (idx : ℕ)
  | reset (idx : ℕ)
  | flip (idx : ℕ)
  | setMultiple (start cnt : ℕ) (value : Bool)
  | setAll (value : Bool)
  | scanAndFlip (start cnt : ℕ) (value : Bool)

namespace BitmapOp

/-- What the code does. -/
def apply (b : Bitmap) : BitmapOp → Except Fault Bitmap
  | set idx value => b.bitmapSet idx value
  | mark idx => b.bitmapMark idx
  | reset idx => b.bitmapReset idx
  | flip idx => b.bitmapFlip idx
  | setMultiple start cnt value => b.bitmapSetMultiple start cnt value
  | setAll value => b.bitmapSetAll value
  | scanAndFlip start cnt value => Prod.snd <$> b.bitmapScanAndFlip start cnt value

/-- What the operation does to an array of `n` booleans. -/
def reference (n : ℕ) (a : ℕ → Bool) : BitmapOp → ℕ → Bool
  | set idx value => update a idx value
  | mark idx => update a idx true
  | reset idx => update a idx false
  | flip idx => update a idx (!a idx)
  | setMultiple start cnt value => setRange a start cnt value
  | setAll value => setRange a 0 n value
  | scanAndFlip start cnt value =>
    match firstGroup a n start cnt value with
    | some i => setRange a i cnt (!value)
    | none => a

/-- The arguments are in range. -/
def InRange (n : ℕ) : BitmapOp → Prop
  | set idx _ | mark idx | reset idx | flip idx => idx < n
  | setMultiple start cnt _ => start + cnt ≤ n
  | setAll _ => True
  | scanAndFlip start _ _ => start ≤ n

instance (n : ℕ) : (op : BitmapOp) → Decidable (op.InRange n)
  | set _ _ | mark _ | reset _ | flip _ => inferInstanceAs (Decidable (_ < _))
  | setMultiple _ _ _ | scanAndFlip _ _ _ => inferInstanceAs (Decidable (_ ≤ _))
  | setAll _ => inferInstanceAs (Decidable True)

end BitmapOp

namespace Bitmap

variable {b b' : Bitmap} {a : ℕ → Bool} {start cnt idx : ℕ} {value : Bool}

def Holds (b : Bitmap) (a : ℕ → Bool) : Prop := ∀ i < b.bitCnt, b.bit i = a i

/-- The functions that look at the bitmap answer as the array does. -/
structure Agrees (b : Bitmap) (a : ℕ → Bool) : Prop where
  test : ∀ idx < b.bitCnt, b.bitmapTest idx = .ok (a idx)
  count : ∀ start cnt value, start + cnt ≤ b.bitCnt →
    b.bitmapCount start cnt value = .ok ((List.range' start cnt).countP fun j => a j = value)
  contains : ∀ start cnt value, start + cnt ≤ b.bitCnt →
    b.bitmapContains start cnt value = .ok ((List.range' start cnt).any fun j => a j = value)
  any : ∀ start cnt, start + cnt ≤ b.bitCnt →
    b.bitmapAny start cnt = .ok ((List.range' start cnt).any a)
  none : ∀ start cnt, start + cnt ≤ b.bitCnt →
    b.bitmapNone start cnt = .ok (!(List.range' start cnt).any a)
  all : ∀ start cnt, start + cnt ≤ b.bitCnt →
    b.bitmapAll start cnt = .ok ((List.range' start cnt).all a)
  scan : ∀ start cnt value, start ≤ b.bitCnt → ∃ r, b.bitmapScan start cnt value = .ok r ∧
    (r = bitmapError ↔ ∀ i, ¬ BitGroup a b.bitCnt start cnt value i) ∧
    (r ≠ bitmapError → IsLeast {i | BitGroup a b.bitCnt start cnt value i} r)

/-! ## Operations keep the array -/

theorem SetTo.holds (h : SetTo b b' start cnt value) (hb : b.Holds a) :
    b'.Holds (setRange a start cnt value) := by
  intro i hi
  rw [h.bitCnt] at hi
  rw [h.bit, hb i hi]
  rfl

theorem setRange_one (a : ℕ → Bool) (idx : ℕ) (value : Bool) :
    setRange a idx 1 value = update a idx value := by
  funext j
  unfold setRange
  by_cases h : j = idx
  · rw [h, update_self, if_pos (by omega)]
  · rw [update_of_ne h, if_neg (by omega)]

theorem SetTo.holds_update (h : SetTo b b' idx 1 value) (hb : b.Holds a) :
    b'.Holds (update a idx value) :=
  setRange_one a idx value ▸ h.holds hb

theorem bitmapMark_spec (h : idx < b.bitCnt) :
    ∃ b', b.bitmapMark idx = .ok b' ∧ SetTo b b' idx 1 true :=
  ⟨_, if_pos (elemIdx_lt h), setTo_modify h fun _ hk => getLsbD_or_mask hk⟩

theorem bitmapReset_spec (h : idx < b.bitCnt) :
    ∃ b', b.bitmapReset idx = .ok b' ∧ SetTo b b' idx 1 false :=
  ⟨_, if_pos (elemIdx_lt h), setTo_modify h fun _ hk => getLsbD_and_not_mask hk⟩

theorem bitmapFlip_spec (h : idx < b.bitCnt) :
    ∃ b', b.bitmapFlip idx = .ok b' ∧ SetTo b b' idx 1 (!b.bit idx) :=
  ⟨_, if_pos (elemIdx_lt h), setTo_modify h fun _ hk => getLsbD_xor_mask hk⟩

theorem Holds.group_iff (hb : b.Holds a) {i : ℕ} (hi : start ≤ i) (hroom : i + cnt ≤ b.bitCnt) :
    BitGroup a b.bitCnt start cnt value i ↔ b.AllEq i cnt value := by
  constructor
  · rintro ⟨-, -, hbits⟩ j hlow hhigh
    obtain ⟨k, rfl⟩ := Nat.exists_eq_add_of_le hlow
    rw [hb _ (by omega)]
    exact hbits k (by omega)
  · intro hall
    refine ⟨hi, hroom, fun k hk => ?_⟩
    rw [← hb _ (by omega)]
    exact hall (i + k) (Nat.le_add_right ..) (by omega)

/-- A scan that fails found no group, and one that succeeds found the first. -/
theorem Holds.found (hb : b.Holds a) {r : ℕ} (h : b.Found start (b.bitCnt + 1 - cnt) cnt value r) :
    (r = bitmapError ∧ firstGroup a b.bitCnt start cnt value = none) ∨
      firstGroup a b.bitCnt start cnt value = some r := by
  rcases h with ⟨herror, hnone⟩ | ⟨hlow, hhigh, hall, hfirst⟩
  · refine .inl ⟨herror, firstGroup_eq_none.mpr fun i hi => ?_⟩
    have hroom := hi.2.1
    exact hnone i hi.1 (by omega) ((hb.group_iff hi.1 hroom).mp hi)
  · refine .inr (firstGroup_eq_some.mpr ⟨(hb.group_iff hlow (by omega)).mpr hall, fun i hi => ?_⟩)
    by_contra hlt
    exact hfirst i hi.1 (by omega) ((hb.group_iff hi.1 hi.2.1).mp hi)

/-! ## What holds the array answers from it -/

theorem Holds.countLoop (hb : b.Holds a) (value : Bool) {n valueCnt : ℕ}
    (h : idx + n ≤ b.bitCnt) : b.countLoop value n idx valueCnt =
      .ok (valueCnt + (range' idx n).countP fun j => a j = value) := by
  induction n generalizing idx valueCnt with
  | zero => rfl
  | succ n ih =>
    rw [Bitmap.countLoop, bitmapTest_eq (show idx < b.bitCnt by omega), ok_bind,
      hb idx (by omega), range'_succ, countP_cons]
    by_cases hbit : a idx = value
    · rw [if_pos hbit, ih (by omega), if_pos (by simpa using hbit), Nat.add_right_comm, add_assoc]
    · rw [if_neg hbit, ih (by omega), if_neg (by simpa using hbit)]
      rfl

theorem Holds.bitmapContains (hb : b.Holds a) (h : start + cnt ≤ b.bitCnt) (value : Bool) :
    b.bitmapContains start cnt value = .ok ((range' start cnt).any fun j => a j = value) := by
  obtain ⟨r, hrun, hiff⟩ := bitmapContains_spec h value
  rw [hrun]
  congr 1
  rw [Bool.eq_iff_iff, ← not_iff_not, Bool.not_eq_true, hiff]
  simp only [any_eq_true, mem_range'_1, not_exists, not_and, and_imp]
  refine forall_congr' fun j => forall_congr' fun hlow => forall_congr' fun hhigh => ?_
  rw [hb j (by omega)]
  cases a j <;> cases value <;> decide

theorem Holds.agrees (hb : b.Holds a) (hsmall : b.bitCnt < bitmapError) : b.Agrees a where
  test idx hidx := by
    rw [bitmapTest_eq hidx, hb idx hidx]
  count start cnt value h := by
    rw [bitmapCount, checkRange_eq h, ok_bind, hb.countLoop value h, zero_add]
  contains start cnt value h := hb.bitmapContains h value
  any start cnt h := by
    rw [bitmapAny, hb.bitmapContains h]
    simp
  none start cnt h := by
    rw [bitmapNone, hb.bitmapContains h]
    simp
  all start cnt h := by
    rw [bitmapAll, hb.bitmapContains h]
    simp [not_any_eq_all_not]
  scan start cnt value h := by
    obtain ⟨r, hscan, hfound⟩ := bitmapScan_spec h cnt value
    refine ⟨r, hscan, ?_⟩
    rcases hb.found hfound with ⟨herror, hnone⟩ | hsome
    · rw [firstGroup_eq_none] at hnone
      exact ⟨⟨fun _ => hnone, fun _ => herror⟩, fun hne => absurd herror hne⟩
    · rw [firstGroup_eq_some] at hsome
      have hroom : r + cnt ≤ b.bitCnt := hsome.1.2.1
      refine ⟨⟨fun herror => by omega, fun hnone => absurd hsome.1 (hnone r)⟩, fun _ => hsome⟩

end Bitmap

/-! ## Sequences of operations -/

open Bitmap

variable {b : Bitmap} {a : ℕ → Bool}

theorem BitmapOp.apply_spec {op : BitmapOp} (h : op.InRange b.bitCnt)
    (hsmall : b.bitCnt < bitmapError) (hb : b.Holds a) :
    ∃ b', op.apply b = .ok b' ∧ b'.bitCnt = b.bitCnt ∧ b'.Holds (op.reference b.bitCnt a) := by
  cases op with
  | set idx value =>
    obtain ⟨b', hrun, hto⟩ := bitmapSet_spec h value
    exact ⟨b', hrun, hto.bitCnt, hto.holds_update hb⟩
  | mark idx =>
    obtain ⟨b', hrun, hto⟩ := bitmapMark_spec h
    exact ⟨b', hrun, hto.bitCnt, hto.holds_update hb⟩
  | reset idx =>
    obtain ⟨b', hrun, hto⟩ := bitmapReset_spec h
    exact ⟨b', hrun, hto.bitCnt, hto.holds_update hb⟩
  | flip idx =>
    obtain ⟨b', hrun, hto⟩ := bitmapFlip_spec h
    rw [hb idx h] at hto
    exact ⟨b', hrun, hto.bitCnt, hto.holds_update hb⟩
  | setMultiple start cnt value =>
    obtain ⟨b', hrun, hto⟩ := bitmapSetMultiple_spec h value
    exact ⟨b', hrun, hto.bitCnt, hto.holds hb⟩
  | setAll value =>
    have hrange : 0 + b.bitCnt ≤ b.bitCnt := le_of_eq (zero_add _)
    obtain ⟨b', hrun, hto⟩ := bitmapSetMultiple_spec hrange value
    exact ⟨b', hrun, hto.bitCnt, hto.holds hb⟩
  | scanAndFlip start cnt value =>
    obtain ⟨r, hscan, hfound⟩ := bitmapScan_spec h cnt value
    rw [BitmapOp.apply, BitmapOp.reference, bitmapScanAndFlip, hscan, ok_bind]
    rcases hb.found hfound with ⟨herror, hnone⟩ | hsome
    · rw [if_neg (not_not.mpr herror), hnone]
      exact ⟨b, rfl, rfl, hb⟩
    · have hgroup := (firstGroup_eq_some.mp hsome).1
      have hroom : r + cnt ≤ b.bitCnt := hgroup.2.1
      obtain ⟨b', hrun, hto⟩ := bitmapSetMultiple_spec hroom (!value)
      rw [hsome, if_pos (show r ≠ bitmapError by omega), hrun]
      exact ⟨b', rfl, hto.bitCnt, hto.holds hb⟩

theorem holds_foldlM {ops : List BitmapOp} (hops : ∀ op ∈ ops, op.InRange b.bitCnt)
    (hsmall : b.bitCnt < bitmapError) (hb : b.Holds a) :
    ∃ b', ops.foldlM BitmapOp.apply b = .ok b' ∧ b'.bitCnt = b.bitCnt ∧
      b'.Holds (ops.foldl (BitmapOp.reference b.bitCnt) a) := by
  induction ops generalizing b a with
  | nil => exact ⟨b, rfl, rfl, hb⟩
  | cons op rest ih =>
    obtain ⟨hop, hrest⟩ := forall_mem_cons.mp hops
    obtain ⟨b₁, hrun, hcnt, hholds⟩ := BitmapOp.apply_spec hop hsmall hb
    rw [← hcnt] at hrest hsmall
    obtain ⟨b', hruns, hcnt', hall⟩ := ih hrest hsmall hholds
    rw [hcnt] at hcnt' hall
    refine ⟨b', ?_, hcnt', hall⟩
    rwa [foldlM_cons, hrun]

/-- **A packed bitmap refines an array of booleans.**  After any sequence of operations in range
on a bitmap that could be created, every test, count and scan answers as on the array on which the
same operations were done. -/
theorem bitmap_refines_array {bitCnt : ℕ} {granted bitsGranted : Bool} {words : ℕ → BitVec 32}
    {ops : List BitmapOp} (hcreate : bitmapCreate bitCnt granted bitsGranted words = .ok (some b))
    (hops : ∀ op ∈ ops, op.InRange bitCnt) :
    ∃ b', ops.foldlM BitmapOp.apply b = .ok b' ∧ b'.bitCnt = bitCnt ∧
      b'.Agrees (ops.foldl (BitmapOp.reference bitCnt) fun _ => false) := by
  obtain ⟨rfl, hsmall, hclear⟩ := bitmapCreate_spec hcreate
  obtain ⟨b', hrun, hcnt, hholds⟩ := holds_foldlM hops hsmall hclear
  exact ⟨b', hrun, hcnt, hholds.agrees (hcnt ▸ hsmall)⟩

/-- Forty bits in two words: after some changes the first three clear bits from 30 on are at 34. -/
theorem bitmap_refines_array_forty : ∃ (b : Bitmap) (ops : List BitmapOp) (b' : Bitmap),
    bitmapCreate 40 true true (fun _ => 0xffffffff#32) = .ok (some b) ∧
      (∀ op ∈ ops, BitmapOp.InRange 40 op) ∧ ops.length = 5 ∧
      ops.foldlM BitmapOp.apply b = .ok b' ∧ b'.bitmapScan 30 3 false = .ok 34 := by
  let ops : List BitmapOp := [.setMultiple 30 4 true, .mark 39, .flip 39, .scanAndFlip 0 5 false,
    .set 37 true]
  have hops : ∀ op ∈ ops, BitmapOp.InRange 40 op := by decide
  obtain ⟨r, hr, hsome⟩ : ∃ r, (bitmapCreate 40 true true fun _ => 0xffffffff#32) = .ok r ∧
      r.isSome := by
    decide +kernel
  obtain ⟨b, rfl⟩ := Option.isSome_iff_exists.mp hsome
  obtain ⟨b', hrun, hcnt, hagrees⟩ := bitmap_refines_array hr hops
  obtain ⟨i, hscan, herror, hleast⟩ := hagrees.scan 30 3 false (by omega)
  refine ⟨b, ops, b', hr, hops, rfl, hrun, ?_⟩
  rw [hcnt] at hleast herror
  have hfirst : firstGroup (ops.foldl (BitmapOp.reference 40) fun _ => false) 40 30 3 false =
      some 34 := by
    decide +kernel
  have hne : i ≠ bitmapError := fun h => herror.mp h 34 (firstGroup_eq_some.mp hfirst).1
  have hi := firstGroup_eq_some.mpr (hleast hne)
  rw [hscan, Option.some.inj (hi.symm.trans hfirst)]

end CS162
