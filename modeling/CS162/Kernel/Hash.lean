import Mathlib.Data.Finset.Card
import Mathlib.Data.Finset.Filter
import Mathlib.Order.Defs.Unbundled
import CS162.Library.Buckets
import CS162.Library.Run
import CS162.Block

/-!
# The hash tables of `lib/kernel/hash.c`

A table is an array of buckets, and a bucket is a list of elements (`lib/kernel/list.c`).  The
elements are of an arbitrary type `α`, whose values stand for the `struct hash_elem`s: two of them
are the same only if they are the same structure.  Whether they are equal for the table is up to
`less`.

A structure takes eight bytes, so there are less than 2^29 of them, and no count wraps around.
Every call that may rehash is told whether `malloc` succeeds.

## Strategy

The reference is a finite set of elements, no two of which are equal (`SetStep`).  `Represents`
relates it to a table; the operations keep it one by one, and `rehash` sorts the same elements into
other buckets.
-/

namespace CS162

open Library List

/-- The two functions that a table is made with. -/
structure Keys (α : Type) where
  hash : α → UInt32
  less : α → α → Bool
  order : IsStrictWeakOrder α fun a b => less a b = true
  alike : ∀ a b, less a b = false → less b a = false → hash a = hash b

/-- `struct hash`. -/
structure Hash (α : Type) where
  elemCnt : ℕ
  bucketCnt : ℕ
  buckets : List (List α)
  sized : buckets.length = bucketCnt

namespace Hash

variable {α : Type} [DecidableEq α]

/-! ## The functions of the source -/

/-- The index that `find_bucket` computes. -/
def bucketIdx (k : Keys α) (bucketCnt : ℕ) (e : α) : ℕ := (k.hash e).toNat &&& (bucketCnt - 1)

/-- `find_bucket`: where the bucket is. -/
def findBucket (k : Keys α) (h : Hash α) (e : α) : Except Fault ℕ :=
  let idx := bucketIdx k h.bucketCnt e
  if idx < h.buckets.length then .ok idx else .error (.undefined "h->buckets[bucket_idx]")

def findElem (k : Keys α) (h : Hash α) (bucket : ℕ) (e : α) : Option α :=
  (h.buckets.getD bucket []).find? fun hi => !k.less hi e && !k.less e hi

def turnOffLeast1bit (x : ℕ) : ℕ := x &&& (x - 1)

def isPowerOf2 (x : ℕ) : Bool := x ≠ 0 && turnOffLeast1bit x = 0

/-- The `while` loop of `rehash`. -/
def powerLoop : ℕ → ℕ → Except Fault ℕ
  | 0, _ => .error .outOfFuel
  | fuel + 1, x => if isPowerOf2 x then .ok x else powerLoop fuel (turnOffLeast1bit x)

/-- The number of buckets that `rehash` computes. -/
def newBucketCnt (elemCnt : ℕ) : Except Fault ℕ :=
  let cnt := if elemCnt / 2 < 4 then 4 else elemCnt / 2
  powerLoop cnt cnt

/-- `list_push_front` on a bucket. -/
def pushFront (h : Hash α) (bucket : ℕ) (e : α) : Hash α :=
  { h with buckets := h.buckets.modify bucket (e :: ·),
           sized := (length_modify ..).trans h.sized }

/-- `list_remove`: the element is unlinked from whichever bucket it is on. -/
def listRemove (h : Hash α) (e : α) : Hash α :=
  { h with buckets := h.buckets.map (filter (· ≠ e)),
           sized := (length_map ..).trans h.sized }

/-- The body of the loop of `rehash`: an element is moved to its new bucket. -/
def moveElem (k : Keys α) (h : Hash α) (e : α) : Except Fault (Hash α) := do
  let bucket ← findBucket k h e
  return h.pushFront bucket e

def rehash (k : Keys α) (granted : Bool) (h : Hash α) : Except Fault (Hash α) := do
  let cnt ← newBucketCnt h.elemCnt
  if cnt = h.bucketCnt then
    return h
  else if granted then
    let new : Hash α := { elemCnt := h.elemCnt, bucketCnt := cnt,
                          buckets := replicate cnt [], sized := length_replicate .. }
    h.buckets.foldlM (fun new bucket => bucket.foldlM (moveElem k) new) new
  else
    return h

def insertElem (h : Hash α) (bucket : ℕ) (e : α) : Hash α :=
  { h with elemCnt := h.elemCnt + 1 }.pushFront bucket e

def removeElem (h : Hash α) (e : α) : Hash α :=
  { h with elemCnt := h.elemCnt - 1 }.listRemove e

/-- `hash_clear`: the elements the destructor is called for, and the table. -/
def hashClear (h : Hash α) (destructor : Bool) : List α × Hash α :=
  (if destructor then h.buckets.flatten else [],
    { h with elemCnt := 0, buckets := h.buckets.map fun _ => [],
             sized := (length_map ..).trans h.sized })

/-- `hash_init`; `memory` is what the new buckets hold before they are cleared. -/
def hashInit (granted : Bool) (memory : List α) : Option (Hash α) :=
  if granted then
    some (hashClear ⟨0, 4, replicate 4 memory, length_replicate ..⟩ false).2
  else none

def hashInsert (k : Keys α) (granted : Bool) (h : Hash α) (new : α) :
    Except Fault (Option α × Hash α) := do
  let bucket ← findBucket k h new
  let old := findElem k h bucket new
  let h := if old.isNone then h.insertElem bucket new else h
  return (old, ← rehash k granted h)

def hashReplace (k : Keys α) (granted : Bool) (h : Hash α) (new : α) :
    Except Fault (Option α × Hash α) := do
  let bucket ← findBucket k h new
  let old := findElem k h bucket new
  let h := match old with
    | some old => h.removeElem old
    | none => h
  let h := h.insertElem bucket new
  return (old, ← rehash k granted h)

def hashFind (k : Keys α) (h : Hash α) (e : α) : Except Fault (Option α) := do
  return findElem k h (← findBucket k h e) e

def hashDelete (k : Keys α) (granted : Bool) (h : Hash α) (e : α) :
    Except Fault (Option α × Hash α) := do
  match findElem k h (← findBucket k h e) e with
  | some found => return (some found, ← rehash k granted (h.removeElem found))
  | none => return (none, h)

end Hash

/-! ## Calls -/

/-- A call, and whether `malloc` would succeed in it. -/
inductive HashOp (α : Type) where
  | insert (new : α) (granted : Bool)
  | replace (new : α) (granted : Bool)
  | find (e : α)
  | delete (e : α) (granted : Bool)
  | clear (destructor : Bool)

namespace HashOp

variable {α : Type} [DecidableEq α]

/-- What a call returns, and the table after it. -/
def apply (k : Keys α) (h : Hash α) : HashOp α → Except Fault (Option α × Hash α)
  | insert new granted => h.hashInsert k granted new
  | replace new granted => h.hashReplace k granted new
  | find e => (·, h) <$> h.hashFind k e
  | delete e granted => h.hashDelete k granted e
  | clear destructor => .ok (none, (h.hashClear destructor).2)

end HashOp

namespace Keys

variable {α : Type} {k : Keys α} {a b c : α}

def Equal (k : Keys α) (a b : α) : Prop := k.less a b = false ∧ k.less b a = false

instance (k : Keys α) (a b : α) : Decidable (k.Equal a b) := inferInstanceAs (Decidable (_ ∧ _))

theorem Equal.refl (k : Keys α) (a : α) : k.Equal a a := by
  have hirrefl := k.order.toIsStrictOrder.irrefl a
  simpa [Equal] using hirrefl

theorem Equal.symm (h : k.Equal a b) : k.Equal b a := ⟨h.2, h.1⟩

theorem Equal.trans (h : k.Equal a b) (h' : k.Equal b c) : k.Equal a c := by
  have hincomp := k.order.incomp_trans a b c
  simp only [Bool.not_eq_true] at hincomp
  exact hincomp h h'

theorem Equal.hash_eq (h : k.Equal a b) : k.hash a = k.hash b := k.alike a b h.1 h.2

end Keys

/-! ## The reference set -/

section Reference

variable {α : Type} [DecidableEq α]

/-- What a set of elements answers when it is asked for an element equal to `e`. -/
def Lookup (k : Keys α) (S : Finset α) (e : α) : Option α → Prop
  | some x => x ∈ S ∧ k.Equal x e
  | none => ∀ x ∈ S, ¬ k.Equal x e

/-- What a call does to the set, and what it returns. -/
def SetStep (k : Keys α) (S : Finset α) : HashOp α × Option α → Finset α → Prop
  | (.insert new _, r), S' => Lookup k S new r ∧ S' = if r.isNone then insert new S else S
  | (.replace new _, r), S' =>
    Lookup k S new r ∧ S' = insert new (S.filter fun x => ¬ k.Equal x new)
  | (.find e, r), S' => Lookup k S e r ∧ S' = S
  | (.delete e _, r), S' => Lookup k S e r ∧ S' = S.filter fun x => ¬ k.Equal x e
  | (.clear _, r), S' => r = none ∧ S' = ∅

/-- A call on the table, and what it returns. -/
def HashStep (k : Keys α) (h : Hash α) (l : HashOp α × Option α) (h' : Hash α) : Prop :=
  l.1.apply k h = .ok (l.2, h')

end Reference

namespace Hash

variable {α : Type} {k : Keys α} {h : Hash α} {S : Finset α} {e x : α}

def elems (h : Hash α) : List α := h.buckets.flatten

/-- **The table and the set.**  They have the same elements, no two of which are equal; there are
a power of two of buckets, at least four, and each element is in the bucket of its hash. -/
structure Represents (k : Keys α) (h : Hash α) (S : Finset α) : Prop where
  nodup : h.elems.Nodup
  mem_iff : ∀ x, x ∈ h.elems ↔ x ∈ S
  count : h.elemCnt = S.card
  unequal : ∀ x ∈ S, ∀ y ∈ S, k.Equal x y → x = y
  power : ∃ n, 2 ≤ n ∧ h.bucketCnt = 2 ^ n
  placed : ∀ i bucket, h.buckets[i]? = some bucket → ∀ x ∈ bucket,
    (k.hash x).toNat &&& (h.bucketCnt - 1) = i

/-! ## The number of buckets -/

theorem powerLoop_eq {fuel n x : ℕ} (hlow : 2 ^ n ≤ x) (hhigh : x < 2 ^ (n + 1))
    (hfuel : x ≤ fuel) : powerLoop fuel x = .ok (2 ^ n) := by
  induction fuel generalizing x with
  | zero =>
    omega
  | succ fuel ih =>
    rw [powerLoop]
    by_cases hx : x = 2 ^ n
    · subst hx
      simp [isPowerOf2, turnOffLeast1bit]
    · have hbit : 2 ^ n ≤ turnOffLeast1bit x := two_pow_le_and_pred (by omega) hhigh
      have hle : turnOffLeast1bit x ≤ x - 1 := Nat.and_le_right
      rw [if_neg, ih hbit (by omega) (by omega)]
      simp only [isPowerOf2, Bool.and_eq_true, decide_eq_true_eq]
      omega

theorem newBucketCnt_eq (elemCnt : ℕ) : ∃ n, 2 ≤ n ∧ newBucketCnt elemCnt = .ok (2 ^ n) := by
  unfold newBucketCnt
  generalize hcnt : (if elemCnt / 2 < 4 then 4 else elemCnt / 2) = cnt
  have hfour : 4 ≤ cnt := by split at hcnt <;> omega
  have hlow := Nat.log2_self_le (n := cnt) (by omega)
  have hhigh := Nat.lt_log2_self (n := cnt)
  refine ⟨cnt.log2, ?_, powerLoop_eq hlow hhigh (le_refl _)⟩
  by_contra hlt
  have hle : 2 ^ (cnt.log2 + 1) ≤ 2 ^ 2 := Nat.pow_le_pow_right (by decide) (by omega)
  omega

/-! ## Looking for an element -/

theorem bucketIdx_lt {n : ℕ} (hcnt : h.bucketCnt = 2 ^ n) (e : α) :
    bucketIdx k h.bucketCnt e < h.buckets.length := by
  rw [h.sized, hcnt, bucketIdx, Nat.and_two_pow_sub_one_eq_mod]
  exact Nat.mod_lt _ (Nat.two_pow_pos n)

theorem findBucket_eq {n : ℕ} (hcnt : h.bucketCnt = 2 ^ n) (e : α) :
    findBucket k h e = .ok (bucketIdx k h.bucketCnt e) :=
  if_pos (bucketIdx_lt hcnt e)

theorem Represents.findBucket (hr : Represents k h S) (e : α) :
    findBucket k h e = .ok (bucketIdx k h.bucketCnt e) := by
  obtain ⟨n, -, hcnt⟩ := hr.power
  exact findBucket_eq hcnt e

/-- An equal element can only be in the bucket that is searched. -/
theorem Represents.lookup (hr : Represents k h S) (e : α) :
    Lookup k S e (findElem k h (bucketIdx k h.bucketCnt e) e) := by
  have hplaced : Placed (bucketIdx k h.bucketCnt) h.buckets := hr.placed
  cases hfind : findElem k h (bucketIdx k h.bucketCnt e) e with
  | some x =>
    have hequal := find?_some hfind
    simp only [Bool.and_eq_true, Bool.not_eq_true'] at hequal
    have hmem := mem_of_find?_eq_some hfind
    have hidx : bucketIdx k h.bucketCnt x = bucketIdx k h.bucketCnt e := by
      unfold bucketIdx
      rw [Keys.Equal.hash_eq hequal]
    rw [← hidx] at hmem
    exact ⟨(hr.mem_iff x).mp (hplaced.mem_flatten_iff.mpr hmem), hequal⟩
  | none =>
    intro x hx hequal
    have hmem := hplaced.mem_flatten_iff.mp ((hr.mem_iff x).mpr hx)
    have hidx : bucketIdx k h.bucketCnt x = bucketIdx k h.bucketCnt e := by
      unfold bucketIdx
      rw [hequal.hash_eq]
    rw [hidx] at hmem
    have hnot := find?_eq_none.mp hfind x hmem
    simp [hequal.1, hequal.2] at hnot

theorem filter_eq_self_of_lookup (hnone : Lookup k S e none) :
    (S.filter fun y => ¬ k.Equal y e) = S :=
  Finset.filter_true_of_mem hnone

/-! ## Rehashing -/

theorem moveElems_eq {n : ℕ} {new : Hash α} (hcnt : new.bucketCnt = 2 ^ n) (xs : List α) :
    ∃ new', xs.foldlM (moveElem k) new = .ok new' ∧ new'.elemCnt = new.elemCnt ∧
      new'.bucketCnt = new.bucketCnt ∧
      new'.buckets = xs.foldl (addFront (bucketIdx k new.bucketCnt)) new.buckets := by
  induction xs generalizing new with
  | nil => exact ⟨new, rfl, rfl, rfl, rfl⟩
  | cons x rest ih =>
    obtain ⟨new', hrun, helem, hbucket, hbuckets⟩ :=
      @ih (new.pushFront (bucketIdx k new.bucketCnt x) x) hcnt
    refine ⟨new', ?_, helem, hbucket, hbuckets⟩
    rwa [foldlM_cons, moveElem, findBucket_eq hcnt]

theorem moveBuckets_eq {n : ℕ} {new : Hash α} (hcnt : new.bucketCnt = 2 ^ n) (bs : List (List α)) :
    ∃ new', bs.foldlM (fun new bucket => bucket.foldlM (moveElem k) new) new = .ok new' ∧
      new'.elemCnt = new.elemCnt ∧ new'.bucketCnt = new.bucketCnt ∧
      new'.buckets = bs.flatten.foldl (addFront (bucketIdx k new.bucketCnt)) new.buckets := by
  induction bs generalizing new with
  | nil => exact ⟨new, rfl, rfl, rfl, rfl⟩
  | cons b rest ih =>
    obtain ⟨new₁, hfirst, helem₁, hcnt₁, hbuckets₁⟩ := moveElems_eq (k := k) hcnt b
    obtain ⟨new', hrest, helem, hbucket, hbuckets⟩ := ih (hcnt₁.trans hcnt)
    refine ⟨new', ?_, helem.trans helem₁, hbucket.trans hcnt₁, ?_⟩
    · rwa [foldlM_cons, hfirst]
    · rw [hbuckets, hbuckets₁, hcnt₁, flatten_cons, foldl_append]

/-- **`rehash` keeps the set**, whether it changes the number of buckets, fails to, or need not. -/
theorem Represents.rehash (hr : Represents k h S) (granted : Bool) :
    ∃ h', rehash k granted h = .ok h' ∧ Represents k h' S := by
  obtain ⟨n, hn, hnew⟩ := newBucketCnt_eq h.elemCnt
  unfold Hash.rehash
  rw [hnew, ok_bind]
  by_cases hsame : 2 ^ n = h.bucketCnt
  · rw [if_pos hsame]
    exact ⟨h, rfl, hr⟩
  rw [if_neg hsame]
  cases granted with
  | false => exact ⟨h, rfl, hr⟩
  | true =>
    have hcnt₀ : (⟨h.elemCnt, 2 ^ n, replicate (2 ^ n) [], length_replicate ..⟩ :
      Hash α).bucketCnt = 2 ^ n := rfl
    obtain ⟨h', hrun, helem, hcnt, hbuckets⟩ := moveBuckets_eq (k := k) hcnt₀ h.buckets
    have hslot : ∀ x, bucketIdx k (2 ^ n) x < (replicate (2 ^ n) ([] : List α)).length :=
      fun x => bucketIdx_lt
        (h := ⟨h.elemCnt, 2 ^ n, replicate (2 ^ n) [], length_replicate ..⟩) rfl x
    obtain ⟨hplaced, -, hperm⟩ := addFront_foldl h.buckets.flatten placed_replicate hslot
    rw [← hbuckets, flatten_replicate_nil, append_nil] at hperm
    rw [← hbuckets] at hplaced
    have helems : h'.elems.Perm h.elems := hperm
    refine ⟨h', hrun, helems.nodup_iff.mpr hr.nodup, fun x => ?_, helem.trans hr.count,
      hr.unequal, ⟨n, hn, hcnt⟩, ?_⟩
    · rw [helems.mem_iff, hr.mem_iff]
    · rwa [hcnt]

/-! ## Empty tables -/

theorem Represents.hashClear (hr : Represents k h S) (destructor : Bool) :
    Represents k (h.hashClear destructor).2 ∅ := by
  have hbuckets : (h.hashClear destructor).2.buckets = replicate h.buckets.length [] :=
    map_const' ..
  have helems : (h.hashClear destructor).2.elems = [] := by
    unfold elems
    rw [hbuckets, flatten_replicate_nil]
  refine ⟨?_, fun x => ?_, rfl, fun x hx => absurd hx (Finset.notMem_empty x), hr.power, ?_⟩
  · rw [helems]
    exact nodup_nil
  · rw [helems]
    simp
  · rw [hbuckets]
    exact placed_replicate

theorem hashInit_represents {granted : Bool} {memory : List α}
    (hinit : hashInit granted memory = some h) : Represents k h ∅ := by
  unfold hashInit at hinit
  cases granted with
  | false => cases hinit
  | true =>
    cases hinit
    refine ⟨nodup_nil, fun x => ?_, rfl, fun x hx => absurd hx (Finset.notMem_empty x),
      ⟨2, le_refl 2, rfl⟩, ?_⟩
    · simp [elems, Hash.hashClear]
    · exact placed_replicate (n := 4)

/-! ## Changing the table -/

variable [DecidableEq α]

/-- An element that is equal to none in the table is put into its bucket. -/
theorem Represents.insertElem (hr : Represents k h S) (hnone : Lookup k S e none) :
    Represents k (h.insertElem (bucketIdx k h.bucketCnt e) e) (insert e S) := by
  obtain ⟨n, hn, hcnt⟩ := hr.power
  have hplaced : Placed (bucketIdx k h.bucketCnt) h.buckets := hr.placed
  have hnew : e ∉ S := fun hmem => hnone e hmem (Keys.Equal.refl k e)
  have hperm : (h.insertElem (bucketIdx k h.bucketCnt e) e).elems.Perm (e :: h.elems) :=
    flatten_addFront (bucketIdx_lt hcnt e)
  refine ⟨?_, fun x => ?_, ?_, ?_, ⟨n, hn, hcnt⟩, hplaced.addFront⟩
  · rw [hperm.nodup_iff, nodup_cons, hr.mem_iff]
    exact ⟨hnew, hr.nodup⟩
  · rw [hperm.mem_iff, mem_cons, hr.mem_iff, Finset.mem_insert]
  · rw [Finset.card_insert_of_notMem hnew, ← hr.count]
    rfl
  · intro x hx y hy hequal
    rcases Finset.mem_insert.mp hx with hxe | hxS <;> rcases Finset.mem_insert.mp hy with hye | hyS
    · exact hxe.trans hye.symm
    · exact absurd (hxe ▸ hequal.symm) (hnone y hyS)
    · exact absurd (hye ▸ hequal) (hnone x hxS)
    · exact hr.unequal x hxS y hyS hequal

theorem Represents.removeElem (hr : Represents k h S) (hx : x ∈ S) :
    Represents k (h.removeElem x) (S.erase x) := by
  have hplaced : Placed (bucketIdx k h.bucketCnt) h.buckets := hr.placed
  have helems : (h.removeElem x).elems = h.elems.filter (· ≠ x) := filter_flatten.symm
  refine ⟨?_, fun y => ?_, ?_, ?_, hr.power, hplaced.filter _⟩
  · rw [helems]
    exact hr.nodup.filter _
  · rw [helems, mem_filter, hr.mem_iff, Finset.mem_erase, decide_eq_true_eq, and_comm]
  · rw [Finset.card_erase_of_mem hx, ← hr.count]
    rfl
  · intro y hy z hz
    exact hr.unequal y (Finset.mem_of_mem_erase hy) z (Finset.mem_of_mem_erase hz)

theorem Represents.filter_eq_erase (hr : Represents k h S) (hx : Lookup k S e (some x)) :
    (S.filter fun y => ¬ k.Equal y e) = S.erase x := by
  ext y
  rw [Finset.mem_filter, Finset.mem_erase]
  constructor
  · rintro ⟨hy, hne⟩
    refine ⟨?_, hy⟩
    rintro rfl
    exact hne hx.2
  · rintro ⟨hne, hy⟩
    exact ⟨hy, fun hequal => hne (hr.unequal y hy x hx.1 (hequal.trans hx.2.symm))⟩

/-! ## Sequences of calls -/

/-- **One call.**  The table returns what the set does, and represents it afterwards. -/
theorem Represents.apply (hr : Represents k h S) (op : HashOp α) :
    ∃ r h' S', op.apply k h = .ok (r, h') ∧ SetStep k S (op, r) S' ∧ Represents k h' S' := by
  cases op with
  | insert new granted =>
    have hlookup := hr.lookup new
    rw [HashOp.apply, hashInsert, hr.findBucket, ok_bind]
    cases hold : findElem k h (bucketIdx k h.bucketCnt new) new with
    | none =>
      rw [hold] at hlookup
      obtain ⟨h', hrun, hr'⟩ := (hr.insertElem hlookup).rehash granted
      refine ⟨none, h', insert new S, ?_, ⟨hlookup, rfl⟩, hr'⟩
      simp only [Option.isNone_none, if_true, hrun]
      rfl
    | some x =>
      rw [hold] at hlookup
      obtain ⟨h', hrun, hr'⟩ := hr.rehash granted
      refine ⟨some x, h', S, ?_, ⟨hlookup, rfl⟩, hr'⟩
      simp only [Option.isNone_some, Bool.false_eq_true, if_false, hrun]
      rfl
  | replace new granted =>
    have hlookup := hr.lookup new
    rw [HashOp.apply, hashReplace, hr.findBucket, ok_bind]
    cases hold : findElem k h (bucketIdx k h.bucketCnt new) new with
    | none =>
      rw [hold] at hlookup
      obtain ⟨h', hrun, hr'⟩ := (hr.insertElem hlookup).rehash granted
      refine ⟨none, h', insert new S, ?_, ⟨hlookup, ?_⟩, hr'⟩
      · simp only [hrun]
        rfl
      · rw [filter_eq_self_of_lookup hlookup]
    | some x =>
      rw [hold] at hlookup
      have hgone : Lookup k (S.erase x) new none := by
        intro y hy hequal
        obtain ⟨hne, hy⟩ := Finset.mem_erase.mp hy
        exact hne (hr.unequal y hy x hlookup.1 (hequal.trans hlookup.2.symm))
      obtain ⟨h', hrun, hr'⟩ := ((hr.removeElem hlookup.1).insertElem hgone).rehash granted
      refine ⟨some x, h', insert new (S.erase x), ?_, ⟨hlookup, ?_⟩, hr'⟩
      · have hrun' : Hash.rehash k granted
            ((h.removeElem x).insertElem (bucketIdx k h.bucketCnt new) new) = .ok h' := hrun
        simp only [hrun']
        rfl
      · rw [hr.filter_eq_erase hlookup]
  | find e =>
    refine ⟨_, h, S, ?_, ⟨hr.lookup e, rfl⟩, hr⟩
    rw [HashOp.apply, hashFind, hr.findBucket]
    rfl
  | delete e granted =>
    have hlookup := hr.lookup e
    rw [HashOp.apply, hashDelete, hr.findBucket, ok_bind]
    cases hold : findElem k h (bucketIdx k h.bucketCnt e) e with
    | none =>
      rw [hold] at hlookup
      exact ⟨none, h, S, rfl, ⟨hlookup, (filter_eq_self_of_lookup hlookup).symm⟩, hr⟩
    | some x =>
      rw [hold] at hlookup
      obtain ⟨h', hrun, hr'⟩ := (hr.removeElem hlookup.1).rehash granted
      refine ⟨some x, h', S.erase x, ?_, ⟨hlookup, (hr.filter_eq_erase hlookup).symm⟩, hr'⟩
      simp only [hrun]
      rfl
  | clear destructor =>
    exact ⟨none, (h.hashClear destructor).2, ∅, rfl, ⟨rfl, rfl⟩, hr.hashClear destructor⟩

theorem exists_represents (k : Keys α) {granted : Bool} {memory : List α} {init : Hash α}
    {labels : List (HashOp α × Option α)} (hinit : hashInit granted memory = some init)
    (hrun : Run (HashStep k) init labels h) :
    ∃ S, Run (SetStep k) ∅ labels S ∧ Represents k h S := by
  refine hrun.simulation (hashInit_represents hinit) fun h l h' S hr hstep => ?_
  obtain ⟨r, h'', S', happly, hset, hr'⟩ := hr.apply l.1
  cases happly.symm.trans hstep
  exact ⟨S', hset, hr'⟩

/-- **A hash table refines a finite set keyed by equality.**  Whatever calls are made on it, and
whether or not `malloc` succeeds in them, the table returns what the set would and has its
elements, and the next call returns. -/
theorem hash_refines_set (k : Keys α) {granted : Bool} {memory : List α} {init : Hash α}
    {labels : List (HashOp α × Option α)} (hinit : hashInit granted memory = some init)
    (hrun : Run (HashStep k) init labels h) :
    ∃ S, Run (SetStep k) ∅ labels S ∧ Represents k h S ∧
      ∀ op : HashOp α, ∃ r h', op.apply k h = .ok (r, h') := by
  obtain ⟨S, hset, hr⟩ := exists_represents k hinit hrun
  refine ⟨S, hset, hr, fun op => ?_⟩
  obtain ⟨r, h', -, happly, -⟩ := hr.apply op
  exact ⟨r, h', happly⟩

/-- Numbers that are compared by their last two digits. -/
def lastDigits : Keys ℕ where
  hash n := (n % 100).toUInt32
  less m n := m % 100 < n % 100
  order := {
    irrefl := by simp
    trans := by
      simp only [decide_eq_true_eq]
      omega
    incomp_trans := by
      simp only [decide_eq_true_eq]
      omega }
  alike a b hab hba := by
    simp only [decide_eq_false_iff_not] at hab hba
    rw [show a % 100 = b % 100 by omega]

/-- A call that returns what the label says. -/
def lastDigitsNext (h : Hash ℕ) (l : HashOp ℕ × Option ℕ) : Option (Hash ℕ) :=
  match l.1.apply lastDigits h with
  | .ok (r, h') => if r = l.2 then some h' else none
  | .error _ => none

theorem hashStep_of_next (h : Hash ℕ) (l : HashOp ℕ × Option ℕ) (h' : Hash ℕ)
    (hstep : lastDigitsNext h l = some h') : HashStep lastDigits h l h' := by
  unfold lastDigitsNext at hstep
  split at hstep
  · next r h' happly =>
    obtain ⟨hr, ⟨⟩⟩ := Option.ite_none_right_eq_some.mp hstep
    rw [HashStep, happly, hr]
  · cases hstep

/-- Eighteen insertions, in which the table grows to eight buckets when `malloc` succeeds at last,
one of an element that is there, a replacement and a deletion. -/
theorem hash_refines_set_grown : ∃ init labels h S,
    hashInit true [] = some init ∧ Run (HashStep lastDigits) init labels h ∧
      Run (SetStep lastDigits) ∅ labels S ∧ h.bucketCnt = 8 ∧ S.card = 17 ∧
      h.elemCnt = S.card := by
  let labels : List (HashOp ℕ × Option ℕ) :=
    (range 18).map (fun n => (.insert (3 * n) (n == 17), none)) ++
      [(.insert 106 true, some 6), (.replace 109 false, some 9), (.delete 9 true, some 109),
        (.find 109, none)]
  obtain ⟨init, hinit⟩ : ∃ init : Hash ℕ, hashInit true [] = some init := ⟨_, rfl⟩
  have hexec : ∃ h ∈ execute lastDigitsNext init labels, h.bucketCnt = 8 ∧ h.elemCnt = 17 := by
    cases hinit
    decide +kernel
  obtain ⟨h, hrun, hbuckets, hcount⟩ := exists_run_of_execute hashStep_of_next hexec
  obtain ⟨S, hset, hr, -⟩ := hash_refines_set lastDigits hinit hrun
  exact ⟨init, labels, h, S, hinit, hrun, hset, hbuckets, hr.count.symm.trans hcount, hr.count⟩

/-! ## Iterating -/

/-- `struct hash_iterator`.  Places are counted in the list of the bucket: the head sentinel, on
which the iteration starts, has place 0, and the tail sentinel the last one; null has none. -/
structure HashIterator where
  bucket : ℕ
  elem : Option ℕ

def hashFirst : HashIterator := ⟨0, some 0⟩

def bucketOf (h : Hash α) (i : HashIterator) : List α := h.buckets.getD i.bucket []

def hashCur (h : Hash α) (i : HashIterator) : Option α :=
  i.elem.bind fun place => (h.bucketOf i)[place - 1]?

/-- The loop of `hash_next`, at a tail sentinel. -/
def nextLoop (h : Hash α) : ℕ → HashIterator → Except Fault HashIterator
  | 0, _ => .error .outOfFuel
  | fuel + 1, i =>
    if i.elem = some ((h.bucketOf i).length + 1) then
      if i.bucket + 1 ≥ h.bucketCnt then .ok ⟨i.bucket + 1, none⟩
      else nextLoop h fuel ⟨i.bucket + 1, some 1⟩
    else .ok i

def hashNext (h : Hash α) (i : HashIterator) : Except Fault (Option α × HashIterator) :=
  match i.elem with
  | none => .error (.undefined "i->elem->list_elem")
  | some place => do
    let i ← nextLoop h h.bucketCnt ⟨i.bucket, some (place + 1)⟩
    return (hashCur h i, i)

/-- What `hash_next` returns from call to call, until it returns null. -/
def iterate (h : Hash α) : ℕ → HashIterator → Except Fault (List α)
  | 0, _ => .error .outOfFuel
  | fuel + 1, i => do
    match ← hashNext h i with
    | (none, _) => return []
    | (some e, i) => return e :: (← iterate h fuel i)

def hashApply {σ : Type} (h : Hash α) (action : σ → α → σ) (s : σ) : σ :=
  h.buckets.foldl (fun s bucket => bucket.foldl action s) s

/-- The elements behind the iterator. -/
def Ahead (h : Hash α) (i : HashIterator) (rest : List α) : Prop :=
  ∃ place, i.elem = some place ∧ i.bucket < h.buckets.length ∧ place ≤ (h.bucketOf i).length ∧
    rest = (h.bucketOf i).drop place ++ (h.buckets.drop (i.bucket + 1)).flatten

omit [DecidableEq α] in
/-- The loop stops at the next element, whatever buckets are empty. -/
theorem nextLoop_eq {fuel b place : ℕ} (hb : b < h.buckets.length)
    (hplace : place ≤ (h.buckets.getD b []).length) (hfuel : h.buckets.length ≤ fuel + b) :
    ∃ i, nextLoop h fuel ⟨b, some (place + 1)⟩ = .ok i ∧
      match (h.buckets.getD b []).drop place ++ (h.buckets.drop (b + 1)).flatten with
      | [] => hashCur h i = none
      | e :: rest => hashCur h i = some e ∧ h.Ahead i rest := by
  induction fuel generalizing b place with
  | zero => omega
  | succ fuel ih =>
    by_cases hend : place = (h.buckets.getD b []).length
    · simp only [nextLoop, bucketOf, hend, drop_length, nil_append]
      by_cases hlast : b + 1 ≥ h.bucketCnt
      · rw [if_pos hlast, drop_eq_nil_of_le (h.sized ▸ hlast)]
        exact ⟨_, rfl, rfl⟩
      have hnext : b + 1 < h.buckets.length := by
        rw [h.sized]
        omega
      rw [if_neg hlast, drop_eq_getElem_cons hnext]
      have hbucket : h.buckets.getD (b + 1) [] = h.buckets[b + 1] := by simp [hnext]
      have hih := ih hnext (Nat.zero_le _) (by omega)
      rwa [hbucket] at hih
    · -- the next place of this bucket is an element
      have hlt : place < (h.buckets.getD b []).length := by omega
      rw [drop_eq_getElem_cons hlt]
      refine ⟨⟨b, some (place + 1)⟩, ?_, getElem?_eq_getElem hlt, place + 1, rfl, hb, hlt, rfl⟩
      rw [nextLoop, if_neg]
      exact fun heq => hend (Nat.succ.inj (Option.some.inj heq))

omit [DecidableEq α] in
theorem iterate_eq {i : HashIterator} {rest : List α} (hahead : h.Ahead i rest) {fuel : ℕ}
    (hfuel : rest.length < fuel) : iterate h fuel i = .ok rest := by
  induction fuel generalizing i rest with
  | zero => omega
  | succ fuel ih =>
    obtain ⟨place, helem, hb, hplace, rfl⟩ := hahead
    have hcnt : h.buckets.length ≤ h.bucketCnt + i.bucket := h.sized ▸ Nat.le_add_right _ _
    obtain ⟨j, hloop, hcur⟩ := nextLoop_eq hb hplace hcnt
    simp only [iterate, hashNext, helem, hloop, ok_bind]
    change match (h.bucketOf i).drop place ++ (h.buckets.drop (i.bucket + 1)).flatten with
      | [] => hashCur h j = none
      | e :: rest => hashCur h j = some e ∧ h.Ahead j rest at hcur
    cases hrest : (h.bucketOf i).drop place ++ (h.buckets.drop (i.bucket + 1)).flatten with
    | nil =>
      rw [hrest] at hcur
      rw [hcur]
      rfl
    | cons e rest =>
      simp only [hrest] at hcur hfuel
      have hih := ih hcur.2 (by simpa using hfuel)
      rw [hcur.1]
      simp only [pure_bind, hih]
      rfl

/-- **An iteration visits each element once**, and so does `hash_apply`. -/
theorem hash_iterates_once (k : Keys α) {granted : Bool} {memory : List α} {init : Hash α}
    {labels : List (HashOp α × Option α)} (hinit : hashInit granted memory = some init)
    (hrun : Run (HashStep k) init labels h) :
    ∃ S visited, Run (SetStep k) ∅ labels S ∧ visited.Nodup ∧ (∀ x, x ∈ visited ↔ x ∈ S) ∧
      (∀ fuel, visited.length < fuel → iterate h fuel hashFirst = .ok visited) ∧
      ∀ (σ : Type) (action : σ → α → σ) (s : σ), hashApply h action s = visited.foldl action s := by
  obtain ⟨S, hset, hr⟩ := exists_represents k hinit hrun
  refine ⟨S, h.elems, hset, hr.nodup, hr.mem_iff, fun fuel hfuel => iterate_eq ?_ hfuel, ?_⟩
  · obtain ⟨n, -, hcnt⟩ := hr.power
    have hpos : 0 < h.buckets.length := by
      rw [h.sized, hcnt]
      exact Nat.two_pow_pos n
    refine ⟨0, rfl, hpos, Nat.zero_le _, ?_⟩
    cases hbuckets : h.buckets with
    | nil => simp [hbuckets] at hpos
    | cons b bs => simp [elems, bucketOf, hashFirst, hbuckets]
  · intro σ action s
    rw [hashApply, elems, foldl_flatten]

/-- Four insertions and a deletion. -/
theorem hash_iterates_once_three : ∃ init labels h, hashInit true [] = some init ∧
    Run (HashStep lastDigits) init labels h ∧ iterate h 4 hashFirst = .ok [22, 14, 3] ∧
      hashApply h (· + ·) 0 = 39 := by
  obtain ⟨init, hinit⟩ : ∃ init : Hash ℕ, hashInit true [] = some init := ⟨_, rfl⟩
  let labels : List (HashOp ℕ × Option ℕ) := [(.insert 3 true, none), (.insert 5 true, none),
    (.insert 14 true, none), (.insert 22 true, none), (.delete 5 true, some 5)]
  have hexec : ∃ h ∈ execute lastDigitsNext init labels,
      hashApply h (fun l x => x :: l) [] = [3, 14, 22] := by
    cases hinit
    decide +kernel
  obtain ⟨h, hrun, happlied⟩ := exists_run_of_execute hashStep_of_next hexec
  obtain ⟨S, visited, -, -, -, hiterate, happly⟩ := hash_iterates_once lastDigits hinit hrun
  obtain rfl : visited = [22, 14, 3] := by
    rw [happly, foldl_flip_cons_eq_append'] at happlied
    simpa using congrArg reverse happlied
  exact ⟨init, labels, h, hinit, hrun, hiterate 4 (by decide), happly _ _ _⟩

end Hash

end CS162
