import Mathlib.Data.List.Chain
import CS162.Library.Tiling
import CS162.Block

/-!
# A user-level allocator (`personal/hw3/mm_alloc.c`)

The heap is a doubly linked list of blocks from `head_block` to `tail_block`, each with its
metadata in front of it.  `sbrk` is told by the caller whether it fails; it cannot extend the heap
by an amount that is negative as an `intptr_t` or past the end of the address space.

The metadata is kept by address, apart from the bytes.  Metadata that is overwritten, by the
bytes of a block or by other metadata, is lost, and an access to it is undefined, like an access
through a null pointer.

## Strategy

The blocks are the tiles of the heap (`Tiles`), and their metadata is linked (`Linked`).  Splitting
a block, and merging it with one neighbour or with the last block, break the links; `Unsplit` and
`Mergeable` say of the heap before a call that this does not happen.  The other paths change one
tile, append one or replace three, and each has a lemma that says which.
-/

namespace CS162

open Library List

/-- `memory_block`; a null pointer is 0. -/
structure MemoryBlock where
  size : ℕ
  free : Bool
  next : ℕ
  prev : ℕ
  deriving DecidableEq

abbrev metadataSize : ℕ := 32

/-- The number of values of a `size_t`, which has 64 bits here. -/
abbrev wordLimit : ℕ := 18446744073709551616

/-- The heap and the two globals. -/
structure MmHeap where
  blocks : ℕ → Option MemoryBlock
  memory : ℕ → UInt8
  headBlock : ℕ
  tailBlock : ℕ
  brk : ℕ

abbrev MmM := StateT MmHeap (Except Fault)

namespace MmHeap

/-- The metadata that is left when the bytes of `e` are written. -/
def clobber (blocks : ℕ → Option MemoryBlock) (e : Extent) : ℕ → Option MemoryBlock := fun a =>
  if 0 < e.size ∧ e.start < a + metadataSize ∧ a < e.stop then none else blocks a

/-! ## Accesses -/

/-- Reads the metadata of a block. -/
def readBlock (block : ℕ) : MmM MemoryBlock := do
  let s ← get
  if block = 0 then
    throw (.undefined "null pointer")
  match s.blocks block with
  | none => throw (.undefined "overwritten metadata")
  | some m => return m

/-- The heap after the metadata of a block is written. -/
def setBlock (s : MmHeap) (block : ℕ) (m : MemoryBlock) : MmHeap :=
  { s with blocks := Function.update (clobber s.blocks ⟨block, metadataSize⟩) block (some m) }

/-- Writes the metadata of a block. -/
def writeBlock (block : ℕ) (m : MemoryBlock) : MmM Unit := do
  let s ← get
  if s.brk < block + metadataSize then
    throw (.undefined "past the break")
  set (s.setBlock block m)

/-- Writes some of the metadata of a block. -/
def modifyBlock (block : ℕ) (f : MemoryBlock → MemoryBlock) : MmM Unit := do
  let m ← readBlock block
  writeBlock block (f m)

/-- The heap after the bytes of `e` are written; `value` is by address. -/
def overwrite (s : MmHeap) (e : Extent) (value : ℕ → UInt8) : MmHeap :=
  { s with
    blocks := clobber s.blocks e,
    memory := fun a => if e.start ≤ a ∧ a < e.stop then value a else s.memory a }

def memsetZero (dst size : ℕ) : MmM Unit :=
  modify fun s => s.overwrite ⟨dst, size⟩ fun _ => 0

/-- A byte of the metadata of a block; `old` is the padding. -/
def metadataByte (m : MemoryBlock) (old : UInt8) (i : ℕ) : UInt8 :=
  if i < 8 then .ofNat (m.size / 256 ^ i)
  else if i < 12 then if i = 8 ∧ m.free then 1 else 0
  else if i < 16 then old
  else if i < 24 then .ofNat (m.next / 256 ^ (i - 16))
  else .ofNat (m.prev / 256 ^ (i - 24))

/-- The byte at an address, which may be one of metadata. -/
def byteAt (s : MmHeap) (a : ℕ) : UInt8 :=
  match (range metadataSize).findSome? fun i => (s.blocks (a - i)).map (·, i) with
  | none => s.memory a
  | some (m, i) => metadataByte m (s.memory a) i

/-- The fault of `memcpy`. -/
abbrev overread : Fault := .undefined "memcpy past the break"

/-- Ranges that overlap are copied as by `memmove`. -/
def memcpy (dst src size : ℕ) : MmM Unit := do
  if (← get).brk < src + size then
    throw overread
  modify fun s => s.overwrite ⟨dst, size⟩ fun a => s.byteAt (src + (a - dst))

/-- `sbrk` with a positive increment: the old break. -/
def sbrk (granted : Bool) (increment : ℕ) : MmM (Option ℕ) := do
  let s ← get
  if granted = true ∧ increment < wordLimit / 2 ∧ s.brk + increment < wordLimit then
    set { s with brk := s.brk + increment }
    return some s.brk
  else
    return none

/-! ## The functions of the source -/

def memoryRequest (granted : Bool) (previous size : ℕ) : MmM ℕ := do
  let newBlock := (← get).brk
  match ← sbrk granted ((metadataSize + size) % wordLimit) with
  | none => return 0
  | some _ =>
    writeBlock newBlock ⟨size, false, 0, previous⟩
    if previous ≠ 0 then
      modifyBlock previous fun m => { m with next := newBlock }
    return newBlock

/-- `checkfor_free_block`, as far as it splits a block. -/
def splitBlock (block size : ℕ) : MmM Unit := do
  let m ← readBlock block
  let potentialSize := m.size - size
  if potentialSize > metadataSize then
    writeBlock block { m with size := size }
    let potentialBlock := block + metadataSize + size
    writeBlock potentialBlock ⟨potentialSize - metadataSize, true, m.next, block⟩
    modifyBlock m.next fun n => { n with prev := potentialBlock }

/-- `checkfor_free_block`, as far as it takes the block it found; `zero` is `which == 1`. -/
def takeBlock (zero : Bool) (size block : ℕ) : MmM ℕ := do
  splitBlock block size
  modifyBlock block fun m => { m with free := false }
  if zero then
    memsetZero (block + metadataSize) (← readBlock block).size
  return block

/-- `checkfor_free_block`, from a block on. -/
def searchFreeBlock (zero : Bool) (size : ℕ) : ℕ → ℕ → MmM ℕ
  | 0, _ => throw .outOfFuel
  | fuel + 1, block => do
      if block = 0 then
        return 0
      let m ← readBlock block
      if m.free ∧ size ≤ m.size then
        takeBlock zero size block
      else
        searchFreeBlock zero size fuel m.prev

/-- `checkfor_free_block`; a heap that ends at `brk` has fewer than `brk` blocks. -/
def checkforFreeBlock (zero : Bool) (size : ℕ) : MmM ℕ := do
  let s ← get
  searchFreeBlock zero size (s.brk + 1) s.tailBlock

/-- Whether a pointer is not null and its block free. -/
def isFree (block : ℕ) : MmM Bool := do
  if block = 0 then
    return false
  return (← readBlock block).free

def checkNeighbors (block : ℕ) : MmM ℤ := do
  let m ← readBlock block
  if m.next ≠ 0 ∧ m.prev ≠ 0 then
    if (← readBlock m.next).free ∧ (← readBlock m.prev).free then
      return 2
  if ← isFree m.next then
    return 1
  if ← isFree m.prev then
    return 0
  return -1

def mmMalloc (granted : Bool) (size : ℕ) : MmM ℕ := do
  if size = 0 then
    return 0
  let s ← get
  if s.headBlock = 0 then
    let metaBlock ← memoryRequest granted 0 size
    if metaBlock = 0 then
      return 0
    modify fun s => { s with headBlock := metaBlock, tailBlock := metaBlock }
    return metaBlock + metadataSize
  else
    let metaBlock ← checkforFreeBlock true size
    if metaBlock = 0 then
      let metaBlock ← memoryRequest granted s.tailBlock size
      if metaBlock = 0 then
        return 0
      modify fun s => { s with tailBlock := metaBlock }
      return metaBlock + metadataSize
    else
      return metaBlock + metadataSize

/-- `mm_free`, as far as it merges the block with both neighbours. -/
def mergeBoth (block : ℕ) : MmM Unit := do
  let m ← readBlock block
  let next ← readBlock m.next
  let prev ← readBlock m.prev
  modifyBlock block fun m =>
    { m with size := (m.size + (next.size + prev.size + 2 * metadataSize)) % wordLimit }
  let m ← readBlock block
  let next ← readBlock m.next
  if next.next ≠ 0 then
    modifyBlock next.next fun n => { n with prev := m.prev }
  let m ← readBlock block
  let prev ← readBlock m.prev
  if prev.next ≠ 0 then
    let next ← readBlock m.next
    modifyBlock m.prev fun p => { p with next := next.next }
  let m ← readBlock block
  modifyBlock m.prev fun p => { p with size := m.size }

/-- `mm_free`, as far as it merges the block with the next one. -/
def mergeNext (block : ℕ) : MmM Unit := do
  let m ← readBlock block
  let next ← readBlock m.next
  modifyBlock block fun m =>
    { m with size := (m.size + (next.size + metadataSize)) % wordLimit }
  let m ← readBlock block
  let next ← readBlock m.next
  if next.next ≠ 0 then
    modifyBlock next.next fun n => { n with prev := block }

/-- `mm_free`, as far as it merges the block with the previous one. -/
def mergePrev (block : ℕ) : MmM Unit := do
  let m ← readBlock block
  modifyBlock m.prev fun p =>
    { p with size := (p.size + (m.size + metadataSize)) % wordLimit }
  let m ← readBlock block
  modifyBlock m.prev fun p => { p with next := m.next }
  modifyBlock block fun m => { m with next := m.prev }

def mmFree (ptr : ℕ) : MmM Unit := do
  if ptr = 0 then
    return
  let block := ptr - metadataSize
  if (← readBlock block).free then
    throw (.panic "block->free == 0")
  modifyBlock block fun m => { m with free := true }
  let neighbors ← checkNeighbors block
  if neighbors = 2 then
    mergeBoth block
  else if neighbors = 1 then
    mergeNext block
  else if neighbors = 0 then
    mergePrev block

/-- `mm_realloc`, as far as it finds a block of the new size. -/
def reallocBlock (granted : Bool) (size : ℕ) : MmM ℕ := do
  let checkBlock ← checkforFreeBlock false size
  if checkBlock = 0 then
    let checkBlock ← memoryRequest granted (← get).tailBlock size
    if checkBlock = 0 then
      return 0
    modify fun s => { s with tailBlock := checkBlock }
    return checkBlock
  else
    memsetZero (checkBlock + metadataSize) (← readBlock checkBlock).size
    return checkBlock

def mmRealloc (granted : Bool) (ptr size : ℕ) : MmM ℕ := do
  if ptr = 0 then
    if size ≠ 0 then mmMalloc granted size else return 0
  else
    let block ← readBlock (ptr - metadataSize)
    if block.size ≥ size then
      memsetZero (ptr + size) (block.size - size)
      return ptr
    else
      let checkBlock ← reallocBlock granted size
      if checkBlock = 0 then
        return 0
      let dest := checkBlock + metadataSize
      memcpy dest ptr (← readBlock checkBlock).size
      return dest

/-! ## Accesses return -/

section Access

variable {s : MmHeap} {a b : ℕ} {m : MemoryBlock} {e : Extent} {v : ℕ → UInt8}
  {E : Fault → Prop} {Q : Unit → MmHeap → Prop}

theorem clobber_apart (h : e.Apart ⟨a, metadataSize⟩) : clobber s.blocks e a = s.blocks a := by
  unfold clobber
  rw [if_neg]
  unfold Extent.Apart at h
  simp only [Extent.stop] at h ⊢
  omega

@[simp] theorem setBlock_self : (s.setBlock a m).blocks a = some m := Function.update_self ..

theorem setBlock_apart (h : a + metadataSize ≤ b ∨ b + metadataSize ≤ a) :
    (s.setBlock a m).blocks b = s.blocks b := by
  have hne : b ≠ a := by
    rw [metadataSize] at h
    omega
  exact (Function.update_of_ne hne ..).trans (clobber_apart h)

theorem readBlock_spec {Q : MemoryBlock → MmHeap → Prop} (hnull : a ≠ 0) (h : s.blocks a = some m)
    (hQ : Q m s) : Spec E (readBlock a) s Q := by
  refine .get_bind (Spec.ite_neg hnull ?_)
  rw [h]
  exact .pure hQ

theorem writeBlock_spec (h : a + metadataSize ≤ s.brk) (hQ : Q () (s.setBlock a m)) :
    Spec E (writeBlock a m) s Q :=
  Spec.get_bind (Spec.ite (fun hlt => absurd h (not_le.mpr hlt)) fun _ => .set hQ)

theorem modifyBlock_spec {f : MemoryBlock → MemoryBlock} (hnull : a ≠ 0) (h : s.blocks a = some m)
    (hbrk : a + metadataSize ≤ s.brk) (hQ : Q () (s.setBlock a (f m))) :
    Spec E (modifyBlock a f) s Q :=
  Spec.bind (readBlock_spec hnull h (writeBlock_spec hbrk hQ))

/-- Whether a pointer is not null and its block free, read off the heap. -/
def freeAt (s : MmHeap) (a : ℕ) : Bool := a ≠ 0 && (s.blocks a).any (·.free)

theorem isFree_spec {Q : Bool → MmHeap → Prop} (h : a ≠ 0 → ∃ m, s.blocks a = some m)
    (hQ : Q (s.freeAt a) s) : Spec E (isFree a) s Q := by
  refine .ite (fun hnull => .pure ?_) fun hnull => ?_
  · rwa [hnull] at hQ
  · obtain ⟨m, hm⟩ := h hnull
    refine .bind (readBlock_spec hnull hm (Spec.pure ?_))
    simpa [freeAt, hnull, hm] using hQ

end Access

/-! ## The blocks tile the heap -/

/-- The metadata of a tile. -/
abbrev header (t : Tile) (next prev : ℕ) : MemoryBlock := ⟨t.size, t.free, next, prev⟩

/-- The tiles fill the heap, and their metadata is linked from null to null. -/
structure Laid (s : MmHeap) (base : ℕ) (ts : List Tile) : Prop where
  tiles : Tiles metadataSize base ts s.brk
  linked : Linked header s.blocks 0 ts 0
  low : 0 < base
  high : s.brk < wordLimit

/-- No two neighbours are both free. -/
def Isolated (ts : List Tile) : Prop := ts.IsChain fun t u => ¬ (t.free ∧ u.free)

/-- **The invariant of the heap.**  The list from `head_block` to `tail_block` tiles the heap. -/
structure Tiled (s : MmHeap) (base : ℕ) (ts : List Tile) : Prop extends Laid s base ts where
  head : s.headBlock = firstOr ts 0
  tail : s.tailBlock = lastOr 0 ts
  isolated : Isolated ts

section Laid

variable {s : MmHeap} {base size : ℕ} {t u : Tile} {ts xs ys : List Tile} {e : Extent}
  {m : MemoryBlock} {v : ℕ → UInt8} {E : Fault → Prop}

theorem Laid.start_ne_zero (h : s.Laid base ts) (ht : t ∈ ts) : t.start ≠ 0 := by
  have hbounds := h.tiles.bounds ht
  have hlow := h.low
  omega

theorem Laid.header_le_brk (h : s.Laid base ts) (ht : t ∈ ts) : t.start + metadataSize ≤ s.brk := by
  have hbounds := h.tiles.bounds ht
  omega

theorem Laid.block (h : s.Laid base (xs ++ t :: ys)) :
    s.blocks t.start = some (header t (firstOr ys 0) (lastOr 0 xs)) :=
  (linked_split.mp h.linked).2.1

theorem Laid.read {Q : MemoryBlock → MmHeap → Prop} (h : s.Laid base (xs ++ t :: ys))
    (hQ : Q (header t (firstOr ys 0) (lastOr 0 xs)) s) : Spec E (readBlock t.start) s Q :=
  readBlock_spec (h.start_ne_zero (mem_append_cons_self)) h.block hQ

theorem Laid.modify {Q : Unit → MmHeap → Prop} {f : MemoryBlock → MemoryBlock}
    (h : s.Laid base (xs ++ t :: ys))
    (hQ : Q () (s.setBlock t.start (f (header t (firstOr ys 0) (lastOr 0 xs))))) :
    Spec E (modifyBlock t.start f) s Q :=
  modifyBlock_spec (h.start_ne_zero mem_append_cons_self) h.block
    (h.header_le_brk mem_append_cons_self) hQ

theorem Laid.overwrite (h : s.Laid base ts) (ht : t ∈ ts) (hlow : t.start + metadataSize ≤ e.start)
    (hhigh : e.stop ≤ t.start + metadataSize + t.size) : (s.overwrite e v).Laid base ts := by
  refine ⟨h.tiles, h.linked.congr ?_, h.low, h.high⟩
  intro u hu
  apply clobber_apart
  unfold Extent.Apart
  simp only [Extent.stop] at hhigh ⊢
  by_cases hut : u = t
  · subst hut
    exact .inr hlow
  · have hapart := h.tiles.apart hu ht hut
    omega

theorem Laid.setFree (h : s.Laid base (xs ++ t :: ys)) (free : Bool) :
    (s.setBlock t.start (header { t with free := free } (firstOr ys 0) (lastOr 0 xs))).Laid base
      (xs ++ { t with free := free } :: ys) := by
  obtain ⟨hxs, -, hys⟩ := linked_split.mp h.linked
  refine ⟨?_, linked_split.mpr ⟨hxs.congr ?_, setBlock_self, hys.congr ?_⟩, h.low, h.high⟩
  · obtain ⟨mid, hlow, hhigh⟩ := tiles_append.mp h.tiles
    exact tiles_append.mpr ⟨mid, hlow, hhigh⟩
  · intro u hu
    have hbefore := h.tiles.before hu
    exact setBlock_apart (.inr (by omega))
  · intro u hu
    have hafter := h.tiles.after hu
    exact setBlock_apart (.inl (by omega))

theorem Tiled.setFree (h : s.Tiled base (xs ++ t :: ys)) (free : Bool)
    (hisolated : Isolated (xs ++ { t with free := free } :: ys)) :
    (s.setBlock t.start (header { t with free := free } (firstOr ys 0) (lastOr 0 xs))).Tiled base
      (xs ++ { t with free := free } :: ys) := by
  refine ⟨h.toLaid.setFree free, h.head.trans ?_, h.tail.trans ?_, hisolated⟩
  · rw [firstOr_append, firstOr_append]
    rfl
  · rw [lastOr_append, lastOr_append]
    rfl

theorem Tiled.overwrite (h : s.Tiled base ts) (ht : t ∈ ts)
    (hlow : t.start + metadataSize ≤ e.start) (hhigh : e.stop ≤ t.start + metadataSize + t.size) :
    (s.overwrite e v).Tiled base ts :=
  ⟨h.toLaid.overwrite ht hlow hhigh, h.head, h.tail, h.isolated⟩

theorem Isolated.clear (h : Isolated (xs ++ t :: ys)) :
    Isolated (xs ++ { t with free := false } :: ys) := by
  unfold Isolated at h ⊢
  rw [isChain_append, isChain_cons] at h ⊢
  obtain ⟨hxs, ⟨-, hys⟩, -⟩ := h
  refine ⟨hxs, ⟨fun u _ => by simp, hys⟩, fun u _ v hv => ?_⟩
  cases Option.some.inj hv
  simp

theorem Laid.first_eq_zero (h : s.Laid base ts) : firstOr ts 0 = 0 ↔ ts = [] := by
  cases ts with
  | nil => simp [firstOr]
  | cons t rest => simpa [firstOr] using h.start_ne_zero mem_cons_self

end Laid

/-! ## A new block at the end -/

section Extend

variable {s s' : MmHeap} {base size : ℕ} {t : Tile} {ts : List Tile}

def SameEnds (s s' : MmHeap) : Prop := s'.headBlock = s.headBlock ∧ s'.tailBlock = s.tailBlock

/-- The heap grows by a block. -/
def extended (s : MmHeap) (size previous : ℕ) : MmHeap :=
  { s with brk := s.brk + (metadataSize + size) }.setBlock s.brk ⟨size, false, 0, previous⟩

theorem Laid.extended_block (h : s.Laid base ts) (ht : t ∈ ts) (previous : ℕ) :
    (s.extended size previous).blocks t.start = s.blocks t.start :=
  setBlock_apart (.inr (h.header_le_brk ht))

theorem Laid.extended_tiles (h : s.Laid base ts) :
    Tiles metadataSize base (ts ++ [⟨s.brk, size, false⟩]) (s.brk + (metadataSize + size)) :=
  tiles_append.mpr ⟨s.brk, h.tiles, rfl, add_assoc ..⟩

/-- The heap can be extended by a block. -/
def Extends (s : MmHeap) (granted : Bool) (size : ℕ) : Prop :=
  granted = true ∧ metadataSize + size < wordLimit / 2 ∧ s.brk + (metadataSize + size) < wordLimit

/-- `memory_request` appends a block to the list, or leaves the heap as it is. -/
theorem Laid.memoryRequest (h : s.Laid base ts) (granted : Bool)
    (hsize : metadataSize + size < wordLimit) :
    Returns (memoryRequest granted (lastOr 0 ts) size) s fun p s' =>
      ¬ s.Extends granted size ∧ p = 0 ∧ s' = s ∨ s.Extends granted size ∧ p = s.brk ∧ s.brk ≠ 0 ∧
          s'.Laid base (ts ++ [⟨s.brk, size, false⟩]) ∧ s.SameEnds s' := by
  refine .get_bind ?_
  rw [Nat.mod_eq_of_lt hsize]
  refine .bind (Spec.get_bind (Spec.ite (fun hgrant => .set_bind (Spec.pure ?_))
    fun hgrant => .pure (Spec.pure (.inl ⟨hgrant, rfl, rfl⟩))))
  have hbrk : s.brk ≠ 0 := by
    have hle := h.tiles.le
    have hlow := h.low
    omega
  have hroom : s.brk + metadataSize ≤ s.brk + (metadataSize + size) := by omega
  refine .bind (writeBlock_spec hroom ?_)
  rcases eq_nil_or_concat' ts with rfl | ⟨xs, t, rfl⟩
  · exact .pure (.inr ⟨hgrant, rfl, hbrk, ⟨h.extended_tiles, ⟨setBlock_self, trivial⟩, h.low,
      hgrant.2.2⟩, rfl, rfl⟩)
  have ht : t ∈ xs ++ [t] := mem_append_cons_self
  rw [show lastOr 0 (xs ++ [t]) = t.start from lastOr_append 0 xs [t]]
  refine .ite_pos (h.start_ne_zero ht) (Spec.bind (modifyBlock_spec (h.start_ne_zero ht)
    ((h.extended_block ht _).trans h.block) ((h.header_le_brk ht).trans (Nat.le_add_right ..))
    (Spec.pure (.inr ⟨hgrant, rfl, hbrk, ⟨h.extended_tiles, ?_, h.low, hgrant.2.2⟩, rfl, rfl⟩))))
  obtain ⟨hxs, -⟩ := linked_append.mp h.linked
  rw [append_assoc]
  refine linked_split.mpr ⟨hxs.congr ?_, setBlock_self, ?_, trivial⟩
  · intro u hu
    have hbefore := h.tiles.before hu
    exact (setBlock_apart (.inr (by omega))).trans (h.extended_block (mem_append_left _ hu) t.start)
  · exact (setBlock_apart (.inl (h.header_le_brk ht))).trans setBlock_self

end Extend

/-! ## The search for a free block -/

section Search

variable {s : MmHeap} {base size fuel : ℕ} {t : Tile} {xs ys : List Tile}

/-- The block that the search finds: the last one that is free and big enough. -/
def fitting (s : MmHeap) (size : ℕ) : ℕ → ℕ → Option MemoryBlock
  | 0, _ => none
  | fuel + 1, block =>
    if block = 0 then none
    else
      (s.blocks block).bind fun m =>
        if m.free ∧ size ≤ m.size then some m else fitting s size fuel m.prev

theorem Tiled.takeBlock (h : s.Tiled base (xs ++ t :: ys)) (zero : Bool)
    (hunsplit : t.size ≤ size + metadataSize) :
    Returns (takeBlock zero size t.start) s fun p s' =>
      p = t.start ∧ s'.Tiled base (xs ++ { t with free := false } :: ys) := by
  have hused := h.setFree false h.isolated.clear
  have hnot : ¬ t.size - size > metadataSize := by omega
  refine .bind (Spec.bind (h.read (Spec.ite_neg hnot <|
    Spec.pure (Spec.bind (h.modify (Spec.ite (fun _ => .bind (hused.read (Spec.bind
      (Spec.modify (Spec.pure ⟨rfl, ?_⟩))))) fun _ => .pure ⟨rfl, hused⟩))))))
  exact hused.overwrite mem_append_cons_self (le_refl _) (le_refl _)

/-- The search takes the last block that is free and big enough, if there is one. -/
theorem Tiled.searchFreeBlock (h : s.Tiled base (xs ++ ys)) (zero : Bool) (hfuel : xs.length < fuel)
    (hunsplit : ∀ m ∈ s.fitting size fuel (lastOr 0 xs), m.size ≤ size + metadataSize) :
    Returns (searchFreeBlock zero size fuel (lastOr 0 xs)) s fun p s' =>
      s.fitting size fuel (lastOr 0 xs) = none ∧ p = 0 ∧ s' = s ∨
        s.fitting size fuel (lastOr 0 xs) ≠ none ∧ ∃ xs' t ys', xs ++ ys = xs' ++ t :: ys' ∧
          t.free = true ∧ size ≤ t.size ∧ p = t.start ∧
          s'.Tiled base (xs' ++ { t with free := false } :: ys') := by
  induction xs using reverseRecOn generalizing fuel ys with
  | nil =>
    obtain ⟨fuel, rfl⟩ := Nat.exists_eq_add_of_lt hfuel
    exact .inl ⟨rfl, rfl, rfl⟩
  | append_singleton xs t ih =>
    obtain ⟨fuel, rfl⟩ := Nat.exists_eq_add_of_lt hfuel
    have hlast : lastOr 0 (xs ++ [t]) = t.start := lastOr_append 0 xs [t]
    rw [append_assoc] at h ⊢
    have hne := h.start_ne_zero (t := t) mem_append_cons_self
    rw [hlast] at hunsplit ⊢
    rw [fitting, if_neg hne, h.block, Option.bind_some] at hunsplit ⊢
    refine .ite_neg hne <| Spec.bind (h.read ?_)
    by_cases hfits : t.free = true ∧ size ≤ t.size
    · simp only [if_pos hfits] at hunsplit ⊢
      exact (h.takeBlock zero (hunsplit _ rfl)).post fun p s' ⟨hp, htiled⟩ =>
        .inr ⟨nofun, xs, t, _, rfl, hfits.1, hfits.2, hp, htiled⟩
    · simp only [if_neg hfits] at hunsplit ⊢
      refine ih h ?_ hunsplit
      rw [length_append] at hfuel ⊢
      simp only [length_singleton] at hfuel ⊢
      omega

end Search

/-! ## Allocation -/

section Allocate

variable {s s' : MmHeap} {base size : ℕ} {t : Tile} {ts ts' xs ys : List Tile}

/-- The tile `t` was not in use before, and the tiles in use still are. -/
structure Obtained (ts ts' : List Tile) (t : Tile) (size : ℕ) : Prop where
  mem : t ∈ ts'
  used : t.free = false
  room : size ≤ t.size
  keeps : ∀ u ∈ ts, u.free = false → u ∈ ts' ∧ u.start ≠ t.start

/-- The request does not wrap around, and it is not served by a block that is split. -/
def Unsplit (s : MmHeap) (size : ℕ) : Prop :=
  metadataSize + size < wordLimit ∧
    ∀ m ∈ s.fitting size (s.brk + 1) s.tailBlock, m.size ≤ size + metadataSize

instance (s : MmHeap) (size : ℕ) : Decidable (s.Unsplit size) := inferInstanceAs (Decidable (_ ∧ _))

theorem Tiled.obtained_free (h : s.Tiled base (xs ++ t :: ys)) (hfree : t.free = true)
    (hsize : size ≤ t.size) :
    Obtained (xs ++ t :: ys) (xs ++ { t with free := false } :: ys) { t with free := false }
      size := by
  refine ⟨mem_append_cons_self, rfl, hsize, fun u hu hused => ?_⟩
  have hne : u ≠ t := by
    rintro rfl
    exact Bool.noConfusion (hused.symm.trans hfree)
  refine ⟨?_, fun hstart => hne ?_⟩
  rotate_left
  · exact h.tiles.eq_of_start (by decide) hu mem_append_cons_self hstart
  simp only [mem_append, mem_cons, hne, false_or] at hu ⊢
  exact hu.imp_right Or.inr

theorem Laid.obtained_new (h : s.Laid base ts) :
    Obtained ts (ts ++ [⟨s.brk, size, false⟩]) ⟨s.brk, size, false⟩ size := by
  refine ⟨mem_append_cons_self, rfl, le_refl _, fun u hu _ => ?_⟩
  have hbounds := h.header_le_brk hu
  rw [metadataSize] at hbounds
  exact ⟨mem_append_left _ hu, by simp only [ne_eq]; omega⟩

theorem Tiled.appended (h : s.Tiled base ts) (h' : s'.Laid base (ts ++ [t]))
    (hused : t.free = false) :
    { s' with headBlock := firstOr ts t.start, tailBlock := t.start }.Tiled base (ts ++ [t]) := by
  refine ⟨⟨h'.tiles, h'.linked, h'.low, h'.high⟩, (firstOr_append ts [t] 0).symm,
    (lastOr_append 0 ts [t]).symm, ?_⟩
  refine isChain_append.mpr ⟨h.isolated, .singleton t, fun u _ v hv => ?_⟩
  cases Option.some.inj hv
  simp [hused]

theorem Tiled.checkforFreeBlock (h : s.Tiled base ts) (zero : Bool) (hunsplit : s.Unsplit size) :
    Returns (checkforFreeBlock zero size) s fun p s' =>
      s.fitting size (s.brk + 1) s.tailBlock = none ∧ p = 0 ∧ s' = s ∨
        s.fitting size (s.brk + 1) s.tailBlock ≠ none ∧ ∃ ts' t, p = t.start ∧ s'.Tiled base ts' ∧
          Obtained ts ts' t size := by
  have hlength := h.tiles.length_le
  have hall : s.Tiled base (ts ++ []) := by rwa [append_nil]
  have hfuel : ts.length < s.brk + 1 := by
    rw [metadataSize] at hlength
    omega
  have hsearch := hall.searchFreeBlock zero hfuel (h.tail ▸ hunsplit.2)
  rw [← h.tail] at hsearch
  refine .get_bind (hsearch.post fun p s' hp => hp.imp_right fun hsome => ?_)
  obtain ⟨hsome, xs, t, ys, hts, hfree, hroom, hstart, htiled⟩ := hsome
  rw [append_nil] at hts
  subst hts
  exact ⟨hsome, _, { t with free := false }, hstart, htiled, h.obtained_free hfree hroom⟩

/-- `memory_request` after the first block; the caller makes the new block the last one. -/
theorem Tiled.request (h : s.Tiled base ts) (granted : Bool)
    (hsize : metadataSize + size < wordLimit) (hne : ts ≠ []) :
    Returns (memoryRequest granted s.tailBlock size) s fun p s' =>
      ¬ s.Extends granted size ∧ p = 0 ∧ s' = s ∨ s.Extends granted size ∧ p = s.brk ∧ s.brk ≠ 0 ∧
          Tiled { s' with tailBlock := s.brk } base (ts ++ [⟨s.brk, size, false⟩]) := by
  rw [h.tail]
  refine (h.memoryRequest granted hsize).post fun p s' hp => hp.imp_right ?_
  rintro ⟨hextends, hp, hbrk, hlaid, hends⟩
  have hhead : s'.headBlock = firstOr ts s.brk := by
    rw [hends.1, h.head]
    cases ts with
    | nil => exact absurd rfl hne
    | cons t rest => rfl
  have happended := h.appended hlaid rfl
  rw [← hhead] at happended
  exact ⟨hextends, hp, hbrk, happended⟩

/-- **`mm_malloc` returns null or a block that was not in use.** -/
theorem Tiled.mmMalloc (h : s.Tiled base ts) (granted : Bool)
    (hunsplit : size ≠ 0 → s.Unsplit size) :
    Returns (mmMalloc granted size) s fun p s' =>
      (p = 0 ∧ s' = s) ∨ ∃ ts' t, s'.Tiled base ts' ∧ Obtained ts ts' t size ∧
        p = t.start + metadataSize := by
  refine .ite (fun _ => .pure (.inl ⟨rfl, rfl⟩)) fun hzero => ?_
  have hfit := hunsplit hzero
  refine .get_bind (Spec.ite (fun hfirst => ?_) fun hfirst => ?_)
  · obtain rfl := h.first_eq_zero.mp (h.head.symm.trans hfirst)
    refine .seq (h.memoryRequest granted hfit.1) fun p s' hp => ?_
    rcases hp with ⟨-, rfl, rfl⟩ | ⟨-, rfl, hbrk, hlaid, -⟩
    · exact .pure (.inl ⟨rfl, rfl⟩)
    · exact .ite_neg hbrk <| Spec.bind (Spec.modify
        (Spec.pure (.inr ⟨_, _, h.appended hlaid rfl, h.obtained_new, rfl⟩)))
  have hne : ts ≠ [] := fun hnil => hfirst (h.head.trans (h.first_eq_zero.mpr hnil))
  refine .seq (h.checkforFreeBlock true hfit) fun p s' hp => ?_
  rcases hp with ⟨-, rfl, rfl⟩ | ⟨-, ts', t, rfl, htiled, hobtained⟩
  · refine .seq (h.request granted hfit.1 hne) fun p s'' hp => ?_
    rcases hp with ⟨-, rfl, rfl⟩ | ⟨-, rfl, hbrk, htiled⟩
    · exact .pure (.inl ⟨rfl, rfl⟩)
    · exact .ite_neg hbrk <| Spec.bind (Spec.modify
        (Spec.pure (.inr ⟨_, _, htiled, h.obtained_new, rfl⟩)))
  · exact .ite_neg (htiled.start_ne_zero hobtained.mem) <|
      Spec.pure (.inr ⟨ts', t, htiled, hobtained, rfl⟩)

/-- There is no block for a request, and no room for a new one. -/
def Full (s : MmHeap) (granted : Bool) (size : ℕ) : Prop :=
  s.fitting size (s.brk + 1) s.tailBlock = none ∧ ¬ s.Extends granted size

theorem Tiled.reallocBlock (h : s.Tiled base ts) (granted : Bool) (hne : ts ≠ [])
    (hunsplit : s.Unsplit size) :
    Returns (reallocBlock granted size) s fun p s' => s.Full granted size ∧ p = 0 ∧ s' = s ∨
      ¬ s.Full granted size ∧ ∃ ts' t, p = t.start ∧ s'.Tiled base ts' ∧
        Obtained ts ts' t size := by
  refine .seq (h.checkforFreeBlock false hunsplit) fun p s' hp => ?_
  rcases hp with ⟨hnone, rfl, rfl⟩ | ⟨hsome, ts', t, rfl, htiled, hobtained⟩
  · refine .get_bind (Spec.bind ((h.request granted hunsplit.1 hne).post fun p s'' hp => ?_))
    rcases hp with ⟨hrefuse, rfl, rfl⟩ | ⟨hextends, rfl, hbrk, htiled⟩
    · exact .pure (.inl ⟨⟨hnone, hrefuse⟩, rfl, rfl⟩)
    · exact .ite_neg hbrk <| Spec.modify_bind (Spec.pure
        (.inr ⟨fun hfull => hfull.2 hextends, _, _, rfl, htiled, h.obtained_new⟩))
  · obtain ⟨xs, ys, rfl⟩ := append_of_mem hobtained.mem
    exact .ite_neg (htiled.start_ne_zero hobtained.mem) <|
      Spec.bind (htiled.read (Spec.modify_bind (Spec.pure (.inr ⟨fun hfull => hsome hfull.1,
        _, t, rfl, htiled.overwrite hobtained.mem (le_refl _) (le_refl _), hobtained⟩))))

/-- **`mm_realloc` returns null, the same block or one that was not in use**, or it reads past the
break when it copies a block. -/
theorem Tiled.mmRealloc (h : s.Tiled base ts) (granted : Bool) (ht : t ∈ ts)
    (hunsplit : t.size < size → s.Unsplit size) :
    Spec (fun f => f = overread ∧ t.size < size ∧ ¬ s.Full granted size)
      (mmRealloc granted (t.start + metadataSize) size) s fun p s' =>
      (p = 0 ∧ s' = s ∧ t.size < size ∧ s.Full granted size) ∨
        (p = t.start + metadataSize ∧ size ≤ t.size ∧ s'.Tiled base ts) ∨
        ∃ ts' u, t.size < size ∧ ¬ s.Full granted size ∧ s'.Tiled base ts' ∧
          Obtained ts ts' u size ∧ p = u.start + metadataSize := by
  have hne : ts ≠ [] := ne_nil_of_mem ht
  obtain ⟨xs, ys, rfl⟩ := append_of_mem ht
  refine .ite_neg (by simp) ?_
  refine .bind (h.read (Spec.ite (fun hsize => ?_) fun hsize => ?_))
  · refine .modify_bind (Spec.pure (.inr (.inl ⟨rfl, hsize, h.overwrite ht ?_ ?_⟩)))
    · exact Nat.le_add_right ..
    · simp only [Extent.stop] at hsize ⊢
      omega
  have hlt := Nat.lt_of_not_le hsize
  refine .seq (.of_returns (h.reallocBlock granted hne (hunsplit hlt))) fun p s' hp => ?_
  rcases hp with ⟨hfull, rfl, rfl⟩ | ⟨hnot, ts', u, rfl, htiled, hobtained⟩
  · exact .pure (.inl ⟨rfl, rfl, hlt, hfull⟩)
  · obtain ⟨xs', ys', rfl⟩ := append_of_mem hobtained.mem
    refine .ite_neg (htiled.start_ne_zero hobtained.mem) <| Spec.bind (htiled.read ?_)
    refine .bind (.get_bind (Spec.ite (fun _ => .throw ⟨rfl, hlt, hnot⟩) fun _ => .modify ?_))
    exact .pure (.inr (.inr ⟨_, u, hlt, hnot,
      htiled.overwrite hobtained.mem (le_refl _) (le_refl _), hobtained, rfl⟩))

end Allocate

/-! ## Deallocation -/

section Free

variable {s : MmHeap} {base block size : ℕ} {m : MemoryBlock} {a b c d t : Tile}
  {ts xs ys : List Tile} {Q : ℤ → MmHeap → Prop}

theorem checkNeighbors_spec (hnull : block ≠ 0) (h : s.blocks block = some m)
    (hnext : m.next ≠ 0 → ∃ n, s.blocks m.next = some n)
    (hprev : m.prev ≠ 0 → ∃ p, s.blocks m.prev = some p)
    (hQ : Q (if s.freeAt m.next ∧ s.freeAt m.prev then 2 else if s.freeAt m.next then 1
        else if s.freeAt m.prev then 0 else -1) s) : Returns (checkNeighbors block) s Q := by
  refine .bind (readBlock_spec hnull h ?_)
  have hrest (hnot : ¬ (s.freeAt m.next = true ∧ s.freeAt m.prev = true)) : Returns (do
      if ← isFree m.next then
        return (1 : ℤ)
      if ← isFree m.prev then
        return 0
      return -1 : MmM ℤ) s Q := by
    rw [if_neg hnot] at hQ
    refine .bind (isFree_spec hnext (Spec.ite (fun hfree => ?_) fun hused =>
      Spec.bind (isFree_spec hprev (Spec.ite (fun hfree => ?_) fun hused' => ?_))))
    · rwa [if_pos hfree] at hQ
    · rwa [if_neg hused, if_pos hfree] at hQ
    · rwa [if_neg hused, if_neg hused'] at hQ
  refine .ite (fun hboth => ?_) fun hboth => hrest fun hfree => ?_
  · obtain ⟨n, hn⟩ := hnext hboth.1
    obtain ⟨p, hp⟩ := hprev hboth.2
    have hfreeNext : s.freeAt m.next = n.free := by simp [freeAt, hboth.1, hn]
    have hfreePrev : s.freeAt m.prev = p.free := by simp [freeAt, hboth.2, hp]
    refine .bind (readBlock_spec hboth.1 hn (Spec.bind (readBlock_spec hboth.2 hp ?_)))
    rw [← hfreeNext, ← hfreePrev]
    refine .ite (fun hfree => .pure ?_) hrest
    rwa [if_pos hfree] at hQ
  · simp only [freeAt, Bool.and_eq_true, decide_eq_true_eq] at hfree
    exact hboth ⟨hfree.1.1, hfree.2.1⟩

theorem Laid.freeAt_first (h : s.Laid base (xs ++ ys)) :
    s.freeAt (firstOr ys 0) = ys.head?.any (·.free) := by
  cases ys with
  | nil => rfl
  | cons t rest =>
    have hne := h.start_ne_zero (t := t) mem_append_cons_self
    simp [freeAt, firstOr, hne, h.block]

theorem Laid.freeAt_last (h : s.Laid base (xs ++ ys)) :
    s.freeAt (lastOr 0 xs) = xs.getLast?.any (·.free) := by
  rcases eq_nil_or_concat' xs with rfl | ⟨init, t, rfl⟩
  · rfl
  · rw [append_assoc] at h
    have hne := h.start_ne_zero (t := t) mem_append_cons_self
    rw [lastOr_append]
    simp [freeAt, lastOr, hne, h.block]

theorem Laid.checkNeighbors (h : s.Laid base (xs ++ t :: ys))
    (hQ : Q (if ys.head?.any (·.free) ∧ xs.getLast?.any (·.free) then 2
      else if ys.head?.any (·.free) then 1
      else if xs.getLast?.any (·.free) then 0 else -1) s) :
    Returns (checkNeighbors t.start) s Q := by
  have hsplit : s.Laid base ((xs ++ [t]) ++ ys) := by rwa [append_assoc]
  rw [← hsplit.freeAt_first, ← h.freeAt_last] at hQ
  refine checkNeighbors_spec (h.start_ne_zero mem_append_cons_self) h.block ?_ ?_ hQ
  · intro hne
    cases ys with
    | nil => exact absurd rfl hne
    | cons u rest => exact ⟨_, hsplit.block⟩
  · intro hne
    rcases eq_nil_or_concat' xs with rfl | ⟨init, u, rfl⟩
    · exact absurd rfl hne
    · rw [append_assoc] at h
      exact ⟨_, (congrArg s.blocks (lastOr_append 0 init [u])).trans h.block⟩

/-- A block is merged with both neighbours, if it is not the last but one. -/
theorem Laid.mergeBoth (h : s.Laid base (xs ++ a :: b :: c :: d :: ys)) :
    Returns (mergeBoth b.start) s fun _ s' => s.SameEnds s' ∧
      s'.Laid base (xs ++ { a with size := b.size + (c.size + a.size + 2 * metadataSize) } ::
        d :: ys) := by
  obtain ⟨mid, hlow, ha, hb, hc, hd, hhigh⟩ := tiles_append.mp h.tiles
  obtain ⟨hxs, hla, hlb, hlc, hld, hys⟩ := linked_split.mp h.linked
  have hbase : a.start ≠ 0 := h.start_ne_zero mem_append_cons_self
  have hend : d.start + metadataSize ≤ s.brk := h.header_le_brk (by simp)
  have hbrk := h.high
  have hsum : (b.size + (c.size + a.size + 2 * metadataSize)) % wordLimit =
      b.size + (c.size + a.size + 2 * metadataSize) := Nat.mod_eq_of_lt (by omega)
  generalize htotal : b.size + (c.size + a.size + 2 * metadataSize) = total at hsum ⊢
  have hb0 : b.start ≠ 0 := by omega
  have hc0 : c.start ≠ 0 := by omega
  have hd0 : d.start ≠ 0 := by omega
  have haend : a.start + metadataSize ≤ s.brk := by omega
  -- the states after the four writes; the last two are to the same block
  let s₁ := s.setBlock b.start (header { b with size := total } c.start a.start)
  let s₂ := s₁.setBlock d.start (header d (firstOr ys 0) a.start)
  let s₃ := s₂.setBlock a.start (header a d.start (lastOr 0 xs))
  let s₄ := s₃.setBlock a.start (header { a with size := total } d.start (lastOr 0 xs))
  have hb₁ : s₁.blocks b.start = some (header { b with size := total } c.start a.start) :=
    setBlock_self
  have hc₁ : s₁.blocks c.start = some (header c d.start b.start) :=
    (setBlock_apart (by omega)).trans hlc
  have ha₁ : s₁.blocks a.start = some (header a b.start (lastOr 0 xs)) :=
    (setBlock_apart (by omega)).trans hla
  have hd₁ : s₁.blocks d.start = some (header d (firstOr ys 0) c.start) :=
    (setBlock_apart (by omega)).trans hld
  have hb₂ : s₂.blocks b.start = some (header { b with size := total } c.start a.start) :=
    (setBlock_apart (by omega)).trans hb₁
  have hc₂ : s₂.blocks c.start = some (header c d.start b.start) :=
    (setBlock_apart (by omega)).trans hc₁
  have ha₂ : s₂.blocks a.start = some (header a b.start (lastOr 0 xs)) :=
    (setBlock_apart (by omega)).trans ha₁
  have hb₃ : s₃.blocks b.start = some (header { b with size := total } c.start a.start) :=
    (setBlock_apart (by omega)).trans hb₂
  refine .bind (readBlock_spec hb0 hlb (Spec.bind (readBlock_spec hc0 hlc (Spec.bind
    (readBlock_spec hbase hla (Spec.bind (modifyBlock_spec hb0 hlb (by omega) ?_)))))))
  rw [htotal, hsum]
  refine .bind (readBlock_spec hb0 hb₁ (Spec.bind (readBlock_spec hc0 hc₁
    (Spec.ite_pos hd0 (Spec.bind (modifyBlock_spec hd0 hd₁ hend ?_))))))
  refine .bind (readBlock_spec hb0 hb₂ (Spec.bind (readBlock_spec hbase ha₂
    (Spec.ite_pos hb0 (Spec.bind (readBlock_spec hc0 hc₂ (Spec.bind
      (modifyBlock_spec hbase ha₂ haend ?_))))))))
  refine .bind (readBlock_spec hb0 hb₃ (modifyBlock_spec hbase setBlock_self haend
    ⟨⟨rfl, rfl⟩, ?_, ?_, h.low, h.high⟩))
  · refine tiles_append.mpr ⟨mid, hlow, ha, ?_, ?_⟩
    · simp only
      omega
    · have hnext : mid + metadataSize + total + metadataSize + d.size =
          mid + metadataSize + a.size + metadataSize + b.size + metadataSize + c.size +
            metadataSize + d.size := by omega
      exact hnext ▸ hhigh
  show Linked header s₄.blocks 0 _ 0
  refine linked_split.mpr ⟨hxs.congr ?_, setBlock_self, ?_, hys.congr ?_⟩
  · intro u hu
    have hbefore := h.tiles.before hu
    rw [setBlock_apart (by omega), setBlock_apart (by omega), setBlock_apart (by omega),
      setBlock_apart (by omega)]
  · rw [setBlock_apart (by omega), setBlock_apart (by omega)]
    exact setBlock_self
  · intro u hu
    have hall : s.Laid base ((xs ++ [a, b, c]) ++ d :: ys) := by rwa [append_assoc]
    have hafter := hall.tiles.after hu
    rw [setBlock_apart (by omega), setBlock_apart (by omega), setBlock_apart (by omega),
      setBlock_apart (by omega)]

/-- A freed block whose neighbours are both in use can be marked as free. -/
theorem Isolated.set (h : Isolated (xs ++ t :: ys)) (hnext : ys.head?.any (·.free) = false)
    (hprev : xs.getLast?.any (·.free) = false) :
    Isolated (xs ++ { t with free := true } :: ys) := by
  unfold Isolated at h ⊢
  rw [isChain_append, isChain_cons] at h ⊢
  obtain ⟨hxs, ⟨-, hys⟩, -⟩ := h
  refine ⟨hxs, ⟨fun u hu => ?_, hys⟩, fun u hu v hv => ?_⟩
  · rw [Option.mem_def.mp hu] at hnext
    simp_all
  · rw [Option.mem_def.mp hu] at hprev
    cases Option.some.inj hv
    simp_all

/-- The tile that takes the place of three is free as its first part was. -/
theorem Isolated.merge (h : Isolated (xs ++ a :: b :: c :: d :: ys)) (hc : c.free = true) :
    Isolated (xs ++ { a with size := size } :: d :: ys) := by
  unfold Isolated at h ⊢
  rw [isChain_append] at h ⊢
  obtain ⟨hxs, hrest, hseam⟩ := h
  simp only [isChain_cons_cons] at hrest ⊢
  refine ⟨hxs, ⟨?_, hrest.2.2.2⟩, fun u hu v hv => ?_⟩
  · simp_all
  · cases Option.some.inj hv
    exact hseam u hu a rfl

/-- Before `mm_free`: the two neighbours are both free or both in use, and a free next neighbour
is not the last block. -/
def Mergeable (s : MmHeap) (block : ℕ) : Prop :=
  ∀ m ∈ s.blocks block, s.freeAt m.next = s.freeAt m.prev ∧
    (s.freeAt m.next = true → ∀ n ∈ s.blocks m.next, n.next ≠ 0)

instance (s : MmHeap) (block : ℕ) : Decidable (s.Mergeable block) :=
  inferInstanceAs (Decidable (∀ m ∈ s.blocks block, _))

/-- **`mm_free` frees a block**, and leaves the blocks in use alone. -/
theorem Tiled.mmFree (h : s.Tiled base ts) (ht : t ∈ ts) (hused : t.free = false)
    (hmergeable : s.Mergeable t.start) :
    Returns (mmFree (t.start + metadataSize)) s fun _ s' => ∃ ts', s'.Tiled base ts' ∧
      ∀ u ∈ ts, u.free = false → u ≠ t → u ∈ ts' := by
  obtain ⟨xs, ys, rfl⟩ := append_of_mem ht
  have hmarked := h.toLaid.setFree true
  obtain ⟨hequal, hlast⟩ := hmergeable _ h.block
  have hsplit : s.Laid base ((xs ++ [t]) ++ ys) := by
    rw [append_assoc]
    exact h.toLaid
  simp only [hsplit.freeAt_first, h.toLaid.freeAt_last] at hequal hlast
  refine .ite_neg (by simp) ?_
  refine .bind (h.read (Spec.ite (fun hfree => nomatch hused.symm.trans hfree) fun _ =>
    Spec.bind (h.modify (Spec.bind (hmarked.checkNeighbors ?_)))))
  rw [← hequal]
  cases hnext : ys.head?.any (·.free) with
  | false =>
    refine .pure ⟨_, h.setFree true (h.isolated.set hnext (hequal ▸ hnext)), ?_⟩
    intro u hu _ hne
    simp only [mem_append, mem_cons, hne, false_or] at hu ⊢
    exact hu.imp_right Or.inr
  | true =>
    -- there are a free block before, a free block behind, and another block behind that one
    obtain ⟨c, rest, rfl, hc⟩ : ∃ c rest, ys = c :: rest ∧ c.free = true := by
      cases ys with
      | nil => cases hnext
      | cons c rest => exact ⟨c, rest, rfl, hnext⟩
    obtain ⟨init, a, rfl, ha⟩ : ∃ init a, xs = init ++ [a] ∧ a.free = true := by
      rcases eq_nil_or_concat' xs with rfl | ⟨init, a, rfl⟩
      · rw [hnext] at hequal
        cases hequal
      · rw [hnext, getLast?_concat] at hequal
        exact ⟨init, a, rfl, hequal.symm⟩
    have hbehind := hlast hnext _ hsplit.block
    obtain ⟨d, rest, rfl⟩ : ∃ d rest', rest = d :: rest' := by
      cases rest with
      | nil => exact absurd rfl hbehind
      | cons d rest => exact ⟨d, rest, rfl⟩
    rw [append_assoc, singleton_append] at h hmarked
    refine hmarked.mergeBoth.post fun _ s' ⟨hends, hlaid⟩ =>
      ⟨_, ⟨hlaid, ?_, ?_, h.isolated.merge hc⟩, ?_⟩
    · rw [hends.1]
      refine h.head.trans ?_
      rw [firstOr_append, firstOr_append]
      rfl
    · rw [hends.2]
      refine h.tail.trans ?_
      rw [lastOr_append, lastOr_append]
      rfl
    intro u hu hinuse hne
    have hua : u ≠ a := by
      rintro rfl
      exact Bool.noConfusion (ha.symm.trans hinuse)
    have huc : u ≠ c := by
      rintro rfl
      exact Bool.noConfusion (hc.symm.trans hinuse)
    simp only [mem_append, mem_cons, not_mem_nil, or_false, hne, hua, huc, false_or] at hu ⊢
    exact hu.imp_right Or.inr

end Free

end MmHeap

end CS162
