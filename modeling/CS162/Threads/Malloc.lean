import CS162.Library.Slabs
import CS162.Threads.Palloc

/-!
# The block allocator (`threads/malloc.c`)

A request is rounded up to the block size of a descriptor.  A descriptor cuts pages, its
arenas, into blocks and keeps the free ones on a list; a page without live blocks goes back to
the page allocator.  Bigger requests get pages of their own.

The headers of the arenas and the free lists are kept as values; the bytes where they are stand
for nothing.  The page allocator is told by the caller which pages to hand out: pages that are
not aligned or not free are refused, so that the allocation fails.

`MallocSystem` also remembers what callers hold and how much they asked for.

## Strategy

`Layout` is about the pages and their headers, `Slabs` about the list of each descriptor, and
`Sound` puts them together.  An arena that has just been made, or just lost its last live
block, has only free blocks until the end of the call; `full` names it.
-/

namespace CS162

open Library Function List

/-- `struct desc`. -/
structure Desc where
  blockSize : ℕ
  blocksPerArena : ℕ
  freeList : List ℕ

def arenaMagic : UInt32 := 0x9a548eed

/-- `struct arena`; a descriptor is known by its index. -/
structure Arena where
  magic : UInt32
  desc : Option ℕ
  freeCnt : ℕ

/-- `sizeof (struct arena)`. -/
abbrev arenaSize : ℕ := 12

/-- The allocator's data. -/
structure Malloc where
  descs : ℕ → Desc
  descCnt : ℕ
  /-- The header at the start of each page. -/
  arenas : ℕ → Arena
  /-- The pages that the page allocator has handed out. -/
  owned : List Extent
  memory : ℕ → UInt8

abbrev MallocM := StateT Malloc (Except Fault)

namespace Malloc

@[simp] def setFreeList (s : Malloc) (d : ℕ) (freeList : List ℕ) : Malloc :=
  { s with descs := update s.descs d { s.descs d with freeList := freeList } }

@[simp] def setArena (s : Malloc) (a : ℕ) (arena : Arena) : Malloc :=
  { s with arenas := update s.arenas a arena }

@[simp] def setFreeCnt (s : Malloc) (a : ℕ) (freeCnt : ℕ) : Malloc :=
  s.setArena a { s.arenas a with freeCnt := freeCnt }

def setMemory (s : Malloc) (memory : ℕ → UInt8) : Malloc := { s with memory := memory }

def initLoop : ℕ → ℕ → Malloc → Except Fault Malloc
  | 0, _, _ => throw .outOfFuel
  | fuel + 1, blockSize, s => do
      if blockSize < pgSize / 2 then
        if ¬ s.descCnt + 1 ≤ 10 then
          throw (.panic "desc_cnt <= sizeof descs / sizeof *descs")
        let d := ⟨blockSize, (pgSize - arenaSize) / blockSize, []⟩
        initLoop fuel (blockSize * 2 % sizeLimit)
          { s with descs := update s.descs s.descCnt d, descCnt := s.descCnt + 1 }
      else
        return s

/-- `malloc_init`; the static `descs` and `desc_cnt` are zero. -/
def mallocInit (arenas : ℕ → Arena) (memory : ℕ → UInt8) : Except Fault Malloc :=
  initLoop 11 16 ⟨fun _ => ⟨0, 0, []⟩, 0, arenas, [], memory⟩

/-! ## The page allocator -/

/-- The page allocator can hand out these pages. -/
def Fresh (s : Malloc) (pages pageCnt : ℕ) : Prop :=
  pages % pgSize = 0 ∧ 0 < pages ∧ pages + pgSize * pageCnt ≤ sizeLimit ∧
    ∀ run ∈ s.owned, Extent.Apart ⟨pages, pgSize * pageCnt⟩ run

instance (s : Malloc) (pages pageCnt : ℕ) : Decidable (s.Fresh pages pageCnt) :=
  inferInstanceAs (Decidable (_ ∧ _ ∧ _ ∧ _))

def pallocGetMultiple (supply pageCnt : ℕ) : MallocM ℕ := do
  let s ← get
  if 0 < pageCnt ∧ s.Fresh supply pageCnt then
    set { s with owned := ⟨supply, pgSize * pageCnt⟩ :: s.owned }
    return supply
  else
    return 0

def pallocFreeMultiple (pages pageCnt : ℕ) : MallocM Unit := do
  let s ← get
  if pages = 0 ∨ pageCnt = 0 then
    return
  if ⟨pages, pgSize * pageCnt⟩ ∉ s.owned then
    throw (.panic "bitmap_all (pool->used_map, page_idx, page_cnt)")
  set { s with owned := s.owned.erase ⟨pages, pgSize * pageCnt⟩,
               memory := memset s.memory pages 0xcc (pgSize * pageCnt) }

/-! ## Blocks and arenas -/

def blockToArena (b : ℕ) : MallocM ℕ := do
  let s ← get
  let a := pgRoundDown b
  if a = 0 then
    throw (.panic "a != NULL")
  if (s.arenas a).magic ≠ arenaMagic then
    throw (.panic "a->magic == ARENA_MAGIC")
  match (s.arenas a).desc with
  | some d =>
    if (pgOfs b + sizeLimit - arenaSize) % sizeLimit % (s.descs d).blockSize ≠ 0 then
      throw (.panic "(pg_ofs (b) - sizeof *a) % a->desc->block_size == 0")
    return a
  | none =>
    if pgOfs b ≠ arenaSize then
      throw (.panic "a->desc != NULL || pg_ofs (b) == sizeof *a")
    return a

def arenaToBlock (a idx : ℕ) : MallocM ℕ := do
  let s ← get
  if a = 0 then
    throw (.panic "a != NULL")
  if (s.arenas a).magic ≠ arenaMagic then
    throw (.panic "a->magic == ARENA_MAGIC")
  match (s.arenas a).desc with
  | none => throw (.undefined "a->desc->blocks_per_arena")
  | some d =>
    if ¬ idx < (s.descs d).blocksPerArena then
      throw (.panic "idx < a->desc->blocks_per_arena")
    return a + arenaSize + idx * (s.descs d).blockSize

/-- The number of bytes from the start of a block to its end. -/
def room (s : Malloc) (block : ℕ) : ℕ :=
  match (s.arenas (pgRoundDown block)).desc with
  | some d => (s.descs d).blockSize
  | none =>
    (pgSize * (s.arenas (pgRoundDown block)).freeCnt + sizeLimit - pgOfs block) % sizeLimit

def blockSize (block : ℕ) : MallocM ℕ := do
  let _ ← blockToArena block
  return (← get).room block

/-- `memset` on a block; a write past its end is undefined. -/
def memsetBlock (block : ℕ) (value : UInt8) (size : ℕ) : MallocM Unit := do
  let s ← get
  if s.room block < size then
    throw (.undefined "memset")
  set (s.setMemory (memset s.memory block value size))

/-- `memcpy` from block to block; a read or write past an end is undefined. -/
def memcpyBlock (dst src size : ℕ) : MallocM Unit := do
  let s ← get
  if s.room dst < size ∨ s.room src < size then
    throw (.undefined "memcpy")
  set (s.setMemory fun addr =>
    if dst ≤ addr ∧ addr < dst + size then s.memory (src + (addr - dst)) else s.memory addr)

/-! ## The four functions -/

/-- The first descriptor whose blocks are big enough. -/
def findDesc (s : Malloc) (size : ℕ) : Option ℕ :=
  (List.range s.descCnt).find? fun d => size ≤ (s.descs d).blockSize

/-- `malloc`, for a request that is too big for any descriptor. -/
def mallocBig (supply size : ℕ) : MallocM ℕ := do
  let pageCnt := divRoundUp ((size + arenaSize) % sizeLimit) pgSize
  let a ← pallocGetMultiple supply pageCnt
  if a = 0 then
    return 0
  modify fun s => s.setArena a ⟨arenaMagic, none, pageCnt⟩
  return a + arenaSize

/-- The body of the loop of `malloc`. -/
def pushBlock (a d i : ℕ) : MallocM Unit := do
  let b ← arenaToBlock a i
  modify fun s => s.setFreeList d ((s.descs d).freeList ++ [b])

/-- `malloc`, as far as it creates an arena if the free list is empty; false if there is no
page. -/
def refill (supply d : ℕ) : MallocM Bool := do
  let s ← get
  if (s.descs d).freeList ≠ [] then
    return true
  let a ← pallocGetMultiple supply 1
  if a = 0 then
    return false
  modify fun s => s.setArena a ⟨arenaMagic, some d, (s.descs d).blocksPerArena⟩
  forUpto (pushBlock a d) (s.descs d).blocksPerArena 0
  return true

/-- `malloc`, as far as it takes a block from the free list. -/
def takeBlock (d : ℕ) : MallocM ℕ := do
  let s ← get
  match (s.descs d).freeList with
  | [] => throw (.panic "!list_empty (list)")
  | b :: rest =>
    set (s.setFreeList d rest)
    let a ← blockToArena b
    modify fun s => s.setFreeCnt a (((s.arenas a).freeCnt + sizeLimit - 1) % sizeLimit)
    return b

def malloc (supply size : ℕ) : MallocM ℕ := do
  if size = 0 then
    return 0
  let s ← get
  match s.findDesc size with
  | none => mallocBig supply size
  | some d =>
    let ready ← refill supply d
    if ready then takeBlock d else return 0

def calloc (supply a b : ℕ) : MallocM ℕ := do
  let size := a * b % sizeLimit
  if size < a ∨ size < b then
    return 0
  let p ← malloc supply size
  if p ≠ 0 then
    memsetBlock p 0 size
  return p

/-- `list_remove` on a free list; the block must be there. -/
def listRemove (d b : ℕ) : MallocM Unit := do
  let s ← get
  if b ∉ (s.descs d).freeList then
    throw (.undefined "list_remove")
  set (s.setFreeList d ((s.descs d).freeList.erase b))

/-- The body of the loop of `free`. -/
def removeBlock (a d i : ℕ) : MallocM Unit := do
  let b ← arenaToBlock a i
  listRemove d b

/-- `free`, as far as it gives an arena back. -/
def releaseArena (d a : ℕ) : MallocM Unit := do
  let s ← get
  if (s.arenas a).freeCnt ≠ (s.descs d).blocksPerArena then
    throw (.panic "a->free_cnt == d->blocks_per_arena")
  forUpto (removeBlock a d) (s.descs d).blocksPerArena 0
  pallocFreeMultiple a 1

def free (p : ℕ) : MallocM Unit := do
  if p = 0 then
    return
  let a ← blockToArena p
  let s ← get
  match (s.arenas a).desc with
  | some d =>
    memsetBlock p 0xcc (s.descs d).blockSize
    modify fun s => s.setFreeList d (p :: (s.descs d).freeList)
    modify fun s => s.setFreeCnt a (((s.arenas a).freeCnt + 1) % sizeLimit)
    let s ← get
    if (s.arenas a).freeCnt ≥ (s.descs d).blocksPerArena then
      releaseArena d a
  | none => pallocFreeMultiple a (s.arenas a).freeCnt

def realloc (supply oldBlock newSize : ℕ) : MallocM ℕ := do
  if newSize = 0 then
    free oldBlock
    return 0
  let newBlock ← malloc supply newSize
  if oldBlock ≠ 0 ∧ newBlock ≠ 0 then
    let oldSize ← blockSize oldBlock
    let minSize := if newSize < oldSize then newSize else oldSize
    memcpyBlock newBlock oldBlock minSize
    free oldBlock
  return newBlock

end Malloc

/-- What a caller holds: a block and the size it asked for. -/
structure Grant where
  addr : ℕ
  size : ℕ

/-- The allocator and the blocks not given back. -/
structure MallocSystem where
  heap : Malloc
  live : List Grant

/-- A call, with the pages that the page allocator can hand out to it. -/
inductive MallocLabel where
  | malloc (size : UInt32) (supply : ℕ)
  | calloc (a b : UInt32) (supply : ℕ)
  | realloc (oldBlock : ℕ) (newSize : UInt32) (supply : ℕ)
  | free (p : ℕ)

/-- The number of bytes that `malloc` is asked for. -/
def MallocLabel.requested : MallocLabel → ℕ
  | .malloc size _ => size.toNat
  | .calloc a b _ => a.toNat * b.toNat % sizeLimit
  | .realloc _ newSize _ => newSize.toNat
  | .free _ => 0

namespace MallocSystem

def grant (p size : ℕ) (live : List Grant) : List Grant :=
  if p = 0 then live else ⟨p, size⟩ :: live

def release (p : ℕ) (live : List Grant) : List Grant := live.filter fun g => g.addr ≠ p

def Usable (s : MallocSystem) (p : ℕ) : Prop := p = 0 ∨ p ∈ s.live.map Grant.addr

instance (s : MallocSystem) (p : ℕ) : Decidable (s.Usable p) :=
  inferInstanceAs (Decidable (_ ∨ _))

/-- A call; only live blocks are freed or reallocated. -/
def apply (s : MallocSystem) (l : MallocLabel) : Except Fault (Option MallocSystem) :=
  match l with
  | .malloc size supply => do
      let (p, heap) ← (Malloc.malloc supply size.toNat).run s.heap
      return some ⟨heap, grant p l.requested s.live⟩
  | .calloc a b supply => do
      let (p, heap) ← (Malloc.calloc supply a.toNat b.toNat).run s.heap
      return some ⟨heap, grant p l.requested s.live⟩
  | .realloc oldBlock newSize supply =>
    if s.Usable oldBlock then do
      let (p, heap) ← (Malloc.realloc supply oldBlock newSize.toNat).run s.heap
      if p = 0 ∧ newSize ≠ 0 then
        return some ⟨heap, s.live⟩
      else
        return some ⟨heap, grant p l.requested (release oldBlock s.live)⟩
    else .ok none
  | .free p =>
    if s.Usable p then do
      let (_, heap) ← (Malloc.free p).run s.heap
      return some ⟨heap, release p s.live⟩
    else .ok none

def Step (s : MallocSystem) (l : MallocLabel) (s' : MallocSystem) : Prop :=
  s.apply l = .ok (some s')

end MallocSystem

/-! ## The blocks of an arena -/

namespace Desc

variable {d : Desc} {a b c : ℕ}

/-- The blocks that the arena at `a` is cut into. -/
def blocks (d : Desc) (a : ℕ) : List ℕ :=
  (List.range d.blocksPerArena).map fun i => a + arenaSize + i * d.blockSize

/-- The blocks of an arena fit in a page. -/
structure Fits (d : Desc) : Prop where
  positive : 0 < d.blockSize
  nonempty : 0 < d.blocksPerArena
  page : arenaSize + d.blocksPerArena * d.blockSize ≤ pgSize

theorem mem_blocks :
    b ∈ d.blocks a ↔ ∃ i < d.blocksPerArena, a + arenaSize + i * d.blockSize = b := by
  simp only [blocks, mem_map, mem_range]

theorem length_blocks : (d.blocks a).length = d.blocksPerArena := by
  rw [blocks, length_map, length_range]

namespace Fits

theorem offset_le (h : d.Fits) {i : ℕ} (hi : i < d.blocksPerArena) :
    arenaSize + i * d.blockSize + d.blockSize ≤ pgSize := by
  have hstep : (i + 1) * d.blockSize ≤ d.blocksPerArena * d.blockSize := Nat.mul_le_mul_right _ hi
  have hpage := h.page
  rw [Nat.succ_mul] at hstep
  omega

theorem within (h : d.Fits) (hb : b ∈ d.blocks a) :
    a + arenaSize ≤ b ∧ b + d.blockSize ≤ a + pgSize := by
  obtain ⟨i, hi, rfl⟩ := mem_blocks.mp hb
  have hoffset := h.offset_le hi
  omega

theorem apart (hb : b ∈ d.blocks a) (hc : c ∈ d.blocks a) (hne : b ≠ c) :
    b + d.blockSize ≤ c ∨ c + d.blockSize ≤ b := by
  obtain ⟨i, -, rfl⟩ := mem_blocks.mp hb
  obtain ⟨j, -, rfl⟩ := mem_blocks.mp hc
  have hij : i ≠ j := fun heq => hne (heq ▸ rfl)
  rcases lt_or_gt_of_ne hij with hlt | hlt
  all_goals
    have hstep := Nat.mul_le_mul_right d.blockSize (Nat.succ_le_of_lt hlt)
    rw [Nat.succ_mul] at hstep
    omega

theorem nodup (h : d.Fits) : (d.blocks a).Nodup := by
  apply nodup_range.map
  intro i j heq
  have hmul : i * d.blockSize = j * d.blockSize := by
    simp only at heq
    omega
  exact Nat.eq_of_mul_eq_mul_right h.positive hmul

theorem pgRoundDown_block (h : d.Fits) (ha : a % pgSize = 0) (hroom : a + pgSize ≤ sizeLimit)
    (hb : b ∈ d.blocks a) : pgRoundDown b = a := by
  have hwithin := h.within hb
  have hpositive := h.positive
  simp only [pgSize, sizeLimit] at *
  rw [pgRoundDown_eq (by omega)]
  rw [pgSize]
  omega

theorem aligned (h : d.Fits) (ha : a % pgSize = 0) (hb : b ∈ d.blocks a) :
    (pgOfs b + sizeLimit - arenaSize) % sizeLimit % d.blockSize = 0 := by
  obtain ⟨i, hi, rfl⟩ := mem_blocks.mp hb
  have hoffset := h.offset_le hi
  have hpositive := h.positive
  have hofs : (pgOfs (a + arenaSize + i * d.blockSize) + sizeLimit - arenaSize) % sizeLimit =
      i * d.blockSize := by
    rw [pgOfs_eq]
    simp only [pgSize, sizeLimit] at *
    omega
  rw [hofs, Nat.mul_mod_left]

end Fits

end Desc

open MallocSystem (release grant)

/-! ## Pages and headers -/

namespace Malloc

variable {s s' : Malloc} {run run' : Extent} {b c d : ℕ}

/-- The pages that are held and their headers. -/
structure Layout (s : Malloc) : Prop where
  fits : ∀ d < s.descCnt, (s.descs d).Fits
  apart : s.owned.Pairwise Extent.Apart
  page : ∀ run ∈ s.owned, run.start % pgSize = 0 ∧ 0 < run.start ∧ run.stop ≤ sizeLimit
  magic : ∀ run ∈ s.owned, (s.arenas run.start).magic = arenaMagic
  small : ∀ run ∈ s.owned, ∀ d, (s.arenas run.start).desc = some d →
    d < s.descCnt ∧ run.size = pgSize
  big : ∀ run ∈ s.owned, (s.arenas run.start).desc = none →
    0 < (s.arenas run.start).freeCnt ∧ run.size = pgSize * (s.arenas run.start).freeCnt

/-- `b` is a block of the arena. -/
def IsBlock (s : Malloc) (run : Extent) (b : ℕ) : Prop :=
  match (s.arenas run.start).desc with
  | some d => b ∈ (s.descs d).blocks run.start
  | none => b = run.start + arenaSize

theorem isBlock_some (hdesc : (s.arenas run.start).desc = some d) :
    s.IsBlock run b ↔ b ∈ (s.descs d).blocks run.start := by
  rw [IsBlock, hdesc]

theorem isBlock_none (hdesc : (s.arenas run.start).desc = none) :
    s.IsBlock run b ↔ b = run.start + arenaSize := by
  rw [IsBlock, hdesc]

def extent (s : Malloc) (b : ℕ) : Extent := ⟨b, s.room b⟩

def headerExtent (run : Extent) : Extent := ⟨run.start, arenaSize⟩

namespace Layout

theorem pgSize_le (h : s.Layout) (hrun : run ∈ s.owned) : pgSize ≤ run.size := by
  cases hdesc : (s.arenas run.start).desc with
  | some d => exact le_of_eq (h.small run hrun d hdesc).2.symm
  | none =>
    obtain ⟨hcnt, hsize⟩ := h.big run hrun hdesc
    rw [hsize]
    exact Nat.le_mul_of_pos_right _ hcnt

theorem eq_of_start (h : s.Layout) (hrun : run ∈ s.owned) (hrun' : run' ∈ s.owned)
    (hstart : run.start = run'.start) : run = run' := by
  by_contra hne
  have hapart := h.apart.forall hrun hrun' hne
  have hsize := h.pgSize_le hrun
  have hsize' := h.pgSize_le hrun'
  unfold Extent.Apart Extent.stop at hapart
  simp only [pgSize] at hsize hsize'
  omega

theorem nodup_owned (h : s.Layout) : s.owned.Nodup := by
  apply h.apart.imp_of_mem
  intro run run' hrun _ hapart heq
  have hsize := h.pgSize_le hrun
  subst heq
  unfold Extent.Apart Extent.stop at hapart
  rw [pgSize] at hsize
  omega

section

variable (h : s.Layout) (hrun : run ∈ s.owned)
include h hrun

theorem pgRoundDown_block (hb : s.IsBlock run b) : pgRoundDown b = run.start := by
  obtain ⟨halign, -, hstop⟩ := h.page run hrun
  have hsize := h.pgSize_le hrun
  unfold Extent.stop at hstop
  cases hdesc : (s.arenas run.start).desc with
  | some d =>
    have hfits := h.fits d (h.small run hrun d hdesc).1
    exact hfits.pgRoundDown_block halign (by omega) ((isBlock_some hdesc).mp hb)
  | none =>
    rw [(isBlock_none hdesc).mp hb]
    simp only [pgSize, sizeLimit, arenaSize] at *
    rw [pgRoundDown_eq (by omega)]
    rw [pgSize]
    omega

/-- **A block lies in its arena, behind the header.** -/
theorem block_within (hb : s.IsBlock run b) :
    run.start + arenaSize ≤ b ∧ 0 < s.room b ∧ b + s.room b ≤ run.stop := by
  have hround := h.pgRoundDown_block hrun hb
  obtain ⟨halign, hpos, hstop⟩ := h.page run hrun
  have hsize := h.pgSize_le hrun
  unfold room Extent.stop at *
  rw [hround]
  cases hdesc : (s.arenas run.start).desc with
  | some d =>
    have hfits := h.fits d (h.small run hrun d hdesc).1
    have hwithin := hfits.within ((isBlock_some hdesc).mp hb)
    have hpositive := hfits.positive
    simp only
    omega
  | none =>
    obtain ⟨hcnt, hpages⟩ := h.big run hrun hdesc
    rw [(isBlock_none hdesc).mp hb]
    simp only [pgOfs_eq, pgSize, sizeLimit, arenaSize] at *
    omega

/-- **Blocks do not overlap.** -/
theorem blocks_apart (hrun' : run' ∈ s.owned) (hb : s.IsBlock run b) (hc : s.IsBlock run' c)
    (hne : b ≠ c) : (s.extent b).Apart (s.extent c) := by
  have hbwithin := h.block_within hrun hb
  have hcwithin := h.block_within hrun' hc
  by_cases heq : run = run'
  · -- Two blocks of one arena.
    subst heq
    have hbround := h.pgRoundDown_block hrun hb
    have hcround := h.pgRoundDown_block hrun hc
    unfold extent room Extent.Apart Extent.stop
    rw [hbround, hcround]
    cases hdesc : (s.arenas run.start).desc with
    | some d =>
      exact Desc.Fits.apart ((isBlock_some hdesc).mp hb) ((isBlock_some hdesc).mp hc) hne
    | none =>
      exact absurd (((isBlock_none hdesc).mp hb).trans ((isBlock_none hdesc).mp hc).symm) hne
  · have hapart := h.apart.forall hrun hrun' heq
    apply hapart.mono
    · exact ⟨by simp only [extent]; omega, hbwithin.2.2⟩
    · exact ⟨by simp only [extent]; omega, hcwithin.2.2⟩

/-- **No block overlaps a header.** -/
theorem block_apart_header (hrun' : run' ∈ s.owned)
    (hb : s.IsBlock run b) : (s.extent b).Apart (headerExtent run') := by
  have hwithin := h.block_within hrun hb
  by_cases heq : run = run'
  · subst heq
    exact .inr hwithin.1
  · have hapart := h.apart.forall hrun hrun' heq
    unfold Extent.Apart Extent.stop extent headerExtent at *
    simp only [arenaSize] at *
    omega

theorem run_blockToArena (hb : s.IsBlock run b) : (blockToArena b).run s = .ok (run.start, s) := by
  have hround := h.pgRoundDown_block hrun hb
  obtain ⟨halign, hpos, hstop⟩ := h.page run hrun
  have hmagic := h.magic run hrun
  unfold blockToArena
  cases hdesc : (s.arenas run.start).desc with
  | some d =>
    have haligned := (h.fits d (h.small run hrun d hdesc).1).aligned halign
      ((isBlock_some hdesc).mp hb)
    simp [hround, ne_of_gt hpos, hmagic, hdesc, haligned]
    rfl
  | none =>
    have hofs : pgOfs b = arenaSize := by
      rw [(isBlock_none hdesc).mp hb, pgOfs_eq]
      simp only [pgSize, arenaSize] at *
      omega
    simp [hround, ne_of_gt hpos, hmagic, hdesc, hofs]
    rfl

theorem run_arenaToBlock
    (hdesc : (s.arenas run.start).desc = some d) {i : ℕ} (hi : i < (s.descs d).blocksPerArena) :
    (arenaToBlock run.start i).run s =
      .ok (run.start + arenaSize + i * (s.descs d).blockSize, s) := by
  have hpos := (h.page run hrun).2.1
  have hmagic := h.magic run hrun
  unfold arenaToBlock
  simp [ne_of_gt hpos, hmagic, hdesc, not_le.mpr hi]
  rfl

end

end Layout

/-! ### Changes that keep the pages -/

/-- The two states differ in free lists, in the counts of arenas with a descriptor and in
memory. -/
structure Reshaped (s s' : Malloc) : Prop where
  owned : s'.owned = s.owned
  descCnt : s'.descCnt = s.descCnt
  blockSize : ∀ d, (s'.descs d).blockSize = (s.descs d).blockSize
  blocksPerArena : ∀ d, (s'.descs d).blocksPerArena = (s.descs d).blocksPerArena
  magic : ∀ a, (s'.arenas a).magic = (s.arenas a).magic
  desc : ∀ a, (s'.arenas a).desc = (s.arenas a).desc
  freeCnt : ∀ a, (s.arenas a).desc = none → (s'.arenas a).freeCnt = (s.arenas a).freeCnt

theorem reshaped_setFreeList (s : Malloc) (d : ℕ) (freeList : List ℕ) :
    Reshaped s (s.setFreeList d freeList) := by
  constructor
  case blockSize | blocksPerArena =>
    intro i
    by_cases hi : i = d <;> simp [hi]
  all_goals
    simp

theorem reshaped_setFreeCnt (hdesc : (s.arenas b).desc ≠ none) (freeCnt : ℕ) :
    Reshaped s (s.setFreeCnt b freeCnt) := by
  constructor
  case magic | desc =>
    intro a
    by_cases ha : a = b <;> simp [ha]
  case freeCnt =>
    intro a hnone
    have ha : a ≠ b := fun heq => hdesc (heq ▸ hnone)
    simp [ha]
  all_goals
    simp

theorem reshaped_setMemory (s : Malloc) (memory : ℕ → UInt8) : Reshaped s (s.setMemory memory) := by
  constructor <;> simp [setMemory]

namespace Reshaped

section

variable (h : Reshaped s s')
include h

theorem trans {s'' : Malloc} (h' : Reshaped s' s'') : Reshaped s s'' where
  owned := h'.owned.trans h.owned
  descCnt := h'.descCnt.trans h.descCnt
  blockSize d := (h'.blockSize d).trans (h.blockSize d)
  blocksPerArena d := (h'.blocksPerArena d).trans (h.blocksPerArena d)
  magic a := (h'.magic a).trans (h.magic a)
  desc a := (h'.desc a).trans (h.desc a)
  freeCnt a hnone := (h'.freeCnt a ((h.desc a).trans hnone)).trans (h.freeCnt a hnone)

theorem blocks (d : ℕ) : (s'.descs d).blocks = (s.descs d).blocks := by
  funext a
  unfold Desc.blocks
  rw [h.blockSize, h.blocksPerArena]

theorem fits (hfits : (s.descs d).Fits) : (s'.descs d).Fits where
  positive := by rw [h.blockSize]; exact hfits.positive
  nonempty := by rw [h.blocksPerArena]; exact hfits.nonempty
  page := by rw [h.blockSize, h.blocksPerArena]; exact hfits.page

theorem isBlock : s'.IsBlock run b ↔ s.IsBlock run b := by
  unfold IsBlock
  rw [h.desc]
  cases (s.arenas run.start).desc with
  | some d => simp only [h.blocks]
  | none => exact Iff.rfl

theorem room (b : ℕ) : s'.room b = s.room b := by
  unfold Malloc.room
  rw [h.desc]
  cases hdesc : (s.arenas (pgRoundDown b)).desc with
  | some d => exact h.blockSize d
  | none => simp only [h.freeCnt _ hdesc]

theorem layout (hlayout : s.Layout) : s'.Layout where
  fits d hd := h.fits (hlayout.fits d (h.descCnt ▸ hd))
  apart := by rw [h.owned]; exact hlayout.apart
  page := by rw [h.owned]; exact hlayout.page
  magic run hrun := by
    rw [h.magic]
    exact hlayout.magic run (h.owned ▸ hrun)
  small run hrun d hdesc := by
    rw [h.desc] at hdesc
    rw [h.descCnt]
    exact hlayout.small run (h.owned ▸ hrun) d hdesc
  big run hrun hdesc := by
    rw [h.desc] at hdesc
    rw [h.freeCnt _ hdesc]
    exact hlayout.big run (h.owned ▸ hrun) hdesc

end

end Reshaped

/-! ### More and fewer pages -/

/-- Pages are added, with a header. -/
@[simp] def attach (s : Malloc) (pages pageCnt : ℕ) (arena : Arena) : Malloc :=
  { s with owned := ⟨pages, pgSize * pageCnt⟩ :: s.owned, arenas := update s.arenas pages arena }

/-- Pages are given back. -/
def detach (s : Malloc) (run : Extent) (memory : ℕ → UInt8) : Malloc :=
  { s with owned := s.owned.erase run, memory := memory }

section Attach

variable {pages pageCnt : ℕ} {arena : Arena}

theorem Fresh.start_ne (hfresh : s.Fresh pages pageCnt) (hcnt : 0 < pageCnt) (h : s.Layout)
    (hrun : run ∈ s.owned) : run.start ≠ pages := by
  have hapart := hfresh.2.2.2 run hrun
  have hsize := h.pgSize_le hrun
  unfold Extent.Apart Extent.stop at hapart
  simp only [pgSize] at *
  omega

theorem arenas_attach {a : ℕ} (hne : a ≠ pages) :
    (s.attach pages pageCnt arena).arenas a = s.arenas a := by
  simp [hne]

theorem isBlock_attach (hne : run.start ≠ pages) :
    (s.attach pages pageCnt arena).IsBlock run b ↔ s.IsBlock run b := by
  unfold IsBlock
  rw [arenas_attach hne]
  exact Iff.rfl

theorem room_attach (hne : pgRoundDown b ≠ pages) :
    (s.attach pages pageCnt arena).room b = s.room b := by
  unfold room
  rw [arenas_attach hne]
  rfl

theorem Layout.attach (h : s.Layout) (hcnt : 0 < pageCnt) (hfresh : s.Fresh pages pageCnt)
    (hmagic : arena.magic = arenaMagic) (hbig : arena.desc = none → arena.freeCnt = pageCnt)
    (hsmall : ∀ d, arena.desc = some d → d < s.descCnt ∧ pageCnt = 1) :
    (s.attach pages pageCnt arena).Layout where
  fits := h.fits
  apart := pairwise_cons.mpr ⟨hfresh.2.2.2, h.apart⟩
  page := forall_mem_cons.mpr ⟨⟨hfresh.1, hfresh.2.1, hfresh.2.2.1⟩, h.page⟩
  magic run hrun := by
    rcases mem_cons.mp hrun with rfl | hrun
    · simpa using hmagic
    · rw [arenas_attach (hfresh.start_ne hcnt h hrun)]
      exact h.magic run hrun
  small run hrun d hdesc := by
    rcases mem_cons.mp hrun with rfl | hrun
    · simp only [Malloc.attach, update_self] at hdesc
      obtain ⟨hd, rfl⟩ := hsmall d hdesc
      exact ⟨hd, rfl⟩
    · rw [arenas_attach (hfresh.start_ne hcnt h hrun)] at hdesc
      exact h.small run hrun d hdesc
  big run hrun hdesc := by
    rcases mem_cons.mp hrun with rfl | hrun
    · simp only [Malloc.attach, update_self] at hdesc ⊢
      rw [hbig hdesc]
      exact ⟨hcnt, rfl⟩
    · rw [arenas_attach (hfresh.start_ne hcnt h hrun)] at hdesc ⊢
      exact h.big run hrun hdesc

end Attach

theorem Layout.detach (h : s.Layout) (run : Extent) (memory : ℕ → UInt8) :
    (s.detach run memory).Layout where
  fits := h.fits
  apart := h.apart.sublist erase_sublist
  page run' hrun' := h.page run' (mem_of_mem_erase hrun')
  magic run' hrun' := h.magic run' (mem_of_mem_erase hrun')
  small run' hrun' := h.small run' (mem_of_mem_erase hrun')
  big run' hrun' := h.big run' (mem_of_mem_erase hrun')

/-! ## The invariant -/

variable {live live' : List Grant} {full full' : Set ℕ} {a n : ℕ} {freeList : List ℕ}

/-- The arenas of a descriptor. -/
def Arenas (s : Malloc) (d : ℕ) : Set ℕ :=
  {a | (∃ run ∈ s.owned, run.start = a) ∧ (s.arenas a).desc = some d}

theorem mem_arenas_attach {pages pageCnt : ℕ} {arena : Arena} (hfresh : s.Fresh pages pageCnt)
    (hcnt : 0 < pageCnt) (h : s.Layout) :
    a ∈ (s.attach pages pageCnt arena).Arenas d ↔
      a ∈ s.Arenas d ∨ a = pages ∧ arena.desc = some d := by
  by_cases heq : a = pages
  · subst heq
    have hnot : ∀ run ∈ s.owned, run.start ≠ a := fun run hrun => hfresh.start_ne hcnt h hrun
    simp +contextual [Arenas, hnot]
  · have hne : pages ≠ a := fun h => heq h.symm
    simp [Arenas, heq, hne]

theorem arenas_detach (h : s.Layout) (hrun : run ∈ s.owned) (memory : ℕ → UInt8) (d : ℕ) :
    (s.detach run memory).Arenas d = s.Arenas d \ {run.start} := by
  have hnodup : s.owned.Nodup := h.nodup_owned
  ext a
  constructor
  · rintro ⟨⟨run', hrun', rfl⟩, hdesc⟩
    obtain ⟨hne, hmem⟩ := hnodup.mem_erase_iff.mp hrun'
    exact ⟨⟨⟨run', hmem, rfl⟩, hdesc⟩, fun heq => hne (h.eq_of_start hmem hrun heq)⟩
  · rintro ⟨⟨⟨run', hrun', rfl⟩, hdesc⟩, hne⟩
    exact ⟨⟨run', hnodup.mem_erase_iff.mpr ⟨fun heq => hne (heq ▸ rfl), hrun'⟩, rfl⟩, hdesc⟩

def addrs (live : List Grant) : Set ℕ := {b | b ∈ live.map Grant.addr}

theorem addrs_cons (g : Grant) (live : List Grant) :
    addrs (g :: live) = insert g.addr (addrs live) := by
  ext c
  simp [addrs]

theorem addrs_release (p : ℕ) (live : List Grant) : addrs (release p live) = addrs live \ {p} := by
  ext c
  simp only [addrs, release, Set.mem_ofPred_eq, mem_map, mem_filter,
    decide_eq_true_eq, Set.mem_sdiff, Set.mem_singleton_iff]
  constructor
  · rintro ⟨g, ⟨hg, hne⟩, rfl⟩
    exact ⟨⟨g, hg, rfl⟩, hne⟩
  · rintro ⟨⟨g, hg, rfl⟩, hne⟩
    exact ⟨g, ⟨hg, hne⟩, rfl⟩

/-- A grant is a block that is big enough. -/
def Grants (s : Malloc) (g : Grant) : Prop :=
  ∃ run ∈ s.owned, s.IsBlock run g.addr ∧ g.size ≤ s.room g.addr

/-- **The invariant**: each free list has the blocks of its arenas that are not live, the arenas
count them, and only the arenas in `full` may have no live block. -/
structure Sound (s : Malloc) (live : List Grant) (full : Set ℕ) : Prop extends s.Layout where
  slabs : ∀ d < s.descCnt, Slabs (s.descs d).blocks pgRoundDown (s.Arenas d)
    (s.descs d).freeList (addrs live)
  count : ∀ d < s.descCnt, ∀ a ∈ s.Arenas d,
    (s.arenas a).freeCnt = Slabs.freeCount pgRoundDown (s.descs d).freeList a ∧
      (a ∉ full → (s.arenas a).freeCnt < (s.descs d).blocksPerArena)
  nodup : (live.map Grant.addr).Nodup
  grants : ∀ g ∈ live, s.Grants g

theorem Reshaped.arenas_eq (h : Reshaped s s') (d : ℕ) : s'.Arenas d = s.Arenas d := by
  unfold Arenas
  simp only [h.owned, h.desc]

theorem Reshaped.grants (h : Reshaped s s') {g : Grant} (hg : s.Grants g) : s'.Grants g := by
  obtain ⟨run, hrun, hblock, hsize⟩ := hg
  refine ⟨run, h.owned ▸ hrun, h.isBlock.mpr hblock, ?_⟩
  rwa [h.room]

/-- Memory and the sizes of the blocks are as they were. -/
structure Keeps (s : Malloc) (live : List Grant) (s' : Malloc) : Prop where
  memory : s'.memory = s.memory
  room : ∀ g ∈ live, s'.room g.addr = s.room g.addr

theorem Keeps.refl (s : Malloc) (live : List Grant) : s.Keeps live s := ⟨rfl, fun _ _ => rfl⟩

/-- Only the bytes of `b` and of pages that are given back may change. -/
structure Spares (s : Malloc) (b : ℕ) (s' : Malloc) : Prop where
  owned : s'.owned ⊆ s.owned
  room : ∀ c, s'.room c = s.room c
  memory : ∀ addr, s'.memory addr = s.memory addr ∨ (b ≤ addr ∧ addr < b + s.room b) ∨
    ∃ run ∈ s.owned, run ∉ s'.owned ∧ run.start ≤ addr ∧ addr < run.stop

theorem Spares.trans {s'' : Malloc} (h : s.Spares b s') (h' : s'.Spares b s'') :
    s.Spares b s'' := by
  refine ⟨fun _ hrun => h.owned (h'.owned hrun), fun c => (h'.room c).trans (h.room c), ?_⟩
  intro addr
  rcases h'.memory addr with hsame | hin | ⟨run, hrun, hnot, hin⟩
  · rw [hsame]
    exact (h.memory addr).imp_right <| .imp_right fun ⟨run, hrun, hnot, hin⟩ =>
      ⟨run, hrun, fun hmem => hnot (h'.owned hmem), hin⟩
  · exact .inr (.inl (h.room b ▸ hin))
  · exact .inr (.inr ⟨run, h.owned hrun, hnot, hin⟩)

theorem Reshaped.spares (h : Reshaped s s')
    (hmemory : ∀ addr, s'.memory addr = s.memory addr ∨ b ≤ addr ∧ addr < b + s.room b) :
    s.Spares b s' :=
  ⟨fun _ hrun => h.owned ▸ hrun, h.room, fun addr => (hmemory addr).imp_right .inl⟩

theorem Layout.spares_detach (h : s.Layout) (hrun : run ∈ s.owned) (hsize : run.size = n) :
    s.Spares b (s.detach run (memset s.memory run.start 0xcc n)) := by
  subst hsize
  refine ⟨erase_subset, fun _ => rfl, fun addr => ?_⟩
  by_cases hin : run.start ≤ addr ∧ addr < run.start + run.size
  · exact .inr (.inr ⟨run, hrun, h.nodup_owned.not_mem_erase, hin⟩)
  · exact .inl (if_neg hin)

namespace Sound

section

variable (h : s.Sound live full)
include h

/-- A block that is free or live belongs to the descriptor of its arena. -/
theorem desc_of_mem (hd : d < s.descCnt) (ha : a ∈ s.Arenas d)
    (hb : b ∈ (s.descs d).blocks a) : pgRoundDown b = a ∧ (s.arenas a).desc = some d :=
  ⟨(h.slabs d hd).owns a ha b hb, ha.2⟩

/-- The list of one descriptor and the count of one arena change. -/
theorem relist (hd : d < s.descCnt) (ha : a ∈ s.Arenas d)
    (hslabs : Slabs (s.descs d).blocks pgRoundDown (s.Arenas d) freeList (addrs live'))
    (hlive : ∀ c, pgRoundDown c ≠ a → (c ∈ addrs live ↔ c ∈ addrs live'))
    (hn : n = Slabs.freeCount pgRoundDown freeList a)
    (hother : ∀ a' ≠ a, Slabs.freeCount pgRoundDown freeList a' =
      Slabs.freeCount pgRoundDown (s.descs d).freeList a')
    (hfull : ∀ a' ∈ full, a' = a) (hfull' : a ∉ full' → n < (s.descs d).blocksPerArena)
    (hnodup : (live'.map Grant.addr).Nodup) (hgrants : ∀ g ∈ live', s.Grants g) :
    ((s.setFreeList d freeList).setFreeCnt a n).Sound live' full' := by
  have hdesc : ((s.setFreeList d freeList).arenas a).desc ≠ none := by
    have hsome := ha.2
    simp [hsome]
  have hshape : Reshaped s ((s.setFreeList d freeList).setFreeCnt a n) :=
    (reshaped_setFreeList s d freeList).trans (reshaped_setFreeCnt hdesc n)
  refine ⟨hshape.layout h.toLayout, ?_, ?_, hnodup, fun g hg => hshape.grants (hgrants g hg)⟩
  · intro i hi
    rw [hshape.blocks, hshape.arenas_eq]
    by_cases heq : i = d
    · subst heq
      simpa using hslabs
    have hlist : (((s.setFreeList d freeList).setFreeCnt a n).descs i).freeList =
        (s.descs i).freeList := by
      simp [heq]
    rw [hlist]
    refine (h.slabs i hi).congr_live fun a' ha' c hc => hlive c ?_
    obtain ⟨hround, hi'⟩ := h.desc_of_mem hi ha' hc
    rw [hround]
    intro hsame
    rw [hsame, ha.2] at hi'
    exact heq (Option.some.inj hi').symm
  · intro i hi a' ha'
    rw [hshape.arenas_eq] at ha'
    rw [hshape.blocksPerArena]
    obtain ⟨hcount, hpartly⟩ := h.count i hi a' ha'
    by_cases heq : a' = a
    · subst heq
      have hid : i = d := Option.some.inj (ha'.2.symm.trans ha.2)
      subst hid
      simp only [setFreeCnt, setArena, setFreeList, update_self]
      exact ⟨hn, hfull'⟩
    have hsame : (((s.setFreeList d freeList).setFreeCnt a n).arenas a').freeCnt =
        (s.arenas a').freeCnt := by
      simp [heq]
    rw [hsame]
    refine ⟨?_, fun _ => hpartly fun hmem => heq (hfull a' hmem)⟩
    rw [hcount]
    by_cases hid : i = d
    · subst hid
      simp only [setFreeCnt, setArena, setFreeList, update_self]
      exact (hother a' heq).symm
    · simp [hid]

theorem block_of_mem (ha : a ∈ s.Arenas d)
    (hb : b ∈ (s.descs d).blocks a) : ∃ run ∈ s.owned, run.start = a ∧ s.IsBlock run b ∧
      s.room b = (s.descs d).blockSize := by
  obtain ⟨⟨run, hrun, rfl⟩, hdesc⟩ := ha
  have hblock : s.IsBlock run b := (isBlock_some hdesc).mpr hb
  refine ⟨run, hrun, rfl, hblock, ?_⟩
  unfold room
  rw [h.pgRoundDown_block hrun hblock, hdesc]

theorem freeCount_lt (hd : d < s.descCnt) (a : ℕ) :
    Slabs.freeCount pgRoundDown (s.descs d).freeList a ≤ (s.descs d).blocksPerArena ∧
      (s.descs d).blocksPerArena < pgSize := by
  have hle := (h.slabs d hd).freeCount_le (a := a)
  rw [Desc.length_blocks] at hle
  have hfits := h.fits d hd
  have hpage := hfits.page
  have hmul := Nat.le_mul_of_pos_right (s.descs d).blocksPerArena hfits.positive
  simp only [arenaSize] at hpage ⊢
  omega

/-- **A block is taken from a free list.** -/
theorem take (hd : d < s.descCnt) {rest : List ℕ} (hlist : (s.descs d).freeList = b :: rest)
    (hfull : ∀ a ∈ full, a = pgRoundDown b) {size : ℕ} (hsize : size ≤ (s.descs d).blockSize) :
    ∃ s', (takeBlock d).run s = .ok (b, s') ∧ s'.Sound (⟨b, size⟩ :: live) ∅ ∧ b ≠ 0 ∧
      s.Keeps live s' := by
  have hslabs := h.slabs d hd
  rw [hlist] at hslabs
  obtain ⟨ha, hb⟩ := hslabs.mem_blocks mem_cons_self
  obtain ⟨run, hrun, hstart, hblock, hroom⟩ := h.block_of_mem ha hb
  have hshape := reshaped_setFreeList s d rest
  have harena := (hshape.layout h.toLayout).run_blockToArena (hshape.owned ▸ hrun)
    (hshape.isBlock.mpr hblock)
  have hcount := (h.count d hd _ ha).1
  have hlt := h.freeCount_lt hd (pgRoundDown b)
  have hcons := Slabs.freeCount_cons pgRoundDown b rest
  rw [hlist] at hcount hlt
  have hself := hcons (pgRoundDown b)
  rw [if_pos rfl] at hself
  have hcnt : ((s.arenas (pgRoundDown b)).freeCnt + sizeLimit - 1) % sizeLimit =
      Slabs.freeCount pgRoundDown rest (pgRoundDown b) := by
    simp only [sizeLimit, pgSize] at hlt ⊢
    omega
  have hdead : b ∉ addrs live := ((hslabs.mem_iff b).mp mem_cons_self).2
  refine ⟨(s.setFreeList d rest).setFreeCnt (pgRoundDown b)
    (((s.arenas (pgRoundDown b)).freeCnt + sizeLimit - 1) % sizeLimit), ?_, ?_, ?_, rfl, ?_⟩
  · rw [hstart] at harena
    simp only [takeBlock, StateT.run_bind, StateT.run_get, pure_bind, hlist, StateT.run_set,
      harena, ok_bind, StateT.run_modify]
    rfl
  · refine h.relist hd ha ?_ ?_ hcnt ?_ hfull ?_ ?_ ?_
    · rw [addrs_cons]
      exact hslabs.take
    · intro c hc
      have hne : c ≠ b := fun heq => hc (heq ▸ rfl)
      simp [addrs_cons, hne]
    · intro a' hne
      rw [hlist, hcons, if_neg hne.symm, add_zero]
    · intro _
      omega
    · exact nodup_cons.mpr ⟨hdead, h.nodup⟩
    · exact forall_mem_cons.mpr ⟨⟨run, hrun, hblock, hroom ▸ hsize⟩, h.grants⟩
  · have hwithin := h.block_within hrun hblock
    rw [arenaSize] at hwithin
    omega
  · have hsome := ha.2
    exact fun g _ => (hshape.trans (reshaped_setFreeCnt (by simp [hsome]) _)).room g.addr

theorem nodup_release (p : ℕ) : ((release p live).map Grant.addr).Nodup :=
  h.nodup.sublist ((filter_sublist).map _)

end

/-- **A block goes back to its free list.** -/
theorem give (h : s.Sound live ∅) (hd : d < s.descCnt) (ha : a ∈ s.Arenas d)
    (hb : b ∈ (s.descs d).blocks a) (hlive : b ∈ addrs live) :
    ((s.setFreeList d (b :: (s.descs d).freeList)).setFreeCnt a
      ((s.arenas a).freeCnt + 1)).Sound (release b live) {a} := by
  have hround := (h.desc_of_mem hd ha hb).1
  have hcons := Slabs.freeCount_cons pgRoundDown b (s.descs d).freeList
  refine h.relist hd ha ?_ ?_ ?_ ?_ ?_ ?_ (h.nodup_release b) ?_
  · rw [addrs_release]
    exact (h.slabs d hd).give ha hb hlive
  · intro c hc
    have hne : c ≠ b := fun heq => hc (heq ▸ hround)
    simp [addrs_release, hne]
  · rw [hcons, if_pos hround, (h.count d hd a ha).1]
  · intro a' hne
    have hne' : pgRoundDown b ≠ a' := fun heq => hne (heq.symm.trans hround)
    rw [hcons, if_neg hne', add_zero]
  · intro a' hmem
    exact absurd hmem (Set.notMem_empty a')
  · intro hnot
    exact absurd rfl hnot
  · intro g hg
    exact h.grants g (mem_of_mem_filter hg)

section Attach

variable {pages pageCnt : ℕ} {arena : Arena} {g : Grant}

section

variable (h : s.Sound live full) (hcnt : 0 < pageCnt) (hfresh : s.Fresh pages pageCnt)
include h hcnt hfresh

theorem old_ne (hg : g ∈ live) : pgRoundDown g.addr ≠ pages := by
  obtain ⟨run, hrun, hblock, -⟩ := h.grants g hg
  rw [h.pgRoundDown_block hrun hblock]
  exact hfresh.start_ne hcnt h.toLayout hrun

theorem grants_attach (hg : g ∈ live) : (s.attach pages pageCnt arena).Grants g := by
  obtain ⟨run, hrun, hblock, hsize⟩ := h.grants g hg
  refine ⟨run, mem_cons_of_mem _ hrun, ?_, ?_⟩
  · exact (isBlock_attach (hfresh.start_ne hcnt h.toLayout hrun)).mpr hblock
  · rwa [room_attach (h.old_ne hcnt hfresh hg)]

theorem notMem_arenas (d : ℕ) : pages ∉ s.Arenas d := by
  intro ha
  obtain ⟨⟨run, hrun, hstart⟩, -⟩ := ha
  exact hfresh.start_ne hcnt h.toLayout hrun hstart

end

end Attach

/-- **A new arena**: all its blocks are free. -/
theorem attach_small (h : s.Sound live ∅) (hd : d < s.descCnt) {pages : ℕ}
    (hfresh : s.Fresh pages 1) :
    ((s.attach pages 1 ⟨arenaMagic, some d, (s.descs d).blocksPerArena⟩).setFreeList d
      ((s.descs d).freeList ++ (s.descs d).blocks pages)).Sound live {pages} := by
  set t := s.attach pages 1 ⟨arenaMagic, some d, (s.descs d).blocksPerArena⟩ with ht
  have hlayout : t.Layout := h.toLayout.attach Nat.one_pos hfresh rfl (nofun)
    fun i hi => ⟨Option.some.inj hi ▸ hd, rfl⟩
  have hshape := reshaped_setFreeList t d ((s.descs d).freeList ++ (s.descs d).blocks pages)
  have harenas : ∀ i a, a ∈ t.Arenas i ↔ a ∈ s.Arenas i ∨ a = pages ∧ some d = some i :=
    fun i a => mem_arenas_attach hfresh Nat.one_pos h.toLayout
  have hnot := h.notMem_arenas Nat.one_pos hfresh
  have howns : ∀ b ∈ (s.descs d).blocks pages, pgRoundDown b = pages := fun b hb =>
    (h.fits d hd).pgRoundDown_block hfresh.1 (by simpa using hfresh.2.2.1) hb
  refine ⟨hshape.layout hlayout, ?_, ?_, h.nodup, ?_⟩
  · intro i hi
    rw [hshape.arenas_eq]
    by_cases heq : i = d
    · subst heq
      have hset : t.Arenas i = insert pages (s.Arenas i) := by
        ext a
        rw [harenas]
        simp [or_comm]
      rw [hset]
      simp only [setFreeList, update_self]
      refine (h.slabs i hi).grow (hnot i) howns (h.fits i hi).nodup ?_
      intro b hb hlive
      obtain ⟨g, hg, rfl⟩ := mem_map.mp hlive
      exact h.old_ne Nat.one_pos hfresh hg (howns _ hb)
    · have hset : t.Arenas i = s.Arenas i := by
        ext a
        rw [harenas]
        simp [Ne.symm heq]
      rw [hset]
      simp only [setFreeList, update_of_ne heq]
      exact h.slabs i hi
  · intro i hi a ha
    rw [hshape.arenas_eq, harenas] at ha
    rw [hshape.blocksPerArena]
    rcases ha with ha | ⟨rfl, hid⟩
    · have hne : a ≠ pages := fun heq => hnot i (heq ▸ ha)
      have hsame : t.arenas a = s.arenas a := arenas_attach hne
      obtain ⟨hcount, hpartly⟩ := h.count i hi a ha
      simp only [setFreeList, hsame]
      refine ⟨?_, fun _ => hpartly (Set.notMem_empty a)⟩
      by_cases heq : i = d
      · subst heq
        rw [update_self, Slabs.freeCount_append, Slabs.freeCount_of_owner howns,
          if_neg hne.symm, add_zero]
        exact hcount
      · rwa [update_of_ne heq]
    · have hid := Option.some.inj hid
      subst hid
      refine ⟨?_, fun hnot => absurd rfl hnot⟩
      have hzero : Slabs.freeCount pgRoundDown (s.descs d).freeList a = 0 := by
        refine countP_eq_zero.mpr fun b hb hround => hnot d ?_
        rw [← of_decide_eq_true hround]
        exact ((h.slabs d hd).mem_blocks hb).1
      simp only [setFreeList, update_self, Slabs.freeCount_append, hzero,
        Slabs.freeCount_of_owner howns, if_true, Desc.length_blocks, zero_add]
      simp [ht]
  · intro g hg
    exact hshape.grants (h.grants_attach Nat.one_pos hfresh hg)

/-- **Pages of its own** for a big request. -/
theorem attach_big (h : s.Sound live ∅) {pages pageCnt size : ℕ} (hcnt : 0 < pageCnt)
    (hfresh : s.Fresh pages pageCnt) (hsize : size + arenaSize ≤ pgSize * pageCnt) :
    (s.attach pages pageCnt ⟨arenaMagic, none, pageCnt⟩).Sound
      (⟨pages + arenaSize, size⟩ :: live) ∅ := by
  set t := s.attach pages pageCnt ⟨arenaMagic, none, pageCnt⟩ with ht
  have hlayout : t.Layout := h.toLayout.attach hcnt hfresh rfl (fun _ => rfl) nofun
  have hset : ∀ i, t.Arenas i = s.Arenas i := by
    intro i
    ext a
    rw [mem_arenas_attach hfresh hcnt h.toLayout]
    simp
  have hrun : (⟨pages, pgSize * pageCnt⟩ : Extent) ∈ t.owned := mem_cons_self
  have hdesc : (t.arenas pages).desc = none := by simp [ht]
  have hblock : t.IsBlock ⟨pages, pgSize * pageCnt⟩ (pages + arenaSize) :=
    (isBlock_none hdesc).mpr rfl
  have hround : pgRoundDown (pages + arenaSize) = pages := hlayout.pgRoundDown_block hrun hblock
  refine ⟨hlayout, ?_, ?_, ?_, ?_⟩
  · intro i hi
    rw [hset, addrs_cons]
    refine (h.slabs i hi).congr_live fun a ha b hb => ?_
    have hne : b ≠ pages + arenaSize := by
      intro heq
      have howner := (h.desc_of_mem hi ha hb).1
      rw [heq, hround] at howner
      exact h.notMem_arenas hcnt hfresh i (howner ▸ ha)
    simp [hne]
  · intro i hi a ha
    rw [hset] at ha
    have hne : a ≠ pages := fun heq => h.notMem_arenas hcnt hfresh i (heq ▸ ha)
    have hsame : t.arenas a = s.arenas a := arenas_attach hne
    rw [hsame]
    exact h.count i hi a ha
  · refine nodup_cons.mpr ⟨fun hmem => ?_, h.nodup⟩
    obtain ⟨g, hg, haddr⟩ := mem_map.mp hmem
    exact h.old_ne hcnt hfresh hg (haddr ▸ hround)
  · intro g hg
    rcases mem_cons.mp hg with rfl | hg
    · refine ⟨_, hrun, hblock, ?_⟩
      have hstop := hfresh.2.2.1
      have halign := hfresh.1
      have hfree : (t.arenas pages).freeCnt = pageCnt := by simp [ht]
      unfold room
      simp only [hround, hdesc, pgOfs_eq, pgSize, sizeLimit, arenaSize] at *
      omega
    · exact h.grants_attach hcnt hfresh hg

theorem grants_detach (h : s.Layout) {g : Grant} (hg : s.Grants g)
    (hnot : ¬ s.IsBlock run g.addr) (memory : ℕ → UInt8) : (s.detach run memory).Grants g := by
  obtain ⟨run', hrun', hblock, hsize⟩ := hg
  have hne : run' ≠ run := fun heq => hnot (heq ▸ hblock)
  exact ⟨run', h.nodup_owned.mem_erase_iff.mpr ⟨hne, hrun'⟩, hblock, hsize⟩

/-- **An arena without live blocks is given back.** -/
theorem drop (h : s.Sound live {run.start}) (hrun : run ∈ s.owned)
    (hdesc : (s.arenas run.start).desc = some d)
    (hall : (s.arenas run.start).freeCnt = (s.descs d).blocksPerArena) (memory : ℕ → UInt8) :
    ((s.setFreeList d ((s.descs d).freeList.diff ((s.descs d).blocks run.start))).detach run
      memory).Sound live ∅ := by
  have hd := (h.small run hrun d hdesc).1
  have ha : run.start ∈ s.Arenas d := ⟨⟨run, hrun, rfl⟩, hdesc⟩
  have hslabs := h.slabs d hd
  have hsubset := hslabs.subset_of_freeCount (a := run.start) (by
    rw [Desc.length_blocks, ← hall]
    exact le_of_eq (h.count d hd _ ha).1)
  have hshape := reshaped_setFreeList s d ((s.descs d).freeList.diff ((s.descs d).blocks run.start))
  set t := s.setFreeList d ((s.descs d).freeList.diff ((s.descs d).blocks run.start)) with ht
  have hlayout : t.Layout := hshape.layout h.toLayout
  have hset : ∀ i, (t.detach run memory).Arenas i = s.Arenas i \ {run.start} := by
    intro i
    rw [arenas_detach hlayout hrun, hshape.arenas_eq]
  -- The arena has no descriptor but `d`.
  have hother : ∀ i, i ≠ d → s.Arenas i \ {run.start} = s.Arenas i := by
    intro i hne
    refine Set.sdiff_singleton_eq_self fun hmem => hne ?_
    exact Option.some.inj (hmem.2.symm.trans hdesc)
  refine ⟨hlayout.detach run memory, ?_, ?_, h.nodup, ?_⟩
  · intro i hi
    have hblocks : ((t.detach run memory).descs i).blocks = (s.descs i).blocks := hshape.blocks i
    rw [hset]
    by_cases heq : i = d
    · subst heq
      simp only [detach, ht, setFreeList, update_self]
      exact hslabs.drop ha
    · rw [hother i heq]
      simp only [detach, ht, setFreeList, update_of_ne heq]
      exact h.slabs i hi
  · intro i hi a hmem
    rw [hset] at hmem
    obtain ⟨hmem, hne⟩ := hmem
    obtain ⟨hcount, hpartly⟩ := h.count i hi a hmem
    have hcnt : ((t.detach run memory).descs i).blocksPerArena = (s.descs i).blocksPerArena :=
      hshape.blocksPerArena i
    rw [hcnt]
    refine ⟨?_, fun _ => hpartly hne⟩
    by_cases heq : i = d
    · subst heq
      simp only [detach, ht, setFreeList, update_self]
      rwa [hslabs.freeCount_drop ha hne]
    · simp only [detach, ht, setFreeList, update_of_ne heq]
      exact hcount
  · intro g hg
    refine grants_detach hlayout (hshape.grants (h.grants g hg)) (fun hblock => ?_) memory
    -- All blocks of the arena are free, so none is live.
    have hfree := hsubset ((isBlock_some hdesc).mp (hshape.isBlock.mp hblock))
    exact ((hslabs.mem_iff g.addr).mp hfree).2 (mem_map_of_mem hg)

/-- **A big block is given back.** -/
theorem detach_big (h : s.Sound live ∅) (hrun : run ∈ s.owned)
    (hdesc : (s.arenas run.start).desc = none) (hblock : s.IsBlock run b)
    (memory : ℕ → UInt8) : (s.detach run memory).Sound (release b live) ∅ := by
  have hb := (isBlock_none hdesc).mp hblock
  have hround := h.pgRoundDown_block hrun hblock
  have hset : ∀ i, (s.detach run memory).Arenas i = s.Arenas i := by
    intro i
    rw [arenas_detach h.toLayout hrun]
    refine Set.sdiff_singleton_eq_self fun hmem => ?_
    have hsome := hmem.2
    rw [hdesc] at hsome
    cases hsome
  refine ⟨h.toLayout.detach run memory, ?_, ?_, h.nodup_release b, ?_⟩
  · intro i hi
    rw [hset, addrs_release]
    refine (h.slabs i hi).congr_live fun a ha c hc => ?_
    have hne : c ≠ b := by
      intro heq
      obtain ⟨howner, hsome⟩ := h.desc_of_mem hi ha hc
      rw [heq, hround] at howner
      rw [← howner, hdesc] at hsome
      cases hsome
    simp [hne]
  · intro i hi a ha
    rw [hset] at ha
    exact h.count i hi a ha
  · intro g hg
    obtain ⟨hg, hne⟩ := mem_filter.mp hg
    refine grants_detach h.toLayout (h.grants g hg) (fun hblock' => ?_) memory
    exact of_decide_eq_true hne (((isBlock_none hdesc).mp hblock').trans hb.symm)

theorem setMemory (h : s.Sound live full) (memory : ℕ → UInt8) :
    (s.setMemory memory).Sound live full :=
  ⟨(reshaped_setMemory s memory).layout h.toLayout, h.slabs, h.count, h.nodup,
    fun g hg => (reshaped_setMemory s memory).grants (h.grants g hg)⟩

theorem addr_ne_zero (h : s.Sound live full) (hb : b ∈ addrs live) : b ≠ 0 := by
  obtain ⟨g, hg, rfl⟩ := mem_map.mp hb
  obtain ⟨run, hrun, hblock, -⟩ := h.grants g hg
  have hwithin := h.block_within hrun hblock
  rw [arenaSize] at hwithin
  omega

theorem release_zero (h : s.Sound live full) : release 0 live = live := by
  refine filter_eq_self.mpr fun g hg => decide_eq_true ?_
  exact h.addr_ne_zero (mem_map_of_mem hg)

theorem settle (h : s.Sound live {a}) (ha : a ∈ s.Arenas d)
    (hlt : (s.arenas a).freeCnt < (s.descs d).blocksPerArena) : s.Sound live ∅ := by
  refine ⟨h.toLayout, h.slabs, ?_, h.nodup, h.grants⟩
  intro i hi a' ha'
  obtain ⟨hcount, hpartly⟩ := h.count i hi a' ha'
  refine ⟨hcount, fun _ => ?_⟩
  by_cases heq : a' = a
  · subst heq
    have hid : i = d := Option.some.inj (ha'.2.symm.trans ha.2)
    rwa [hid]
  · exact hpartly heq

end Sound

/-! ## The pages of the page allocator

`Fresh` is what `palloc_get_multiple` promises for its result. -/

theorem fresh_of_palloc {p : PageSystem} {palloc : Palloc} {freeStart userStart freeEnd : ℕ}
    (h : p.Sound freeStart userStart freeEnd) {flags : PallocFlags} {pages pageCnt : ℕ}
    (hcnt : 0 < pageCnt) (hget : p.palloc.pallocGetMultiple flags pageCnt = .ok (pages, palloc))
    (hne : pages ≠ 0) (howned : ∀ run ∈ s.owned, ∃ a ∈ p.live, a.extent = run) :
    s.Fresh pages pageCnt := by
  rcases h.get flags hcnt with ⟨-, hnull | ⟨-, hpanic⟩⟩ | ⟨pages', palloc', -, hget', hsound⟩
  · rw [hget] at hnull
    cases hnull
    exact absurd rfl hne
  · rw [hget] at hpanic
    cases hpanic
  rw [hget] at hget'
  cases hget'
  obtain ⟨bookings, hlive, -⟩ := hsound.booked
  obtain ⟨b, hb, heq⟩ := mem_map.mp (hlive ▸ mem_cons_self :
    (⟨pages, pageCnt, flags.user⟩ : Allocation) ∈ bookings.map palloc.allocation)
  have hpages : (palloc.pool b.key).base + pgSize * b.start = pages :=
    congrArg Allocation.pages heq
  have halign := hsound.laid.aligned b.key
  have hwithin := hsound.within mem_cons_self
  have hstop := hsound.laid.stop_le flags.user
  unfold Extent.Within Extent.stop Allocation.extent Pool.pages at hwithin
  unfold Palloc.size at hstop
  simp only at hwithin hstop
  refine ⟨?_, Nat.pos_of_ne_zero hne, ?_, ?_⟩
  · simp only [pgSize] at hpages halign ⊢
    omega
  · omega
  · intro run hrun
    obtain ⟨a, ha, rfl⟩ := howned run hrun
    exact (pairwise_cons.mp hsound.apart).1 a ha

/-! ## The functions keep the invariant -/

theorem setFreeList_setFreeList (s : Malloc) (d : ℕ) (l l' : List ℕ) :
    (s.setFreeList d l).setFreeList d l' = s.setFreeList d l' := by
  simp

theorem setFreeList_self (s : Malloc) (d : ℕ) : s.setFreeList d (s.descs d).freeList = s := by
  simp

@[simp] theorem freeList_setFreeList (s : Malloc) (d : ℕ) (l : List ℕ) :
    ((s.setFreeList d l).descs d).freeList = l := by
  simp

theorem pallocGetMultiple_spec (supply pageCnt : ℕ) :
    Returns (pallocGetMultiple supply pageCnt) s fun p t =>
      ¬ (0 < pageCnt ∧ s.Fresh supply pageCnt) ∧ p = 0 ∧ t = s ∨
        0 < pageCnt ∧ s.Fresh supply pageCnt ∧ p = supply ∧
          t = { s with owned := ⟨supply, pgSize * pageCnt⟩ :: s.owned } :=
  Spec.get_bind <| Spec.ite
    (fun hfresh => .set_bind (Spec.pure (.inr ⟨hfresh.1, hfresh.2, rfl, rfl⟩)))
    fun hnot => .pure (.inl ⟨hnot, rfl, rfl⟩)

theorem run_pallocFreeMultiple {pageCnt : ℕ} (hrun : run ∈ s.owned) (hpos : run.start ≠ 0)
    (hcnt : pageCnt ≠ 0) (hsize : run.size = pgSize * pageCnt) :
    (pallocFreeMultiple run.start pageCnt).run s = .ok ((), s.detach run
      (memset s.memory run.start 0xcc (pgSize * pageCnt))) := by
  obtain ⟨start, size⟩ := run
  simp only at hsize hpos
  subst hsize
  unfold pallocFreeMultiple
  have hskip : ¬ (start = 0 ∨ pageCnt = 0) := by omega
  rw [StateT.run_bind, StateT.run_get, pure_bind, if_neg hskip, if_neg (not_not_intro hrun)]
  rfl

/-- The pages hold the request unless its size is close to the greatest. -/
theorem divRoundUp_room {size : ℕ} (hsize : size < sizeLimit - 11)
    (hcnt : 0 < divRoundUp ((size + arenaSize) % sizeLimit) pgSize) :
    size + arenaSize ≤ pgSize * divRoundUp ((size + arenaSize) % sizeLimit) pgSize := by
  unfold divRoundUp at *
  simp only [sizeLimit, arenaSize, pgSize] at *
  omega

/-- The number of pages for a big request. -/
def pagesFor (size : ℕ) : ℕ := divRoundUp ((size + arenaSize) % sizeLimit) pgSize

/-- There is memory for the request. -/
def Serves (s : Malloc) (supply size : ℕ) : Prop :=
  size ≠ 0 ∧ match s.findDesc size with
    | none => 0 < pagesFor size ∧ s.Fresh supply (pagesFor size)
    | some d => (s.descs d).freeList ≠ [] ∨ s.Fresh supply 1

/-- What the caller can rely on: the size that was asked for, or nothing if it is close to the
greatest. -/
def Holds (held size : ℕ) : Prop := held = size ∧ size < sizeLimit - 11 ∨ held = 0

theorem mallocBig_spec (h : s.Sound live ∅) (supply : ℕ) {size held : ℕ} (hheld : Holds held size) :
    Returns (mallocBig supply size) s fun p s' =>
      s'.Sound (grant p held live) ∅ ∧ s.Keeps live s' ∧
        (p ≠ 0 ↔ 0 < pagesFor size ∧ s.Fresh supply (pagesFor size)) := by
  refine .seq (pallocGetMultiple_spec supply (pagesFor size)) fun a t ht => ?_
  rcases ht with ⟨hnot, rfl, rfl⟩ | ⟨hcnt, hfresh, rfl, rfl⟩
  · exact .ite_pos rfl (Spec.pure ⟨h, .refl _ live, iff_of_false (· rfl) hnot⟩)
  have hne := ne_of_gt hfresh.2.1
  refine .ite_neg hne ?_
  refine .modify_bind (Spec.pure ⟨?_, ⟨rfl, fun g hg => ?_⟩, ?_⟩)
  · rw [grant]
    refine h.attach_big hcnt hfresh ?_
    rcases hheld with ⟨rfl, hsize⟩ | rfl
    · exact divRoundUp_room hsize hcnt
    · exact le_trans (by decide) (Nat.le_mul_of_pos_right pgSize hcnt)
  · exact @room_attach s _ _ (pagesFor size) _ (h.old_ne hcnt hfresh hg)
  · exact iff_of_true (by omega) ⟨hcnt, hfresh⟩

/-- A loop that changes one free list. -/
theorem run_listLoop {body : ℕ → MallocM Unit} (lists : ℕ → List ℕ)
    (hstart : lists 0 = (s.descs d).freeList) (n : ℕ)
    (hround : ∀ i < n, (body i).run (s.setFreeList d (lists i)) =
      .ok ((), s.setFreeList d (lists (i + 1)))) :
    (forUpto body n 0).run s = .ok ((), s.setFreeList d (lists n)) := by
  have hloop := run_forUpto (fun i => s.setFreeList d (lists i)) n 0
    fun i _ hi => hround i (by omega)
  simpa only [hstart, setFreeList_self, zero_add] using hloop

section

variable (h : s.Layout) (hrun : run ∈ s.owned) (hdesc : (s.arenas run.start).desc = some d)
include h hrun hdesc

theorem Layout.run_arenaToBlock_setFreeList {i : ℕ} (hi : i < (s.descs d).blocksPerArena)
    (freeList : List ℕ) : (arenaToBlock run.start i).run (s.setFreeList d freeList) =
      .ok (run.start + arenaSize + i * (s.descs d).blockSize, s.setFreeList d freeList) := by
  have hshape := reshaped_setFreeList s d freeList
  rw [← hshape.blocksPerArena] at hi
  rw [← hshape.blockSize]
  exact (hshape.layout h).run_arenaToBlock hrun hdesc hi

/-- The loop of `malloc` that puts the blocks of an arena on the free list. -/
theorem pushLoop_spec : (forUpto (pushBlock run.start d) (s.descs d).blocksPerArena 0).run s =
      .ok ((), s.setFreeList d ((s.descs d).freeList ++ (s.descs d).blocks run.start)) := by
  -- After `i` rounds the first `i` blocks are on the list.
  refine run_listLoop (fun i => (s.descs d).freeList ++
    (range i).map fun i => run.start + arenaSize + i * (s.descs d).blockSize) (by simp) _ ?_
  intro i hi
  simp only [pushBlock, StateT.run_bind, h.run_arenaToBlock_setFreeList hrun hdesc hi, ok_bind,
    StateT.run_modify, freeList_setFreeList, setFreeList_setFreeList, range_succ,
    map_append, map_singleton, append_assoc]
  rfl

/-- The loop of `free` that takes the blocks of an arena off the free list. -/
theorem removeLoop_spec (hsubset : (s.descs d).blocks run.start ⊆ (s.descs d).freeList)
    (hnodup : (s.descs d).freeList.Nodup) :
    (forUpto (removeBlock run.start d) (s.descs d).blocksPerArena 0).run s =
      .ok ((), s.setFreeList d ((s.descs d).freeList.diff ((s.descs d).blocks run.start))) := by
  have hfits := h.fits d (h.small run hrun d hdesc).1
  -- After `i` rounds the first `i` blocks are off the list.
  refine run_listLoop (fun i => (s.descs d).freeList.diff
    ((range i).map fun i => run.start + arenaSize + i * (s.descs d).blockSize)) (by simp) _ ?_
  intro i hi
  have hmem : run.start + arenaSize + i * (s.descs d).blockSize ∈ (s.descs d).freeList.diff
      ((range i).map fun i => run.start + arenaSize + i * (s.descs d).blockSize) := by
    rw [hnodup.mem_sdiff_iff]
    refine ⟨hsubset (Desc.mem_blocks.mpr ⟨i, hi, rfl⟩), ?_⟩
    intro hearlier
    obtain ⟨j, hj, heq⟩ := mem_map.mp hearlier
    have hmul : j * (s.descs d).blockSize = i * (s.descs d).blockSize := by omega
    have hji := Nat.eq_of_mul_eq_mul_right hfits.positive hmul
    exact absurd (mem_range.mp hj) (by omega)
  simp only [removeBlock, StateT.run_bind, h.run_arenaToBlock_setFreeList hrun hdesc hi, ok_bind,
    listRemove, StateT.run_get, pure_bind, freeList_setFreeList, if_neg (not_not_intro hmem),
    StateT.run_set, setFreeList_setFreeList, range_succ, map_append,
    map_singleton, diff_append, diff_cons, diff_nil]
  rfl

end

/-- `malloc` has a block on the free list, or there is no page. -/
theorem refill_spec (h : s.Sound live ∅) (hd : d < s.descCnt) (supply : ℕ) :
    Returns (refill supply d) s fun ready s' =>
      ready = false ∧ s' = s ∧ ¬ ((s.descs d).freeList ≠ [] ∨ s.Fresh supply 1) ∨
        ready = true ∧ ((s.descs d).freeList ≠ [] ∨ s.Fresh supply 1) ∧ s.Keeps live s' ∧
          ∃ full b rest, s'.Sound live full ∧ d < s'.descCnt ∧
            (s'.descs d).blockSize = (s.descs d).blockSize ∧
            (s'.descs d).freeList = b :: rest ∧ ∀ a ∈ full, a = pgRoundDown b := by
  refine .get_bind (Spec.ite (fun hne => ?_) fun hempty => ?_)
  · obtain ⟨b, rest, hlist⟩ := exists_cons_of_ne_nil hne
    exact .pure (.inr ⟨rfl, .inl hne, .refl s live, ∅, b, rest, h, hd, rfl, hlist,
      fun a ha => ha.elim⟩)
  refine .seq (pallocGetMultiple_spec supply 1) fun a t ht => ?_
  rcases ht with ⟨hnot, rfl, rfl⟩ | ⟨-, hfresh, rfl, rfl⟩
  · refine .ite_pos rfl (Spec.pure (.inl ⟨rfl, rfl, ?_⟩))
    exact fun hserved => hserved.elim hempty fun hfresh => hnot ⟨Nat.one_pos, hfresh⟩
  refine .ite_neg (ne_of_gt hfresh.2.1) ?_
  set t := s.attach a 1 ⟨arenaMagic, some d, (s.descs d).blocksPerArena⟩ with ht
  have hlayout : t.Layout := h.toLayout.attach Nat.one_pos hfresh rfl
    (nofun) fun i hi => ⟨Option.some.inj hi ▸ hd, rfl⟩
  have hnew : (⟨a, pgSize * 1⟩ : Extent) ∈ t.owned := mem_cons_self
  have hdesc : (t.arenas a).desc = some d := by simp [ht]
  have hshape := reshaped_setFreeList t d ((s.descs d).freeList ++ (s.descs d).blocks a)
  refine .modify_bind (Spec.bind (returns_iff.mpr
    ⟨_, _, pushLoop_spec hlayout hnew hdesc, Spec.pure (.inr ⟨rfl, .inr hfresh, ?_, ?_⟩)⟩))
  · exact ⟨rfl, fun g hg => (hshape.room g.addr).trans
      (room_attach (h.old_ne Nat.one_pos hfresh hg))⟩
  -- The head of the list is a block of the new arena.
  have hnonempty : (s.descs d).blocks a ≠ [] := by
    apply ne_nil_of_length_pos
    rw [Desc.length_blocks]
    exact (h.fits d hd).nonempty
  obtain ⟨b, rest, hblocks⟩ := exists_cons_of_ne_nil hnonempty
  have hround := (h.fits d hd).pgRoundDown_block hfresh.1 (by simpa using hfresh.2.2.1)
    (hblocks ▸ mem_cons_self : b ∈ (s.descs d).blocks a)
  refine ⟨{a}, b, rest, h.attach_small hd hfresh, hd, hshape.blockSize d, ?_,
    fun _ ha => ha.trans hround.symm⟩
  rw [freeList_setFreeList]
  exact (congrArg (· ++ _) (not_not.mp hempty)).trans hblocks

theorem findDesc_some {size : ℕ} (hfind : s.findDesc size = some d) :
    d < s.descCnt ∧ size ≤ (s.descs d).blockSize := by
  have hmem := mem_of_find?_eq_some hfind
  have htest := find?_some hfind
  exact ⟨mem_range.mp hmem, of_decide_eq_true htest⟩

/-- **`malloc`** returns a block that is big enough if there is memory for it. -/
theorem malloc_spec (h : s.Sound live ∅) (supply : ℕ) {size held : ℕ} (hheld : Holds held size) :
    Returns (malloc supply size) s fun p s' =>
      s'.Sound (grant p held live) ∅ ∧ s.Keeps live s' ∧
        (p ≠ 0 ↔ s.Serves supply size) := by
  unfold Serves
  refine .ite (fun hzero => .pure ⟨h, .refl s live, iff_of_false (· rfl) fun hs =>
    hs.1 hzero⟩) fun hzero => .get_bind ?_
  cases hfind : s.findDesc size with
  | none =>
    exact (mallocBig_spec h supply hheld).post fun p s' ⟨hsound, hkeeps, hserved⟩ =>
      ⟨hsound, hkeeps, hserved.trans (and_iff_right hzero).symm⟩
  | some d =>
    obtain ⟨hd, hle⟩ := findDesc_some hfind
    refine .seq (refill_spec h hd supply) fun ready t ht => ?_
    rcases ht with ⟨rfl, rfl, hnot⟩ |
      ⟨rfl, hserved, hkeeps, full, b, rest, ht, hdt, hbs, hlist, hfull⟩
    · exact .pure ⟨h, .refl _ live, iff_of_false (· rfl) fun hs => hnot hs.2⟩
    have hsize : held ≤ (t.descs d).blockSize := by
      unfold Holds at hheld
      omega
    obtain ⟨s', htake, hsound, hne, hkeeps'⟩ := ht.take hdt hlist hfull hsize
    refine returns_iff.mpr ⟨b, s', htake, ?_, ⟨hkeeps'.memory.trans hkeeps.memory, fun g hg =>
      (hkeeps'.room g hg).trans (hkeeps.room g hg)⟩, iff_of_true hne ⟨hzero, hserved⟩⟩
    rwa [grant, if_neg hne]

theorem run_blockSize (h : s.Sound live full) (hb : b ∈ addrs live) :
    (blockSize b).run s = .ok (s.room b, s) := by
  obtain ⟨g, hg, rfl⟩ := mem_map.mp hb
  obtain ⟨run, hrun, hblock, -⟩ := h.grants g hg
  unfold blockSize
  rw [StateT.run_bind, h.run_blockToArena hrun hblock]
  rfl

theorem run_memsetBlock {size : ℕ} (value : UInt8) (hsize : size ≤ s.room b) :
    (memsetBlock b value size).run s = .ok ((), s.setMemory (memset s.memory b value size)) := by
  unfold memsetBlock
  simp only [StateT.run_bind, StateT.run_get, pure_bind, if_neg (not_lt.mpr hsize)]
  rfl

theorem releaseArena_spec (h : s.Sound live {run.start}) (hrun : run ∈ s.owned)
    (hdesc : (s.arenas run.start).desc = some d)
    (hfull : (s.descs d).blocksPerArena ≤ (s.arenas run.start).freeCnt) :
    Returns (releaseArena d run.start) s fun _ s' => s'.Sound live ∅ ∧ s.Spares b s' := by
  obtain ⟨hd, hsize⟩ := h.small run hrun d hdesc
  have ha : run.start ∈ s.Arenas d := ⟨⟨run, hrun, rfl⟩, hdesc⟩
  have hcount := (h.count d hd _ ha).1
  have hall : (s.arenas run.start).freeCnt = (s.descs d).blocksPerArena := by
    have hle := (h.freeCount_lt hd run.start).1
    omega
  have hsubset := (h.slabs d hd).subset_of_freeCount (a := run.start) (by
    rw [Desc.length_blocks]
    omega)
  have hloop := removeLoop_spec h.toLayout hrun hdesc hsubset (h.slabs d hd).nodup
  have hshape := reshaped_setFreeList s d ((s.descs d).freeList.diff ((s.descs d).blocks run.start))
  refine .get_bind (Spec.ite_neg (· hall) ?_)
  refine .bind (returns_iff.mpr ⟨_, _, hloop, returns_iff.mpr ⟨_, _, run_pallocFreeMultiple hrun
    (ne_of_gt (h.page run hrun).2.1) Nat.one_ne_zero hsize, h.drop hrun hdesc hall _, ?_⟩⟩)
  exact (hshape.spares fun _ => .inl rfl).trans
    ((hshape.layout h.toLayout).spares_detach hrun hsize)

/-- The bytes of a block stay when another one is freed. -/
theorem Sound.bytes_spared {g g' : Grant} (h' : s'.Sound live' full') (h : s.Sound live full)
    (hspares : s.Spares g'.addr s') (hmem' : g ∈ live') (hmem : g ∈ live) (hother : g' ∈ live)
    (hne : g.addr ≠ g'.addr) {k : ℕ} (hk : k < s.room g.addr) :
    s'.memory (g.addr + k) = s.memory (g.addr + k) := by
  obtain ⟨run, hrun, hblock, -⟩ := h.grants g hmem
  obtain ⟨freed, hfreed, hfreedBlock, -⟩ := h.grants g' hother
  obtain ⟨run', hrun', hblock', -⟩ := h'.grants g hmem'
  have hwithin := h'.block_within hrun' hblock'
  rw [hspares.room] at hwithin
  have hapart := h.blocks_apart hrun hfreed hblock hfreedBlock hne
  rcases hspares.memory (g.addr + k) with hsame | hin | ⟨gone, hgone, hnot, hin⟩
  · exact hsame
  · unfold Extent.Apart Extent.stop extent at hapart
    simp only at hapart
    omega
  · have hpages := h.apart.forall hgone (hspares.owned hrun') fun heq => hnot (heq ▸ hrun')
    unfold Extent.Apart Extent.stop at *
    rw [arenaSize] at hwithin
    omega

/-- A block that has been handed out. -/
theorem Sound.room_grant {p size : ℕ} (h : s.Sound (grant p size live) full)
    (hp : p ≠ 0) : size ≤ s.room p ∧ s.room p < sizeLimit - 11 := by
  obtain ⟨run, hrun, hblock, hsize⟩ := h.grants ⟨p, size⟩ (by
    rw [grant, if_neg hp]
    exact mem_cons_self)
  have hwithin := h.block_within hrun hblock
  have hstop := (h.page run hrun).2.2
  simp only [arenaSize] at *
  omega

/-- **`free`** of a live block. -/
theorem free_spec (h : s.Sound live ∅) (hb : b ∈ addrs live) :
    Returns (free b) s fun _ s' => s'.Sound (release b live) ∅ ∧ s.Spares b s' := by
  obtain ⟨g, hg, rfl⟩ := mem_map.mp hb
  obtain ⟨run, hrun, hblock, -⟩ := h.grants g hg
  refine .ite_neg (h.addr_ne_zero hb) ?_
  refine .bind (returns_iff.mpr ⟨_, _, h.run_blockToArena hrun hblock, Spec.get_bind ?_⟩)
  cases hdesc : (s.arenas run.start).desc with
  | none =>
    obtain ⟨hcnt, hsize⟩ := h.big run hrun hdesc
    have hpos := ne_of_gt (h.page run hrun).2.1
    exact returns_iff.mpr ⟨_, _, run_pallocFreeMultiple hrun hpos (ne_of_gt hcnt) hsize,
      h.detach_big hrun hdesc hblock _, h.spares_detach hrun hsize⟩
  | some d =>
    have hd := (h.small run hrun d hdesc).1
    have ha : run.start ∈ s.Arenas d := ⟨⟨run, hrun, rfl⟩, hdesc⟩
    have hmem := (isBlock_some hdesc).mp hblock
    obtain ⟨-, -, -, -, hroom⟩ := h.block_of_mem ha hmem
    have hfill := run_memsetBlock (s := s) 0xcc (le_of_eq hroom.symm)
    set t := s.setMemory (memset s.memory g.addr 0xcc (s.descs d).blockSize) with ht
    have hgive := (h.setMemory (memset s.memory g.addr 0xcc (s.descs d).blockSize)).give hd ha
      hmem (mem_map_of_mem hg)
    rw [← ht] at hgive
    have hmod : ((t.arenas run.start).freeCnt + 1) % sizeLimit =
        (t.arenas run.start).freeCnt + 1 := by
      have hlt := (h.count d hd _ ha).2 (Set.notMem_empty _)
      have hbound := (h.freeCount_lt hd run.start).2
      apply Nat.mod_eq_of_lt
      simp only [sizeLimit, pgSize] at hbound ⊢
      change (s.arenas run.start).freeCnt + 1 < _
      omega
    have hsome :
        ((t.setFreeList d (g.addr :: (t.descs d).freeList)).arenas run.start).desc ≠ none :=
      fun hnone => nomatch hdesc.symm.trans hnone
    have hshape := (reshaped_setMemory s (memset s.memory g.addr 0xcc (s.descs d).blockSize)).trans
      ((reshaped_setFreeList t d _).trans
        (reshaped_setFreeCnt hsome ((t.arenas run.start).freeCnt + 1)))
    have hspares := hshape.spares (b := g.addr) fun addr => by
      rw [hroom]
      exact (em' _).imp_left fun hout => if_neg hout
    refine .bind (returns_iff.mpr ⟨_, _, hfill, Spec.modify_bind (Spec.bind (Spec.modify ?_))⟩)
    change Spec _ _ ((t.setFreeList d (g.addr :: (t.descs d).freeList)).setFreeCnt run.start
      (((t.arenas run.start).freeCnt + 1) % sizeLimit)) _
    rw [hmod]
    have hudesc := (hshape.desc run.start).trans hdesc
    refine .get_bind (Spec.ite (fun hfull => ?_) fun hfull => ?_)
    · exact (releaseArena_spec hgive hrun hudesc hfull).post fun _ s' ⟨hsound, hspares'⟩ =>
        ⟨hsound, hspares.trans hspares'⟩
    · exact .pure ⟨hgive.settle ⟨⟨run, hrun, rfl⟩, hudesc⟩ (not_le.mp hfull), hspares⟩

/-- If the caller cannot rely on the size that was asked for, the block may be too small to be
cleared. -/
theorem calloc_spec {E : Fault → Prop} (h : s.Sound live ∅) (supply x y : ℕ) {held : ℕ}
    (hheld : Holds held (x * y % sizeLimit)) (hE : held = x * y % sizeLimit ∨ ∀ f, E f) :
    Spec E (calloc supply x y) s fun p s' => s'.Sound (grant p held live) ∅ := by
  refine .ite (fun _ => .pure h) fun _ =>
    .seq (.of_returns (malloc_spec h supply hheld)) fun p t ⟨hsound, _⟩ => ?_
  refine .ite (fun hp => ?_) fun _ => .pure hsound
  refine .bind (Spec.get_bind (Spec.ite (fun hsmall => .throw ?_)
    fun _ => .set (Spec.pure (hsound.setMemory _))))
  refine hE.elim (fun heq => ?_) fun hE => hE _
  exact absurd (heq ▸ (hsound.room_grant hp).1) (not_le.mpr hsmall)

theorem realloc_spec {E : Fault → Prop} (h : s.Sound live ∅) (supply : ℕ)
    {oldBlock newSize held : ℕ} (hold : oldBlock = 0 ∨ oldBlock ∈ addrs live)
    (hheld : Holds held newSize) (hE : held = newSize ∨ ∀ f, E f) :
    Spec E (realloc supply oldBlock newSize) s fun p s' =>
      s'.Sound (if p = 0 ∧ newSize ≠ 0 then live
        else grant p held (release oldBlock live)) ∅ ∧
      (p ≠ 0 → oldBlock ≠ 0 → ∀ k < min (s.room oldBlock) newSize,
        s'.memory (p + k) = s.memory (oldBlock + k)) := by
  refine .ite (fun hzero => ?_) fun hzero => ?_
  · -- A request for nothing frees the block.
    rw [hzero]
    simp only [ne_eq]
    rcases hold with rfl | hold
    · exact .bind (Spec.pure (Spec.pure ⟨h.release_zero.symm ▸ h, fun hp => absurd rfl hp⟩))
    · exact .seq (.of_returns (free_spec h hold)) fun _ s' ⟨hsound, _⟩ =>
        .pure ⟨hsound, fun hp => absurd rfl hp⟩
  refine .seq (.of_returns (malloc_spec h supply hheld)) fun p t ⟨ht, hkeeps, _⟩ => ?_
  by_cases hp : p = 0
  · -- The old block stays if there is no new one.
    refine .ite (fun hboth => absurd hp hboth.2) fun _ => .pure ⟨?_, absurd hp⟩
    subst hp
    rwa [if_pos ⟨rfl, hzero⟩]
  have hroom := (ht.room_grant hp).1
  have hlist : (if p = 0 ∧ newSize ≠ 0 then live
      else grant p held (release oldBlock live)) =
        ⟨p, held⟩ :: release oldBlock live := by
    rw [if_neg (fun hnull => hp hnull.1), grant, if_neg hp]
  rw [grant, if_neg hp] at ht
  rcases hold with rfl | hold
  · refine .ite (fun hboth => absurd rfl hboth.1) fun _ => .pure ⟨?_, fun _ => absurd rfl⟩
    rwa [hlist, h.release_zero]
  refine .ite_pos ⟨h.addr_ne_zero hold, hp⟩ ?_
  have holdt : oldBlock ∈ addrs (⟨p, held⟩ :: live) := mem_cons_of_mem _ hold
  refine .bind (Spec.of_returns (returns_iff.mpr ⟨_, _, run_blockSize ht holdt, ?_⟩))
  generalize hmin : (if newSize < t.room oldBlock then newSize else t.room oldBlock) = minSize
  have hdistinct : p ≠ oldBlock := by
    intro heq
    subst heq
    exact (nodup_cons.mp ht.nodup).1 hold
  have hrelease : release oldBlock (⟨p, held⟩ :: live) = ⟨p, held⟩ :: release oldBlock live := by
    simp [release, hdistinct]
  have hcopied := ht.setMemory fun addr =>
    if p ≤ addr ∧ addr < p + minSize then t.memory (oldBlock + (addr - p)) else t.memory addr
  refine .bind (Spec.get_bind (Spec.ite (fun hsmall => .throw ?_) fun hcopy => Spec.set ?_))
  · refine hE.elim (fun heq => absurd hsmall ?_) fun hE => hE _
    rw [← hmin]
    split <;> omega
  refine .seq (.of_returns (free_spec hcopied holdt)) fun _ s' ⟨hsound, hspares⟩ => .pure ⟨?_, ?_⟩
  · rwa [hlist, ← hrelease]
  intro _ _ k hk
  obtain ⟨g, hg, rfl⟩ := mem_map.mp hold
  have hsame := hkeeps.room g hg
  have hlt : k < minSize := by
    rw [← hmin]
    split <;> omega
  rw [hrelease] at hsound
  rw [hsound.bytes_spared hcopied hspares mem_cons_self mem_cons_self
    (mem_cons_of_mem _ hg) hdistinct (show k < t.room p by omega)]
  show (if p ≤ p + k ∧ p + k < p + minSize then _ else _) = _
  rw [if_pos (by omega), Nat.add_sub_cancel_left, hkeeps.memory]

/-- Every descriptor that `malloc_init` sets up has blocks, and they fit in a page. -/
theorem initLoop_spec {fuel size : ℕ} (hpos : 0 < size)
    (hdescs : ∀ d < s.descCnt, (s.descs d).Fits ∧ (s.descs d).freeList = [])
    (hloop : initLoop fuel size s = .ok s') :
    s'.owned = s.owned ∧ ∀ d < s'.descCnt, (s'.descs d).Fits ∧ (s'.descs d).freeList = [] := by
  induction fuel generalizing size s with
  | zero => cases hloop
  | succ fuel ih =>
    unfold initLoop at hloop
    by_cases hsize : size < pgSize / 2
    · rw [if_pos hsize] at hloop
      split at hloop
      · cases hloop
      rw [pgSize] at hsize
      have hdouble : 0 < size * 2 % sizeLimit := by
        rw [sizeLimit]
        omega
      refine (ih hdouble (fun d hd => ?_) hloop :)
      by_cases heq : d = s.descCnt
      · -- The new descriptor.
        have hmul := Nat.div_mul_le_self (pgSize - arenaSize) size
        have hdiv : 0 < (pgSize - arenaSize) / size :=
          Nat.div_pos (by simp only [pgSize, arenaSize]; omega) hpos
        rw [heq]
        simp only [update_self, and_true]
        refine ⟨hpos, hdiv, ?_⟩
        simp only [pgSize, arenaSize] at hmul ⊢
        omega
      · simp only [update_of_ne heq]
        exact hdescs d (by simp only at hd; omega)
    · rw [if_neg hsize] at hloop
      cases hloop
      exact ⟨rfl, hdescs⟩

theorem mallocInit_spec {arenas : ℕ → Arena} {memory : ℕ → UInt8}
    (hinit : mallocInit arenas memory = .ok s) : s.Sound [] ∅ := by
  obtain ⟨howned, hdescs⟩ := initLoop_spec (by decide)
    (fun d hd => absurd hd (Nat.not_lt_zero d)) hinit
  have hnone : ∀ d, s.Arenas d = ∅ := by
    intro d
    ext a
    simp [Arenas, howned]
  constructor
  · constructor
    · exact fun d hd => (hdescs d hd).1
    all_goals
      rw [howned]
    · exact List.Pairwise.nil
    all_goals
      exact nofun
  · intro d hd
    rw [hnone, (hdescs d hd).2]
    exact Slabs.empty
  · intro d _ a ha
    rw [hnone] at ha
    exact ha.elim
  · exact nodup_nil
  · exact nofun

end Malloc

namespace MallocSystem

open Malloc

variable {s s' : MallocSystem} {l : MallocLabel}

/-- The request leaves room for the header and for rounding up. -/
def Modest (_ : MallocSystem) (l : MallocLabel) : Prop := l.requested < sizeLimit - 11

/-- The live blocks, each with what the caller can rely on. -/
def held (cut : ℕ → ℕ) (live : List Grant) : List Grant :=
  live.map fun g => ⟨g.addr, cut g.size⟩

@[simp] theorem held_id (live : List Grant) : held id live = live := map_id live

@[simp] theorem map_addr_held (cut : ℕ → ℕ) (live : List Grant) :
    (held cut live).map Grant.addr = live.map Grant.addr := by
  simp [held, comp_def]

theorem held_grant (cut : ℕ → ℕ) (p size : ℕ) (live : List Grant) :
    held cut (grant p size live) = grant p (cut size) (held cut live) := by
  unfold grant
  split <;> rfl

theorem held_release (cut : ℕ → ℕ) (p : ℕ) (live : List Grant) :
    held cut (release p live) = release p (held cut live) := by
  simp [held, release, filter_map, comp_def]

theorem bind_spec {α : Type} {E : Fault → Prop} {m : MallocM α} {Q : α → Malloc → Prop}
    {k : α × Malloc → Except Fault (Option MallocSystem)} {P : Option MallocSystem → Prop}
    (hm : Spec E m s.heap Q) (hk : ∀ a heap, Q a heap → ∃ r, k (a, heap) = .ok r ∧ P r) :
    (∃ r, (m.run s.heap >>= k) = .ok r ∧ P r) ∨ ∃ f, (m.run s.heap >>= k) = .error f ∧ E f := by
  unfold Spec at hm
  cases hrun : m.run s.heap with
  | error f =>
    rw [hrun] at hm
    exact .inr ⟨f, rfl, hm⟩
  | ok r =>
    rw [hrun] at hm
    exact .inl (hk r.1 r.2 hm)

theorem apply_spec (E : Fault → Prop) (cut : ℕ → ℕ) (h : s.heap.Sound (held cut s.live) ∅)
    (hcut : Holds (cut l.requested) l.requested) (hE : cut l.requested = l.requested ∨ ∀ f, E f) :
    (∃ r, s.apply l = .ok r ∧ ∀ s' ∈ r, s'.heap.Sound (held cut s'.live) ∅) ∨
      ∃ f, s.apply l = .error f ∧ E f := by
  unfold apply
  cases l with
  | malloc size supply =>
    refine bind_spec (.of_returns (malloc_spec h supply hcut)) fun p heap hcall => ⟨_, rfl, ?_⟩
    rintro s' ⟨⟩
    rw [held_grant]
    exact hcall.1
  | calloc a b supply =>
    refine bind_spec (calloc_spec h supply a.toNat b.toNat hcut hE) fun p heap hsound =>
      ⟨_, rfl, ?_⟩
    rintro s' ⟨⟩
    rwa [held_grant]
  | realloc oldBlock newSize supply =>
    by_cases husable : s.Usable oldBlock
    · simp only [if_pos husable]
      have hold : oldBlock = 0 ∨ oldBlock ∈ addrs (held cut s.live) := by
        simpa [addrs, Usable] using husable
      refine bind_spec (realloc_spec h supply hold hcut hE) fun p heap ⟨hsound, _⟩ => ?_
      have hzero : newSize ≠ 0 ↔ newSize.toNat ≠ 0 := by
        rw [ne_eq, ← UInt32.toNat_inj]
        rfl
      simp only [hzero]
      split at hsound
      · refine ⟨_, if_pos ‹_›, ?_⟩
        rintro s' ⟨⟩
        exact hsound
      · refine ⟨_, if_neg ‹_›, ?_⟩
        rintro s' ⟨⟩
        rwa [held_grant, held_release]
    · exact .inl ⟨none, if_neg husable, nofun⟩
  | free p =>
    by_cases husable : s.Usable p
    · simp only [if_pos husable]
      by_cases hp : p = 0
      · refine .inl ⟨some ⟨s.heap, release p s.live⟩, by rw [hp]; rfl, ?_⟩
        rintro s' ⟨⟩
        rwa [held_release, hp, h.release_zero]
      have hlive : p ∈ addrs (held cut s.live) := by
        simpa [addrs] using husable.resolve_left hp
      refine bind_spec (.of_returns (free_spec h hlive)) fun _ heap hcall => ⟨_, rfl, ?_⟩
      rintro s' ⟨⟩
      rw [held_release]
      exact hcall.1
    · exact .inl ⟨none, if_neg husable, nofun⟩

theorem apply_of_modest (h : s.heap.Sound s.live ∅) (hl : s.Modest l) :
    ∃ r, s.apply l = .ok r ∧ ∀ s' ∈ r, s'.heap.Sound s'.live ∅ := by
  simpa only [held_id, and_false, exists_false, or_false] using
    apply_spec (fun _ => False) id (by rwa [held_id]) (.inl ⟨rfl, hl⟩) (.inl rfl)

section

variable {arenas : ℕ → Arena} {memory : ℕ → UInt8} {heap : Malloc} {labels : List MallocLabel}

theorem sound_of_run (hinit : mallocInit arenas memory = .ok heap)
    (hrun : Run (Guarded Modest Step) ⟨heap, []⟩ labels s) : s.heap.Sound s.live ∅ := by
  refine Run.invariant (I := fun s => s.heap.Sound s.live ∅) (mallocInit_spec hinit) ?_ hrun
  intro t l t' ht hstep
  obtain ⟨r, hr, hsound⟩ := apply_of_modest ht hstep.1
  exact hsound t' (Except.ok.inj (hr.symm.trans hstep.2))

/-- Without a bound on the requests nobody can rely on the size of a block. -/
theorem sound_of_steps (hinit : mallocInit arenas memory = .ok heap)
    (hrun : Run Step ⟨heap, []⟩ labels s) : s.heap.Sound (held (fun _ => 0) s.live) ∅ := by
  refine Run.invariant (I := fun s => s.heap.Sound (held (fun _ => 0) s.live) ∅)
    (mallocInit_spec hinit) ?_ hrun
  intro t l t' ht hstep
  rcases apply_spec (fun _ => True) _ ht (.inr rfl) (.inr fun _ => trivial) with
    ⟨r, hr, hsound⟩ | ⟨f, hf, -⟩
  · exact hsound t' (Except.ok.inj (hr.symm.trans hstep))
  · cases hf.symm.trans hstep

end

theorem live_apart (h : s.heap.Sound s.live ∅) :
    s.live.Pairwise fun g g' => (s.heap.extent g.addr).Apart (s.heap.extent g'.addr) := by
  have hnodup : s.live.Pairwise fun g g' => g.addr ≠ g'.addr := pairwise_map.mp h.nodup
  apply hnodup.imp_of_mem
  intro g g' hg hg' hne
  obtain ⟨run, hrun, hblock, -⟩ := h.grants g hg
  obtain ⟨run', hrun', hblock', -⟩ := h.grants g' hg'
  exact h.blocks_apart hrun hrun' hblock hblock' hne

/-- **The invariant of the block allocator.**  Unless a caller asks for almost all of the
address space: the live blocks are as big as requested and overlap neither each other nor a
header, the free lists have the blocks of the arenas that are not live, the arenas count them,
no arena is kept without a live block, and the next call returns. -/
theorem malloc_invariant {arenas : ℕ → Arena} {memory : ℕ → UInt8} {heap : Malloc}
    {labels : List MallocLabel} (hinit : mallocInit arenas memory = .ok heap)
    (hrun : Run (Guarded Modest Step) ⟨heap, []⟩ labels s) :
    (s.live.Pairwise fun g g' => (s.heap.extent g.addr).Apart (s.heap.extent g'.addr)) ∧
      (∀ g ∈ s.live, g.size ≤ s.heap.room g.addr ∧
        (∃ run ∈ s.heap.owned, (s.heap.extent g.addr).Within run) ∧
        ∀ run ∈ s.heap.owned, (s.heap.extent g.addr).Apart (headerExtent run)) ∧
      (∀ d < s.heap.descCnt, (s.heap.descs d).freeList.Nodup ∧ (∀ b, b ∈ (s.heap.descs d).freeList ↔
          (∃ a ∈ s.heap.Arenas d, b ∈ (s.heap.descs d).blocks a) ∧ b ∉ s.live.map Grant.addr) ∧
        ∀ a ∈ s.heap.Arenas d, (s.heap.arenas a).freeCnt =
            ((s.heap.descs d).blocks a).countP (fun b => b ∈ (s.heap.descs d).freeList) ∧
          (s.heap.arenas a).freeCnt < (s.heap.descs d).blocksPerArena) ∧
      ∀ l, s.Modest l → ∃ r, s.apply l = .ok r := by
  have h := sound_of_run hinit hrun
  refine ⟨live_apart h, ?_, ?_, ?_⟩
  · intro g hg
    obtain ⟨run, hmem, hblock, hsize⟩ := h.grants g hg
    have hwithin := h.block_within hmem hblock
    refine ⟨hsize, ⟨run, hmem, ?_, hwithin.2.2⟩, fun run' hmem' => ?_⟩
    · exact Nat.le_of_add_right_le hwithin.1
    · exact h.block_apart_header hmem hmem' hblock
  · intro d hd
    refine ⟨(h.slabs d hd).nodup, (h.slabs d hd).mem_iff, fun a ha => ?_⟩
    obtain ⟨hcount, hpartly⟩ := h.count d hd a ha
    exact ⟨hcount.trans ((h.slabs d hd).freeCount_eq ha), hpartly (Set.notMem_empty a)⟩
  · intro l hl
    obtain ⟨r, hr, -⟩ := apply_of_modest h hl
    exact ⟨r, hr⟩

/-- The call returns, and a block that it returns is as big as requested; `realloc` returns one
with the old bytes. -/
def Large (s : MallocSystem) : MallocLabel → Prop
  | .malloc size supply => Returns (Malloc.malloc supply size.toNat) s.heap fun p heap =>
      p ≠ 0 → size.toNat ≤ heap.room p
  | .calloc a b supply => Returns (Malloc.calloc supply a.toNat b.toNat) s.heap fun p heap =>
      p ≠ 0 → a.toNat * b.toNat ≤ heap.room p
  | .realloc oldBlock newSize supply => s.Usable oldBlock →
      Returns (Malloc.realloc supply oldBlock newSize.toNat) s.heap fun p heap => p ≠ 0 →
        newSize.toNat ≤ heap.room p ∧ (oldBlock ≠ 0 →
          ∀ k < min (s.heap.room oldBlock) newSize.toNat,
            heap.memory (p + k) = s.heap.memory (oldBlock + k))
  | .free _ => True

/-- The request, as an unbounded number, leaves room for the header. -/
def Fitting : MallocLabel → Prop
  | .calloc a b _ => a.toNat * b.toNat < sizeLimit - 11
  | l => l.requested < sizeLimit - 11

/-- `calloc` sees no overflow, and there is memory. -/
def Served (s : MallocSystem) : MallocLabel → Prop
  | .malloc size supply => s.heap.Serves supply size.toNat
  | .calloc a b supply => ¬ (a.toNat * b.toNat % sizeLimit < a.toNat ∨
      a.toNat * b.toNat % sizeLimit < b.toNat) ∧
      s.heap.Serves supply (a.toNat * b.toNat % sizeLimit)
  | .realloc oldBlock newSize supply => s.Usable oldBlock ∧ s.heap.Serves supply newSize.toNat
  | .free _ => False

section

variable {live : List Grant} (haddrs : live.map Grant.addr = s.live.map Grant.addr)

include haddrs in
theorem usable_iff {p : ℕ} : s.Usable p ↔ p = 0 ∨ p ∈ addrs live := by
  rw [addrs, haddrs]
  rfl

variable (h : s.heap.Sound live ∅)
include h

include haddrs in
theorem large_of_fitting (hl : Fitting l) : s.Large l := by
  cases l with
  | malloc size supply =>
    exact (malloc_spec h supply (.inl ⟨rfl, show size.toNat < _ from hl⟩)).post
      fun p heap hcall hp => (hcall.1.room_grant hp).1
  | calloc a b supply =>
    have hmod : a.toNat * b.toNat % sizeLimit = a.toNat * b.toNat :=
      Nat.mod_eq_of_lt (lt_trans hl (by decide))
    refine (calloc_spec h supply a.toNat b.toNat (.inl ⟨hmod.symm, hmod.symm ▸ hl⟩)
      (.inl hmod.symm)).post fun p heap hsound hp => ?_
    exact (hsound.room_grant hp).1
  | realloc oldBlock newSize supply =>
    intro husable
    refine (realloc_spec h supply ((usable_iff haddrs).mp husable)
      (.inl ⟨rfl, show newSize.toNat < _ from hl⟩) (.inl rfl)).post
      fun p heap hcall hp => ⟨?_, hcall.2 hp⟩
    have hsound := hcall.1
    rw [if_neg fun hnull => hp hnull.1] at hsound
    exact (hsound.room_grant hp).1
  | free p => trivial

/-- What `malloc` hands out for a request beyond the limit is too small for it. -/
theorem returns_iff_not_serves {supply size n : ℕ} {k : ℕ → MallocM ℕ}
    {Q : ℕ → Malloc → Prop} (hn : sizeLimit - 11 ≤ n)
    (hnull : ∀ heap, Returns (k 0) heap Q) (hQ : ∀ p heap, p ≠ 0 → Q p heap → n ≤ heap.room p)
    (hk : ∀ p heap, heap.Sound (grant p 0 live) ∅ → p ≠ 0 →
      Ensures (k p) heap fun q heap' => q = p ∧ heap'.room p = heap.room p) :
    Returns (Malloc.malloc supply size >>= k) s.heap Q ↔ ¬ s.heap.Serves supply size := by
  obtain ⟨p, heap, hrun, hsound, -, hserved⟩ :=
    returns_iff.mp (malloc_spec h supply (.inr rfl : Holds 0 size))
  rw [← hserved, returns_iff, StateT.run_bind, hrun, ok_bind, ← returns_iff]
  by_cases hp : p = 0
  · exact iff_of_true (hp ▸ hnull heap) (not_not_intro hp)
  refine iff_of_false ?_ (not_not_intro hp)
  intro hreturns
  obtain ⟨q, heap', hrest, hq⟩ := returns_iff.mp hreturns
  obtain ⟨rfl, hroom⟩ := (hk p heap hsound hp).of_run_eq hrest
  have hlt := (hsound.room_grant hp).2
  have hle := hQ q heap' hp hq
  omega

include haddrs in
theorem large_iff_of_not_fitting (hl : ¬ Fitting l) : s.Large l ↔ ¬ s.Served l := by
  cases l with
  | malloc size supply =>
    rw [Large]
    rw [← bind_pure (Malloc.malloc supply size.toNat)]
    exact returns_iff_not_serves h (not_lt.mp hl) (fun heap => .pure (absurd rfl))
      (fun p heap hp hle => hle hp) fun p heap _ _ => .pure ⟨rfl, rfl⟩
  | calloc a b supply =>
    rw [Large, Served, Malloc.calloc]
    split
    · exact iff_of_true (Spec.pure (absurd rfl)) fun hs => hs.1 ‹_›
    rw [and_iff_right ‹_›]
    refine returns_iff_not_serves h (not_lt.mp hl) (fun heap => .pure (absurd rfl))
      (fun p heap hp hle => hle hp) fun p heap _ hp => ?_
    rw [if_pos hp]
    exact .bind (Spec.get_bind (Spec.ite (fun _ => .throw trivial)
      fun _ => .set (Spec.pure ⟨rfl, rfl⟩)))
  | realloc oldBlock newSize supply =>
    have hbig : sizeLimit - 11 ≤ newSize.toNat := not_lt.mp hl
    have hzero : newSize.toNat ≠ 0 := by
      rw [sizeLimit] at hbig
      omega
    rw [Large, Served, Malloc.realloc, if_neg hzero]
    by_cases husable : s.Usable oldBlock
    · rw [forall_prop_of_true husable, and_iff_right husable]
      refine returns_iff_not_serves h hbig (fun heap => ?_) (fun p heap hp hle => (hle hp).1)
        fun p heap hsound hp => .ite (fun hboth => ?_) fun _ => .pure ⟨rfl, rfl⟩
      · exact .ite (fun hboth => absurd rfl hboth.2) fun _ => .pure (absurd rfl)
      have hold := mem_cons_of_mem p (((usable_iff haddrs).mp husable).resolve_left hboth.1)
      rw [grant, if_neg hp] at hsound
      refine .bind (Spec.of_returns (returns_iff.mpr ⟨_, _, run_blockSize hsound hold, ?_⟩))
      refine .bind (Spec.get_bind (Spec.ite (fun _ => .throw trivial) fun _ => .set ?_))
      exact .bind ((Spec.of_returns (free_spec (hsound.setMemory _) hold)).post
        fun _ heap' hfree => .pure ⟨rfl, hfree.2.room p⟩)
    · exact iff_of_true (fun hu => absurd hu husable) fun hs => husable hs.1
  | free p => exact absurd (by decide : 0 < sizeLimit - 11) hl

end

/-- A caller takes a small block, a cleared one and two pages, moves the first one and frees
the cleared one. -/
theorem malloc_invariant_moved : ∃ heap labels s,
    mallocInit (fun _ => ⟨0, none, 0⟩) (fun _ => 0) = .ok heap ∧
      Run (Guarded Modest Step) ⟨heap, []⟩ labels s ∧ s.live.length = 2 ∧
      s.live.Pairwise fun g g' => (s.heap.extent g.addr).Apart (s.heap.extent g'.addr) := by
  obtain ⟨heap, hinit, hexec⟩ : ∃ heap, mallocInit (fun _ => ⟨0, none, 0⟩) (fun _ => 0) = .ok heap ∧
      ∃ s ∈ execute (fun s l => if sizeLimit - 11 ≤ l.requested then none else outcome apply s l)
        ⟨heap, []⟩ [.malloc 20 0xc0100000, .calloc 5 6 0xc0101000, .malloc 5000 0xc0102000,
          .realloc 0xc010000c 600 0xc0101000, .free 0xc010002c], s.live.length = 2 := by
    decide +kernel
  have hmodest : ∀ s l, ¬ sizeLimit - 11 ≤ l.requested → Modest s l := fun _ _ => not_le.mp
  obtain ⟨s, hrun, hlength⟩ :=
    exists_run_of_execute (guarded_of_ite (fun _ _ _ => outcome_eq_some.mp) hmodest) hexec
  exact ⟨heap, _, s, hinit, hrun, hlength, (malloc_invariant hinit hrun).1⟩

/-- The sum of the size and the header wraps around, and `malloc (0xffffffff)` hands out one
page.  `realloc` copies the two pages of the old block there: over the header of the next
arena, which has a live block. -/
theorem realloc_overwrites_header : ∃ heap labels s,
    mallocInit (fun _ => ⟨0, none, 0⟩) (fun _ => 0) = .ok heap ∧
      Run Step ⟨heap, []⟩ labels s ∧ s.Usable 0xc010000c ∧ s.heap.room 0xc010000c = 8180 ∧
      (⟨0xc0111000, 4096⟩ : Extent) ∈ s.heap.owned ∧
      (∃ heap', (malloc 0xc0110000 0xffffffff).run s.heap = .ok (0xc011000c, heap') ∧
        heap'.room 0xc011000c = 4084) ∧
      ¬ (⟨0xc011000c, 8180⟩ : Extent).Apart (headerExtent ⟨0xc0111000, 4096⟩) ∧
      s.apply (.realloc 0xc010000c 0xffffffff 0xc0110000) = .error (.undefined "memcpy") := by
  obtain ⟨heap, hinit, hexec⟩ : ∃ heap, mallocInit (fun _ => ⟨0, none, 0⟩) (fun _ => 0) = .ok heap ∧
      ∃ s ∈ execute (outcome apply) ⟨heap, []⟩ [.malloc 8000 0xc0100000, .malloc 16 0xc0111000],
        s.Usable 0xc010000c ∧ s.heap.room 0xc010000c = 8180 ∧
        (⟨0xc0111000, 4096⟩ : Extent) ∈ s.heap.owned ∧
        (Returns (malloc 0xc0110000 0xffffffff) s.heap fun p heap' =>
          p = 0xc011000c ∧ heap'.room 0xc011000c = 4084) ∧
        s.apply (.realloc 0xc010000c 0xffffffff 0xc0110000) = .error (.undefined "memcpy") := by
    decide +kernel
  obtain ⟨s, hrun, husable, hroom, hnext, hout, hfails⟩ :=
    exists_run_of_execute (fun _ _ _ => outcome_eq_some.mp) hexec
  obtain ⟨p, heap', hmalloc, rfl, hroom'⟩ := returns_iff.mp hout
  exact ⟨heap, _, s, hinit, hrun, husable, hroom, hnext, ⟨heap', hmalloc, hroom'⟩, by decide,
    hfails⟩

/-- **Blocks are as large as requested** exactly if the request, as an unbounded number, leaves
room for the header, or no block is handed out. -/
theorem allocation_large_iff {arenas : ℕ → Arena} {memory : ℕ → UInt8} {heap : Malloc}
    {labels : List MallocLabel} (hinit : mallocInit arenas memory = .ok heap)
    (hrun : Run Step ⟨heap, []⟩ labels s) (l : MallocLabel) :
    s.Large l ↔ Fitting l ∨ ¬ s.Served l := by
  have h := sound_of_steps hinit hrun
  by_cases hl : Fitting l
  · exact iff_of_true (large_of_fitting (map_addr_held _ _) h hl) (.inl hl)
  · rw [large_iff_of_not_fitting (map_addr_held _ _) h hl, or_iff_right hl]

/-- Thirty bytes, after `malloc (0xffffffff)` has handed out a page. -/
theorem allocation_large_iff_small : ∃ heap labels s,
    mallocInit (fun _ => ⟨0, none, 0⟩) (fun _ => 0) = .ok heap ∧ Run Step ⟨heap, []⟩ labels s ∧
      s.live.length = 1 ∧ Large s (.calloc 5 6 0xc0101000) := by
  obtain ⟨heap, hinit, hexec⟩ : ∃ heap, mallocInit (fun _ => ⟨0, none, 0⟩) (fun _ => 0) = .ok heap ∧
      ∃ s ∈ execute (outcome apply) ⟨heap, []⟩ [.malloc 0xffffffff 0xc0100000],
        s.live.length = 1 := by
    decide +kernel
  obtain ⟨s, hrun, hlength⟩ := exists_run_of_execute (fun _ _ _ => outcome_eq_some.mp) hexec
  exact ⟨heap, _, s, hinit, hrun, hlength, (allocation_large_iff hinit hrun _).mpr
    (.inl (by decide : 5 * 6 < sizeLimit - 11))⟩

/-- The product of 65537 and 65537 wraps around to 131073, which is not less than a factor. -/
theorem calloc_returns_small_block : ∃ heap,
    mallocInit (fun _ => ⟨0, none, 0⟩) (fun _ => 0) = .ok heap ∧
      ¬ Large ⟨heap, []⟩ (.calloc 65537 65537 0xc0100000) ∧
      ¬ Large ⟨heap, []⟩ (.malloc 0xffffffff 0xc0100000) := by
  obtain ⟨heap, hinit, hfind, hfresh, hfind', hfresh'⟩ : ∃ heap,
      mallocInit (fun _ => ⟨0, none, 0⟩) (fun _ => 0) = .ok heap ∧ heap.findDesc 131073 = none ∧
        heap.Fresh 0xc0100000 33 ∧ heap.findDesc 0xffffffff = none ∧ heap.Fresh 0xc0100000 1 := by
    decide +kernel
  have hserves : heap.Serves 0xc0100000 131073 := by
    unfold Serves
    rw [hfind]
    exact ⟨by decide, by decide, hfresh⟩
  have hserves' : heap.Serves 0xc0100000 0xffffffff := by
    unfold Serves
    rw [hfind']
    exact ⟨by decide, by decide, hfresh'⟩
  refine ⟨heap, hinit, fun hlarge => ?_, fun hlarge => ?_⟩
  · exact (large_iff_of_not_fitting (s := ⟨heap, []⟩) rfl (mallocInit_spec hinit)
      (l := .calloc 65537 65537 0xc0100000) (not_lt.mpr (by decide))).mp hlarge
        ⟨by decide, hserves⟩
  · exact (large_iff_of_not_fitting (s := ⟨heap, []⟩) rfl (mallocInit_spec hinit)
      (l := .malloc 0xffffffff 0xc0100000) (not_lt.mpr (by decide))).mp hlarge hserves'

end MallocSystem

end CS162
