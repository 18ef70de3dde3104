import CS162.Library.Bookings
import CS162.Library.Extent
import CS162.Library.Run
import CS162.Library.Words
import CS162.Kernel.Bitmap
import CS162.Threads.Vaddr

/-!
# The page allocator (`threads/palloc.c`)

The memory above the first megabyte is divided into a kernel pool and a user pool.  A pool has
its bitmap in its first pages and hands out the rest.

`PageSystem` also remembers the allocations that have not been given back, as they were
returned to callers.

## Strategy

The two bitmaps and the live allocations agree in the sense of `Booked`, one array of places
for each pool, and every place is a page of its pool (`Pool.Spans`).  A scan of the bitmap books
free places; giving an allocation back releases its booking.
-/

namespace CS162

open Library Bitmap List

/-- `struct pool`. -/
structure Pool where
  usedMap : Bitmap
  /-- The pointer `used_map`. -/
  usedMapAddr : ℕ
  base : ℕ

/-- The two pools, and the bytes of memory.  The bitmaps are kept as values; the bytes where
they are stand for nothing. -/
structure Palloc where
  kernelPool : Pool
  userPool : Pool
  memory : ℕ → UInt8

/-- `enum palloc_flags`. -/
structure PallocFlags where
  assert : Bool
  zero : Bool
  user : Bool

/-- The number of pages `start.S` reports to the kernel.  The BIOS gives the kilobytes of
memory above the first 1024; more than 64 MB are not used. -/
def initRamPages (extendedKb : UInt16) : ℕ := min (extendedKb.toNat + 1024) 0x10000 >>> 2

def memset (memory : ℕ → UInt8) (dst : ℕ) (value : UInt8) (size : ℕ) : ℕ → UInt8 := fun addr =>
  if dst ≤ addr ∧ addr < dst + size then value else memory addr

def loadWord (memory : ℕ → UInt8) (addr : ℕ) : BitVec 32 :=
  (word (memory addr) (memory (addr + 1)) (memory (addr + 2)) (memory (addr + 3))).toBitVec

namespace Pool

def initPool (base pageCnt : ℕ) (name : String) (memory : ℕ → UInt8) : Except Fault Pool := do
  let bmPages := divRoundUp (bitmapBufSize pageCnt) pgSize
  if bmPages > pageCnt then
    throw (.panic ("Not enough memory in " ++ name ++ " for bitmap."))
  let pageCnt := pageCnt - bmPages
  let usedMap ← bitmapCreateInBuf pageCnt (bmPages * pgSize)
    fun k => loadWord memory (base + 8 + 4 * k)
  return ⟨usedMap, base, base + bmPages * pgSize⟩

def pageFromPool (pool : Pool) (page : ℕ) : Bool :=
  let pageNo := pgNo page
  let startPage := pgNo pool.base
  let endPage := startPage + pool.usedMap.bitCnt
  pageNo ≥ startPage && pageNo < endPage

end Pool

namespace Palloc

def pallocInit (ramPages userPageLimit : ℕ) (memory : ℕ → UInt8) : Except Fault Palloc := do
  let freeStart ← ptov (1024 * 1024)
  let freeEnd ← ptov (ramPages * pgSize % sizeLimit)
  let freePages := (((freeEnd : ℤ) - freeStart).tdiv pgSize % sizeLimit).toNat
  let userPages := if freePages / 2 > userPageLimit then userPageLimit else freePages / 2
  let kernelPages := freePages - userPages
  let kernelPool ← Pool.initPool freeStart kernelPages "kernel pool" memory
  let userPool ← Pool.initPool (freeStart + kernelPages * pgSize) userPages "user pool" memory
  return ⟨kernelPool, userPool, memory⟩

def pool (s : Palloc) (user : Bool) : Pool := if user then s.userPool else s.kernelPool

def setMap (s : Palloc) (user : Bool) (usedMap : Bitmap) : Palloc :=
  if user then { s with userPool := { s.userPool with usedMap := usedMap } }
  else { s with kernelPool := { s.kernelPool with usedMap := usedMap } }

/-- `palloc_get_multiple`; a null pointer is 0. -/
def pallocGetMultiple (s : Palloc) (flags : PallocFlags) (pageCnt : ℕ) :
    Except Fault (ℕ × Palloc) := do
  let pool := s.pool flags.user
  if pageCnt = 0 then return (0, s)
  let (pageIdx, usedMap) ← pool.usedMap.bitmapScanAndFlip 0 pageCnt false
  let s := s.setMap flags.user usedMap
  let pages := if pageIdx ≠ bitmapError then (pool.base + pgSize * pageIdx) % sizeLimit else 0
  if pages ≠ 0 then
    if flags.zero then
      return (pages, { s with memory := memset s.memory pages 0 (pgSize * pageCnt) })
    else return (pages, s)
  else if flags.assert then throw (.panic "palloc_get: out of pages")
  else return (pages, s)

/-- The pool `palloc_free_multiple` gives a page back to. -/
def findPool (s : Palloc) (pages : ℕ) : Except Fault Bool :=
  if s.kernelPool.pageFromPool pages then .ok false
  else if s.userPool.pageFromPool pages then .ok true
  else .error (.panic "executed an unreachable statement")

def pallocFreeMultiple (s : Palloc) (pages pageCnt : ℕ) : Except Fault Palloc := do
  if pgOfs pages ≠ 0 then throw (.panic "pg_ofs (pages) == 0")
  if pages = 0 ∨ pageCnt = 0 then return s
  let user ← s.findPool pages
  let pool := s.pool user
  let pageIdx := pgNo pages - pgNo pool.base
  let s := { s with memory := memset s.memory pages 0xcc (pgSize * pageCnt) }
  if !(← pool.usedMap.bitmapAll pageIdx pageCnt) then
    throw (.panic "bitmap_all (pool->used_map, page_idx, page_cnt)")
  let usedMap ← pool.usedMap.bitmapSetMultiple pageIdx pageCnt false
  return s.setMap user usedMap

end Palloc

/-- What a caller of `palloc_get_multiple` has been given. -/
structure Allocation where
  pages : ℕ
  pageCnt : ℕ
  user : Bool
  deriving DecidableEq

/-- The allocator and the allocations not given back. -/
structure PageSystem where
  palloc : Palloc
  live : List Allocation

inductive PageLabel where
  | get (flags : PallocFlags) (pageCnt : ℕ)
  | free (allocation : Allocation)

namespace PageSystem

/-- A call; only live allocations are given back. -/
def apply (s : PageSystem) : PageLabel → Except Fault (Option PageSystem)
  | .get flags pageCnt => do
      let (pages, palloc) ← s.palloc.pallocGetMultiple flags pageCnt
      if pages = 0 then return some ⟨palloc, s.live⟩
      else return some ⟨palloc, ⟨pages, pageCnt, flags.user⟩ :: s.live⟩
  | .free allocation => do
      if allocation ∈ s.live then
        let palloc ← s.palloc.pallocFreeMultiple allocation.pages allocation.pageCnt
        return some ⟨palloc, s.live.erase allocation⟩
      else return none

def Step (s : PageSystem) (l : PageLabel) (s' : PageSystem) : Prop := s.apply l = .ok (some s')

end PageSystem

/-! ## Where the pools are -/

def Allocation.extent (a : Allocation) : Extent := ⟨a.pages, pgSize * a.pageCnt⟩

namespace Pool

def pages (pool : Pool) : Extent := ⟨pool.base, pgSize * pool.usedMap.bitCnt⟩

def bitmapPages (pool : Pool) : Extent := ⟨pool.usedMapAddr, pool.base - pool.usedMapAddr⟩

/-- The pool's bitmap and pages fill the memory from `start` to `stop`. -/
structure Spans (pool : Pool) (start stop : ℕ) : Prop where
  map : pool.usedMapAddr = start
  start_le : start ≤ pool.base
  aligned : pool.base % pgSize = 0
  stop_eq : pool.base + pgSize * pool.usedMap.bitCnt = stop

variable {pool : Pool} {start stop base pageCnt : ℕ} {name : String} {memory : ℕ → UInt8}

theorem initPool_spec (halign : base % pgSize = 0) (hcnt : pageCnt ≤ 0x100000)
    (hinit : initPool base pageCnt name memory = .ok pool) :
    pool.Spans base (base + pgSize * pageCnt) ∧
      ∀ i, i < pool.usedMap.bitCnt → pool.usedMap.bit i = false := by
  have hbuf : ∀ n, n ≤ 0x100000 → bitmapBufSize n = 8 + 4 * ((n + 31) / 32) := by
    intro n hn
    unfold bitmapBufSize byteCnt elemCnt divRoundUp
    rw [sizeLimit]
    omega
  have hpages : divRoundUp (bitmapBufSize pageCnt) pgSize =
      (8 + 4 * ((pageCnt + 31) / 32) + 4095) / 4096 := by
    rw [hbuf pageCnt hcnt]
    unfold divRoundUp
    rw [sizeLimit, pgSize]
    omega
  unfold initPool at hinit
  simp only [hpages] at hinit
  split at hinit
  · cases hinit
  next henough =>
  obtain ⟨b, hcreate, hcount, hclear⟩ := bitmapCreateInBuf_spec
    (show pageCnt - (8 + 4 * ((pageCnt + 31) / 32) + 4095) / 4096 + 31 < sizeLimit by
      rw [sizeLimit]
      omega)
    (show bitmapBufSize _ ≤ (8 + 4 * ((pageCnt + 31) / 32) + 4095) / 4096 * pgSize by
      rw [hbuf _ (by omega)]
      rw [pgSize]
      omega)
    fun k => loadWord memory (base + 8 + 4 * k)
  rw [hcreate] at hinit
  cases hinit
  refine ⟨⟨rfl, Nat.le_add_right _ _, ?_, ?_⟩, ?_⟩
  · simp only [pgSize] at halign ⊢
    omega
  · simp only [pgSize]
    omega
  · intro i hi
    exact hclear i (hcount ▸ hi)

end Pool

namespace Palloc

/-- The first pool is the kernel's; the second follows it. -/
structure Laid (s : Palloc) (freeStart userStart freeEnd : ℕ) : Prop where
  kernel : s.kernelPool.Spans freeStart userStart
  user : s.userPool.Spans userStart freeEnd
  positive : 0 < freeStart
  limit : freeEnd ≤ sizeLimit

def size (s : Palloc) (user : Bool) : ℕ := (s.pool user).usedMap.bitCnt

def bits (s : Palloc) (user : Bool) (i : ℕ) : Bool := (s.pool user).usedMap.bit i

/-- The allocation that has the booked pages. -/
def allocation (s : Palloc) (b : Booking Bool) : Allocation :=
  ⟨(s.pool b.key).base + pgSize * b.start, b.size, b.key⟩

/-- The memory of `pageCnt` pages of a pool from page `i` on. -/
def run (s : Palloc) (user : Bool) (i pageCnt : ℕ) : Extent :=
  ⟨(s.pool user).base + pgSize * i, pgSize * pageCnt⟩

variable {s s' : Palloc} {freeStart userStart freeEnd : ℕ} {user : Bool} {usedMap : Bitmap}

/-- The same pools, but for their bitmaps and the contents of memory. -/
structure SamePools (s s' : Palloc) : Prop where
  base : ∀ user, (s'.pool user).base = (s.pool user).base
  map : ∀ user, (s'.pool user).usedMapAddr = (s.pool user).usedMapAddr
  size : ∀ user, s'.size user = s.size user

theorem SamePools.allocation (h : SamePools s s') : s'.allocation = s.allocation := by
  funext b
  unfold Palloc.allocation
  rw [h.base]

theorem SamePools.laid (h : SamePools s s') (hs : s.Laid freeStart userStart freeEnd) :
    s'.Laid freeStart userStart freeEnd := by
  have hspans : ∀ user start stop, (s.pool user).Spans start stop →
      (s'.pool user).Spans start stop := by
    intro user start stop hpool
    have hsize : (s'.pool user).usedMap.bitCnt = (s.pool user).usedMap.bitCnt := h.size user
    constructor <;> simp only [h.map, h.base, hsize]
    exacts [hpool.map, hpool.start_le, hpool.aligned, hpool.stop_eq]
  exact ⟨hspans false _ _ hs.kernel, hspans true _ _ hs.user, hs.positive, hs.limit⟩

theorem pool_setMap (s : Palloc) (user other : Bool) (usedMap : Bitmap) :
    (s.setMap user usedMap).pool other =
      if other = user then { s.pool user with usedMap := usedMap } else s.pool other := by
  cases user <;> cases other <;> rfl

theorem setMap_self (s : Palloc) (user : Bool) : s.setMap user (s.pool user).usedMap = s := by
  cases user <;> rfl

theorem samePools_setMap (hcount : usedMap.bitCnt = s.size user) (memory : ℕ → UInt8) :
    SamePools s { s.setMap user usedMap with memory := memory } := by
  have hpool : ∀ other, ({ s.setMap user usedMap with memory := memory } : Palloc).pool other =
      (s.setMap user usedMap).pool other := fun _ => rfl
  constructor <;> intro other
  all_goals
    try unfold size
    rw [hpool, pool_setMap]
    split
    · next hother =>
      subst hother
      first | rfl | exact hcount
    · rfl

theorem bits_setMap {start cnt : ℕ} {value : Bool} (memory : ℕ → UInt8)
    (hset : SetTo (s.pool user).usedMap usedMap start cnt value) (k : Bool) (i : ℕ) :
    ({ s.setMap user usedMap with memory := memory } : Palloc).bits k i =
      if Booking.Has ⟨user, start, cnt⟩ k i then value else s.bits k i := by
  show ((s.setMap user usedMap).pool k).usedMap.bit i = _
  rw [pool_setMap]
  unfold Booking.Has bits
  by_cases hk : k = user
  · subst hk
    simp only [true_and]
    exact hset.bit i
  · simp [hk, Ne.symm hk]

namespace Laid

variable (h : s.Laid freeStart userStart freeEnd)

include h

theorem aligned (user : Bool) : (s.pool user).base % pgSize = 0 := by
  cases user with
  | false => exact h.kernel.aligned
  | true => exact h.user.aligned

theorem base_pos (user : Bool) : 0 < (s.pool user).base := by
  have hpositive := h.positive
  have hkernel := h.kernel.start_le
  have hmiddle := h.kernel.stop_eq
  have huser := h.user.start_le
  cases user with
  | false => exact lt_of_lt_of_le hpositive hkernel
  | true =>
    refine lt_of_lt_of_le hpositive (le_trans ?_ huser)
    omega

theorem stop_le (user : Bool) : (s.pool user).base + pgSize * s.size user ≤ sizeLimit := by
  have hlimit := h.limit
  have hmiddle := h.kernel.stop_eq
  have huser := h.user.start_le
  have hend := h.user.stop_eq
  cases user <;> simp only [size, Palloc.pool, if_true, Bool.false_eq_true, if_false] <;> omega

theorem pgNo_page (user : Bool) (i : ℕ) :
    pgNo ((s.pool user).base + pgSize * i) = pgNo (s.pool user).base + i := by
  have haligned := h.aligned user
  rw [pgNo_eq, pgNo_eq]
  simp only [pgSize] at haligned ⊢
  omega

theorem pageFromPool_self (user : Bool) {i : ℕ} (hi : i < s.size user) :
    (s.pool user).pageFromPool ((s.pool user).base + pgSize * i) = true := by
  unfold Pool.pageFromPool
  rw [h.pgNo_page]
  have hlt : i < (s.pool user).usedMap.bitCnt := hi
  simp [hlt]

/-- A page of the user pool is not found in the kernel pool. -/
theorem pageFromPool_kernel (i : ℕ) :
    s.kernelPool.pageFromPool ((s.pool true).base + pgSize * i) = false := by
  have hmiddle := h.kernel.stop_eq
  have huser : userStart ≤ (s.pool true).base := h.user.start_le
  have haligned := h.kernel.aligned
  unfold Pool.pageFromPool
  rw [pgNo_eq, pgNo_eq]
  simp only [pgSize] at hmiddle huser haligned ⊢
  simp only [Bool.and_eq_false_iff, decide_eq_false_iff_not]
  omega

theorem findPool (user : Bool) {i : ℕ} (hi : i < s.size user) :
    s.findPool ((s.pool user).base + pgSize * i) = .ok user := by
  have hself := h.pageFromPool_self user hi
  unfold Palloc.findPool
  cases user with
  | false => exact if_pos hself
  | true =>
    rw [if_neg (Bool.eq_false_iff.mp (h.pageFromPool_kernel i))]
    exact if_pos hself

theorem pages_apart (user : Bool) :
    (∀ other, (s.pool user).pages.Apart (s.pool other).bitmapPages) ∧
      (s.pool user).pages.Apart (s.pool (!user)).pages := by
  have hkmap : (s.pool false).usedMapAddr = freeStart := h.kernel.map
  have humap : (s.pool true).usedMapAddr = userStart := h.user.map
  have hkernel : freeStart ≤ (s.pool false).base := h.kernel.start_le
  have huser : userStart ≤ (s.pool true).base := h.user.start_le
  have hmiddle : (s.pool false).base + pgSize * (s.pool false).usedMap.bitCnt = userStart :=
    h.kernel.stop_eq
  unfold Extent.Apart Extent.stop Pool.pages Pool.bitmapPages
  cases user <;> refine ⟨?_, by simp only [Bool.not_false, Bool.not_true]; omega⟩
  all_goals rintro (_ | _) <;> dsimp only <;> omega

end Laid

theorem initRamPages_bounds (extendedKb : UInt16) :
    256 ≤ initRamPages extendedKb ∧ initRamPages extendedKb ≤ 16384 := by
  unfold initRamPages
  omega

theorem pallocInit_spec {ramPages limit : ℕ} {memory : ℕ → UInt8} (hlow : 256 ≤ ramPages)
    (hhigh : ramPages ≤ 16384) (hinit : pallocInit ramPages limit memory = .ok s) :
    (∃ freeStart userStart freeEnd, s.Laid freeStart userStart freeEnd) ∧
      ∀ user i, i < s.size user → s.bits user i = false := by
  obtain ⟨freeStart, hstart, hfreeStart⟩ : ∃ a, ptov (1024 * 1024) = .ok a ∧ a = 3222274048 :=
    ⟨_, ptov_eq (by omega), rfl⟩
  obtain ⟨freeEnd, hend, hfreeEnd⟩ : ∃ a, ptov (ramPages * pgSize % sizeLimit) = .ok a ∧
      a = ramPages * 4096 + physBase := by
    have hmod : ramPages * pgSize % sizeLimit = ramPages * 4096 := by
      rw [pgSize, sizeLimit]
      omega
    rw [hmod]
    exact ⟨_, ptov_eq (by omega), rfl⟩
  have hfree : (((freeEnd : ℤ) - freeStart).tdiv pgSize % sizeLimit).toNat = ramPages - 256 := by
    have hdiff : (freeEnd : ℤ) - freeStart = ((ramPages - 256 : ℕ) : ℤ) * pgSize := by
      simp only [pgSize, physBase] at hfreeEnd ⊢
      omega
    rw [hdiff, Int.mul_tdiv_cancel _ (by decide)]
    rw [sizeLimit]
    omega
  unfold pallocInit at hinit
  simp only [hstart, hend, hfree, ok_bind] at hinit
  generalize huser : (if (ramPages - 256) / 2 > limit then limit else (ramPages - 256) / 2) =
    userPages at hinit
  have hhalf : userPages ≤ (ramPages - 256) / 2 := by
    rw [← huser]
    split <;> omega
  obtain ⟨kernelPool, hkernel, hinit⟩ := bind_eq_ok.mp hinit
  obtain ⟨userPool, huser, ⟨⟩⟩ := bind_eq_ok.mp hinit
  obtain ⟨hkspans, hkclear⟩ := Pool.initPool_spec (by simp only [pgSize]; omega) (by omega) hkernel
  obtain ⟨huspans, huclear⟩ := Pool.initPool_spec (by simp only [pgSize]; omega) (by omega) huser
  rw [mul_comm pgSize] at hkspans
  refine ⟨⟨_, _, _, hkspans, huspans, ?_, ?_⟩, ?_⟩
  · omega
  · rw [pgSize, sizeLimit]
    omega
  · intro user i hi
    cases user with
    | false => exact hkclear i hi
    | true => exact huclear i hi

theorem allocation_injective (s : Palloc) : Function.Injective s.allocation := by
  rintro ⟨user, i, n⟩ ⟨user', j, m⟩ heq
  simp only [allocation, Allocation.mk.injEq] at heq
  obtain ⟨hpages, rfl, rfl⟩ := heq
  rw [pgSize] at hpages
  congr 1
  omega

end Palloc

namespace PageSystem

variable {s s' : PageSystem} {freeStart userStart freeEnd : ℕ}

/-- **The invariant**: the live allocations are the booked pages. -/
structure Sound (freeStart userStart freeEnd : ℕ) (s : PageSystem) : Prop where
  laid : s.palloc.Laid freeStart userStart freeEnd
  booked : ∃ bookings, s.live = bookings.map s.palloc.allocation ∧
    Booked s.palloc.size s.palloc.bits bookings

/-- Every run of `pageCnt` pages of the pool meets a live allocation. -/
def Full (s : PageSystem) (user : Bool) (pageCnt : ℕ) : Prop :=
  ∀ i, (s.palloc.run user i pageCnt).Within (s.palloc.pool user).pages →
    ∃ a ∈ s.live, ¬ (s.palloc.run user i pageCnt).Apart a.extent

section

variable (h : s.Sound freeStart userStart freeEnd)
include h

theorem Sound.full {user : Bool} {pageCnt : ℕ}
    (hnone : ∀ i, 0 ≤ i → i + pageCnt ≤ (s.palloc.pool user).usedMap.bitCnt →
      ¬ (s.palloc.pool user).usedMap.AllEq i pageCnt false) : s.Full user pageCnt := by
  obtain ⟨bookings, hlive, hbooked⟩ := h.booked
  intro i hwithin
  unfold Extent.Within Extent.stop Palloc.run Pool.pages at hwithin
  simp only [pgSize] at hwithin
  have hroom : i + pageCnt ≤ (s.palloc.pool user).usedMap.bitCnt := by omega
  have hused := hnone i (Nat.zero_le i) hroom
  simp only [AllEq, not_forall] at hused
  obtain ⟨j, hlow, hhigh, hbit⟩ := hused
  have hj : j < s.palloc.size user := lt_of_lt_of_le hhigh hroom
  obtain ⟨b, hb, hhas⟩ := (hbooked.bits user j hj).mp (Bool.not_eq_false _ ▸ hbit)
  refine ⟨s.palloc.allocation b, by rw [hlive]; exact mem_map_of_mem hb, ?_⟩
  obtain ⟨rfl, hstart, hstop⟩ := hhas
  unfold Extent.Apart Extent.stop Palloc.run Allocation.extent Palloc.allocation
  simp only [pgSize]
  omega

theorem Sound.get (flags : PallocFlags) {pageCnt : ℕ} (hcnt : 0 < pageCnt) :
    (s.Full flags.user pageCnt ∧ (s.palloc.pallocGetMultiple flags pageCnt = .ok (0, s.palloc) ∨
        flags.assert = true ∧ s.palloc.pallocGetMultiple flags pageCnt =
          .error (.panic "palloc_get: out of pages"))) ∨
    ∃ pages palloc', pages ≠ 0 ∧ s.palloc.pallocGetMultiple flags pageCnt = .ok (pages, palloc') ∧
      Sound freeStart userStart freeEnd ⟨palloc', ⟨pages, pageCnt, flags.user⟩ :: s.live⟩ := by
  obtain ⟨bookings, hlive, hbooked⟩ := h.booked
  obtain ⟨r, usedMap, hscan, hcases⟩ := bitmapScanAndFlip_spec
    (Nat.zero_le (s.palloc.pool flags.user).usedMap.bitCnt) hcnt false
  unfold Palloc.pallocGetMultiple
  simp only [hscan, ne_of_gt hcnt]
  rcases hcases with ⟨herror, hsame, hnone⟩ | ⟨hne, -, hroom, hfree, hset⟩
  · refine .inl ⟨h.full hnone, ?_⟩
    simp only [ok_bind, herror, hsame, Palloc.setMap_self, if_false]
    cases hassert : flags.assert with
    | false => exact .inl rfl
    | true => exact .inr ⟨rfl, rfl⟩
  refine .inr ?_
  have hstop := h.laid.stop_le flags.user
  have hpositive := h.laid.base_pos flags.user
  unfold Palloc.size at hstop
  have hpages : ((s.palloc.pool flags.user).base + pgSize * r) % sizeLimit =
      (s.palloc.pool flags.user).base + pgSize * r := by
    simp only [pgSize, sizeLimit] at hstop ⊢
    omega
  have hnull : (s.palloc.pool flags.user).base + pgSize * r ≠ 0 := by omega
  -- The new allocation, whatever is written to its pages.
  have hsound : ∀ memory, Sound freeStart userStart freeEnd
      ⟨{ s.palloc.setMap flags.user usedMap with memory := memory },
        ⟨(s.palloc.pool flags.user).base + pgSize * r, pageCnt, flags.user⟩ :: s.live⟩ := by
    intro memory
    have hsame := Palloc.samePools_setMap hset.bitCnt memory
    refine ⟨hsame.laid h.laid, ⟨flags.user, r, pageCnt⟩ :: bookings, ?_, ?_⟩
    · rw [hsame.allocation, hlive]
      rfl
    · rw [funext hsame.size]
      exact hbooked.book hcnt hroom (fun i hlow hhigh => hfree i hlow hhigh)
        fun k i _ => Palloc.bits_setMap memory hset k i
  simp only [ok_bind, hne, hpages, hnull, ne_eq, not_false_eq_true, if_true]
  cases hzero : flags.zero with
  | false => exact ⟨_, _, hnull, rfl, hsound (s.palloc.setMap flags.user usedMap).memory⟩
  | true => exact ⟨_, _, hnull, rfl, hsound _⟩

theorem Sound.free {a : Allocation} (ha : a ∈ s.live) :
    ∃ palloc', s.palloc.pallocFreeMultiple a.pages a.pageCnt = .ok palloc' ∧
      palloc'.pool (!a.user) = s.palloc.pool (!a.user) ∧
      Sound freeStart userStart freeEnd ⟨palloc', s.live.erase a⟩ := by
  obtain ⟨bookings, hlive, hbooked⟩ := h.booked
  rw [hlive] at ha
  obtain ⟨b, hb, rfl⟩ := mem_map.mp ha
  obtain ⟨hpos, hinside⟩ := hbooked.inside b hb
  have hstart : b.start < s.palloc.size b.key := by omega
  have haligned := h.laid.aligned b.key
  have hpositive := h.laid.base_pos b.key
  have hall := bitmapAll_eq hinside fun i hlow hhigh => hbooked.bits_of_mem hb ⟨rfl, hlow, hhigh⟩
  obtain ⟨usedMap, hmap, hset⟩ := bitmapSetMultiple_spec hinside false
  have hofs : ¬ pgOfs ((s.palloc.pool b.key).base + pgSize * b.start) ≠ 0 := by
    rw [pgOfs_eq]
    simp only [pgSize] at haligned ⊢
    omega
  have hskip : ¬ ((s.palloc.pool b.key).base + pgSize * b.start = 0 ∨ b.size = 0) := by omega
  have hidx : pgNo ((s.palloc.pool b.key).base + pgSize * b.start) -
      pgNo (s.palloc.pool b.key).base = b.start := by
    rw [h.laid.pgNo_page]
    omega
  refine ⟨{ s.palloc.setMap b.key usedMap with
    memory := memset s.palloc.memory ((s.palloc.pool b.key).base + pgSize * b.start) 0xcc
      (pgSize * b.size) }, ?_, ?_, ?_⟩
  · unfold Palloc.pallocFreeMultiple Palloc.allocation
    simp only [hofs, hskip, h.laid.findPool b.key hstart, hidx, hall, hmap, ok_bind]
    cases b.key <;> rfl
  · show (s.palloc.setMap b.key usedMap).pool (!b.key) = s.palloc.pool (!b.key)
    rw [Palloc.pool_setMap, if_neg (by simp)]
  have hsame := Palloc.samePools_setMap hset.bitCnt
    (memset s.palloc.memory ((s.palloc.pool b.key).base + pgSize * b.start) 0xcc
      (pgSize * b.size))
  refine ⟨hsame.laid h.laid, bookings.erase b, ?_, ?_⟩
  · rw [hsame.allocation, hlive, map_erase s.palloc.allocation_injective]
  · rw [funext hsame.size]
    exact hbooked.release hb fun k i _ => Palloc.bits_setMap _ hset k i

theorem Sound.step {l : PageLabel} (hstep : Step s l s') :
    s'.Sound freeStart userStart freeEnd := by
  unfold Step apply at hstep
  cases l with
  | get flags pageCnt =>
    rcases Nat.eq_zero_or_pos pageCnt with rfl | hcnt
    · have hnull : s.palloc.pallocGetMultiple flags 0 = .ok (0, s.palloc) := rfl
      cases hstep
      exact h
    rcases h.get flags hcnt with ⟨-, hnull | ⟨-, hpanic⟩⟩ | ⟨pages, palloc', hne, hget, hsound⟩
    · simp only [hnull] at hstep
      cases hstep
      exact h
    · simp only [hpanic] at hstep
      cases hstep
    · simp only [hget, ok_bind, hne] at hstep
      cases hstep
      exact hsound
  | free a =>
    simp only at hstep
    split at hstep
    · next ha =>
      obtain ⟨palloc', hfree, -, hsound⟩ := h.free ha
      rw [hfree] at hstep
      cases hstep
      exact hsound
    · cases hstep

theorem Sound.within {a : Allocation} (ha : a ∈ s.live) :
    a.extent.Within (s.palloc.pool a.user).pages := by
  obtain ⟨bookings, hlive, hbooked⟩ := h.booked
  rw [hlive] at ha
  obtain ⟨b, hb, rfl⟩ := mem_map.mp ha
  have hinside := (hbooked.inside b hb).2
  unfold Palloc.size at hinside
  unfold Extent.Within Extent.stop Allocation.extent Palloc.allocation Pool.pages
  simp only [pgSize]
  omega

theorem Sound.apart : s.live.Pairwise fun a b => a.extent.Apart b.extent := by
  obtain ⟨bookings, hlive, hbooked⟩ := h.booked
  have hwithin := fun a ha => h.within (a := a) ha
  rw [hlive] at hwithin ⊢
  rw [pairwise_map]
  apply hbooked.apart.imp_of_mem
  intro b c hb hc hapart
  by_cases hkey : c.key = b.key
  · -- Two runs of pages of one pool.
    have hbpos := (hbooked.inside b hb).1
    have hcpos := (hbooked.inside c hc).1
    have hbc := hapart b.key c.start
    have hcb := hapart b.key b.start
    unfold Booking.Has at hbc hcb
    unfold Extent.Apart Extent.stop Allocation.extent Palloc.allocation
    simp only [hkey, pgSize, true_and] at hbc hcb ⊢
    omega
  · have hother : (!b.key) = c.key := by
      cases hb : b.key <;> cases hc : c.key <;> simp_all
    have hpools := (h.laid.pages_apart b.key).2
    rw [hother] at hpools
    exact hpools.mono (hwithin _ (mem_map_of_mem hb)) (hwithin _ (mem_map_of_mem hc))

end

/-- **The page allocator hands out disjoint pages.**  However much memory there is, unless
`palloc_init` panics: the live allocations do not overlap each other, a bitmap or the other
pool, each of them can be given back to its own pool, and pages are refused only if the pool
has no free run of that length. -/
theorem pages_disjoint {extendedKb : UInt16} {userPageLimit : UInt32} {memory : ℕ → UInt8}
    {palloc : Palloc} {labels : List PageLabel}
    (hinit : Palloc.pallocInit (initRamPages extendedKb) userPageLimit.toNat memory = .ok palloc)
    (hrun : Run Step ⟨palloc, []⟩ labels s) :
    (s.live.Pairwise fun a b => a.extent.Apart b.extent) ∧
      (∀ a ∈ s.live, a.extent.Within (s.palloc.pool a.user).pages ∧
        (∀ user, a.extent.Apart (s.palloc.pool user).bitmapPages) ∧
        a.extent.Apart (s.palloc.pool (!a.user)).pages ∧
        ∃ palloc', s.palloc.pallocFreeMultiple a.pages a.pageCnt = .ok palloc' ∧
          palloc'.pool (!a.user) = s.palloc.pool (!a.user)) ∧
      ∀ flags pageCnt, 0 < pageCnt →
        (∃ pages palloc', s.palloc.pallocGetMultiple flags pageCnt = .ok (pages, palloc') ∧
          (pages = 0 → s.Full flags.user pageCnt)) ∨
        flags.assert = true ∧ s.Full flags.user pageCnt ∧ s.palloc.pallocGetMultiple flags pageCnt =
            .error (.panic "palloc_get: out of pages") := by
  obtain ⟨hlow, hhigh⟩ := Palloc.initRamPages_bounds extendedKb
  obtain ⟨⟨freeStart, userStart, freeEnd, hlaid⟩, hclear⟩ := Palloc.pallocInit_spec hlow hhigh hinit
  have h : s.Sound freeStart userStart freeEnd :=
    hrun.invariant ⟨hlaid, [], rfl, Booked.empty hclear⟩ fun _ _ _ hs hstep => hs.step hstep
  refine ⟨h.apart, ?_, ?_⟩
  · intro a ha
    have hwithin := h.within ha
    obtain ⟨hbitmaps, hpool⟩ := h.laid.pages_apart a.user
    obtain ⟨palloc', hfree, hother, -⟩ := h.free ha
    refine ⟨hwithin, ?_, ?_, palloc', hfree, hother⟩
    · exact fun user => (hbitmaps user).mono hwithin ⟨le_refl _, le_refl _⟩
    · exact hpool.mono hwithin ⟨le_refl _, le_refl _⟩
  · intro flags pageCnt hcnt
    rcases h.get flags hcnt with ⟨hfull, hnull | ⟨hassert, hpanic⟩⟩ | ⟨pages, palloc', hne, hget, -⟩
    · exact .inl ⟨0, s.palloc, hnull, fun _ => hfull⟩
    · exact .inr ⟨hassert, hfull, hpanic⟩
    · exact .inl ⟨pages, palloc', hget, fun hzero => absurd hzero hne⟩

/-- With 1040 kB of memory each pool has one page.  A caller takes both and gives the page of
the user pool back for another one. -/
theorem pages_disjoint_two_pools : ∃ palloc labels s,
    Palloc.pallocInit (initRamPages 16) (100 : UInt32).toNat (fun _ => 0) = .ok palloc ∧
      Run Step ⟨palloc, []⟩ labels s ∧ s.live.length = 2 ∧
      s.live.Pairwise fun a b => a.extent.Apart b.extent := by
  obtain ⟨palloc, hinit, hexec⟩ : ∃ palloc,
      Palloc.pallocInit (initRamPages 16) (100 : UInt32).toNat (fun _ => 0) = .ok palloc ∧
        ∃ s ∈ execute (outcome apply) ⟨palloc, []⟩ [.get ⟨false, false, true⟩ 1,
          .get ⟨false, true, false⟩ 1, .free ⟨0xc0103000, 1, true⟩, .get ⟨true, false, true⟩ 1],
          s.live.length = 2 := by
    decide +kernel
  obtain ⟨s, hrun, hlength⟩ := exists_run_of_execute (fun _ _ _ => outcome_eq_some.mp) hexec
  exact ⟨palloc, _, s, hinit, hrun, hlength, (pages_disjoint hinit hrun).1⟩

end PageSystem

end CS162
