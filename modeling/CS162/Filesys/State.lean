import CS162.Library.Words
import CS162.Cache.Refinement

/-!
# The state of the file system

The modules of `filesys/` share the disk behind the buffer cache, the free map, the
list of open inodes and the heap.  They reach the disk only through `cache_read` and
`cache_write`, one call after another, so what they see is the logical disk of
`BufferCache.cache_refines_disk`: `content` is that disk.  `Backs` says so, and
`accesses_backed` carries every sequence of accesses over to `cache.c`.

An access past the end of the device stops the call.  (`cache.c` lets such a write
into the cache and panics when the block is written back.)

`malloc` may fail at any time.  The heap is the sequence of answers it will give.
-/

namespace CS162

open Library

/-- `struct inode`: an open inode.  The two counts are `int`s in the source; their overflow is a
fault of the calls in `Handles`. -/
structure Inode where
  sector : BlockSector
  openCnt : ℤ
  removed : Bool
  denyWriteCnt : ℤ
  deriving DecidableEq, Repr

/-- The file system as the calls of `filesys/` see it. -/
structure FileSys where
  /-- `block_size (fs_device)`, a `block_sector_t`. -/
  size : ℕ
  size_lt : size < 2 ^ 32
  /-- The disk behind the buffer cache. -/
  content : BlockSector → Sector
  /-- The bits of `free_map`; those from `size` on are the unused end of its last word. -/
  freeMap : ℕ → Bool
  /-- The inode of `free_map_file`; `none` is the null pointer. -/
  freeMapFile : Option Inode
  openInodes : List Inode
  /-- What the next calls of `malloc` will answer. -/
  heap : ℕ → Bool

/-- Kernel code that uses the file system. -/
abbrev Fs := StateT FileSys (Except Fault)

namespace FileSys

variable {s : FileSys} {sector : BlockSector}

def Has (s : FileSys) (sector : BlockSector) : Prop := sector.toNat < s.size

instance (s : FileSys) (sector : BlockSector) : Decidable (s.Has sector) :=
  inferInstanceAs (Decidable (_ < _))

/-- No call of `malloc` fails. -/
def MemAvailable (s : FileSys) : Prop := s.heap = fun _ => true

theorem MemAvailable.congr {t : FileSys} (h : s.MemAvailable) (heq : t.heap = s.heap) :
    t.MemAvailable := heq.trans h

def cacheRead (sector : BlockSector) : Fs Sector := do
  let s ← get
  if s.Has sector then return s.content sector else throw (.panic "Access past end of device")

def cacheWrite (sector : BlockSector) (buffer : Sector) : Fs Unit := do
  let s ← get
  if s.Has sector then set { s with content := Function.update s.content sector buffer }
  else throw (.panic "Access past end of device")

/-- Whether `malloc` or `calloc` returns memory. -/
def malloc : Fs Bool := do
  let s ← get
  set { s with heap := fun n => s.heap (n + 1) }
  return s.heap 0

/-! ## Rules for the primitives -/

section Rules

variable {E : Fault → Prop}

theorem cacheRead_rule {Q : Sector → FileSys → Prop} (hQ : s.Has sector → Q (s.content sector) s)
    (hE : ¬ s.Has sector → E (.panic "Access past end of device")) :
    Spec E (cacheRead sector) s Q :=
  Spec.get_bind (Spec.ite (fun h => .pure (hQ h)) fun h => .throw (hE h))

theorem cacheWrite_rule {buffer : Sector} {Q : Unit → FileSys → Prop}
    (hQ : s.Has sector → Q () { s with content := Function.update s.content sector buffer })
    (hE : ¬ s.Has sector → E (.panic "Access past end of device")) :
    Spec E (cacheWrite sector buffer) s Q :=
  Spec.get_bind (Spec.ite (fun h => .set (hQ h)) fun h => .throw (hE h))

theorem cacheRead_spec {Q : Sector → FileSys → Prop} (h : s.Has sector)
    (hQ : Q (s.content sector) s) : Spec E (cacheRead sector) s Q :=
  cacheRead_rule (fun _ => hQ) fun hnot => absurd h hnot

theorem cacheWrite_spec {buffer : Sector} {Q : Unit → FileSys → Prop} (h : s.Has sector)
    (hQ : Q () { s with content := Function.update s.content sector buffer }) :
    Spec E (cacheWrite sector buffer) s Q :=
  cacheWrite_rule (fun _ => hQ) fun hnot => absurd h hnot

theorem malloc_spec {Q : Bool → FileSys → Prop}
    (hQ : Q (s.heap 0) { s with heap := fun n => s.heap (n + 1) }) : Spec E malloc s Q := hQ

/-- With memory available `malloc` succeeds and leaves no trace. -/
theorem malloc_of_memAvailable {Q : Bool → FileSys → Prop} (h : s.MemAvailable) (hQ : Q true s) :
    Spec E malloc s Q := by
  apply malloc_spec
  cases s
  cases h
  exact hQ

end Rules

/-! ## The buffer cache behind the disk -/

/-- The buffer cache holds the disk the file system sees. -/
structure Backs (cache : BufferCache) (s : FileSys) : Prop where
  valid : cache.Valid
  size : cache.device.size = s.size
  logical : cache.logical = s.content

/-- A call of the buffer cache on the disk the file system sees, where nothing is left to flush. -/
def access : CacheCall → Fs (Option Sector)
  | .read sector => do return some (← cacheRead sector)
  | .write sector buffer => do
      cacheWrite sector buffer
      return none
  | .flush => return none

theorem access_spec (s : FileSys) (c : CacheCall) : Ensures (access c) s fun result t =>
    c.InRange s.size ∧ result = c.result s.content ∧
      t = { s with content := c.apply s.content } := by
  cases c with
  | read sector => exact .bind (cacheRead_rule (fun h => .pure ⟨h, rfl, rfl⟩) fun _ => trivial)
  | write sector buffer =>
    exact .bind (cacheWrite_rule (fun h => .pure ⟨h, rfl, rfl⟩) fun _ => trivial)
  | flush => exact .pure ⟨trivial, rfl, rfl⟩

theorem access_backed {cache : BufferCache} (h : Backs cache s) (c : CacheCall) :
    Ensures (access c) s fun result t =>
      ∃ next, cache.call c = .ok (result, next) ∧ Backs next t := by
  refine (access_spec s c).post ?_
  rintro _ _ ⟨hrange, rfl, rfl⟩
  obtain ⟨next, hcall, hvalid, hlogical, hsize, -⟩ :=
    BufferCache.call_spec h.valid (c := c) (h.size ▸ hrange)
  exact ⟨next, h.logical ▸ hcall, hvalid, hsize.trans h.size, h.logical ▸ hlogical⟩

theorem run_backed {cache : BufferCache} {results : List (Option Sector)} {t : FileSys}
    (h : Backs cache s) (calls : List CacheCall)
    (hrun : (calls.mapM access).run s = .ok (results, t)) :
    ∃ next, cache.run calls = .ok (results, next) ∧ Backs next t := by
  induction calls generalizing cache s results with
  | nil =>
    cases hrun
    exact ⟨cache, rfl, h⟩
  | cons c rest ih =>
    rw [List.mapM_cons, StateT.run_bind] at hrun
    obtain ⟨⟨result, mid⟩, hcall, hrun⟩ := bind_eq_ok.mp hrun
    rw [StateT.run_bind] at hrun
    obtain ⟨⟨results, last⟩, hrest, hrun⟩ := bind_eq_ok.mp hrun
    cases hrun
    obtain ⟨cache', hcall, hmid⟩ := (access_backed h c).of_run_eq hcall
    obtain ⟨next, hrest, hnext⟩ := ih hmid hrest
    refine ⟨next, ?_, hnext⟩
    rw [BufferCache.run, hcall, ok_bind]
    exact congrArg (· >>= _) hrest

/-- **The buffer cache carries out what the file system does to its disk.**  Whatever the cache
holds, a sequence of accesses returns the same sectors through the cache, and a flush then writes
the disk that the file system sees to the device. -/
theorem accesses_backed {cache : BufferCache} {results : List (Option Sector)} {t : FileSys}
    (h : Backs cache s) (calls : List CacheCall)
    (hrun : (calls.mapM access).run s = .ok (results, t)) :
    ∃ next final, cache.run calls = .ok (results, next) ∧ Backs next t ∧
      next.cacheFlush = .ok final ∧ final.device.content = t.content := by
  obtain ⟨next, hrun, hnext⟩ := run_backed h calls hrun
  obtain ⟨final, hflush, -, -, hdevice, -⟩ := BufferCache.cacheFlush_spec hnext.valid
  exact ⟨next, final, hrun, hnext, hflush, hdevice.trans hnext.logical⟩

/-- All blocks are in use and dirty; the device has one sector more. -/
def fullCache : BufferCache :=
  ⟨⟨65, fun _ _ => 0⟩, fun i => ⟨.ofNat i, fun _ => 7, true⟩, List.finRange cacheSize⟩

/-- The file system behind it. -/
def fullCacheDisk : FileSys :=
  ⟨65, by decide, fun x => if x.toNat < 64 then fun _ => 7 else fun _ => 0, fun _ => false, none,
    [], fun _ => true⟩

theorem backs_fullCache : Backs fullCache fullCacheDisk := by
  have htag : ∀ i, (fullCache.blocks i).sectorTag.toNat = i.val := by decide
  have hlive : ∀ i, fullCache.Live i := fun i => by simp [fullCache]
  have hvalid : fullCache.Valid := by
    refine ⟨⟨List.nodup_finRange _, fun i => ?_, fun i j _ _ heq => Fin.ext ?_⟩, fun i _ => ?_,
      nofun⟩
    · exact iff_of_true (List.mem_finRange i) (hlive i)
    · rw [← htag i, heq, htag]
    · rw [htag]
      exact i.isLt.trans (by decide)
  refine ⟨hvalid, rfl, hvalid.logical_eq (fun i _ => ?_) fun x hx => if_neg fun hlt => ?_⟩
  · exact if_pos (by rw [htag]; exact i.isLt)
  · exact hx ⟨x.toNat, hlt⟩ (hlive _) (UInt32.toNat_inj.mp (htag _))

/-- Three accesses, each of which evicts a dirty block. -/
theorem accesses_backed_evicting : (∀ i, fullCache.Live i ∧ (fullCache.blocks i).dirtyBit) ∧
    ∃ t next final, fullCache.run [.write 64 fun _ => 1, .read 63, .read 62] =
        .ok ([none, some fun _ => 7, some fun _ => 7], next) ∧ Backs next t ∧
      next.cacheFlush = .ok final ∧ final.device.content = t.content ∧
      t.content 64 = fun _ => 1 := by
  refine ⟨fun i => ⟨by simp [fullCache], rfl⟩, ?_⟩
  obtain ⟨next, final, hrun, hback, hflush, hdevice⟩ := accesses_backed backs_fullCache
    [.write 64 fun _ => 1, .read 63, .read 62] rfl
  exact ⟨_, next, final, hrun, hback, hflush, hdevice, rfl⟩

end FileSys

end CS162
