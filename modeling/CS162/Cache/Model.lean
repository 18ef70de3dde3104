import Mathlib.Data.List.FinRange
import CS162.Block

/-!
# The buffer cache

`filesys/cache.c` keeps 64 sectors in memory.  A block carries the number of the
sector it holds, the sector's bytes and a dirty bit; `LRU_list` orders the blocks
in use from the most to the least recently used one.  Blocks come into use in
index order, so the first `list_size (&LRU_list)` blocks are exactly the ones on
the list, which is what lets `cache_read` and `cache_write` search for a sector
by index.

Here one call runs at a time.  The locks of `cache.c` then never wait and are left
out; `Cache/Threads.lean` models the calls of several threads step by step.
-/

namespace CS162

open Function

/-- `CACHE_SIZE` of `filesys/cache.h`. -/
abbrev cacheSize : ℕ := 64

/-- `struct cache_block`, without its lock and its list element. -/
structure CacheBlock where
  sectorTag : BlockSector
  sector : Sector
  dirtyBit : Bool

/-- The file-scope state of `cache.c`, with the device it caches. -/
structure BufferCache where
  device : Device
  blocks : Fin cacheSize → CacheBlock
  /-- `LRU_list`, most recently used block first. -/
  lruList : List (Fin cacheSize)

namespace BufferCache

/-- `cache_init`: the list is emptied; the blocks keep whatever they hold. -/
@[simp] def cacheInit (device : Device) (blocks : Fin cacheSize → CacheBlock) : BufferCache :=
  ⟨device, blocks, []⟩

/-- The search loop of `cache_read` and `cache_write`: the first block with index
below `list_size (&LRU_list)` whose tag is `sector`. -/
def findBlock (cache : BufferCache) (sector : BlockSector) : Option (Fin cacheSize) :=
  (List.finRange cacheSize).find? fun i =>
    i.val < cache.lruList.length && (cache.blocks i).sectorTag == sector

/-- `list_remove` followed by `list_push_front`. -/
def touch (i : Fin cacheSize) (list : List (Fin cacheSize)) : List (Fin cacheSize) :=
  i :: list.erase i

/-- The write-back of an evicted block. -/
def writeBack (device : Device) (block : CacheBlock) : Except Fault Device :=
  if block.dirtyBit then device.blockWrite block.sectorTag block.sector else return device

def cacheRead (cache : BufferCache) (sector : BlockSector) : Except Fault (Sector × BufferCache) :=
  match cache.findBlock sector with
  | some i => return ((cache.blocks i).sector, { cache with lruList := touch i cache.lruList })
  | none =>
    if h : cache.lruList.length < cacheSize then do
      let i : Fin cacheSize := ⟨cache.lruList.length, h⟩
      let buffer ← cache.device.blockRead sector
      return (buffer, { cache with
        blocks := update cache.blocks i ⟨sector, buffer, false⟩
        lruList := i :: cache.lruList })
    else
      match cache.lruList.getLast? with
      | none => throw (.panic "list_pop_back")
      | some i => do
          let device ← writeBack cache.device (cache.blocks i)
          let buffer ← device.blockRead sector
          return (buffer, { cache with
            device := device
            blocks := update cache.blocks i ⟨sector, buffer, false⟩
            lruList := i :: cache.lruList.dropLast })

def cacheWrite (cache : BufferCache) (sector : BlockSector) (buffer : Sector) :
    Except Fault BufferCache :=
  match cache.findBlock sector with
  | some i => return { cache with
      blocks := update cache.blocks i ⟨(cache.blocks i).sectorTag, buffer, true⟩
      lruList := touch i cache.lruList }
  | none =>
    if h : cache.lruList.length < cacheSize then
      let i : Fin cacheSize := ⟨cache.lruList.length, h⟩
      return { cache with
        blocks := update cache.blocks i ⟨sector, buffer, true⟩
        lruList := i :: cache.lruList }
    else
      match cache.lruList.getLast? with
      | none => throw (.panic "list_pop_back")
      | some i => do
          let device ← writeBack cache.device (cache.blocks i)
          return { cache with
            device := device
            blocks := update cache.blocks i ⟨sector, buffer, true⟩
            lruList := i :: cache.lruList.dropLast }

/-- One round of the loop of `cache_flush`. -/
def flushBlock (cache : BufferCache) (i : Fin cacheSize) : Except Fault BufferCache :=
  if (cache.blocks i).dirtyBit then do
    let device ← cache.device.blockWrite (cache.blocks i).sectorTag (cache.blocks i).sector
    return { cache with
      device := device
      blocks := update cache.blocks i { cache.blocks i with dirtyBit := false } }
  else
    return cache

def cacheFlush (cache : BufferCache) : Except Fault BufferCache :=
  ((List.finRange cacheSize).filter fun i => i.val < cache.lruList.length).foldlM flushBlock cache

end BufferCache

/-! ## Sequences of calls -/

/-- A call of the cache's interface. -/
inductive CacheCall where
  | read (sector : BlockSector)
  | write (sector : BlockSector) (buffer : Sector)
  | flush

namespace BufferCache

/-- One call: what it returns (nothing, for `cache_write` and `cache_flush`) and
the cache it leaves. -/
def call (cache : BufferCache) : CacheCall → Except Fault (Option Sector × BufferCache)
  | .read sector => do
      let (buffer, cache) ← cache.cacheRead sector
      return (some buffer, cache)
  | .write sector buffer => do
      let cache ← cache.cacheWrite sector buffer
      return (none, cache)
  | .flush => do
      let cache ← cache.cacheFlush
      return (none, cache)

/-- A finite sequence of calls, one after another, with what each returns. -/
def run (cache : BufferCache) : List CacheCall → Except Fault (List (Option Sector) × BufferCache)
  | [] => return ([], cache)
  | c :: rest => do
      let (result, cache) ← cache.call c
      let (results, cache) ← cache.run rest
      return (result :: results, cache)

end BufferCache

end CS162
