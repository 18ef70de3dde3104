import CS162.Cache.Model
import CS162.Threads.Semaphore

/-!
# The buffer cache under concurrent calls

Several threads call `cache_read` and `cache_write`.  A step runs one thread from
one synchronization operation to the next: an acquire or release of `LRU_lock` or
of a block's `block_lock`, or a single `block_read` or `block_write`.  What a thread
does between two such operations (searching the blocks, moving list elements,
copying bytes) belongs to the step of the operation before it, except that the final
copy is taken together with the release of `block_lock` and the return of the call.

The way of a call through `cache.c` is recorded in `Pc`:

```text
start       about to acquire LRU_lock, then search and pick a block
lockBlock   about to acquire block_lock, then (evicting) retag the block
unlockLru   about to release LRU_lock
writeBack   about to write the evicted sector to the device
fetch       about to read the new sector from the device
finish      about to copy the bytes, release block_lock and return
```

An acquire is possible only while the lock is free; a thread that has to wait has no
step.  The history lists the calls and returns in the order they happen.
-/

namespace CS162

open Function

/-- The calls a thread makes. -/
inductive CacheOp where
  | read (sector : BlockSector)
  | write (sector : BlockSector) (buffer : Sector)

namespace CacheOp

def sector : CacheOp → BlockSector
  | read sector => sector
  | write sector _ => sector

def isWrite : CacheOp → Bool
  | read _ => false
  | write _ _ => true

end CacheOp

/-- The three branches of `cache_read` and `cache_write`. -/
inductive CachePath where
  | hit
  | fill
  | evict
  deriving DecidableEq

/-- Where a thread is inside a call. -/
inductive Pc where
  | idle
  | start (op : CacheOp)
  | lockBlock (op : CacheOp) (path : CachePath) (i : Fin cacheSize)
  | unlockLru (op : CacheOp) (path : CachePath) (i : Fin cacheSize) (oldSector : BlockSector)
  | writeBack (op : CacheOp) (i : Fin cacheSize) (oldSector : BlockSector)
  | fetch (op : CacheOp) (i : Fin cacheSize)
  | finish (op : CacheOp) (i : Fin cacheSize)

/-- Calls and returns; a `cache_read` returns the bytes it copied to its buffer. -/
inductive CacheEvent where
  | call (t : Tid) (op : CacheOp)
  | ret (t : Tid) (op : CacheOp) (result : Sector)

def CacheEvent.tid : CacheEvent → Tid
  | call t _ => t
  | ret t _ _ => t

/-- The cache, its locks and the threads using it. -/
structure ThreadedCache where
  cache : BufferCache
  /-- The holder of `LRU_lock`. -/
  lruLock : Option Tid
  /-- The holder of each `block_lock`. -/
  blockLock : Fin cacheSize → Option Tid
  pc : Tid → Pc
  history : List CacheEvent

/-- One thread calls, or one thread takes its next step. -/
inductive CacheLabel where
  | call (t : Tid) (op : CacheOp)
  | step (t : Tid)

namespace ThreadedCache

/-- No thread has called yet. -/
@[simp] def init (device : Device) (blocks : Fin cacheSize → CacheBlock) : ThreadedCache :=
  ⟨.cacheInit device blocks, none, fun _ => none, fun _ => .idle, []⟩

@[simp] def goto (s : ThreadedCache) (t : Tid) (pc : Pc) : ThreadedCache :=
  { s with pc := update s.pc t pc }

@[simp] def setBlock (s : ThreadedCache) (i : Fin cacheSize) (block : CacheBlock) : ThreadedCache :=
  { s with cache := { s.cache with blocks := update s.cache.blocks i block } }

@[simp] def setList (s : ThreadedCache) (list : List (Fin cacheSize)) : ThreadedCache :=
  { s with cache := { s.cache with lruList := list } }

/-- The step that acquires `LRU_lock`: search for the sector and pick a block. -/
def search (s : ThreadedCache) (t : Tid) (op : CacheOp) : Option ThreadedCache :=
  let s := { s with lruLock := some t }
  match s.cache.findBlock op.sector with
  | some i => some ((s.setList (BufferCache.touch i s.cache.lruList)).goto t (.lockBlock op .hit i))
  | none =>
    if h : s.cache.lruList.length < cacheSize then
      let i : Fin cacheSize := ⟨s.cache.lruList.length, h⟩
      let block := { s.cache.blocks i with sectorTag := op.sector, dirtyBit := op.isWrite }
      some (((s.setBlock i block).setList (i :: s.cache.lruList)).goto t (.lockBlock op .fill i))
    else
      match s.cache.lruList.getLast? with
      | none => none
      | some i =>
        some ((s.setList (i :: s.cache.lruList.dropLast)).goto t (.lockBlock op .evict i))

/-- The step that acquires `block_lock`; an evicting call retags the block. -/
def acquireBlock (s : ThreadedCache) (t : Tid) (op : CacheOp) (path : CachePath)
    (i : Fin cacheSize) : ThreadedCache :=
  let s := { s with blockLock := update s.blockLock i (some t) }
  let oldSector := (s.cache.blocks i).sectorTag
  match path with
  | .evict =>
    (s.setBlock i { s.cache.blocks i with sectorTag := op.sector }).goto t
      (.unlockLru op .evict i oldSector)
  | path => s.goto t (.unlockLru op path i oldSector)

/-- Once the block is clean, `cache_read` fetches its sector and `cache_write` is
ready to overwrite the block. -/
def load (op : CacheOp) (i : Fin cacheSize) : Pc :=
  if op.isWrite then .finish op i else .fetch op i

/-- The step that releases `LRU_lock`. -/
def releaseLru (s : ThreadedCache) (t : Tid) (op : CacheOp) (path : CachePath)
    (i : Fin cacheSize) (oldSector : BlockSector) : ThreadedCache :=
  let s := { s with lruLock := none }
  match path with
  | .hit => s.goto t (.finish op i)
  | .fill => s.goto t (load op i)
  | .evict =>
    if (s.cache.blocks i).dirtyBit then s.goto t (.writeBack op i oldSector)
    else s.goto t (load op i)

/-- The `block_write` of an eviction; only `cache_read` clears the dirty bit. -/
def writeOld (s : ThreadedCache) (t : Tid) (op : CacheOp) (i : Fin cacheSize)
    (oldSector : BlockSector) : Option ThreadedCache :=
  let block := s.cache.blocks i
  match s.cache.device.blockWrite oldSector block.sector with
  | .error _ => none
  | .ok device =>
    let s := { s with cache := { s.cache with device := device } }
    some ((s.setBlock i { block with dirtyBit := op.isWrite && block.dirtyBit }).goto t (load op i))

/-- The `block_read` of a miss. -/
def readNew (s : ThreadedCache) (t : Tid) (op : CacheOp) (i : Fin cacheSize) :
    Option ThreadedCache :=
  match s.cache.device.blockRead op.sector with
  | .error _ => none
  | .ok buffer =>
    some ((s.setBlock i { s.cache.blocks i with sector := buffer }).goto t (.finish op i))

/-- The step that releases `block_lock` and returns. -/
def finishCall (s : ThreadedCache) (t : Tid) (op : CacheOp) (i : Fin cacheSize) : ThreadedCache :=
  let s := { s with blockLock := update s.blockLock i none }
  match op with
  | .read _ =>
    { s.goto t .idle with history := s.history ++ [.ret t op (s.cache.blocks i).sector] }
  | .write _ buffer =>
    let s := s.setBlock i { s.cache.blocks i with sector := buffer, dirtyBit := true }
    { s.goto t .idle with history := s.history ++ [.ret t op buffer] }

/-- The next step of thread `t`, if it has one. -/
def step (s : ThreadedCache) (t : Tid) : Option ThreadedCache :=
  match s.pc t with
  | .idle => none
  | .start op => if s.lruLock = none then s.search t op else none
  | .lockBlock op path i => if s.blockLock i = none then some (s.acquireBlock t op path i) else none
  | .unlockLru op path i oldSector => some (s.releaseLru t op path i oldSector)
  | .writeBack op i oldSector => s.writeOld t op i oldSector
  | .fetch op i => s.readNew t op i
  | .finish op i => some (s.finishCall t op i)

/-- Thread `t` calls `cache_read` or `cache_write`. -/
def startCall (s : ThreadedCache) (t : Tid) (op : CacheOp) : Option ThreadedCache :=
  match s.pc t with
  | .idle => some { s.goto t (.start op) with history := s.history ++ [.call t op] }
  | _ => none

def next (s : ThreadedCache) : CacheLabel → Option ThreadedCache
  | .call t op => s.startCall t op
  | .step t => s.step t

end ThreadedCache

/-! ## Stale reads -/

namespace CacheEvent

/-- What the event writes to `sector` by returning from a `cache_write`. -/
def written? (sector : BlockSector) : CacheEvent → Option Sector
  | .ret _ (.write target buffer) _ => if target = sector then some buffer else none
  | _ => none

/-- The bytes of the latest completed `cache_write` to `sector`. -/
def lastWritten (history : List CacheEvent) (sector : BlockSector) : Option Sector :=
  history.reverse.findSome? (written? sector)

/-- No `cache_read` in the history is stale.  A read of `sector` is called at
position `i` and returns at position `j`; every write to `sector` called before the
read returns had already returned when the read was called, so none overlaps the
read.  Then the read returns the bytes of the latest of these writes. -/
def NeverStale (history : List CacheEvent) : Prop :=
  ∀ (i j : ℕ) (t : Tid) (sector : BlockSector) (result buffer : Sector),
    history[i]? = some (.call t (.read sector)) →
    history[j]? = some (.ret t (.read sector) result) →
    i < j → (∀ k e, i < k → k < j → history[k]? = some e → e.tid ≠ t) →
    (∀ k u b, k < j → history[k]? = some (.call u (.write sector b)) →
      ∃ m b' r, k < m ∧ m < i ∧ history[m]? = some (.ret u (.write sector b') r)) →
    lastWritten (history.take i) sector = some buffer →
    result = buffer

end CacheEvent

end CS162
