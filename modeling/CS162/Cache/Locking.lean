import CS162.Library.LockOrder
import CS162.Cache.Coherence

/-!
# The structure of the buffer cache under all its calls

`ThreadedCache` has the calls of `cache_read` and `cache_write`; here threads call
`cache_flush` as well.  It keeps `LRU_lock` to its end and takes the `block_lock` of each dirty
block in turn, so it waits for calls that still work on a block and keeps out new ones.

## Strategy

What the list and the tags are is changed only with `LRU_lock` held: by a search, and by an
eviction that retags its block before it releases the lock.  In between the evicting thread
knows that no block has the tag it is going to write.  The locks are taken in one order,
`LRU_lock` before any `block_lock`, and no thread takes a second `block_lock`.
-/

namespace CS162

open Library Function List

/-- Where a thread is in `cache_flush`. -/
inductive FlushPc where
  /-- About to acquire `LRU_lock`. -/
  | start
  /-- At the test of the loop for block `i`; `size` is the length of the list. -/
  | scan (i size : ℕ)
  /-- About to acquire the block's lock. -/
  | lock (i : Fin cacheSize) (size : ℕ)
  /-- About to write the block to the device. -/
  | write (i : Fin cacheSize) (size : ℕ)
  /-- About to clear the dirty bit and release the block's lock. -/
  | clear (i : Fin cacheSize) (size : ℕ)

/-- The threads of the cache, with those in `cache_flush`. -/
structure FlushedCache extends ThreadedCache where
  flush : Tid → Option FlushPc

inductive FlushLabel where
  | call (t : Tid) (op : CacheOp)
  | flush (t : Tid)
  | step (t : Tid)

/-- The locks of the cache. -/
inductive CacheLock where
  | lru
  | block (i : Fin cacheSize)
  deriving DecidableEq

namespace FlushedCache

@[simp] def init (device : Device) (blocks : Fin cacheSize → CacheBlock) : FlushedCache :=
  ⟨.init device blocks, fun _ => none⟩

def withCache (s : FlushedCache) (cache : ThreadedCache) : FlushedCache :=
  { s with toThreadedCache := cache }

def gotoFlush (s : FlushedCache) (t : Tid) (pc : Option FlushPc) : FlushedCache :=
  { s with flush := update s.flush t pc }

/-- The next step of a thread in `cache_flush`. -/
def flushStep (s : FlushedCache) (t : Tid) : FlushPc → Option FlushedCache
  | .start =>
    if s.lruLock = none then
      some ({ s with lruLock := some t }.gotoFlush t (some (.scan 0 s.cache.lruList.length)))
    else none
  | .scan i size =>
    if i < size then
      if h : i < cacheSize then
        if (s.cache.blocks ⟨i, h⟩).dirtyBit then some (s.gotoFlush t (some (.lock ⟨i, h⟩ size)))
        else some (s.gotoFlush t (some (.scan (i + 1) size)))
      else none
    else some ({ s with lruLock := none }.gotoFlush t none)
  | .lock i size =>
    if s.blockLock i = none then
      some ({ s with blockLock := update s.blockLock i (some t) }.gotoFlush t
        (some (.write i size)))
    else none
  | .write i size =>
    match s.cache.device.blockWrite (s.cache.blocks i).sectorTag (s.cache.blocks i).sector with
    | .error _ => none
    | .ok device =>
      some ((s.withCache { s.toThreadedCache with
        cache := { s.cache with device := device } }).gotoFlush t (some (.clear i size)))
  | .clear i size =>
    some ((s.withCache ({ s.toThreadedCache with
      blockLock := update s.blockLock i none }.setBlock i
        { s.cache.blocks i with dirtyBit := false })).gotoFlush t (some (.scan (i + 1) size)))

def next (s : FlushedCache) : FlushLabel → Option FlushedCache
  | .call t op =>
    if (s.flush t).isNone then (s.toThreadedCache.startCall t op).map s.withCache else none
  | .flush t =>
    match s.pc t, s.flush t with
    | .idle, none => some (s.gotoFlush t (some .start))
    | _, _ => none
  | .step t =>
    match s.flush t with
    | none => (s.toThreadedCache.step t).map s.withCache
    | some pc => s.flushStep t pc

def Step (s : FlushedCache) (l : FlushLabel) (s' : FlushedCache) : Prop := s.next l = some s'

end FlushedCache

/-! ## The locks a thread holds and waits for -/

namespace Pc

/-- The block whose lock the thread holds. -/
def block? : Pc → Option (Fin cacheSize)
  | unlockLru _ _ i _ | writeBack _ i _ | fetch _ i | finish _ i => some i
  | _ => none

/-- The lock the thread is about to acquire. -/
def wants : Pc → Option CacheLock
  | start _ => some .lru
  | lockBlock _ _ i => some (.block i)
  | _ => none

end Pc

namespace FlushPc

def holdsLru : FlushPc → Bool
  | start => false
  | _ => true

def block? : FlushPc → Option (Fin cacheSize)
  | write i _ | clear i _ => some i
  | _ => none

def wants : FlushPc → Option CacheLock
  | start => some .lru
  | lock i _ => some (.block i)
  | _ => none

end FlushPc

namespace FlushedCache

open ThreadedCache (HoldsLru Untagged goto_pc_of_ne not_holdsLru_load)
open BufferCache (sectorTag_update)

variable {s s' : FlushedCache} {t u : Tid}

/-- Thread `t` has acquired the lock and not released it. -/
def Holds (s : FlushedCache) (t : Tid) : CacheLock → Prop
  | .lru => HoldsLru (s.pc t) ∨ ∃ pc, s.flush t = some pc ∧ pc.holdsLru = true
  | .block i => (s.pc t).block? = some i ∨ ∃ pc, s.flush t = some pc ∧ pc.block? = some i

/-- The lock thread `t` is about to acquire. -/
def wants (s : FlushedCache) (t : Tid) : Option CacheLock :=
  match s.flush t with
  | none => (s.pc t).wants
  | some pc => pc.wants

/-- **The invariant.** -/
structure Structured (s : FlushedCache) : Prop extends s.cache.Listed where
  lru : ∀ t, s.Holds t .lru → s.lruLock = some t
  block : ∀ t i, s.Holds t (.block i) → s.blockLock i = some t
  evict : ∀ t op i, s.pc t = .lockBlock op .evict i →
    s.cache.Live i ∧ Untagged s.toThreadedCache op.sector
  single : ∀ t, s.flush t ≠ none → s.pc t = .idle

theorem Structured.init (device : Device) (blocks : Fin cacheSize → CacheBlock) :
    (init device blocks).Structured where
  nodup := nodup_nil
  mem_iff i := by simp
  tag_inj i j hi := by simp at hi
  lru t ht := by simp [Holds, HoldsLru] at ht
  block t i ht := by simp [Holds, Pc.block?] at ht
  evict t op i ht := by simp at ht
  single t ht := absurd rfl ht

theorem holds_congr (hpc : s'.pc u = s.pc u) (hflush : s'.flush u = s.flush u) (lock : CacheLock) :
    s'.Holds u lock ↔ s.Holds u lock := by
  cases lock <;> simp only [Holds, hpc, hflush]

/-- A step of thread `t`: the list and the tags are as they should be, and the other threads
keep their locks. -/
theorem Structured.frame (h : s.Structured) (hpc : ∀ u, u ≠ t → s'.pc u = s.pc u)
    (hflush : ∀ u, u ≠ t → s'.flush u = s.flush u) (hlisted : s'.cache.Listed)
    (hlru : ∀ u, u ≠ t → s.lruLock = some u → s'.lruLock = some u)
    (hblock : ∀ u i, u ≠ t → s.blockLock i = some u → s'.blockLock i = some u)
    (hselfLru : s'.Holds t .lru → s'.lruLock = some t)
    (hselfBlock : ∀ i, s'.Holds t (.block i) → s'.blockLock i = some t)
    (hevict : ∀ u op i, u ≠ t → s.pc u = .lockBlock op .evict i → s'.cache.Live i ∧
      Untagged s'.toThreadedCache op.sector)
    (hselfEvict : ∀ op i, s'.pc t = .lockBlock op .evict i → s'.cache.Live i ∧
      Untagged s'.toThreadedCache op.sector)
    (hsingle : s'.flush t ≠ none → s'.pc t = .idle) : s'.Structured := by
  constructor
  · exact hlisted
  · intro u hu
    by_cases hut : u = t
    · rw [hut] at hu ⊢
      exact hselfLru hu
    · rw [holds_congr (hpc u hut) (hflush u hut)] at hu
      exact hlru u hut (h.lru u hu)
  · intro u i hu
    by_cases hut : u = t
    · rw [hut] at hu ⊢
      exact hselfBlock i hu
    · rw [holds_congr (hpc u hut) (hflush u hut)] at hu
      exact hblock u i hut (h.block u i hu)
  · intro u op i hu
    by_cases hut : u = t
    · rw [hut] at hu
      exact hselfEvict op i hu
    · rw [hpc u hut] at hu
      exact hevict u op i hut hu
  · intro u hu
    by_cases hut : u = t
    · rw [hut] at hu ⊢
      exact hsingle hu
    · rw [hpc u hut]
      rw [hflush u hut] at hu
      exact h.single u hu

/-- A step that keeps the list and the tags keeps what an evicting thread relies on. -/
theorem Structured.evict_same (h : s.Structured) {cache : ThreadedCache}
    (hlist : cache.cache.lruList = s.cache.lruList)
    (htags : ∀ i, (cache.cache.blocks i).sectorTag = (s.cache.blocks i).sectorTag) (op : CacheOp)
    (i : Fin cacheSize) (hu : s.pc u = .lockBlock op .evict i) :
    cache.cache.Live i ∧ Untagged cache op.sector := by
  have hlive := BufferCache.live_perm (hlist ▸ .refl _ : cache.cache.lruList.Perm s.cache.lruList)
  obtain ⟨hi, huntagged⟩ := h.evict u op i hu
  refine ⟨(hlive i).mpr hi, ?_⟩
  intro j hj
  rw [htags]
  exact huntagged j ((hlive j).mp hj)

/-! ## The locks of the thread that steps -/

/-- Thread `t` acquires or releases a lock that no other thread has. -/
theorem blockLock_update {locks : Fin cacheSize → Option Tid} {i : Fin cacheSize}
    (hi : locks i = none ∨ locks i = some t) (holder : Option Tid) (u : Tid) (j : Fin cacheSize)
    (hu : u ≠ t) (hj : locks j = some u) : update locks i holder j = some u := by
  have hne : j ≠ i := by
    rintro rfl
    rcases hi with hi | hi <;> rw [hj] at hi <;> simp [hu] at hi
  rwa [update_of_ne hne]

theorem holds_lru_of_call (hflush : s.flush t = none) : s.Holds t .lru ↔ HoldsLru (s.pc t) := by
  simp [Holds, hflush]

theorem holds_block_of_call (hflush : s.flush t = none) (i : Fin cacheSize) :
    s.Holds t (.block i) ↔ (s.pc t).block? = some i := by
  simp [Holds, hflush]

theorem Structured.not_holds_lru (h : s.Structured) (ht : s.lruLock = some t) (hne : u ≠ t) :
    ¬ s.Holds u .lru := by
  intro hu
  rw [h.lru u hu] at ht
  exact hne (Option.some.inj ht)

theorem not_evicting_of (hfree : ¬ s.Holds u .lru) (op : CacheOp) (i : Fin cacheSize) :
    s.pc u ≠ .lockBlock op .evict i := by
  intro hu
  exact hfree (.inl (by rw [hu]; trivial))

/-! ## Steps of `cache_read` and `cache_write` -/

variable {cache : ThreadedCache}

theorem Structured.callStep (h : s.Structured)
    (hflush : s.flush t = none) (hpc : ∀ u, u ≠ t → cache.pc u = s.pc u)
    (hlisted : cache.cache.Listed)
    (hlru : ∀ u, u ≠ t → s.lruLock = some u → cache.lruLock = some u)
    (hblock : ∀ u i, u ≠ t → s.blockLock i = some u → cache.blockLock i = some u)
    (hselfLru : HoldsLru (cache.pc t) → cache.lruLock = some t)
    (hselfBlock : ∀ i, (cache.pc t).block? = some i → cache.blockLock i = some t)
    (hevict : ∀ u op i, u ≠ t → s.pc u = .lockBlock op .evict i →
      cache.cache.Live i ∧ Untagged cache op.sector)
    (hselfEvict : ∀ op i, cache.pc t = .lockBlock op .evict i →
      cache.cache.Live i ∧ Untagged cache op.sector) : (s.withCache cache).Structured := by
  refine h.frame hpc (fun _ _ => rfl) hlisted hlru hblock ?_ ?_ hevict hselfEvict ?_
  · intro ht
    exact hselfLru ((holds_lru_of_call (s := s.withCache cache) hflush).mp ht)
  · intro i ht
    exact hselfBlock i ((holds_block_of_call (s := s.withCache cache) hflush i).mp ht)
  · exact fun hsome => absurd hflush hsome

theorem Structured.withCache (h : s.Structured) (hflush : s.flush t = none)
    (hpc : ∀ u, u ≠ t → cache.pc u = s.pc u) (hlist : cache.cache.lruList = s.cache.lruList)
    (htags : ∀ i, (cache.cache.blocks i).sectorTag = (s.cache.blocks i).sectorTag)
    (hlru : ∀ u, u ≠ t → s.lruLock = some u → cache.lruLock = some u)
    (hblock : ∀ u i, u ≠ t → s.blockLock i = some u → cache.blockLock i = some u)
    (hselfLru : HoldsLru (cache.pc t) → cache.lruLock = some t)
    (hselfBlock : ∀ i, (cache.pc t).block? = some i → cache.blockLock i = some t)
    (hself : ∀ op i, cache.pc t ≠ .lockBlock op .evict i) : (s.withCache cache).Structured := by
  apply h.callStep hflush hpc (h.toListed.perm (hlist ▸ .refl _) htags) hlru hblock hselfLru
    hselfBlock
  · exact fun u op i _ hu => h.evict_same hlist htags op i hu
  · exact fun op i hi => absurd hi (hself op i)

variable {op : CacheOp}

theorem Structured.startCall (h : s.Structured) (hflush : s.flush t = none)
    (hcall : s.toThreadedCache.startCall t op = some cache) : (s.withCache cache).Structured := by
  unfold ThreadedCache.startCall at hcall
  split at hcall
  · cases hcall
    apply h.withCache hflush
    · exact fun u hu => goto_pc_of_ne _ hu
    · rfl
    · exact fun _ => rfl
    · exact fun _ _ hu => hu
    · exact fun _ _ _ hu => hu
    · simp [HoldsLru]
    · simp [Pc.block?]
    · simp
  · cases hcall

theorem Structured.not_holds_of_free (h : s.Structured) (hfree : s.lruLock = none) (u : Tid) :
    ¬ s.Holds u .lru := by
  intro hu
  rw [h.lru u hu] at hfree
  cases hfree

variable {i : Fin cacheSize}

section

variable (h : s.Structured) (hflush : s.flush t = none)
include h hflush

theorem Structured.search_order {path : CachePath} {list : List (Fin cacheSize)}
    (hfree : s.lruLock = none) (hperm : list.Perm s.cache.lruList)
    (hevict : path = .evict → s.cache.Live i ∧ Untagged s.toThreadedCache op.sector) :
    (s.withCache (({ s.toThreadedCache with lruLock := some t }.setList list).goto t
      (.lockBlock op path i))).Structured := by
  have hlive : ∀ j : Fin cacheSize, j.val < list.length ↔ s.cache.Live j := by
    intro j
    rw [hperm.length_eq]
    rfl
  apply h.callStep hflush
  · exact fun u hu => goto_pc_of_ne _ hu
  · exact h.toListed.perm hperm fun _ => rfl
  · intro u _ hu
    rw [hfree] at hu
    cases hu
  · exact fun _ _ _ hu => hu
  · exact fun _ => rfl
  · simp [Pc.block?]
  · exact fun u op' j _ hu => absurd hu (not_evicting_of (h.not_holds_of_free hfree u) op' j)
  · intro op' j hself
    simp only [ThreadedCache.goto, update_self] at hself
    obtain ⟨rfl, rfl, rfl⟩ := hself
    obtain ⟨hi, huntagged⟩ := hevict rfl
    refine ⟨(hlive i).mpr hi, ?_⟩
    intro k hk
    exact huntagged k ((hlive k).mp hk)

theorem Structured.search_fill
    (hfree : s.lruLock = none) (hroom : s.cache.lruList.length < cacheSize)
    (huntagged : Untagged s.toThreadedCache op.sector) :
    let i : Fin cacheSize := ⟨s.cache.lruList.length, hroom⟩
    (s.withCache (((({ s.toThreadedCache with lruLock := some t } : ThreadedCache).setBlock i
      { s.cache.blocks i with sectorTag := op.sector, dirtyBit := op.isWrite }).setList
        (i :: s.cache.lruList)).goto t (.lockBlock op .fill i))).Structured := by
  intro i
  obtain ⟨hlists, -⟩ := BufferCache.fill_list h.toListed hroom
  apply h.callStep hflush
  · exact fun u hu => goto_pc_of_ne _ hu
  · exact h.toListed.install _ _ (fun j _ => huntagged j) hlists
  · intro u _ hu
    rw [hfree] at hu
    cases hu
  · exact fun _ _ _ hu => hu
  · exact fun _ => rfl
  · simp [Pc.block?]
  · exact fun u op' j _ hu => absurd hu (not_evicting_of (h.not_holds_of_free hfree u) op' j)
  · simp

theorem Structured.search (hfree : s.lruLock = none)
    (hsearch : s.toThreadedCache.search t op = some cache) : (s.withCache cache).Structured := by
  unfold ThreadedCache.search at hsearch
  dsimp only at hsearch
  split at hsearch
  · next i hfind =>
    cases hsearch
    obtain ⟨hi, -⟩ := BufferCache.findBlock_some hfind
    have hmem := (h.mem_iff i).mpr hi
    exact h.search_order hflush hfree (BufferCache.touch_perm hmem) nofun
  next hfind =>
  have huntagged : Untagged s.toThreadedCache op.sector := BufferCache.findBlock_none hfind
  split at hsearch
  · next hroom =>
    cases hsearch
    exact h.search_fill hflush hfree hroom huntagged
  split at hsearch
  · cases hsearch
  · next i hlast =>
    cases hsearch
    have hi : s.cache.Live i := (h.mem_iff i).mp (mem_of_getLast? hlast)
    exact h.search_order hflush hfree (BufferCache.evict_perm hlast) fun _ => ⟨hi, huntagged⟩

/-- The step that acquires a block's lock; an eviction retags the block. -/
theorem Structured.acquireBlock {path : CachePath}
    (hpc : s.pc t = .lockBlock op path i) (hfree : s.blockLock i = none) :
    (s.withCache (s.toThreadedCache.acquireBlock t op path i)).Structured := by
  have hlru : s.lruLock = some t := h.lru t (.inl (by rw [hpc]; trivial))
  have hother := blockLock_update (t := t) (.inl hfree) (some t)
  unfold ThreadedCache.acquireBlock
  split
  · obtain ⟨hi, huntagged⟩ := h.evict t op i hpc
    apply h.callStep hflush
    · exact fun u hu => goto_pc_of_ne _ hu
    · exact h.toListed.install _ _ (fun j _ => huntagged j) (h.toListed.lists_perm hi (.refl _))
    · exact fun _ _ hu => hu
    · exact hother
    · exact fun _ => hlru
    · intro j hj
      simp only [ThreadedCache.goto, update_self, Pc.block?, Option.some.injEq] at hj
      subst hj
      exact update_self _ _ _
    · exact fun u op' j hu hpcu =>
        absurd hpcu (not_evicting_of (h.not_holds_lru hlru hu) op' j)
    · simp
  · apply h.withCache hflush
    · exact fun u hu => goto_pc_of_ne _ hu
    · rfl
    · exact fun _ => rfl
    · exact fun _ _ hu => hu
    · exact hother
    · exact fun _ => hlru
    · intro j hj
      simp only [ThreadedCache.goto, update_self, Pc.block?, Option.some.injEq] at hj
      subst hj
      exact update_self _ _ _
    · simp

/-- A step of a thread that works on its block and goes on working on it, without
`LRU_lock`. -/
theorem Structured.work {pc : Pc} (hheld : (s.pc t).block? = some i)
    (hpc : cache.pc = update s.pc t pc) (hnext : pc.block? = some i) (hnot : ¬ HoldsLru pc)
    (hlist : cache.cache.lruList = s.cache.lruList)
    (htags : ∀ j, (cache.cache.blocks j).sectorTag = (s.cache.blocks j).sectorTag)
    (hlru : ∀ u, u ≠ t → s.lruLock = some u → cache.lruLock = some u)
    (hblock : cache.blockLock = s.blockLock) : (s.withCache cache).Structured := by
  apply h.withCache hflush _ hlist htags hlru
  · intro u j _ hu
    rwa [hblock]
  · intro hholds
    rw [hpc, update_self] at hholds
    exact absurd hholds hnot
  · intro j hj
    rw [hpc, update_self, hnext] at hj
    cases hj
    rw [hblock]
    exact h.block t i (.inl hheld)
  · intro op j hself
    rw [hpc, update_self] at hself
    rw [hself] at hnot
    exact hnot trivial
  · intro u hu
    rw [hpc, update_of_ne hu]

end

theorem block?_load (op : CacheOp) (i : Fin cacheSize) :
    (ThreadedCache.load op i).block? = some i := by
  cases op <;> rfl

section

variable (h : s.Structured) (hflush : s.flush t = none)
include h hflush

theorem Structured.releaseLru {path : CachePath} {oldSector : BlockSector}
    (hpc : s.pc t = .unlockLru op path i oldSector) :
    (s.withCache (s.toThreadedCache.releaseLru t op path i oldSector)).Structured := by
  have hlru : s.lruLock = some t := h.lru t (.inl (by rw [hpc]; trivial))
  have hheld : (s.pc t).block? = some i := by
    rw [hpc]
    rfl
  have hothers : ∀ u, u ≠ t → s.lruLock = some u → (none : Option Tid) = some u := by
    intro u hu hsome
    rw [hlru] at hsome
    exact absurd (Option.some.inj hsome).symm hu
  unfold ThreadedCache.releaseLru
  dsimp only
  split
  · exact h.work hflush hheld rfl rfl (by simp [HoldsLru]) rfl (fun _ => rfl) hothers rfl
  · exact h.work hflush hheld rfl (block?_load op i) (not_holdsLru_load op i) rfl
      (fun _ => rfl) hothers rfl
  · split
    · exact h.work hflush hheld rfl rfl (by simp [HoldsLru]) rfl (fun _ => rfl) hothers rfl
    · exact h.work hflush hheld rfl (block?_load op i) (not_holdsLru_load op i) rfl
        (fun _ => rfl) hothers rfl

theorem Structured.writeOld {oldSector : BlockSector} (hpc : s.pc t = .writeBack op i oldSector)
    (hstep : s.toThreadedCache.writeOld t op i oldSector = some cache) :
    (s.withCache cache).Structured := by
  unfold ThreadedCache.writeOld at hstep
  dsimp only at hstep
  split at hstep
  · cases hstep
  · cases hstep
    exact h.work hflush (by rw [hpc]; rfl) rfl (block?_load op i)
      (not_holdsLru_load op i) rfl (sectorTag_update rfl) (fun _ _ hu => hu) rfl

theorem Structured.readNew (hpc : s.pc t = .fetch op i)
    (hstep : s.toThreadedCache.readNew t op i = some cache) : (s.withCache cache).Structured := by
  unfold ThreadedCache.readNew at hstep
  split at hstep
  · cases hstep
  · cases hstep
    exact h.work hflush (by rw [hpc]; rfl) rfl rfl (by simp [HoldsLru]) rfl (sectorTag_update rfl)
      (fun _ _ hu => hu) rfl

theorem Structured.finishCall (hpc : s.pc t = .finish op i) :
    (s.withCache (s.toThreadedCache.finishCall t op i)).Structured := by
  have hheld : s.blockLock i = some t := h.block t i (.inl (by rw [hpc]; rfl))
  unfold ThreadedCache.finishCall
  split
  all_goals
    apply h.withCache hflush
    · exact fun u hu => goto_pc_of_ne _ hu
    · rfl
    · first | exact fun _ => rfl | exact sectorTag_update rfl
    · exact fun _ _ hu => hu
    · exact blockLock_update (.inr hheld) none
    · simp [HoldsLru]
    · simp [Pc.block?]
    · simp

/-- **One step of `cache_read` or `cache_write`.** -/
theorem Structured.step
    (hstep : s.toThreadedCache.step t = some cache) : (s.withCache cache).Structured := by
  unfold ThreadedCache.step at hstep
  split at hstep
  · cases hstep
  · obtain ⟨hfree, hsearch⟩ := Option.ite_none_right_eq_some.mp hstep
    exact h.search hflush hfree hsearch
  · next hpc =>
    obtain ⟨hfree, ⟨⟩⟩ := Option.ite_none_right_eq_some.mp hstep
    exact h.acquireBlock hflush hpc hfree
  · next hpc =>
    cases hstep
    exact h.releaseLru hflush hpc
  · next hpc => exact h.writeOld hflush hpc hstep
  · next hpc => exact h.readNew hflush hpc hstep
  · next hpc =>
    cases hstep
    exact h.finishCall hflush hpc

end

/-! ## Steps of `cache_flush` -/

theorem Structured.flush (h : s.Structured) {pc : Option FlushPc} (hidle : s.pc t = .idle)
    (hpc : cache.pc = s.pc) (hlist : cache.cache.lruList = s.cache.lruList)
    (htags : ∀ i, (cache.cache.blocks i).sectorTag = (s.cache.blocks i).sectorTag)
    (hlru : ∀ u, u ≠ t → s.lruLock = some u → cache.lruLock = some u)
    (hblock : ∀ u i, u ≠ t → s.blockLock i = some u → cache.blockLock i = some u)
    (hselfLru : ∀ p, pc = some p → p.holdsLru = true → cache.lruLock = some t)
    (hselfBlock : ∀ p i, pc = some p → p.block? = some i → cache.blockLock i = some t) :
    ((s.withCache cache).gotoFlush t pc).Structured := by
  have hidle' : ((s.withCache cache).gotoFlush t pc).pc t = .idle := by
    show cache.pc t = .idle
    rwa [hpc]
  have hself : ((s.withCache cache).gotoFlush t pc).flush t = pc := update_self _ _ _
  apply h.frame (t := t)
  · intro u _
    exact congrFun hpc u
  · exact fun u hu => update_of_ne hu _ _
  · exact h.toListed.perm (hlist ▸ .refl _) htags
  · exact hlru
  · exact hblock
  · rintro (hholds | ⟨p, hp, hholds⟩)
    · rw [hidle'] at hholds
      exact hholds.elim
    · exact hselfLru p (hself.symm.trans hp) hholds
  · rintro i (hholds | ⟨p, hp, hholds⟩)
    · rw [hidle'] at hholds
      cases hholds
    · exact hselfBlock p i (hself.symm.trans hp) hholds
  · exact fun u op i _ hu => h.evict_same hlist htags op i hu
  · intro op i hpc'
    rw [hidle'] at hpc'
    cases hpc'
  · exact fun _ => hidle'

theorem Structured.flushStep (h : s.Structured) {pc : FlushPc} (hpc : s.flush t = some pc)
    (hstep : s.flushStep t pc = some s') : s'.Structured := by
  have hidle : s.pc t = .idle := h.single t (by rw [hpc]; nofun)
  have hlru : pc.holdsLru = true → s.lruLock = some t := fun hholds =>
    h.lru t (.inr ⟨pc, hpc, hholds⟩)
  have hblock : ∀ i, pc.block? = some i → s.blockLock i = some t := fun i hi =>
    h.block t i (.inr ⟨pc, hpc, hi⟩)
  cases pc with
  | start =>
    obtain ⟨hfree, ⟨⟩⟩ := Option.ite_none_right_eq_some.mp hstep
    refine h.flush hidle rfl rfl (fun _ => rfl) ?_ ?_ ?_ ?_
    · intro u _ hu
      rw [hfree] at hu
      cases hu
    · exact fun _ _ _ hu => hu
    · exact fun _ _ _ => rfl
    · rintro _ i ⟨⟩ ⟨⟩
  | scan i size =>
    rw [FlushedCache.flushStep] at hstep
    split at hstep
    · split at hstep
      · split at hstep
        all_goals
          cases hstep
          refine h.flush hidle rfl rfl (fun _ => rfl) (fun _ _ hu => hu) (fun _ _ _ hu => hu) ?_ ?_
          · exact fun _ _ _ => hlru rfl
          · rintro _ i ⟨⟩ ⟨⟩
      · cases hstep
    cases hstep
    refine h.flush hidle rfl rfl (fun _ => rfl) ?_ ?_ ?_ ?_
    · intro u hu hsome
      rw [hlru rfl] at hsome
      exact absurd (Option.some.inj hsome).symm hu
    · exact fun _ _ _ hu => hu
    · exact nofun
    · exact nofun
  | lock i size =>
    obtain ⟨hfree, ⟨⟩⟩ := Option.ite_none_right_eq_some.mp hstep
    refine h.flush hidle rfl rfl (fun _ => rfl) (fun _ _ hu => hu)
      (blockLock_update (.inl hfree) _) ?_ ?_
    · exact fun _ _ _ => hlru rfl
    · rintro _ j ⟨⟩ ⟨⟩
      exact update_self _ _ _
  | write i size =>
    rw [FlushedCache.flushStep] at hstep
    split at hstep
    · cases hstep
    · cases hstep
      refine h.flush hidle rfl rfl (fun _ => rfl) (fun _ _ hu => hu) (fun _ _ _ hu => hu) ?_ ?_
      · exact fun _ _ _ => hlru rfl
      · rintro _ j ⟨⟩ hj
        exact hblock j hj
  | clear i size =>
    cases hstep
    refine h.flush hidle rfl rfl (sectorTag_update rfl) (fun _ _ hu => hu)
      (blockLock_update (.inr (hblock i rfl)) _) ?_ ?_
    · exact fun _ _ _ => hlru rfl
    · rintro _ j ⟨⟩ ⟨⟩

/-- **One step of any thread.** -/
theorem Structured.next (h : s.Structured) {l : FlushLabel} (hstep : Step s l s') :
    s'.Structured := by
  cases l with
  | call t op =>
    obtain ⟨hflush, hmap⟩ := Option.ite_none_right_eq_some.mp hstep
    obtain ⟨cache, hcall, rfl⟩ := Option.map_eq_some_iff.mp hmap
    exact h.startCall (Option.isNone_iff_eq_none.mp hflush) hcall
  | flush t =>
    rw [Step, FlushedCache.next] at hstep
    split at hstep
    · next hidle hflush =>
      cases hstep
      refine h.flush hidle rfl rfl (fun _ => rfl) (fun _ _ hu => hu) (fun _ _ _ hu => hu) ?_ ?_
      · rintro _ ⟨⟩ ⟨⟩
      · rintro _ i ⟨⟩ ⟨⟩
    · cases hstep
  | step t =>
    rw [Step, FlushedCache.next] at hstep
    split at hstep
    · next hflush =>
      obtain ⟨cache, hcache, rfl⟩ := Option.map_eq_some_iff.mp hstep
      exact h.step hflush hcache
    · next pc hpc => exact h.flushStep hpc hstep

/-! ## Whole runs -/

theorem Structured.perm (h : s.Structured) :
    s.cache.lruList.Perm ((finRange cacheSize).take s.cache.lruList.length) := by
  rw [perm_ext_iff_of_nodup h.nodup ((nodup_finRange cacheSize).sublist (take_sublist _ _))]
  intro i
  rw [h.mem_iff, mem_take_iff_getElem]
  constructor
  · intro hi
    exact ⟨i.val, by simpa using hi, by simp⟩
  · rintro ⟨j, hj, rfl⟩
    simpa using (lt_min_iff.1 hj).1

/-- `LRU_lock` comes before every `block_lock`. -/
def rank : CacheLock → ℕ
  | .lru => 0
  | .block _ => 1

theorem Structured.order (h : s.Structured) (t : Tid) (lock next : CacheLock)
    (hholds : s.Holds t lock) (hwants : s.wants t = some next) : rank lock < rank next := by
  unfold wants at hwants
  cases hflush : s.flush t with
  | none =>
    rw [hflush] at hwants
    cases hpc : s.pc t <;> rw [hpc] at hwants <;> cases hwants <;> cases lock <;>
      simp_all [Holds, HoldsLru, Pc.block?, rank]
  | some pc =>
    have hidle : s.pc t = .idle := h.single t (by simp [hflush])
    rw [hflush] at hwants
    cases pc <;> cases hwants <;> cases lock <;>
      simp_all [Holds, HoldsLru, Pc.block?, FlushPc.holdsLru, FlushPc.block?, rank]

/-- **The cache keeps its structure and does not deadlock.**  Whatever calls of `cache_read`,
`cache_write` and `cache_flush` overlap, the list is a permutation of the first blocks, the
tags of these are distinct, a block's lock has one holder, and no threads wait for each
other in a circle. -/
theorem cache_structure {device : Device} {blocks : Fin cacheSize → CacheBlock}
    {labels : List FlushLabel} (hrun : Run Step (init device blocks) labels s) :
    (s.lruLock = none →
      s.cache.lruList.Perm ((List.finRange cacheSize).take s.cache.lruList.length) ∧
      ∀ i j, s.cache.Live i → s.cache.Live j →
        (s.cache.blocks i).sectorTag = (s.cache.blocks j).sectorTag → i = j) ∧
      (∀ i t u, s.Holds t (.block i) → s.Holds u (.block i) → t = u) ∧
      ∀ t, ¬ Relation.TransGen (WaitsFor s.Holds s.wants) t t := by
  have h : s.Structured := hrun.invariant (Structured.init device blocks)
    fun _ _ _ hs hstep => hs.next hstep
  refine ⟨fun _ => ⟨h.perm, h.tag_inj⟩, ?_, no_waiting_cycle rank h.order⟩
  intro i t u ht hu
  have heq := (h.block t i ht).symm.trans (h.block u i hu)
  exact Option.some.inj heq

/-- Thread 1 has written block 0 and flushed it, thread 0 has taken block 1 and not finished
its write, and `LRU_lock` is free again. -/
theorem cache_structure_two_threads : ∃ labels s,
    Run Step (init ⟨100, fun _ _ => 0⟩ fun _ => ⟨0, fun _ => 0, false⟩) labels s ∧
      s.lruLock = none ∧ s.Holds 0 (.block 1) ∧
      (s.cache.lruList.Perm ((List.finRange cacheSize).take s.cache.lruList.length) ∧
        ∀ i j, s.cache.Live i → s.cache.Live j →
          (s.cache.blocks i).sectorTag = (s.cache.blocks j).sectorTag → i = j) ∧
      ∀ t, ¬ Relation.TransGen (WaitsFor s.Holds s.wants) t t := by
  refine ⟨[.call 1 (.write 3 fun _ => 1), .step 1, .step 1, .step 1, .step 1, .flush 1, .step 1,
    .step 1, .step 1, .step 1, .step 1, .step 1, .call 0 (.write 4 fun _ => 1), .step 0, .step 0,
    .step 0], exists_run_of_imp (fun _ _ _ hstep => hstep)
      (fun s => s.lruLock = none ∧ (s.pc 0).block? = some 1) (by decide +kernel) ?_⟩
  intro s hrun ⟨hfree, hblock⟩
  have hstructure := cache_structure hrun
  exact ⟨hfree, .inl hblock, hstructure.1 hfree, hstructure.2.2⟩

end FlushedCache

end CS162
