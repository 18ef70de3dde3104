import CS162.Cache.Threads
import CS162.Cache.Refinement

/-!
# When concurrent reads are fresh

An eviction retags its block and releases `LRU_lock` before the evicted sector has
reached the device.  A call that looks for the evicted sector in this window misses
it in the cache and finds old bytes on the device: `stale_read` is such a run.

Apart from this window the protocol is sound.  `Settled` is the condition on a step:
a call that misses its sector does so while no other thread has that very sector
still to write back.  In every run of settled steps each read returns the bytes of
the latest completed write (`neverStale_of_settled`).

## The invariant

`value x` is what sector `x` is meant to hold: the bytes of the latest completed
write, or the initial content of the disk.  The invariant says where these bytes are:

* in the block tagged `x`, if no thread is working on it (`stable`);
* in the block an evicting thread has just taken away from `x` (`Evicting`);
* on the device, if no block is tagged `x` and no eviction of `x` is under way
  (`absent`), and while a thread that has just tagged a block for `x` has not
  loaded it yet.

A thread's own part is `ThreadOk`.  Every fact in it is about the block the thread
has locked, the sector tagged on it, or the sector it evicts; no other thread can
touch these, which is what the two frame lemmas say.
-/

namespace CS162.ThreadedCache

open CacheEvent Function List

section Definitions

variable (initial : BlockSector → Sector) (s : ThreadedCache)

/-- The bytes sector `x` is meant to hold. -/
def value (x : BlockSector) : Sector := (lastWritten s.history x).getD (initial x)

def OnDevice (x : BlockSector) : Prop := s.cache.device.content x = value initial s x

/-- No block in use holds sector `x`. -/
def Untagged (x : BlockSector) : Prop :=
  ∀ i, s.cache.Live i → (s.cache.blocks i).sectorTag ≠ x

/-- Thread `t` has retagged the block that held `x` and not yet written `x` back. -/
def Evicts (t : Tid) (x : BlockSector) : Prop :=
  (∃ op i, s.pc t = .unlockLru op .evict i x) ∨ ∃ op i, s.pc t = .writeBack op i x

/-- Block `i` holds the bytes of the sector it is tagged with. -/
def Loaded (i : Fin cacheSize) : Prop :=
  (s.cache.blocks i).sector = value initial s (s.cache.blocks i).sectorTag ∧
    ((s.cache.blocks i).dirtyBit = false → OnDevice initial s (s.cache.blocks i).sectorTag)

/-- Block `i` still holds the bytes of the sector `x` that it has been taken from. -/
def Evicting (i : Fin cacheSize) (x : BlockSector) : Prop :=
  (s.cache.blocks i).sector = value initial s x ∧
    ((s.cache.blocks i).dirtyBit = false → OnDevice initial s x) ∧ Untagged s x

/-- Thread `t` has locked block `i`, which is tagged with the sector of `op`. -/
def Owns (t : Tid) (op : CacheOp) (i : Fin cacheSize) : Prop :=
  s.cache.Live i ∧ s.blockLock i = some t ∧ (s.cache.blocks i).sectorTag = op.sector

/-- What holds for thread `t` at each point of its call. -/
def ThreadOk (t : Tid) : Prop :=
  match s.pc t with
  | .idle => True
  | .start _ => True
  | .lockBlock op .hit i => s.cache.Live i ∧ (s.cache.blocks i).sectorTag = op.sector
  | .lockBlock op .fill i => s.cache.Live i ∧ (s.cache.blocks i).sectorTag = op.sector ∧
      s.blockLock i = none ∧ OnDevice initial s op.sector ∧
      (s.cache.blocks i).dirtyBit = op.isWrite
  | .lockBlock op .evict i => s.cache.Live i ∧ Untagged s op.sector ∧ ∀ u, ¬ Evicts s u op.sector
  | .unlockLru op .hit i _ => Owns s t op i ∧ Loaded initial s i
  | .unlockLru op .fill i _ => Owns s t op i ∧ OnDevice initial s op.sector ∧
      (s.cache.blocks i).dirtyBit = op.isWrite
  | .unlockLru op .evict i x => Owns s t op i ∧ Evicting initial s i x ∧
      OnDevice initial s op.sector
  | .writeBack op i x => Owns s t op i ∧ Evicting initial s i x ∧ OnDevice initial s op.sector
  | .fetch op i => Owns s t op i ∧ OnDevice initial s op.sector ∧
      (s.cache.blocks i).dirtyBit = false
  | .finish op i => Owns s t op i ∧ (op.isWrite = false → Loaded initial s i)

/-- The thread holds `LRU_lock`. -/
def HoldsLru : Pc → Prop
  | .lockBlock _ _ _ => True
  | .unlockLru _ _ _ _ => True
  | _ => False

/-- The thread is between acquiring `LRU_lock` and acquiring a `block_lock`. -/
def AtLock : Pc → Prop
  | .lockBlock _ _ _ => True
  | _ => False

/-- The invariant of the runs in which no read can be stale. -/
structure Coherent : Prop extends s.cache.Listed where
  lru : ∀ t, HoldsLru (s.pc t) → s.lruLock = some t
  locked : ∀ i, s.blockLock i ≠ none → s.cache.Live i
  thread : ∀ t, ThreadOk initial s t
  stable : ∀ i, s.cache.Live i → s.blockLock i = none →
    (∀ t op, s.pc t ≠ .lockBlock op .fill i) → Loaded initial s i
  absent : ∀ x, Untagged s x → (∀ t, ¬ Evicts s t x) → OnDevice initial s x

end Definitions

variable {initial : BlockSector → Sector} {s s' : ThreadedCache} {t u : Tid}

/-! ## Initially -/

theorem coherent_init (device : Device) (blocks : Fin cacheSize → CacheBlock) :
    Coherent device.content (init device blocks) where
  nodup := nodup_nil
  mem_iff i := by simp
  tag_inj i j hi := by simp at hi
  lru t ht := by simp [HoldsLru] at ht
  locked i hi := by simp at hi
  thread t := by simp [ThreadOk]
  stable i hi := by simp at hi
  absent x _ _ := by simp [OnDevice, value, lastWritten]

/-! ## What other threads do not disturb -/

/-- The sectors a thread relies on: the one tagged on its block and the one it evicts. -/
def Cares (s : ThreadedCache) (u : Tid) (x : BlockSector) : Prop :=
  (∃ i, s.cache.Live i ∧ s.blockLock i = some u ∧ (s.cache.blocks i).sectorTag = x) ∨ Evicts s u x

/-- A thread that is not waiting for a block lock keeps its part, if nothing it owns
is touched. -/
theorem ThreadOk.frame (h : ThreadOk initial s u) (hpc : s'.pc u = s.pc u) (hat : ¬ AtLock (s.pc u))
    (hlive : ∀ i, s.cache.Live i → s'.cache.Live i)
    (hblock : ∀ i, s.blockLock i = some u → s'.blockLock i = some u ∧
      s'.cache.blocks i = s.cache.blocks i)
    (hvalue : ∀ x, Cares s u x → value initial s' x = value initial s x)
    (hdevice : ∀ x, Cares s u x → OnDevice initial s x → OnDevice initial s' x)
    (huntagged : ∀ x, Evicts s u x → Untagged s x → Untagged s' x) : ThreadOk initial s' u := by
  have howns : ∀ {op i}, Owns s u op i →
      Owns s' u op i ∧ s'.cache.blocks i = s.cache.blocks i ∧ Cares s u op.sector := by
    rintro op i ⟨hi, hlock, htag⟩
    obtain ⟨hlock', heq⟩ := hblock i hlock
    exact ⟨⟨hlive i hi, hlock', heq ▸ htag⟩, heq, .inl ⟨i, hi, hlock, htag⟩⟩
  have hloaded : ∀ {op i}, Owns s u op i → Loaded initial s i → Loaded initial s' i := by
    rintro op i hown ⟨hbytes, hclean⟩
    obtain ⟨-, heq, hcares⟩ := howns hown
    unfold Loaded
    rw [heq]
    rw [← hown.2.2] at hcares
    exact ⟨by rw [hbytes, hvalue _ hcares], fun hd => hdevice _ hcares (hclean hd)⟩
  have hevicting : ∀ {op i x}, Owns s u op i → Evicts s u x → Evicting initial s i x →
      Evicting initial s' i x := by
    rintro op i x hown hevicts ⟨hbytes, hclean, huntag⟩
    obtain ⟨-, heq, -⟩ := howns hown
    unfold Evicting
    rw [heq]
    exact ⟨by rw [hbytes, hvalue _ (.inr hevicts)],
      fun hd => hdevice _ (.inr hevicts) (hclean hd), huntagged x hevicts huntag⟩
  unfold ThreadOk at h ⊢
  rw [hpc]
  cases hcase : s.pc u with
  | idle => trivial
  | start op => trivial
  | lockBlock op path i => simp [hcase, AtLock] at hat
  | unlockLru op path i x =>
    rw [hcase] at h
    cases path with
    | hit => exact ⟨(howns h.1).1, hloaded h.1 h.2⟩
    | fill =>
      obtain ⟨hown, heq, hcares⟩ := howns h.1
      exact ⟨hown, hdevice _ hcares h.2.1, heq ▸ h.2.2⟩
    | evict =>
      obtain ⟨hown, -, hcares⟩ := howns h.1
      exact ⟨hown, hevicting h.1 (.inl ⟨op, i, hcase⟩) h.2.1, hdevice _ hcares h.2.2⟩
  | writeBack op i x =>
    rw [hcase] at h
    obtain ⟨hown, -, hcares⟩ := howns h.1
    exact ⟨hown, hevicting h.1 (.inr ⟨op, i, hcase⟩) h.2.1, hdevice _ hcares h.2.2⟩
  | fetch op i =>
    rw [hcase] at h
    obtain ⟨hown, heq, hcares⟩ := howns h.1
    exact ⟨hown, hdevice _ hcares h.2.1, heq ▸ h.2.2⟩
  | finish op i =>
    rw [hcase] at h
    exact ⟨(howns h.1).1, fun hread => hloaded h.1 (h.2 hread)⟩

/-- A thread waiting for a block lock keeps its part, if no tag changes and no free
block is touched. -/
theorem ThreadOk.frame_atLock (h : ThreadOk initial s u) (hpc : s'.pc u = s.pc u)
    (hat : AtLock (s.pc u)) (hlive : ∀ i, s'.cache.Live i ↔ s.cache.Live i)
    (htag : ∀ i, (s'.cache.blocks i).sectorTag = (s.cache.blocks i).sectorTag)
    (hfree : ∀ i, s.blockLock i = none → s'.blockLock i = none ∧
      s'.cache.blocks i = s.cache.blocks i)
    (hdevice : ∀ i, s.cache.Live i → s.blockLock i = none →
      OnDevice initial s (s.cache.blocks i).sectorTag →
      OnDevice initial s' (s.cache.blocks i).sectorTag)
    (hevicts : ∀ v x, Evicts s' v x → Evicts s v x) : ThreadOk initial s' u := by
  unfold ThreadOk at h ⊢
  rw [hpc]
  cases hcase : s.pc u with
  | lockBlock op path i =>
    rw [hcase] at h
    cases path with
    | hit => exact ⟨(hlive i).mpr h.1, (htag i).trans h.2⟩
    | fill =>
      obtain ⟨hi, htagi, hlock, hdev, hdirty⟩ := h
      obtain ⟨hlock', heq⟩ := hfree i hlock
      refine ⟨(hlive i).mpr hi, (htag i).trans htagi, hlock', ?_, heq ▸ hdirty⟩
      rw [← htagi] at hdev ⊢
      exact hdevice i hi hlock hdev
    | evict =>
      refine ⟨(hlive i).mpr h.1, fun j hj => ?_, fun v hv => h.2.2 v (hevicts v _ hv)⟩
      rw [htag]
      exact h.2.1 j ((hlive j).mp hj)
  | _ => simp [hcase, AtLock] at hat

variable {x : BlockSector}

theorem Coherent.untagged_of_evicts (h : Coherent initial s)
    (hevicts : Evicts s u x) : Untagged s x := by
  have hthread := h.thread u
  unfold ThreadOk at hthread
  rcases hevicts with ⟨op, i, hpc⟩ | ⟨op, i, hpc⟩ <;> rw [hpc] at hthread
  · exact hthread.2.1.2.2
  · exact hthread.2.1.2.2

variable {i : Fin cacheSize}

/-- Another thread does not rely on the sector of a block it has not locked. -/
theorem Coherent.tag_ne_of_cares (h : Coherent initial s) (hi : s.cache.Live i)
    (hlock : s.blockLock i ≠ some u) (hcares : Cares s u x) : x ≠ (s.cache.blocks i).sectorTag := by
  rcases hcares with ⟨j, hj, hlockj, rfl⟩ | hevicts
  · exact fun heq => hlock (h.tag_inj j i hj hi heq ▸ hlockj)
  · exact (h.untagged_of_evicts hevicts i hi).symm

/-! ## Steps of a thread that has locked its block -/

/-- A step of thread `t` that touches only blocks it has locked, and of the device only what
the sector it evicts is meant to hold. -/
theorem Coherent.owned_step (h : Coherent initial s) (touched : Fin cacheSize → Prop)
    (hown : ∀ i, touched i → s.cache.Live i ∧ s.blockLock i = some t) (hat : ¬ AtLock (s.pc t))
    (hlist : s'.cache.lruList = s.cache.lruList)
    (hlru : ∀ u, u ≠ t → HoldsLru (s.pc u) → s'.lruLock = some u)
    (hpc : ∀ u, u ≠ t → s'.pc u = s.pc u) (hnolru : ¬ HoldsLru (s'.pc t))
    (htag : ∀ j, (s'.cache.blocks j).sectorTag = (s.cache.blocks j).sectorTag)
    (hblocks : ∀ j, ¬ touched j → s'.cache.blocks j = s.cache.blocks j)
    (hlocks : ∀ j, ¬ touched j → s'.blockLock j = s.blockLock j)
    (hvalue : ∀ x, (∀ i, touched i → x ≠ (s.cache.blocks i).sectorTag) →
      value initial s' x = value initial s x)
    (hdevice : ∀ x, (∀ i, touched i → x ≠ (s.cache.blocks i).sectorTag) →
      OnDevice initial s x → OnDevice initial s' x)
    (hevicts : ∀ x, Evicts s' t x → Evicts s t x) (hself : ThreadOk initial s' t)
    (hstable : ∀ i, touched i → s'.blockLock i = none → Loaded initial s' i)
    (habsent : ∀ x, Evicts s t x → ¬ Evicts s' t x → OnDevice initial s' x) :
    Coherent initial s' := by
  have hlive : ∀ j, s'.cache.Live j ↔ s.cache.Live j := fun j => by
    simp [hlist]
  have hevict : ∀ u x, Evicts s' u x → Evicts s u x := by
    intro u x hu
    by_cases hut : u = t
    · subst hut; exact hevicts x hu
    · simpa only [Evicts, hpc u hut] using hu
  have huntagged : ∀ x, Untagged s' x ↔ Untagged s x := by
    intro x
    simp only [Untagged, hlive, htag]
  have hlisted : s'.cache.Listed := h.toListed.perm (hlist ▸ .refl _) htag
  refine ⟨hlisted, ?_, ?_, ?_, ?_, ?_⟩
  · intro u hu
    by_cases hut : u = t
    · subst hut; exact absurd hu hnolru
    · rw [hpc u hut] at hu
      exact hlru u hut hu
  · intro j hj
    rw [hlive]
    by_cases hji : touched j
    · exact (hown j hji).1
    · exact h.locked j (hlocks j hji ▸ hj)
  · intro u
    by_cases hut : u = t
    · subst hut; exact hself
    have hne : ∀ j, s.blockLock j = some u → ¬ touched j := fun j hj hji =>
      hut (Option.some_inj.mp (hj.symm.trans (hown j hji).2))
    have hcares : ∀ x, Cares s u x → ∀ i, touched i → x ≠ (s.cache.blocks i).sectorTag :=
      fun x hx i hi => h.tag_ne_of_cares (hown i hi).1 (fun hlock => hne i hlock hi) hx
    by_cases hatu : AtLock (s.pc u)
    · refine (h.thread u).frame_atLock (hpc u hut) hatu hlive htag ?_ ?_ hevict
      · intro j hj
        have hji : ¬ touched j := fun hji => by simp [(hown j hji).2] at hj
        exact ⟨by rw [hlocks j hji, hj], hblocks j hji⟩
      · intro j hj hfree
        refine hdevice _ fun i hi heq => ?_
        rw [h.tag_inj j i hj (hown i hi).1 heq, (hown i hi).2] at hfree
        cases hfree
    refine (h.thread u).frame (hpc u hut) hatu (fun j => (hlive j).mpr) ?_ ?_ ?_ ?_
    · intro j hj
      exact ⟨by rw [hlocks j (hne j hj), hj], hblocks j (hne j hj)⟩
    · exact fun x hx => hvalue x (hcares x hx)
    · exact fun x hx => hdevice x (hcares x hx)
    · exact fun x _ => (huntagged x).mpr
  · intro j hj hfree hfill
    by_cases hji : touched j
    · exact hstable j hji hfree
    have hne : ∀ i, touched i → (s.cache.blocks j).sectorTag ≠ (s.cache.blocks i).sectorTag :=
      fun i hi heq => hji (h.tag_inj j i ((hlive j).mp hj) (hown i hi).1 heq ▸ hi)
    have hloaded : Loaded initial s j := by
      refine h.stable j ((hlive j).mp hj) (hlocks j hji ▸ hfree) fun u op hu => ?_
      by_cases hut : u = t
      · subst hut
        exact absurd (by rw [hu]; trivial) hat
      · exact hfill u op (hpc u hut ▸ hu)
    unfold Loaded
    rw [hblocks j hji]
    exact ⟨by rw [hloaded.1, hvalue _ hne], fun hd => hdevice _ hne (hloaded.2 hd)⟩
  · intro x hx hnone
    rw [huntagged] at hx
    by_cases ht : Evicts s t x
    · exact habsent x ht (hnone t)
    · refine hdevice x (fun i hi => (hx i (hown i hi).1).symm) (h.absent x hx fun u hu => ?_)
      by_cases hut : u = t
      · subst hut; exact ht hu
      · exact hnone u (by simpa only [Evicts, hpc u hut] using hu)

theorem Coherent.not_holdsLru (h : Coherent initial s) (ht : HoldsLru (s.pc t)) (hne : u ≠ t) :
    ¬ HoldsLru (s.pc u) := fun hu =>
  hne (Option.some_inj.mp ((h.lru u hu).symm.trans (h.lru t ht)))

theorem not_atLock_of_not_holdsLru {pc : Pc} (h : ¬ HoldsLru pc) : ¬ AtLock pc := by
  cases pc <;> simp_all [HoldsLru, AtLock]

@[simp] theorem goto_pc_self (pc : Pc) : (s.goto t pc).pc t = pc := by simp

theorem goto_pc_of_ne (pc : Pc) (h : u ≠ t) : (s.goto t pc).pc u = s.pc u := by
  simp [update_of_ne h]

variable {op : CacheOp}

/-- A call that has its block ready, or still has to fetch the sector. -/
theorem threadOk_load (hpc : s.pc t = load op i) (hown : Owns s t op i)
    (hdevice : OnDevice initial s op.sector)
    (hdirty : op.isWrite = false → (s.cache.blocks i).dirtyBit = false) : ThreadOk initial s t := by
  unfold ThreadOk
  rw [hpc]
  unfold load
  cases hop : op.isWrite with
  | true => exact ⟨hown, by simp [hop]⟩
  | false => exact ⟨hown, hdevice, hdirty hop⟩

theorem not_holdsLru_load (op : CacheOp) (i : Fin cacheSize) : ¬ HoldsLru (load op i) := by
  unfold load
  split <;> simp [HoldsLru]

theorem not_evicts_load (hpc : s.pc t = load op i) (x : BlockSector) : ¬ Evicts s t x := by
  unfold Evicts load at *
  split at hpc <;> simp [hpc]

variable {path : CachePath}

theorem Coherent.releaseLru (h : Coherent initial s) (hpc : s.pc t = .unlockLru op path i x) :
    Coherent initial (s.releaseLru t op path i x) := by
  have hthread := h.thread t
  unfold ThreadOk at hthread
  rw [hpc] at hthread
  have hown : Owns s t op i := by cases path <;> exact hthread.1
  have hholds : HoldsLru (s.pc t) := by rw [hpc]; trivial
  -- the step changes nothing but `LRU_lock` and the point where `t` stands
  have step : ∀ pc, ¬ HoldsLru pc → (let s' := { s with lruLock := none }.goto t pc
      (∀ y, Evicts s' t y → Evicts s t y) → ThreadOk initial s' t →
      (∀ y, Evicts s t y → ¬ Evicts s' t y → OnDevice initial s y) →
      Coherent initial s') := by
    intro pc hpc' s' hevicts hself habsent
    refine h.owned_step (· = i) (by simpa using ⟨hown.1, hown.2.1⟩) (by simp [hpc, AtLock]) rfl
      (fun u hu hl => absurd hl (h.not_holdsLru hholds hu)) (fun u hu => goto_pc_of_ne _ hu)
      (by rwa [goto_pc_self]) (fun _ => rfl) (fun _ _ => rfl) (fun _ _ => rfl)
      (fun _ _ => rfl) (fun _ _ hd => hd) hevicts hself ?_ habsent
    rintro _ rfl hnone
    exact absurd (hown.2.1.symm.trans hnone) (by simp)
  unfold ThreadedCache.releaseLru
  cases path with
  | hit =>
    refine step _ (by simp [HoldsLru]) ?_ ?_ ?_
    · simp [Evicts]
    · unfold ThreadOk
      rw [goto_pc_self]
      exact ⟨hown, fun _ => hthread.2⟩
    · simp [Evicts, hpc]
  | fill =>
    refine step _ (not_holdsLru_load op i) ?_ ?_ ?_
    · exact fun y hy => absurd hy (not_evicts_load (goto_pc_self _) y)
    · exact threadOk_load (goto_pc_self _) hown hthread.2.1 fun hr => hthread.2.2.trans hr
    · simp [Evicts, hpc]
  | evict =>
    by_cases hdirty : (s.cache.blocks i).dirtyBit = true
    · simp only [hdirty]
      refine step _ (by simp [HoldsLru]) ?_ ?_ ?_
      · simp [Evicts, hpc]
      · unfold ThreadOk
        rwa [goto_pc_self]
      · intro y hy hnot
        refine absurd (.inr ⟨op, i, ?_⟩) hnot
        have : x = y := by simpa [Evicts, hpc] using hy
        rw [goto_pc_self, this]
    · simp only [hdirty]
      have hclean : (s.cache.blocks i).dirtyBit = false := by simpa using hdirty
      refine step _ (not_holdsLru_load op i) ?_ ?_ ?_
      · exact fun y hy => absurd hy (not_evicts_load (goto_pc_self _) y)
      · exact threadOk_load (goto_pc_self _) hown hthread.2.2 fun _ => hclean
      · intro y hy _
        have : x = y := by simpa [Evicts, hpc] using hy
        exact this ▸ hthread.2.1.2.1 hclean

theorem Coherent.writeOld (h : Coherent initial s) (hpc : s.pc t = .writeBack op i x)
    (hstep : s.writeOld t op i x = some s') : Coherent initial s' := by
  have hthread := h.thread t
  unfold ThreadOk at hthread
  rw [hpc] at hthread
  obtain ⟨hown, ⟨hbytes, -, huntagged⟩, hdevice⟩ := hthread
  unfold ThreadedCache.writeOld at hstep
  by_cases hrange : x.toNat < s.cache.device.size
  · simp only [Device.blockWrite_eq hrange, Option.some.injEq] at hstep
    subst hstep
    -- the device receives what the sector is meant to hold
    have hkeep : ∀ y, OnDevice initial s y →
        update s.cache.device.content x (s.cache.blocks i).sector y = value initial s y := by
      intro y hy
      by_cases hyx : y = x
      · rw [hyx, update_self, hbytes]
      · rwa [update_of_ne hyx]
    refine h.owned_step (· = i) (by simpa using ⟨hown.1, hown.2.1⟩) (by simp [hpc, AtLock]) rfl
      (fun u _ hl => h.lru u hl) (fun u hu => goto_pc_of_ne _ hu) ?_ ?_ ?_ (fun _ _ => rfl)
      (fun _ _ => rfl) (fun y _ hy => hkeep y hy) ?_ ?_ ?_ ?_
    · rw [goto_pc_self]
      exact not_holdsLru_load op i
    · exact BufferCache.sectorTag_update rfl
    · intro j hj
      simp [hj]
    · exact fun y hy => absurd hy (not_evicts_load (goto_pc_self _) y)
    · refine threadOk_load (goto_pc_self _) ⟨hown.1, hown.2.1, ?_⟩ (hkeep _ hdevice) ?_
      · simpa using hown.2.2
      · intro hr
        simp [hr]
    · rintro _ rfl hnone
      exact absurd (hown.2.1.symm.trans hnone) (by simp)
    · intro y hy _
      obtain rfl : x = y := by simpa [Evicts, hpc] using hy
      show update s.cache.device.content x (s.cache.blocks i).sector x = value initial s x
      rw [update_self, hbytes]
  · simp [Device.blockWrite, Device.checkSector, hrange] at hstep

theorem Coherent.readNew (h : Coherent initial s)
    (hpc : s.pc t = .fetch op i) (hstep : s.readNew t op i = some s') : Coherent initial s' := by
  have hthread := h.thread t
  unfold ThreadOk at hthread
  rw [hpc] at hthread
  obtain ⟨hown, hdevice, hdirty⟩ := hthread
  unfold ThreadedCache.readNew at hstep
  by_cases hrange : op.sector.toNat < s.cache.device.size
  · rw [Device.blockRead_eq hrange, Option.some.injEq] at hstep
    subst hstep
    refine h.owned_step (· = i) (by simpa using ⟨hown.1, hown.2.1⟩) (by simp [hpc, AtLock]) rfl
      (fun u _ hl => h.lru u hl) (fun u hu => goto_pc_of_ne _ hu) (by simp [HoldsLru]) ?_ ?_
      (fun _ _ => rfl) (fun _ _ => rfl) (fun y _ hy => hy) ?_ ?_ ?_ ?_
    · exact BufferCache.sectorTag_update rfl
    · intro j hj
      simp [hj]
    · simp [Evicts]
    · unfold ThreadOk
      rw [goto_pc_self]
      refine ⟨⟨hown.1, hown.2.1, by simpa using hown.2.2⟩, fun _ => ?_⟩
      simp only [Loaded, goto, setBlock, update_self, hown.2.2]
      exact ⟨hdevice, fun _ => hdevice⟩
    · rintro _ rfl hnone
      exact absurd (hown.2.1.symm.trans hnone) (by simp)
    · simp [Evicts, hpc]
  · simp [Device.blockRead, Device.checkSector, hrange] at hstep

@[simp] theorem lastWritten_append_singleton (history : List CacheEvent) (e : CacheEvent)
    (x : BlockSector) :
    lastWritten (history ++ [e]) x = (written? x e).or (lastWritten history x) := by
  rw [lastWritten, reverse_append, reverse_singleton, singleton_append, findSome?_cons]
  cases written? x e <;> rfl

section

variable (h : Coherent initial s)
include h

theorem Coherent.finishCall
    (hpc : s.pc t = .finish op i) : Coherent initial (s.finishCall t op i) := by
  have hthread := h.thread t
  unfold ThreadOk at hthread
  rw [hpc] at hthread
  obtain ⟨hown, hloaded⟩ := hthread
  have hnotEvicts : ∀ y, ¬ Evicts s t y := by simp [Evicts, hpc]
  have hfinal : ∀ s' : ThreadedCache, s'.pc t = .idle →
      ¬ HoldsLru (s'.pc t) ∧ ThreadOk initial s' t ∧ ∀ y, ¬ Evicts s' t y := by
    intro s' hs'
    simp [HoldsLru, ThreadOk, Evicts, hs']
  cases op with
  | read x =>
    obtain ⟨hnolru, hself, hevicts⟩ := hfinal (s.finishCall t (.read x) i) (by simp [finishCall])
    have hvalue : ∀ y, value initial (s.finishCall t (.read x) i) y = value initial s y := by
      intro y
      simp [value, finishCall, written?]
    have hdevice : ∀ y, OnDevice initial (s.finishCall t (.read x) i) y ↔ OnDevice initial s y := by
      intro y
      unfold OnDevice
      rw [hvalue]
      rfl
    refine h.owned_step (· = i) (by simpa using ⟨hown.1, hown.2.1⟩) (by simp [hpc, AtLock]) rfl
      (fun u _ hl => h.lru u hl) (fun u hu => goto_pc_of_ne _ hu) hnolru (fun _ => rfl)
      (fun _ _ => rfl) ?_ (fun y _ => hvalue y) (fun y _ => (hdevice y).mpr)
      (fun y hy => absurd hy (hevicts y)) hself ?_ (fun y hy => absurd hy (hnotEvicts y))
    · intro j hj
      simp [finishCall, hj]
    · rintro _ rfl _
      have := hloaded rfl
      refine ⟨?_, fun hd => (hdevice _).mpr (this.2 hd)⟩
      rw [hvalue]
      exact this.1
  | write x buffer =>
    obtain ⟨hnolru, hself, hevicts⟩ := hfinal (s.finishCall t (.write x buffer) i)
      (by simp [finishCall])
    have htagi : (s.cache.blocks i).sectorTag = x := hown.2.2
    have hvalue : ∀ y, value initial (s.finishCall t (.write x buffer) i) y =
        if x = y then buffer else value initial s y := by
      intro y
      by_cases hxy : x = y <;> simp [value, finishCall, written?, hxy]
    have hother : ∀ y, y ≠ x → value initial (s.finishCall t (.write x buffer) i) y =
        value initial s y := fun y hy => by rw [hvalue, if_neg (Ne.symm hy)]
    refine h.owned_step (· = i) (by simpa using ⟨hown.1, hown.2.1⟩) (by simp [hpc, AtLock]) rfl
      (fun u _ hl => h.lru u hl) (fun u hu => goto_pc_of_ne _ hu) hnolru ?_ ?_ ?_
      (fun y hy => hother y (htagi ▸ hy i rfl)) ?_
      (fun y hy => absurd hy (hevicts y)) hself ?_ (fun y hy => absurd hy (hnotEvicts y))
    · exact BufferCache.sectorTag_update rfl
    · intro j hj
      simp [finishCall, hj]
    · intro j hj
      simp [finishCall, hj]
    · intro y hy hdev
      unfold OnDevice
      rwa [hother y (htagi ▸ hy i rfl)]
    · rintro _ rfl _
      unfold Loaded
      rw [hvalue]
      simp [finishCall, htagi]

/-! ## Steps that need `LRU_lock` -/

theorem Coherent.not_holdsLru_of_free (hfree : s.lruLock = none)
    (u : Tid) : ¬ HoldsLru (s.pc u) := fun hu => by simp [h.lru u hu] at hfree

theorem Coherent.loaded (hothers : ∀ u, u ≠ t → ¬ HoldsLru (s.pc u)) (hi : s.cache.Live i)
    (hfree : s.blockLock i = none) (hfill : ∀ op, s.pc t ≠ .lockBlock op .fill i) :
    Loaded initial s i := by
  refine h.stable i hi hfree fun u op hu => ?_
  by_cases hut : u = t
  · exact hfill op (hut ▸ hu)
  · exact hothers u hut (by rw [hu]; trivial)

/-- A step after which thread `t` has `LRU_lock`, and that moves no bytes. -/
theorem Coherent.lru_step (hpc : ∀ u, u ≠ t → s'.pc u = s.pc u)
    (hothers : ∀ u, u ≠ t → ¬ HoldsLru (s.pc u)) (hlru : s'.lruLock = some t)
    (hhistory : s'.history = s.history) (hdevice : s'.cache.device = s.cache.device)
    (hlisted : s'.cache.Listed) (hlive : ∀ j, s.cache.Live j → s'.cache.Live j)
    (hlocked : ∀ j, s'.blockLock j ≠ none → s'.cache.Live j)
    (hblock : ∀ j, s.blockLock j ≠ none → s'.blockLock j = s.blockLock j ∧
      s'.cache.blocks j = s.cache.blocks j)
    (huntagged : ∀ u x, Evicts s u x → Untagged s x → Untagged s' x) (hself : ThreadOk initial s' t)
    (hstable : ∀ j, s'.cache.Live j → s'.blockLock j = none →
      (∀ op, s'.pc t ≠ .lockBlock op .fill j) →
      Loaded initial s j ∧ s'.cache.blocks j = s.cache.blocks j)
    (habsent : ∀ x, Untagged s' x → ¬ Evicts s' t x → Untagged s x ∧ ¬ Evicts s t x) :
    Coherent initial s' := by
  have hvalue : ∀ x, value initial s' x = value initial s x :=
    fun x => by simp only [value, hhistory]
  have honDevice : ∀ x, OnDevice initial s' x ↔ OnDevice initial s x := fun x => by
    simp only [OnDevice, hdevice, hvalue]
  refine ⟨hlisted, ?_, hlocked, ?_, ?_, ?_⟩
  · intro u hu
    by_cases hut : u = t
    · rw [hut, hlru]
    · rw [hpc u hut] at hu
      exact absurd hu (hothers u hut)
  · intro u
    by_cases hut : u = t
    · subst hut; exact hself
    · refine (h.thread u).frame (hpc u hut) (not_atLock_of_not_holdsLru (hothers u hut)) hlive ?_
        (fun x _ => hvalue x) (fun x _ => (honDevice x).mpr) (huntagged u)
      intro j hj
      obtain ⟨hlock, heq⟩ := hblock j (by simp [hj])
      exact ⟨hlock.trans hj, heq⟩
  · intro j hj hnone hfill
    obtain ⟨hloaded, heq⟩ := hstable j hj hnone (hfill t)
    unfold Loaded
    rwa [heq, hvalue, honDevice]
  · intro x hx hnone
    obtain ⟨hx', ht⟩ := habsent x hx (hnone t)
    refine (honDevice x).mpr (h.absent x hx' fun u hu => ?_)
    by_cases hut : u = t
    · exact ht (hut ▸ hu)
    · exact hnone u (by simpa only [Evicts, hpc u hut] using hu)

section

variable (hfree : s.lruLock = none) (hstart : s.pc t = .start op)
include hfree hstart

theorem Coherent.search_step
    {list : List (Fin cacheSize)} (hperm : list.Perm s.cache.lruList)
    (hself : ThreadOk initial (({ s with lruLock := some t }.setList list).goto t
      (.lockBlock op path i)) t) :
    Coherent initial (({ s with lruLock := some t }.setList list).goto t
      (.lockBlock op path i)) := by
  set s' := ({ s with lruLock := some t }.setList list).goto t (.lockBlock op path i)
  have hlive : ∀ j, s'.cache.Live j ↔ s.cache.Live j := BufferCache.live_perm hperm
  have huntagged : ∀ x, Untagged s' x ↔ Untagged s x := fun x => by
    simp only [Untagged, hlive]
    exact Iff.rfl
  have hothers : ∀ u, u ≠ t → ¬ HoldsLru (s.pc u) := fun u _ => h.not_holdsLru_of_free hfree u
  refine h.lru_step (fun u hu => goto_pc_of_ne _ hu) hothers rfl rfl rfl
    (h.toListed.perm hperm fun _ => rfl)
    (fun j => (hlive j).mpr) (fun j hj => (hlive j).mpr (h.locked j hj)) (fun _ _ => ⟨rfl, rfl⟩)
    (fun _ x _ => (huntagged x).mpr) hself ?_ fun x hx _ =>
      ⟨(huntagged x).mp hx, by simp [Evicts, hstart]⟩
  exact fun j hj hnone _ => ⟨h.loaded hothers ((hlive j).mp hj) hnone (by simp [hstart]), rfl⟩

theorem Coherent.fill_step (hroom : s.cache.lruList.length < cacheSize)
    (huntagged : Untagged s op.sector) (hevicts : ∀ u, ¬ Evicts s u op.sector) :
    let i : Fin cacheSize := ⟨s.cache.lruList.length, hroom⟩
    Coherent initial (((({ s with lruLock := some t } : ThreadedCache).setBlock i
      { s.cache.blocks i with sectorTag := op.sector, dirtyBit := op.isWrite }).setList
        (i :: s.cache.lruList)).goto t (.lockBlock op .fill i)) := by
  intro i
  set s' := ((({ s with lruLock := some t } : ThreadedCache).setBlock i
      { s.cache.blocks i with sectorTag := op.sector, dirtyBit := op.isWrite }).setList
        (i :: s.cache.lruList)).goto t (.lockBlock op .fill i) with hs'
  obtain ⟨hlists, hunused⟩ := BufferCache.fill_list h.toListed hroom
  have hlive' : ∀ j, s'.cache.Live j ↔ s.cache.Live j ∨ j = i := hlists.live_iff
  have hblock : ∀ j, j ≠ i → s'.cache.blocks j = s.cache.blocks j := fun j hj => by
    simp [hs', hj]
  have hnew : s'.cache.blocks i =
      { s.cache.blocks i with sectorTag := op.sector, dirtyBit := op.isWrite } := by
    simp [hs']
  have hne : ∀ j, s.cache.Live j → j ≠ i := fun j hj heq =>
    hunused (show s.cache.Live i from heq ▸ hj)
  have hlock : s.blockLock i = none := by
    by_contra hsome
    exact hunused (h.locked i hsome)
  have hothers : ∀ u, u ≠ t → ¬ HoldsLru (s.pc u) := fun u _ => h.not_holdsLru_of_free hfree u
  refine h.lru_step (fun u hu => goto_pc_of_ne _ hu) hothers rfl rfl rfl
    (h.toListed.install _ _ (fun j _ => huntagged j) hlists) (fun j hj => (hlive' j).mpr (.inl hj))
    (fun j hj => (hlive' j).mpr (.inl (h.locked j hj)))
    (fun j hj => ⟨rfl, hblock j (hne j (h.locked j hj))⟩) ?_ ?_ ?_ ?_
  · -- a sector under eviction is not the one the new block is tagged with
    intro u x hx huntag j hj
    rcases (hlive' j).mp hj with hj | rfl
    · rw [hblock j (hne j hj)]
      exact huntag j hj
    · rw [hnew]
      rintro rfl
      exact hevicts u hx
  · unfold ThreadOk
    rw [goto_pc_self]
    exact ⟨(hlive' i).mpr (.inr rfl), by rw [hnew], hlock, h.absent _ huntagged hevicts,
      by rw [hnew]⟩
  · intro j hj hnone hfill
    rcases (hlive' j).mp hj with hj | rfl
    · exact ⟨h.loaded hothers hj hnone (by simp [hstart]), hblock j (hne j hj)⟩
    · exact absurd (goto_pc_self _) (hfill op)
  · intro x hx _
    refine ⟨fun j hj => ?_, by simp [Evicts, hstart]⟩
    rw [← hblock j (hne j hj)]
    exact hx j ((hlive' j).mpr (.inl hj))

theorem Coherent.search
    (hsettled : s.cache.findBlock op.sector = none → ∀ u op' i, s.pc u ≠ .writeBack op' i op.sector)
    (hstep : s.search t op = some s') : Coherent initial s' := by
  unfold ThreadedCache.search at hstep
  dsimp only at hstep
  split at hstep
  next i hfind =>
    obtain ⟨hi, htag⟩ := BufferCache.findBlock_some hfind
    have hmem := (h.mem_iff i).mpr hi
    obtain rfl := Option.some.inj hstep
    refine h.search_step hfree hstart (BufferCache.touch_perm hmem) ?_
    unfold ThreadOk
    rw [goto_pc_self]
    exact ⟨(BufferCache.live_touch hmem i s.cache.blocks).mpr hi, htag⟩
  next hfind =>
    have huntagged : Untagged s op.sector := fun i hi => BufferCache.findBlock_none hfind i hi
    have hevicts : ∀ u, ¬ Evicts s u op.sector := by
      rintro u (⟨op', i, hu⟩ | ⟨op', i, hu⟩)
      · exact h.not_holdsLru_of_free hfree u (by rw [hu]; trivial)
      · exact hsettled hfind u op' i hu
    split at hstep
    next hroom =>
      obtain rfl := Option.some.inj hstep
      exact h.fill_step hfree hstart hroom huntagged hevicts
    next hfull =>
      split at hstep
      next => simp at hstep
      next i hlast =>
        obtain rfl := Option.some.inj hstep
        have hi : s.cache.Live i := (h.mem_iff i).mp (mem_of_getLast? hlast)
        have hperm := BufferCache.evict_perm hlast
        refine h.search_step hfree hstart hperm ?_
        unfold ThreadOk
        rw [goto_pc_self]
        refine ⟨(BufferCache.live_perm hperm i).mpr hi, fun j hj => ?_, fun u hu => ?_⟩
        · exact huntagged j ((BufferCache.live_perm hperm j).mp hj)
        · by_cases hut : u = t
          · subst hut; simp [Evicts] at hu
          · rw [Evicts, goto_pc_of_ne _ hut] at hu
            exact hevicts u hu

end

/-! ## Locking the block -/

theorem Coherent.lock_step (hpc : s.pc t = .lockBlock op path i) (hfree : s.blockLock i = none)
    {old : BlockSector}
    (hself : ThreadOk initial (({ s with blockLock := update s.blockLock i (some t) } :
      ThreadedCache).goto t (.unlockLru op path i old)) t)
    (hi : s.cache.Live i) :
    Coherent initial (({ s with
      blockLock := update s.blockLock i (some t) } : ThreadedCache).goto t
        (.unlockLru op path i old)) := by
  set s' := ({ s with
      blockLock := update s.blockLock i (some t) } : ThreadedCache).goto t
        (.unlockLru op path i old) with hs'
  have hholds : HoldsLru (s.pc t) := by rw [hpc]; trivial
  have hothers : ∀ u, u ≠ t → ¬ HoldsLru (s.pc u) := fun u hu => h.not_holdsLru hholds hu
  have hlock : ∀ j, j ≠ i → s'.blockLock j = s.blockLock j := fun j hj => by
    simp [hs', hj]
  have hlocki : s'.blockLock i = some t := by simp [hs']
  refine h.lru_step (fun u hu => goto_pc_of_ne _ hu) hothers (h.lru t hholds) rfl rfl h.toListed
    (fun _ hj => hj) ?_ ?_ (fun _ _ _ hx => hx) hself ?_
    fun x hx _ => ⟨hx, by simp [Evicts, hpc]⟩
  · intro j hj
    by_cases hji : j = i
    · exact hji ▸ hi
    · exact h.locked j (hlock j hji ▸ hj)
  · intro j hj
    exact ⟨hlock j fun hji => hj (hji ▸ hfree), rfl⟩
  intro j hj hnone _
  have hji : j ≠ i := by rintro rfl; simp [hlocki] at hnone
  refine ⟨h.loaded hothers hj (hlock j hji ▸ hnone) fun op' hu => ?_, rfl⟩
  rw [hpc] at hu
  injection hu with _ _ hij
  exact hji hij.symm

theorem Coherent.retag_step (hpc : s.pc t = .lockBlock op .evict i)
    (hfree : s.blockLock i = none) : Coherent initial (s.acquireBlock t op .evict i) := by
  have hthread := h.thread t
  unfold ThreadOk at hthread
  rw [hpc] at hthread
  obtain ⟨hi, huntagged, hevicts⟩ := hthread
  have hholds : HoldsLru (s.pc t) := by rw [hpc]; trivial
  set s' := s.acquireBlock t op .evict i with hs'
  have hothers : ∀ u, u ≠ t → ¬ HoldsLru (s.pc u) := fun u hu => h.not_holdsLru hholds hu
  have hpct : s'.pc t = .unlockLru op .evict i (s.cache.blocks i).sectorTag := goto_pc_self _
  have hlock : ∀ j, j ≠ i → s'.blockLock j = s.blockLock j := fun j hj => by
    simp [hs', acquireBlock, hj]
  have hlocki : s'.blockLock i = some t := by simp [hs', acquireBlock]
  have hblock : ∀ j, j ≠ i → s'.cache.blocks j = s.cache.blocks j := fun j hj => by
    simp [hs', acquireBlock, hj]
  have hnew : s'.cache.blocks i = { s.cache.blocks i with sectorTag := op.sector } := by
    simp [hs', acquireBlock]
  have hloaded : Loaded initial s i := h.loaded hothers hi hfree (by simp [hpc])
  refine h.lru_step (fun u hu => goto_pc_of_ne _ hu) hothers (h.lru t hholds) rfl rfl
    (h.toListed.install _ _ (fun j _ => huntagged j) (h.toListed.lists_perm hi (.refl _)))
    (fun _ hj => hj) ?_ ?_ ?_ ?_ ?_ ?_
  · intro j hj
    by_cases hji : j = i
    · exact hji ▸ hi
    · exact h.locked j (hlock j hji ▸ hj)
  · intro j hj
    have hji : j ≠ i := fun hji => hj (hji ▸ hfree)
    exact ⟨hlock j hji, hblock j hji⟩
  · intro u x hx huntag j hj
    by_cases hji : j = i
    · rw [hji, hnew]
      rintro rfl
      exact hevicts u hx
    · rw [hblock j hji]
      exact huntag j hj
  · unfold ThreadOk
    rw [hpct]
    refine ⟨⟨hi, hlocki, by rw [hnew]⟩, ⟨?_, ?_, ?_⟩, h.absent _ huntagged hevicts⟩
    · rw [hnew]; exact hloaded.1
    · rw [hnew]; exact hloaded.2
    intro j hj
    by_cases hji : j = i
    · rw [hji, hnew]
      exact (huntagged i hi).symm
    · rw [hblock j hji]
      exact fun heq => hji (h.tag_inj j i hj hi heq)
  · intro j hj hnone _
    have hji : j ≠ i := by rintro rfl; simp [hlocki] at hnone
    exact ⟨h.loaded hothers hj (hlock j hji ▸ hnone) (by simp [hpc]), hblock j hji⟩
  · intro x hx hnone
    refine ⟨fun j hj => ?_, by simp [Evicts, hpc]⟩
    by_cases hji : j = i
    · rintro rfl
      exact hnone (.inl ⟨op, i, hji ▸ hpct⟩)
    · rw [← hblock j hji]
      exact hx j hj

theorem Coherent.acquireBlock (hpc : s.pc t = .lockBlock op path i)
    (hfree : s.blockLock i = none) : Coherent initial (s.acquireBlock t op path i) := by
  have hthread := h.thread t
  unfold ThreadOk at hthread
  rw [hpc] at hthread
  cases path with
  | hit =>
    have hloaded : Loaded initial s i := by
      refine h.loaded (t := t) (fun u hu => h.not_holdsLru ?_ hu) hthread.1 hfree (by simp [hpc])
      rw [hpc]
      trivial
    refine h.lock_step hpc hfree ?_ hthread.1
    unfold ThreadOk
    rw [goto_pc_self]
    exact ⟨⟨hthread.1, by simp, hthread.2⟩, hloaded⟩
  | fill =>
    refine h.lock_step hpc hfree ?_ hthread.1
    unfold ThreadOk
    rw [goto_pc_self]
    exact ⟨⟨hthread.1, by simp, hthread.2.1⟩, hthread.2.2.2.1, hthread.2.2.2.2⟩
  | evict => exact h.retag_step hpc hfree

theorem Coherent.startCall (hpc : s.pc t = .idle) :
    Coherent initial { s.goto t (.start op) with history := s.history ++ [.call t op] } := by
  set s' : ThreadedCache := { s.goto t (.start op) with history := s.history ++ [.call t op] }
    with hs'
  have hpct : s'.pc t = .start op := goto_pc_self _
  have hvalue : ∀ x, value initial s' x = value initial s x := fun x => by
    simp [value, hs', written?]
  have hdevice : ∀ x, OnDevice initial s x → OnDevice initial s' x := fun x hx => by
    unfold OnDevice
    rwa [hvalue]
  exact h.owned_step (fun _ => False) (fun _ hi => hi.elim) (by simp [hpc, AtLock]) rfl
    (fun u _ hl => h.lru u hl) (fun u hu => goto_pc_of_ne _ hu) (by simp [hpct, HoldsLru])
    (fun _ => rfl) (fun _ _ => rfl) (fun _ _ => rfl) (fun x _ => hvalue x) (fun x _ => hdevice x)
    (by simp [Evicts, hpct]) (by simp [ThreadOk, hpct]) (fun _ hi => hi.elim)
    (by simp [Evicts, hpc])

end

/-! ## All steps -/

/-- The condition on a step: a call that misses its sector does so while no other
thread has that sector still to write back. -/
def Settled (s : ThreadedCache) : CacheLabel → Prop
  | .call _ _ => True
  | .step t => ∀ op, s.pc t = .start op → s.cache.findBlock op.sector = none →
      ∀ u op' i, s.pc u ≠ .writeBack op' i op.sector

theorem Coherent.next (h : Coherent initial s) {label : CacheLabel} (hsettled : Settled s label)
    (hstep : s.next label = some s') : Coherent initial s' := by
  cases label with
  | call t op =>
    unfold ThreadedCache.next ThreadedCache.startCall at hstep
    cases hpc : s.pc t <;> simp only [hpc, reduceCtorEq, Option.some.injEq] at hstep
    exact hstep ▸ h.startCall hpc
  | step t =>
    unfold ThreadedCache.next step at hstep
    cases hpc : s.pc t with
    | idle => simp [hpc] at hstep
    | start op =>
      simp only [hpc, Option.ite_none_right_eq_some] at hstep
      exact h.search hstep.1 hpc (hsettled op hpc) hstep.2
    | lockBlock op path i =>
      simp only [hpc, Option.ite_none_right_eq_some, Option.some.injEq] at hstep
      exact hstep.2 ▸ h.acquireBlock hpc hstep.1
    | unlockLru op path i x =>
      simp only [hpc, Option.some.injEq] at hstep
      exact hstep ▸ h.releaseLru hpc
    | writeBack op i x =>
      simp only [hpc] at hstep
      exact h.writeOld hpc hstep
    | fetch op i =>
      simp only [hpc] at hstep
      exact h.readNew hpc hstep
    | finish op i =>
      simp only [hpc, Option.some.injEq] at hstep
      exact hstep ▸ h.finishCall hpc

end CS162.ThreadedCache
