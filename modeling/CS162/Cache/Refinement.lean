import CS162.Cache.Model

/-!
# The buffer cache refines the disk

What a client of `cache.c` sees is a disk: `logical cache` reads a sector from the
block that holds it and from the device otherwise.  `Valid` is the invariant that
makes this a disk at all:

* the blocks on `LRU_list` are exactly the first `list_size (&LRU_list)` ones;
* no two of them hold the same sector;
* a clean one holds what the device holds.

`cacheRead_spec`, `cacheWrite_spec` and `cacheFlush_spec` say what each call does
to the logical disk, and keep the invariant.  The three paths of a call are a hit,
which moves the block to the front of the list, and the two ways of bringing
in a new sector, filling the next unused block or evicting the last one of the
list.  They share `replace_spec`: a block gets new content, after the device has
received what the block held for another sector.  A round of the flush is of this
form, too.
-/

namespace CS162

open Function List

namespace BufferCache

variable {cache : BufferCache}

@[simp] def Live (cache : BufferCache) (i : Fin cacheSize) : Prop := i.val < cache.lruList.length

/-- The part of the invariant that is about `LRU_list` and the tags. -/
structure Listed (cache : BufferCache) : Prop where
  nodup : cache.lruList.Nodup
  mem_iff : ∀ i, i ∈ cache.lruList ↔ cache.Live i
  tag_inj : ∀ i j, cache.Live i → cache.Live j →
    (cache.blocks i).sectorTag = (cache.blocks j).sectorTag → i = j

/-- The invariant of the buffer cache. -/
structure Valid (cache : BufferCache) : Prop extends cache.Listed where
  tag_lt : ∀ i, cache.Live i → (cache.blocks i).sectorTag.toNat < cache.device.size
  clean : ∀ i, cache.Live i → (cache.blocks i).dirtyBit = false →
    (cache.blocks i).sector = cache.device.content (cache.blocks i).sectorTag

/-- The disk a client of the cache sees. -/
def logical (cache : BufferCache) (sector : BlockSector) : Sector :=
  match cache.findBlock sector with
  | some i => (cache.blocks i).sector
  | none => cache.device.content sector

/-! ## Searching -/

variable {i : Fin cacheSize} {sector : BlockSector}

theorem findBlock_some (h : cache.findBlock sector = some i) :
    cache.Live i ∧ (cache.blocks i).sectorTag = sector := by
  simpa using find?_some h

theorem findBlock_none (h : cache.findBlock sector = none)
    (i : Fin cacheSize) (hi : cache.Live i) : (cache.blocks i).sectorTag ≠ sector := by
  have := find?_eq_none.mp h i (mem_finRange i)
  simpa [show i.val < cache.lruList.length from hi] using this

/-- A live block is what the logical disk holds for its tag. -/
theorem Valid.logical_tag (hvalid : cache.Valid) (hi : cache.Live i) :
    cache.logical (cache.blocks i).sectorTag = (cache.blocks i).sector := by
  unfold logical
  cases h : cache.findBlock (cache.blocks i).sectorTag with
  | none => exact absurd rfl (findBlock_none h i hi)
  | some j =>
    obtain ⟨hj, htag⟩ := findBlock_some h
    rw [hvalid.tag_inj j i hj hi htag]

theorem logical_of_untagged (h : ∀ i, cache.Live i → (cache.blocks i).sectorTag ≠ sector) :
    cache.logical sector = cache.device.content sector := by
  unfold logical
  cases hfind : cache.findBlock sector with
  | none => rfl
  | some i => exact absurd (findBlock_some hfind).2 (h i (findBlock_some hfind).1)

/-- The logical disk is the one that holds the live blocks, and off their tags what the device
holds. -/
theorem Valid.logical_eq (hvalid : cache.Valid) {content : BlockSector → Sector}
    (htagged : ∀ i, cache.Live i → content (cache.blocks i).sectorTag = (cache.blocks i).sector)
    (hrest : ∀ s, (∀ i, cache.Live i → (cache.blocks i).sectorTag ≠ s) →
      content s = cache.device.content s) : cache.logical = content := by
  funext s
  by_cases h : ∃ i, cache.Live i ∧ (cache.blocks i).sectorTag = s
  · obtain ⟨i, hi, rfl⟩ := h
    rw [hvalid.logical_tag hi, htagged i hi]
  · push Not at h
    rw [logical_of_untagged h, hrest s h]

theorem valid_cacheInit (device : Device) (blocks : Fin cacheSize → CacheBlock) :
    (cacheInit device blocks).Valid where
  nodup := nodup_nil
  mem_iff i := by simp
  tag_inj i j hi := by simp at hi
  tag_lt i hi := by simp at hi
  clean i hi := by simp at hi

theorem logical_cacheInit (device : Device) (blocks : Fin cacheSize → CacheBlock) :
    (cacheInit device blocks).logical = device.content := by
  funext s
  exact logical_of_untagged fun i hi => by simp at hi

/-! ## Hits -/

variable {list : List (Fin cacheSize)}

theorem touch_perm (hi : i ∈ list) : (touch i list).Perm list := (perm_cons_erase hi).symm

theorem live_perm {other : BufferCache} (hperm : other.lruList.Perm cache.lruList)
    (j : Fin cacheSize) : other.Live j ↔ cache.Live j := by
  rw [Live, Live, hperm.length_eq]

theorem sectorTag_update {blocks : Fin cacheSize → CacheBlock} {block : CacheBlock}
    (htag : block.sectorTag = (blocks i).sectorTag) (j : Fin cacheSize) :
    (update blocks i block j).sectorTag = (blocks j).sectorTag := by
  by_cases hj : j = i
  · rw [hj, update_self, htag]
  · rw [update_of_ne hj]

/-- The list in another order. -/
theorem Listed.perm (h : cache.Listed) {other : BufferCache}
    (hperm : other.lruList.Perm cache.lruList)
    (htag : ∀ j, (other.blocks j).sectorTag = (cache.blocks j).sectorTag) : other.Listed := by
  refine ⟨hperm.nodup_iff.mpr h.nodup, ?_, ?_⟩
  · intro j
    rw [hperm.mem_iff, live_perm hperm, h.mem_iff]
  · intro j k hj hk heq
    rw [htag, htag] at heq
    exact h.tag_inj j k ((live_perm hperm j).mp hj) ((live_perm hperm k).mp hk) heq

theorem live_touch (hi : i ∈ cache.lruList) (j : Fin cacheSize)
    (blocks : Fin cacheSize → CacheBlock) :
    ({ cache with blocks := blocks, lruList := touch i cache.lruList } : BufferCache).Live j ↔
      cache.Live j := by
  exact live_perm (touch_perm hi) j

theorem Listed.touch (h : cache.Listed) (hi : cache.Live i) (blocks : Fin cacheSize → CacheBlock)
    (htag : ∀ j, (blocks j).sectorTag = (cache.blocks j).sectorTag) :
    ({ cache with blocks := blocks, lruList := touch i cache.lruList } : BufferCache).Listed :=
  h.perm (touch_perm ((h.mem_iff i).mpr hi)) htag

/-! ## Replacing a block -/

/-- The list has the blocks in use and block `i`. -/
structure Lists (cache : BufferCache) (i : Fin cacheSize) (list : List (Fin cacheSize)) : Prop where
  nodup : list.Nodup
  mem_iff : ∀ j, j ∈ list ↔ j.val < list.length
  live_iff : ∀ j : Fin cacheSize, j.val < list.length ↔ cache.Live j ∨ j = i

section

variable (h : cache.Listed)
include h

theorem Listed.lists_perm (hi : cache.Live i) (hperm : list.Perm cache.lruList) :
    cache.Lists i list where
  nodup := hperm.nodup_iff.mpr h.nodup
  mem_iff j := by rw [hperm.mem_iff, hperm.length_eq, h.mem_iff, Live]
  live_iff j := by
    rw [hperm.length_eq]
    exact ⟨.inl, fun h => h.elim id fun h => h ▸ hi⟩

/-- The list after the next unused block has been put in front. -/
theorem fill_list (hroom : cache.lruList.length < cacheSize) :
    let i : Fin cacheSize := ⟨cache.lruList.length, hroom⟩
    cache.Lists i (i :: cache.lruList) ∧ ¬ cache.Live i := by
  intro i
  have hnot : ¬ cache.Live i := fun hi => lt_irrefl _ hi
  have hiff : ∀ j : Fin cacheSize, j.val < (i :: cache.lruList).length ↔ cache.Live j ∨ j = i := by
    intro j
    simp only [length_cons, Live, i, Fin.ext_iff]
    omega
  refine ⟨⟨nodup_cons.mpr ⟨fun hi => hnot ((h.mem_iff i).mp hi), h.nodup⟩, ?_, hiff⟩, hnot⟩
  intro j
  rw [hiff, mem_cons, h.mem_iff]
  exact or_comm

theorem Listed.install (device : Device) (block : CacheBlock)
    (hfresh : ∀ j, j ≠ i → cache.Live j → (cache.blocks j).sectorTag ≠ block.sectorTag)
    (hlists : cache.Lists i list) :
    (⟨device, update cache.blocks i block, list⟩ : BufferCache).Listed := by
  have holder : ∀ j : Fin cacheSize, j.val < list.length → j ≠ i → cache.Live j := fun j hj hji =>
    ((hlists.live_iff j).mp hj).resolve_right hji
  refine ⟨hlists.nodup, hlists.mem_iff, fun j k hj hk heq => ?_⟩
  by_cases hji : j = i <;> by_cases hki : k = i
  · rw [hji, hki]
  · simp only [hji, update_self, update_of_ne hki] at heq
    exact absurd heq.symm (hfresh k hki (holder k hk hki))
  · simp only [hki, update_self, update_of_ne hji] at heq
    exact absurd heq (hfresh j hji (holder j hj hji))
  · simp only [update_of_ne hji, update_of_ne hki] at heq
    exact h.tag_inj j k (holder j hj hji) (holder k hk hki) heq

end

theorem evict_perm (hlast : list.getLast? = some i) : (i :: list.dropLast).Perm list := by
  conv_rhs => rw [← dropLast_append_getLast? i hlast]
  exact (perm_append_singleton i _).symm

/-- Block `i` gets new content, after `device` has received what the block held if it was in
use for another sector. -/
theorem replace_spec (hvalid : cache.Valid) (block : CacheBlock) {device : Device}
    (hfresh : ∀ j, j ≠ i → cache.Live j → (cache.blocks j).sectorTag ≠ block.sectorTag)
    (hsector : block.sectorTag.toNat < cache.device.size) (hlists : cache.Lists i list)
    (hsize : device.size = cache.device.size)
    (hback : cache.Live i → (cache.blocks i).sectorTag ≠ block.sectorTag →
      device.content (cache.blocks i).sectorTag = (cache.blocks i).sector)
    (hdevice : ∀ s, (cache.Live i → (cache.blocks i).sectorTag ≠ s) →
      device.content s = cache.device.content s)
    (hclean : block.dirtyBit = false → block.sector = device.content block.sectorTag) :
    let next : BufferCache := ⟨device, update cache.blocks i block, list⟩
    next.Valid ∧ next.logical = update cache.logical block.sectorTag block.sector := by
  intro next
  have hother : ∀ j, j ≠ i → next.blocks j = cache.blocks j := fun j hj => by
    simp [next, hj]
  have hself : next.blocks i = block := by simp [next]
  have holder : ∀ j, next.Live j → j ≠ i → cache.Live j := fun j hj hne =>
    ((hlists.live_iff j).mp hj).resolve_right hne
  have hnext : next.Valid := by
    refine ⟨hvalid.install device block hfresh hlists, ?_, ?_⟩
    · intro j hj
      by_cases hji : j = i
      · rw [hji, hself]
        exact hsize ▸ hsector
      · rw [hother j hji]
        exact hsize ▸ hvalid.tag_lt j (holder j hj hji)
    intro j hj hdirty
    by_cases hji : j = i
    · rw [hji, hself] at hdirty ⊢
      exact hclean hdirty
    · rw [hother j hji] at hdirty ⊢
      have hlj := holder j hj hji
      rw [hvalid.clean j hlj hdirty]
      refine (hdevice _ fun hi heq => hji ?_).symm
      exact (hvalid.tag_inj i j hi hlj heq).symm
  refine ⟨hnext, hnext.logical_eq (fun j hj => ?_) fun s hs => ?_⟩
  · by_cases hji : j = i
    · rw [hji, hself, update_self]
    · have hj := holder j hj hji
      rw [hother j hji, update_of_ne (hfresh j hji hj), hvalid.logical_tag hj]
  have hne : s ≠ block.sectorTag := by
    rintro rfl
    exact hs i ((hlists.live_iff i).mpr (.inr rfl)) (by rw [hself])
  rw [update_of_ne hne]
  by_cases htagged : ∃ j, cache.Live j ∧ (cache.blocks j).sectorTag = s
  · -- the evicted sector is read from the device, which has just received it
    obtain ⟨j, hj, rfl⟩ := htagged
    obtain rfl : j = i := by
      by_contra hji
      exact hs j ((hlists.live_iff j).mpr (.inl hj)) (by rw [hother j hji])
    rw [hvalid.logical_tag hj, hback hj hne]
  · push Not at htagged
    rw [logical_of_untagged htagged, hdevice s fun hi => htagged i hi]

/-- Block `i` keeps its sector. -/
theorem rewrite_spec (hvalid : cache.Valid) (hi : cache.Live i) (block : CacheBlock)
    {device : Device} (htag : block.sectorTag = (cache.blocks i).sectorTag)
    (hperm : list.Perm cache.lruList) (hsize : device.size = cache.device.size)
    (hdevice : ∀ s, (cache.blocks i).sectorTag ≠ s → device.content s = cache.device.content s)
    (hclean : block.dirtyBit = false → block.sector = device.content block.sectorTag) :
    let next : BufferCache := ⟨device, update cache.blocks i block, list⟩
    next.Valid ∧ next.logical = update cache.logical block.sectorTag block.sector :=
  replace_spec hvalid block (fun j hji hj heq => hji (hvalid.tag_inj j i hj hi (heq.trans htag)))
    (htag ▸ hvalid.tag_lt i hi) (hvalid.lists_perm hi hperm) hsize
    (fun _ hne => absurd htag.symm hne) (fun s hs => hdevice s (hs hi)) hclean

/-- After the write-back of a live block the device holds the block's bytes, and
nothing else has changed on it. -/
theorem writeBack_spec (hvalid : cache.Valid) (hi : cache.Live i) :
    ∃ device, writeBack cache.device (cache.blocks i) = .ok device ∧
      device.size = cache.device.size ∧
      device.content (cache.blocks i).sectorTag = (cache.blocks i).sector ∧
      ∀ s, (cache.blocks i).sectorTag ≠ s → device.content s = cache.device.content s := by
  unfold writeBack
  cases hdirty : (cache.blocks i).dirtyBit with
  | false =>
    exact ⟨cache.device, rfl, rfl, (hvalid.clean i hi hdirty).symm, fun _ _ => rfl⟩
  | true =>
    refine ⟨_, Device.blockWrite_eq (hvalid.tag_lt i hi) _, rfl, update_self .., ?_⟩
    intro s hs
    exact update_of_ne hs.symm _ _

theorem exists_getLast_of_full (h : ¬ cache.lruList.length < cacheSize) :
    ∃ i, cache.lruList.getLast? = some i := by
  cases hlast : cache.lruList.getLast? with
  | none => simp [getLast?_eq_none_iff.mp hlast] at h
  | some i => exact ⟨i, rfl⟩

/-! ## What each call does to the logical disk -/

theorem cacheRead_spec (hvalid : cache.Valid) (hsector : sector.toNat < cache.device.size) :
    ∃ next, cache.cacheRead sector = .ok (cache.logical sector, next) ∧ next.Valid ∧
      next.logical = cache.logical ∧ next.device.size = cache.device.size := by
  unfold cacheRead
  cases hfind : cache.findBlock sector with
  | some i =>
    obtain ⟨hi, rfl⟩ := findBlock_some hfind
    obtain ⟨hnext, hlogical⟩ := rewrite_spec hvalid hi (cache.blocks i) rfl
      (touch_perm ((hvalid.mem_iff i).mpr hi)) rfl (fun _ _ => rfl) (hvalid.clean i hi)
    rw [update_eq_self] at hnext hlogical
    refine ⟨_, ?_, hnext, ?_, rfl⟩
    · rw [hvalid.logical_tag hi]
      rfl
    · rw [hlogical, ← hvalid.logical_tag hi, update_eq_self]
  | none =>
    have hmiss : cache.logical sector = cache.device.content sector :=
      logical_of_untagged (findBlock_none hfind)
    have hfresh (i : Fin cacheSize) := fun j (_ : j ≠ i) => findBlock_none hfind j
    by_cases hfull : cache.lruList.length < cacheSize
    · obtain ⟨hlists, hnot⟩ := fill_list hvalid.toListed hfull
      obtain ⟨hnext, hlogical⟩ := replace_spec hvalid ⟨sector, cache.device.content sector, false⟩
        (hfresh _) hsector hlists rfl (fun h => absurd h hnot) (fun _ _ => rfl) fun _ => rfl
      refine ⟨_, ?_, hnext, ?_, rfl⟩
      · simp only [hfull, Device.blockRead_eq hsector, hmiss]
        rfl
      · rw [hlogical, ← hmiss, update_eq_self]
    obtain ⟨i, hlast⟩ := exists_getLast_of_full hfull
    have hi : cache.Live i := (hvalid.mem_iff i).mp (mem_of_getLast? hlast)
    obtain ⟨device, hback, hsize, hcontent, hother⟩ := writeBack_spec hvalid hi
    have hread : device.content sector = cache.logical sector := by
      rw [hmiss]
      exact hother sector (findBlock_none hfind i hi)
    obtain ⟨hnext, hlogical⟩ := replace_spec hvalid ⟨sector, device.content sector, false⟩
      (hfresh i) hsector (hvalid.lists_perm hi (evict_perm hlast)) hsize (fun _ _ => hcontent)
      (fun s h => hother s (h hi)) fun _ => rfl
    refine ⟨_, ?_, hnext, ?_, hsize⟩
    · simp only [hfull, hlast, hback, ← hread]
      simp only [bind, Except.bind, Device.blockRead_eq (hsize ▸ hsector)]
      rfl
    · rw [hlogical, hread, update_eq_self]

theorem cacheWrite_spec (hvalid : cache.Valid) (buffer : Sector)
    (hsector : sector.toNat < cache.device.size) :
    ∃ next, cache.cacheWrite sector buffer = .ok next ∧ next.Valid ∧
      next.logical = update cache.logical sector buffer ∧
      next.device.size = cache.device.size := by
  unfold cacheWrite
  cases hfind : cache.findBlock sector with
  | some i =>
    obtain ⟨hi, rfl⟩ := findBlock_some hfind
    obtain ⟨hnext, hlogical⟩ := rewrite_spec hvalid hi ⟨(cache.blocks i).sectorTag, buffer, true⟩
      rfl (touch_perm ((hvalid.mem_iff i).mpr hi)) rfl (fun _ _ => rfl) (by simp)
    exact ⟨_, rfl, hnext, hlogical, rfl⟩
  | none =>
    have hfresh (i : Fin cacheSize) := fun j (_ : j ≠ i) => findBlock_none hfind j
    by_cases hfull : cache.lruList.length < cacheSize
    · obtain ⟨hlists, hnot⟩ := fill_list hvalid.toListed hfull
      obtain ⟨hnext, hlogical⟩ := replace_spec hvalid ⟨sector, buffer, true⟩ (hfresh _) hsector
        hlists rfl (fun h => absurd h hnot) (fun _ _ => rfl) (by simp)
      refine ⟨_, ?_, hnext, hlogical, rfl⟩
      simp only [hfull]
      rfl
    obtain ⟨i, hlast⟩ := exists_getLast_of_full hfull
    have hi : cache.Live i := (hvalid.mem_iff i).mp (mem_of_getLast? hlast)
    obtain ⟨device, hback, hsize, hcontent, hother⟩ := writeBack_spec hvalid hi
    obtain ⟨hnext, hlogical⟩ := replace_spec hvalid ⟨sector, buffer, true⟩ (hfresh i) hsector
      (hvalid.lists_perm hi (evict_perm hlast)) hsize (fun _ _ => hcontent)
      (fun s h => hother s (h hi)) (by simp)
    refine ⟨_, ?_, hnext, hlogical, hsize⟩
    simp only [hfull, hlast, hback]
    rfl

/-- One round of the flush keeps the logical disk and cleans its block. -/
theorem flushBlock_spec (hvalid : cache.Valid) (hi : cache.Live i) :
    ∃ next, cache.flushBlock i = .ok next ∧ next.Valid ∧ next.logical = cache.logical ∧
      next.lruList = cache.lruList ∧ next.device.size = cache.device.size ∧
      (next.blocks i).dirtyBit = false ∧
      ∀ j, (cache.blocks j).dirtyBit = false → (next.blocks j).dirtyBit = false := by
  unfold flushBlock
  cases hdirty : (cache.blocks i).dirtyBit with
  | false => exact ⟨cache, rfl, hvalid, rfl, rfl, rfl, hdirty, fun _ h => h⟩
  | true =>
    simp only [Device.blockWrite_eq (hvalid.tag_lt i hi)]
    let device : Device := { cache.device with
      content := update cache.device.content (cache.blocks i).sectorTag (cache.blocks i).sector }
    obtain ⟨hnext, hlogical⟩ := rewrite_spec hvalid hi { cache.blocks i with dirtyBit := false } rfl
      (.refl _) (rfl : device.size = _) (fun s hs => update_of_ne hs.symm _ _) fun _ => by
        simp [device]
    refine ⟨_, rfl, hnext, ?_, rfl, rfl, by simp, fun j hclean => ?_⟩
    · rw [hlogical, ← hvalid.logical_tag hi, update_eq_self]
    · by_cases hj : j = i <;> simp [hj, hclean]

/-- The flush loop over the live blocks of a list: all of them are clean afterwards. -/
theorem flushBlocks_spec (blocks : List (Fin cacheSize)) :
    ∀ cache : BufferCache, cache.Valid → (∀ i ∈ blocks, cache.Live i) →
      ∃ next, blocks.foldlM flushBlock cache = .ok next ∧ next.Valid ∧
        next.logical = cache.logical ∧ next.lruList = cache.lruList ∧
        next.device.size = cache.device.size ∧
        (∀ i ∈ blocks, (next.blocks i).dirtyBit = false) ∧
        ∀ i, (cache.blocks i).dirtyBit = false → (next.blocks i).dirtyBit = false := by
  induction blocks with
  | nil => exact fun cache hvalid _ =>
    ⟨cache, rfl, hvalid, rfl, rfl, rfl, by simp, fun _ h => h⟩
  | cons i rest ih =>
    intro cache hvalid hlive
    obtain ⟨mid, hstep, hmid, hlogical, hlist, hsize, hself, hkeep⟩ :=
      flushBlock_spec hvalid (hlive i (mem_cons_self ..))
    have hrest : ∀ j ∈ rest, mid.Live j := fun j hj => by
      have := hlive j (mem_cons_of_mem _ hj)
      rwa [Live, ← hlist] at this
    obtain ⟨next, hrun, hnext, hlogical', hlist', hsize', hclean, hkeep'⟩ := ih mid hmid hrest
    refine ⟨next, ?_, hnext, hlogical'.trans hlogical, hlist'.trans hlist,
      hsize'.trans hsize, ?_, fun j hj => hkeep' j (hkeep j hj)⟩
    · rw [foldlM_cons, hstep]
      exact hrun
    · intro j hj
      rcases mem_cons.mp hj with rfl | hj
      · exact hkeep' j hself
      · exact hclean j hj

theorem cacheFlush_spec (hvalid : cache.Valid) :
    ∃ next, cache.cacheFlush = .ok next ∧ next.Valid ∧ next.logical = cache.logical ∧
      next.device.content = cache.logical ∧ next.device.size = cache.device.size := by
  obtain ⟨next, hrun, hnext, hlogical, hlist, hsize, hclean, -⟩ :=
    flushBlocks_spec ((finRange cacheSize).filter fun i => i.val < cache.lruList.length)
      cache hvalid (by simp)
  refine ⟨next, hrun, hnext, hlogical, ?_, hsize⟩
  -- every live block is clean now, so the device holds what the blocks hold
  rw [← hlogical]
  refine (hnext.logical_eq (fun i hi => ?_) fun _ _ => rfl).symm
  exact (hnext.clean i hi (hclean i (by simpa [hlist] using hi))).symm

end BufferCache

/-! ## Sequences of calls -/

namespace CacheCall

/-- The call's sector is on a device of `size` sectors. -/
def InRange (size : ℕ) : CacheCall → Prop
  | .read sector => sector.toNat < size
  | .write sector _ => sector.toNat < size
  | .flush => True

/-- What the call writes to `sector`, if it does. -/
def written? (sector : BlockSector) : CacheCall → Option Sector
  | .write target buffer => if target = sector then some buffer else none
  | _ => none

/-- The logical content of `sector` after `calls`: the bytes of the most recent
`cache_write` to it, or what the disk held initially if there was none. -/
def logicalContent (initial : BlockSector → Sector) (calls : List CacheCall)
    (sector : BlockSector) : Sector :=
  (calls.reverse.findSome? (written? sector)).getD (initial sector)

/-- What one call does to a disk. -/
def apply (content : BlockSector → Sector) : CacheCall → BlockSector → Sector
  | .write sector buffer => update content sector buffer
  | _ => content

/-- What one call returns on a disk. -/
def result (content : BlockSector → Sector) : CacheCall → Option Sector
  | .read sector => some (content sector)
  | _ => none

theorem logicalContent_append_singleton (initial : BlockSector → Sector)
    (calls : List CacheCall) (c : CacheCall) :
    logicalContent initial (calls ++ [c]) = apply (logicalContent initial calls) c := by
  funext s
  cases c with
  | read sector | flush => simp [logicalContent, apply, written?, findSome?_cons]
  | write sector buffer =>
    by_cases h : sector = s
    · simp [logicalContent, apply, written?, h]
    · simp [logicalContent, apply, written?, h, update_of_ne (Ne.symm h)]

end CacheCall

namespace BufferCache

open CacheCall

theorem call_spec {cache : BufferCache} (hvalid : cache.Valid) {c : CacheCall}
    (hrange : c.InRange cache.device.size) :
    ∃ next, cache.call c = .ok (c.result cache.logical, next) ∧ next.Valid ∧
      next.logical = apply cache.logical c ∧ next.device.size = cache.device.size ∧
      (c = .flush → next.device.content = cache.logical) := by
  cases c with
  | read sector =>
    obtain ⟨next, hrun, hnext, hlogical, hsize⟩ := cacheRead_spec hvalid hrange
    refine ⟨next, ?_, hnext, hlogical, hsize, by simp⟩
    rw [call, hrun]
    rfl
  | write sector buffer =>
    obtain ⟨next, hrun, hnext, hlogical, hsize⟩ := cacheWrite_spec hvalid buffer hrange
    refine ⟨next, ?_, hnext, hlogical, hsize, by simp⟩
    rw [call, hrun]
    rfl
  | flush =>
    obtain ⟨next, hrun, hnext, hlogical, hdevice, hsize⟩ := cacheFlush_spec hvalid
    refine ⟨next, ?_, hnext, hlogical, hsize, fun _ => hdevice⟩
    rw [call, hrun]
    rfl

theorem run_append (cache : BufferCache) (calls : List CacheCall) (c : CacheCall) :
    cache.run (calls ++ [c]) = (do
      let (results, mid) ← cache.run calls
      let (result, next) ← mid.call c
      return (results ++ [result], next)) := by
  induction calls generalizing cache with
  | nil =>
    simp only [nil_append, run, pure_bind]
  | cons d rest ih =>
    simp only [cons_append, run, ih, bind_assoc, pure_bind]

/-- A run keeps the cache valid, and the logical disk is the specified one. -/
theorem run_spec (device : Device) (blocks : Fin cacheSize → CacheBlock)
    (calls : List CacheCall) (hrange : ∀ c ∈ calls, c.InRange device.size) :
    ∃ results final, (cacheInit device blocks).run calls = .ok (results, final) ∧
      final.Valid ∧ final.logical = logicalContent device.content calls ∧
      final.device.size = device.size ∧ results.length = calls.length ∧
      (∀ (k : ℕ) (sector : BlockSector), calls[k]? = some (.read sector) →
        results[k]? = some (some (logicalContent device.content (calls.take k) sector))) ∧
      (calls.getLast? = some .flush →
        ∀ sector, final.device.content sector = logicalContent device.content calls sector) := by
  induction calls using reverseRecOn with
  | nil =>
    exact ⟨[], _, rfl, valid_cacheInit device blocks,
      by rw [logical_cacheInit]; rfl, rfl, rfl, by simp, by simp⟩
  | append_singleton calls c ih =>
    obtain ⟨results, mid, hrun, hmid, hlogical, hsize, hlength, hreads, -⟩ :=
      ih fun d hd => hrange d (mem_append_left _ hd)
    obtain ⟨next, hcall, hnext, happly, hsize', hflush⟩ :=
      call_spec hmid (c := c) (by rw [hsize]; exact hrange c (by simp))
    have hcontent : next.logical = logicalContent device.content (calls ++ [c]) := by
      rw [happly, hlogical, logicalContent_append_singleton]
    refine ⟨results ++ [c.result mid.logical], next, ?_, hnext, hcontent,
      hsize'.trans hsize, by simp [hlength], ?_, ?_⟩
    · rw [run_append, hrun]
      simp only [bind, Except.bind, hcall]
      rfl
    · intro k sector hk
      rcases lt_or_ge k calls.length with hlt | hge
      · rw [getElem?_append_left hlt] at hk
        rw [getElem?_append_left (hlength ▸ hlt), hreads k sector hk,
          take_append_of_le_length hlt.le]
      have hkeq : k = calls.length := by
        obtain ⟨hlt, -⟩ := List.getElem?_eq_some_iff.mp hk
        rw [length_append, length_singleton] at hlt
        omega
      subst hkeq
      rw [getElem?_concat_length, Option.some.injEq] at hk
      subst hk
      rw [← hlength, getElem?_concat_length, hlength, take_left', hlogical.symm]
      · rfl
      · rfl
    · intro hlast sector
      rw [getLast?_append, getLast?_singleton, Option.some_or, Option.some.injEq] at hlast
      subst hlast
      rw [hflush rfl, ← hcontent, happly]
      rfl

/-- **The buffer cache refines the disk.**  From the state `cache_init` leaves, every
sequence of calls on sectors of the device returns.  Each `cache_read` in it returns
the bytes of the most recent earlier `cache_write` to the same sector, or the disk's
initial content, and right after a `cache_flush` the disk holds this content for
every sector. -/
theorem cache_refines_disk (device : Device) (blocks : Fin cacheSize → CacheBlock)
    (calls : List CacheCall) (hrange : ∀ c ∈ calls, c.InRange device.size) :
    ∃ results final, (cacheInit device blocks).run calls = .ok (results, final) ∧
      (∀ (k : ℕ) (sector : BlockSector), calls[k]? = some (.read sector) →
        results[k]? = some (some (logicalContent device.content (calls.take k) sector))) ∧
      (calls.getLast? = some .flush →
        ∀ sector, final.device.content sector = logicalContent device.content calls sector) := by
  obtain ⟨results, final, hrun, -, -, -, -, hreads, hflush⟩ := run_spec device blocks calls hrange
  exact ⟨results, final, hrun, hreads, hflush⟩

/-- On a device of two sectors: a write of sector 1 is read back and flushed. -/
theorem cache_refines_disk_two_sectors :
    let device : Device := ⟨2, fun _ _ => 0⟩
    let calls : List CacheCall := [.write 1 fun _ => 7, .read 1, .read 0, .flush]
    (∀ c ∈ calls, c.InRange device.size) ∧
      ∃ results final, (cacheInit device fun _ => ⟨0, fun _ => 0, false⟩).run calls =
          .ok (results, final) ∧
        results[1]? = some (some fun _ => 7) ∧ final.device.content 1 = fun _ => 7 := by
  intro device calls
  have hrange : ∀ c ∈ calls, c.InRange device.size := by simp [calls, device, CacheCall.InRange]
  refine ⟨hrange, ?_⟩
  obtain ⟨results, final, hrun, hreads, hflush⟩ :=
    cache_refines_disk device (fun _ => ⟨0, fun _ => 0, false⟩) calls hrange
  refine ⟨results, final, hrun, hreads 1 1 rfl, ?_⟩
  rw [hflush rfl]
  rfl

end BufferCache

end CS162
