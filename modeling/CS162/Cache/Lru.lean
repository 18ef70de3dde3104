import CS162.Library.Recency
import CS162.Cache.Refinement

/-!
# Eviction is least recently used

The tags of the blocks on `LRU_list` are the sectors that have been accessed last, the last one
first (`lru_keeps_recent`).  A hit, a fill and an eviction change the list in different ways, but
each puts the sector in front and keeps the first 64 of the others (`Listed.call`).
-/

namespace CS162

open Library Function List

namespace CacheCall

/-- The sector that the call accesses. -/
def sector? : CacheCall → Option BlockSector
  | .read sector => some sector
  | .write sector _ => some sector
  | .flush => none

end CacheCall

namespace BufferCache

variable {cache next : BufferCache} {sector : BlockSector}

/-- The sectors of the blocks on `LRU_list`. -/
def tags (cache : BufferCache) : List BlockSector :=
  cache.lruList.map fun i => (cache.blocks i).sectorTag

/-- What an access makes of the tags. -/
def access (tags : List BlockSector) (sector : BlockSector) : List BlockSector :=
  (sector :: tags.erase sector).take cacheSize

namespace Listed

theorem length_le (h : cache.Listed) : cache.lruList.length ≤ cacheSize := by
  simpa using h.nodup.length_le_card

theorem nodup_tags (h : cache.Listed) : cache.tags.Nodup := by
  refine h.nodup.map_on fun i hi j hj heq => ?_
  exact h.tag_inj i j ((h.mem_iff i).mp hi) ((h.mem_iff j).mp hj) heq

theorem mem_tags (h : cache.Listed) :
    sector ∈ cache.tags ↔ ∃ i, cache.Live i ∧ (cache.blocks i).sectorTag = sector := by
  simp only [tags, mem_map, h.mem_iff]

variable {i : Fin cacheSize}

/-- A hit. -/
theorem tags_touch (h : cache.Listed) (hi : cache.Live i) {blocks : Fin cacheSize → CacheBlock}
    (htag : ∀ j, (blocks j).sectorTag = (cache.blocks j).sectorTag) :
    (⟨cache.device, blocks, BufferCache.touch i cache.lruList⟩ : BufferCache).tags =
      access cache.tags (cache.blocks i).sectorTag := by
  have hmem : i ∈ cache.lruList := (h.mem_iff i).mpr hi
  have herase : (cache.lruList.erase i).map (fun j => (cache.blocks j).sectorTag) =
      cache.tags.erase (cache.blocks i).sectorTag := by
    rw [h.nodup.erase_eq_filter, h.nodup_tags.erase_eq_filter, tags, filter_map]
    refine congrArg _ (filter_congr fun j hj => ?_)
    have hinj := h.tag_inj j i ((h.mem_iff j).mp hj) hi
    by_cases hji : j = i
    · simp [hji]
    · have hne : (cache.blocks j).sectorTag ≠ (cache.blocks i).sectorTag :=
        fun heq => hji (hinj heq)
      simp [bne, hji, hne]
  have hlen : ((cache.blocks i).sectorTag :: cache.tags.erase (cache.blocks i).sectorTag).length ≤
      cacheSize := by
    rw [← herase, length_cons, length_map]
    exact (touch_perm hmem).length_eq.trans_le h.length_le
  rw [access, take_of_length_le hlen, ← herase]
  simp only [tags, BufferCache.touch, map_cons, htag]

/-- Block `i` is given to the sector, and is put in front of `rest`. -/
theorem tags_install {rest : List (Fin cacheSize)} {device : Device}
    {block : CacheBlock} (hi : i ∉ rest) :
    (⟨device, update cache.blocks i block, i :: rest⟩ : BufferCache).tags =
      block.sectorTag :: rest.map fun j => (cache.blocks j).sectorTag := by
  simp only [tags, map_cons, update_self]
  refine congrArg _ (map_congr_left fun j hj => ?_)
  have hne : j ≠ i := fun heq => hi (heq ▸ hj)
  rw [update_of_ne hne]

section

variable (h : cache.Listed) (hmiss : cache.findBlock sector = none)
include h hmiss

theorem access_of_miss : access cache.tags sector = (sector :: cache.tags).take cacheSize := by
  rw [access, erase_of_not_mem]
  intro hmem
  obtain ⟨i, hi, htag⟩ := h.mem_tags.mp hmem
  exact findBlock_none hmiss i hi htag

/-- The next unused block is filled. -/
theorem fill (hroom : cache.lruList.length < cacheSize) {block : CacheBlock}
    (hblock : block.sectorTag = sector) :
    let next : BufferCache := ⟨cache.device,
      update cache.blocks ⟨cache.lruList.length, hroom⟩ block,
      ⟨cache.lruList.length, hroom⟩ :: cache.lruList⟩
    next.Listed ∧ next.tags = access cache.tags sector := by
  obtain ⟨hlists, hnot⟩ := fill_list h hroom
  refine ⟨h.install _ _ (fun j _ => hblock ▸ findBlock_none hmiss j) hlists, ?_⟩
  rw [tags_install fun hi => hnot ((h.mem_iff _).mp hi), h.access_of_miss hmiss, hblock]
  exact (take_of_length_le (by simpa [tags] using Nat.succ_le_of_lt hroom)).symm

/-- The last block is evicted. -/
theorem evict (hfull : ¬ cache.lruList.length < cacheSize) (hlast : cache.lruList.getLast? = some i)
    (device : Device) {block : CacheBlock} (hblock : block.sectorTag = sector) :
    let next : BufferCache := ⟨device, update cache.blocks i block, i :: cache.lruList.dropLast⟩
    next.Listed ∧ next.tags = access cache.tags sector := by
  have hlists := h.lists_perm ((h.mem_iff i).mp (mem_of_getLast? hlast)) (evict_perm hlast)
  have hlen : cache.lruList.length = cacheSize := h.length_le.antisymm (not_lt.mp hfull)
  refine ⟨h.install _ _ (fun j _ => hblock ▸ findBlock_none hmiss j) hlists, ?_⟩
  rw [tags_install (nodup_cons.mp hlists.nodup).1, h.access_of_miss hmiss, hblock,
    take_succ_cons, tags, ← map_take, dropLast_eq_take, hlen]
  rfl

end

theorem cacheRead (h : cache.Listed) {buffer : Sector}
    (hread : cache.cacheRead sector = .ok (buffer, next)) :
    next.Listed ∧ next.tags = access cache.tags sector := by
  unfold BufferCache.cacheRead at hread
  split at hread
  next i hfind =>
    obtain ⟨hi, rfl⟩ := findBlock_some hfind
    cases hread
    exact ⟨h.touch hi _ fun _ => rfl, h.tags_touch hi fun _ => rfl⟩
  next hmiss =>
    split at hread
    next hroom =>
      obtain ⟨bytes, -, ⟨⟩⟩ := bind_eq_ok.mp hread
      exact h.fill hmiss hroom rfl
    next hfull =>
      split at hread
      next => cases hread
      next i hlast =>
        obtain ⟨device, -, hread⟩ := bind_eq_ok.mp hread
        obtain ⟨bytes, -, ⟨⟩⟩ := bind_eq_ok.mp hread
        exact h.evict hmiss hfull hlast device rfl

theorem cacheWrite (h : cache.Listed) {buffer : Sector}
    (hwrite : cache.cacheWrite sector buffer = .ok next) :
    next.Listed ∧ next.tags = access cache.tags sector := by
  unfold BufferCache.cacheWrite at hwrite
  split at hwrite
  next i hfind =>
    obtain ⟨hi, rfl⟩ := findBlock_some hfind
    cases hwrite
    exact ⟨h.touch hi _ (sectorTag_update rfl), h.tags_touch hi (sectorTag_update rfl)⟩
  next hmiss =>
    split at hwrite
    next hroom =>
      cases hwrite
      exact h.fill hmiss hroom rfl
    next hfull =>
      split at hwrite
      next => cases hwrite
      next i hlast =>
        obtain ⟨device, -, ⟨⟩⟩ := bind_eq_ok.mp hwrite
        exact h.evict hmiss hfull hlast device rfl

theorem flushBlock (h : cache.Listed) (hflush : cache.flushBlock i = .ok next) :
    next.Listed ∧ next.tags = cache.tags := by
  unfold BufferCache.flushBlock at hflush
  split at hflush
  · obtain ⟨device, -, ⟨⟩⟩ := bind_eq_ok.mp hflush
    have htag : ∀ j, (update cache.blocks i { cache.blocks i with dirtyBit := false }
        j).sectorTag = (cache.blocks j).sectorTag := sectorTag_update rfl
    exact ⟨h.perm (.refl _) htag, map_congr_left fun j _ => htag j⟩
  · cases hflush
    exact ⟨h, rfl⟩

theorem flushBlocks (blocks : List (Fin cacheSize)) : ∀ {cache : BufferCache}, cache.Listed →
    blocks.foldlM BufferCache.flushBlock cache = .ok next →
      next.Listed ∧ next.tags = cache.tags := by
  induction blocks with
  | nil =>
    intro cache h hflush
    cases hflush
    exact ⟨h, rfl⟩
  | cons i rest ih =>
    intro cache h hflush
    obtain ⟨mid, hmid, hrest⟩ := bind_eq_ok.mp hflush
    obtain ⟨hlisted, htags⟩ := h.flushBlock hmid
    obtain ⟨hnext, htags'⟩ := ih hlisted hrest
    exact ⟨hnext, htags'.trans htags⟩

/-- **One call.** -/
theorem call (h : cache.Listed) {c : CacheCall} {result : Option Sector}
    (hcall : cache.call c = .ok (result, next)) :
    next.Listed ∧ next.tags = c.sector?.elim cache.tags (access cache.tags) := by
  cases c with
  | read sector =>
    obtain ⟨⟨buffer, mid⟩, hread, ⟨⟩⟩ := bind_eq_ok.mp hcall
    exact h.cacheRead hread
  | write sector buffer =>
    obtain ⟨mid, hwrite, ⟨⟩⟩ := bind_eq_ok.mp hcall
    exact h.cacheWrite hwrite
  | flush =>
    obtain ⟨mid, hflush, ⟨⟩⟩ := bind_eq_ok.mp hcall
    exact flushBlocks _ h hflush

end Listed

/-- The tags after a run are the start of the sectors accessed, the last one first. -/
theorem run_tags {device : Device} {blocks : Fin cacheSize → CacheBlock} (calls : List CacheCall) :
    ∀ {results : List (Option Sector)} {final : BufferCache},
      (cacheInit device blocks).run calls = .ok (results, final) →
      final.Listed ∧ final.tags = (recent (calls.filterMap CacheCall.sector?)).take cacheSize := by
  induction calls using reverseRecOn with
  | nil =>
    intro results final hrun
    cases hrun
    exact ⟨(valid_cacheInit device blocks).toListed, rfl⟩
  | append_singleton calls c ih =>
    intro results final hrun
    rw [run_append] at hrun
    obtain ⟨⟨earlier, mid⟩, hmid, hrun⟩ := bind_eq_ok.mp hrun
    obtain ⟨⟨result, next⟩, hcall, ⟨⟩⟩ := bind_eq_ok.mp hrun
    obtain ⟨hlisted, htags⟩ := ih hmid
    obtain ⟨hnext, hstep⟩ := hlisted.call hcall
    refine ⟨hnext, ?_⟩
    rw [hstep, htags, filterMap_append]
    cases hc : c.sector? with
    | none => simp [hc]
    | some sector =>
      rw [show [c].filterMap CacheCall.sector? = [sector] by simp [hc], take_recent_concat]
      rfl

/-- **Eviction is least recently used.**  Calls on sectors of the device return.  After any calls
that return, `LRU_list` from front to back has the sectors that were accessed last, in decreasing
order of the last access and 64 of them if there were that many, and these are the sectors that the
live blocks hold. -/
theorem lru_keeps_recent (device : Device) (blocks : Fin cacheSize → CacheBlock)
    (calls : List CacheCall) :
    ((∀ c ∈ calls, c.InRange device.size) →
      ∃ results final, (cacheInit device blocks).run calls = .ok (results, final)) ∧
    ∀ results final, (cacheInit device blocks).run calls = .ok (results, final) →
      final.tags = (recent (calls.filterMap CacheCall.sector?)).take cacheSize ∧
      final.lruList.length = min cacheSize (recent (calls.filterMap CacheCall.sector?)).length ∧
      ∀ sector, (∃ i, final.Live i ∧ (final.blocks i).sectorTag = sector) ↔
        sector ∈ (recent (calls.filterMap CacheCall.sector?)).take cacheSize := by
  refine ⟨fun hrange => ?_, fun results final hrun => ?_⟩
  · obtain ⟨results, final, hrun, -⟩ := run_spec device blocks calls hrange
    exact ⟨results, final, hrun⟩
  · obtain ⟨hlisted, htags⟩ := run_tags calls hrun
    refine ⟨htags, ?_, fun sector => ?_⟩
    · rw [← length_take, ← htags, tags, length_map]
    · rw [← htags, hlisted.mem_tags]

end BufferCache

end CS162
