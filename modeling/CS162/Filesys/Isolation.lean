import CS162.Filesys.Resize

/-!
# Which sectors a write changes

The write loop writes to whatever sector `byte_to_sector` returns.  Past the end of the
file that is sector 1, the inode of the root directory; at the very end of a file that
fills its blocks it is where the missing pointer leads, mostly sector 0, the inode of
the free map.

## Strategy

As long as the request stays within the blocks of the file, the loop is the one of
`writeLoop_spec` and touches these blocks only.  If it does not, some chunk starts
behind them, and we follow the loop to this chunk (`writeLoop_reach`).  For a buffer
that holds one value everywhere, what a chunk has written is not lost any more
(`writeLoop_const`), so the sector that chunk goes to can be seen to have changed when
the call returns (`writeLoop_hits`).
-/

namespace CS162

open Library FileSys Function

variable {s t u : FileSys} {x y : BlockSector} {n : ℕ}

/-! ## One round of the write loop -/

section Loop

variable {inode : Inode} {buffer : ℕ → UInt8}

theorem fillBounce_ensures {b : BlockSector} {ofs size : ℤ} {Q : Sector → FileSys → Prop}
    (hQ : ∀ base, 0 ≤ ofs → base = s.content b ∨ ofs = 0 ∧ 512 ≤ size → Q base s) :
    Ensures (fillBounce b ofs size) s Q := by
  refine .ite (fun _ => .throw trivial) fun hofs => ?_
  refine .ite (fun _ => cacheRead_rule (fun _ => hQ _ (by omega) (.inl rfl)) fun _ => trivial)
    fun h => .pure (hQ _ (by omega) (.inr (by omega)))

theorem writeLoop_round {fuel written : ℕ} {size offset : ℤ} {bounce : Bool}
    {Q : ℕ → FileSys → Prop} (hdone : size ≤ 0 → Q written s)
    (hnone : ∀ h, bounce = false → s.heap 0 = false → Q written { s with heap := h })
    (hnext : ∀ fuel' < fuel, ∀ h base, 0 < size → (s.MemAvailable ∨ bounce = true → h = s.heap) →
      0 ≤ offset.tmod 512 → base = s.content (sectorOf s.content inode.sector offset) ∨
        offset.tmod 512 = 0 ∧ 512 ≤ writeChunkSize size offset →
      s.Has (sectorOf s.content inode.sector offset) →
      Ensures (writeLoop inode buffer fuel' (size - writeChunkSize size offset)
          (wrap32 (offset + writeChunkSize size offset))
          (written + (writeChunkSize size offset).toNat) true)
        { s with
          content := update s.content (sectorOf s.content inode.sector offset)
            (overlay base (offset.tmod 512).toNat (writeChunkSize size offset).toNat
              fun k => buffer (written + k))
          heap := h } Q) :
    Ensures (writeLoop inode buffer fuel size offset written bounce) s Q := by
  cases fuel with
  | zero => exact .throw trivial
  | succ fuel =>
  refine .ite (fun hsize => .pure (hdone hsize)) fun hsize => ?_
  refine .bind (byteToSector_rule (.inr trivial) ?_)
  refine .bind (bounceBuffer_spec (fun h hheap => ?_) fun h hbounce hmem => ?_)
  · simp only [Bool.not_true]
    refine .bind (fillBounce_ensures fun base hofs hbase => ?_)
    refine .bind (cacheWrite_rule (fun hhas => ?_) fun _ => trivial)
    exact hnext fuel fuel.lt_succ_self h base (by omega) hheap hofs hbase hhas
  · exact .pure (hnone h hbounce hmem)

/-- A byte that holds the value of a constant buffer keeps it. -/
theorem writeLoop_const {v : UInt8} {q : Fin blockSectorSize} (fuel : ℕ) :
    ∀ (size offset : ℤ) (written : ℕ) (bounce : Bool) (s : FileSys), s.content y q = v →
    Ensures (writeLoop inode (fun _ => v) fuel size offset written bounce) s fun _ t =>
      t.content y q = v := by
  induction fuel using Nat.strong_induction_on with
  | h fuel ih =>
    intro size offset written bounce s hv
    refine writeLoop_round (fun _ => hv) (fun _ _ _ => hv) fun fuel' hlt h base _ _ hofs hbase _ =>
      ih fuel' hlt _ _ _ _ _ ?_
    show update s.content _ _ y q = v
    by_cases hy : y = sectorOf s.content inode.sector offset
    swap
    · rw [update_of_ne hy, hv]
    -- covered by the chunk, or copied from the sector before
    rw [← hy, update_self]
    unfold overlay
    split
    · rfl
    · rcases hbase with rfl | ⟨hzero, hfull⟩
      · rw [← hy, hv]
      · have hq : q.val < 512 := q.isLt
        omega

/-- The first chunk of a constant buffer is found in its sector when the loop returns. -/
theorem writeLoop_hits {v : UInt8} {fuel size offset written : ℕ} {bounce : Bool}
    (hsize : 0 < size) (hmem : s.MemAvailable) {q : Fin blockSectorSize}
    (hq : q.val = offset % 512) (hy : sectorOf s.content inode.sector offset = y) :
    Ensures (writeLoop inode (fun _ => v) fuel size offset written bounce) s fun _ t =>
      t.content y q = v := by
  obtain ⟨m, hm, hpos, -, hsector, -⟩ := writeChunkSize_cases offset hsize
  refine writeLoop_round (by omega) (fun _ _ hno => ?_) fun _ _ h base _ _ _ _ _ =>
    writeLoop_const _ _ _ _ _ _ ?_
  · exact absurd hno (by rw [hmem]; simp)
  · show update s.content _ _ y q = v
    rw [hy, update_self, natCast_tmod_512]
    refine overlay_of_mem ?_
    omega

/-- The loop reaches the end of the blocks of the file, having written only these. -/
theorem writeLoop_reach {Q : ℕ → FileSys → Prop} (hn : n ≤ maxBlocks) (fuel : ℕ) :
    ∀ (size offset written : ℕ) (bounce : Bool) (s : FileSys), Mapped s inode.sector n →
    s.MemAvailable → 512 * ((n : ℤ) - 1) ≤ (inodeAt s.content inode.sector).length →
    (offset < 512 * n → (offset : ℤ) ≤ (inodeAt s.content inode.sector).length) →
    offset ≤ 512 * n → 512 * n < offset + size →
    (∀ fuel' written' bounce' c, (∀ y, ¬ DataOf s.content inode.sector n y → c y = s.content y) →
      Ensures (writeLoop inode buffer fuel' ((offset + size - 512 * n : ℕ) : ℤ)
        ((512 * n : ℕ) : ℤ) written' bounce') { s with content := c } Q) →
    Ensures (writeLoop inode buffer fuel size offset written bounce) s Q := by
  induction fuel using Nat.strong_induction_on with
  | h fuel ih =>
    intro size offset written bounce s hmap hmem hlast hstart hle hlt hQ
    by_cases hend : offset = 512 * n
    · have := hQ fuel written bounce s.content fun _ _ => rfl
      rwa [← hend, show offset + size - offset = size by omega] at this
    obtain ⟨m, hm, hpos, hms, hsector, hlastChunk⟩ :=
      writeChunkSize_cases offset (show 0 < size by omega)
    have hblock : offset / 512 < n := by omega
    have hsec : sectorOf s.content inode.sector offset =
        blockAt s.content inode.sector (offset / 512) := by
      unfold maxBlocks at hn
      have hrange : 0 ≤ (offset : ℤ) ∧ (offset : ℤ) < maxInodeSize := by
        unfold maxInodeSize
        omega
      rw [sectorOf, if_pos (hstart (by omega)), if_pos hrange]
      rfl
    refine writeLoop_round (by omega) (fun _ _ hno => ?_)
      fun fuel' hfuel h base _ hheap _ hbase _ => ?_
    · exact absurd hno (by rw [hmem]; simp)
    rw [hheap (.inl hmem), hsec, hm]
    have hframe : ∀ y, ¬ DataOf s.content inode.sector n y →
        update s.content (blockAt s.content inode.sector (offset / 512))
          (overlay base ((offset : ℤ).tmod 512).toNat (m : ℤ).toNat
            fun k => buffer (written + k)) y = s.content y := fun y hy =>
      update_of_ne (fun heq => hy ⟨_, hblock, heq⟩) _ _
    have hsame := hmap.sameMap fun y hy => hframe y (by
      rintro ⟨k, hk, heq⟩
      exact hy k hk heq)
    have hlength := congrArg InodeDisk.length hsame.inodeAt
    have hnext : offset + m ≤ 512 * n := by omega
    rw [wrap32_eq (by omega) (by unfold maxBlocks at hn; omega), ← Nat.cast_add,
      ← Nat.cast_sub hms]
    refine ih fuel' hfuel _ _ _ _ _ (hmap.of_sameMap rfl hsame) hmem (hlast.trans hlength.ge)
      (fun _ => ?_)
      hnext (by omega) fun fuel written' bounce' c hc => ?_
    · exact le_trans (by omega) (hlast.trans hlength.ge)
    · have := hQ fuel written' bounce' c fun y hy => (hc y ?_).trans (hframe y hy)
      · rwa [show offset + m + (size - m) - 512 * n = offset + size - 512 * n by omega]
      · rintro ⟨k, hk, rfl⟩
        exact hy ⟨k, hk, hsame.blockAt hk⟩

end Loop

/-! ## The end of the block map -/

/-- The pointer that is missing if the inode has `k` blocks. -/
def InodeDisk.nextPointer (data : InodeDisk) (c : BlockSector → Sector) (k : ℕ) : BlockSector :=
  if k < 12 then entry data.direct k
  else if k = 12 then data.indirect
  else if k < 140 then (c data.indirect).words (k - 12)
  else if k = 140 then data.doublyIndirect
  else if (k - 140) % 128 = 0 then (c data.doublyIndirect).words ((k - 140) / 128)
  else data.block c k

/-- An inode with `k` blocks needs a new index block for the next one. -/
def IndexFull (k : ℕ) : Prop := k = 12 ∨ k = 140 ∨ 140 < k ∧ (k - 140) % 128 = 0

variable {c : BlockSector → Sector} {k : ℕ}

theorem blockAt_hole (hk : ¬ IndexFull k)
    (h : (inodeAt c x).nextPointer c k = 0) : blockAt c x k = 0 := by
  unfold IndexFull at hk
  unfold InodeDisk.nextPointer at h
  unfold blockAt InodeDisk.block
  by_cases h12 : k < 12
  · rwa [if_pos h12] at h ⊢
  rw [if_neg h12, if_neg (by omega)] at h
  rw [if_neg h12]
  by_cases h140 : k < 140
  · rwa [if_pos h140] at h ⊢
  rw [if_neg h140, if_neg (by omega), if_neg (by omega), InodeDisk.block, if_neg h12,
    if_neg h140] at h
  rwa [if_neg h140]

/-- The missing pointer is found in the inode or in an index block that exists. -/
theorem SameMap.nextPointer {c' : BlockSector → Sector} (h : SameMap c c' x n) :
    (CS162.inodeAt c' x).nextPointer c' n = (CS162.inodeAt c x).nextPointer c n := by
  rw [h.inodeAt]
  unfold InodeDisk.nextPointer
  split
  · rfl
  split
  · rfl
  split
  · have hpath : (CS162.inodeAt c x).indirect ∈ CS162.pathTo c x 12 := by
      simp [CS162.pathTo, InodeDisk.path]
    rw [h.2 12 (by omega) _ hpath]
  split
  · rfl
  have hpath : (CS162.inodeAt c x).doublyIndirect ∈ CS162.pathTo c x 140 := by
    simp [CS162.pathTo, InodeDisk.path]
  split
  · rw [h.2 140 (by omega) _ hpath]
  -- the second-level block also lists the block before
  refine InodeDisk.block_congr fun y hy => h.2 (n - 1) (by omega) y ?_
  unfold CS162.pathTo
  unfold InodeDisk.path at hy ⊢
  rw [if_neg (by omega), if_neg (by omega)] at hy ⊢
  rwa [show (n - 1 - 140) / 128 = (n - 140) / 128 by omega]

theorem blockAt_indexHole (hk : IndexFull k) (h140 : k ≠ 140)
    (h : (inodeAt c x).nextPointer c k = 0) : blockAt c x k = (c 0).words 0 := by
  unfold InodeDisk.nextPointer at h
  unfold blockAt InodeDisk.block
  rcases hk with rfl | rfl | ⟨hlt, hmod⟩
  · simp only [lt_irrefl, if_false, if_true] at h
    simp [h]
  · exact absurd rfl h140
  · rw [if_neg (by omega), if_neg (by omega), if_neg (by omega), if_neg h140, if_pos hmod] at h
    rw [if_neg (by omega), if_neg (by omega), h, hmod]

/-! ## Ordinary files -/

/-- A file other than the free map and the root directory, in a file system whose free
map is open.  Its first missing pointer is 0. -/
structure OrdinaryFile (s : FileSys) (x : BlockSector) : Prop extends Housed s x where
  open_map : ∃ fm, s.freeMapFile = some fm ∧ fm.sector = freeMapSector
  size_pos : 0 < s.size
  root_marked : s.freeMap rootDirSector.toNat = true
  root_ne : ¬ Owned s.content x (capacity (inodeAt s.content x).length) rootDirSector
  root_ne_map : ¬ MapOwned s rootDirSector
  hole : (inodeAt s.content x).nextPointer s.content (capacity (inodeAt s.content x).length) = 0

namespace OrdinaryFile

section

variable (h : OrdinaryFile s x)
include h

theorem mapOwned_zero : MapOwned s freeMapSector := by
  obtain ⟨fm, hfm, hsec⟩ := h.open_map
  exact ⟨fm, hfm, .inl hsec.symm⟩

theorem not_mapData_zero : ¬ MapData s freeMapSector := by
  rintro ⟨fm, hfm, k, hk, heq⟩
  obtain ⟨fm', hfm', hsec⟩ := h.open_map
  rw [hfm] at hfm'
  cases hfm'
  exact (h.mapFile.stored fm hfm).mapped.ne_inode k hk (heq.symm.trans hsec.symm)

/-- The first word of the free-map inode points to data of the free-map file. -/
theorem mapOwned_first : MapOwned s ((s.content freeMapSector).words 0) := by
  obtain ⟨fm, hfm, hsec⟩ := h.open_map
  refine MapData.mapOwned ⟨fm, hfm, 0, ?_, ?_⟩
  · have := h.size_pos
    rw [h.mapFile.length fm hfm]
    unfold blockCount byteCnt
    omega
  · rw [hsec, blockAt_direct (by omega)]
    rfl

theorem ne_of_mapOwned (hy : MapOwned s y) : y ≠ x := by
  rintro rfl
  exact h.apart y (.inl rfl) hy

/-- Sectors 0 and 1 are in use, and not by this file or as data of the free map. -/
theorem foreign (hy : y = freeMapSector ∨ y = rootDirSector) :
    ¬ Owned s.content x (capacity (inodeAt s.content x).length) y ∧
      s.freeMap y.toNat = true ∧ ¬ MapData s y := by
  rcases hy with rfl | rfl
  · exact ⟨fun ho => h.apart _ ho h.mapOwned_zero, h.mapFile.mapOwned_marked h.mapOwned_zero,
      h.not_mapData_zero⟩
  · exact ⟨h.root_ne, h.root_marked, fun hd => h.root_ne_map hd.mapOwned⟩

end

end OrdinaryFile

/-! ## The frame of `inode_write_at` -/

/-- The request needs more sectors than the file has. -/
def NeedsMore (s : FileSys) (inode : Inode) (last : ℤ) : Prop :=
  sectorsOrOne (inodeAt s.content inode.sector).length < sectorsOrOne (wrap32 last)

/-- `inode_write_at` is its loop, after `resize_inode` if the request needs more sectors
than the file has. -/
theorem inodeWriteAt_rule {E : Fault → Prop} {inode : Inode} {buffer : ℕ → UInt8} {size offset : ℤ}
    {Q : ℕ → FileSys → Prop}
    (hpast : E (.undefined "sectors[i]") → E (.panic "Access past end of device"))
    (hx : Housed s inode.sector) (hdeny : inode.denyWriteCnt = 0)
    (hE : (NeedsMore s inode (offset + size) → s.freeMapFile.isSome ∧ s.MemAvailable ∧
      Resizable s inode.sector (bytesToSectors (wrap32 (offset + size)))) ∨ ∀ f, E f)
    (hloop : ∀ t, Spares (DataOf s.content inode.sector
        (capacity (inodeAt s.content inode.sector).length)) s t →
      (NeedsMore s inode (offset + size) → s.MemAvailable →
        Resizable s inode.sector (bytesToSectors (wrap32 (offset + size))) ∧
        (bytesToSectors (wrap32 (offset + size)) ≤ maxBlocks →
          ¬ Scarce s (sectorsNeeded (bytesToSectors (wrap32 (offset + size))) -
            blockCount (inodeAt s.content inode.sector).length) →
          ∀ i < bytesToSectors (wrap32 (offset + size)), t.freeMap i = true)) →
      Spec E (writeLoop inode buffer (size.toNat + 1) size offset 0 false) t Q) :
    Spec E (inodeWriteAt inode buffer size offset) s Q := by
  refine .get_bind ?_
  change Spec E (inodeWriteAtWith (resizeInodeWith freeMapOps
    (inodeWriteAtFuel (s.size + 1) inode) inode) inode buffer size offset) s Q
  refine .bind (cacheRead_spec hx.mapped.has_inode ?_)
  rw [if_neg (not_not.mpr hdeny)]
  refine .ite (fun hgrow => ?_) fun hfits => ?_
  · refine .seq (resizeInode_spares hpast hx hdeny (hE.imp_left fun h => ?_))
      fun r t ⟨hspares, hreturned, hlow⟩ => ?_
    · exact ⟨(h hgrow).1, (h hgrow).2.1, Nat.succ_pos _, (h hgrow).2.2⟩
    · exact hloop t hspares fun _ hmem => ⟨hreturned hmem, hlow hmem⟩
  · exact hloop s (Alloc.refl s).spares fun hgrow => absurd hgrow hfits

theorem inodeWriteAt_ensures {inode : Inode} {buffer : ℕ → UInt8} {size offset : ℤ}
    {Q : ℕ → FileSys → Prop} (hx : Housed s inode.sector) (hdeny : inode.denyWriteCnt = 0)
    (hloop : ∀ t, Spares (DataOf s.content inode.sector
        (capacity (inodeAt s.content inode.sector).length)) s t →
      Ensures (writeLoop inode buffer (size.toNat + 1) size offset 0 false) t Q) :
    Ensures (inodeWriteAt inode buffer size offset) s Q :=
  inodeWriteAt_rule (fun _ => trivial) hx hdeny (.inr fun _ => trivial) fun t ht _ => hloop t ht

theorem sectorOf_past {pos : ℤ} (h : (inodeAt c x).length < pos) :
    sectorOf c x pos = rootDirSector := if_neg (by omega)

/-- At the end of a file that fills its blocks the missing pointer is followed. -/
theorem sectorOf_hole (hk : ¬ IndexFull k) (hlen : (inodeAt c x).length = 512 * k)
    (h : (inodeAt c x).nextPointer c k = 0) : sectorOf c x ((512 * k : ℕ) : ℤ) = freeMapSector := by
  unfold sectorOf
  rw [if_pos (by omega)]
  refine ite_eq_right_iff.mpr fun _ => ?_
  rw [show (((512 * k : ℕ) : ℤ) / 512).toNat = k by omega]
  exact blockAt_hole hk h

/-- A missing index block is looked for where the free-map inode has its first pointer. -/
theorem sectorOf_indexHole (hk : IndexFull k) (h140 : k ≠ 140) (hlt : k < maxBlocks)
    (hlen : (inodeAt c x).length = 512 * k) (h : (inodeAt c x).nextPointer c k = 0) :
    sectorOf c x ((512 * k : ℕ) : ℤ) = (c freeMapSector).words 0 := by
  unfold maxBlocks at hlt
  have hrange : 0 ≤ ((512 * k : ℕ) : ℤ) ∧ ((512 * k : ℕ) : ℤ) < maxInodeSize := by
    unfold maxInodeSize
    omega
  rw [sectorOf, if_pos (by omega), if_pos hrange,
    show (((512 * k : ℕ) : ℤ) / 512).toNat = k by omega]
  exact blockAt_indexHole hk h140 h

theorem inodeAt_update_of_ne {sector : Sector} (h : y ≠ x) :
    inodeAt (update c y sector) x = inodeAt c x := by
  rw [inodeAt, update_of_ne h.symm]
  rfl

/-- A chunk that does not go to the inode, followed by one behind the end of the file. -/
theorem writeLoop_hits_second {inode : Inode} {v : UInt8} {fuel size written : ℕ} {bounce : Bool}
    (hk : k ≤ maxBlocks) (hsize : 512 < size) (hmem : s.MemAvailable)
    (hne : sectorOf s.content inode.sector ((512 * k : ℕ) : ℤ) ≠ inode.sector)
    (hlen : (inodeAt s.content inode.sector).length ≤ 512 * k) {q : Fin blockSectorSize}
    (hq : q.val = 0) :
    Ensures (writeLoop inode (fun _ => v) fuel size ((512 * k : ℕ) : ℤ) written bounce) s
      fun _ t => t.content rootDirSector q = v := by
  obtain ⟨m, hm, hpos, hle, hsector, hlast⟩ :=
    writeChunkSize_cases (512 * k) (show 0 < size by omega)
  refine writeLoop_round (by omega) (fun _ _ hno => ?_) fun _ _ h base _ hheap _ _ _ => ?_
  · exact absurd hno (by rw [hmem]; simp)
  unfold maxBlocks at hk
  rw [hm, hheap (.inl hmem), wrap32_eq (by omega) (by omega), ← Nat.cast_sub hle]
  refine writeLoop_hits ?_ ?_ ?_ (sectorOf_past ?_)
  · omega
  · exact hmem.congr rfl
  · omega
  · -- the inode is still the same
    rw [inodeAt_update_of_ne hne]
    exact lt_of_le_of_lt hlen (by omega)

/-- The request ends within the blocks of the file and does not start behind its end, or
writing is denied. -/
def Fits (s : FileSys) (inode : Inode) (size offset : ℤ) : Prop :=
  inode.denyWriteCnt ≠ 0 ∨ offset + size ≤ 512 * capacity (inodeAt s.content inode.sector).length ∧
      (0 < size → offset ≤ (inodeAt s.content inode.sector).length)

/-- The request crosses the end of a file that has used up its direct blocks, or its
indirect block, and the next block has no index block yet. -/
def CrossesIndex (length size offset : ℤ) : Prop :=
  offset ≤ length ∧ length < offset + size ∧
    (length = 512 * 12 ∧ offset + size ≤ length + 512 ∨ length = 512 * 140)

/-- A request that starts in the file and ends behind its last block.  The loop writes the
blocks to the end and goes on from there, with the same map. -/
theorem Housed.inodeWriteAt_follow {inode : Inode} {buffer : ℕ → UInt8} {n size offset : ℕ}
    {Q : ℕ → FileSys → Prop} (h : Housed s inode.sector) (hmem : s.MemAvailable)
    (hdeny : inode.denyWriteCnt = 0)
    (hn : n = capacity (inodeAt s.content inode.sector).length)
    (hstart : (offset : ℤ) ≤ (inodeAt s.content inode.sector).length)
    (hend : 512 * n < offset + size)
    (hlast : ∀ (t : FileSys) (c : BlockSector → Sector) (fuel written : ℕ) (bounce : Bool),
      Spares (DataOf s.content inode.sector n) s t →
      (NeedsMore s inode ((offset : ℤ) + size) → n ≤ 140 ∧
        (bytesToSectors (wrap32 ((offset : ℤ) + size)) ≤ maxBlocks →
          ¬ Scarce s (sectorsNeeded (bytesToSectors (wrap32 ((offset : ℤ) + size))) -
            blockCount (inodeAt s.content inode.sector).length) →
          ∀ i < bytesToSectors (wrap32 ((offset : ℤ) + size)), t.freeMap i = true)) →
      (∀ y, ¬ DataOf s.content inode.sector n y → c y = t.content y) →
      SameMap s.content c inode.sector n →
      Ensures (writeLoop inode buffer fuel ((offset + size - 512 * n : ℕ) : ℤ)
        ((512 * n : ℕ) : ℤ) written bounce) { t with content := c } Q) :
    Ensures (inodeWriteAt inode buffer size offset) s Q := by
  obtain ⟨length, hlength⟩ := Int.eq_ofNat_of_zero_le h.length_nonneg
  have hmax := h.length_le
  unfold maxInodeSize at hmax
  have hcap : n = max 1 ((length + 511) / 512) := by
    rw [hn, hlength]
    rfl
  have hmap : Mapped s inode.sector n := hn ▸ h.mapped
  refine inodeWriteAt_rule (fun _ => trivial) h hdeny (.inr fun _ => trivial) fun t ht hgrow => ?_
  rw [← hn] at ht
  have hsame : SameMap s.content t.content inode.sector n :=
    ht.sameMap hmap (hn ▸ h.marked) (hn ▸ h.apart)
  have hmap' : Mapped t inode.sector n := hmap.of_sameMap ht.same.size hsame
  refine writeLoop_reach ?_ _ size offset 0 false t hmap' (ht.mem hmem) ?_ (fun _ => ?_) (by omega)
    hend fun fuel written bounce c hc => ?_
  · unfold maxBlocks
    omega
  · rw [hsame.inodeAt]
    omega
  · rwa [hsame.inodeAt]
  have hdata : ∀ y, ¬ DataOf s.content inode.sector n y → c y = t.content y := by
    refine fun y hy => hc y ?_
    rintro ⟨k, hk, rfl⟩
    exact hy ⟨k, hk, hsame.blockAt hk⟩
  refine hlast t c fuel written bounce ht (fun hg => ⟨?_, (hgrow hg hmem).2⟩) hdata
    (hsame.trans (hmap'.sameMap fun y hy => hc y fun ⟨k, hk, heq⟩ => hy k hk heq))
  have hblocks := (hgrow hg hmem).1.1
  rw [hlength] at hblocks
  unfold blockCount at hblocks
  omega

/-- Sectors 0 and 1 keep their content as long as only the blocks of the file are written. -/
theorem OrdinaryFile.foreign_keeps {n : ℕ} (h : OrdinaryFile s x)
    (hn : n = capacity (inodeAt s.content x).length) (ht : Spares (DataOf s.content x n) s t)
    (hc : ∀ y, ¬ DataOf s.content x n y → c y = t.content y)
    (hy : y = freeMapSector ∨ y = rootDirSector) : c y = s.content y := by
  obtain ⟨hnot, hmarked, hdata⟩ := h.foreign hy
  have hnot' : ¬ DataOf s.content x n y := fun hd => hnot (h.owned_of_data hn.le hd)
  rw [hc _ hnot', ht.keeps _ hnot' hmarked hdata]

/-- A request for one more block makes `inode_write_at` resize the file. -/
theorem sectorsOrOne_grows {length : ℤ} {n last : ℕ} (hlow : 0 ≤ length)
    (hhigh : length ≤ maxInodeSize) (hn : n = capacity length) (hlt : 512 * n < last)
    (hlast : last < 2147483136) : sectorsOrOne length < sectorsOrOne (wrap32 last) := by
  unfold maxInodeSize at hhigh
  rw [wrap32_eq (by omega) (by omega), sectorsOrOne_natCast hlast,
    sectorsOrOne_length hlow (by omega), ← hn]
  omega

/-- A request that does not fit changes sector 0 or sector 1. -/
theorem OrdinaryFile.hits {inode : Inode} (h : OrdinaryFile s inode.sector)
    (hmem : s.MemAvailable) (hdeny : inode.denyWriteCnt = 0) {size offset : ℕ} (hsize : 0 < size)
    (hfits : ¬ Fits s inode size offset)
    (hindex : ¬ CrossesIndex (inodeAt s.content inode.sector).length size offset) :
    ∃ y q, (y = freeMapSector ∨ y = rootDirSector) ∧
      ∀ v, Ensures (inodeWriteAt inode (fun _ => v) size offset) s
        fun _ t => t.content y q = v := by
  obtain ⟨length, hlength⟩ := Int.eq_ofNat_of_zero_le h.length_nonneg
  have hmax := h.length_le
  obtain ⟨n, hn⟩ : ∃ n, n = capacity (inodeAt s.content inode.sector).length := ⟨_, rfl⟩
  have hcap : n = max 1 ((length + 511) / 512) := by
    rw [hn, hlength]
    rfl
  have hnmax : n ≤ maxBlocks := by
    unfold maxInodeSize at hmax
    unfold maxBlocks
    omega
  by_cases hpast : length < offset
  · -- the first chunk already lies behind the end of the file
    refine ⟨rootDirSector, ⟨offset % 512, Nat.mod_lt _ (by decide)⟩, .inr rfl, fun v => ?_⟩
    refine inodeWriteAt_ensures h.toHoused hdeny fun t ht => ?_
    refine writeLoop_hits hsize (ht.mem hmem) rfl (sectorOf_past ?_)
    rw [(ht.sameMap h.mapped h.marked h.apart).inodeAt, hlength]
    exact_mod_cast hpast
  have hstart : (offset : ℤ) ≤ (inodeAt s.content inode.sector).length := by
    omega
  have hend : 512 * n < offset + size := by
    by_contra hle
    refine hfits (.inr ⟨?_, fun _ => hstart⟩)
    omega
  by_cases hinside : length < 512 * n
  · refine ⟨rootDirSector, ⟨0, by decide⟩, .inr rfl, fun v =>
      h.inodeWriteAt_follow hmem hdeny hn hstart hend
        fun t c fuel written bounce ht _ _ hsame => ?_⟩
    refine writeLoop_hits ?_ ?_ ?_ (sectorOf_past ?_)
    · omega
    · exact (ht.mem hmem).congr rfl
    · simp
    · rw [hsame.inodeAt, hlength]
      exact_mod_cast hinside
  have hfull : length = 512 * n := by omega
  by_cases hidx : IndexFull n
  swap
  · refine ⟨freeMapSector, ⟨0, by decide⟩, .inl rfl, fun v =>
      h.inodeWriteAt_follow hmem hdeny hn hstart hend
        fun t c fuel written bounce ht _ _ hsame => ?_⟩
    refine writeLoop_hits ?_ ?_ ?_ (sectorOf_hole hidx ?_ ?_)
    · omega
    · exact (ht.mem hmem).congr rfl
    · simp
    · rw [hsame.inodeAt, hlength]
      omega
    · rw [hsame.nextPointer, hn]
      exact h.hole
  -- the index block is missing
  refine ⟨rootDirSector, ⟨0, by decide⟩, .inr rfl, fun v =>
    h.inodeWriteAt_follow hmem hdeny hn hstart hend
      fun t c fuel written bounce ht hgrow hc hsame => ?_⟩
  have h140 : n ≠ 140 := fun heq => hindex ⟨by omega, by omega, .inr (by omega)⟩
  by_cases hone : offset + size ≤ 512 * n + 512
  · -- one block more: the file is resized, which a doubly indirect file does not survive
    have hsmall := (hgrow (by
      refine sectorsOrOne_grows h.length_nonneg hmax hn hend ?_
      unfold maxBlocks at hnmax
      omega)).1
    have h12 : n = 12 := by
      unfold IndexFull at hidx
      omega
    exact absurd ⟨by omega, by omega, .inl ⟨by omega, by omega⟩⟩ hindex
  · clear hgrow
    refine writeLoop_hits_second hnmax ?_ ?_ ?_ ?_ ?_
    · omega
    · exact (ht.mem hmem).congr rfl
    · rw [sectorOf_indexHole hidx h140 (by unfold IndexFull at hidx; unfold maxBlocks at *; omega)
        (by rw [hsame.inodeAt, hlength]; omega) (by rw [hsame.nextPointer, hn]; exact h.hole)]
      dsimp only
      rw [h.foreign_keeps hn ht hc (.inl rfl)]
      exact h.ne_of_mapOwned h.mapOwned_first
    · rw [hsame.inodeAt]
      omega
    · rfl

/-! ## Isolation -/

/-- The call returns, and the sectors it has changed are the inode's own, newly allocated,
or data of the free-map file. -/
def Isolated (s : FileSys) (inode : Inode) (buffer : ℕ → UInt8) (size offset : ℤ) : Prop :=
  Returns (inodeWriteAt inode buffer size offset) s fun _ t => ∀ y, t.content y ≠ s.content y →
    Owned s.content inode.sector (capacity (inodeAt s.content inode.sector).length) y ∨
      (s.freeMap y.toNat = false ∧ t.freeMap y.toNat = true) ∨ MapData s y

/-- A call that changes sector 0 or 1 of an ordinary file's disk is not isolated. -/
theorem OrdinaryFile.not_isolated {inode : Inode} {buffer : ℕ → UInt8} {size offset : ℤ}
    (h : OrdinaryFile s inode.sector) (hy : y = freeMapSector ∨ y = rootDirSector)
    (hchanged : Ensures (inodeWriteAt inode buffer size offset) s
      fun _ t => t.content y ≠ s.content y) : ¬ Isolated s inode buffer size offset := by
  intro hisolated
  obtain ⟨r, t, hrun, hframe⟩ := returns_iff.mp hisolated
  obtain ⟨hnot, hmarked, hdata⟩ := h.foreign hy
  rcases hframe y (hchanged.of_run_eq hrun) with howned | ⟨hfree, -⟩ | hmap
  · exact hnot howned
  · rw [hmarked] at hfree
    exact Bool.noConfusion hfree
  · exact hdata hmap

section

variable {inode : Inode} {buffer : ℕ → UInt8} {size offset : ℤ}
  (hmap : Mapped s inode.sector (capacity (inodeAt s.content inode.sector).length))
  (hlow : 0 ≤ (inodeAt s.content inode.sector).length)
  (hhigh : (inodeAt s.content inode.sector).length ≤ maxInodeSize) (hsize : 0 ≤ size)
  (hoffset : 0 ≤ offset) (h : Fits s inode size offset)
include hmap hlow hhigh hsize hoffset h

/-- A request that fits touches the blocks of the file only. -/
theorem inodeWriteAt_fits {E : Fault → Prop} :
    Spec E (inodeWriteAt inode buffer size offset) s fun _ t => ∃ c heap,
      t = { s with content := c, heap := heap } ∧ (s.MemAvailable → heap = s.heap) ∧
      ∀ y, ¬ DataOf s.content inode.sector
        (capacity (inodeAt s.content inode.sector).length) y → c y = s.content y := by
  obtain ⟨length, hlength⟩ := Int.eq_ofNat_of_zero_le hlow
  unfold maxInodeSize at hhigh
  refine .get_bind ?_
  by_cases hdeny : inode.denyWriteCnt = 0
  swap
  · refine .bind (cacheRead_spec hmap.has_inode ?_)
    rw [if_pos hdeny]
    exact .pure ⟨s.content, s.heap, rfl, fun _ => rfl, fun _ _ => rfl⟩
  obtain ⟨hend, hstart⟩ := h.resolve_left (not_not.mpr hdeny)
  obtain ⟨o, rfl⟩ := Int.eq_ofNat_of_zero_le hoffset
  obtain ⟨k, rfl⟩ := Int.eq_ofNat_of_zero_le hsize
  refine .post (inodeWriteAtWith_inPlace hmap ?_ ?_ hlow (by omega) le_rfl hdeny
    (fun hk => hstart (by exact_mod_cast hk)) (by exact_mod_cast hend)) ?_
  · rw [hlength]
    unfold capacity blockCount maxBlocks
    omega
  · rw [hlength]
    unfold capacity blockCount
    omega
  · rintro r t ⟨c, heap, rfl, hheap, hresult⟩
    refine ⟨c, heap, rfl, fun hm => hheap (.inl hm), fun y hy => ?_⟩
    rcases hresult with ⟨-, hover⟩ | ⟨-, rfl, -⟩
    · exact hover.1 y fun j hj heq => hy ⟨j, hj, heq⟩
    · rfl

theorem isolated_of_fits : Isolated s inode buffer size offset := by
  refine (inodeWriteAt_fits hmap hlow hhigh hsize hoffset h).post ?_
  rintro r t ⟨c, heap, rfl, -, hc⟩ y hy
  refine .inl (by_contra fun hnot => hy (hc y ?_))
  rintro ⟨k, hk, rfl⟩
  exact hnot (.inr ⟨k, hk, .inr rfl⟩)

end

/-- A request of no bytes writes nothing itself, but it may resize the file. -/
theorem OrdinaryFile.isolated_empty_iff {inode : Inode} {offset : ℤ}
    (h : OrdinaryFile s inode.sector) (hmem : s.MemAvailable) (hdeny : inode.denyWriteCnt = 0) :
    (∀ buffer, Isolated s inode buffer 0 offset) ↔ (NeedsMore s inode offset →
      Resizable s inode.sector (bytesToSectors (wrap32 offset))) := by
  have hend : offset + 0 = offset := add_zero offset
  constructor
  · intro hall hmore
    rw [← hend] at hmore ⊢
    obtain ⟨r, t, hrun, -⟩ := returns_iff.mp (hall fun _ => 0)
    have hresized : Ensures (inodeWriteAt inode (fun _ => 0) 0 offset) s fun _ _ =>
        Resizable s inode.sector (bytesToSectors (wrap32 (offset + 0))) :=
      inodeWriteAt_rule (fun _ => trivial) h.toHoused hdeny (.inr fun _ => trivial)
        fun _ _ hreturned => .ite_pos le_rfl (.pure (hreturned hmore hmem).1)
    exact hresized.of_run_eq hrun
  intro hresizable buffer
  rw [← hend] at hresizable
  have hopen : s.freeMapFile.isSome := by
    obtain ⟨fm, hfm, -⟩ := h.open_map
    rw [hfm]
    rfl
  refine inodeWriteAt_rule id h.toHoused hdeny (.inl fun hmore => ⟨hopen, hmem, hresizable hmore⟩)
    fun t ht _ => .ite_pos le_rfl (.pure fun y hy => ?_)
  by_cases hown : DataOf s.content inode.sector
      (capacity (inodeAt s.content inode.sector).length) y
  · exact .inl (h.owned_of_data le_rfl hown)
  by_cases hdata : MapData s y
  · exact .inr (.inr hdata)
  refine .inr (.inl ⟨?_, (ht.taken y hown hdata).resolve_left hy⟩)
  by_contra hmarked
  exact hy (ht.keeps y hown (by simpa using hmarked) hdata)

/-- **Writes are isolated exactly if they fit.**  On any inode whose blocks form an array
a request that fits changes only sectors it may change.  On an ordinary file every other
request of at least one byte fails to: with some buffer it does not return or changes
sector 0 or 1, unless it crosses the point where an index block is missing.  A request of no bytes
fails only if it makes `resize_inode` run past the end of an array. -/
theorem inodeWriteAt_isolated_iff (s : FileSys) (inode : Inode)
    (hmap : Mapped s inode.sector (capacity (inodeAt s.content inode.sector).length))
    (hlow : 0 ≤ (inodeAt s.content inode.sector).length)
    (hhigh : (inodeAt s.content inode.sector).length ≤ maxInodeSize) :
    (∀ size offset : ℤ, 0 ≤ size → 0 ≤ offset → Fits s inode size offset →
      ∀ buffer, Isolated s inode buffer size offset) ∧
    (OrdinaryFile s inode.sector → s.MemAvailable → ∀ size offset : ℤ, 0 < size → 0 ≤ offset →
      ¬ CrossesIndex (inodeAt s.content inode.sector).length size offset →
      ((∀ buffer, Isolated s inode buffer size offset) ↔ Fits s inode size offset)) ∧
    (OrdinaryFile s inode.sector → s.MemAvailable → inode.denyWriteCnt = 0 → ∀ offset : ℤ,
      (∀ buffer, Isolated s inode buffer 0 offset) ↔ (NeedsMore s inode offset →
        Resizable s inode.sector (bytesToSectors (wrap32 offset)))) := by
  refine ⟨fun size offset hsize hoffset h buffer =>
    isolated_of_fits hmap hlow hhigh hsize hoffset h, ?_,
    fun hfile hmem hdeny offset => hfile.isolated_empty_iff hmem hdeny⟩
  intro hfile hmem size offset hsize hoffset hindex
  refine ⟨fun hall => ?_, fun h buffer => isolated_of_fits hmap hlow hhigh hsize.le hoffset h⟩
  by_contra hfits
  have hdeny : inode.denyWriteCnt = 0 := by
    by_contra hdeny
    exact hfits (.inl hdeny)
  obtain ⟨o, rfl⟩ := Int.eq_ofNat_of_zero_le hoffset
  obtain ⟨k, rfl⟩ := Int.eq_ofNat_of_zero_le hsize.le
  obtain ⟨y, q, hy, hhits⟩ := hfile.hits hmem hdeny (by omega) hfits hindex
  -- a value the sector does not have there
  refine hfile.not_isolated hy ((hhits (s.content y q + 1)).post ?_) (hall _)
  intro _ t hbyte heq
  rw [heq] at hbyte
  exact absurd hbyte (by simp)

/-! ## A small disk -/

/-- The inode of the free map of a disk of 160 sectors, with its data in sector 2. -/
def freshMapInode : InodeDisk := ⟨fun i => if i = 0 then 2 else 0, 0, 0, 20, inodeMagic, fun _ => 0⟩

/-- The inode of a file of five bytes, with its data in sector 4. -/
def freshFileInode : InodeDisk := ⟨fun i => if i = 0 then 4 else 0, 0, 0, 5, inodeMagic, fun _ => 0⟩

/-- A disk with 160 sectors and one file of five bytes, whose inode is in sector 3. -/
def freshDisk : FileSys where
  size := 160
  size_lt := by decide
  content y :=
    if y = 0 then freshMapInode.encode
    else if y = 2 then fun k => bitsByte (fun i => decide (i < 5)) k.val
    else if y = 3 then freshFileInode.encode
    else Sector.zeros
  freeMap i := decide (i < 5)
  freeMapFile := some ⟨0, 1, false, 0⟩
  openInodes := [⟨3, 1, false, 0⟩, ⟨0, 1, false, 0⟩]
  heap _ := true

theorem inodeAt_freshDisk_zero : inodeAt freshDisk.content 0 = freshMapInode :=
  decode_encode (by decide) (by decide)

theorem inodeAt_freshDisk_three : inodeAt freshDisk.content 3 = freshFileInode :=
  decode_encode (by decide) (by decide)

theorem length_freshDisk : (inodeAt freshDisk.content 3).length = 5 := by
  rw [inodeAt_freshDisk_three]
  rfl

theorem blockAt_freshDisk (hk : k < 1) :
    blockAt freshDisk.content 0 k = 2 ∧ blockAt freshDisk.content 3 k = 4 := by
  obtain rfl : k = 0 := by omega
  exact ⟨rfl, rfl⟩

theorem owned_one {b : BlockSector}
    (hblock : ∀ k < 1, blockAt c x k = b) : Owned c x 1 y ↔ y = x ∨ y = b := by
  have hpath : ∀ k < 1, pathTo c x k = [] := fun k hk => if_pos (by omega)
  refine or_congr Iff.rfl ⟨?_, fun h => ⟨0, by omega, .inr (h.trans (hblock 0 (by omega)).symm)⟩⟩
  rintro ⟨k, hk, hy | hy⟩
  · simp [hpath k hk] at hy
  · exact hy.trans (hblock k hk)

theorem mapOwned_freshDisk : MapOwned freshDisk y ↔ y = 0 ∨ y = 2 := by
  have hcount : blockCount (inodeAt freshDisk.content 0).length = 1 := by
    rw [inodeAt_freshDisk_zero]
    rfl
  refine ⟨?_, fun h => ⟨_, rfl, ?_⟩⟩
  · rintro ⟨fm, ⟨⟩, hy⟩
    rw [hcount] at hy
    exact (owned_one fun k hk => (blockAt_freshDisk hk).1).mp hy
  · show Owned _ 0 _ y
    rw [hcount]
    exact (owned_one fun k hk => (blockAt_freshDisk hk).1).mpr h

theorem mapFileOk_freshDisk : MapFileOk freshDisk := by
  have hlength : (inodeAt freshDisk.content 0).length = 20 := by
    rw [inodeAt_freshDisk_zero]
    rfl
  refine ⟨fun fm hfm => ?_, fun fm hfm => ?_, fun fm hfm => ?_, fun fm hfm y hy => ?_⟩ <;> cases hfm
  · exact .of_direct inodeAt_freshDisk_zero (by decide) (by decide) (by decide) (by decide)
  · rw [hlength]
    rfl
  · rfl
  · rcases mapOwned_freshDisk.mp ⟨_, rfl, hy⟩ with rfl | rfl <;> decide

theorem ordinaryFile_freshDisk : OrdinaryFile freshDisk 3 := by
  have hlength := length_freshDisk
  have hcapacity : capacity (inodeAt freshDisk.content 3).length = 1 := by
    rw [hlength]
    rfl
  have howned : ∀ y, Owned freshDisk.content 3 1 y ↔ y = 3 ∨ y = 4 := fun y =>
    owned_one fun k hk => (blockAt_freshDisk hk).2
  have hstored : Stored freshDisk 3 :=
    .of_direct inodeAt_freshDisk_three (by decide) (by decide) (by decide) (by decide)
  refine ⟨⟨mapFileOk_freshDisk, hstored.length_nonneg, by rw [hlength]; decide, ?_, ?_, ?_⟩,
    ⟨_, rfl, rfl⟩, by decide, by decide, ?_, ?_, ?_⟩
  · have hmapped := hstored.mapped
    rw [hlength] at hmapped ⊢
    exact hmapped
  · intro y hy
    rw [hcapacity, howned] at hy
    rcases hy with rfl | rfl <;> decide
  · intro y hy
    rw [hcapacity, howned] at hy
    rw [mapOwned_freshDisk]
    rcases hy with rfl | rfl <;> decide
  · rw [hcapacity, howned]
    decide
  · rw [mapOwned_freshDisk]
    decide
  · rw [hcapacity, inodeAt_freshDisk_three, InodeDisk.nextPointer, if_pos (by omega),
      entry_eq _ (by omega)]
    rfl

/-- Two bytes inside the file, one byte behind its end, and none far behind its end. -/
theorem inodeWriteAt_isolated_iff_freshDisk :
    (∀ buffer, Isolated freshDisk ⟨3, 1, false, 0⟩ buffer 2 1) ∧
      (¬ ∀ buffer, Isolated freshDisk ⟨3, 1, false, 0⟩ buffer 1 100) ∧
        ∀ buffer, Isolated freshDisk ⟨3, 1, false, 0⟩ buffer 0 600 := by
  have hfile := ordinaryFile_freshDisk
  have hlength := length_freshDisk
  obtain ⟨hfits, hiff, hempty⟩ := inodeWriteAt_isolated_iff freshDisk ⟨3, 1, false, 0⟩ hfile.mapped
    hfile.length_nonneg hfile.length_le
  refine ⟨hfits 2 1 (by decide) (by decide) (.inr ?_), fun hall => ?_,
    (hempty hfile rfl rfl 600).mpr fun _ => ⟨?_, .inl (by decide +kernel)⟩⟩
  rotate_right
  · rw [hlength]
    decide
  · rw [hlength]
    decide
  have := (hiff hfile rfl 1 100 (by decide) (by decide) ?_).mp hall
  · rcases this with h | ⟨-, h⟩
    · exact h rfl
    · rw [hlength] at h
      exact absurd (h (by decide)) (by decide)
  · rintro ⟨h, -⟩
    rw [hlength] at h
    exact absurd h (by decide)

/-- One byte written behind the end of a file of five bytes goes into sector 1, the
inode of the root directory. -/
theorem inodeWriteAt_overwrites_root :
    OrdinaryFile freshDisk 3 ∧ ¬ Isolated freshDisk ⟨3, 1, false, 0⟩ (fun _ => 7) 1 100 := by
  have hbyte : Returns (inodeWriteAt ⟨3, 1, false, 0⟩ (fun _ => 7) 1 100) freshDisk
      (fun _ t => t.content 1 ⟨100, by decide⟩ = 7) := by decide +kernel
  refine ⟨ordinaryFile_freshDisk, ordinaryFile_freshDisk.not_isolated (y := 1) (.inr rfl)
    (.of_returns (hbyte.post fun _ t hseven heq => ?_))⟩
  rw [heq] at hseven
  exact absurd hseven (by decide)

end CS162
