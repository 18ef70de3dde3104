import CS162.Filesys.Isolation

/-!
# Files do not grow

`inode_write_at` is meant to make a file longer when a request ends behind its end.  It
changes the length in a copy of the inode on its stack, as `resize_inode` does with the
pointers, and never writes the copy to the disk.

## Strategy

A request leaves the inode sector alone: every chunk goes to a block of the file, to
sector 1, or to where the first missing pointer leads (`inodeWriteAt_keeps_inode`).  The
only pointer that could lead to the inode is the one behind the 140th block.  It is the
first word of the bitmap on the disk, and resizing the file has marked all the sectors
the word stands for, so the word is not a sector number of the device.
-/

namespace CS162

open Library FileSys List

variable {s t : FileSys} {x : BlockSector} {inode : Inode} {buffer : ℕ → UInt8}

/-! ## The inode sector in the write loop -/

/-- Chunks behind the end of the file do not change the inode. -/
theorem writeLoop_past (hroot : inode.sector ≠ rootDirSector) (fuel : ℕ) :
    ∀ (size offset written : ℕ) (bounce : Bool) (s : FileSys), offset + size < 2147483648 →
    (inodeAt s.content inode.sector).length < offset →
    Ensures (writeLoop inode buffer fuel size offset written bounce) s fun _ t =>
      t.content inode.sector = s.content inode.sector := by
  induction fuel using Nat.strong_induction_on with
  | h fuel ih =>
    intro size offset written bounce s hmax hpast
    refine writeLoop_round (fun _ => rfl) (fun _ _ _ => rfl)
      fun fuel' hfuel h base hsize _ _ _ _ => ?_
    obtain ⟨m, hm, hpos, hle, -, -⟩ := writeChunkSize_cases offset (show 0 < size by omega)
    rw [hm, sectorOf_past hpast, wrap32_eq (by omega) (by omega), ← Nat.cast_sub hle,
      ← Nat.cast_add]
    refine (ih fuel' hfuel _ _ _ _ _ (by omega) ?_).post fun _ t ht =>
      ht.trans (Function.update_of_ne hroot _ _)
    rw [inodeAt_update_of_ne hroot.symm]
    omega

/-- A first chunk that does not go to the inode, and chunks behind the end of the file. -/
theorem writeLoop_hole (hroot : inode.sector ≠ rootDirSector) {fuel size k written : ℕ}
    {bounce : Bool} (hmax : 512 * k + size < 2147483648)
    (hlen : (inodeAt s.content inode.sector).length = 512 * k)
    (hne : s.Has (sectorOf s.content inode.sector ((512 * k : ℕ) : ℤ)) →
      sectorOf s.content inode.sector ((512 * k : ℕ) : ℤ) ≠ inode.sector) :
    Ensures (writeLoop inode buffer fuel size ((512 * k : ℕ) : ℤ) written bounce) s fun _ t =>
      t.content inode.sector = s.content inode.sector := by
  refine writeLoop_round (fun _ => rfl) (fun _ _ _ => rfl) fun _ _ h base hsize _ _ _ hhas => ?_
  obtain ⟨m, hm, hpos, hle, -, -⟩ := writeChunkSize_cases (512 * k) (show 0 < size by omega)
  have hother := hne hhas
  rw [hm, wrap32_eq (by omega) (by omega), ← Nat.cast_sub hle]
  refine (writeLoop_past hroot _ _ _ _ _ _ (by omega) ?_).post fun _ t ht =>
    ht.trans (Function.update_of_ne hother.symm _ _)
  rw [inodeAt_update_of_ne hother]
  omega

/-! ## The first word of the bitmap -/

/-- A bitmap whose first 32 bits are set, as the free-map file holds it. -/
theorem synced_first_word (hsync : Synced t) {fm : Inode} (hfm : t.freeMapFile = some fm)
    (hsize : 0 < t.size) (hlow : ∀ i < 32, t.freeMap i = true) :
    (t.content (blockAt t.content fm.sector 0)).words 0 = 4294967295 := by
  refine wordAt_of_all fun k hk => ?_
  have hbyte := hsync fm hfm k (by unfold byteCnt; omega)
  rw [fileByte, show k / 512 = 0 by omega, show k % 512 = k by omega] at hbyte
  rw [Nat.mul_zero, zero_add, hbyte]
  exact bitsByte_of_all fun j hj => hlow _ (by omega)

theorem sectorOf_bitmap {c : BlockSector → Sector} (hlen : (inodeAt c x).length = 512 * 140)
    (h : (inodeAt c x).nextPointer c 140 = 0) :
    sectorOf c x ((512 * 140 : ℕ) : ℤ) = (c ((c freeMapSector).words 0)).words 0 := by
  have hpointer : (inodeAt c x).doublyIndirect = 0 := h
  rw [sectorOf, if_pos (by omega)]
  show (c ((c (inodeAt c x).doublyIndirect).words 0)).words 0 = _
  rw [hpointer]
  rfl

/-- Where the first missing pointer leads is not the inode, or not on the device. -/
theorem OrdinaryFile.hole_ne {n : ℕ} {c : BlockSector → Sector} (h : OrdinaryFile s x)
    (hmem : s.MemAvailable) (hsync : Synced s) (hn : n = capacity (inodeAt s.content x).length)
    (hlt : n < maxBlocks) (hlen : (inodeAt s.content x).length = 512 * n)
    (ht : Spares (DataOf s.content x n) s t) (hlow : n = 140 → ∀ i < 32, t.freeMap i = true)
    (hc : ∀ y, ¬ DataOf s.content x n y → c y = t.content y) (hsame : SameMap s.content c x n)
    (hhas : t.Has (sectorOf c x ((512 * n : ℕ) : ℤ))) : sectorOf c x ((512 * n : ℕ) : ℤ) ≠ x := by
  have hlen' : (inodeAt c x).length = 512 * n := by rw [hsame.inodeAt, hlen]
  have hhole : (inodeAt c x).nextPointer c n = 0 := by
    rw [hsame.nextPointer, hn]
    exact h.hole
  have hzero := h.foreign_keeps hn ht hc (.inl rfl)
  by_cases hidx : IndexFull n
  swap
  · rw [sectorOf_hole hidx hlen' hhole]
    exact h.ne_of_mapOwned h.mapOwned_zero
  by_cases h140 : n = 140
  swap
  · rw [sectorOf_indexHole hidx h140 hlt hlen' hhole, hzero]
    exact h.ne_of_mapOwned h.mapOwned_first
  -- all bits of the first word are set
  subst h140
  exfalso
  rw [sectorOf_bitmap hlen' hhole, hzero] at hhas
  have hfirst := h.mapOwned_first
  obtain ⟨fm, hfm, hsec⟩ := h.open_map
  have hword : (t.content (blockAt t.content fm.sector 0)).words 0 = 4294967295 :=
    synced_first_word (ht.synced hmem hsync) (ht.same.file.trans hfm)
      (by rw [ht.same.size]; exact h.size_pos) (hlow rfl)
  have hblock : blockAt t.content fm.sector 0 = (s.content freeMapSector).words 0 := by
    have hkept := h.foreign_keeps hn ht (fun _ _ => rfl) (.inl rfl)
    rw [hsec, blockAt_direct (by omega)]
    show (t.content freeMapSector).words 0 = _
    rw [hkept]
  have hnot : ¬ DataOf s.content x 140 ((s.content freeMapSector).words 0) := fun hd =>
    h.apart _ (h.owned_of_data hn.le hd) hfirst
  rw [hc _ hnot, ← hblock, hword] at hhas
  have := t.size_lt
  have : (4294967295 : BlockSector).toNat < t.size := hhas
  rw [show (4294967295 : BlockSector).toNat = 4294967295 from rfl] at this
  omega

/-- `inode_write_at` does not change the inode sector of an ordinary file. -/
theorem OrdinaryFile.inodeWriteAt_keeps_inode {size offset : ℕ} (h : OrdinaryFile s inode.sector)
    (hmem : s.MemAvailable) (hsync : Synced s) (hdeny : inode.denyWriteCnt = 0)
    (hmax : ((offset + size : ℕ) : ℤ) ≤ maxInodeSize)
    (hspace : ¬ Scarce s (sectorsNeeded (blockCount (offset + size : ℕ)) -
      blockCount (inodeAt s.content inode.sector).length)) :
    Ensures (inodeWriteAt inode buffer size offset) s fun _ t =>
      t.content inode.sector = s.content inode.sector := by
  have hroot : inode.sector ≠ rootDirSector := fun heq => h.root_ne (.inl heq.symm)
  obtain ⟨length, hlength⟩ := Int.eq_ofNat_of_zero_le h.length_nonneg
  obtain ⟨n, hn⟩ : ∃ n, n = capacity (inodeAt s.content inode.sector).length := ⟨_, rfl⟩
  have hcap : n = max 1 ((length + 511) / 512) := by
    rw [hn, hlength]
    rfl
  have hlen := h.length_le
  unfold maxInodeSize at hmax
  have hkept : ∀ t, Spares (DataOf s.content inode.sector n) s t →
      SameMap s.content t.content inode.sector n := fun t ht =>
    ht.sameMap (hn ▸ h.mapped) (hn ▸ h.marked) (hn ▸ h.apart)
  by_cases hpast : length < offset
  · refine inodeWriteAt_ensures h.toHoused hdeny fun t ht => ?_
    have hsame := hkept t (hn ▸ ht)
    refine (writeLoop_past hroot _ _ _ _ _ _ (by omega) ?_).post fun _ u hu => hu.trans hsame.1
    rw [hsame.inodeAt]
    omega
  have hstart : (offset : ℤ) ≤ (inodeAt s.content inode.sector).length := by
    omega
  by_cases hend : 512 * n < offset + size
  swap
  · -- the request stays within the blocks of the file
    refine inodeWriteAt_ensures h.toHoused hdeny fun t ht => ?_
    have hsame := hkept t (hn ▸ ht)
    have hmap : Mapped t inode.sector n := (hn ▸ h.mapped : Mapped s inode.sector n).of_sameMap
      ht.same.size hsame
    refine (writeLoop_spec ?_ _ _ _ _ _ _ hmap ?_ (by omega) (fun _ => ?_) (by omega)).post ?_
    · unfold maxBlocks
      unfold maxInodeSize at hlen
      omega
    · rw [hsame.inodeAt]
      omega
    · rwa [hsame.inodeAt]
    · rintro r u ⟨c, heap, rfl, -, hresult⟩
      rcases hresult with ⟨-, hover⟩ | ⟨-, rfl, -⟩
      · exact (hover.1 _ fun k hk heq => hmap.ne_inode k hk heq.symm).trans hsame.1
      · exact hsame.1
  have hcount : bytesToSectors (wrap32 ((offset : ℤ) + size)) = blockCount (offset + size : ℕ) := by
    rw [wrap32_eq (by omega) (by omega), ← Nat.cast_add, bytesToSectors_natCast (by omega)]
    rfl
  refine h.inodeWriteAt_follow hmem hdeny hn hstart hend
    fun t c fuel written bounce ht hgrow hc hsame => ?_
  rw [hcount] at hgrow
  obtain ⟨-, hlow⟩ := hgrow (by
    exact sectorsOrOne_grows h.length_nonneg hlen hn hend (by omega))
  have hbits : ∀ i < blockCount (offset + size : ℕ), t.freeMap i = true := hlow (by
    unfold blockCount maxBlocks
    omega) hspace
  by_cases hinside : length < 512 * n
  · refine (writeLoop_past hroot _ _ _ _ _ _ (by omega) ?_).post fun _ u hu => hu.trans hsame.1
    rw [hsame.inodeAt, hlength]
    exact_mod_cast hinside
  have hfull : length = 512 * n := by omega
  refine (writeLoop_hole hroot (by omega) ?_ fun hhas => ?_).post fun _ u hu => hu.trans hsame.1
  · rw [hsame.inodeAt, hlength]
    omega
  refine h.hole_ne hmem hsync hn ?_ (by rw [hlength]; omega) ht (fun h140 i hi => ?_) hc
    hsame hhas
  · unfold maxBlocks
    omega
  · refine hbits i ?_
    unfold blockCount
    omega

/-! ## Growth -/

/-- What the file should hold after the write: the buffer, the old bytes before it, and
zeros in the gap between. -/
def grownBytes (s : FileSys) (x : BlockSector) (buffer : ℕ → UInt8) (size offset : ℤ) :
    List UInt8 :=
  (List.range (offset + size).toNat).map fun p : ℕ =>
    if offset ≤ p then buffer ((p : ℤ) - offset).toNat
    else if (p : ℤ) < (inodeAt s.content x).length then fileByte s.content x p
    else 0

/-- The length of the file is that of the list, and reading it returns the list. -/
def HoldsBytes (s : FileSys) (inode : Inode) (bytes : List UInt8) : Prop :=
  Returns (inodeLength inode) s (fun length _ => length = bytes.length) ∧
    Returns (inodeReadAt inode bytes.length 0) s fun read _ => read = bytes

/-- The call returns `size` and the file holds what it should, also after it has been
closed and opened again. -/
def Grows (s : FileSys) (inode : Inode) (buffer : ℕ → UInt8) (size offset : ℤ) : Prop :=
  Returns (inodeWriteAt inode buffer size offset) s fun written t =>
    (written : ℤ) = size ∧
    HoldsBytes t inode (grownBytes s inode.sector buffer size offset) ∧
    Returns (do inodeClose inode.sector; inodeOpen inode.sector) t fun reopened u =>
      ∃ inode', reopened = some inode' ∧
        HoldsBytes u inode' (grownBytes s inode.sector buffer size offset)

theorem inodeLength_ensures (s : FileSys) : Ensures (inodeLength inode) s fun length _ =>
    length = (inodeAt s.content inode.sector).length :=
  Spec.bind (cacheRead_rule (fun _ => .pure rfl) fun _ => trivial)

/-- **Files do not grow.**  No request that ends behind the end of an ordinary file makes
it longer, whatever its length and however much memory and disk space there is: the
length on the disk stays what it was. -/
theorem inodeWriteAt_never_grows (s : FileSys) (inode : Inode) (h : OrdinaryFile s inode.sector)
    (hmem : s.MemAvailable) (hsync : Synced s) (hdeny : inode.denyWriteCnt = 0) (buffer : ℕ → UInt8)
    (size offset : ℤ) (hoffset : 0 ≤ offset) (hsize : 0 < size)
    (hend : (inodeAt s.content inode.sector).length < offset + size)
    (hmax : offset + size ≤ maxInodeSize)
    (hspace : ¬ Scarce s (sectorsNeeded (blockCount (offset + size)) -
      blockCount (inodeAt s.content inode.sector).length)) :
    ¬ Grows s inode buffer size offset := by
  obtain ⟨o, rfl⟩ := Int.eq_ofNat_of_zero_le hoffset
  obtain ⟨k, rfl⟩ := Int.eq_ofNat_of_zero_le hsize.le
  rw [← Nat.cast_add] at hend hmax hspace
  intro hgrows
  obtain ⟨written, t, hrun, -, ⟨hlength, -⟩, -⟩ := returns_iff.mp hgrows
  have hkept : t.content inode.sector = s.content inode.sector :=
    (h.inodeWriteAt_keeps_inode hmem hsync hdeny hmax hspace).of_run_eq hrun
  obtain ⟨length, u, hread, hlength⟩ := returns_iff.mp hlength
  have hold : length = (inodeAt s.content inode.sector).length := by
    rw [(inodeLength_ensures t).of_run_eq hread, inodeAt, hkept]
    rfl
  have hnew : length = ((o + k : ℕ) : ℤ) := by
    rw [hlength, grownBytes, length_map, length_range]
    omega
  omega

/-! ## On a small disk -/

theorem synced_freshDisk : Synced freshDisk := by
  intro fm hfm p hp
  have hsector : fm.sector = 0 := by rw [← Option.some.inj hfm]
  have hlt : p < 512 := lt_of_lt_of_le hp (by decide)
  have hbitmap : freshDisk.content 2 = fun k => bitsByte freshDisk.freeMap k.val := rfl
  rw [fileByte, hsector, show p / 512 = 0 by omega, (blockAt_freshDisk (by omega)).1,
    Nat.mod_eq_of_lt hlt, hbitmap, entry_eq _ hlt]

/-- 155 sectors of the disk are free, so a file of five bytes could get a sixth. -/
theorem inodeWriteAt_never_grows_freshDisk :
    ¬ Grows freshDisk ⟨3, 1, false, 0⟩ (fun _ => 7) 1 5 := by
  refine inodeWriteAt_never_grows freshDisk ⟨3, 1, false, 0⟩ ordinaryFile_freshDisk rfl
    synced_freshDisk rfl _ 1 5 (by decide) (by decide) ?_ (by decide) ?_
  · rw [length_freshDisk]
    decide
  · refine not_scarce (nodup_range' : (range' 5 155).Nodup) (fun i hi => ?_)
      (by rw [length_range', length_freshDisk]; decide)
    rw [mem_range'_1] at hi
    exact ⟨hi.2, decide_eq_false (by omega)⟩

/-- One byte appended to a file of five bytes: the call returns 1, but the length on the
disk is still 5. -/
theorem append_keeps_length : OrdinaryFile freshDisk 3 ∧ (inodeAt freshDisk.content 3).length = 5 ∧
      Returns (inodeWriteAt ⟨3, 1, false, 0⟩ (fun _ => 7) 1 5) freshDisk (fun written t =>
        written = 1 ∧ (inodeAt t.content 3).length = 5) ∧
      ¬ Grows freshDisk ⟨3, 1, false, 0⟩ (fun _ => 7) 1 5 := by
  have hwrite : Returns (inodeWriteAt ⟨3, 1, false, 0⟩ (fun _ => 7) 1 5) freshDisk
      (fun written t => written = 1 ∧ (inodeAt t.content 3).length = 5) := by
    decide +kernel
  refine ⟨ordinaryFile_freshDisk, length_freshDisk, hwrite, fun hgrows => ?_⟩
  obtain ⟨written, t, hrun, -, ⟨hlength, -⟩, -⟩ := returns_iff.mp hgrows
  obtain ⟨length, u, hread, hlength⟩ := returns_iff.mp hlength
  have hfive := (inodeLength_ensures t).of_run_eq hread
  rw [(hwrite.of_run_eq hrun).2, hlength, grownBytes, length_map] at hfive
  exact absurd hfive (by decide)

end CS162
