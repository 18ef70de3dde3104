import CS162.Filesys.BlockMap

/-!
# Files are byte arrays

`inode_read_at` and `inode_write_at` cut a request at the sector boundaries.  Both
loops are verified against the flat array of bytes `fileByte`.

## Strategy

One round of the write loop is `overwritten_chunk`: it replaces a range of bytes that
lies in one block.  `Overwritten.trans` puts adjacent ranges together, so the loop
replaces the range of the whole request (`writeLoop_spec`).  The only arithmetic the
loop needs is `writeChunk_cases`: a chunk is not empty, does not leave its sector, and
is the last one unless it ends with the sector.

The loop is verified for an array of `n` blocks whose last block may lie partly or, in
an empty file, completely behind the end of the file.  `WellFormed` is the case of a
file whose blocks are exactly those its length needs.
-/

namespace CS162

open Library FileSys Function List

variable {s : FileSys} {c c' : BlockSector → Sector} {x : BlockSector} {n : ℕ}

/-! ## Replacing a range of bytes -/

/-- The file has the bytes `src` from `offset` on, `size` many; nothing else has
changed in its first `n` blocks or outside them. -/
def Overwritten (c c' : BlockSector → Sector) (x : BlockSector) (n offset size : ℕ)
    (src : ℕ → UInt8) : Prop :=
  (∀ y, (∀ k < n, y ≠ blockAt c x k) → c' y = c y) ∧ ∀ p < 512 * n, fileByte c' x p =
      if offset ≤ p ∧ p < offset + size then src (p - offset) else fileByte c x p

theorem overwritten_zero (c : BlockSector → Sector) (x : BlockSector) (n offset : ℕ)
    (src : ℕ → UInt8) : Overwritten c c x n offset 0 src :=
  ⟨fun _ _ => rfl, fun p _ => (if_neg (by omega)).symm⟩

variable {offset size : ℕ}

theorem Overwritten.congr {src src' : ℕ → UInt8} (h : Overwritten c c' x n offset size src)
    (hsrc : ∀ k, src k = src' k) : Overwritten c c' x n offset size src' := by
  rwa [← funext hsrc]

theorem Overwritten.trans {c'' : BlockSector → Sector} {first second : ℕ}
    {src : ℕ → UInt8} (hsame : SameMap c c' x n) (h : Overwritten c c' x n offset first src)
    (h' : Overwritten c' c'' x n (offset + first) second fun k => src (first + k)) :
    Overwritten c c'' x n offset (first + second) src := by
  refine ⟨fun y hy => ?_, fun p hp => ?_⟩
  · rw [h'.1 y fun k hk => by rw [hsame.blockAt hk]; exact hy k hk, h.1 y hy]
  rw [h'.2 p hp, h.2 p hp]
  by_cases hsecond : offset + first ≤ p ∧ p < offset + first + second
  · rw [if_pos hsecond, if_pos (by omega)]
    show src (first + (p - (offset + first))) = src (p - offset)
    congr 1
    omega
  · rw [if_neg hsecond]
    by_cases hfirst : offset ≤ p ∧ p < offset + first
    · rw [if_pos hfirst, if_pos (by omega)]
    · rw [if_neg hfirst, if_neg (by omega)]

/-- Writing one chunk.  The sector is read first unless the chunk covers it. -/
theorem overwritten_chunk (h : Mapped s x n) {src : ℕ → UInt8} {base : Sector}
    (hblock : offset / 512 < n) (hsize : offset % 512 + size ≤ 512)
    (hbase : base = s.content (blockAt s.content x (offset / 512)) ∨
      offset % 512 = 0 ∧ size = 512) :
    Overwritten s.content (update s.content (blockAt s.content x (offset / 512))
      (overlay base (offset % 512) size src)) x n offset size src := by
  set b := blockAt s.content x (offset / 512) with hb
  set c' := update s.content b (overlay base (offset % 512) size src) with hc'
  have hframe : ∀ y, (∀ k < n, y ≠ blockAt s.content x k) → c' y = s.content y := fun y hy =>
    update_of_ne (hy _ hblock) _ _
  have hsame := h.sameMap hframe
  refine ⟨hframe, fun p hp => ?_⟩
  have hk : p / 512 < n := by omega
  have hmod : p % 512 < 512 := Nat.mod_lt _ (by omega)
  unfold fileByte
  rw [hsame.blockAt hk]
  by_cases heq : p / 512 = offset / 512
  · rw [heq, hc', update_self, entry_eq _ hmod]
    by_cases hin : offset ≤ p ∧ p < offset + size
    · rw [if_pos hin, overlay_of_mem (show _ ∧ _ by dsimp only; omega)]
      congr 1
      dsimp only
      omega
    · rw [if_neg hin, overlay_of_notMem (show ¬ (_ ∧ _) by dsimp only; omega)]
      rcases hbase with rfl | hfull
      · rw [entry_eq _ hmod]
      · omega
  · have hne : blockAt s.content x (p / 512) ≠ b := fun hblk => heq (h.inj _ hk _ hblock hblk)
    rw [hc', update_of_ne hne, if_neg (by omega)]

/-! ## The write loop -/

theorem natCast_tmod_512 (k : ℕ) : (k : ℤ).tmod 512 = ((k % 512 : ℕ) : ℤ) := by
  rw [Int.tmod_eq_emod_of_nonneg (by omega)]
  omega

theorem writeChunkSize_cases (offset : ℕ) (hsize : 0 < size) :
    ∃ m : ℕ, writeChunkSize size offset = (m : ℤ) ∧ 0 < m ∧ m ≤ size ∧ offset % 512 + m ≤ 512 ∧
      (m = size ∨ offset % 512 + m = 512) := by
  unfold writeChunkSize
  rw [natCast_tmod_512, natCast_tmod_512]
  by_cases hmod : ((size % 512 : ℕ) : ℤ) = 0
  · rw [if_pos hmod]
    exact ⟨512 - offset % 512, by dsimp only; split <;> omega, by omega, by omega, by omega,
      by omega⟩
  · rw [if_neg hmod]
    by_cases hlt : 512 - ((offset % 512 : ℕ) : ℤ) < size
    · exact ⟨512 - offset % 512, by rw [if_pos hlt]; omega, by omega, by omega, by omega, by omega⟩
    · exact ⟨size, if_neg hlt, hsize, le_refl _, by omega, .inl rfl⟩

variable {E : Fault → Prop}

theorem bounceBuffer_spec {bounce : Bool} {Q : Bool → FileSys → Prop}
    (hyes : ∀ h, (s.MemAvailable ∨ bounce = true → h = s.heap) → Q true { s with heap := h })
    (hno : ∀ h, bounce = false → s.heap 0 = false → Q false { s with heap := h }) :
    Spec E (bounceBuffer bounce) s Q := by
  refine .ite (fun h => .pure (hyes s.heap fun _ => rfl)) fun h => ?_
  apply malloc_spec
  have hbounce : bounce = false := by simpa using h
  cases hheap : s.heap 0 with
  | true =>
    refine hyes _ fun hmem => ?_
    rcases hmem with hmem | hmem
    · rw [hmem]
    · simp [hbounce] at hmem
  | false => exact hno _ hbounce hheap

theorem fillBounce_spec {b : BlockSector} {ofs : ℕ} {Q : Sector → FileSys → Prop} (hb : s.Has b)
    (hsize : ofs + size ≤ 512) (hQ : ∀ base, base = s.content b ∨ ofs = 0 ∧ size = 512 → Q base s) :
    Spec E (fillBounce b ofs size) s Q := by
  unfold fillBounce
  rw [if_neg (by omega)]
  refine .ite (fun _ => cacheRead_spec hb (hQ _ (.inl rfl))) fun h => .pure ?_
  exact hQ _ (.inr (by omega))

/-- What a run of the write loop leaves: the request is carried out, or there was no
memory for the bounce buffer and nothing has happened. -/
def LoopWritten (s : FileSys) (x : BlockSector) (n offset size written : ℕ) (bounce : Bool)
    (buffer : ℕ → UInt8) (r : ℕ) (t : FileSys) : Prop :=
  ∃ c h, t = { s with content := c, heap := h } ∧ (s.MemAvailable ∨ bounce = true → h = s.heap) ∧
    (r = written + size ∧ Overwritten s.content c x n offset size (fun k => buffer (written + k)) ∨
      r = written ∧ c = s.content ∧ bounce = false ∧ s.heap 0 = false)

variable {inode : Inode} {buffer : ℕ → UInt8}

theorem writeLoop_spec
    (hn : n ≤ maxBlocks) (fuel : ℕ) : ∀ (size offset written : ℕ) (bounce : Bool) (s : FileSys),
    Mapped s inode.sector n →
    512 * ((n : ℤ) - 1) ≤ (inodeAt s.content inode.sector).length → size < fuel →
    (0 < size → (offset : ℤ) ≤ (inodeAt s.content inode.sector).length) →
    offset + size ≤ 512 * n →
    Spec E (writeLoop inode buffer fuel size offset written bounce) s
      (LoopWritten s inode.sector n offset size written bounce buffer) := by
  induction fuel with
  | zero => intro size offset written bounce s _ _ hfuel; omega
  | succ fuel ih =>
    intro size offset written bounce s hmap hlast hfuel hstart hend
    rw [writeLoop]
    by_cases hzero : (size : ℤ) ≤ 0
    · rw [if_pos hzero]
      have : size = 0 := by omega
      subst this
      exact .pure ⟨_, _, rfl, fun _ => rfl, .inl ⟨rfl, overwritten_zero _ _ _ _ _⟩⟩
    rw [if_neg hzero]
    obtain ⟨m, hm, hpos, hle, hsector, hlastChunk⟩ :=
      writeChunkSize_cases offset (show 0 < size by omega)
    have hblock : offset / 512 < n := by omega
    refine .bind (hmap.byteToSector_spec hn hblock (hstart (by omega)) ?_)
    rw [hm]
    refine .bind (bounceBuffer_spec (fun h hheap => ?_) fun h hbounce hmem => ?_)
    · -- the chunk is written, the rest is the induction hypothesis
      have hb := hmap.has_block _ hblock
      refine .bind (fillBounce_spec hb hsector fun base hbase => ?_)
      refine .bind (cacheWrite_spec hb ?_)
      have hchunk : Overwritten _ _ _ n offset m fun k => buffer (written + k) :=
        overwritten_chunk hmap hblock hsector hbase
      have hsame := hmap.sameMap hchunk.1
      have hlength := congrArg InodeDisk.length hsame.inodeAt
      have hmax : offset + size < 2147483648 := by unfold maxBlocks at hn; omega
      rw [wrap32_eq (by omega) (by omega), ← Nat.cast_sub hle]
      refine (ih (size - m) (offset + m) (written + m) true _ ?_ ?_ (by omega) ?_
        (by omega)).post ?_
      · exact hmap.of_sameMap rfl hsame
      · exact hlast.trans hlength.ge
      · intro hmore
        exact le_trans (by omega) (hlast.trans hlength.ge)
      · rintro r t ⟨c, h', rfl, hheap', hresult⟩
        refine ⟨c, h', rfl, fun hmem => (hheap' (.inr rfl)).trans (hheap hmem), .inl ?_⟩
        rcases hresult with ⟨hr, hover⟩ | ⟨_, _, hfalse, _⟩
        · refine ⟨by omega, ?_⟩
          have := Overwritten.trans hsame hchunk (hover.congr fun k => by rw [add_assoc])
          rwa [Nat.add_sub_cancel' hle] at this
        · simp at hfalse
    · refine .pure ⟨_, h, rfl, fun havail => ?_, .inr ⟨rfl, rfl, hbounce, hmem⟩⟩
      rcases havail with havail | havail
      · exact absurd hmem (by rw [havail]; simp)
      · simp [hbounce] at havail

/-! ## `inode_write_at` in place -/

/-- The number of blocks `allocate_blocks` gives a file of this length. -/
def capacity (length : ℤ) : ℕ := max 1 (blockCount length)

theorem bytesToSectors_natCast {k : ℕ} (hk : k < 2147483137) :
    bytesToSectors k = (k + 511) / 512 := by
  unfold bytesToSectors
  rw [wrap32_eq (by omega) (by omega), Int.tdiv_eq_ediv_of_nonneg (by omega)]
  omega

theorem sectorsOrOne_natCast {k : ℕ} (hk : k < 2147483136) :
    sectorsOrOne k = ((max 1 ((k + 511) / 512) : ℕ) : ℤ) := by
  unfold sectorsOrOne
  rw [bytesToSectors_natCast (by omega)]
  split
  · omega
  · rw [wrap32_eq (by omega) (by omega)]
    omega

theorem sectorsOrOne_length {length : ℤ} (hlow : 0 ≤ length) (hhigh : length < 2147483136) :
    sectorsOrOne length = capacity length := by
  obtain ⟨k, rfl⟩ := Int.eq_ofNat_of_zero_le hlow
  exact sectorsOrOne_natCast (by omega)

/-- A write that ends within the blocks of the file does not resize it. -/
theorem inodeWriteAtWith_inPlace {resizeInode : ℤ → Bool → Fs Bool} (hmap : Mapped s inode.sector n)
    (hn : n ≤ maxBlocks) (hlast : 512 * ((n : ℤ) - 1) ≤ (inodeAt s.content inode.sector).length)
    (hlow : 0 ≤ (inodeAt s.content inode.sector).length)
    (hhigh : (inodeAt s.content inode.sector).length < 2147483136)
    (hcap : n ≤ capacity (inodeAt s.content inode.sector).length) (hdeny : inode.denyWriteCnt = 0)
    (hstart : 0 < size → (offset : ℤ) ≤ (inodeAt s.content inode.sector).length)
    (hend : offset + size ≤ 512 * n) :
    Spec E (inodeWriteAtWith resizeInode inode buffer size offset) s
      (LoopWritten s inode.sector n offset size 0 false buffer) := by
  unfold inodeWriteAtWith
  refine .bind (cacheRead_spec hmap.has_inode ?_)
  change Spec E (if inode.denyWriteCnt ≠ 0 then _ else if sectorsOrOne
    (inodeAt s.content inode.sector).length < _ then _ else _) s _
  have hmax : offset + size < 2147483136 := by unfold maxBlocks at hn; omega
  have hnoResize : ¬ sectorsOrOne (inodeAt s.content inode.sector).length <
      sectorsOrOne (wrap32 ((offset : ℤ) + size)) := by
    rw [wrap32_eq (by omega) (by omega), ← Nat.cast_add, sectorsOrOne_natCast hmax,
      sectorsOrOne_length hlow hhigh]
    have : capacity (inodeAt s.content inode.sector).length ≥ 1 := le_max_left _ _
    omega
  rw [if_neg (not_not.mpr hdeny), if_neg hnoResize]
  exact writeLoop_spec hn _ size offset 0 false s hmap hlast (by omega) hstart hend

/-! ## The read loop -/

def fileBytes (c : BlockSector → Sector) (x : BlockSector) (offset size : ℕ) : List UInt8 :=
  (List.range size).map fun k => fileByte c x (offset + k)

theorem length_fileBytes (c : BlockSector → Sector) (x : BlockSector) (offset size : ℕ) :
    (fileBytes c x offset size).length = size := by
  simp [fileBytes]

theorem fileBytes_append (c : BlockSector → Sector) (x : BlockSector) (offset first second : ℕ) :
    fileBytes c x offset first ++ fileBytes c x (offset + first) second =
      fileBytes c x offset (first + second) := by
  simp only [fileBytes, range_add, map_append, map_map]
  congr 1
  apply map_congr_left
  intro k _
  simp [add_assoc]

theorem slice_block (h : offset % 512 + size ≤ 512) :
    slice (c (blockAt c x (offset / 512))) (offset % 512) size = fileBytes c x offset size := by
  unfold slice fileBytes fileByte
  apply map_congr_left
  intro k hk
  have hk : k < size := mem_range.mp hk
  have hdiv : (offset + k) / 512 = offset / 512 := by omega
  have hmod : (offset + k) % 512 = offset % 512 + k := by omega
  rw [hdiv, hmod]

/-- The size of a chunk of the read loop: nothing at the end of the file. -/
theorem readChunkSize_cases {length : ℕ} (hoffset : offset ≤ length)
    (hsize : 0 < size) : ∃ m : ℕ, readChunkSize length size offset = (m : ℤ) ∧ m ≤ size ∧
      offset + m ≤ length ∧ offset % 512 + m ≤ 512 ∧ (m = 0 → offset = length) := by
  unfold readChunkSize
  rw [natCast_tmod_512]
  dsimp only
  refine ⟨min size (min (length - offset) (512 - offset % 512)), ?_, ?_, ?_, ?_, ?_⟩
  · split <;> split <;> omega
  all_goals omega

theorem readBounce_spec {b : BlockSector} {ofs : ℕ} {Q : List UInt8 → FileSys → Prop} (hb : s.Has b)
    (hQ : Q (slice (s.content b) ofs size) s) : Spec E (readBounce b ofs size) s Q := by
  unfold readBounce
  exact .bind (cacheRead_spec hb (Spec.pure hQ))

/-- What a run of the read loop returns: as many bytes as asked for and present, or
fewer if there is no memory for the bounce buffer. -/
def LoopRead (s : FileSys) (x : BlockSector) (offset size : ℕ) (bounce : Bool)
    (read r : List UInt8) (t : FileSys) : Prop :=
  ∃ h m, t = { s with heap := h } ∧ r = read ++ fileBytes s.content x offset m ∧
    (s.MemAvailable ∨ bounce = true → h = s.heap ∧
      m = min size ((inodeAt s.content x).length.toNat - offset))

/-- The blocks that the length of a file covers form an array. -/
structure Stored (s : FileSys) (x : BlockSector) : Prop where
  length_nonneg : 0 ≤ (inodeAt s.content x).length
  length_le : (inodeAt s.content x).length ≤ maxInodeSize
  mapped : Mapped s x (blockCount (inodeAt s.content x).length)

/-- A well-formed inode.  Its blocks form an array, and the device has the index blocks
that `byte_to_sector` reads for the position at its very end, where `inode_read_at`
looks once more before it stops. -/
structure WellFormed (s : FileSys) (x : BlockSector) : Prop extends Stored s x where
  path_end : PathOk s x (inodeAt s.content x).length

theorem Stored.of_sameMap {t : FileSys} (h : Stored s x) (hsize : t.size = s.size)
    (hsame : SameMap s.content t.content x (blockCount (inodeAt s.content x).length)) :
    Stored t x := by
  refine ⟨?_, ?_, ?_⟩
  · rw [hsame.inodeAt]
    exact h.length_nonneg
  · rw [hsame.inodeAt]
    exact h.length_le
  · rw [hsame.inodeAt]
    exact h.mapped.of_sameMap hsize hsame

theorem Stored.of_heap (hread : Stored s x) (h : ℕ → Bool) : Stored { s with heap := h } x :=
  hread.of_sameMap rfl ⟨rfl, fun _ _ _ _ => rfl⟩

/-- One chunk read and appended, then the rest of the request. -/
theorem LoopRead.chunk {m : ℕ} {bounce : Bool} {read r : List UInt8} {t : FileSys}
    {h : ℕ → Bool} (hheap : s.MemAvailable ∨ bounce = true → h = s.heap)
    (hle : m ≤ size) (hend : offset + m ≤ (inodeAt s.content x).length.toNat) (bounce' : Bool)
    (hbounce : bounce = true → bounce' = true)
    (hrest : LoopRead { s with heap := h } x (offset + m) (size - m) bounce'
      (read ++ fileBytes s.content x offset m) r t) :
    LoopRead s x offset size bounce read r t := by
  obtain ⟨h', k, rfl, rfl, hall⟩ := hrest
  refine ⟨h', m + k, rfl, ?_, fun hmem => ?_⟩
  · rw [append_assoc, fileBytes_append]
  · have hsame := hheap hmem
    obtain ⟨hh, hk⟩ := hall (hmem.imp (fun hm => hsame.trans hm) hbounce)
    refine ⟨hh.trans hsame, ?_⟩
    simp only at hk
    omega

theorem readLoop_spec (fuel : ℕ) :
    ∀ (size offset : ℕ) (bounce : Bool) (read : List UInt8) (s : FileSys),
    Stored s inode.sector → size < fuel →
    (offset : ℤ) ≤ (inodeAt s.content inode.sector).length →
    ((inodeAt s.content inode.sector).length < offset + size →
      PathOk s inode.sector (inodeAt s.content inode.sector).length) →
    Spec E (readLoop inode fuel size offset bounce read) s
      (LoopRead s inode.sector offset size bounce read) := by
  induction fuel with
  | zero => intro size offset bounce read s _ hfuel; omega
  | succ fuel ih =>
    intro size offset bounce read s hread hfuel hoffset hprobe
    obtain ⟨length, hlength⟩ := Int.eq_ofNat_of_zero_le hread.length_nonneg
    have hmax := hread.length_le
    unfold maxInodeSize at hmax
    rw [readLoop]
    by_cases hzero : (size : ℤ) ≤ 0
    · rw [if_pos hzero]
      exact .pure ⟨_, 0, rfl, by simp [fileBytes], fun _ => ⟨rfl, by omega⟩⟩
    rw [if_neg hzero]
    obtain ⟨m, hm, hle, hend, hsector, hempty⟩ :=
      readChunkSize_cases (show offset ≤ length by omega) (show 0 < size by omega)
    -- the block is inside the file, or this is the look-up at its end
    have hpath : PathOk s inode.sector offset := by
      by_cases hlt : offset < length
      · refine ⟨hread.mapped.has_inode, fun _ _ _ => hread.mapped.has_path _ ?_⟩
        rw [hlength]
        unfold blockCount
        omega
      · rw [hlength] at hprobe
        rw [show offset = length by omega]
        exact hprobe (by omega)
    refine .bind (byteToSector_rule (.inl hpath) ?_)
    refine .bind (inodeLength_spec hread.mapped.has_inode ?_)
    rw [hlength, hm]
    by_cases hm0 : (m : ℤ) ≤ 0
    · rw [if_pos hm0]
      have := hempty (show m = 0 by omega)
      refine .pure ⟨_, 0, rfl, by simp [fileBytes], fun _ => ⟨rfl, ?_⟩⟩
      rw [hlength, this]
      simp
    rw [if_neg hm0]
    have hblock : offset / 512 < blockCount (inodeAt s.content inode.sector).length := by
      unfold blockCount
      omega
    have hsec : sectorOf s.content inode.sector offset =
        blockAt s.content inode.sector (offset / 512) := by
      unfold sectorOf maxInodeSize
      rw [if_pos (by omega), if_pos (by omega)]
      congr 1
    have hend' : offset + m ≤ (inodeAt s.content inode.sector).length.toNat := by
      rwa [hlength]
    have hhas := hread.mapped.has_block _ hblock
    have hnext : ((offset + m : ℕ) : ℤ) ≤ (inodeAt s.content inode.sector).length := by
      rw [hlength]
      exact_mod_cast hend
    rw [hsec, ← Nat.cast_sub hle, ← Nat.cast_add]
    -- the rest of the loop, after the chunk has been appended
    have hrest : ∀ h bounce', (s.MemAvailable ∨ bounce = true → h = s.heap) →
        (bounce = true → bounce' = true) →
        Spec E (readLoop inode fuel ((size - m : ℕ) : ℤ) ((offset + m : ℕ) : ℤ) bounce'
          (read ++ fileBytes s.content inode.sector offset m)) { s with heap := h }
          (LoopRead s inode.sector offset size bounce read) := by
      intro h bounce' hheap hbounce
      refine (ih _ _ bounce' _ _ (hread.of_heap h) (by omega) hnext
        fun hlt => hprobe (by push_cast [Nat.cast_sub hle] at hlt; omega)).post fun r t hr => ?_
      exact LoopRead.chunk hheap hle hend' bounce' hbounce hr
    refine .ite (fun hfull => ?_) fun hpart => ?_
    · refine .bind (cacheRead_spec hhas ?_)
      have hslice := slice_block (c := s.content) (x := inode.sector) hsector
      rw [show offset % 512 = 0 by omega, show m = 512 by omega] at hslice
      rw [hslice]
      have := hrest s.heap bounce (fun _ => rfl) id
      rwa [show fileBytes s.content inode.sector offset m =
        fileBytes s.content inode.sector offset 512 by rw [show m = 512 by omega]] at this
    refine .bind (bounceBuffer_spec (fun h hheap => ?_) fun h hbounce hmem => ?_)
    · simp only [Bool.not_true]
      refine .bind (readBounce_spec (s := { s with heap := h }) hhas ?_)
      rw [slice_block hsector]
      exact hrest h true hheap fun _ => rfl
    · refine .pure ⟨h, 0, rfl, by simp [fileBytes], fun havail => ?_⟩
      rcases havail with havail | havail
      · exact absurd hmem (by rw [havail]; simp)
      · simp [hbounce] at havail

/-! ## `inode_read_at` -/

/-- Reading returns the bytes of the file between `offset` and the end of the request
or of the file. -/
theorem inodeReadAt_spec (hread : Stored s inode.sector)
    (hprobe : (inodeAt s.content inode.sector).length <
        offset + min (inodeAt s.content inode.sector).length size →
      PathOk s inode.sector (inodeAt s.content inode.sector).length) :
    Spec E (inodeReadAt inode size offset) s (LoopRead s inode.sector offset size false []) := by
  refine .bind (cacheRead_spec hread.mapped.has_inode ?_)
  change Spec E (if (inodeAt s.content inode.sector).length ≤ offset then _ else
    readLoop inode ((if (inodeAt s.content inode.sector).length < size then
      (inodeAt s.content inode.sector).length else size).toNat + 1)
      (if (inodeAt s.content inode.sector).length < size then
        (inodeAt s.content inode.sector).length else size) offset false []) s _
  obtain ⟨length, hlength⟩ := Int.eq_ofNat_of_zero_le hread.length_nonneg
  refine .ite (fun hpast => .pure ⟨_, 0, rfl, by simp [fileBytes], fun _ => ⟨rfl, ?_⟩⟩)
    fun hin => ?_
  · rw [hlength] at hpast ⊢
    omega
  have hsize : (if (inodeAt s.content inode.sector).length < size then
      (inodeAt s.content inode.sector).length else size) = ((min length size : ℕ) : ℤ) := by
    split <;> omega
  rw [hsize]
  refine (readLoop_spec _ _ _ _ _ s hread (by omega) (by omega) fun hlt => hprobe ?_).post ?_
  · rw [hlength] at hlt ⊢
    omega
  rintro r t ⟨h, m, rfl, hr, hall⟩
  refine ⟨h, m, rfl, hr, fun hmem => ⟨(hall hmem).1, ?_⟩⟩
  have := (hall hmem).2
  rw [hlength] at this ⊢
  omega

/-! ## In-place input and output -/

section

variable (hwf : Stored s inode.sector) (hdeny : inode.denyWriteCnt = 0)
  (hend : ((offset + size : ℕ) : ℤ) ≤ (inodeAt s.content inode.sector).length)
include hwf hdeny hend

/-- A request that ends within the file, seen as a request on its block array. -/
theorem Stored.inodeWriteAtWith_spec {resizeInode : ℤ → Bool → Fs Bool} :
    Spec E (inodeWriteAtWith resizeInode inode buffer size offset) s
      (LoopWritten s inode.sector (blockCount (inodeAt s.content inode.sector).length) offset size
        0 false buffer) := by
  obtain ⟨length, hlength⟩ := Int.eq_ofNat_of_zero_le hwf.length_nonneg
  have hmax := hwf.length_le
  unfold maxInodeSize at hmax
  refine inodeWriteAtWith_inPlace hwf.mapped ?_ ?_ hwf.length_nonneg (by omega)
    (le_max_right _ _) hdeny (fun _ => by omega) ?_
  all_goals
    unfold blockCount
    try unfold maxBlocks
    omega

theorem Stored.inodeWriteAt_spec : Spec E (inodeWriteAt inode buffer size offset) s
      (LoopWritten s inode.sector (blockCount (inodeAt s.content inode.sector).length) offset size
        0 false buffer) :=
  Spec.get_bind (hwf.inodeWriteAtWith_spec hdeny hend)

end

/-- The inode of a file of five bytes, stored in sector 3. -/
def smallInodeDisk : InodeDisk := ⟨fun _ => 3, 0, 0, 5, inodeMagic, fun _ => 0⟩

/-- A disk of four sectors with this inode in sector 2. -/
def smallDisk : FileSys where
  size := 4
  size_lt := by decide
  content y := if y = 2 then smallInodeDisk.encode else Sector.zeros
  freeMap _ := true
  freeMapFile := none
  openInodes := [⟨2, 1, false, 0⟩]
  heap _ := true

/-- The blocks of a file without index blocks form an array. -/
theorem Stored.of_direct {d : InodeDisk} (hd : inodeAt s.content x = d) (hx : s.Has x)
    (hsize : 0 ≤ d.length ∧ d.length ≤ 12 * 512)
    (hhas : ∀ i : Fin 12, i < blockCount d.length → s.Has (d.direct i) ∧ d.direct i ≠ x)
    (hinj : ∀ i j : Fin 12, i < blockCount d.length → j < blockCount d.length →
      d.direct i = d.direct j → i = j) : Stored s x := by
  subst hd
  have hlt : ∀ k < blockCount (inodeAt s.content x).length, k < 12 := by
    unfold blockCount
    omega
  have hblock : ∀ k (hk : k < 12),
      blockAt s.content x k = (inodeAt s.content x).direct ⟨k, hk⟩ := by
    intro k hk
    rw [blockAt, InodeDisk.block, if_pos hk, entry_eq _ hk]
  have hpath : ∀ k < 12, pathTo s.content x k = [] := fun k hk => if_pos hk
  refine ⟨hsize.1, hsize.2.trans (by decide), hx, fun k hk => by simp [hpath k (hlt k hk)],
    fun k hk => ?_, fun j hj k hk heq => ?_, fun k hk => ?_, fun j _ k hk => by
      simp [hpath k (hlt k hk)]⟩
  · rw [hblock k (hlt k hk)]
    exact (hhas ⟨k, hlt k hk⟩ hk).1
  · rw [hblock j (hlt j hj), hblock k (hlt k hk)] at heq
    exact congrArg Fin.val (hinj ⟨j, hlt j hj⟩ ⟨k, hlt k hk⟩ hj hk heq)
  · rw [hblock k (hlt k hk)]
    exact (hhas ⟨k, hlt k hk⟩ hk).2

end CS162
