import CS162.Filesys.Inode

/-!
# The block map of an inode

What `byte_to_sector` computes, as a function of the disk.  `blockAt c x k` is the
sector of block `k` of the inode in sector `x`, and `pathTo c x k` lists the index
blocks that have to be read to find it.

`Mapped s x n` says that the first `n` blocks of an inode can be used like an array:
they are on the device, distinct from each other, and none of them is the inode or an
index block.  As long as only such blocks are written, the map stays the same
(`SameMap`).
-/

namespace CS162

open Library FileSys List

namespace InodeDisk

variable (data : InodeDisk) (c : BlockSector → Sector)

def block (k : ℕ) : BlockSector :=
  if k < 12 then entry data.direct k
  else if k < 140 then (c data.indirect).words (k - 12)
  else (c ((c data.doublyIndirect).words ((k - 140) / 128))).words ((k - 140) % 128)

/-- The index blocks read on the way to block `k`. -/
def path (k : ℕ) : List BlockSector :=
  if k < 12 then []
  else if k < 140 then [data.indirect]
  else [data.doublyIndirect, (c data.doublyIndirect).words ((k - 140) / 128)]

/-- The index blocks of the first `n` blocks: the indirect block, the doubly indirect
block and the second-level blocks it lists. -/
def indexBlocks (n : ℕ) : List BlockSector :=
  (if 12 < n then [data.indirect] else []) ++
    if 140 < n then data.doublyIndirect ::
      (List.range ((n - 140 + 127) / 128)).map fun j => (c data.doublyIndirect).words j
    else []

end InodeDisk

section Definitions

variable (c : BlockSector → Sector) (x : BlockSector)

def inodeAt : InodeDisk := .decode (c x)

def blockAt (k : ℕ) : BlockSector := (inodeAt c x).block c k

/-- The index blocks of block `k` of the inode in sector `x`. -/
def pathTo (k : ℕ) : List BlockSector := (inodeAt c x).path c k

/-- The largest number of blocks an inode maps, `MAX_INODE_SIZE / 512`. -/
def maxBlocks : ℕ := 16384

/-- The sector `byte_to_sector` returns. -/
def sectorOf (pos : ℤ) : BlockSector :=
  if pos ≤ (inodeAt c x).length then
    if 0 ≤ pos ∧ pos < maxInodeSize then blockAt c x (pos / 512).toNat else 0
  else 1

def fileByte (p : ℕ) : UInt8 := entry (c (blockAt c x (p / 512))) (p % 512)

def blockCount (length : ℤ) : ℕ := (length.toNat + 511) / 512

end Definitions

variable {s : FileSys} {c c' : BlockSector → Sector} {x : BlockSector} {n : ℕ}

/-! ## Sectors as arrays of words -/

@[simp] theorem words_ofWords (w : ℕ → UInt32) {i : ℕ} (hi : i < 128) :
    (Sector.ofWords w).words i = w i := by
  have hentry : ∀ k < 4, entry (Sector.ofWords w) (4 * i + k) = Library.ofWords w (4 * i + k) := by
    intro k hk
    rw [entry_eq _ (show 4 * i + k < 512 by omega)]
    rfl
  rw [Sector.words, wordAt_congr hentry, wordAt_ofWords]

/-- An inode is read back from its sector as it was written. -/
theorem decode_encode {data : InodeDisk} (hlow : -2147483648 ≤ data.length)
    (hhigh : data.length < 2147483648) : InodeDisk.decode data.encode = data := by
  have hwords : ∀ i < 128, data.encode.words i = data.toWords i := fun i hi => words_ofWords _ hi
  obtain ⟨direct, indirect, doublyIndirect, length, magic, unused⟩ := data
  rw [InodeDisk.decode, InodeDisk.mk.injEq]
  refine ⟨?_, ?_, ?_, ?_, ?_, ?_⟩
  · funext i
    rw [hwords _ (by omega)]
    simp [InodeDisk.toWords]
  · rw [hwords _ (by omega)]
    simp [InodeDisk.toWords]
  · rw [hwords _ (by omega)]
    simp [InodeDisk.toWords]
  · rw [hwords _ (by omega)]
    simpa [InodeDisk.toWords] using intOfWord_wordOfInt hlow hhigh
  · rw [hwords _ (by omega)]
    simp [InodeDisk.toWords]
  · funext i
    rw [hwords _ (by omega)]
    have hi : ¬ 16 + i.val < 12 ∧ 16 + i.val ≠ 12 ∧ 16 + i.val ≠ 13 ∧ 16 + i.val ≠ 14 ∧
        16 + i.val ≠ 15 := by omega
    simp only [InodeDisk.toWords, hi, dite_false, if_false, Nat.add_sub_cancel_left, entry_eq,
      i.isLt, Fin.eta]

/-! ## `byte_to_sector` -/

/-- The sectors `byte_to_sector` reads are on the device. -/
def PathOk (s : FileSys) (x : BlockSector) (pos : ℤ) : Prop :=
  s.Has x ∧ (pos ≤ (inodeAt s.content x).length → 0 ≤ pos → pos < maxInodeSize →
    ∀ y ∈ pathTo s.content x (pos / 512).toNat, s.Has y)

theorem byteToSector_rule {E : Fault → Prop} {inode : Inode} {pos : ℤ}
    {Q : BlockSector → FileSys → Prop}
    (hE : PathOk s inode.sector pos ∨ E (.panic "Access past end of device"))
    (hQ : Q (sectorOf s.content inode.sector pos) s) : Spec E (byteToSector inode pos) s Q := by
  -- a read on the path is of a sector the device has, or the fault is allowed
  have hread : ∀ {y : BlockSector} {R : Sector → FileSys → Prop},
      (PathOk s inode.sector pos → s.Has y) → R (s.content y) s →
      Spec E (cacheRead y) s R := fun hy hR =>
    cacheRead_rule (fun _ => hR) fun hnot => hE.resolve_left fun hok => hnot (hy hok)
  refine .bind (hread (fun hok => hok.1) ?_)
  change Spec E (if pos ≤ (inodeAt s.content inode.sector).length then _ else _) s Q
  unfold sectorOf at hQ
  refine .ite (fun hlen => ?_) fun hlen => .pure (by rwa [if_neg hlen] at hQ)
  rw [if_pos hlen] at hQ
  have hpath : ∀ {y : BlockSector}, 0 ≤ pos → pos < maxInodeSize →
      y ∈ pathTo s.content inode.sector (pos / 512).toNat →
      PathOk s inode.sector pos → s.Has y :=
    fun hlow hhigh hy hok => hok.2 hlen hlow hhigh _ hy
  unfold maxInodeSize at hQ hpath ⊢
  split
  next hdirect =>
    have hk : (pos / 512).toNat < 12 := by omega
    apply Spec.pure
    rwa [if_pos (by omega), blockAt, InodeDisk.block, if_pos hk, entry_eq _ hk] at hQ
  next hdirect =>
    split
    next hindirect =>
      have hk : ¬ (pos / 512).toNat < 12 := by omega
      have hk' : (pos / 512).toNat < 140 := by omega
      refine .bind (hread (hpath (by omega) (by omega) ?_) ?_)
      · simp [pathTo, InodeDisk.path, hk, hk', inodeAt]
      · apply Spec.pure
        rw [if_pos (by omega), blockAt, InodeDisk.block, if_neg hk, if_pos hk'] at hQ
        rwa [show ((pos - 12 * 512) / 512).toNat = (pos / 512).toNat - 12 by omega]
    next hindirect =>
      split
      next hdoubly =>
        have hk : ¬ (pos / 512).toNat < 12 := by omega
        have hk' : ¬ (pos / 512).toNat < 140 := by omega
        have hi : ((pos - (12 + 128) * 512) / (128 * 512)).toNat =
            ((pos / 512).toNat - 140) / 128 := by omega
        have hj : ((pos - (12 + 128) * 512) / 512 % (128 * 512) % 128).toNat =
            ((pos / 512).toNat - 140) % 128 := by omega
        refine .bind (hread (hpath (by omega) (by omega) ?_) ?_)
        · simp [pathTo, InodeDisk.path, hk, hk', inodeAt]
        refine .bind (hread (hpath (by omega) (by omega) ?_) ?_)
        · rw [hi]
          simp [pathTo, InodeDisk.path, hk, hk', inodeAt]
        · apply Spec.pure
          rw [if_pos (by omega), blockAt, InodeDisk.block, if_neg hk, if_neg hk'] at hQ
          rwa [hi, hj]
      next hdoubly =>
        apply Spec.pure
        rwa [if_neg (by omega)] at hQ

theorem inodeLength_spec {E : Fault → Prop} {inode : Inode} {Q : ℤ → FileSys → Prop}
    (h : s.Has inode.sector) (hQ : Q (inodeAt s.content inode.sector).length s) :
    Spec E (inodeLength inode) s Q :=
  Spec.bind (cacheRead_spec h (Spec.pure hQ))

/-! ## Block maps that can be used like an array -/

/-- The inode and the index blocks of the first `n` blocks are the same on both disks. -/
def SameMap (c c' : BlockSector → Sector) (x : BlockSector) (n : ℕ) : Prop :=
  c' x = c x ∧ ∀ k < n, ∀ y ∈ pathTo c x k, c' y = c y

theorem SameMap.inodeAt (h : SameMap c c' x n) : inodeAt c' x = inodeAt c x := by
  rw [CS162.inodeAt, h.1]
  rfl

theorem InodeDisk.path_congr {data : InodeDisk} {k : ℕ}
    (h : ∀ y ∈ data.path c k, c' y = c y) : data.path c' k = data.path c k := by
  unfold InodeDisk.path at h ⊢
  by_cases h1 : k < 12
  · simp only [if_pos h1]
  · by_cases h2 : k < 140
    · simp only [if_pos h2]
    · simp only [if_neg h1, if_neg h2] at h ⊢
      rw [h data.doublyIndirect (by simp)]

theorem InodeDisk.block_congr {data : InodeDisk} {k : ℕ}
    (h : ∀ y ∈ data.path c k, c' y = c y) : data.block c' k = data.block c k := by
  unfold InodeDisk.path at h
  unfold InodeDisk.block
  by_cases h1 : k < 12
  · simp only [if_pos h1]
  · by_cases h2 : k < 140
    · simp only [if_neg h1, if_pos h2] at h ⊢
      rw [h data.indirect (by simp)]
    · simp only [if_neg h1, if_neg h2] at h ⊢
      rw [h data.doublyIndirect (by simp), h _ (mem_cons_of_mem _ (mem_singleton.mpr rfl))]

theorem InodeDisk.mem_indexBlocks {data : InodeDisk} {y : BlockSector} :
    y ∈ data.indexBlocks c n ↔ ∃ k < n, y ∈ data.path c k := by
  unfold InodeDisk.indexBlocks InodeDisk.path
  constructor
  · intro hy
    rcases mem_append.mp hy with hy | hy
    · split at hy
      · exact ⟨12, by omega, by simpa using hy⟩
      · simp at hy
    split at hy
    swap
    · simp at hy
    rcases mem_cons.mp hy with rfl | hy
    · exact ⟨140, by omega, by simp⟩
    · obtain ⟨j, hj, rfl⟩ := mem_map.mp hy
      rw [mem_range] at hj
      refine ⟨140 + 128 * j, by omega, ?_⟩
      rw [if_neg (by omega), if_neg (by omega)]
      simp
  · rintro ⟨k, hk, hy⟩
    split at hy
    · simp at hy
    split at hy
    · rw [if_pos (by omega)]
      exact mem_append_left _ hy
    rw [if_pos (by omega : 140 < n)]
    refine mem_append_right _ ?_
    rcases mem_cons.mp hy with rfl | hy
    · simp
    · rw [mem_singleton.mp hy]
      exact mem_cons_of_mem _ (mem_map.mpr ⟨_, mem_range.mpr (by omega), rfl⟩)

theorem InodeDisk.indexBlocks_congr {data : InodeDisk}
    (h : ∀ k < n, ∀ y ∈ data.path c k, c' y = c y) :
    data.indexBlocks c' n = data.indexBlocks c n := by
  unfold InodeDisk.indexBlocks
  by_cases h140 : 140 < n
  · rw [h 140 h140 data.doublyIndirect (by simp [InodeDisk.path])]
  · rw [if_neg h140, if_neg h140]

theorem SameMap.pathTo (h : SameMap c c' x n) {k : ℕ} (hk : k < n) :
    pathTo c' x k = pathTo c x k := by
  unfold CS162.pathTo
  rw [h.inodeAt]
  exact InodeDisk.path_congr (h.2 k hk)

theorem SameMap.blockAt (h : SameMap c c' x n) {k : ℕ} (hk : k < n) :
    blockAt c' x k = blockAt c x k := by
  unfold CS162.blockAt
  rw [h.inodeAt]
  exact InodeDisk.block_congr (h.2 k hk)

theorem SameMap.trans {c'' : BlockSector → Sector} (h : SameMap c c' x n)
    (h' : SameMap c' c'' x n) : SameMap c c'' x n :=
  ⟨h'.1.trans h.1, fun k hk y hy => (h'.2 k hk y (h.pathTo hk ▸ hy)).trans (h.2 k hk y hy)⟩

theorem SameMap.symm (h : SameMap c c' x n) : SameMap c' c x n :=
  ⟨h.1.symm, fun k hk y hy => (h.2 k hk y (h.pathTo hk ▸ hy)).symm⟩

/-- The first `n` blocks of the inode in sector `x` form an array. -/
structure Mapped (s : FileSys) (x : BlockSector) (n : ℕ) : Prop where
  has_inode : s.Has x
  has_path : ∀ k < n, ∀ y ∈ pathTo s.content x k, s.Has y
  has_block : ∀ k < n, s.Has (blockAt s.content x k)
  inj : ∀ j < n, ∀ k < n, blockAt s.content x j = blockAt s.content x k → j = k
  ne_inode : ∀ k < n, blockAt s.content x k ≠ x
  notMem_path : ∀ j < n, ∀ k < n, blockAt s.content x j ∉ pathTo s.content x k

/-- A disk that differs only in the blocks themselves has the same map. -/
theorem Mapped.sameMap (h : Mapped s x n)
    (hframe : ∀ y, (∀ k < n, y ≠ blockAt s.content x k) → c' y = s.content y) :
    SameMap s.content c' x n := by
  refine ⟨hframe x fun k hk heq => h.ne_inode k hk heq.symm, fun k hk y hy => ?_⟩
  exact hframe y fun j hj heq => h.notMem_path j hj k hk (heq ▸ hy)

theorem Mapped.of_sameMap {t : FileSys} (h : Mapped s x n) (hsize : t.size = s.size)
    (hsame : SameMap s.content t.content x n) : Mapped t x n := by
  have hhas : ∀ y, s.Has y → t.Has y := fun y hy => by
    unfold FileSys.Has at hy ⊢
    rwa [hsize]
  refine ⟨hhas _ h.has_inode, fun k hk y hy => ?_, fun k hk => ?_, fun j hj k hk heq => ?_,
    fun k hk => ?_, fun j hj k hk => ?_⟩
  · rw [hsame.pathTo hk] at hy
    exact hhas y (h.has_path k hk y hy)
  · rw [hsame.blockAt hk]
    exact hhas _ (h.has_block k hk)
  · rw [hsame.blockAt hj, hsame.blockAt hk] at heq
    exact h.inj j hj k hk heq
  · rw [hsame.blockAt hk]
    exact h.ne_inode k hk
  · rw [hsame.blockAt hj, hsame.pathTo hk]
    exact h.notMem_path j hj k hk

theorem Mapped.mono {m : ℕ} (h : Mapped s x n) (hle : m ≤ n) : Mapped s x m where
  has_inode := h.has_inode
  has_path k hk := h.has_path k (by omega)
  has_block k hk := h.has_block k (by omega)
  inj j hj k hk := h.inj j (by omega) k (by omega)
  ne_inode k hk := h.ne_inode k (by omega)
  notMem_path j hj k hk := h.notMem_path j (by omega) k (by omega)

theorem Mapped.byteToSector_spec {E : Fault → Prop} {inode : Inode} {pos : ℕ}
    {Q : BlockSector → FileSys → Prop} (h : Mapped s inode.sector n) (hn : n ≤ maxBlocks)
    (hpos : pos / 512 < n) (hlen : (pos : ℤ) ≤ (inodeAt s.content inode.sector).length)
    (hQ : Q (blockAt s.content inode.sector (pos / 512)) s) :
    Spec E (byteToSector inode pos) s Q := by
  have hk : ((pos : ℤ) / 512).toNat = pos / 512 := by omega
  unfold maxBlocks at hn
  have hrange : 0 ≤ (pos : ℤ) ∧ (pos : ℤ) < maxInodeSize := by
    unfold maxInodeSize
    omega
  refine byteToSector_rule (.inl ⟨h.has_inode, fun _ _ _ => ?_⟩) ?_
  · rw [hk]
    exact h.has_path _ hpos
  · rwa [sectorOf, if_pos hlen, if_pos hrange]

end CS162
