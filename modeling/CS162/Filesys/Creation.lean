import CS162.Filesys.Ownership

/-!
# New files are zero

`inode_create` allocates the blocks of a new file and writes zeros to them through
`zero_out`, once for the direct blocks, once for the indirect block and once for each
second-level block.  `NewFileZeroed` says what the caller relies on: the blocks of the
new file are zero, nothing else that was in use is touched, and `zero_out` stays inside
the array of sector numbers it is given.

## Strategy

`inodeCreate_spec` describes every outcome.  `allocate_doubly_indirect_blocks` passes
the number of all its blocks to the `zero_out` of the last block, where the number that
is left would be right.  The two are equal if there is only one second-level block, and
the call is not made if the last second-level block is full; these are the lengths that
are `Zeroable`.  For all others the call leaves the array of 128 entries.
-/

namespace CS162

open Library FileSys List

variable {s : FileSys} {x : BlockSector} {length : ℤ}

/-- `inode_create` stays inside its arrays, and if it succeeds then the blocks of the new
file are zero and what was in use before is unchanged, the inode sector and the data of
the free map apart. -/
def NewFileZeroed (s : FileSys) (x : BlockSector) (length : ℤ) : Prop :=
  Returns (inodeCreate x length) s fun success t => success = true →
    (∀ k < capacity length, t.content (blockAt t.content x k) = Sector.zeros) ∧
      ∀ y, s.freeMap y.toNat = true → y ≠ x → ¬ MapData s y → t.content y = s.content y

theorem newFileZeroed_of_zeroable (hok : MapFileOk s) (hopen : s.freeMapFile.isSome) (hx : s.Has x)
    (hmarked : s.freeMap x.toNat = true) (hlow : 0 ≤ length) (hhigh : length ≤ maxInodeSize)
    (hzeroable : Zeroable (bytesToSectors length)) : NewFileZeroed s x length := by
  refine (inodeCreate_spec id hok (.inl hopen) hx hlow (.inl hzeroable)).post ?_
  rintro success t ⟨-, hdone⟩ hsuccess
  obtain ⟨hmax, -, D, I, d, u, rfl, hlen, halloc, hlaid, hzeros, rfl⟩ := hdone hsuccess
  have hcap := (capacity_eq hlow (lt_of_le_of_lt hhigh (by decide)) hmax).1
  -- the inode sector was in use, so it is none of the new blocks
  have hnew : x ∉ D ++ I := fun hmem => by
    have hfree := (halloc.fresh x hmem).2
    rw [hmarked] at hfree
    exact Bool.noConfusion hfree
  obtain ⟨-, hstored⟩ := hlaid.stored (x := x) (fun hI => hnew (mem_append_right _ hI)) hlow
    (lt_of_le_of_lt hhigh (by decide))
  refine ⟨fun k hk => ?_, fun y hy hne hdata => ?_⟩
  · rw [hcap, ← hlen] at hk
    have hmem := mem_of_getElem? (hstored.block k hk)
    have hne : ∀ y ∈ D, y ≠ x := fun y hy heq => hnew (mem_append_left _ (heq ▸ hy))
    exact (Function.update_of_ne (hne _ hmem) _ _).trans (hzeros _ hmem)
  · exact (Function.update_of_ne hne _ _).trans (halloc.keeps y hy hdata)

/-- If nothing is lacking, the call can only be right by reaching the end of `zero_out`. -/
theorem zeroable_of_newFileZeroed (hok : MapFileOk s) (hx : s.Has x) (hlow : 0 ≤ length)
    (hmax : bytesToSectors length ≤ maxBlocks) (hmem : s.MemAvailable)
    (hspace : ¬ Scarce s (sectorsNeeded (bytesToSectors length))) (h : NewFileZeroed s x length) :
    Zeroable (bytesToSectors length) := by
  obtain ⟨success, t, hrun, -⟩ := returns_iff.mp h
  have hspec := ensures_iff.mp (inodeCreate_spec (E := fun _ => True) (fun _ => trivial) hok
    (.inr trivial) hx hlow (.inr trivial)) success t hrun
  cases success with
  | false =>
    obtain ⟨A, hA⟩ := hspec.1 rfl
    exact absurd (hA.scarce hmax hmem) hspace
  | true => exact (hspec.2 rfl).2.1

/-- **New files read as zeros exactly if their length is zeroable.**  If it is, then the call
does what it should in every state; if it is not, then it goes wrong in every state that has
the memory and the sectors the file needs. -/
theorem inodeCreate_zeroed_iff (s : FileSys) (x : BlockSector) (length : ℤ) (hok : MapFileOk s)
    (hopen : s.freeMapFile.isSome) (hx : s.Has x) (hmarked : s.freeMap x.toNat = true)
    (hlow : 0 ≤ length) (hhigh : length ≤ maxInodeSize) :
    (Zeroable (bytesToSectors length) → NewFileZeroed s x length) ∧
      (s.MemAvailable → ¬ Scarce s (sectorsNeeded (bytesToSectors length)) →
        (NewFileZeroed s x length ↔ Zeroable (bytesToSectors length))) := by
  have hif := newFileZeroed_of_zeroable hok hopen hx hmarked hlow hhigh
  refine ⟨hif, fun hmem hspace => ⟨fun h => ?_, hif⟩⟩
  refine zeroable_of_newFileZeroed hok hx hlow ?_ hmem hspace h
  obtain ⟨k, rfl⟩ := Int.eq_ofNat_of_zero_le hlow
  unfold maxInodeSize at hhigh
  rw [bytesToSectors_natCast (by omega)]
  unfold maxBlocks
  omega

/-! ## A disk of 320 sectors -/

/-- The inode of the free map of this disk, with its data in sector 2. -/
def mountedMapInode : InodeDisk := { freshMapInode with length := 40 }

/-- A mounted disk on which sectors 0 to 3 are in use. -/
def mountedDisk : FileSys where
  size := 320
  size_lt := by decide
  content y :=
    if y = 0 then mountedMapInode.encode
    else if y = 2 then fun k => bitsByte (fun i => decide (i < 4)) k.val
    else Sector.zeros
  freeMap i := decide (i < 4)
  freeMapFile := some ⟨0, 1, false, 0⟩
  openInodes := [⟨0, 1, false, 0⟩]
  heap _ := true

theorem inodeAt_mountedDisk : inodeAt mountedDisk.content 0 = mountedMapInode :=
  decode_encode (by decide) (by decide)

theorem mapFileOk_mountedDisk : MapFileOk mountedDisk := by
  have hlength : (inodeAt mountedDisk.content 0).length = 40 := by
    rw [inodeAt_mountedDisk]
    rfl
  have hblock : ∀ k < 1, blockAt mountedDisk.content 0 k = 2 := fun k hk => by
    obtain rfl : k = 0 := by omega
    rfl
  refine ⟨fun fm hfm => ?_, fun fm hfm => ?_, fun fm hfm => ?_, fun fm hfm y hy => ?_⟩ <;> cases hfm
  · exact .of_direct inodeAt_mountedDisk (by decide) (by decide) (by decide) (by decide)
  · rw [hlength]
    rfl
  · rfl
  · rw [hlength] at hy
    rcases (owned_one hblock).mp hy with rfl | rfl <;> decide

theorem not_scarce_mountedDisk {n : ℕ} (hn : n ≤ 316) : ¬ Scarce mountedDisk n := by
  refine not_scarce (nodup_range' : (range' 4 316).Nodup) (fun i hi => ?_) (by rwa [length_range'])
  obtain ⟨hlow, hhigh⟩ := mem_range'_1.mp hi
  exact ⟨hhigh, decide_eq_false (by omega)⟩

/-- Three sectors for an array of twelve. -/
theorem freeMapAllocateArray_mountedDisk :
    Returns (freeMapAllocateArray freeMapOps 12 3 fun _ => 0) mountedDisk fun r t => r.1 = true ∧
      ∀ k < 3, mountedDisk.freeMap (r.2 k).toNat = false ∧ t.freeMap (r.2 k).toNat = true := by
  refine (freeMapAllocateArray_all_or_nothing mapFileOk_mountedDisk.fits rfl (by decide : 3 ≤ 12)
    fun _ => 0).post ?_
  rintro r t (⟨hr, hfree, -, -, hbits⟩ | ⟨-, -, hscarce⟩)
  · exact ⟨hr, fun k hk => ⟨(hfree k hk).2, (hbits _).mpr (.inr ⟨k, hk, rfl⟩)⟩⟩
  · exact absurd (hscarce rfl) (not_scarce_mountedDisk (by decide))

/-- A file of two blocks is zero, one of 269 is not. -/
theorem inodeCreate_zeroed_iff_mountedDisk :
    NewFileZeroed mountedDisk 3 1000 ∧ ¬ NewFileZeroed mountedDisk 3 137728 := by
  have hsmall := inodeCreate_zeroed_iff mountedDisk 3 1000 mapFileOk_mountedDisk rfl (by decide)
    (by decide) (by decide) (by decide)
  have hlarge := inodeCreate_zeroed_iff mountedDisk 3 137728 mapFileOk_mountedDisk rfl (by decide)
    (by decide) (by decide) (by decide)
  exact ⟨hsmall.1 (by decide +kernel), fun h => absurd
    ((hlarge.2 rfl (not_scarce_mountedDisk (by decide +kernel))).mp h) (by decide +kernel)⟩

/-- The second second-level block of a file of 269 blocks has one entry; `zero_out` is told to
take 129 entries of the array of 128. -/
theorem zeroOut_leaves_array : MapFileOk mountedDisk ∧ mountedDisk.MemAvailable ∧
    ¬ Scarce mountedDisk (sectorsNeeded (bytesToSectors 137728)) ∧
      ¬ NewFileZeroed mountedDisk 3 137728 := by
  have hspace : ¬ Scarce mountedDisk (sectorsNeeded (bytesToSectors 137728)) :=
    not_scarce_mountedDisk (by decide +kernel)
  refine ⟨mapFileOk_mountedDisk, rfl, hspace, fun h => ?_⟩
  have hzeroable := zeroable_of_newFileZeroed mapFileOk_mountedDisk (by decide) (by decide)
    (by decide +kernel) rfl hspace h
  exact absurd hzeroable (by decide +kernel)

end CS162
