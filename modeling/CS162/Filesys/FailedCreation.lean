import CS162.Filesys.DirectoryLaws
import CS162.Filesys.Reclaim

/-!
# A creation that fails

`filesys_create` allocates a sector, creates an inode there and enters it in a directory.
If a step fails, it gives the inode sector back, and nothing else.  The blocks that
`inode_create` has allocated before the disk was full, or before the directory refused the
name, stay marked for ever.

## Strategy

`filesysCreate_spec` describes every outcome by the list `A` of the sectors that have been
taken and not given back.  The list is empty if already the inode sector or the direct
blocks could not be allocated, or if the size is refused outright; otherwise the direct
blocks are in it.  So the free map is as before exactly if the list is empty
(`Taken.freeMap_eq_iff`), and the two cases can be told apart by counting the free sectors.

The name is refused if it is invalid or present.  If it is neither, `dir_add` returns true
whenever it returns, even in a full directory (`OpenDir.dirAdd_of_absent`).
-/

namespace CS162

open Library FileSys List

/-! ## How much a write reports -/

section Write

variable {s : FileSys} {inode : Inode} {buffer : ℕ → UInt8}

theorem writeChunkSize_bounds {size offset : ℤ} (hsize : 0 < size) (hofs : 0 ≤ offset.tmod 512) :
    0 < writeChunkSize size offset ∧ writeChunkSize size offset ≤ size := by
  have hlt : offset.tmod 512 < 512 := Int.tmod_lt_of_pos _ (by decide)
  have hmod : size.tmod 512 = size % 512 := Int.tmod_eq_emod_of_nonneg hsize.le
  unfold writeChunkSize
  dsimp only
  split <;> split <;> omega

/-- With memory available the loop writes everything, wherever it goes. -/
theorem writeLoop_writes_all (fuel : ℕ) :
    ∀ (size offset : ℤ) (written : ℕ) (bounce : Bool) (s : FileSys), 0 ≤ size → s.MemAvailable →
    Ensures (writeLoop inode buffer fuel size offset written bounce) s fun r _ =>
      r = written + size.toNat := by
  induction fuel using Nat.strong_induction_on with
  | h fuel ih =>
    intro size offset written bounce s hsize hmem
    refine writeLoop_round (by omega) (fun _ _ hno => absurd hno (by rw [hmem]; simp)) ?_
    intro fuel' hfuel heap base hpos hheap hofs _ _
    obtain ⟨hchunk, hle⟩ := writeChunkSize_bounds hpos hofs
    refine .post (ih fuel' hfuel _ _ _ _ _ (by omega) ?_) ?_
    · exact (hheap (.inl hmem)).trans hmem
    · rintro r - rfl
      omega

/-- `inode_write_at` of a file that nobody denies to write reports all bytes. -/
theorem Housed.inodeWriteAt_writes_all {size offset : ℤ} (h : Housed s inode.sector)
    (hdeny : inode.denyWriteCnt = 0) (hmem : s.MemAvailable) (hsize : 0 ≤ size) :
    Ensures (inodeWriteAt inode buffer size offset) s fun r _ => r = size.toNat := by
  refine inodeWriteAt_ensures h hdeny fun t ht => ?_
  refine (writeLoop_writes_all _ _ _ _ _ t hsize (ht.mem hmem)).post ?_
  rintro r - rfl
  omega

theorem Owning.housed {live : List BlockSector} {x : BlockSector} (h : Owning s live)
    (hx : x ∈ live) (hne : x ≠ freeMapSector) : Housed s x where
  mapFile := h.mapFileOk
  length_nonneg := h.length_nonneg x hx
  length_le := h.length_le x hx
  mapped := h.mapped hx
  marked _ hy := h.marked x hx _ (mem_references.mpr hy)
  apart _ hy := h.apart hx hne (mem_references.mpr hy)

end Write

/-! ## Entering a name -/

variable {v : Volume} {u : FileSys} {x : BlockSector} {cnt : ℕ} {name : CString} {dir : Dir}
  {E : Fault → Prop}

variable {A : List BlockSector}

theorem OpenDir.of_alloc (h : OpenDir v x cnt) (hA : Alloc v.fs u A) (name : CString) :
    OpenDir ⟨u, v.live⟩ x cnt ∧
      findSlot u.content x cnt name = findSlot v.fs.content x cnt name := by
  have howned : ∀ y, Owned v.fs.content x (blockCount (inodeAt v.fs.content x).length) y →
      u.content y = v.fs.content y := by
    intro y hy
    have hmem : y ∈ ownReferences v.fs.content x := mem_references.mpr (hy.imp id
      fun ⟨k, hk, hk'⟩ => ⟨k, lt_of_lt_of_le hk (le_max_right _ _), hk'⟩)
    exact hA.keeps y (h.owning.marked x h.live y hmem) fun hd =>
      h.owning.apart h.live h.not_map hmem hd.mapOwned
  obtain ⟨hdir, hslots⟩ := h.directory.of_owned hA.same.size howned
  obtain ⟨inode, hopen, hdeny⟩ := h.writable
  refine ⟨⟨h.owning.of_alloc hA, hA.mem h.mem, ?_, h.not_map, ⟨inode, ?_, hdeny⟩, hdir⟩, ?_⟩
  · exact hA.openInodes ▸ h.counted
  · exact hA.openInodes ▸ hopen
  · refine find?_congr fun j hj => ?_
    rw [hslots j (mem_range.mp hj)]

variable {isDir : Bool}

theorem OpenDir.dirAdd_of_refused {pos : ℤ} {sector : BlockSector}
    (h : OpenDir v x cnt) (hrefused : ValidName name → (findSlot v.fs.content x cnt name).isSome) :
    Spec E (dirAdd ⟨x, pos⟩ name sector isDir) v.fs fun r t => r = false ∧ t = v.fs := by
  by_cases hvalid : ValidName name
  · exact (h.directory.dirAdd_of_found h.mem h.isSome (hrefused hvalid)).post
      fun r t ht => ⟨ht.2, ht.1⟩
  · refine .ite (fun _ => .pure ⟨rfl, rfl⟩) fun hname => absurd ?_ hvalid
    rwa [not_or, not_lt] at hname

/-- A valid name that is absent is accepted, if the call returns. -/
theorem OpenDir.dirAdd_of_absent {pos : ℤ} {sector : BlockSector}
    (h : OpenDir v x cnt) (habsent : findSlot v.fs.content x cnt name = none)
    (hvalid : ValidName name) :
    Ensures (dirAdd ⟨x, pos⟩ name sector isDir) v.fs fun r _ => r = true := by
  obtain ⟨inode, hopen, hdeny⟩ := h.writable
  unfold dirAdd
  rw [if_neg (by rw [not_or, not_lt]; exact hvalid)]
  refine .seq (h.directory.lookup_spec h.mem h.isSome pos name) ?_
  rintro r t ⟨rfl, rfl⟩
  rw [habsent]
  refine .seq (theInode_spec h.isSome) ?_
  rintro inode' t ⟨rfl, hsector, hinode'⟩
  obtain rfl := Option.some.inj (hopen.symm.trans hinode')
  have hlt := h.directory.cnt_lt
  refine .seq (h.directory.freeSlotLoop_spec h.mem hsector cnt 0 _ _ (by omega) (by omega)) ?_
  rintro ⟨e, ofs⟩ t ⟨rfl, -⟩
  -- wherever the slot is, the write reports 24 bytes
  have hhoused : Housed v.fs inode.sector := hsector ▸ h.owning.housed h.live h.not_map
  refine .seq (hhoused.inodeWriteAt_writes_all hdeny h.mem (by decide)) ?_
  rintro r t rfl
  exact .pure rfl

/-! ## Counting -/

theorem Taken.freeMap_eq_iff {s t : FileSys} (h : Taken s t A) :
    t.freeMap = s.freeMap ↔ A = [] := by
  constructor
  · intro heq
    by_contra hne
    obtain ⟨y, hy⟩ := exists_mem_of_ne_nil A hne
    have hmarked := h.marked hy
    rw [heq, (h.fresh y hy).2] at hmarked
    exact Bool.noConfusion hmarked
  · rintro rfl
    funext i
    rw [Bool.eq_iff_iff, h.bits i]
    simp

/-! ## `filesys_create` -/

/-- The length of the new file; for a directory the size is a number of entries. -/
def newLength (initialSize : ℤ) (isDir : Bool) : ℤ :=
  if isDir then wrap32 ((initialSize % 4294967296).toNat * dirEntrySize) else initialSize

/-- Files and directories differ in the length of the new inode only. -/
theorem filesysCreate_eq (name : CString) (initialSize : ℤ) (dir : Dir) (isDir : Bool) :
    filesysCreate (some name) initialSize (some dir) isDir = do
      match ← freeMapAllocate 1 with
      | none => return false
      | some inodeSector =>
        let created ← inodeCreate inodeSector (newLength initialSize isDir)
        let success ← if created then dirAdd dir name inodeSector isDir else pure false
        if !success ∧ inodeSector ≠ 0 then freeMapRelease inodeSector 1
        return success := by
  cases isDir with
  | false => rfl
  | true =>
    simp only [newLength, if_true]
    rfl

/-- The directory takes the name. -/
def Enterable (s : FileSys) (dir : Dir) (name : CString) : Prop :=
  ValidName name ∧ found s dir name = .ok none

/-- What `filesys_create` leaves behind: `A` are the sectors that have been taken and not given
back, and `n` is the number of blocks of the file. -/
structure LeftBehind (s t : FileSys) (n : ℕ) (enterable : Prop) (A : List BlockSector) : Prop where
  taken : Taken s t A
  of_nil : A = [] → maxBlocks < n ∨ Scarce s (1 + min (max 1 n) 12)
  of_ne_nil : A ≠ [] → n ≤ maxBlocks ∧ ¬ Scarce s (1 + min (max 1 n) 12) ∧
    (Scarce s (1 + sectorsNeeded n) ∨ ¬ enterable)

/-- The blocks of a file that could not be created, after its sector has been given back. -/
theorem LeftBehind.of_failed {s w t : FileSys} {n : ℕ} {p : Prop}
    (hmem : s.MemAvailable) (hw : Alloc s w [x]) (hA : AllocationFailed w u n A)
    (ht : Taken s t A) : LeftBehind s t n p A := by
  refine ⟨ht, fun hnil => ?_, fun hne => ?_⟩
  · by_cases hle : n ≤ maxBlocks
    · exact .inr (hw.scarce (hA.scarce_direct hnil hle (hw.mem hmem)))
    · exact .inl (by omega)
  obtain ⟨hle, hlength⟩ := hA.kept.resolve_left hne
  refine ⟨hle, ?_, .inl (hw.scarce (hA.scarce hle (hw.mem hmem)))⟩
  -- the inode sector and the direct blocks were free
  refine (hw.trans hA.alloc).toTaken.not_scarce ?_
  rw [length_append, length_singleton]
  omega

variable {length : ℤ}

/-- The blocks of a file whose name was refused, after its sector has been given back. -/
theorem LeftBehind.of_refused {s t : FileSys} {D I : List BlockSector} {p : Prop}
    (h : Created s u x length D I) (hp : ¬ p) (ht : Taken s t (D ++ I)) :
    LeftBehind s t (bytesToSectors length) p (D ++ I) := by
  have hblocks := h.blocks
  refine ⟨ht, fun hnil => ?_, fun _ => ⟨h.fits, h.alloc.toTaken.not_scarce ?_, .inr hp⟩⟩
  · rw [(append_eq_nil_iff.mp hnil).1, length_nil] at hblocks
    omega
  · rw [length_cons, length_append]
    omega

theorem Created.not_scarce {s : FileSys} {D I : List BlockSector}
    (h : Created s u x length D I) : ¬ Scarce s (1 + sectorsNeeded (bytesToSectors length)) := by
  refine h.alloc.toTaken.not_scarce ?_
  rw [length_cons, h.laid.length h.blocks]
  omega

/-- `filesys_create`, given what `dir_add` does with the new inode. -/
theorem OpenDir.filesysCreate_spec {size : ℤ} (h : OpenDir v dir.inode cnt) (name : CString)
    (hpast : E (.undefined "sectors[i]") → E (.panic "Access past end of device"))
    (hlow : 0 ≤ newLength size isDir) (hhigh : newLength size isDir < 2147483648)
    (hundef : Zeroable (bytesToSectors (newLength size isDir)) ∨ E (.undefined "sectors[i]"))
    (hadd : ∀ u x D I, Created v.fs u x (newLength size isDir) D I →
      Spec E (dirAdd dir name x isDir) u fun r w =>
        (r = true → Enterable v.fs dir name) ∧
        (r = false → w = u ∧ ¬ Enterable v.fs dir name)) :
    Spec E (filesysCreate (some name) size (some dir) isDir) v.fs fun r t =>
      (r = true → Enterable v.fs dir name ∧
        ¬ Scarce v.fs (1 + sectorsNeeded (bytesToSectors (newLength size isDir)))) ∧
      (r = false → ∃ A, LeftBehind v.fs t (bytesToSectors (newLength size isDir))
        (Enterable v.fs dir name) A) := by
  have hok := h.owning.mapFileOk
  have hopen := h.owning.isSome_map
  rw [filesysCreate_eq]
  refine .seq (freeMapAllocate_spec hok.fits) ?_
  rintro (_ | x) w ⟨hsome, hnone⟩
  · obtain ⟨hw, hscarce⟩ := hnone rfl
    exact .pure ⟨by simp, fun _ => ⟨[], hw.toTaken, fun _ => .inr ((hscarce h.mem).mono
      (by omega)), fun hne => absurd rfl hne⟩⟩
  have hw := hsome x rfl
  obtain ⟨hhas, hfree⟩ := hw.fresh x (by simp)
  have hzero : x ≠ 0 := by
    rintro rfl
    have hmarked := h.owning.marked _ h.owning.map_live freeMapSector
      (mem_references.mpr (.inl rfl))
    exact Bool.noConfusion (hfree.symm.trans hmarked)
  refine .seq (inodeCreate_created hpast hok (.inl hopen) hw hlow hhigh hundef) ?_
  rintro (_ | _) u ⟨hfail, hdone⟩
  · obtain ⟨A, hA⟩ := hfail rfl
    refine .bind (Spec.pure ?_)
    dsimp only
    rw [if_pos ⟨rfl, hzero⟩]
    have hall : Taken v.fs u (x :: A) := (hw.trans hA.alloc).toTaken
    refine .seq (hall.release hok.fits (.inl (hall.same.file ▸ hopen))) fun _ t ht =>
      Spec.pure ⟨by simp, fun _ => ⟨A, .of_failed h.mem hw hA ht.1⟩⟩
  obtain ⟨-, D, I, hnew⟩ := hdone rfl
  refine .seq (hadd u x D I hnew) ?_
  rintro (_ | _) t ⟨htrue, hfalse⟩
  · obtain ⟨rfl, hrefused⟩ := hfalse rfl
    dsimp only
    rw [if_pos ⟨rfl, hzero⟩]
    have hall := hnew.alloc.toTaken
    refine .seq (hall.release hok.fits (.inl (hall.same.file ▸ hopen))) fun _ w hw' =>
      Spec.pure ⟨by simp, fun _ => ⟨D ++ I, .of_refused hnew hrefused hw'.1⟩⟩
  · dsimp only
    exact .pure ⟨fun _ => ⟨htrue rfl, hnew.not_scarce⟩, by simp⟩

/-- If `filesys_create` returns false, then the free map is as before, and so are the sectors
in use, those of all directories among them; the data of the free-map file need not be. -/
def FailsCleanly (s : FileSys) (name : CString) (initialSize : ℤ) (dir : Option Dir)
    (isDir : Bool) : Prop :=
  Ensures (filesysCreate (some name) initialSize dir isDir) s fun success t => success = false →
    t.freeMap = s.freeMap ∧
      ∀ y, s.freeMap y.toNat = true → ¬ MapData s y → t.content y = s.content y

/-- The condition: the size is refused, or the inode sector and the direct blocks cannot be
allocated, or nothing stands in the way of the file. -/
def CleanInput (s : FileSys) (name : CString) (initialSize : ℤ) (dir : Dir) (isDir : Bool) : Prop :=
  let n := bytesToSectors (newLength initialSize isDir)
  newLength initialSize isDir < 0 ∨ maxBlocks < n ∨ Scarce s (1 + min (max 1 n) 12) ∨
    ¬ Scarce s (1 + sectorsNeeded n) ∧ Enterable s dir name

section

variable (h : OpenDir v dir.inode cnt)
include h

theorem OpenDir.add_of_not_enterable {D I : List BlockSector}
    (hnew : Created v.fs u x length D I) (hnot : ¬ Enterable v.fs dir name) :
    Spec E (dirAdd dir name x isDir) u fun r w => r = false ∧ w = u := by
  obtain ⟨hdir, hfind⟩ := h.of_alloc hnew.alloc name
  refine hdir.dirAdd_of_refused fun hvalid => ?_
  by_contra hnone
  rw [hfind, Option.not_isSome_iff_eq_none] at hnone
  exact hnot ⟨hvalid, (h.found_none_iff dir.pos).mpr hnone⟩

theorem OpenDir.add_of_enterable {D I : List BlockSector}
    (hnew : Created v.fs u x length D I) (henter : Enterable v.fs dir name) :
    Ensures (dirAdd dir name x isDir) u fun r _ => r = true := by
  obtain ⟨hdir, hfind⟩ := h.of_alloc hnew.alloc name
  refine hdir.dirAdd_of_absent ?_ henter.1
  exact hfind.trans ((h.found_none_iff dir.pos).mp henter.2)

/-- A negative length trips the assertion in `inode_create`. -/
theorem OpenDir.failsCleanly_of_negative {size : ℤ}
    (hneg : newLength size isDir < 0) : FailsCleanly v.fs name size (some dir) isDir := by
  unfold FailsCleanly
  rw [filesysCreate_eq]
  refine .seq (freeMapAllocate_spec h.owning.mapFileOk.fits) ?_
  rintro (_ | x) t ⟨-, hnone⟩
  · have ht := (hnone rfl).1.toTaken
    exact .pure fun _ => ⟨ht.freeMap_eq_iff.mpr rfl, ht.keeps⟩
  · refine .bind ?_
    rw [inodeCreate, if_pos hneg]
    exact .throw trivial

theorem OpenDir.failsCleanly_of_clean {size : ℤ}
    (hhigh : newLength size isDir < 2147483648) (hclean : CleanInput v.fs name size dir isDir) :
    FailsCleanly v.fs name size (some dir) isDir := by
  by_cases hlow : 0 ≤ newLength size isDir
  swap
  · exact h.failsCleanly_of_negative (by omega)
  refine (h.filesysCreate_spec (E := fun _ => True) name (fun _ => trivial) hlow hhigh
    (.inr trivial)
    fun u x D I hnew => ?_).post ?_
  · by_cases henter : Enterable v.fs dir name
    · refine (h.add_of_enterable hnew henter).post ?_
      rintro r w rfl
      exact ⟨fun _ => henter, by simp⟩
    · refine (h.add_of_not_enterable hnew henter).post ?_
      rintro r w ⟨rfl, rfl⟩
      exact ⟨by simp, fun _ => ⟨rfl, henter⟩⟩
  rintro r t ⟨-, hfalse⟩ hr
  obtain ⟨A, hA⟩ := hfalse hr
  refine ⟨hA.taken.freeMap_eq_iff.mpr ?_, hA.taken.keeps⟩
  by_contra hne
  obtain ⟨hle, hdirect, hrefused⟩ := hA.of_ne_nil hne
  rcases hclean with hneg | hmax | hscarce | ⟨hspace, henter⟩
  · exact absurd hlow (by omega)
  · exact absurd hle (by omega)
  · exact hdirect hscarce
  · exact hrefused.elim hspace fun hnot => hnot henter

theorem OpenDir.clean_of_failsCleanly {size : ℤ} (hhigh : newLength size isDir < 2147483648)
    (hzeroable : Zeroable (bytesToSectors (newLength size isDir)))
    (hfails : FailsCleanly v.fs name size (some dir) isDir) :
    CleanInput v.fs name size dir isDir := by
  by_contra hnot
  obtain ⟨hlow, hmax, hdirect, hrest⟩ : 0 ≤ newLength size isDir ∧ _ ∧ _ ∧ _ := by
    simpa only [CleanInput, not_or, not_lt] using hnot
  -- the call returns, for `dir_add` is not reached or refuses the name
  obtain ⟨r, t, hrun, htrue, hfalse⟩ := returns_iff.mp (h.filesysCreate_spec
    (E := fun _ => False) name id hlow hhigh (.inl hzeroable) fun u x D I hnew => by
      have hnot : ¬ Enterable v.fs dir name := fun henter => hrest ⟨hnew.not_scarce, henter⟩
      refine (h.add_of_not_enterable hnew hnot).post ?_
      rintro r w ⟨rfl, rfl⟩
      exact ⟨by simp, fun _ => ⟨rfl, hnot⟩⟩)
  cases r with
  | true => exact hrest (htrue rfl).symm
  | false =>
    obtain ⟨A, hA⟩ := hfalse rfl
    have heq := (ensures_iff.mp hfails _ _ hrun rfl).1
    rcases hA.of_nil (hA.taken.freeMap_eq_iff.mp heq) with h | h
    · exact absurd hmax (by omega)
    · exact hdirect h

end

/-- **A failed creation changes nothing exactly if the input is clean.**  Without a directory
nothing is done at all.  For the other inputs that are not clean the blocks of the file are lost;
the sizes that are not zeroable are left out there, for which `zero_out` leaves its array before
`filesys_create` returns. -/
theorem filesysCreate_failsCleanly_iff (v : Volume) (dir : Dir) (cnt : ℕ)
    (h : OpenDir v dir.inode cnt) (name : CString) (initialSize : ℤ)
    (hsize : initialSize < 2147483648) (isDir : Bool) :
    FailsCleanly v.fs name initialSize none isDir ∧
    (CleanInput v.fs name initialSize dir isDir →
      FailsCleanly v.fs name initialSize (some dir) isDir) ∧
    (Zeroable (bytesToSectors (newLength initialSize isDir)) →
      (FailsCleanly v.fs name initialSize (some dir) isDir ↔
        CleanInput v.fs name initialSize dir isDir)) := by
  have hhigh : newLength initialSize isDir < 2147483648 := by
    unfold newLength
    split
    · exact wrap32_lt _
    · exact hsize
  refine ⟨?_, h.failsCleanly_of_clean hhigh,
    fun hzeroable => ⟨h.clean_of_failsCleanly hhigh hzeroable, h.failsCleanly_of_clean hhigh⟩⟩
  unfold FailsCleanly filesysCreate
  exact .pure fun _ => ⟨rfl, fun _ _ _ => rfl⟩

/-! ## In a directory with one slot -/

def emptyName : CString := ⟨[], by decide⟩

/-- A file can be created under a new name; under the empty name a block is lost. -/
theorem filesysCreate_failsCleanly_iff_oneSlot : ∃ v, OpenDir v 4 1 ∧
    FailsCleanly v.fs nameA 0 (some ⟨4, 0⟩) false ∧
    ¬ FailsCleanly v.fs emptyName 0 (some ⟨4, 0⟩) false := by
  obtain ⟨v, ⟨cnt, h, -⟩, habsent, hcount, hsize, hfree, hfree'⟩ := exists_oneSlot
    (fun v => notFound v.fs ⟨4, 0⟩ nameA ∧ slotCount v.fs.content 4 = 1 ∧ 30 < v.fs.size ∧
      v.fs.freeMap 20 = false ∧ v.fs.freeMap 30 = false) (by decide +kernel)
  obtain rfl : cnt = 1 := h.slotCount.symm.trans hcount
  have hspace : ∀ n ≤ 2, ¬ Scarce v.fs n := fun n hn => by
    refine not_scarce (B := [20, 30]) (by decide) (fun i hi => ?_) hn
    rcases mem_pair.mp hi with rfl | rfl
    · exact ⟨by omega, hfree⟩
    · exact ⟨hsize, hfree'⟩
  have hA := filesysCreate_failsCleanly_iff v ⟨4, 0⟩ 1 h nameA 0 (by decide) false
  have hempty := filesysCreate_failsCleanly_iff v ⟨4, 0⟩ 1 h emptyName 0 (by decide) false
  refine ⟨v, h, hA.2.1 ?_, fun hfails => ?_⟩
  · exact .inr (.inr (.inr ⟨hspace _ (by decide +kernel), by decide, found_of_notFound habsent⟩))
  · rcases (hempty.2.2 (by decide +kernel)).mp hfails with hneg | hmax | hscarce | ⟨-, hvalid, -⟩
    · exact absurd hneg (by decide)
    · exact absurd hmax (by decide +kernel)
    · exact hspace _ (by decide +kernel) hscarce
    · exact absurd hvalid (by decide)

/-- A file is created under a name that is there.  The call returns false, and the block of the
new file stays marked. -/
theorem filesysCreate_loses_block : ∃ v, OpenDir v 4 1 ∧ found v.fs ⟨4, 0⟩ nameA ≠ .ok none ∧
    Returns (filesysCreate (some nameA) 0 (some ⟨4, 0⟩) false) v.fs (fun success t =>
      success = false ∧ v.fs.freeMap 7 = false ∧ t.freeMap 7 = true) ∧
    ¬ FailsCleanly v.fs nameA 0 (some ⟨4, 0⟩) false := by
  obtain ⟨init, ⟨cnt, h, -⟩, habsent, hcount, hfree, w, hw, hreturns⟩ := exists_oneSlot
    (fun v => notFound v.fs ⟨4, 0⟩ nameA ∧ slotCount v.fs.content 4 = 1 ∧
      (freeSlot v.fs.content 4 (slotCount v.fs.content 4)).isSome ∧
      ∃ w ∈ nextCall ⟨4, 0⟩ v (.add nameA 4 true),
        Returns (filesysCreate (some nameA) 0 (some ⟨4, 0⟩) false) w.fs fun r t =>
          r = false ∧ w.fs.freeMap 7 = false ∧ t.freeMap 7 = true) (by decide +kernel)
  obtain rfl : cnt = 1 := h.slotCount.symm.trans hcount
  -- the name is entered, which leads to `w`
  have husable : Usable ⟨4, 0⟩ init (.add nameA 4 true) := ⟨by decide, .inr hfree⟩
  obtain ⟨r, w', ⟨hrun, hlive⟩, ⟨hresult, hadded, -⟩, h'⟩ := h.call husable
  obtain ⟨r', hrun', hlive'⟩ := dirStep_of_nextCall hw
  obtain ⟨rfl, hfs⟩ := Prod.mk.inj (Except.ok.inj (hrun.symm.trans hrun'))
  obtain rfl : w' = w := congrArg₂ Volume.mk hfs (hlive.trans hlive'.symm)
  have hfound := (hadded (hresult.mpr (found_of_notFound habsent))).1
  refine ⟨w', h', by rw [hfound]; simp, hreturns, fun hfails => ?_⟩
  obtain ⟨r, t, hrun, rfl, hbefore, hafter⟩ := returns_iff.mp hreturns
  rw [(ensures_iff.mp hfails _ _ hrun rfl).1, hbefore] at hafter
  exact Bool.noConfusion hafter

end CS162
