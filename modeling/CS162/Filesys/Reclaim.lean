import CS162.Filesys.Creation
import CS162.Filesys.OpenInodes

/-!
# Removing a file

A file is created in a fresh sector, opened, removed and closed.  Does the free map then
look as it did before?  `Created` describes the new file by its data blocks `D` and its
index blocks `I`, all of them sectors that were free.

## Strategy

`freeInode_released` says what `inode_close` gives back: the inode sector and the blocks
up to the length of the file.  The free map is the old one exactly if these are all the
sectors of the file.  A file of length 0 has one block that its length does not account
for, and the index blocks of a file of more than twelve blocks are never given back
(`Created.all_data_iff`).  With more than 140 blocks `free_indirect` moreover reads on
behind its buffer.
-/

namespace CS162

open Library FileSys List

variable {s t u : FileSys} {x : BlockSector} {length : ℤ} {D I : List BlockSector}
  {E : Fault → Prop}

/-! ## A file in fresh sectors -/

/-- A file has been created: `x` is its inode, `D` are its blocks and `I` its index blocks. -/
structure Created (s t : FileSys) (x : BlockSector) (length : ℤ) (D I : List BlockSector) :
    Prop where
  alloc : Alloc s t (x :: (D ++ I))
  laid : Laid (inodeAt t.content x) t.content D I
  length_eq : (inodeAt t.content x).length = length
  blocks : D.length = max 1 (bytesToSectors length)
  fits : bytesToSectors length ≤ maxBlocks

/-- `inode_create` in a sector that has just been allocated. -/
theorem inodeCreate_created
    (hpast : E (.undefined "sectors[i]") → E (.panic "Access past end of device"))
    (hok : MapFileOk s) (hopen : MapOpen E s)
    (halloc : Alloc s u [x]) (hlow : 0 ≤ length) (hhigh : length < 2147483648)
    (hundef : Zeroable (bytesToSectors length) ∨ E (.undefined "sectors[i]")) :
    Spec E (inodeCreate x length) u fun r t =>
      (r = false → ∃ A, AllocationFailed u t (bytesToSectors length) A) ∧
      (r = true → Zeroable (bytesToSectors length) ∧ ∃ D I, Created s t x length D I) := by
  have hx := mem_singleton_self x
  refine (inodeCreate_spec hpast (halloc.mapFileOk hok) (halloc.mapOpen hopen)
    (halloc.same.has.mpr (halloc.fresh x hx).1) hlow hundef).post ?_
  rintro r t ⟨hfail, hdone⟩
  refine ⟨hfail, fun hr => ?_⟩
  obtain ⟨hmax, hzeroable, D, I, d, v, rfl, hlen, hv, hlaid, -, rfl⟩ := hdone hr
  have hnew : x ∉ I := fun hI => by
    have hfree := (hv.fresh x (mem_append_right _ hI)).2
    rw [halloc.marked hx] at hfree
    exact Bool.noConfusion hfree
  obtain ⟨hinode, hstored⟩ := hlaid.stored (x := x) hnew hlow hhigh
  refine ⟨hzeroable, D, I, ?_, hstored, ?_, hlen, hmax⟩
  · exact (halloc.trans hv).writeSector hok (mem_append_left _ hx) _
  · exact congrArg InodeDisk.length hinode

/-- With memory and enough sectors a file can be created and opened. -/
theorem exists_created (hok : MapFileOk s) (hopen : s.freeMapFile.isSome) (hmem : s.MemAvailable)
    (hlow : 0 ≤ length) (hhigh : length < 2147483648) (hmax : bytesToSectors length ≤ maxBlocks)
    (hzeroable : Zeroable (bytesToSectors length))
    (hspace : ¬ Scarce s (1 + sectorsNeeded (bytesToSectors length))) :
    ∃ x s₁ s₂ inode s₃, (freeMapAllocate 1).run s = .ok (some x, s₁) ∧
      (inodeCreate x length).run s₁ = .ok (true, s₂) ∧
      (inodeOpen x).run s₂ = .ok (some inode, s₃) := by
  obtain ⟨r, s₁, hallocate, hsome, hnone⟩ := returns_iff.mp (freeMapAllocate_spec hok.fits)
  cases r with
  | none => exact absurd (((hnone rfl).2 hmem).mono (by omega)) hspace
  | some x =>
    have hx := hsome x rfl
    obtain ⟨r, s₂, hcreate, hfail, hdone⟩ := returns_iff.mp (inodeCreate_created id hok
      (.inl hopen) hx hlow hhigh (.inl hzeroable))
    cases r with
    | false =>
      obtain ⟨A, hA⟩ := hfail rfl
      exact absurd (hx.scarce (hA.scarce hmax (hx.mem hmem))) hspace
    | true =>
      obtain ⟨-, D, I, hnew⟩ := hdone rfl
      obtain ⟨r, s₃, hinode, -, inode, rfl, -⟩ := returns_iff.mp
        (inodeOpen_spec (x := x) (hnew.alloc.mem hmem))
      exact ⟨x, s₁, s₂, inode, s₃, hallocate, hcreate, hinode⟩

namespace Created

variable (h : Created s t x length D I)
include h

theorem exclusive (hok : MapFileOk s) : Exclusive t x (bytesToSectors length) := by
  have hle : bytesToSectors length ≤ D.length := h.blocks ▸ le_max_right _ _
  have hperm : (references t.content x D.length).Perm (x :: (D ++ I)) :=
    h.laid.references.trans ((perm_append_comm).cons x)
  have hmapped : Mapped t x D.length := by
    refine mapped_of_references (hperm.nodup_iff.mpr h.alloc.nodup) fun y hy => ?_
    exact h.alloc.same.has.mpr (h.alloc.fresh y (hperm.mem_iff.mp hy)).1
  refine ⟨hmapped.mono hle, fun k hk => ?_, fun y hy hm => ?_⟩
  · have hmem := mem_of_getElem? (h.laid.block k (hk.trans_le hle))
    exact h.alloc.marked (mem_cons_of_mem _ (mem_append_left _ hmem))
  -- the sectors of the free map were in use before
  have howned : Owned t.content x D.length y :=
    hy.imp id fun ⟨k, hk, hy⟩ => ⟨k, hk.trans_le hle, hy⟩
  have hfree := (h.alloc.fresh y (hperm.mem_iff.mp (mem_references.mpr howned))).2
  rw [hok.mapOwned_marked (h.alloc.same.mapOwned.mp hm)] at hfree
  exact Bool.noConfusion hfree

theorem mem_of_dataOf {y : BlockSector} (hy : DataOf t.content x (bytesToSectors length) y) :
    y ∈ D := by
  obtain ⟨k, hk, rfl⟩ := hy
  exact mem_of_getElem? (h.laid.block k (hk.trans_le (h.blocks ▸ le_max_right _ _)))

/-- The blocks up to the length of a file are all it has exactly if it has one block at least
and no index block. -/
theorem all_data_iff : (∀ y ∈ D ++ I, DataOf t.content x (bytesToSectors length) y) ↔
      0 < bytesToSectors length ∧ bytesToSectors length ≤ 12 := by
  have hlength := h.laid.length h.blocks
  rw [length_append, h.blocks] at hlength
  constructor
  · intro hall
    have hpos : 0 < bytesToSectors length := by
      obtain ⟨y, hy⟩ := exists_mem_of_length_pos (l := D) (by rw [h.blocks]; omega)
      obtain ⟨k, hk, -⟩ := hall y (mem_append_left _ hy)
      omega
    refine ⟨hpos, ?_⟩
    by_contra hgt
    -- there is an index block, and it is no data block
    have hI : 0 < I.length := by
      unfold sectorsNeeded at hlength
      rw [if_pos (by omega)] at hlength
      omega
    obtain ⟨z, hz⟩ := exists_mem_of_length_pos hI
    have hzD := h.mem_of_dataOf (hall z (mem_append_right _ hz))
    have hnodup := (nodup_cons.mp h.alloc.nodup).2
    exact (nodup_append.mp hnodup).2.2 z hzD z hz rfl
  · rintro ⟨hpos, hle⟩ y hy
    have hI : I = [] := by
      unfold sectorsNeeded at hlength
      rw [if_neg (by omega), if_neg (by omega)] at hlength
      exact length_eq_zero_iff.mp (by omega)
    rw [hI, append_nil] at hy
    obtain ⟨k, hk, rfl⟩ := getElem_of_mem hy
    have hk' : k < bytesToSectors length := by
      rw [h.blocks] at hk
      omega
    refine ⟨k, hk', Option.some.inj ?_⟩
    rw [← getElem?_eq_getElem hk]
    exact h.laid.block k hk

theorem freeMap_eq_iff {v w : FileSys} (hv : v.freeMap = t.freeMap)
    (hw : Released (fun y => y = x ∨ DataOf t.content x (bytesToSectors length) y) v w) :
    w.freeMap = s.freeMap ↔ ∀ y ∈ D ++ I, DataOf t.content x (bytesToSectors length) y := by
  have hbits : ∀ i, w.freeMap i = true ↔ (s.freeMap i = true ∨ ∃ y ∈ x :: (D ++ I), y.toNat = i) ∧
      ∀ y, y = x ∨ DataOf t.content x (bytesToSectors length) y → y.toNat ≠ i := fun i => by
    rw [hw.bits i, hv, h.alloc.bits i]
  have hfresh : ∀ y ∈ x :: (D ++ I), s.freeMap y.toNat = false := fun y hy => (h.alloc.fresh y hy).2
  constructor
  · intro heq y hy
    have hclear := hfresh y (mem_cons_of_mem _ hy)
    by_contra hdata
    -- otherwise the bit of `y` would still be set
    have hset : w.freeMap y.toNat = true := by
      refine (hbits _).mpr ⟨.inr ⟨y, mem_cons_of_mem _ hy, rfl⟩, ?_⟩
      intro z hz hzy
      obtain rfl := UInt32.toNat_inj.mp hzy
      rcases hz with rfl | hz
      · exact (nodup_cons.mp h.alloc.nodup).1 hy
      · exact hdata hz
    rw [heq, hclear] at hset
    exact Bool.noConfusion hset
  · intro hall
    funext i
    rw [Bool.eq_iff_iff, hbits i]
    constructor
    · rintro ⟨hs | ⟨y, hy, rfl⟩, hback⟩
      · exact hs
      · exact absurd rfl (hback y ((mem_cons.mp hy).imp id (hall y)))
    refine fun hs => ⟨.inl hs, fun y hy hyi => ?_⟩
    have hmem : y ∈ x :: (D ++ I) :=
      mem_cons.mpr (hy.imp id fun hd => mem_append_left _ (h.mem_of_dataOf hd))
    have hclear := hfresh y hmem
    rw [hyi, hs] at hclear
    exact Bool.noConfusion hclear

end Created

/-! ## Opening, removing and closing -/

theorem inodeOpen_fresh (hnone : findInode x s.openInodes = none) :
    Spec E (inodeOpen x) s fun r t => r.isSome → ∃ heap,
      t = { s with openInodes := ⟨x, 1, false, 0⟩ :: s.openInodes, heap := heap } := by
  apply Spec.get_bind
  rw [hnone]
  apply Spec.bind
  apply malloc_spec
  refine .ite (fun _ => ?_) fun _ => .pure (by simp)
  apply Spec.modify_bind
  exact .pure fun _ => ⟨_, rfl⟩

theorem Created.removeClose (h : Created s t x length D I) (hok : MapFileOk s)
    (hopen : s.freeMapFile.isSome) (hbound : bytesToSectors length ≤ 140 ∨
      E (.undefined "sectorp[i]")) {l : List Inode} {heap : ℕ → Bool} :
    Spec E (do
        inodeRemove x
        inodeClose x) { t with openInodes := ⟨x, 1, false, 0⟩ :: l, heap := heap }
      fun _ w => bytesToSectors length ≤ 140 ∧ (w.freeMap = s.freeMap ↔
        0 < bytesToSectors length ∧ bytesToSectors length ≤ 12) := by
  apply Spec.modify_bind
  apply Spec.get_bind
  rw [map_cons, if_pos rfl, findInode, find?_cons_of_pos (by simp)]
  dsimp only
  apply Spec.modify_bind
  apply Spec.bind
  refine cacheRead_spec (h.alloc.same.has.mpr (h.alloc.fresh x (by simp)).1) ?_
  rw [show (InodeDisk.decode (t.content x)).length = length from h.length_eq]
  -- only the table of open inodes and the heap have changed
  refine (freeInode_released ⟨x, 1, true, 0⟩ ?_ (.inl ?_) ?_ ?_ h.fits hbound).post ?_
  · exact hok.fits.of_same ⟨h.alloc.same.size, h.alloc.same.file, h.alloc.same.sameMap⟩
  · exact h.alloc.same.file ▸ hopen
  · have hexcl := h.exclusive hok
    exact ⟨hexcl.mapped.of_sameMap rfl ⟨rfl, fun _ _ _ _ => rfl⟩, hexcl.data, hexcl.apart⟩
  · exact h.alloc.marked (by simp)
  · rintro - w ⟨hle, hw⟩
    exact ⟨hle, (h.freeMap_eq_iff (by rfl) hw).trans h.all_data_iff⟩

theorem Created.of_runs {s₁ s₂ s₃ : FileSys} {inode : Inode} (hok : MapFileOk s)
    (hused : ∀ i ∈ s.openInodes, s.freeMap i.sector.toNat = true) (hlow : 0 ≤ length)
    (hhigh : length < 2147483648) (hallocate : (freeMapAllocate 1).run s = .ok (some x, s₁))
    (hcreate : (inodeCreate x length).run s₁ = .ok (true, s₂))
    (hinode : (inodeOpen x).run s₂ = .ok (some inode, s₃)) :
    (∃ D I, Created s s₂ x length D I) ∧ ∃ heap,
      s₃ = { s₂ with openInodes := ⟨x, 1, false, 0⟩ :: s.openInodes, heap := heap } := by
  have hx := (ensures_iff.mp (freeMapAllocate_spec hok.fits) _ _ hallocate).1 x rfl
  obtain ⟨-, D, I, hnew⟩ := (ensures_iff.mp (inodeCreate_created (fun _ => trivial) hok
    (.inr trivial) hx hlow hhigh (.inr trivial)) _ _ hcreate).2 rfl
  have hnone : findInode x s₂.openInodes = none := by
    rw [hnew.alloc.openInodes]
    refine find?_eq_none.mpr fun i hi heq => ?_
    -- an open inode is in a sector in use, the new one was free
    have hfree := (hx.fresh x (by simp)).2
    rw [← of_decide_eq_true heq, hused i hi] at hfree
    exact Bool.noConfusion hfree
  obtain ⟨heap, hs₃⟩ := ensures_iff.mp (inodeOpen_fresh hnone) _ _ hinode rfl
  rw [hnew.alloc.openInodes] at hs₃
  exact ⟨⟨D, I, hnew⟩, heap, hs₃⟩

theorem Created.returns_space_iff (h : Created s t x length D I) (hok : MapFileOk s)
    (hopen : s.freeMapFile.isSome) {l : List Inode} {heap : ℕ → Bool} :
    Returns (do
        inodeRemove x
        inodeClose x) { t with openInodes := ⟨x, 1, false, 0⟩ :: l, heap := heap }
      (fun _ w => w.freeMap = s.freeMap) ↔
      0 < bytesToSectors length ∧ bytesToSectors length ≤ 12 := by
  constructor
  · intro hreturns
    obtain ⟨r, w, hrun, heq⟩ := returns_iff.mp hreturns
    exact (ensures_iff.mp (h.removeClose hok hopen (.inr trivial)) r w hrun).2.mp heq
  · intro hn
    exact (h.removeClose hok hopen (.inl (by omega))).post fun _ w hw => hw.2.mpr hn

/-- **Removing a file returns its space exactly if it has one to twelve blocks.**  The sector
is allocated, the file created and opened; then it is removed and closed. -/
theorem removal_returns_space_iff (s s₁ s₂ s₃ : FileSys) (x : BlockSector) (length : ℤ)
    (inode : Inode) (hok : MapFileOk s) (hopen : s.freeMapFile.isSome)
    (hused : ∀ i ∈ s.openInodes, s.freeMap i.sector.toNat = true) (hlow : 0 ≤ length)
    (hhigh : length ≤ maxInodeSize) (hallocate : (freeMapAllocate 1).run s = .ok (some x, s₁))
    (hcreate : (inodeCreate x length).run s₁ = .ok (true, s₂))
    (hinode : (inodeOpen x).run s₂ = .ok (some inode, s₃)) :
    Returns (do
        inodeRemove x
        inodeClose x) s₃ (fun _ t => t.freeMap = s.freeMap) ↔ 0 < length ∧ length ≤ 6144 := by
  obtain ⟨⟨D, I, hnew⟩, heap, rfl⟩ := Created.of_runs hok hused hlow
    (lt_of_le_of_lt hhigh (by decide)) hallocate hcreate hinode
  rw [hnew.returns_space_iff hok hopen]
  obtain ⟨k, rfl⟩ := Int.eq_ofNat_of_zero_le hlow
  unfold maxInodeSize at hhigh
  rw [bytesToSectors_natCast (by omega)]
  omega

/-- A file of two blocks on the small disk. -/
theorem removal_returns_space_iff_mountedDisk : ∃ x s₁ s₂ inode s₃,
    (freeMapAllocate 1).run mountedDisk = .ok (some x, s₁) ∧
    (inodeCreate x 1000).run s₁ = .ok (true, s₂) ∧
    (inodeOpen x).run s₂ = .ok (some inode, s₃) ∧
    Returns (do
        inodeRemove x
        inodeClose x) s₃ (fun _ t => t.freeMap = mountedDisk.freeMap) := by
  obtain ⟨x, s₁, s₂, inode, s₃, hallocate, hcreate, hinode⟩ := exists_created
    mapFileOk_mountedDisk rfl rfl (by decide : (0 : ℤ) ≤ 1000) (by decide) (by decide +kernel)
    (by decide +kernel) (not_scarce_mountedDisk (by decide +kernel))
  refine ⟨x, s₁, s₂, inode, s₃, hallocate, hcreate, hinode, ?_⟩
  exact (removal_returns_space_iff mountedDisk s₁ s₂ s₃ x 1000 inode mapFileOk_mountedDisk rfl
    (by decide) (by decide) (by decide) hallocate hcreate hinode).mpr (by decide)

/-- A file of this length can be created and opened, but removing it does not restore the
free map. -/
def LosesSpace (s : FileSys) (length : ℤ) : Prop :=
  ∃ x s₁ s₂ inode s₃, (freeMapAllocate 1).run s = .ok (some x, s₁) ∧
    (inodeCreate x length).run s₁ = .ok (true, s₂) ∧
    (inodeOpen x).run s₂ = .ok (some inode, s₃) ∧
    ¬ Returns (do
        inodeRemove x
        inodeClose x) s₃ (fun _ t => t.freeMap = s.freeMap)

theorem losesSpace_mountedDisk (hlow : 0 ≤ length) (hhigh : length < 2147483648)
    (hzeroable : Zeroable (bytesToSectors length)) (hmax : bytesToSectors length ≤ maxBlocks)
    (hspace : 1 + sectorsNeeded (bytesToSectors length) ≤ 316)
    (hn : ¬ (0 < bytesToSectors length ∧ bytesToSectors length ≤ 12)) :
    LosesSpace mountedDisk length := by
  have hok := mapFileOk_mountedDisk
  obtain ⟨x, s₁, s₂, inode, s₃, hallocate, hcreate, hinode⟩ := exists_created hok rfl rfl hlow
    hhigh hmax hzeroable (not_scarce_mountedDisk hspace)
  refine ⟨x, s₁, s₂, inode, s₃, hallocate, hcreate, hinode, ?_⟩
  obtain ⟨⟨D, I, hnew⟩, heap, rfl⟩ := Created.of_runs hok (by decide) hlow hhigh hallocate hcreate
    hinode
  rwa [hnew.returns_space_iff hok rfl]

/-- The block of an empty file is lost, as is the indirect block of one with 13 blocks; with 141
blocks `free_indirect` is asked for 129 entries of its buffer of 128. -/
theorem removal_loses_space : LosesSpace mountedDisk 0 ∧ LosesSpace mountedDisk 6145 ∧
    LosesSpace mountedDisk 71681 := by
  refine ⟨?_, ?_, ?_⟩ <;> apply losesSpace_mountedDisk <;> decide +kernel

end CS162
