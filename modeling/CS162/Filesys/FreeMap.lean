import CS162.Filesys.FileIo

/-!
# The free map

`free_map_allocate` and `free_map_release` change one bit and write the whole bitmap to
the free-map file.  As long as that file is intact (`MapFileOk`) the write happens in
place: it touches the data blocks of the free-map file (`MapData`) and nothing else.

`Alloc s t A` summarises any sequence of allocations: the sectors `A` were free and are
marked now, no other bit has changed, and every sector that was marked before keeps its
content, the free-map file apart.  Sectors that were free may have been written.
-/

namespace CS162

open Library FileSys Function List

variable {s t u : FileSys} {x y : BlockSector} {E : Fault → Prop}

/-! ## Finding and setting bits -/

theorem bitmapScan_one_some {bits : ℕ → Bool} {n i : ℕ} (h : bitmapScan bits n 1 = some i) :
    i < n ∧ bits i = false ∧ ∀ j < i, bits j = true := by
  unfold bitmapScan at h
  split at h
  next hn =>
    have hfound := find?_some h
    obtain ⟨hi, hbefore⟩ := (find?_range_eq_some).mp h |>.2
    refine ⟨by simp at hi; omega, by simpa using hfound, fun j hj => by simpa using hbefore j hj⟩
  next => simp at h

theorem bitmapScan_one_none {bits : ℕ → Bool} {n : ℕ} (h : bitmapScan bits n 1 = none) {i : ℕ}
    (hi : i < n) : bits i = true := by
  unfold bitmapScan at h
  rw [if_pos (by omega)] at h
  have := find?_eq_none.mp h i (mem_range.mpr (by omega))
  simpa using this

theorem bitmapSetMultiple_one (bits : ℕ → Bool) (i : ℕ) (value : Bool) :
    bitmapSetMultiple bits i 1 value = update bits i value := by
  funext j
  unfold bitmapSetMultiple
  by_cases h : j = i
  · rw [h, update_self, if_pos (by omega)]
  · rw [update_of_ne h, if_neg (by omega)]

/-! ## The free-map file -/

/-- Sector `y` belongs to the inode in sector `x` with `n` blocks: it is the inode, an
index block or a data block. -/
def Owned (c : BlockSector → Sector) (x : BlockSector) (n : ℕ) (y : BlockSector) : Prop :=
  y = x ∨ ∃ k < n, y ∈ pathTo c x k ∨ y = blockAt c x k

/-- Sector `y` holds bytes of the free-map file. -/
def MapData (s : FileSys) (y : BlockSector) : Prop :=
  ∃ fm, s.freeMapFile = some fm ∧
    ∃ k < blockCount (inodeAt s.content fm.sector).length, y = blockAt s.content fm.sector k

/-- Sector `y` belongs to the free-map file. -/
def MapOwned (s : FileSys) (y : BlockSector) : Prop :=
  ∃ fm, s.freeMapFile = some fm ∧
    Owned s.content fm.sector (blockCount (inodeAt s.content fm.sector).length) y

theorem MapData.mapOwned (h : MapData s y) : MapOwned s y := by
  obtain ⟨fm, hfm, k, hk, hy⟩ := h
  exact ⟨fm, hfm, .inr ⟨k, hk, .inr hy⟩⟩

/-- The free-map file, if it is open, has room for the bitmap, and all its sectors are
marked in the free map. -/
structure MapFileOk (s : FileSys) : Prop where
  stored : ∀ fm, s.freeMapFile = some fm → Stored s fm.sector
  length : ∀ fm, s.freeMapFile = some fm → (inodeAt s.content fm.sector).length = byteCnt s.size
  deny : ∀ fm, s.freeMapFile = some fm → fm.denyWriteCnt = 0
  marked : ∀ fm, s.freeMapFile = some fm → ∀ y,
    Owned s.content fm.sector (blockCount (inodeAt s.content fm.sector).length) y →
    s.freeMap y.toNat = true

/-- The file of the free map is open, or may be missing. -/
abbrev MapOpen (E : Fault → Prop) (s : FileSys) : Prop :=
  s.freeMapFile.isSome ∨ E (.undefined "free_map_file")

/-- The free-map file, if it is open, has room for the bitmap, whatever the bits say. -/
def MapFits (s : FileSys) : Prop := ∀ fm, s.freeMapFile = some fm → Stored s fm.sector ∧
  (inodeAt s.content fm.sector).length = byteCnt s.size ∧ fm.denyWriteCnt = 0

theorem MapFileOk.fits (hok : MapFileOk s) : MapFits s :=
  fun fm hfm => ⟨hok.stored fm hfm, hok.length fm hfm, hok.deny fm hfm⟩

/-- While the free-map file is not open there is nothing to keep intact. -/
theorem mapFileOk_of_none (h : s.freeMapFile = none) : MapFileOk s :=
  ⟨by simp [h], by simp [h], by simp [h], by simp [h]⟩

/-- The free-map file is the same on `t`, and its sectors are still marked there. -/
structure SameMapFile (s t : FileSys) : Prop where
  size : t.size = s.size
  file : t.freeMapFile = s.freeMapFile
  sameMap : ∀ fm, s.freeMapFile = some fm →
    SameMap s.content t.content fm.sector (blockCount (inodeAt s.content fm.sector).length)

theorem SameMapFile.mapData (h : SameMapFile s t) : MapData t y ↔ MapData s y := by
  unfold MapData
  rw [h.file]
  constructor
  · rintro ⟨fm, hfm, k, hk, rfl⟩
    have hsame := h.sameMap fm hfm
    rw [hsame.inodeAt] at hk
    exact ⟨fm, hfm, k, hk, hsame.blockAt hk⟩
  · rintro ⟨fm, hfm, k, hk, rfl⟩
    have hsame := h.sameMap fm hfm
    exact ⟨fm, hfm, k, by rwa [hsame.inodeAt], (hsame.blockAt hk).symm⟩

theorem SameMap.owned {c c' : BlockSector → Sector} {n : ℕ} (h : SameMap c c' x n) :
    Owned c' x n y ↔ Owned c x n y := by
  refine or_congr Iff.rfl (exists_congr fun k => and_congr_right fun hk => ?_)
  rw [h.pathTo hk, h.blockAt hk]

theorem SameMapFile.mapOwned (h : SameMapFile s t) : MapOwned t y ↔ MapOwned s y := by
  unfold MapOwned
  rw [h.file]
  refine exists_congr fun fm => and_congr_right fun hfm => ?_
  rw [(h.sameMap fm hfm).inodeAt, (h.sameMap fm hfm).owned]

theorem MapFits.of_same (hok : MapFits s) (h : SameMapFile s t) : MapFits t := by
  intro fm hfm
  rw [h.file] at hfm
  have hsame := h.sameMap fm hfm
  obtain ⟨hstored, hlength, hdeny⟩ := hok fm hfm
  exact ⟨hstored.of_sameMap h.size hsame, by rw [hsame.inodeAt, h.size, hlength], hdeny⟩

theorem MapFileOk.of_same (hok : MapFileOk s) (h : SameMapFile s t)
    (hmarked : ∀ fm, s.freeMapFile = some fm → ∀ y,
      Owned s.content fm.sector (blockCount (inodeAt s.content fm.sector).length) y →
      s.freeMap y.toNat = true → t.freeMap y.toNat = true) : MapFileOk t := by
  have hfits := hok.fits.of_same h
  refine ⟨fun fm hfm => (hfits fm hfm).1, fun fm hfm => (hfits fm hfm).2.1,
    fun fm hfm => (hfits fm hfm).2.2, fun fm hfm y hy => ?_⟩
  rw [h.file] at hfm
  have hsame := h.sameMap fm hfm
  rw [hsame.inodeAt, hsame.owned] at hy
  exact hmarked fm hfm y hy (hok.marked fm hfm y hy)

theorem MapFileOk.mapData_marked (hok : MapFileOk s) (hy : MapData s y) :
    s.freeMap y.toNat = true := by
  obtain ⟨fm, hfm, k, hk, rfl⟩ := hy
  exact hok.marked fm hfm _ (.inr ⟨k, hk, .inr rfl⟩)

theorem MapFileOk.mapOwned_marked (hok : MapFileOk s) (h : MapOwned s y) :
    s.freeMap y.toNat = true := by
  obtain ⟨fm, hfm, hy⟩ := h
  exact hok.marked fm hfm y hy

/-- A disk on which the inode and the index blocks of the free-map file are the same. -/
theorem MapFits.sameMapFile (hok : MapFits s) (hsize : t.size = s.size)
    (hfile : t.freeMapFile = s.freeMapFile)
    (hcontent : ∀ y, MapOwned s y → ¬ MapData s y → t.content y = s.content y) :
    SameMapFile s t := by
  refine ⟨hsize, hfile, fun fm hfm => ?_⟩
  have hmap := (hok fm hfm).1.mapped
  have hdata : ∀ {y}, MapData s y →
      ∃ k < blockCount (inodeAt s.content fm.sector).length, y = blockAt s.content fm.sector k := by
    rintro y ⟨fm', hfm', h⟩
    rw [hfm] at hfm'
    cases hfm'
    exact h
  refine ⟨hcontent _ ⟨fm, hfm, .inl rfl⟩ fun hd => ?_, fun k hk y hy => ?_⟩
  · obtain ⟨k, hk, heq⟩ := hdata hd
    exact hmap.ne_inode k hk heq.symm
  · refine hcontent y ⟨fm, hfm, .inr ⟨k, hk, .inl hy⟩⟩ fun hd => ?_
    obtain ⟨j, hj, rfl⟩ := hdata hd
    exact hmap.notMem_path j hj k hk hy

/-- `bitmap_write` writes the bitmap in place, or finds no memory and does nothing. -/
theorem bitmapWrite_inPlace {fm : Inode} (hfm : s.freeMapFile = some fm)
    (hstored : Stored s fm.sector) (hlength : (inodeAt s.content fm.sector).length = byteCnt s.size)
    (hdeny : fm.denyWriteCnt = 0) :
    Spec E bitmapWrite s fun r t => ∃ c h, t = { s with content := c, heap := h } ∧
      (s.MemAvailable → h = s.heap) ∧
      (∀ y, (∀ k < blockCount (inodeAt s.content fm.sector).length,
        y ≠ blockAt s.content fm.sector k) → c y = s.content y) ∧
      (r = true → ∀ p < byteCnt s.size, fileByte c fm.sector p = bitsByte s.freeMap p) ∧
      (r = false → c = s.content ∧ s.heap 0 = false) := by
  refine .get_bind ?_
  split
  · next hnone => rw [hfm] at hnone; cases hnone
  next fm' hfm' =>
  obtain rfl : fm = fm' := Option.some.inj (hfm.symm.trans hfm')
  have hwrite : Spec E (inodeWriteAtHeld fm (bitsByte s.freeMap) (byteCnt s.size) 0) s
      (LoopWritten s fm.sector (blockCount (inodeAt s.content fm.sector).length) 0
        (byteCnt s.size) 0 false (bitsByte s.freeMap)) := by
    change Spec E (inodeWriteAtWith _ fm _ (byteCnt s.size) ((0 : ℕ) : ℤ)) s _
    exact hstored.inodeWriteAtWith_spec hdeny (by rw [hlength]; omega)
  refine .bind (hwrite.post ?_)
  rintro r t ⟨c, h, rfl, hheap, hresult⟩
  refine .pure ⟨c, h, rfl, fun hmem => hheap (.inl hmem), ?_⟩
  rcases hresult with ⟨hr, hframe, hover⟩ | ⟨hr, rfl, -, hnone⟩
  · refine ⟨hframe, fun _ p hp => ?_, fun hfalse => ?_⟩
    · have hbyte := hover p (by rw [hlength]; unfold blockCount; omega)
      rw [if_pos (by omega)] at hbyte
      simpa using hbyte
    · exact absurd (hr.trans (zero_add _)) (of_decide_eq_false hfalse)
  · refine ⟨fun _ _ => rfl, fun htrue p hp => ?_, fun _ => ⟨rfl, hnone⟩⟩
    -- nothing to write
    have hempty := of_decide_eq_true htrue
    omega

/-- `bitmap_write` changes the data of the free-map file only, and succeeds unless
there is no memory. -/
theorem bitmapWrite_spec (hok : MapFits s) (hopen : s.freeMapFile.isSome) :
    Spec E bitmapWrite s fun r t => ∃ c h, t = { s with content := c, heap := h } ∧
      (∀ y, ¬ MapData s y → c y = s.content y) ∧
      (s.MemAvailable → h = s.heap ∧ r = true) ∧
      (r = true → ∀ fm, s.freeMapFile = some fm → ∀ p < byteCnt s.size,
        fileByte c fm.sector p = bitsByte s.freeMap p) := by
  obtain ⟨fm, hfm⟩ := Option.isSome_iff_exists.mp hopen
  obtain ⟨hstored, hlength, hdeny⟩ := hok fm hfm
  refine (bitmapWrite_inPlace hfm hstored hlength hdeny).post ?_
  rintro r t ⟨c, h, rfl, hheap, hframe, hwritten, hunwritten⟩
  refine ⟨c, h, rfl, ?_, ?_, ?_⟩
  · exact fun y hy => hframe y fun k hk heq => hy ⟨fm, hfm, k, hk, heq⟩
  · intro hmem
    refine ⟨hheap hmem, ?_⟩
    by_contra hr
    have hnone := (hunwritten (Bool.not_eq_true r ▸ hr)).2
    rw [hmem] at hnone
    cases hnone
  · intro hr fm' hfm'
    obtain rfl : fm = fm' := Option.some.inj (hfm.symm.trans hfm')
    exact hwritten hr

/-- The free-map file, if it is open, holds the free map. -/
def Synced (s : FileSys) : Prop :=
  ∀ fm, s.freeMapFile = some fm → ∀ p < byteCnt s.size,
    fileByte s.content fm.sector p = bitsByte s.freeMap p

theorem Synced.of_same (h : Synced s) (hok : MapFileOk s) (hsame : SameMapFile s t)
    (hmap : t.freeMap = s.freeMap) (hdata : ∀ y, MapData s y → t.content y = s.content y) :
    Synced t := by
  intro fm hfm p hp
  rw [hsame.file] at hfm
  rw [hsame.size] at hp
  have hblock : p / 512 < blockCount (inodeAt s.content fm.sector).length := by
    rw [hok.length fm hfm]
    unfold blockCount
    omega
  rw [hmap, ← h fm hfm p hp, fileByte, (hsame.sameMap fm hfm).blockAt hblock,
    hdata _ ⟨fm, hfm, _, hblock, rfl⟩]
  rfl

/-! ## Sequences of allocations -/

theorem SameMapFile.trans (h : SameMapFile s t) (h' : SameMapFile t u) : SameMapFile s u := by
  refine ⟨h'.size.trans h.size, h'.file.trans h.file, fun fm hfm => ?_⟩
  have hst := h.sameMap fm hfm
  have htu := h'.sameMap fm (h.file.trans hfm)
  rw [hst.inodeAt] at htu
  exact hst.trans htu

/-- From `s` to `t` the free-map file has kept its place, and with memory its
data follow the map. -/
structure Steady (s t : FileSys) : Prop where
  same : SameMapFile s t
  openInodes : t.openInodes = s.openInodes
  mem : s.MemAvailable → t.MemAvailable
  synced : s.MemAvailable → Synced s → Synced t

theorem Steady.refl (s : FileSys) : Steady s s :=
  ⟨⟨rfl, rfl, fun _ _ => ⟨rfl, fun _ _ _ _ => rfl⟩⟩, rfl, id, fun _ => id⟩

theorem Steady.trans (h : Steady s t) (h' : Steady t u) : Steady s u :=
  ⟨h.same.trans h'.same, h'.openInodes.trans h.openInodes, fun hm => h'.mem (h.mem hm),
    fun hm hs => h'.synced (h.mem hm) (h.synced hm hs)⟩

theorem Steady.mapOpen (h : Steady s t) (hopen : MapOpen E s) : MapOpen E t := by
  rwa [MapOpen, h.same.file]

/-- Rewriting the data of the free-map file. -/
theorem Steady.of_data (hok : MapFits s) {m h : ℕ → Bool} {c : BlockSector → Sector}
    (hframe : ∀ z, ¬ MapData s z → c z = s.content z)
    (hheap : s.MemAvailable → h = s.heap ∧
      Synced { s with content := c, heap := h, freeMap := m }) :
    Steady s { s with content := c, heap := h, freeMap := m } :=
  ⟨hok.sameMapFile rfl rfl fun z _ => hframe z, rfl, fun hm => (hheap hm).1.trans hm,
    fun hm _ => (hheap hm).2⟩

/-- From `s` to `t` the sectors `A` have been taken. -/
structure Taken (s t : FileSys) (A : List BlockSector) : Prop extends Steady s t where
  nodup : A.Nodup
  fresh : ∀ y ∈ A, s.Has y ∧ s.freeMap y.toNat = false
  bits : ∀ i, t.freeMap i = true ↔ s.freeMap i = true ∨ ∃ y ∈ A, y.toNat = i
  keeps : ∀ y, s.freeMap y.toNat = true → ¬ MapData s y → t.content y = s.content y

/-- From `s` to `t` the sectors `A` have been allocated, the lowest free sector first, and only they
have been written. -/
structure Alloc (s t : FileSys) (A : List BlockSector) : Prop extends Taken s t A where
  low : ∀ y ∈ A, ∀ i < y.toNat, t.freeMap i = true
  clean : ∀ y ∉ A, ¬ MapData s y → t.content y = s.content y

variable {A : List BlockSector}

theorem Taken.mapFileOk (h : Taken s t A) (hok : MapFileOk s) : MapFileOk t :=
  hok.of_same h.same fun _ _ _ _ hy => (h.bits _).mpr (.inl hy)

theorem Taken.marked (h : Taken s t A) (hy : y ∈ A) : t.freeMap y.toNat = true :=
  (h.bits _).mpr (.inr ⟨y, hy, rfl⟩)

/-- Where nothing has been taken, the order does not matter. -/
theorem Taken.alloc_nil (h : Taken s t [])
    (hclean : ∀ y, ¬ MapData s y → t.content y = s.content y) : Alloc s t [] :=
  ⟨h, by simp, fun y _ => hclean y⟩

theorem Alloc.refl (s : FileSys) : Alloc s s [] where
  toSteady := .refl s
  nodup := nodup_nil
  fresh := by simp
  bits := by simp
  keeps _ _ _ := rfl
  low := by simp
  clean _ _ _ := rfl

theorem Alloc.perm {B : List BlockSector} (h : Alloc s t A) (hperm : A.Perm B) : Alloc s t B where
  toSteady := h.toSteady
  nodup := hperm.nodup_iff.mp h.nodup
  fresh y hy := h.fresh y (hperm.mem_iff.mpr hy)
  bits i := by simp only [h.bits, hperm.mem_iff]
  keeps := h.keeps
  low y hy := h.low y (hperm.mem_iff.mpr hy)
  clean y hy := h.clean y (mt hperm.mem_iff.mp hy)

theorem SameMapFile.symm (h : SameMapFile s t) : SameMapFile t s := by
  refine ⟨h.size.symm, h.file.symm, fun fm hfm => ?_⟩
  have hst := h.sameMap fm (h.file ▸ hfm)
  rw [hst.inodeAt]
  exact hst.symm

theorem SameMapFile.has (h : SameMapFile s t) : t.Has y ↔ s.Has y := by
  unfold FileSys.Has
  rw [h.size]

theorem Taken.trans {B : List BlockSector} (h : Taken s t A) (h' : Taken t u B) :
    Taken s u (A ++ B) := by
  have hfree : ∀ y ∈ B, s.freeMap y.toNat = false := fun y hy => by
    have := (h'.fresh y hy).2
    by_contra hs
    have := (h.bits y.toNat).mpr (.inl (by simpa using hs))
    simp_all
  refine ⟨h.toSteady.trans h'.toSteady, ?_, ?_, fun i => ?_, fun y hy hd => ?_⟩
  · refine nodup_append.mpr ⟨h.nodup, h'.nodup, fun a ha b hb heq => ?_⟩
    have := (h'.fresh b hb).2
    rw [← heq, h.marked ha] at this
    exact Bool.noConfusion this
  · intro y hy
    rcases mem_append.mp hy with hy | hy
    · exact h.fresh y hy
    · exact ⟨h.same.has.mp (h'.fresh y hy).1, hfree y hy⟩
  · rw [h'.bits, h.bits]
    simp only [mem_append]
    constructor
    · rintro ((hs | ⟨y, hy, rfl⟩) | ⟨y, hy, rfl⟩)
      · exact .inl hs
      · exact .inr ⟨y, .inl hy, rfl⟩
      · exact .inr ⟨y, .inr hy, rfl⟩
    · rintro (hs | ⟨y, hy | hy, rfl⟩)
      · exact .inl (.inl hs)
      · exact .inl (.inr ⟨y, hy, rfl⟩)
      · exact .inr ⟨y, hy, rfl⟩
  · rw [h'.keeps y ((h.bits _).mpr (.inl hy)) fun hd' => hd (h.same.mapData.mp hd'),
      h.keeps y hy hd]

theorem Alloc.trans {B : List BlockSector} (h : Alloc s t A) (h' : Alloc t u B) :
    Alloc s u (A ++ B) := by
  refine ⟨h.toTaken.trans h'.toTaken, fun y hy i hi => ?_, fun y hy hd => ?_⟩
  · rcases mem_append.mp hy with hy | hy
    · exact (h'.bits i).mpr (.inl (h.low y hy i hi))
    · exact h'.low y hy i hi
  · rw [mem_append, not_or] at hy
    exact (h'.clean y hy.2 fun hd' => hd (h.same.mapData.mp hd')).trans (h.clean y hy.1 hd)

theorem Alloc.of_heap {heap : ℕ → Bool} (h : Alloc s t A)
    (hheap : t.MemAvailable → heap = t.heap) : Alloc s { t with heap := heap } A :=
  { h with
    same := ⟨h.same.size, h.same.file, h.same.sameMap⟩
    mem := fun hm => (hheap (h.mem hm)).trans (h.mem hm) }

theorem Taken.notMem (h : Taken s t A) (hy : s.freeMap y.toNat = true) : y ∉ A := fun hmem => by
  rw [(h.fresh y hmem).2] at hy
  cases hy

/-- Writing the sectors that have been allocated is part of the allocation. -/
theorem Alloc.write (h : Alloc s t A) (hok : MapFileOk s)
    {c : BlockSector → Sector} (hc : ∀ z ∉ A, c z = t.content z) :
    Alloc s { t with content := c } A := by
  have hclean : ∀ z ∉ A, ¬ MapData s z → c z = s.content z :=
    fun z hz hd => (hc z hz).trans (h.clean z hz hd)
  have hsame : SameMapFile s { t with content := c } :=
    hok.fits.sameMapFile h.same.size h.same.file fun z hz =>
      hclean z (h.notMem (hok.mapOwned_marked hz))
  refine ⟨⟨⟨hsame, h.openInodes, h.mem, fun hm hs => ?_⟩, h.nodup, h.fresh, h.bits,
    fun z hz => hclean z (h.notMem hz)⟩, h.low, hclean⟩
  exact (h.synced hm hs).of_same (h.mapFileOk hok) (h.same.symm.trans hsame) rfl fun z hz =>
    hc z (h.notMem (hok.mapData_marked (h.same.mapData.mp hz)))

theorem Alloc.writeSector (h : Alloc s t A) (hok : MapFileOk s) (hy : y ∈ A)
    (buffer : Sector) : Alloc s { t with content := update t.content y buffer } A :=
  h.write hok fun _ hz => update_of_ne (ne_of_mem_of_not_mem hy hz).symm _ _

/-- Setting the lowest free bit and rewriting the data of the free-map file. -/
theorem Alloc.of_mark (hok : MapFits s) (hy : s.Has y) (hfree : s.freeMap y.toNat = false)
    (hlow : ∀ i < y.toNat, s.freeMap i = true) {c : BlockSector → Sector} {h : ℕ → Bool}
    (hframe : ∀ z, ¬ MapData s z → c z = s.content z) (hheap : s.MemAvailable → h = s.heap ∧
      Synced { s with content := c, heap := h, freeMap := update s.freeMap y.toNat true }) :
    Alloc s { s with content := c, heap := h, freeMap := update s.freeMap y.toNat true } [y] where
  toSteady := .of_data hok hframe hheap
  nodup := nodup_singleton y
  fresh := by simp [hy, hfree]
  bits i := by
    by_cases hi : i = y.toNat
    · simp [hi]
    · simp [update_of_ne hi, Ne.symm hi]
  keeps z _ hz := hframe z hz
  low z hz i hi := by
    rw [mem_singleton.mp hz] at hi
    show update s.freeMap y.toNat true i = true
    rw [update_of_ne (by omega), hlow i hi]
  clean z _ hz := hframe z hz

/-- Fewer than `n` sectors are free. -/
def Scarce (s : FileSys) (n : ℕ) : Prop :=
  ∃ A : List BlockSector, A.length < n ∧ ∀ i < s.size, s.freeMap i = false → ∃ y ∈ A, y.toNat = i

theorem Scarce.mono {n m : ℕ} (h : Scarce s n) (hle : n ≤ m) : Scarce s m := by
  obtain ⟨A, hlen, hall⟩ := h
  exact ⟨A, by omega, hall⟩

/-- The sectors that are free. -/
def free (s : FileSys) : Finset ℕ := {i ∈ Finset.range s.size | s.freeMap i = false}

theorem scarce_iff {n : ℕ} : Scarce s n ↔ (free s).card < n := by
  constructor
  · rintro ⟨A, hlen, hall⟩
    have hsub : free s ⊆ (A.map UInt32.toNat).toFinset := by
      intro i hi
      obtain ⟨hlt, hfree⟩ := Finset.mem_filter.mp hi
      simpa using hall i (Finset.mem_range.mp hlt) hfree
    have hle := (Finset.card_le_card hsub).trans (toFinset_card_le _)
    rw [length_map] at hle
    omega
  · intro hlt
    refine ⟨(free s).toList.map .ofNat, by simpa, fun i hi hfree => ⟨.ofNat i, ?_, ?_⟩⟩
    · exact mem_map_of_mem (Finset.mem_toList.mpr (by simp [free, hi, hfree]))
    · exact UInt32.toNat_ofNat_of_lt' (hi.trans s.size_lt)

theorem card_free (hsize : t.size = s.size) (hnodup : A.Nodup)
    (hfresh : ∀ y ∈ A, s.Has y ∧ s.freeMap y.toNat = false)
    (hbits : ∀ i, t.freeMap i = true ↔ s.freeMap i = true ∨ ∃ y ∈ A, y.toNat = i) :
    (free s).card = (free t).card + A.length := by
  have hunion : free s = free t ∪ (A.map UInt32.toNat).toFinset := by
    ext i
    have hbit : t.freeMap i = false ↔ s.freeMap i = false ∧ ¬ ∃ y ∈ A, y.toNat = i := by
      simpa using not_congr (hbits i)
    simp only [free, Finset.mem_union, Finset.mem_filter, Finset.mem_range, mem_toFinset, mem_map,
      hsize, hbit]
    refine ⟨fun h => or_iff_not_imp_right.mpr fun hnot => ⟨h.1, h.2, hnot⟩, ?_⟩
    rintro (h | ⟨y, hy, rfl⟩)
    · exact ⟨h.1, h.2.1⟩
    · exact hfresh y hy
  rw [hunion, Finset.card_union_of_disjoint, toFinset_card_of_nodup, length_map]
  · exact hnodup.map fun _ _ => UInt32.toNat_inj.mp
  · refine Finset.disjoint_left.mpr fun i hi hmem => ?_
    obtain ⟨y, hy, rfl⟩ := mem_map.mp (mem_toFinset.mp hmem)
    have hmarked := (hbits _).mpr (.inr ⟨y, hy, rfl⟩)
    rw [(Finset.mem_filter.mp hi).2] at hmarked
    cases hmarked

/-- A list of free sectors is an upper bound for what can be scarce. -/
theorem not_scarce {B : List ℕ} {n : ℕ} (hnodup : B.Nodup)
    (hfree : ∀ i ∈ B, i < s.size ∧ s.freeMap i = false) (hn : n ≤ B.length) : ¬ Scarce s n := by
  have hsub : B.toFinset ⊆ free s := fun i hi => by simpa [free] using hfree i (mem_toFinset.mp hi)
  have hcard := Finset.card_le_card hsub
  rw [toFinset_card_of_nodup hnodup] at hcard
  rw [scarce_iff]
  omega

theorem Taken.scarce_iff {n : ℕ} (h : Taken s t A) : Scarce s (A.length + n) ↔ Scarce t n := by
  rw [CS162.scarce_iff, CS162.scarce_iff, card_free h.same.size h.nodup h.fresh h.bits]
  omega

theorem Taken.not_scarce {n : ℕ} (h : Taken s t A) (hn : n ≤ A.length) : ¬ Scarce s n := by
  rw [CS162.scarce_iff, card_free h.same.size h.nodup h.fresh h.bits]
  omega

theorem Alloc.scarce {n : ℕ} (h : Alloc s t A) (hs : Scarce t n) : Scarce s (A.length + n) :=
  h.scarce_iff.mpr hs

/-- `free_map_allocate` writes the data of the free-map file only. -/
theorem freeMapAllocate_frame (hok : MapFits s) : Spec E (freeMapAllocate 1) s fun r t =>
      (∀ z, ¬ MapData s z → t.content z = s.content z) ∧ (∀ y, r = some y → Alloc s t [y]) ∧
      (r = none → Alloc s t [] ∧ (s.MemAvailable → Scarce s 1)) := by
  refine .get_bind ?_
  split
  next hscan =>
    refine .pure
      ⟨fun _ _ => rfl, by simp, fun _ => ⟨Alloc.refl s, fun _ => ⟨[], by simp, fun i hi hf => ?_⟩⟩⟩
    rw [bitmapScan_one_none hscan hi] at hf
    exact Bool.noConfusion hf
  next i hscan =>
    obtain ⟨hi, hfree, hlow⟩ := bitmapScan_one_some hscan
    obtain ⟨y, rfl⟩ : ∃ y : BlockSector, y.toNat = i := ⟨UInt32.ofNat i, by
      have := s.size_lt
      rw [UInt32.toNat_ofNat', Nat.mod_eq_of_lt (by omega)]⟩
    rw [bitmapSetMultiple_one, UInt32.ofNat_toNat]
    refine .set_bind ?_
    refine .ite (fun hopen => ?_) fun hnone => .pure ⟨fun _ _ => rfl, fun z hz => ?_, by simp⟩
    · have hok' : MapFits { s with freeMap := update s.freeMap y.toNat true } :=
        hok.of_same (hok.sameMapFile rfl rfl fun _ _ _ => rfl)
      refine .seq (bitmapWrite_spec hok' hopen) ?_
      rintro r t ⟨c, h, rfl, hframe, hmem, hwritten⟩
      cases r with
      | true =>
        refine .pure ⟨hframe, fun z hz => ?_, by simp⟩
        rw [← Option.some.inj hz]
        exact Alloc.of_mark hok hi hfree hlow hframe fun hm => ⟨(hmem hm).1, hwritten rfl⟩
      | false =>
        refine .modify_bind (Spec.pure ⟨hframe, by simp, fun _ => ?_⟩)
        -- without memory for the write the bit is cleared again
        have hback : bitmapSetMultiple (update s.freeMap y.toNat true) y.toNat 1 false =
            s.freeMap := by
          rw [bitmapSetMultiple_one, update_idem, ← hfree, update_eq_self]
        have hnomem : ¬ s.MemAvailable := fun hm => absurd (hmem hm).2 (by simp)
        refine ⟨Taken.alloc_nil ⟨.of_data hok hframe fun hm => absurd hm hnomem, nodup_nil, by simp,
          fun j => ?_, fun z _ hz => hframe z hz⟩ hframe, fun hm => absurd hm hnomem⟩
        rw [hback]
        simp
    · rw [← Option.some.inj hz]
      have hclosed : s.freeMapFile = none := by simpa using hnone
      exact Alloc.of_mark hok hi hfree hlow (fun _ _ => rfl) fun _ =>
        ⟨rfl, fun fm hfm => by simp [hclosed] at hfm⟩

theorem freeMapAllocate_spec (hok : MapFits s) : Spec E (freeMapAllocate 1) s fun r t =>
      (∀ y, r = some y → Alloc s t [y]) ∧
      (r = none → Alloc s t [] ∧ (s.MemAvailable → Scarce s 1)) :=
  (freeMapAllocate_frame hok).post fun _ _ h => h.2

theorem freeMapRelease_spec (hok : MapFits s) (hopen : MapOpen E s) (hy : s.Has y)
    (hmarked : s.freeMap y.toNat = true) :
    Spec E (freeMapRelease y 1) s fun _ t => ∃ c h,
      t = { s with content := c, heap := h, freeMap := update s.freeMap y.toNat false } ∧
      (∀ z, ¬ MapData s z → c z = s.content z) ∧ (s.MemAvailable → h = s.heap ∧ Synced t) := by
  refine .get_bind ?_
  have hrange : y.toNat + 1 ≤ s.size := hy
  rw [if_neg (not_not.mpr hrange), if_neg (by simpa using hmarked), bitmapSetMultiple_one]
  refine .set_bind ?_
  set s' : FileSys := { s with freeMap := update s.freeMap y.toNat false } with hs'
  have hok' : MapFits s' := hok.of_same (hok.sameMapFile rfl rfl fun _ _ _ => rfl)
  by_cases hfile : s.freeMapFile.isSome
  swap
  · refine .bind (Spec.get_bind ?_)
    have hnone : s'.freeMapFile = none := by simpa using hfile
    rw [hnone]
    exact .throw (hopen.resolve_left hfile)
  refine .seq (bitmapWrite_spec hok' hfile) ?_
  rintro r t ⟨c, h, rfl, hframe, hmem, hwritten⟩
  exact .pure ⟨c, h, rfl, hframe, fun hm => ⟨(hmem hm).1, hwritten (hmem hm).2⟩⟩

theorem Taken.release (h : Taken s t (y :: A)) (hok : MapFits s) (hopen : MapOpen E t) :
    Spec E (freeMapRelease y 1) t fun _ u =>
      Taken s u A ∧ ∀ z, ¬ MapData t z → u.content z = t.content z := by
  have hfree := (h.fresh y (by simp)).2
  have hok' := hok.of_same h.same
  refine (freeMapRelease_spec hok' hopen (h.same.has.mpr (h.fresh y (by simp)).1)
    (h.marked (by simp))).post ?_
  rintro - u ⟨c, heap, rfl, hframe, hheap⟩
  have hnodup := nodup_cons.mp h.nodup
  refine ⟨⟨h.toSteady.trans (.of_data hok' hframe hheap), hnodup.2,
    fun z hz => h.fresh z (mem_cons_of_mem _ hz), fun i => ?_, fun z hz hd => ?_⟩, hframe⟩
  · show update t.freeMap y.toNat false i = true ↔ _
    by_cases hi : i = y.toNat
    · subst hi
      rw [update_self, hfree]
      refine ⟨fun hf => Bool.noConfusion hf, ?_⟩
      rintro (hf | ⟨z, hz, heq⟩)
      · exact Bool.noConfusion hf
      · exact absurd (UInt32.toNat_inj.mp heq ▸ hz) hnodup.1
    · rw [update_of_ne hi, h.bits]
      simp [Ne.symm hi]
  · exact (hframe z fun hd' => hd (h.same.mapData.mp hd')).trans (h.keeps z hz hd)

end CS162
