import CS162.Filesys.Volume
import CS162.Kernel.BitmapFile

/-!
# The free map survives a remount

`free_map_allocate` and `free_map_release` write the bitmap to the free-map file each time, and
`free_map_open` of the next boot reads it back.  `free_map_allocate` clears its bits again when
the file could not be written; `free_map_release` does not look at what `bitmap_write` returns, so
without memory for the bounce buffer of `inode_write_at` the file keeps the old bits.

## Strategy

`Decodes s` says that the file has the bits of the free map.  The calls change nothing but the data
of the file, so the file itself stays usable (`MapFileKept`), whoever owns the sectors that are
released.  What `bitmap_read` makes of the file, masked last word included, is `bitmapRead_spec`.
-/

namespace CS162

open Library FileSys List

variable {s t : FileSys} {E : Fault → Prop}

/-! ## Calls of the free map -/

/-- A call that changes the free map, or the next boot. -/
inductive MapOp where
  | allocate (cnt : ℕ)
  | release (sector : BlockSector) (cnt : ℕ)
  | remount (heap unused : ℕ → Bool)

namespace FileSys

/-- The machine is switched off and on; nothing but the disk stays. -/
def reboot (s : FileSys) (heap : ℕ → Bool) : FileSys :=
  { s with freeMap := fun _ => false, freeMapFile := none, openInodes := [], heap := heap }

/-- `free_map_init` and `free_map_create`, when the disk is formatted. -/
def firstMount (unused : ℕ → Bool) : Fs Unit := do
  freeMapInit unused
  freeMapCreate

/-- `free_map_init` and `free_map_open`. -/
def remount (unused : ℕ → Bool) : Fs Unit := do
  freeMapInit unused
  freeMapOpen

end FileSys

/-- What a call leaves. -/
def MapOp.apply (s : FileSys) : MapOp → Except Fault (Option FileSys)
  | .allocate cnt => (fun r => some r.2) <$> (freeMapAllocate cnt).run s
  | .release sector cnt => (fun r => some r.2) <$> (freeMapRelease sector cnt).run s
  | .remount heap unused => (fun r => some r.2) <$> (FileSys.remount unused).run (s.reboot heap)

def MapOp.Step (s : FileSys) (op : MapOp) (t : FileSys) : Prop := apply s op = .ok (some t)

/-- There is memory for the bounce buffer when sectors are released. -/
def MapOp.HasBuffer (s : FileSys) : MapOp → Prop
  | .release _ _ => s.heap 0 = true
  | _ => True

/-! ## The file and its bits -/

/-- The free-map file is open, has the length of the bitmap and can be read and written. -/
structure MapFileKept (s : FileSys) : Prop where
  file : ∃ fm, s.freeMapFile = some fm ∧ fm.sector = freeMapSector ∧ fm.denyWriteCnt = 0
  stored : Stored s freeMapSector
  length : (inodeAt s.content freeMapSector).length = byteCnt s.size
  size : 1 < s.size

/-- The bits of the file are those of the free map. -/
def Decodes (s : FileSys) : Prop :=
  ∀ i < s.size, byteBit (fileByte s.content freeMapSector) i = s.freeMap i

theorem Owning.mapFileKept {live : List BlockSector} (h : Owning s live) (hsize : 1 < s.size) :
    MapFileKept s :=
  ⟨h.map_file, h.stored h.map_live, h.map_length, hsize⟩

theorem Synced.decodes (h : Synced s) (hkept : MapFileKept s) : Decodes s := by
  obtain ⟨fm, hfm, hsector, -⟩ := hkept.file
  intro i hi
  have hbyte : i / 8 < byteCnt s.size := by
    unfold byteCnt
    omega
  rw [← byteBit_bitsByte s.freeMap i, byteBit, byteBit, ← h fm hfm _ hbyte, hsector]

namespace MapFileKept

variable (h : MapFileKept s)
include h

theorem of_freeMap (bits : ℕ → Bool) : MapFileKept { s with freeMap := bits } :=
  ⟨h.file, h.stored.of_sameMap rfl ⟨rfl, fun _ _ _ _ => rfl⟩, h.length, h.size⟩

/-- `bitmap_write` writes the file, unless there is no memory. -/
theorem bitmapWrite : Spec E FileSys.bitmapWrite s fun r t => ∃ c heap,
    t = { s with content := c, heap := heap } ∧ MapFileKept t ∧ (r = true → Decodes t) ∧
    (r = false → c = s.content ∧ s.heap 0 = false) := by
  obtain ⟨fm, hfm, hsector, hdeny⟩ := h.file
  refine (bitmapWrite_inPlace hfm (hsector ▸ h.stored) (hsector ▸ h.length) hdeny).post ?_
  rintro r t ⟨c, heap, rfl, -, hframe, hwritten, hunwritten⟩
  rw [hsector] at hframe hwritten
  have hsame := h.stored.mapped.sameMap hframe
  have hkept : MapFileKept { s with content := c, heap := heap } := by
    refine ⟨⟨fm, hfm, hsector, hdeny⟩, h.stored.of_sameMap rfl hsame, ?_, h.size⟩
    rw [hsame.inodeAt, h.length]
  refine ⟨c, heap, rfl, hkept, fun hr i hi => ?_, hunwritten⟩
  have hin : i < s.size := hi
  have hbyte : i / 8 < byteCnt s.size := by
    unfold byteCnt
    omega
  rw [← byteBit_bitsByte s.freeMap i, byteBit, byteBit, hwritten hr _ hbyte]

end MapFileKept

/-! ## One call -/

theorem bitmapScan_some {bits : ℕ → Bool} {n cnt i : ℕ} (h : bitmapScan bits n cnt = some i) :
    ∀ j, i ≤ j → j < i + cnt → bits j = false := by
  intro j hlow hhigh
  unfold bitmapScan at h
  split at h
  · have hall := find?_some h
    have hbit := all_eq_true.mp hall (j - i) (mem_range.mpr (by omega))
    rwa [Nat.add_sub_cancel' hlow, Bool.not_eq_true'] at hbit
  · cases h

/-- Bits that were clear and have been set are cleared again. -/
theorem bitmapSetMultiple_undo {bits : ℕ → Bool} {i cnt : ℕ}
    (h : ∀ j, i ≤ j → j < i + cnt → bits j = false) :
    bitmapSetMultiple (bitmapSetMultiple bits i cnt true) i cnt false = bits := by
  funext j
  unfold bitmapSetMultiple
  by_cases hj : i ≤ j ∧ j < i + cnt
  · rw [if_pos hj, h j hj.1 hj.2]
  · rw [if_neg hj, if_neg hj]

theorem MapFileKept.allocate (h : MapFileKept s) (hdecodes : Decodes s) (cnt : ℕ) :
    Ensures (freeMapAllocate cnt) s fun _ t => MapFileKept t ∧ Decodes t := by
  obtain ⟨fm, hfm, -⟩ := h.file
  refine .get_bind ?_
  split
  · exact .pure ⟨h, hdecodes⟩
  next i hscan =>
  refine .set_bind ?_
  rw [if_pos (by simp [hfm])]
  refine .bind ((h.of_freeMap _).bitmapWrite.post ?_)
  rintro r t ⟨c, heap, rfl, hkept, hwritten, hunwritten⟩
  cases r with
  | true => exact .pure ⟨hkept, hwritten rfl⟩
  | false =>
    -- the file has not changed, and neither have the bits when they are cleared again
    refine .modify_bind (Spec.pure ⟨hkept.of_freeMap _, ?_⟩)
    obtain ⟨rfl, -⟩ := hunwritten rfl
    intro j hj
    rw [bitmapSetMultiple_undo (bitmapScan_some hscan)]
    exact hdecodes j hj

theorem MapFileKept.release (h : MapFileKept s) (hheap : s.heap 0 = true) (sector : BlockSector)
    (cnt : ℕ) : Ensures (freeMapRelease sector cnt) s fun _ t => MapFileKept t ∧ Decodes t := by
  refine .get_bind ?_
  refine .ite (fun _ => .throw trivial) fun _ => ?_
  refine .ite (fun _ => .throw trivial) fun _ => ?_
  refine .set_bind ?_
  refine .bind ((h.of_freeMap _).bitmapWrite.post ?_)
  rintro r t ⟨c, heap, rfl, hkept, hwritten, hunwritten⟩
  cases r with
  | true => exact .pure ⟨hkept, hwritten rfl⟩
  | false =>
    have hnone : s.heap 0 = false := (hunwritten rfl).2
    rw [hheap] at hnone
    cases hnone

theorem MapFileKept.remount (h : MapFileKept s) (hdecodes : Decodes s) (heap unused : ℕ → Bool)
    (hE : (∀ n, heap n = true) ∨ ∀ site, E (.panic site)) :
    Spec E (FileSys.remount unused) (s.reboot heap) fun _ t => MapFileKept t ∧ t.size = s.size ∧
      t.content = s.content ∧ ∀ i < s.size, t.freeMap i = s.freeMap i := by
  have hmem : (∀ n, heap n = true) → (s.reboot heap).MemAvailable := fun hall => funext hall
  refine .seq (freeMapInit_spec (s := s.reboot heap) (.inl h.size)
    (hE.imp hmem fun hpanic => hpanic _)) ?_
  rintro - t ⟨-, heap', hheap, rfl⟩
  have hstored : Stored { s.reboot heap with
      freeMap := fun i => if i < s.size then i == 0 || i == 1 else unused i, heap := heap' }
      freeMapSector :=
    h.stored.of_sameMap rfl ⟨rfl, fun _ _ _ _ => rfl⟩
  refine (freeMapOpen_spec (byteBit (fileByte s.content freeMapSector)) hstored h.length
    (fun p _ => (bitsByte_byteBit _ p).symm) nofun ?_).post ?_
  · refine hE.imp (fun hall => ?_) fun hpanic => ⟨hpanic _, hpanic _⟩
    exact (hheap (hmem hall)).trans (hmem hall)
  rintro - u ⟨heap'', rfl⟩
  refine ⟨⟨⟨_, rfl, rfl, rfl⟩, h.stored.of_sameMap rfl ⟨rfl, fun _ _ _ _ => rfl⟩, h.length, h.size⟩,
    rfl, rfl, fun i hi => ?_⟩
  have hin : i < (s.reboot heap).size := hi
  simp only [hin]
  exact hdecodes i hi

/-- **One call** keeps the file readable and in step with the free map. -/
theorem MapFileKept.step {op : MapOp} (h : MapFileKept s) (hdecodes : Decodes s)
    (hbuffer : MapOp.HasBuffer s op) (hstep : MapOp.Step s op t) : MapFileKept t ∧ Decodes t := by
  cases op with
  | allocate cnt =>
    obtain ⟨⟨r, u⟩, hrun, ⟨⟩⟩ := map_eq_ok.mp hstep
    exact (h.allocate hdecodes cnt).of_run_eq hrun
  | release sector cnt =>
    obtain ⟨⟨r, u⟩, hrun, ⟨⟩⟩ := map_eq_ok.mp hstep
    exact (h.release hbuffer sector cnt).of_run_eq hrun
  | remount heap unused =>
    obtain ⟨⟨r, u⟩, hrun, ⟨⟩⟩ := map_eq_ok.mp hstep
    obtain ⟨hkept, hsize, hcontent, hbits⟩ :=
      (h.remount (E := fun _ => True) hdecodes heap unused (.inr fun _ => trivial)).of_run_eq hrun
    refine ⟨hkept, fun i hi => ?_⟩
    have hi' : i < s.size := lt_of_lt_of_eq hi hsize
    rw [hbits i hi', ← hdecodes i hi', ← hcontent]

theorem firstMount_kept {unused : ℕ → Bool} (hfile : s.freeMapFile = none)
    (hopened : s.openInodes = []) :
    Ensures (firstMount unused) s fun _ t => MapFileKept t ∧ Decodes t := by
  refine .seq (freeMapInit_spec (.inr trivial) (.inr trivial)) ?_
  rintro - t ⟨hsize, heap, -, rfl⟩
  have hhas : freeMapSector.toNat < s.size := lt_trans Nat.zero_lt_one hsize
  refine (freeMapCreate_ensures (s := { s with freeMap := _, heap := heap }) hfile hopened hhas
    (if_pos hhas)).post ?_
  rintro - u ⟨hown, hsynced, -, hsame, -⟩
  have hkept := hown.mapFileKept (lt_of_lt_of_eq hsize hsame.symm)
  exact ⟨hkept, hsynced.decodes hkept⟩

theorem run_kept {unused : ℕ → Bool} {s₀ s₁ : FileSys} {ops : List MapOp}
    (hfile : s₀.freeMapFile = none) (hopened : s₀.openInodes = [])
    (hmount : (firstMount unused).run s₀ = .ok ((), s₁))
    (hrun : Run (Guarded MapOp.HasBuffer MapOp.Step) s₁ ops s) : MapFileKept s ∧ Decodes s := by
  refine hrun.invariant (I := fun s : FileSys => MapFileKept s ∧ Decodes s) ?_ ?_
  · exact (firstMount_kept hfile hopened).of_run_eq hmount
  · intro s op t hI hstep
    exact hI.1.step hI.2 hstep.1 hstep.2

/-! ## The words of the bitmap -/

/-- `bitmap_read` of the free-map file, whatever the words were before. -/
theorem MapFileKept.bitmapRead (h : MapFileKept s) (hdecodes : Decodes s) {b : Bitmap}
    (hcnt : b.bitCnt = s.size) (hlen : b.bits.length = Bitmap.elemCnt s.size) :
    ∃ b', b.bitmapRead (fileBytes s.content freeMapSector 0 (byteCnt s.size)) = .ok (b', true) ∧
      ∀ i < s.size, b'.bitmapTest i = .ok (s.freeMap i) := by
  have hsize := h.size
  -- the file has at most 8 MB, so the number of words does not overflow
  have hsmall : s.size + 31 < sizeLimit := by
    have hle := h.stored.length_le
    rw [h.length] at hle
    unfold byteCnt maxInodeSize at hle
    rw [sizeLimit]
    omega
  have hread : (fileBytes s.content freeMapSector 0 (byteCnt s.size)).length =
      Bitmap.byteCnt b.bitCnt := by
    rw [length_fileBytes, hcnt, Bitmap.byteCnt, Bitmap.elemCnt_eq hsmall]
    rfl
  obtain ⟨b', hok, hcnt', hbit⟩ := Bitmap.bitmapRead_spec (by omega) (hcnt ▸ hsmall)
    (hcnt ▸ hlen) hread
  refine ⟨b', hok, fun i hi => ?_⟩
  have hbyte : i / 8 < byteCnt s.size := by
    unfold byteCnt
    omega
  rw [Bitmap.bitmapTest_eq (by omega), hbit, hcnt, decide_eq_true hi, Bool.true_and,
    ← hdecodes i hi, byteBit, byteBit, fileBytes, getD_eq_getElem?_getD, getElem?_map,
    getElem?_range hbyte]
  simp

/-! ## The main result -/

/-- **The free map survives a remount.** From the moment on when the free-map file has been created,
after any allocations, releases and remounts in which no release runs out of memory for its bounce
buffer: `bitmap_read` makes the bits of the free map out of the file, whatever the words of the
bitmap were, and the next `free_map_init` and `free_map_open` bring the free map back, unless there
is no memory. -/
theorem freeMap_survives_remount {unused : ℕ → Bool} {s₀ s₁ : FileSys} {ops : List MapOp}
    (hfile : s₀.freeMapFile = none) (hopened : s₀.openInodes = [])
    (hmount : (firstMount unused).run s₀ = .ok ((), s₁))
    (hrun : Run (Guarded MapOp.HasBuffer MapOp.Step) s₁ ops s) :
    (∀ b : Bitmap, b.bitCnt = s.size → b.bits.length = Bitmap.elemCnt s.size →
      ∃ b', b.bitmapRead (fileBytes s.content freeMapSector 0 (byteCnt s.size)) = .ok (b', true) ∧
        ∀ i < s.size, b'.bitmapTest i = .ok (s.freeMap i)) ∧
      ∀ heap unused' : ℕ → Bool, Ensures (FileSys.remount unused') (s.reboot heap)
          (fun _ t => ∀ i < s.size, t.freeMap i = s.freeMap i) ∧
        ((∀ n, heap n = true) → Returns (FileSys.remount unused') (s.reboot heap)
          fun _ t => ∀ i < s.size, t.freeMap i = s.freeMap i) := by
  obtain ⟨hkept, hdecodes⟩ := run_kept hfile hopened hmount hrun
  refine ⟨fun b => hkept.bitmapRead hdecodes, fun heap unused' => ⟨?_, fun hall => ?_⟩⟩
  · exact (hkept.remount hdecodes heap unused' (.inr fun _ => trivial)).post fun _ _ ht => ht.2.2.2
  · exact (hkept.remount hdecodes heap unused' (.inl hall)).post fun _ _ ht => ht.2.2.2

/-! ## A small disk -/

theorem exists_run_of_firstMount {s₀ : FileSys} {step : FileSys → MapOp → FileSys → Prop}
    {next : FileSys → MapOp → Option FileSys} {ops : List MapOp} {Q : FileSys → FileSys → Prop}
    (hnext : ∀ s op t, next s op = some t → step s op t) (P : FileSys → Prop)
    (h : Returns (firstMount fun _ => true) s₀ fun _ s => ∃ t ∈ execute next s ops, P t)
    (hQ : ∀ s₁ s, (firstMount fun _ => true).run s₀ = .ok ((), s₁) → Run step s₁ ops s → P s →
      Q s₁ s) :
    ∃ s₁ s, (firstMount fun _ => true).run s₀ = .ok ((), s₁) ∧ Run step s₁ ops s ∧ Q s₁ s := by
  obtain ⟨⟨⟩, s₁, hmount, hexec⟩ := returns_iff.mp h
  obtain ⟨s, hrun, hs⟩ := exists_run_of_execute hnext hexec
  exact ⟨s₁, s, hmount, hrun, hQ s₁ s hmount hrun hs⟩

/-- Two allocations, a release, a remount and one more allocation. -/
theorem freeMap_survives_remount_blankDisk : ∃ s₁ s,
    (firstMount fun _ => true).run Volume.blankDisk = .ok ((), s₁) ∧
    Run (Guarded MapOp.HasBuffer MapOp.Step) s₁
      [.allocate 1, .allocate 2, .release 3 1, .remount (fun _ => true) (fun _ => true),
        .allocate 2] s ∧
    s.freeMap 3 = false ∧ s.freeMap 7 = true ∧
    Returns (FileSys.remount fun _ => true) (s.reboot fun _ => true) fun _ t =>
      ∀ i < s.size, t.freeMap i = s.freeMap i := by
  have hbuffer : ∀ s op, ¬ s.heap 0 = false → MapOp.HasBuffer s op := by
    intro s op hheap
    cases op <;> first | exact Bool.of_not_eq_false hheap | trivial
  refine exists_run_of_firstMount (guarded_of_ite (fun _ _ _ => outcome_eq_some.mp) hbuffer)
    (fun s => s.freeMap 3 = false ∧ s.freeMap 7 = true) (by decide +kernel) ?_
  intro s₁ s hmount hrun ⟨hfree, hmarked⟩
  exact ⟨hfree, hmarked, ((freeMap_survives_remount rfl rfl hmount hrun).2 _ _).2 fun _ => rfl⟩

/-- A sector is released when there is no memory: `free_map_release` returns, but after the next
boot the sector is allocated again. -/
theorem release_forgotten : ∃ s₁ s,
    (firstMount fun _ => true).run { Volume.blankDisk with heap := fun n => decide (n < 7) } =
      .ok ((), s₁) ∧
    Run MapOp.Step s₁ [.allocate 1, .release 3 1] s ∧
    s.freeMap 3 = false ∧
    Returns (FileSys.remount fun _ => true) (s.reboot fun _ => true) fun _ t =>
      t.freeMap 3 = true := by
  exact exists_run_of_firstMount (fun _ _ _ => outcome_eq_some.mp) _ (by decide +kernel)
    fun _ _ _ _ hs => hs

end CS162
