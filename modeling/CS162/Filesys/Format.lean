import CS162.Filesys.Ownership

/-!
# Formatting

`do_format` lays out the free-map file while `free_map_file` is still a null pointer,
writes the bitmap to it and creates the root directory; then the free map is closed,
opened again and read back from the disk.  What comes out is a consistent file system
with two inodes (`format_owning`).

The bitmap that is read back is the one that was written because every allocation in
between has rewritten the free-map file (`Synced`).
-/

namespace CS162

open Library FileSys

variable {s t : FileSys} {live : List BlockSector}

/-! ## The first inode -/

/-- An inode in sector 0, laid out in sectors that were free, and opened as the free map. -/
theorem owning_single {u : FileSys} {D I : List BlockSector} {d : InodeDisk} (fm : Inode)
    (heap : ℕ → Bool) (hu : Alloc s u (D ++ I)) (hlaid : Laid d u.content D I)
    (hlength : d.length = byteCnt s.size) (hhigh : d.length ≤ maxInodeSize)
    (hD : D.length = capacity d.length) (hzero : s.Has freeMapSector)
    (hmarked : s.freeMap freeMapSector.toNat = true) (hsector : fm.sector = freeMapSector)
    (hdeny : fm.denyWriteCnt = 0) :
    Owning { u with
      content := Function.update u.content freeMapSector d.encode
      freeMapFile := some fm, openInodes := [fm], heap := heap } [freeMapSector] ∧
    ∀ y ∈ ownReferences (Function.update u.content freeMapSector d.encode) freeMapSector,
      y = freeMapSector ∨ s.freeMap y.toNat = false := by
  have hnew : freeMapSector ∉ D ++ I := fun hmem => by
    have := (hu.fresh _ hmem).2
    rw [hmarked] at this
    exact Bool.noConfusion this
  obtain ⟨hinode, hrefs⟩ := hlaid.ownReferences hnew (by omega) hhigh hD
  have hmem : ∀ y ∈ ownReferences (Function.update u.content freeMapSector d.encode) freeMapSector,
      y = freeMapSector ∨ y ∈ D ++ I := by
    intro y hy
    rcases List.mem_cons.mp (hrefs.mem_iff.mp hy) with rfl | hy
    · exact .inl rfl
    · exact .inr (List.perm_append_comm.mem_iff.mp hy)
  refine ⟨⟨?_, fun x hx y hy => ?_, fun x hx y hy => ?_, fun x hx => ?_, fun x hx => ?_, by simp,
    ⟨fm, rfl, hsector, hdeny⟩, ?_, fun inode hi => ?_⟩, fun y hy => ?_⟩
  · rw [List.flatMap_singleton, hrefs.nodup_iff]
    exact List.nodup_cons.mpr ⟨fun hI => hnew (List.perm_append_comm.mem_iff.mp hI),
      List.perm_append_comm.nodup_iff.mp hu.nodup⟩
  · rw [List.mem_singleton.mp hx] at hy
    refine hu.same.has.mpr ?_
    rcases hmem y hy with rfl | hy
    · exact hzero
    · exact (hu.fresh y hy).1
  · rw [List.mem_singleton.mp hx] at hy
    rcases hmem y hy with rfl | hy
    · exact (hu.bits _).mpr (.inl hmarked)
    · exact hu.marked hy
  · rw [List.mem_singleton.mp hx, hinode]
    omega
  · rwa [List.mem_singleton.mp hx, hinode]
  · rw [hinode, hlength]
    exact congrArg (fun n : ℕ => ((byteCnt n : ℕ) : ℤ)) hu.same.size.symm
  · rw [List.mem_singleton.mp hi, hsector]
    simp
  · exact (hmem y hy).imp id fun hy => (hu.fresh y hy).2

/-! ## The free-map file -/

theorem openFreeMapFile_spec {E : Fault → Prop} {Q : Unit → FileSys → Prop}
    (hclosed : ∀ i ∈ s.openInodes, i.sector ≠ freeMapSector)
    (hE : s.MemAvailable ∨ E (.panic "can't open free map"))
    (hQ : ∀ heap, (s.MemAvailable → heap = s.heap) → Q () { s with
      openInodes := ⟨freeMapSector, 1, false, 0⟩ :: s.openInodes
      freeMapFile := some ⟨freeMapSector, 1, false, 0⟩, heap := heap }) :
    Spec E openFreeMapFile s Q := by
  have hnone : findInode freeMapSector s.openInodes = none :=
    List.find?_eq_none.mpr fun i hi => by simpa using hclosed i hi
  have hfault : ∀ n, s.heap n = false → E (.panic "can't open free map") := by
    intro n hn
    refine hE.resolve_left fun hmem => ?_
    rw [hmem] at hn
    cases hn
  apply Spec.bind
  apply Spec.get_bind
  rw [if_neg (by simp [hnone])]
  apply Spec.bind
  apply malloc_spec
  refine .ite (fun _ => ?_) fun hno => .pure (Spec.throw (hfault 0 (by simpa using hno)))
  apply Spec.modify_bind
  apply Spec.pure
  apply Spec.bind
  apply malloc_spec
  refine .ite (fun hno => .throw (hfault 1 (by simpa using hno))) fun _ => ?_
  apply Spec.modify
  exact hQ _ fun hmem => by rw [hmem]

theorem Owning.bitmapWrite (h : Owning s live) : Ensures FileSys.bitmapWrite s fun r t => r = true →
      Owning t live ∧ Synced t ∧ (s.MemAvailable → t.MemAvailable) ∧ t.size = s.size ∧
      t.openInodes = s.openInodes ∧ t.freeMap = s.freeMap ∧
      ∀ x ∈ live, ownReferences t.content x = ownReferences s.content x := by
  refine (bitmapWrite_spec h.mapFileOk.fits h.isSome_map).post ?_
  rintro r t ⟨c, heap, rfl, hframe, hheap, hwritten⟩ hr
  have hsame : ∀ x ∈ live, SameMap s.content c x (capacity (inodeAt s.content x).length) :=
    fun x hx => h.sameMap_of_keeps hx fun y _ _ hd _ => hframe y hd
  exact ⟨h.keep (List.Sublist.refl _) h.map_live rfl rfl hsame h.marked h.opened, hwritten hr,
    fun hm => (hheap hm).1.trans hm, rfl, rfl, rfl, fun x hx => (hsame x hx).ownReferences⟩

/-- `free_map_create` in a file system whose free map is not open. -/
theorem freeMapCreate_ensures (hfile : s.freeMapFile = none) (hopened : s.openInodes = [])
    (hzero : s.Has freeMapSector) (hmarked : s.freeMap freeMapSector.toNat = true) :
    Ensures freeMapCreate s fun _ t => Owning t [freeMapSector] ∧ Synced t ∧
      (s.MemAvailable → t.MemAvailable) ∧ t.size = s.size ∧
      t.openInodes = [⟨freeMapSector, 1, false, 0⟩] ∧
      (∀ i, s.freeMap i = true → t.freeMap i = true) ∧
      ∀ y ∈ ownReferences t.content freeMapSector, y = freeMapSector ∨
        s.freeMap y.toNat = false := by
  apply Spec.get_bind
  apply Spec.bind
  have hok := mapFileOk_of_none hfile
  refine (inodeCreate_spec (fun _ => trivial) hok (.inr trivial) hzero (by omega)
    (.inr trivial)).post ?_
  intro r t hr
  obtain ⟨-, hdone⟩ := hr
  cases r with
  | false => exact .throw trivial
  | true =>
    obtain ⟨hmax, -, D, I, d, u, hlength, hlen, hu, hlaid, -, rfl⟩ := hdone rfl
    have hsmall : (byteCnt s.size : ℤ) < 2147483648 := by
      have := s.size_lt
      unfold byteCnt
      omega
    obtain ⟨hcap, hle⟩ := capacity_eq (by omega) hsmall hmax
    apply Spec.bind
    apply openFreeMapFile_spec
    · intro i hi
      rw [show u.openInodes = [] from hu.openInodes.trans hopened] at hi
      simp at hi
    · exact .inr trivial
    intro heap hheap
    obtain ⟨hown, hrefs⟩ := owning_single ⟨freeMapSector, 1, false, 0⟩ heap hu
      hlaid hlength (hlength ▸ hle) (by rw [hlen, hlength, hcap]) hzero hmarked rfl rfl
    have hnil : u.openInodes = [] := hu.openInodes.trans hopened
    rw [hnil]
    apply Spec.bind
    refine hown.bitmapWrite.post ?_
    intro r v hv
    refine .ite (fun _ => .throw trivial) fun hr => ?_
    obtain ⟨hown', hsynced, hmem', hsize, hopen', hmap, hsame⟩ := hv (by simpa using hr)
    refine .pure ⟨hown', hsynced, fun hmem => hmem' ?_, hsize.trans hu.same.size, hopen', ?_, ?_⟩
    · exact (hheap ((hu.mem hmem).congr rfl)).trans (hu.mem hmem)
    · intro i hi
      rw [hmap]
      exact (hu.bits i).mpr (.inl hi)
    · intro y hy
      rw [hsame _ (by simp)] at hy
      exact hrefs y hy

/-- `free_map_open` reads back the bits that the file holds, those behind the end of the bitmap
apart. -/
theorem freeMapOpen_spec {E : Fault → Prop} (bits : ℕ → Bool) (hstored : Stored s freeMapSector)
    (hlength : (inodeAt s.content freeMapSector).length = byteCnt s.size)
    (hbits : ∀ p < byteCnt s.size, fileByte s.content freeMapSector p = bitsByte bits p)
    (hclosed : ∀ i ∈ s.openInodes, i.sector ≠ freeMapSector)
    (hE : s.MemAvailable ∨ E (.panic "can't open free map") ∧ E (.panic "can't read free map")) :
    Spec E freeMapOpen s fun _ t => ∃ heap, t = { s with
      openInodes := ⟨freeMapSector, 1, false, 0⟩ :: s.openInodes
      freeMapFile := some ⟨freeMapSector, 1, false, 0⟩, heap := heap
      freeMap := fun i => decide (i < s.size) && bits i } := by
  apply Spec.bind
  apply openFreeMapFile_spec hclosed (hE.imp id And.left)
  intro heap hheap
  apply Spec.get_bind
  dsimp only
  set t : FileSys := { s with
    openInodes := ⟨freeMapSector, 1, false, 0⟩ :: s.openInodes
    freeMapFile := some ⟨freeMapSector, 1, false, 0⟩, heap := heap } with ht
  have hstored' : Stored t freeMapSector := hstored.of_sameMap rfl ⟨rfl, fun _ _ _ _ => rfl⟩
  have hread : Spec E
      (inodeReadAt ⟨freeMapSector, 1, false, 0⟩ (byteCnt s.size : ℤ) ((0 : ℕ) : ℤ)) t
      _ := inodeReadAt_spec hstored' fun hlt => absurd hlt (by
        simp)
  apply Spec.bind
  refine hread.post ?_
  rintro bytes u ⟨heap', m, rfl, hbytes, hall⟩
  rw [List.nil_append] at hbytes
  refine .ite (fun hshort => ?_) fun hlen => ?_
  · -- with memory the whole file has been read
    refine hE.elim (fun hmem => absurd ?_ hshort) fun h => .throw h.2
    have hcount := (hall (.inl ((hheap hmem).trans hmem))).2
    rw [show (inodeAt t.content freeMapSector).length = byteCnt s.size from hlength] at hcount
    rw [hbytes, length_fileBytes]
    omega
  apply Spec.modify
  refine ⟨heap', ?_⟩
  have hm : m = byteCnt s.size := by
    rw [hbytes, length_fileBytes] at hlen
    exact not_not.mp hlen
  have hbit : ∀ i < s.size, byteBit (fun k => bytes.getD k 0) i = bits i := by
    intro i hi
    have hk : i / 8 < byteCnt s.size := by
      unfold byteCnt
      omega
    have hbyte : bytes.getD (i / 8) 0 = bitsByte bits (i / 8) := by
      rw [← hbits _ hk, hbytes, hm, fileBytes, List.getD_eq_getElem?_getD, List.getElem?_map,
        List.getElem?_range hk]
      simp [ht]
    rw [← byteBit_bitsByte bits i]
    simp only [byteBit, hbyte]
  have hmap : (fun i => decide (i < t.size) && byteBit (fun k => bytes.getD k 0) i) =
      fun i => decide (i < s.size) && bits i := by
    funext i
    by_cases hi : i < s.size
    · rw [hbit i hi]
    · simp [ht, hi]
  rw [hmap]

/-- `free_map_open` reads back the bitmap that the file holds. -/
theorem Owning.freeMapOpen (h : Owning s live) (hsynced : Synced s)
    (hclosed : ∀ i ∈ s.openInodes, i.sector ≠ freeMapSector) :
    Ensures freeMapOpen s fun _ t => Owning t live := by
  obtain ⟨fm, hfm, hsec, -⟩ := h.map_file
  refine (freeMapOpen_spec _ (h.stored h.map_live) h.map_length
    (fun p hp => hsec ▸ hsynced fm hfm p hp) hclosed (.inr ⟨trivial, trivial⟩)).post ?_
  rintro - t ⟨heap, rfl⟩
  have hopened : ∀ i ∈ (⟨freeMapSector, 1, false, 0⟩ : Inode) :: s.openInodes, i.sector ∈ live := by
    intro i hi
    rcases List.mem_cons.mp hi with rfl | hi
    · exact h.map_live
    · exact h.opened i hi
  have hmarked : ∀ x ∈ live, ∀ y ∈ ownReferences s.content x,
      (decide (y.toNat < s.size) && s.freeMap y.toNat) = true := by
    intro x hx y hy
    rw [h.marked x hx y hy, Bool.and_true]
    exact decide_eq_true (h.has x hx y hy)
  exact ⟨h.nodup, h.has, hmarked, h.length_nonneg, h.length_le, h.map_live, ⟨_, rfl, rfl, rfl⟩,
    h.map_length, hopened⟩

/-! ## `do_format` -/

theorem freeMapInit_spec {E : Fault → Prop} {unused : ℕ → Bool} (hsmall : 1 < s.size ∨
      E (.panic "idx < b->bit_cnt"))
    (hE : s.MemAvailable ∨
      E (.panic "bitmap creation failed--file system device is too large")) :
    Spec E (freeMapInit unused) s fun _ t => 1 < s.size ∧ ∃ heap,
      (s.MemAvailable → heap = s.heap) ∧ t = { s with
        freeMap := fun i => if i < s.size then i == 0 || i == 1 else unused i, heap := heap } := by
  have hfault : ∀ n, s.heap n = false →
      E (.panic "bitmap creation failed--file system device is too large") := by
    intro n hn
    refine hE.resolve_left fun hmem => ?_
    rw [hmem] at hn
    cases hn
  apply Spec.get_bind
  apply Spec.bind
  apply malloc_spec
  cases hfirst : s.heap 0 with
  | false => exact .throw (hfault 0 hfirst)
  | true =>
    apply Spec.bind
    apply malloc_spec
    refine .ite (fun hno => .throw (hfault 1 (by simpa using hno))) fun _ => ?_
    refine .ite (fun hle => .throw (hsmall.resolve_left (by omega))) fun hsize => ?_
    apply Spec.modify
    exact ⟨by omega, _, fun hmem => by rw [hmem], rfl⟩

/-- **Formatting** leaves a consistent file system that consists of the free map and the
root directory. -/
theorem format_owning {unused : ℕ → Bool} (hfile : s.freeMapFile = none)
    (hopened : s.openInodes = []) (hmem : s.MemAvailable) :
    Ensures (format unused) s fun _ t => Owning t [rootDirSector, freeMapSector] := by
  refine .seq (freeMapInit_spec (.inr trivial) (.inl hmem)) ?_
  rintro _ t ⟨hsize, heap, hheap, ht⟩
  have hbit : ∀ i ≤ 1, t.freeMap i = true := by
    intro i hi
    rw [ht]
    dsimp only
    rw [if_pos (by omega)]
    rcases Nat.le_one_iff_eq_zero_or_eq_one.mp hi with rfl | rfl <;> rfl
  have htsize : t.size = s.size := by rw [ht]
  have hcreate := freeMapCreate_ensures (s := t) (by rw [ht]; exact hfile)
    (by rw [ht]; exact hopened)
    (lt_of_lt_of_eq (lt_trans Nat.zero_lt_one hsize) htsize.symm) (hbit 0 (by omega))
  apply Spec.bind
  refine hcreate.post ?_
  rintro _ u ⟨hown, hsynced, hmem', hsize', hopen', hbits, hrefs⟩
  have hmemt : t.MemAvailable := by
    rw [ht]
    exact (hheap hmem).trans hmem
  have hroot : t.freeMap rootDirSector.toNat = true := hbit 1 (by omega)
  have hhas : u.Has rootDirSector := lt_of_lt_of_eq hsize (hsize'.trans htsize).symm
  have hfresh : ∀ z ∈ [freeMapSector], rootDirSector ∉ ownReferences u.content z := by
    intro z hz hmem
    rw [List.mem_singleton.mp hz] at hmem
    rcases hrefs _ hmem with heq | hfree
    · exact absurd heq (by decide)
    · exact Bool.noConfusion (hfree.symm.trans hroot)
  refine .seq (hown.inodeCreate (fun _ => trivial) hhas (hbits _ hroot) hfresh
    (by decide +kernel) (by decide +kernel)
    (.inr trivial)) ?_
  rintro r v ⟨-, hdone⟩
  refine .ite (fun _ => .throw trivial) fun hr => ?_
  obtain ⟨hown', hspares⟩ := hdone (by simpa using hr)
  -- the free map is the only open inode, so closing it leaves none
  have hlist : v.openInodes = [⟨freeMapSector, 1, false, 0⟩] := hspares.openInodes.trans hopen'
  apply Spec.bind
  apply Spec.get_bind
  rw [hlist]
  apply Spec.modify_bind
  apply Spec.pure
  rw [hlist]
  exact (hown'.of_openInodes (by simp)).freeMapOpen (hspares.synced (hmem' hmemt) hsynced) (by simp)

end CS162
