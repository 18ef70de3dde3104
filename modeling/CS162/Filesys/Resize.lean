import CS162.Filesys.Allocation

/-!
# Freeing and resizing

`resize_inode` reads the file, frees its data blocks, allocates new ones and writes the
bytes back.  The pointers to the new blocks go into a copy of the inode that is thrown
away, so the bytes go back to the old blocks.

## Strategy

`Released s t B` is the counterpart of `Alloc`: the sectors `B` have been given back.
`Spares own s t` is what allocating, releasing and writing have in common once the
sectors in `own` are given up: every other sector that was marked is still marked and
keeps its content, the free-map file apart.  It is transitive, so the frame of
`resize_inode` is put together from the frames of its calls (`resizeInode_spares`).
-/

namespace CS162

open Library FileSys List

variable {s t u : FileSys} {x y : BlockSector} {n : ℕ} {E : Fault → Prop}

/-! ## Giving sectors back -/

/-- From `s` to `t` the sectors in `B` have been given back. -/
structure Released (B : BlockSector → Prop) (s t : FileSys) : Prop extends Steady s t where
  bits : ∀ i, t.freeMap i = true ↔ s.freeMap i = true ∧ ∀ y, B y → y.toNat ≠ i
  keeps : ∀ y, ¬ MapData s y → t.content y = s.content y

namespace Released

variable {B B' : BlockSector → Prop}

theorem refl (s : FileSys) : Released (fun _ => False) s s where
  toSteady := .refl s
  bits := by simp
  keeps _ _ := rfl

theorem congr (h : Released B s t) (hB : ∀ y, B' y ↔ B y) : Released B' s t := by
  rwa [funext fun y => propext (hB y)]

theorem trans (h : Released B s t) (h' : Released B' t u) : Released (fun y => B y ∨ B' y) s u where
  toSteady := h.toSteady.trans h'.toSteady
  bits i := by
    rw [h'.bits, h.bits]
    constructor
    · rintro ⟨⟨hs, hB⟩, hB'⟩
      exact ⟨hs, fun y hy => hy.elim (hB y) (hB' y)⟩
    · rintro ⟨hs, hall⟩
      exact ⟨⟨hs, fun y hy => hall y (.inl hy)⟩, fun y hy => hall y (.inr hy)⟩
  keeps y hy := (h'.keeps y fun hd => hy (h.same.mapData.mp hd)).trans (h.keeps y hy)

end Released

theorem freeMapRelease_released (hok : MapFits s) (hopen : MapOpen E s) (hy : s.Has y)
    (hmarked : s.freeMap y.toNat = true) :
    Spec E (freeMapRelease y 1) s fun _ t => Released (fun z => z = y) s t := by
  refine (freeMapRelease_spec hok hopen hy hmarked).post ?_
  rintro - t ⟨c, h, rfl, hframe, hmem⟩
  refine ⟨.of_data hok hframe hmem, fun i => ?_, hframe⟩
  by_cases hi : i = y.toNat
  · simp [hi]
  · simp [Function.update_of_ne hi, Ne.symm hi]

/-- `free_map_release_array` of distinct marked sectors.  If there are more of them than
the array has entries, the loop runs past its end. -/
theorem freeMapReleaseArray_released {bound cnt : ℕ} {sectorp f : ℕ → BlockSector} (hok : MapFits s)
    (hopen : MapOpen E s) (hbound : cnt ≤ bound ∨ E (.undefined "sectorp[i]"))
    (hf : ∀ i < bound, i < cnt → sectorp i = f i) (hhas : ∀ i < cnt, s.Has (f i))
    (hmarked : ∀ i < cnt, s.freeMap (f i).toNat = true)
    (hinj : ∀ i < cnt, ∀ j < cnt, f i = f j → i = j) :
    Spec E (freeMapReleaseArray freeMapOps bound sectorp cnt) s fun _ t =>
      cnt ≤ bound ∧ Released (fun y => ∃ i < cnt, y = f i) s t := by
  refine (Spec.forUpto (fun i t => i ≤ bound ∧ Released (fun y => ∃ j < i, y = f j) s t)
    cnt 0 ⟨by omega, (Released.refl s).congr (by simp)⟩ ?_).post ?_
  swap
  · intro _ t ht
    rwa [zero_add] at ht
  rintro i t - hi ⟨hle, ht⟩
  have hi' : i < cnt := by omega
  refine .ite (fun hib => ?_) fun hib => .throw (hbound.resolve_left (by omega))
  rw [hf i hib hi']
  have hbit : t.freeMap (f i).toNat = true := by
    refine (ht.bits _).mpr ⟨hmarked i hi', ?_⟩
    rintro y ⟨j, hj, rfl⟩ heq
    have := hinj j (by omega) i hi' (UInt32.toNat_inj.mp heq)
    omega
  refine (freeMapRelease_released (hok.of_same ht.same) (ht.mapOpen hopen)
    (ht.same.has.mpr (hhas i hi')) hbit).post fun _ v hv => ⟨by omega, ?_⟩
  refine (ht.trans hv).congr fun y => ⟨?_, ?_⟩
  · rintro ⟨j, hj, rfl⟩
    by_cases hji : j = i
    · exact .inr (by rw [hji])
    · exact .inl ⟨j, by omega, rfl⟩
  · rintro (⟨j, hj, rfl⟩ | rfl)
    · exact ⟨j, by omega, rfl⟩
    · exact ⟨i, by omega, rfl⟩

/-! ## `free_all_sectors` -/

/-- The first `n` blocks of the inode in sector `x` are allocated, and the free-map file
does not use any of its sectors. -/
structure Exclusive (s : FileSys) (x : BlockSector) (n : ℕ) : Prop where
  mapped : Mapped s x n
  data : ∀ k < n, s.freeMap (blockAt s.content x k).toNat = true
  apart : ∀ y, Owned s.content x n y → ¬ MapOwned s y

/-- Sector `y` is one of the first `n` blocks of the inode in sector `x`. -/
def DataOf (c : BlockSector → Sector) (x : BlockSector) (n : ℕ) (y : BlockSector) : Prop :=
  ∃ k < n, y = blockAt c x k

theorem blockAt_direct {c : BlockSector → Sector} {k : ℕ} (hk : k < 12) :
    blockAt c x k = entry (inodeAt c x).direct k := if_pos hk

theorem blockAt_indirect {c : BlockSector → Sector} {k : ℕ} (hk : k < 128) :
    blockAt c x (12 + k) = (c (inodeAt c x).indirect).words k := by
  rw [blockAt, InodeDisk.block, if_neg (by omega), if_pos (by omega), Nat.add_sub_cancel_left]

variable {inode : Inode}

theorem freeDirect_released {cnt : ℕ} (hok : MapFits s) (hopen : MapOpen E s)
    (h : Exclusive s inode.sector n) (hcnt : cnt ≤ n) (h12 : cnt ≤ 12) :
    Spec E (freeDirect freeMapOps inode cnt) s fun _ t =>
      Released (DataOf s.content inode.sector cnt) s t := by
  refine .bind (cacheRead_spec h.mapped.has_inode ?_)
  change Spec E (freeMapReleaseArray _ _ (entry (inodeAt s.content inode.sector).direct) _) s _
  exact (freeMapReleaseArray_released hok hopen (.inl h12) (fun i hi _ => (blockAt_direct hi).symm)
    (fun i hi => h.mapped.has_block i (by omega)) (fun i hi => h.data i (by omega))
    fun i hi j hj => h.mapped.inj i (by omega) j (by omega)).post fun _ t ht => ht.2

/-- `free_indirect` with more sectors than the indirect block lists runs past the end of
its buffer. -/
theorem freeIndirect_released {cnt : ℕ} (hok : MapFits s) (hopen : MapOpen E s)
    (hmap : Mapped s inode.sector (12 + cnt))
    (hdata : ∀ i < cnt, s.freeMap (blockAt s.content inode.sector (12 + i)).toNat = true)
    (hpos : 0 < cnt) (hbound : cnt ≤ 128 ∨ E (.undefined "sectorp[i]")) :
    Spec E (freeIndirect freeMapOps inode cnt) s fun _ t => cnt ≤ 128 ∧
      Released (fun y => ∃ i < cnt, y = blockAt s.content inode.sector (12 + i)) s t := by
  refine .bind (cacheRead_spec hmap.has_inode ?_)
  change Spec E (cacheRead (inodeAt s.content inode.sector).indirect >>= _) s _
  have hindirect :
      (inodeAt s.content inode.sector).indirect ∈ pathTo s.content inode.sector 12 := by
    simp [pathTo, InodeDisk.path]
  refine .bind (cacheRead_spec (hmap.has_path 12 (by omega) _ hindirect) ?_)
  refine freeMapReleaseArray_released hok hopen hbound (fun i hi _ => (blockAt_indirect hi).symm)
    (fun i hi => hmap.has_block _ (by omega)) hdata fun i hi j hj heq => ?_
  exact Nat.add_left_cancel (hmap.inj _ (by omega) _ (by omega) heq)

theorem Released.sameMap {B : BlockSector → Prop} (h : Released B s t)
    (hapart : ∀ y, Owned s.content x n y → ¬ MapOwned s y) : SameMap s.content t.content x n := by
  have hkeeps : ∀ y, Owned s.content x n y → t.content y = s.content y := fun y hy =>
    h.keeps y fun hd => hapart y hy hd.mapOwned
  exact ⟨hkeeps x (.inl rfl), fun k hk y hy => hkeeps y (.inr ⟨k, hk, .inl hy⟩)⟩

/-- `free_all_sectors` gives back the data blocks, if the file has no doubly indirect
blocks.  If it has some, `free_indirect` is asked to free them as well. -/
theorem freeAllSectors_released (hok : MapFits s)
    (hopen : MapOpen E s) (h : Exclusive s inode.sector n)
    (hmax : n ≤ maxBlocks) (hbound : n ≤ 140 ∨ E (.undefined "sectorp[i]")) :
    Spec E (freeAllSectors freeMapOps inode n) s fun _ t =>
      n ≤ 140 ∧ Released (DataOf s.content inode.sector n) s t := by
  unfold freeAllSectors
  unfold maxBlocks at hmax
  rw [if_neg (by omega)]
  refine .ite (fun h12 => ?_) fun h12 => ?_
  · exact (freeDirect_released hok hopen h le_rfl h12).post fun _ t ht => ⟨by omega, ht⟩
  -- the direct blocks first, then the indirect block with all the rest
  obtain ⟨cnt, rfl⟩ : ∃ cnt, n = 12 + cnt := ⟨n - 12, by omega⟩
  rw [Nat.add_sub_cancel_left]
  have hindirect : ∀ t, Released (DataOf s.content inode.sector 12) s t →
      Spec E (freeIndirect freeMapOps inode cnt) t fun _ u => 12 + cnt ≤ 140 ∧
        Released (DataOf s.content inode.sector (12 + cnt)) s u := by
    intro t ht
    have hsame := ht.sameMap h.apart
    refine (freeIndirect_released (hok.of_same ht.same) (ht.mapOpen hopen)
      (h.mapped.of_sameMap ht.same.size hsame) (fun i hi => ?_) (by omega)
      (hbound.imp (by omega) id)).post
      fun _ u hu => ⟨by omega, (ht.trans hu.2).congr fun y => ⟨?_, ?_⟩⟩
    · rw [hsame.blockAt (by omega)]
      refine (ht.bits _).mpr ⟨h.data _ (by omega), ?_⟩
      rintro y ⟨k, hk, rfl⟩ heq
      have := h.mapped.inj k (by omega) (12 + i) (by omega) (UInt32.toNat_inj.mp heq)
      omega
    · rintro ⟨k, hk, rfl⟩
      by_cases hk12 : k < 12
      · exact .inl ⟨k, hk12, rfl⟩
      · refine .inr ⟨k - 12, by omega, ?_⟩
        rw [hsame.blockAt (by omega), Nat.add_sub_cancel' (by omega)]
    · rintro (⟨k, hk, rfl⟩ | ⟨i, hi, rfl⟩)
      · exact ⟨k, by omega, rfl⟩
      · exact ⟨12 + i, by omega, hsame.blockAt (by omega)⟩
  refine .ite (fun h140 => ?_) fun h140 => ?_
  · refine .seq (freeDirect_released hok hopen h (by omega) le_rfl) ?_
    exact fun _ t ht => hindirect t ht
  · refine .seq (freeDirect_released hok hopen h (by omega) le_rfl) ?_
    refine fun _ t ht => .seq (hindirect t ht) fun _ u hu => ?_
    exact absurd hu.1 h140

/-- The inode sector and then the data blocks are given back, as `inode_close` does it. -/
theorem freeInode_released (inode : Inode) (hok : MapFits s) (hopen : MapOpen E s)
    (h : Exclusive s inode.sector n) (hmarked : s.freeMap inode.sector.toNat = true)
    (hmax : n ≤ maxBlocks) (hbound : n ≤ 140 ∨ E (.undefined "sectorp[i]")) :
    Spec E (do
        freeMapRelease inode.sector 1
        freeAllSectors freeMapOps inode n) s
      fun _ t => n ≤ 140 ∧
        Released (fun y => y = inode.sector ∨ DataOf s.content inode.sector n y) s t := by
  refine .seq (freeMapRelease_released hok hopen h.mapped.has_inode hmarked) ?_
  intro _ u hu
  have hsame := hu.sameMap h.apart
  have hexcl : Exclusive u inode.sector n := by
    refine ⟨h.mapped.of_sameMap hu.same.size hsame, fun k hk => ?_, fun y hy hm => ?_⟩
    · rw [hsame.blockAt hk]
      refine (hu.bits _).mpr ⟨h.data k hk, ?_⟩
      intro y hy heq
      rw [hy] at heq
      exact h.mapped.ne_inode k hk (UInt32.toNat_inj.mp heq).symm
    · exact h.apart y (hsame.owned.mp hy) (hu.same.mapOwned.mp hm)
  refine (freeAllSectors_released (hok.of_same hu.same) (hu.mapOpen hopen) hexcl hmax
    hbound).post ?_
  rintro - t ⟨hle, ht⟩
  refine ⟨hle, (hu.trans ht).congr fun y => or_congr Iff.rfl ?_⟩
  exact exists_congr fun k => and_congr_right fun hk => by rw [hsame.blockAt hk]

/-! ## What is left alone -/

/-- From `s` to `t` the sectors outside `own` have been left alone: what was marked is
still marked and has the same content, the data of the free-map file apart. -/
structure Spares (own : BlockSector → Prop) (s t : FileSys) : Prop extends Steady s t where
  marked : ∀ y, ¬ own y → s.freeMap y.toNat = true → t.freeMap y.toNat = true
  keeps : ∀ y, ¬ own y → s.freeMap y.toNat = true → ¬ MapData s y → t.content y = s.content y
  /-- Other sectors that have been written are marked now. -/
  taken : ∀ y, ¬ own y → ¬ MapData s y →
    t.content y = s.content y ∨ t.freeMap y.toNat = true

section Spares

variable {own : BlockSector → Prop}

theorem Alloc.spares {A : List BlockSector} (h : Alloc s t A) : Spares own s t :=
  ⟨h.toSteady, fun _ _ hy => (h.bits _).mpr (.inl hy),
    fun y _ => h.keeps y, fun y _ hd => (em (y ∈ A)).symm.imp (h.clean y · hd) h.marked⟩

theorem Released.spares {B : BlockSector → Prop} (h : Released B s t) (hB : ∀ y, B y → own y) :
    Spares own s t where
  toSteady := h.toSteady
  marked _ hy hm := (h.bits _).mpr ⟨hm, fun z hz heq => hy (UInt32.toNat_inj.mp heq ▸ hB z hz)⟩
  keeps y _ _ := h.keeps y
  taken y _ hd := .inl (h.keeps y hd)

theorem Spares.trans (h : Spares own s t) (h' : Spares own t u) : Spares own s u where
  toSteady := h.toSteady.trans h'.toSteady
  marked y hy hm := h'.marked y hy (h.marked y hy hm)
  keeps y hy hm hd := (h'.keeps y hy (h.marked y hy hm) fun hd' => hd (h.same.mapData.mp hd')).trans
    (h.keeps y hy hm hd)
  taken y hy hd := by
    rcases h.taken y hy hd with hsame | hm
    · exact hsame ▸ h'.taken y hy (mt h.same.mapData.mp hd)
    · exact .inr (h'.marked y hy hm)

theorem Spares.mapFileOk (h : Spares own s t) (hok : MapFileOk s)
    (hown : ∀ y, own y → ¬ MapOwned s y) : MapFileOk t :=
  hok.of_same h.same fun fm hfm y hy => h.marked y fun ho => hown y ho ⟨fm, hfm, hy⟩

theorem spares_write (hok : MapFileOk s) (hown : ∀ y, own y → ¬ MapOwned s y)
    {c : BlockSector → Sector} {h : ℕ → Bool} (hc : ∀ y, ¬ own y → c y = s.content y)
    (hheap : s.MemAvailable → h = s.heap) : Spares own s { s with content := c, heap := h } := by
  have hsame : SameMapFile s { s with content := c, heap := h } :=
    hok.fits.sameMapFile rfl rfl fun _ hy _ => hc _ fun ho => hown _ ho hy
  refine ⟨⟨hsame, rfl, fun hm => (hheap hm).trans hm, fun _ hs => ?_⟩, fun _ _ hm => hm,
    fun y hy _ _ => hc y hy, fun y hy _ => .inl (hc y hy)⟩
  exact hs.of_same hok hsame rfl fun y hy => hc y fun ho => hown y ho hy.mapOwned

end Spares

/-- The data blocks of an inode are given up; its inode and its index blocks are not. -/
theorem Spares.sameMap (h : Spares (DataOf s.content x n) s t) (hmap : Mapped s x n)
    (hmarked : ∀ y, Owned s.content x n y → s.freeMap y.toNat = true)
    (hapart : ∀ y, Owned s.content x n y → ¬ MapOwned s y) : SameMap s.content t.content x n := by
  have hkeeps : ∀ y, Owned s.content x n y → ¬ DataOf s.content x n y → t.content y = s.content y :=
    fun y hy hnot => h.keeps y hnot (hmarked y hy) fun hd => hapart y hy hd.mapOwned
  refine ⟨hkeeps x (.inl rfl) ?_, fun k hk y hy => hkeeps y (.inr ⟨k, hk, .inl hy⟩) ?_⟩
  · rintro ⟨k, hk, heq⟩
    exact hmap.ne_inode k hk heq.symm
  · rintro ⟨j, hj, rfl⟩
    exact hmap.notMem_path j hj k hk hy

/-! ## `resize_inode` -/

/-- Allocating `n` data blocks marks the first `n` sectors of the device. -/
theorem Alloc.marks_low {D I : List BlockSector} (h : Alloc s t (D ++ I)) {i : ℕ}
    (hi : i < D.length) : t.freeMap i = true := by
  by_contra hfree
  have hlow : D.map UInt32.toNat ⊆ range i := by
    intro j hj
    obtain ⟨y, hy, rfl⟩ := mem_map.mp hj
    have hmem : y ∈ D ++ I := mem_append_left _ hy
    rw [mem_range]
    by_contra hle
    rcases Nat.lt_or_eq_of_le (Nat.le_of_not_lt hle) with hlt | heq
    · exact hfree (h.low y hmem i hlt)
    · exact hfree (heq ▸ h.marked hmem)
  have hnodup : (D.map UInt32.toNat).Nodup :=
    (List.Nodup.of_append_left h.nodup).map fun _ _ => UInt32.toNat_inj.mp
  have := (hnodup.subperm hlow).length_le
  rw [length_map, length_range] at this
  omega

/-- The data blocks that a file has given back are free. -/
theorem Released.scarce_iff {m : ℕ} (h : Released (DataOf s.content x n) s t)
    (hexcl : Exclusive s x n) : Scarce t m ↔ Scarce s (m - n) := by
  have hcard := card_free (A := (range n).map (blockAt s.content x)) h.same.size.symm ?_ ?_ ?_
  · rw [length_map, length_range] at hcard
    rw [CS162.scarce_iff, CS162.scarce_iff, hcard]
    omega
  · refine nodup_range.map_on fun j hj k hk => ?_
    exact hexcl.mapped.inj j (mem_range.mp hj) k (mem_range.mp hk)
  · intro y hy
    obtain ⟨k, hk, rfl⟩ := mem_map.mp hy
    have hk := mem_range.mp hk
    refine ⟨h.same.has.mpr (hexcl.mapped.has_block k hk), ?_⟩
    by_contra hmarked
    exact ((h.bits _).mp (by simpa using hmarked)).2 _ ⟨k, hk, rfl⟩ rfl
  · intro i
    rw [h.bits]
    simp only [mem_map, mem_range, exists_exists_and_eq_and]
    constructor
    · intro hs
      refine or_iff_not_imp_right.mpr fun hnot => ⟨hs, ?_⟩
      rintro y ⟨k, hk, rfl⟩ heq
      exact hnot ⟨k, hk, heq⟩
    · rintro (⟨hs, -⟩ | ⟨k, hk, rfl⟩)
      · exact hs
      · exact hexcl.data k hk

/-- `allocate_blocks` runs past the end of an array unless the sectors do not get so far; with
memory and sectors available it succeeds. -/
theorem allocateBlocks_spec
    (hpast : E (.undefined "sectors[i]") → E (.panic "Access past end of device"))
    (hok : MapFileOk s) (hopen : MapOpen E s) (n : ℕ) (d : InodeDisk)
    (hE : (Zeroable n ∨ Scarce s (sectorsNeeded n - 1)) ∨ ∀ f, E f) :
    Spec E (allocateBlocks freeMapOps n d) s fun _ t => (∃ A, Alloc s t A) ∧
      (s.MemAvailable → Zeroable n ∨ Scarce s (sectorsNeeded n - 1)) ∧
      (s.MemAvailable → n ≤ maxBlocks → ¬ Scarce s (sectorsNeeded n) →
        ∀ i < n, t.freeMap i = true) := by
  have hundef := or_assoc.mp (hE.imp_right (· (.undefined "sectors[i]")))
  refine (allocateBlocksWith_spec (zeroesTo_zeroOut hpast) hok hopen n hundef d).post ?_
  rintro ⟨success, d'⟩ t ⟨hfail, hdone⟩
  cases success with
  | false =>
    obtain ⟨⟨A, hA⟩, hpast⟩ := hfail rfl
    refine ⟨⟨A, hA.alloc⟩, fun hmem => or_iff_not_imp_left.mpr fun hnot => hpast hmem hnot ?_,
      fun hmem hn hspace => absurd (hA.scarce hn hmem) hspace⟩
    unfold Zeroable at hnot
    omega
  | true =>
    obtain ⟨hmax, hbound, D, I, -, -, -, -, hlen, halloc, -⟩ := hdone rfl
    refine ⟨⟨_, halloc⟩, fun _ => .inl ?_, fun _ _ _ i hi => halloc.marks_low (by omega)⟩
    unfold Zeroable
    omega

theorem inodeWriteAtFuel_back {buffer : ℕ → UInt8} {depth size : ℕ}
    (hstored : Stored s inode.sector) (hdeny : inode.denyWriteCnt = 0)
    (hsize : (size : ℤ) ≤ (inodeAt s.content inode.sector).length)
    (hdepth : 0 < depth ∨ E .outOfFuel) :
    Spec E (inodeWriteAtFuel depth inode buffer size 0) s fun _ t => ∃ c h,
      t = { s with content := c, heap := h } ∧ (s.MemAvailable → h = s.heap) ∧
      ∀ y, ¬ DataOf s.content inode.sector (blockCount (inodeAt s.content inode.sector).length) y →
        c y = s.content y := by
  cases depth with
  | zero => exact .throw (hdepth.resolve_left (by omega))
  | succ depth =>
    change Spec E (inodeWriteAtWith _ inode buffer size ((0 : ℕ) : ℤ)) s _
    refine (hstored.inodeWriteAtWith_spec hdeny (by omega)).post ?_
    rintro r t ⟨c, h, rfl, hheap, hresult⟩
    refine ⟨c, h, rfl, fun hm => hheap (.inl hm), fun y hy => ?_⟩
    rcases hresult with ⟨-, hover⟩ | ⟨-, rfl, -⟩
    · exact hover.1 y fun k hk heq => hy ⟨k, hk, heq⟩
    · rfl

/-- A file of at most `MAX_INODE_SIZE` bytes whose sectors are marked in the free map and
used by no other file we know of. -/
structure Housed (s : FileSys) (x : BlockSector) : Prop where
  mapFile : MapFileOk s
  length_nonneg : 0 ≤ (inodeAt s.content x).length
  length_le : (inodeAt s.content x).length ≤ maxInodeSize
  mapped : Mapped s x (capacity (inodeAt s.content x).length)
  marked : ∀ y, Owned s.content x (capacity (inodeAt s.content x).length) y →
    s.freeMap y.toNat = true
  apart : ∀ y, Owned s.content x (capacity (inodeAt s.content x).length) y → ¬ MapOwned s y

namespace Housed

theorem stored (h : Housed s x) : Stored s x :=
  ⟨h.length_nonneg, h.length_le, h.mapped.mono (le_max_right _ _)⟩

theorem owned_of_data (_ : Housed s x) {n : ℕ} (hn : n ≤ capacity (inodeAt s.content x).length)
    (hy : DataOf s.content x n y) :
    Owned s.content x (capacity (inodeAt s.content x).length) y := by
  obtain ⟨k, hk, rfl⟩ := hy
  exact .inr ⟨k, by omega, .inr rfl⟩

theorem exclusive (h : Housed s x) : Exclusive s x (blockCount (inodeAt s.content x).length) where
  mapped := h.stored.mapped
  data k hk := h.marked _ (h.owned_of_data (le_max_right _ _) ⟨k, hk, rfl⟩)
  apart y hy := by
    refine h.apart y (hy.imp id ?_)
    rintro ⟨k, hk, hmem⟩
    exact ⟨k, lt_of_lt_of_le hk (le_max_right _ _), hmem⟩

end Housed

/-- `resize_inode` stays inside its arrays: the file has no doubly indirect blocks, and the new size
is zeroable or there are too few sectors to find out. -/
def Resizable (s : FileSys) (x : BlockSector) (sectors : ℕ) : Prop :=
  blockCount (inodeAt s.content x).length ≤ 140 ∧ (Zeroable sectors ∨
    Scarce s (sectorsNeeded sectors - 1 - blockCount (inodeAt s.content x).length))

/-- What `resize_inode` does not touch, and what follows if it returns.  With sectors available it
marks as many as the new size needs, the lowest ones. -/
theorem resizeInode_spares {depth : ℕ} {resize : ℤ}
    (hpast : E (.undefined "sectors[i]") → E (.panic "Access past end of device"))
    (hx : Housed s inode.sector) (hdeny : inode.denyWriteCnt = 0)
    (hE : (s.freeMapFile.isSome ∧ s.MemAvailable ∧ 0 < depth ∧
      Resizable s inode.sector (bytesToSectors resize)) ∨ ∀ f, E f) :
    Spec E (resizeInodeWith freeMapOps (inodeWriteAtFuel depth inode) inode resize
        (decide (0 < (inodeAt s.content inode.sector).length))) s fun _ t =>
      Spares (DataOf s.content inode.sector
        (capacity (inodeAt s.content inode.sector).length)) s t ∧
      (s.MemAvailable → Resizable s inode.sector (bytesToSectors resize)) ∧
      (s.MemAvailable → bytesToSectors resize ≤ maxBlocks →
        ¬ Scarce s (sectorsNeeded (bytesToSectors resize) -
          blockCount (inodeAt s.content inode.sector).length) →
        ∀ i < bytesToSectors resize, t.freeMap i = true) := by
  set x := inode.sector with hsector
  obtain ⟨length, hlength⟩ := Int.eq_ofNat_of_zero_le hx.length_nonneg
  have hmax := hx.length_le
  unfold maxInodeSize at hmax
  have hown : ∀ y, DataOf s.content x (capacity (inodeAt s.content x).length) y → ¬ MapOwned s y :=
    fun y hy => hx.apart y (hx.owned_of_data le_rfl hy)
  have hcount : bytesToSectors (inodeAt s.content x).length =
      blockCount (inodeAt s.content x).length := by
    rw [hlength, bytesToSectors_natCast (by omega)]
    rfl
  have hopen : MapOpen E s := hE.imp (·.1) (· _)
  refine .bind (cacheRead_spec hx.mapped.has_inode ?_)
  refine .ite (fun hempty => ?_) fun hcopy => ?_
  · -- an empty file: nothing to put back
    have hzero : blockCount (inodeAt s.content x).length = 0 := by
      have : ¬ 0 < (inodeAt s.content x).length := by simpa using hempty
      unfold blockCount
      omega
    refine .seq (allocateBlocks_spec hpast hx.mapFile hopen _ _ (hE.imp (fun h => ?_) id)) ?_
    · simpa [hzero] using h.2.2.2.2
    rintro r t ⟨⟨A, halloc⟩, hzeroable, hlow⟩
    refine .pure ⟨halloc.spares, fun hmem => ⟨by rw [hzero]; omega, ?_⟩, ?_⟩
    · simpa [hzero] using hzeroable hmem
    · simpa [hzero] using hlow
  rw [show InodeDisk.decode (s.content inode.sector) = inodeAt s.content x from rfl]
  refine .bind (malloc_spec ?_)
  have hreadSpec : Spec E (inodeReadAt inode (length : ℤ) ((0 : ℕ) : ℤ))
      { s with heap := fun n => s.heap (n + 1) } _ :=
    inodeReadAt_spec (hx.stored.of_heap _) fun hlt => absurd hlt (by simp)
  rw [← hlength] at hreadSpec
  refine .bind (hreadSpec.post ?_)
  rintro bytes s1 ⟨heap, m, rfl, hbytes, hread⟩
  -- with memory available all bytes are read
  have hheap : s.MemAvailable → heap = s.heap ∧ bytes.length = length := fun hmem => by
    obtain ⟨hh, hm⟩ := hread (.inl (by unfold MemAvailable at hmem ⊢; rw [hmem]))
    refine ⟨hh.trans (by rw [hmem]), ?_⟩
    rw [hbytes, nil_append, length_fileBytes, hm, hlength]
    omega
  have hspares1 : Spares (DataOf s.content x (capacity (inodeAt s.content x).length)) s
      { s with heap := heap } :=
    spares_write hx.mapFile hown (fun _ _ => rfl) fun hmem => (hheap hmem).1
  refine .ite (fun hnone => .throw (hE.elim (fun h => ?_) (· _))) fun _ => ?_
  · rw [h.2.1] at hnone
    simp at hnone
  refine .ite (fun hshort => .pure ⟨hspares1, fun hmem => ?_, fun hmem => ?_⟩) fun _ => ?_
  · exact absurd (by rw [hlength, (hheap hmem).2]) hshort
  · exact absurd (by rw [hlength, (hheap hmem).2]) hshort
  have hexcl : Exclusive { s with heap := heap } x (blockCount (inodeAt s.content x).length) :=
    ⟨hx.exclusive.mapped.of_sameMap rfl ⟨rfl, fun _ _ _ _ => rfl⟩, hx.exclusive.data,
      hx.exclusive.apart⟩
  rw [hcount]
  refine .seq (freeAllSectors_released (hx.mapFile.fits.of_same hspares1.same) hopen hexcl
    ?_ (hE.imp (·.2.2.2.1) (· _))) ?_
  · rw [hlength]
    unfold blockCount maxBlocks
    omega
  rintro - s2 ⟨h140, hreleased⟩
  have hspares2 := hspares1.trans <| hreleased.spares fun y ⟨k, hk, heq⟩ =>
    ⟨k, lt_of_lt_of_le hk (le_max_right _ _), heq⟩
  have hok2 := hspares2.mapFileOk hx.mapFile hown
  have hscarce : ∀ {m}, Scarce s2 m ↔
      Scarce s (m - blockCount (inodeAt s.content x).length) := hreleased.scarce_iff hexcl
  refine .seq (allocateBlocks_spec hpast hok2 (hopen.imp_left (hspares2.same.file ▸ ·)) _ _
    (hE.imp (fun h => ?_) id)) ?_
  · rw [hscarce]
    exact h.2.2.2.2
  rintro ⟨success, d'⟩ s3 ⟨⟨A, halloc⟩, hzeroable, hlow⟩
  have hspares3 := hspares2.trans halloc.spares
  rw [hscarce] at hzeroable hlow
  have hafter : (s.MemAvailable → Resizable s x (bytesToSectors resize)) ∧
      (s.MemAvailable → bytesToSectors resize ≤ maxBlocks →
        ¬ Scarce s (sectorsNeeded (bytesToSectors resize) -
          blockCount (inodeAt s.content x).length) →
        ∀ i < bytesToSectors resize, s3.freeMap i = true) :=
    ⟨fun hmem => ⟨h140, hzeroable (hspares2.mem hmem)⟩,
      fun hmem => hlow (hspares2.mem hmem)⟩
  refine .ite (fun hfail => .pure ⟨hspares3, hafter⟩) fun hdone => ?_
  -- the map of the file has not changed
  have hsame := hspares3.sameMap hx.mapped hx.marked hx.apart
  have hsame' : SameMap s.content s3.content x (blockCount (inodeAt s.content x).length) :=
    ⟨hsame.1, fun k hk => hsame.2 k (lt_of_lt_of_le hk (le_max_right _ _))⟩
  have hok3 := hspares3.mapFileOk hx.mapFile hown
  have hbackSpec : Spec E (inodeWriteAtFuel depth inode (fun k => bytes.getD k 0) (length : ℤ) 0)
      s3 _ :=
    inodeWriteAtFuel_back (hx.stored.of_sameMap hspares3.same.size hsame') hdeny
      (by rw [hsame.inodeAt, hlength]) (hE.imp (·.2.2.1) (· _))
  rw [← hlength] at hbackSpec
  refine .bind (hbackSpec.post ?_)
  rintro r t ⟨c, h, rfl, hheap', hback⟩
  refine .pure ⟨hspares3.trans (spares_write hok3 (fun y hy hm => hown y hy
    (hspares3.same.mapOwned.mp hm)) (fun y hy => hback y fun hy' => hy ?_) hheap'), hafter⟩
  rw [hsame.inodeAt] at hy'
  obtain ⟨k, hk, rfl⟩ := hy'
  exact ⟨k, lt_of_lt_of_le hk (le_max_right _ _), hsame'.blockAt hk⟩

end CS162
