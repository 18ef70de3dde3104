import Mathlib.Data.List.Pairwise
import CS162.Filesys.Isolation

/-!
# Who owns which sector

Every live inode refers to sectors: its own, its index blocks and its data blocks.
`references` lists them, one entry for each position.  `Owning s live` is the invariant
of a consistent file system: the lists of all live inodes together have no duplicates,
and all their sectors are on the device and marked in the free map.

## Strategy

A call keeps the invariant if it leaves the references of the inodes that stay alive as
they are (`Owning.keep`).  References are found in inodes and index blocks only, so it
is enough that these keep their content and that no bit of a reference is cleared.  Each
call is treated once: creating an inode adds a list of sectors that were free, a write
that fits changes data blocks only, and closing a removed inode gives back sectors that
no other inode refers to.
-/

namespace CS162

open Library FileSys Function List

variable {s t : FileSys} {x y z : BlockSector} {n : ℕ} {live : List BlockSector}

/-! ## References -/

section References

variable {c c' : BlockSector → Sector}

/-- The sectors the inode in sector `x` refers to, if it has `n` blocks. -/
def references (c : BlockSector → Sector) (x : BlockSector) (n : ℕ) : List BlockSector :=
  x :: ((inodeAt c x).indexBlocks c n ++ (List.range n).map (blockAt c x))

theorem mem_references : y ∈ references c x n ↔ Owned c x n y := by
  unfold references Owned
  rw [mem_cons, mem_append, InodeDisk.mem_indexBlocks, mem_map]
  refine or_congr Iff.rfl ⟨?_, ?_⟩
  · rintro (⟨k, hk, hy⟩ | ⟨k, hk, rfl⟩)
    · exact ⟨k, hk, .inl hy⟩
    · exact ⟨k, mem_range.mp hk, .inr rfl⟩
  · rintro ⟨k, hk, hy | rfl⟩
    · exact .inl ⟨k, hk, hy⟩
    · exact .inr ⟨k, mem_range.mpr hk, rfl⟩

theorem SameMap.references (h : SameMap c c' x n) : references c' x n = references c x n := by
  have hblocks : (range n).map (CS162.blockAt c' x) = (range n).map (CS162.blockAt c x) :=
    map_congr_left fun k hk => h.blockAt (mem_range.mp hk)
  rw [CS162.references, CS162.references, h.inodeAt, InodeDisk.indexBlocks_congr h.2, hblocks]

/-- An inode without duplicate references maps its blocks like an array. -/
theorem mapped_of_references (hnodup : (references s.content x n).Nodup)
    (hhas : ∀ y ∈ references s.content x n, s.Has y) : Mapped s x n := by
  have hmem : ∀ {y}, Owned s.content x n y → s.Has y := fun h => hhas _ (mem_references.mpr h)
  obtain ⟨hx, hrest⟩ := nodup_cons.mp hnodup
  obtain ⟨-, hdata, hdisjoint⟩ := nodup_append.mp hrest
  have hblock : ∀ k < n, blockAt s.content x k ∈ (range n).map (blockAt s.content x) :=
    fun k hk => mem_map.mpr ⟨k, mem_range.mpr hk, rfl⟩
  refine ⟨hmem (.inl rfl), fun k hk y hy => hmem (.inr ⟨k, hk, .inl hy⟩),
    fun k hk => hmem (.inr ⟨k, hk, .inr rfl⟩), fun j hj k hk heq => ?_, fun k hk heq => ?_,
    fun j hj k hk hy => ?_⟩
  · exact inj_on_of_nodup_map hdata (mem_range.mpr hj) (mem_range.mpr hk) heq
  · have := hblock k hk
    rw [heq] at this
    exact hx (mem_append_right _ this)
  · exact hdisjoint _ (InodeDisk.mem_indexBlocks.mpr ⟨k, hk, hy⟩) _ (hblock j hj) rfl

end References

/-! ## The invariant -/

/-- The sectors of the inode in sector `x`, with as many blocks as have been allocated
for its length. -/
def ownReferences (c : BlockSector → Sector) (x : BlockSector) : List BlockSector :=
  references c x (capacity (inodeAt c x).length)

theorem SameMap.ownReferences {c c' : BlockSector → Sector}
    (h : SameMap c c' x (capacity (CS162.inodeAt c x).length)) :
    ownReferences c' x = ownReferences c x := by
  rw [CS162.ownReferences, h.inodeAt, h.references]
  rfl

/-- In a consistent file system the live inodes refer to distinct sectors, all of them
marked in the free map.  The free map itself is one of the live inodes, and only live
inodes are open. -/
structure Owning (s : FileSys) (live : List BlockSector) : Prop where
  nodup : (live.flatMap (ownReferences s.content)).Nodup
  has : ∀ x ∈ live, ∀ y ∈ ownReferences s.content x, s.Has y
  marked : ∀ x ∈ live, ∀ y ∈ ownReferences s.content x, s.freeMap y.toNat = true
  length_nonneg : ∀ x ∈ live, 0 ≤ (inodeAt s.content x).length
  length_le : ∀ x ∈ live, (inodeAt s.content x).length ≤ maxInodeSize
  map_live : freeMapSector ∈ live
  map_file : ∃ fm, s.freeMapFile = some fm ∧ fm.sector = freeMapSector ∧ fm.denyWriteCnt = 0
  map_length : (inodeAt s.content freeMapSector).length = byteCnt s.size
  opened : ∀ inode ∈ s.openInodes, inode.sector ∈ live

namespace Owning

variable (h : Owning s live)
include h

theorem mapped (hx : x ∈ live) : Mapped s x (capacity (inodeAt s.content x).length) :=
  mapped_of_references ((nodup_flatMap.mp h.nodup).1 x hx) (h.has x hx)

theorem unique (hx : x ∈ live) (hz : z ∈ live) (hyx : y ∈ ownReferences s.content x)
    (hyz : y ∈ ownReferences s.content z) : x = z := by
  by_contra hne
  have hsymm : Std.Symm (onFun List.Disjoint (ownReferences s.content)) :=
    ⟨fun _ _ hd => List.Disjoint.symm hd⟩
  exact (nodup_flatMap.mp h.nodup).2.forall hx hz hne hyx hyz

theorem stored (hx : x ∈ live) : Stored s x :=
  ⟨h.length_nonneg x hx, h.length_le x hx, (h.mapped hx).mono (le_max_right _ _)⟩

theorem capacity_map : capacity (inodeAt s.content freeMapSector).length =
    blockCount (inodeAt s.content freeMapSector).length := by
  have hpos : 0 < s.size := lt_of_le_of_lt (Nat.zero_le _) (h.mapped h.map_live).has_inode
  rw [h.map_length]
  unfold capacity blockCount byteCnt
  omega

theorem mapOwned_iff : MapOwned s y ↔ y ∈ ownReferences s.content freeMapSector := by
  obtain ⟨fm, hfm, hsec, -⟩ := h.map_file
  rw [ownReferences, mem_references, h.capacity_map]
  constructor
  · rintro ⟨fm', hfm', hy⟩
    rw [hfm] at hfm'
    cases hfm'
    rwa [hsec] at hy
  · exact fun hy => ⟨fm, hfm, by rwa [hsec]⟩

theorem mapFileOk : MapFileOk s := by
  obtain ⟨fm, hfm, hsec, hdeny⟩ := h.map_file
  refine ⟨fun fm' hfm' => ?_, fun fm' hfm' => ?_, fun fm' hfm' => ?_, fun fm' hfm' y hy => ?_⟩ <;>
    (rw [hfm] at hfm'; cases hfm')
  · rw [hsec]
    exact h.stored h.map_live
  · rw [hsec]
    exact h.map_length
  · exact hdeny
  · exact h.marked _ h.map_live y (h.mapOwned_iff.mp ⟨fm, hfm, hy⟩)

theorem isSome_map : s.freeMapFile.isSome := by
  obtain ⟨fm, hfm, -⟩ := h.map_file
  simp [hfm]

theorem not_dataOf (hx : x ∈ live) (hz : z ∈ live)
    (hy : y = x ∨ ∃ k < capacity (inodeAt s.content x).length, y ∈ pathTo s.content x k) :
    ¬ DataOf s.content z (capacity (inodeAt s.content z).length) y := by
  rintro ⟨k, hk, rfl⟩
  have hyx : blockAt s.content z k ∈ ownReferences s.content x :=
    mem_references.mpr (hy.imp id fun ⟨j, hj, hmem⟩ => ⟨j, hj, .inl hmem⟩)
  have hyz : blockAt s.content z k ∈ ownReferences s.content z :=
    mem_references.mpr (.inr ⟨k, hk, .inr rfl⟩)
  obtain rfl := h.unique hx hz hyx hyz
  rcases hy with heq | ⟨j, hj, hmem⟩
  · exact (h.mapped hx).ne_inode k hk heq
  · exact (h.mapped hx).notMem_path k hk j hj hmem

theorem not_mapData (hx : x ∈ live)
    (hy : y = x ∨ ∃ k < capacity (inodeAt s.content x).length, y ∈ pathTo s.content x k) :
    ¬ MapData s y := by
  rintro ⟨fm, hfm, k, hk, heq⟩
  obtain ⟨fm', hfm', hsec, -⟩ := h.map_file
  rw [hfm] at hfm'
  cases hfm'
  rw [hsec] at hk heq
  exact h.not_dataOf hx h.map_live hy ⟨k, by rwa [h.capacity_map], heq⟩

/-- Only live inodes other than the free map's: their sectors are not the free map's. -/
theorem apart (hx : x ∈ live) (hne : x ≠ freeMapSector) (hy : y ∈ ownReferences s.content x) :
    ¬ MapOwned s y := fun hm => hne (h.unique hx h.map_live hy (h.mapOwned_iff.mp hm))

/-- **The invariant is kept** by what leaves inodes, index blocks and the bits of the
inodes that stay alive as they are. -/
theorem keep {live' : List BlockSector} (hsub : live'.Sublist live) (hmap : freeMapSector ∈ live')
    (hsize : t.size = s.size) (hfile : t.freeMapFile = s.freeMapFile)
    (hsame : ∀ x ∈ live', SameMap s.content t.content x (capacity (inodeAt s.content x).length))
    (hmarked : ∀ x ∈ live', ∀ y ∈ ownReferences s.content x, t.freeMap y.toNat = true)
    (hopened : ∀ inode ∈ t.openInodes, inode.sector ∈ live') : Owning t live' := by
  have hrefs : ∀ x ∈ live', ownReferences t.content x = ownReferences s.content x := fun x hx =>
    (hsame x hx).ownReferences
  have hinode : ∀ x ∈ live', inodeAt t.content x = inodeAt s.content x := fun x hx =>
    (hsame x hx).inodeAt
  have hlive : ∀ x ∈ live', x ∈ live := fun x hx => hsub.subset hx
  refine ⟨?_, fun x hx y hy => ?_, fun x hx y hy => ?_, fun x hx => ?_, fun x hx => ?_, hmap,
    by rw [hfile]; exact h.map_file, by rw [hinode _ hmap, hsize]; exact h.map_length, hopened⟩
  · have hnodup := nodup_flatMap.mp h.nodup
    rw [flatMap_congr hrefs]
    exact nodup_flatMap.mpr ⟨fun x hx => hnodup.1 x (hlive x hx), hnodup.2.sublist hsub⟩
  · rw [hrefs x hx] at hy
    have := h.has x (hlive x hx) y hy
    unfold FileSys.Has at this ⊢
    rwa [hsize]
  · rw [hrefs x hx] at hy
    exact hmarked x hx y hy
  · rw [hinode x hx]
    exact h.length_nonneg x (hlive x hx)
  · rw [hinode x hx]
    exact h.length_le x (hlive x hx)

end Owning

/-! ## Creating an inode -/

variable {length : ℤ}

/-- `inode_create`: on failure sectors may be lost, on success the new inode is laid out and its
blocks are zero. -/
theorem inodeCreate_spec {E : Fault → Prop}
    (hpast : E (.undefined "sectors[i]") → E (.panic "Access past end of device"))
    (hok : MapFileOk s) (hopen : MapOpen E s) (hx : s.Has x) (hlength : 0 ≤ length)
    (hundef : Zeroable (bytesToSectors length) ∨ E (.undefined "sectors[i]")) :
    Spec E (inodeCreate x length) s fun r t =>
      (r = false → ∃ A, AllocationFailed s t (bytesToSectors length) A) ∧
      (r = true → bytesToSectors length ≤ maxBlocks ∧ Zeroable (bytesToSectors length) ∧
        ∃ (D I : List BlockSector) (d : InodeDisk) (u : FileSys), d.length = length ∧
          D.length = max 1 (bytesToSectors length) ∧ Alloc s u (D ++ I) ∧ Laid d u.content D I ∧
          (∀ y ∈ D, u.content y = Sector.zeros) ∧
          t = { u with content := update u.content x d.encode }) := by
  unfold inodeCreate
  rw [if_neg (by omega)]
  refine .bind (malloc_spec ?_)
  have hheap : Alloc s { s with heap := fun n => s.heap (n + 1) } [] :=
    (Alloc.refl s).of_heap fun hm => by rw [hm]
  refine .ite (fun hno => .pure ⟨fun _ => ⟨[], hheap, .inl rfl, ?_, ?_⟩, by simp⟩) fun _ => ?_
  · exact fun _ hm => absurd hno (by rw [hm]; simp)
  · exact fun _ _ hm => absurd hno (by rw [hm]; simp)
  refine .seq (allocateBlocksWith_spec (zeroesTo_zeroOut hpast) (hheap.mapFileOk hok) hopen _
    (hundef.imp_right .inr) _) ?_
  rintro ⟨success, d⟩ u ⟨hfail, hdone⟩
  cases success with
  | false =>
    obtain ⟨A, hA⟩ := (hfail rfl).1
    refine .pure ⟨fun _ => ⟨A, hheap.trans hA.alloc, hA.kept, fun hle hm => ?_,
      fun hnil hle hm => ?_⟩, by simp⟩
    · exact hA.scarce hle (hheap.mem hm)
    · exact hA.scarce_direct hnil hle (hheap.mem hm)
  | true =>
    obtain ⟨hmax, hbound, D, I, f, a, b, rfl, hlen, halloc, hlaid, hzeros⟩ := hdone rfl
    have hzeroable : Zeroable (bytesToSectors length) := by
      unfold Zeroable
      omega
    refine .bind (cacheWrite_spec (halloc.same.has.mpr hx) (Spec.pure ⟨by simp, fun _ => ?_⟩))
    exact ⟨hmax, hzeroable, D, I, _, u, rfl, hlen, by simpa using hheap.trans halloc, hlaid,
      hzeros hzeroable, rfl⟩

theorem Laid.references {c : BlockSector → Sector} {D I : List BlockSector}
    (h : Laid (inodeAt c x) c D I) : (references c x D.length).Perm (x :: (I ++ D)) := by
  have hblocks : (range D.length).map (blockAt c x) = D := by
    refine ext_getElem? fun k => ?_
    rw [getElem?_map]
    by_cases hk : k < D.length
    · rw [getElem?_range hk, h.block k hk]
      rfl
    · rw [getElem?_eq_none (by simpa using hk), getElem?_eq_none (by simpa using hk)]
      rfl
  rw [CS162.references, hblocks]
  exact (h.perm.symm.append_right D).cons x

/-- The references of an inode that is stored after its blocks have been laid out. -/
theorem Laid.ownReferences {c : BlockSector → Sector} {D I : List BlockSector} {d : InodeDisk}
    (h : Laid d c D I) (hx : x ∉ D ++ I) (hlow : 0 ≤ d.length) (hhigh : d.length ≤ maxInodeSize)
    (hD : D.length = capacity d.length) :
    inodeAt (update c x d.encode) x = d ∧
      (ownReferences (update c x d.encode) x).Perm (x :: (I ++ D)) := by
  unfold maxInodeSize at hhigh
  obtain ⟨hinode, hlaid⟩ := h.stored (x := x) (fun hI => hx (mem_append_right _ hI)) hlow (by omega)
  refine ⟨hinode, ?_⟩
  have hrefs := hlaid.references
  rw [hD] at hrefs
  rwa [CS162.ownReferences, hinode]

theorem capacity_eq (hlow : 0 ≤ length) (hhigh : length < 2147483648)
    (hmax : bytesToSectors length ≤ maxBlocks) :
    capacity length = max 1 (bytesToSectors length) ∧ length ≤ maxInodeSize := by
  obtain ⟨k, rfl⟩ := Int.eq_ofNat_of_zero_le hlow
  by_cases hk : k < 2147483137
  · rw [bytesToSectors_natCast hk] at hmax ⊢
    unfold maxBlocks at hmax
    unfold maxInodeSize
    exact ⟨rfl, by omega⟩
  -- adding 511 overflows
  exfalso
  unfold bytesToSectors maxBlocks at hmax
  rw [wrap32_overflow (z := (k : ℤ) + 511) (by omega) (by omega)] at hmax
  have hneg : ((k : ℤ) + 511 - 4294967296).tdiv 512 = -((4294967296 - 511 - (k : ℤ)) / 512) := by
    rw [show (k : ℤ) + 511 - 4294967296 = -(4294967296 - 511 - (k : ℤ)) by omega, Int.neg_tdiv,
      Int.tdiv_eq_ediv_of_nonneg (by omega)]
  omega

namespace Owning

variable (h : Owning s live)
include h

theorem sameMap_of_keeps (hx : x ∈ live) {c : BlockSector → Sector}
    (hc : ∀ y ∈ ownReferences s.content x, s.freeMap y.toNat = true → ¬ MapData s y →
      ¬ DataOf s.content x (capacity (inodeAt s.content x).length) y → c y = s.content y) :
    SameMap s.content c x (capacity (inodeAt s.content x).length) := by
  have hmeta : ∀ y,
      (y = x ∨ ∃ k < capacity (inodeAt s.content x).length, y ∈ pathTo s.content x k) →
      c y = s.content y := fun y hy => by
    have hmem : y ∈ ownReferences s.content x :=
      mem_references.mpr (hy.imp id fun ⟨k, hk, hmem⟩ => ⟨k, hk, .inl hmem⟩)
    exact hc y hmem (h.marked x hx y hmem) (h.not_mapData hx hy) (h.not_dataOf hx hx hy)
  exact ⟨hmeta x (.inl rfl), fun k hk y hy => hmeta y (.inr ⟨k, hk, hy⟩)⟩

/-- What spares the sectors of the live inodes keeps the invariant. -/
theorem of_spares (own : BlockSector → Prop) (ht : Spares own s t)
    (hown : ∀ x ∈ live, ∀ y ∈ ownReferences s.content x, ¬ own y) : Owning t live := by
  refine h.keep (List.Sublist.refl _) h.map_live ht.same.size ht.same.file (fun x hx => ?_)
    (fun x hx y hy => ht.marked y (hown x hx y hy) (h.marked x hx y hy)) fun inode hinode => ?_
  · exact h.sameMap_of_keeps hx fun y hy hm hd _ => ht.keeps y (hown x hx y hy) hm hd
  · rw [ht.openInodes] at hinode
    exact h.opened inode hinode

theorem of_alloc {A : List BlockSector} (ht : Alloc s t A) : Owning t live :=
  h.of_spares (fun _ => False) ht.spares fun _ _ _ _ => id

theorem add {u : FileSys} {D I : List BlockSector} {d : InodeDisk} (hu : Alloc s u (D ++ I))
    (hlaid : Laid d u.content D I) (hlow : 0 ≤ d.length) (hhigh : d.length ≤ maxInodeSize)
    (hD : D.length = capacity d.length) (hx : s.Has x) (hmarked : s.freeMap x.toNat = true)
    (hfresh : ∀ z ∈ live, x ∉ ownReferences s.content z) :
    Owning { u with content := update u.content x d.encode } (x :: live) := by
  have hfree : ∀ y ∈ D ++ I, s.freeMap y.toNat = false := fun y hy => (hu.fresh y hy).2
  have hnew : x ∉ D ++ I := fun hmem => absurd (hfree x hmem) (by simp [hmarked])
  -- the inodes that were there before
  have hsame : ∀ z ∈ live, SameMap s.content (update u.content x d.encode) z
      (capacity (inodeAt s.content z).length) := fun z hz =>
    h.sameMap_of_keeps hz fun y hy hm hd _ => by
      rw [update_of_ne (by rintro rfl; exact hfresh z hz hy), hu.keeps y hm hd]
  have hold : Owning { u with content := update u.content x d.encode } live :=
    h.keep (List.Sublist.refl _) h.map_live hu.same.size hu.same.file hsame
      (fun z hz y hy => (hu.bits _).mpr (.inl (h.marked z hz y hy)))
      fun inode hinode => h.opened inode (hu.openInodes ▸ hinode)
  obtain ⟨hinode, hrefs⟩ := hlaid.ownReferences hnew hlow hhigh hD
  have hmem : ∀ y ∈ ownReferences (update u.content x d.encode) x, y = x ∨ y ∈ D ++ I := by
    intro y hy
    rcases mem_cons.mp (hrefs.mem_iff.mp hy) with rfl | hy
    · exact .inl rfl
    · exact .inr (perm_append_comm.mem_iff.mp hy)
  refine ⟨?_, forall_mem_cons.mpr ⟨fun y hy => hu.same.has.mpr ?_, hold.has⟩,
    forall_mem_cons.mpr ⟨fun y hy => ?_, hold.marked⟩,
    forall_mem_cons.mpr ⟨by rwa [hinode], hold.length_nonneg⟩,
    forall_mem_cons.mpr ⟨by rwa [hinode], hold.length_le⟩, mem_cons_of_mem _ h.map_live,
    hold.map_file, hold.map_length, fun inode hi => mem_cons_of_mem _ (hold.opened inode hi)⟩
  · rw [flatMap_cons]
    refine nodup_append.mpr ⟨hrefs.nodup_iff.mpr ?_, hold.nodup, fun y hy y' hy' heq => ?_⟩
    · exact nodup_cons.mpr ⟨fun hI => hnew (perm_append_comm.mem_iff.mp hI),
        perm_append_comm.nodup_iff.mp hu.nodup⟩
    subst heq
    obtain ⟨z, hz, hyz⟩ := mem_flatMap.mp hy'
    rw [(hsame z hz).ownReferences] at hyz
    rcases hmem y hy with rfl | hy
    · exact hfresh z hz hyz
    · exact absurd (h.marked z hz y hyz) (by simp [hfree y hy])
  · rcases hmem y hy with rfl | hy
    · exact hx
    · exact (hu.fresh y hy).1
  · rcases hmem y hy with rfl | hy
    · exact (hu.bits _).mpr (.inl hmarked)
    · exact hu.marked hy

theorem references_of_spares (own : BlockSector → Prop) (ht : Spares own s t)
    (hown : ∀ y ∈ ownReferences s.content z, ¬ own y) (hz : z ∈ live) :
    ownReferences t.content z = ownReferences s.content z :=
  (h.sameMap_of_keeps hz fun y hy hm hd _ => ht.keeps y (hown y hy) hm hd).ownReferences

/-- `inode_create` in a marked sector that no inode refers to. -/
theorem inodeCreate {E : Fault → Prop}
    (hpast : E (.undefined "sectors[i]") → E (.panic "Access past end of device")) (hx : s.Has x)
    (hmarked : s.freeMap x.toNat = true) (hfresh : ∀ z ∈ live, x ∉ ownReferences s.content z)
    (hlow : 0 ≤ length) (hhigh : length < 2147483648)
    (hundef : Zeroable (bytesToSectors length) ∨ E (.undefined "sectors[i]")) :
    Spec E (inodeCreate x length) s fun r t =>
      (r = false → ∃ A, Alloc s t A) ∧
      (r = true → Owning t (x :: live) ∧ Spares (fun y => y = x) s t) := by
  refine (inodeCreate_spec hpast h.mapFileOk (.inl h.isSome_map) hx hlow hundef).post ?_
  rintro r t ⟨hfail, hdone⟩
  refine ⟨fun hr => (hfail hr).imp fun _ hA => hA.alloc, fun hr => ?_⟩
  obtain ⟨hmax, -, D, I, d, u, hlength, hlen, halloc, hlaid, -, rfl⟩ := hdone hr
  obtain ⟨hcap, hle⟩ := capacity_eq hlow hhigh hmax
  subst hlength
  refine ⟨h.add halloc hlaid hlow hle (hlen.trans hcap.symm) hx hmarked hfresh, ?_⟩
  have hok := halloc.mapFileOk h.mapFileOk
  refine halloc.spares.trans (spares_write hok ?_ (fun y hy => update_of_ne hy _ _) fun _ => rfl)
  rintro y rfl hm
  exact hfresh _ h.map_live (h.mapOwned_iff.mp (halloc.same.mapOwned.mp hm))

end Owning

/-- What `filesys_create` does before it enters the file in a directory: allocate a sector
and create an inode there, or give the sector back. -/
def createFile (length : ℤ) : Fs (Option BlockSector) := do
  match ← freeMapAllocate 1 with
  | none => return none
  | some sector =>
    if ← FileSys.inodeCreate sector length then return some sector
    else
      freeMapRelease sector 1
      return none

/-! ## The calls on inodes -/

namespace Owning

variable (h : Owning s live)
include h

theorem createFile (hlow : 0 ≤ length) (hhigh : length < 2147483648)
    (hzero : Zeroable (bytesToSectors length)) :
    Returns (createFile length) s fun r t =>
      (r = none → Owning t live) ∧ ∀ x, r = some x → Owning t (x :: live) := by
  refine .seq (freeMapAllocate_spec h.mapFileOk.fits) ?_
  rintro r t ⟨hsome, hnone⟩
  cases r with
  | none => exact .pure ⟨fun _ => h.of_alloc (hnone rfl).1, by simp⟩
  | some x =>
    have ht := hsome x rfl
    have hown := h.of_alloc ht
    obtain ⟨hhas, hfree⟩ := ht.fresh x (by simp)
    have hfresh : ∀ z ∈ live, x ∉ ownReferences t.content z := fun z hz hmem => by
      rw [h.references_of_spares (fun _ => False) ht.spares (fun _ _ => id) hz] at hmem
      exact absurd (h.marked z hz x hmem) (by simp [hfree])
    refine .seq (hown.inodeCreate (fun hf => hf.elim) (ht.same.has.mpr hhas)
      (ht.marked (by simp)) hfresh hlow hhigh (.inl hzero)) ?_
    rintro r u ⟨hfail, hdone⟩
    cases r with
    | true =>
      refine .pure ⟨by simp, fun y hy => ?_⟩
      rw [← Option.some.inj hy]
      exact (hdone rfl).1
    | false =>
      obtain ⟨A, hA⟩ := hfail rfl
      refine .seq (freeMapRelease_released (hown.mapFileOk.fits.of_same hA.same)
        (.inl (hown.of_alloc hA).isSome_map)
        (hA.same.has.mpr (ht.same.has.mpr hhas))
        ((hA.bits _).mpr (.inl (ht.marked (by simp))))) fun _ v hv =>
        Spec.pure ⟨fun _ => ?_, by simp⟩
      refine (hown.of_alloc hA).of_spares (fun y => y = x) (hv.spares fun _ => id) ?_
      rintro z hz y hy rfl
      rw [hown.references_of_spares (fun _ => False) hA.spares (fun _ _ => id) hz] at hy
      exact hfresh z hz hy

variable {inode : Inode}

theorem inodeWriteAt {buffer : ℕ → UInt8} {size offset : ℤ} (hx : inode.sector ∈ live)
    (hsize : 0 ≤ size) (hoffset : 0 ≤ offset) (hfits : Fits s inode size offset) :
    Returns (FileSys.inodeWriteAt inode buffer size offset) s fun _ t => Owning t live := by
  refine (inodeWriteAt_fits (h.mapped hx) (h.length_nonneg _ hx) (h.length_le _ hx) hsize hoffset
    hfits).post ?_
  rintro r t ⟨c, heap, rfl, -, hc⟩
  refine h.keep (List.Sublist.refl _) h.map_live rfl rfl (fun z hz => ?_) h.marked h.opened
  have hmeta : ∀ y,
      (y = z ∨ ∃ k < capacity (inodeAt s.content z).length, y ∈ pathTo s.content z k) →
      c y = s.content y := fun y hy => hc y (h.not_dataOf hz hx hy)
  exact ⟨hmeta z (.inl rfl), fun k hk y hy => hmeta y (.inr ⟨k, hk, hy⟩)⟩

theorem of_openInodes {l : List Inode} {heap : ℕ → Bool} (hl : ∀ inode ∈ l, inode.sector ∈ live) :
    Owning { s with openInodes := l, heap := heap } live :=
  h.keep (List.Sublist.refl _) h.map_live rfl rfl (fun _ _ => ⟨rfl, fun _ _ _ _ => rfl⟩) h.marked hl

theorem of_map {f : Inode → Inode} (hf : ∀ i, (f i).sector = i.sector) :
    Owning { s with openInodes := s.openInodes.map f } live := by
  refine h.of_openInodes fun i hi => ?_
  obtain ⟨j, hj, rfl⟩ := mem_map.mp hi
  exact hf j ▸ h.opened j hj

/-- The sectors of an inode are given back; the other inodes keep theirs. -/
theorem removed (hx : x ∈ live) (hne : x ≠ freeMapSector)
    (hsmall : blockCount (inodeAt s.content x).length ≤ 140)
    (hsector : inode.sector = x) (hopened : ∀ i ∈ s.openInodes, i.sector ≠ x) :
    Returns (do
        freeMapRelease x 1
        freeAllSectors freeMapOps inode (blockCount (inodeAt s.content x).length)) s
      fun _ t => Owning t (live.filter (· ≠ x)) ∧ (s.MemAvailable → t.MemAvailable) ∧
        t.openInodes = s.openInodes ∧ t.size = s.size ∧
        ∀ y, ¬ MapData s y → t.content y = s.content y := by
  subst hsector
  have hmem : ∀ y,
      Owned s.content inode.sector (blockCount (inodeAt s.content inode.sector).length) y →
      y ∈ ownReferences s.content inode.sector := by
    intro y hy
    refine mem_references.mpr (hy.imp id ?_)
    rintro ⟨k, hk, hk'⟩
    exact ⟨k, lt_of_lt_of_le hk (le_max_right _ _), hk'⟩
  have hinode : inode.sector ∈ ownReferences s.content inode.sector := hmem _ (.inl rfl)
  have hapart : ∀ y, Owned s.content inode.sector
      (blockCount (inodeAt s.content inode.sector).length) y → ¬ MapOwned s y := fun y hy =>
    h.apart hx hne (hmem y hy)
  have hexcl : Exclusive s inode.sector (blockCount (inodeAt s.content inode.sector).length) :=
    ⟨(h.stored hx).mapped, fun k hk => h.marked _ hx _ (hmem _ (.inr ⟨k, hk, .inr rfl⟩)), hapart⟩
  refine (freeInode_released inode h.mapFileOk.fits (.inl h.isSome_map) hexcl
    (h.marked _ hx _ hinode)
    (hsmall.trans (by decide)) (.inl hsmall)).post ?_
  rintro - t ⟨-, hall⟩
  refine ⟨h.keep filter_sublist ?_ hall.same.size hall.same.file (fun z hz => ?_)
    (fun z hz y hy => ?_) (fun i hi => ?_), hall.mem, hall.openInodes, hall.same.size,
    hall.keeps⟩
  · exact mem_filter.mpr ⟨h.map_live, by simpa using hne.symm⟩
  · have hz' := mem_of_mem_filter hz
    exact h.sameMap_of_keeps hz' fun y _ _ hd _ => hall.keeps y hd
  · -- no sector of another inode has been given back
    obtain ⟨hz', hzx⟩ := mem_filter.mp hz
    refine (hall.bits _).mpr ⟨h.marked z hz' y hy, fun w hw heq => ?_⟩
    obtain rfl := UInt32.toNat_inj.mp heq
    have hw' : w ∈ ownReferences s.content inode.sector := by
      rcases hw with rfl | ⟨k, hk, rfl⟩
      · exact hinode
      · exact hmem _ (.inr ⟨k, hk, .inr rfl⟩)
    exact absurd (h.unique hz' hx hy hw') (by simpa using hzx)
  · rw [hall.openInodes] at hi
    exact mem_filter.mpr ⟨h.opened i hi, by simpa using hopened i hi⟩

/-- `inode_close` by the last opener of a removed inode without doubly indirect blocks. -/
theorem inodeClose_removed (hopen : findInode x s.openInodes = some inode)
    (hne : x ≠ freeMapSector) (hlast : inode.openCnt - 1 = 0) (hremoved : inode.removed = true)
    (hsmall : blockCount (inodeAt s.content x).length ≤ 140) :
    Returns (FileSys.inodeClose x) s fun _ t => Owning t (live.filter (· ≠ x)) ∧
      (s.MemAvailable → t.MemAvailable) ∧ t.openInodes = s.openInodes.filter (·.sector ≠ x) ∧
      t.size = s.size ∧ ∀ y, ¬ MapData s y → t.content y = s.content y := by
  have hsector : inode.sector = x := by simpa using find?_some hopen
  have hx : x ∈ live := hsector ▸ h.opened inode (mem_of_find?_eq_some hopen)
  apply Spec.get_bind
  rw [hopen]
  dsimp only
  rw [if_pos hlast]
  apply Spec.modify_bind
  have hown : Owning { s with openInodes := s.openInodes.filter fun i => i.sector ≠ x } live :=
    h.of_openInodes fun i hi => h.opened i (mem_of_mem_filter hi)
  rw [if_pos hremoved]
  apply Spec.bind
  refine cacheRead_spec (hsector ▸ (hown.mapped hx).has_inode) ?_
  have hcount : bytesToSectors (InodeDisk.decode (s.content inode.sector)).length =
      blockCount (inodeAt s.content x).length := by
    rw [hsector]
    obtain ⟨k, hk⟩ := Int.eq_ofNat_of_zero_le (h.length_nonneg x hx)
    have hle := h.length_le x hx
    unfold maxInodeSize at hle
    change bytesToSectors (inodeAt s.content x).length = _
    rw [hk] at hle ⊢
    rw [bytesToSectors_natCast (by omega)]
    rfl
  rw [hcount, hsector]
  refine (hown.removed hx hne hsmall hsector fun i hi => ?_).post ?_
  · simpa using (mem_filter.mp hi).2
  · rintro _ t ⟨ht, hmem, hrest⟩
    exact ⟨ht, fun hm => hmem (hm.congr rfl), hrest⟩

/-- `inode_close` of an inode without doubly indirect blocks. -/
theorem inodeClose (hopen : findInode x s.openInodes = some inode) (hne : x ≠ freeMapSector)
    (hsmall : inode.openCnt - 1 = 0 → inode.removed = true →
      blockCount (inodeAt s.content x).length ≤ 140) :
    Returns (FileSys.inodeClose x) s fun _ t =>
      Owning t
        (if inode.openCnt - 1 = 0 ∧ inode.removed = true then live.filter (· ≠ x) else live) := by
  by_cases hgone : inode.openCnt - 1 = 0 ∧ inode.removed = true
  · rw [if_pos hgone]
    refine (h.inodeClose_removed hopen hne hgone.1 hgone.2 (hsmall hgone.1 hgone.2)).post ?_
    exact fun _ t ht => ht.1
  rw [if_neg hgone]
  apply Spec.get_bind
  rw [hopen]
  refine .ite (fun hlast => ?_) fun _ => ?_
  · apply Spec.modify_bind
    rw [if_neg fun hremoved => hgone ⟨hlast, hremoved⟩]
    exact .pure (h.of_openInodes fun i hi => h.opened i (mem_of_mem_filter hi))
  exact Spec.modify (h.of_map fun i => by split <;> rfl)

theorem inodeRemove : Returns (FileSys.inodeRemove x) s fun _ t => Owning t live :=
  Spec.modify (h.of_map fun i => by split <;> rfl)

theorem inodeOpen (hx : x ∈ live) :
    Returns (FileSys.inodeOpen x) s fun _ t => Owning t live ∧ t.content = s.content := by
  apply Spec.get_bind
  refine .ite (fun _ => ?_) fun _ => ?_
  · apply Spec.modify_bind
    apply Spec.get_bind
    exact .pure ⟨h.of_map fun i => by split <;> rfl, rfl⟩
  apply Spec.bind
  apply malloc_spec
  refine .ite (fun _ => ?_) fun _ => .pure ⟨h.of_openInodes h.opened, rfl⟩
  apply Spec.modify_bind
  exact .pure ⟨h.of_openInodes (forall_mem_cons.mpr ⟨hx, h.opened⟩), rfl⟩

end Owning

end CS162
