import CS162.Filesys.FreeMap

/-!
# Allocating the blocks of an inode

`allocate_blocks` fills the direct pointers, then one indirect block, then up to 127
second-level blocks.  Its result is described by two lists: `D`, the data blocks in the
order of the file, and `I`, the index blocks.  `Laid` says that the inode maps block
`k` to the `k`-th entry of `D` through index blocks from `I`.

## Strategy

Every phase allocates sectors that were free and writes only such sectors, so what an
earlier phase has written stays (`Alloc.keeps`), and the lists of the phases can be
appended (`Alloc.trans`).  Whatever happens, a call that returns has only allocated;
this is the part of the specifications that says what a failed call leaves.

The zeroing of the data blocks is a parameter: any `zero` will do that writes nothing
but entries of its array, and those only if it does not run past the end of the array
(`ZeroesOnly`).
-/

namespace CS162

open Library FileSys Function List

variable {s t u : FileSys} {x y : BlockSector} {E : Fault → Prop}

/-- `zero` writes the first `size` entries of its array, if the array has so many, and
nothing else. -/
def ZeroesOnly (E : Fault → Prop) (zero : ℕ → ℕ → (ℕ → BlockSector) → Fs Unit) : Prop :=
  ∀ bound size sectors s, (size ≤ bound → ∀ k < size, s.Has (sectors k)) →
    (bound < size → E (.undefined "sectors[i]")) →
    Spec E (zero bound size sectors) s fun _ t => ∃ c, t = { s with content := c } ∧
      (c = s.content ∨ size ≤ bound ∧ ∀ y, (∀ k < size, y ≠ sectors k) → c y = s.content y)

/-- `zero` does what `ZeroesOnly` says; moreover it leaves contents in `Z` where it writes, and
returns only if `P` holds of the length of the array and the number of entries. -/
def ZeroesTo (E : Fault → Prop) (P : ℕ → ℕ → Prop) (Z : Sector → Prop)
    (zero : ℕ → ℕ → (ℕ → BlockSector) → Fs Unit) : Prop :=
  ∀ bound size sectors s, (size ≤ bound → ∀ k < size, s.Has (sectors k)) →
    (bound < size → E (.undefined "sectors[i]")) →
    Spec E (zero bound size sectors) s fun _ t => P bound size ∧ ∃ c, t = { s with content := c } ∧
      (c = s.content ∨ size ≤ bound ∧ ∀ y, (∀ k < size, y ≠ sectors k) → c y = s.content y) ∧
      (size ≤ bound → ∀ k < size, Z (c (sectors k)))

theorem ZeroesOnly.zeroesTo {zero : ℕ → ℕ → (ℕ → BlockSector) → Fs Unit} (h : ZeroesOnly E zero) :
    ZeroesTo E (fun _ _ => True) (fun _ => True) zero := by
  intro bound size sectors s hhas hundef
  refine (h bound size sectors s hhas hundef).post ?_
  rintro - t ⟨c, rfl, hc⟩
  exact ⟨trivial, c, rfl, hc, fun _ _ _ => trivial⟩

/-- `zero_out` leaves zeros, and stops when it runs past the end of its array. -/
theorem zeroesTo_zeroOut
    (hpast : E (.undefined "sectors[i]") → E (.panic "Access past end of device")) :
    ZeroesTo E (fun bound size => size ≤ bound) (· = Sector.zeros) zeroOut := by
  intro bound size sectors s hhas hundef
  refine (Spec.forUpto (fun i t => i ≤ bound ∧ ∃ c, t = { s with content := c } ∧
      (∀ y, (∀ k < i, y ≠ sectors k) → c y = s.content y) ∧
      ∀ k < i, c (sectors k) = Sector.zeros)
    size 0 ⟨by omega, s.content, rfl, fun _ _ => rfl, by simp⟩ ?_).post ?_
  swap
  · rintro - t ⟨hle, c, rfl, hc, hzeros⟩
    rw [zero_add] at hle hc hzeros
    exact ⟨hle, c, rfl, .inr ⟨hle, hc⟩, fun _ => hzeros⟩
  rintro i t - hlt ⟨hle, c, rfl, hc, hzeros⟩
  refine .ite (fun hi => cacheWrite_rule (fun _ => ?_) fun hnot => ?_) fun hi =>
    Spec.throw (hundef (by omega))
  swap
  · by_cases hsize : size ≤ bound
    · exact absurd (hhas hsize i (by omega)) hnot
    · exact hpast (hundef (by omega))
  refine ⟨by omega, _, rfl, fun y hy => ?_, fun k hk => ?_⟩
  · rw [update_of_ne (hy i (by omega))]
    exact hc y fun k hk => hy k (by omega)
  dsimp only
  by_cases heq : sectors k = sectors i
  · rw [heq, update_self]
  · rw [update_of_ne heq]
    exact hzeros k (by
      have hne : k ≠ i := fun h => heq (h ▸ rfl)
      omega)

theorem zeroesOnly_zeroOut
    (hpast : E (.undefined "sectors[i]") → E (.panic "Access past end of device")) :
    ZeroesOnly E zeroOut := by
  intro bound size sectors s hhas hundef
  refine (zeroesTo_zeroOut hpast bound size sectors s hhas hundef).post ?_
  rintro - t ⟨-, c, rfl, hc, -⟩
  exact ⟨c, rfl, hc⟩

/-! ## Arrays of sectors -/

/-- Releasing the first entries of an array, all of them allocated before. -/
theorem Taken.releaseArray {bound n : ℕ} {sectorp : ℕ → BlockSector} {A : List BlockSector}
    (h : Taken s t ((range n).map sectorp ++ A)) (hok : MapFits s) (hopen : MapOpen E s)
    (hbound : n ≤ bound) :
    Spec E (freeMapReleaseArray freeMapOps bound sectorp n) t fun _ u =>
      Taken s u A ∧ ∀ z, ¬ MapData s z → u.content z = t.content z := by
  rw [range_eq_range'] at h
  refine (Spec.forUpto (fun i u => Taken s u ((range' i (n - i)).map sectorp ++ A) ∧
    ∀ z, ¬ MapData s z → u.content z = t.content z) n 0 ⟨h, fun _ _ => rfl⟩ ?_).post ?_
  swap
  · intro _ u hu
    simpa using hu
  · rintro i u - hi ⟨hu, hframe⟩
    rw [show n - i = n - (i + 1) + 1 by omega, range'_succ, map_cons, cons_append] at hu
    rw [if_pos (by omega)]
    exact (hu.release hok (hu.mapOpen hopen)).post fun _ v hv => ⟨hv.1, fun z hz =>
      (hv.2 z (mt hu.same.mapData.mp hz)).trans (hframe z hz)⟩

/-- `free_map_allocate_array`: on success the first `upto` entries are new sectors and
the rest is 0; on failure everything is given back, and memory or sectors are scarce. -/
theorem allocateArrayFrom_spec {bound upto : ℕ} (hok : MapFits s) (hopen : MapOpen E s) (n : ℕ) :
    ∀ (i : ℕ) (sectorp : ℕ → BlockSector) (t : FileSys), i + n = bound →
    Alloc s t ((range (min i upto)).map sectorp) →
    (∀ z, ¬ MapData s z → t.content z = s.content z) → (∀ k < i, upto ≤ k → sectorp k = 0) →
    Spec E (allocateArrayFrom freeMapOps bound upto n i sectorp) t fun r u =>
      (r.1 = true → Alloc s u ((range (min bound upto)).map r.2) ∧
        ∀ k < bound, upto ≤ k → r.2 k = 0) ∧
      (r.1 = false → Alloc s u [] ∧ (s.MemAvailable → Scarce s upto)) := by
  induction n with
  | zero =>
    intro i sectorp t hi halloc _ hzero
    obtain rfl : i = bound := hi
    exact .pure ⟨fun _ => ⟨halloc, hzero⟩, by simp⟩
  | succ n ih =>
    intro i sectorp t hi halloc hclean hzero
    have hold : ∀ y, (range (min i upto)).map (update sectorp i y) =
        (range (min i upto)).map sectorp := fun y => map_congr_left fun k hk =>
      update_of_ne (by rw [mem_range] at hk; omega) _ _
    refine .ite (fun hupto => ?_) fun hupto => ?_
    · refine ih (i + 1) _ t (by omega) ?_ hclean fun k hk hle => ?_
      · rwa [show min (i + 1) upto = min i upto by omega, hold]
      · by_cases hki : k = i
        · rw [hki, update_self]
        · rw [update_of_ne hki]
          exact hzero k (by omega) hle
    refine .seq (freeMapAllocate_frame (hok.of_same halloc.same)) ?_
    rintro r u ⟨hframe, hsome, hnone⟩
    have hclean' : ∀ z, ¬ MapData s z → u.content z = s.content z := fun z hz =>
      (hframe z (mt halloc.same.mapData.mp hz)).trans (hclean z hz)
    rw [show min i upto = i by omega] at halloc hold
    cases r with
    | some y =>
      refine ih (i + 1) _ u (by omega) ?_ hclean' fun k hk hle => ?_
      · rw [show min (i + 1) upto = i + 1 by omega, range_succ, map_append, hold, map_singleton,
          update_self]
        exact halloc.trans (hsome y rfl)
      · rw [update_of_ne (by omega)]
        exact hzero k (by omega) hle
    | none =>
      have hnext := halloc.trans (hnone rfl).1
      refine .seq (hnext.releaseArray hok hopen (by omega)) fun _ v hv => Spec.pure ⟨by simp,
        fun _ => ⟨hv.1.alloc_nil fun z hz => (hv.2 z hz).trans (hclean' z hz), fun hm => ?_⟩⟩
      exact (halloc.scarce ((hnone rfl).2 (halloc.mem hm))).mono (by simp; omega)

theorem freeMapAllocateArray_spec {cnt upto : ℕ} (hok : MapFits s)
    (hopen : MapOpen E s) (sectorp : ℕ → BlockSector) :
    Spec E (freeMapAllocateArray freeMapOps cnt upto sectorp) s fun r u =>
      (r.1 = true → Alloc s u ((range (min cnt upto)).map r.2) ∧
        ∀ k < cnt, upto ≤ k → r.2 k = 0) ∧
      (r.1 = false → Alloc s u [] ∧ (s.MemAvailable → Scarce s upto)) :=
  allocateArrayFrom_spec hok hopen cnt 0 sectorp s (by omega) (by simpa using Alloc.refl s)
    (fun _ _ => rfl) (by simp)

/-- **`free_map_allocate_array` gives everything or nothing**: the first `upto` entries are
different sectors that were free, the others are 0 and only the bits of those sectors are set; or
the free map is as before, and memory or sectors are scarce.  In either case nothing stops the
kernel, the `ASSERT` of `free_map_release` in particular. -/
theorem freeMapAllocateArray_all_or_nothing {cnt upto : ℕ} (hfits : MapFits s)
    (hopen : s.freeMapFile.isSome) (hle : upto ≤ cnt) (sectorp : ℕ → BlockSector) :
    Returns (freeMapAllocateArray freeMapOps cnt upto sectorp) s fun r t =>
      r.1 = true ∧ (∀ k < upto, s.Has (r.2 k) ∧ s.freeMap (r.2 k).toNat = false) ∧
          (∀ j < upto, ∀ k < upto, r.2 j = r.2 k → j = k) ∧ (∀ k < cnt, upto ≤ k → r.2 k = 0) ∧
          (∀ i, t.freeMap i = true ↔ s.freeMap i = true ∨ ∃ k < upto, (r.2 k).toNat = i) ∨
        r.1 = false ∧ t.freeMap = s.freeMap ∧ (s.MemAvailable → Scarce s upto) := by
  refine (freeMapAllocateArray_spec hfits (.inl hopen) sectorp).post ?_
  rintro ⟨success, sectors⟩ t ⟨hsome, hnone⟩
  cases success with
  | true =>
    obtain ⟨halloc, hzero⟩ := hsome rfl
    rw [min_eq_right hle] at halloc
    refine .inl ⟨rfl, fun k hk => halloc.fresh _ (mem_map_of_mem (mem_range.mpr hk)), ?_, hzero, ?_⟩
    · intro j hj k hk heq
      exact inj_on_of_nodup_map halloc.nodup (mem_range.mpr hj) (mem_range.mpr hk) heq
    · simpa using halloc.bits
  | false =>
    refine .inr ⟨rfl, funext fun i => Bool.eq_iff_iff.mpr ?_, (hnone rfl).2⟩
    simpa using (hnone rfl).1.bits i

/-! ## The layout of an inode -/

/-- The inode maps its blocks to the list `D`, through index blocks from `I`. -/
structure Laid (data : InodeDisk) (c : BlockSector → Sector) (D I : List BlockSector) : Prop where
  block : ∀ k < D.length, D[k]? = some (data.block c k)
  perm : I.Perm (data.indexBlocks c D.length)

variable {c : BlockSector → Sector}

theorem Laid.mem_index {data : InodeDisk} {D I : List BlockSector}
    (h : Laid data c D I) : y ∈ I ↔ ∃ k < D.length, y ∈ data.path c k :=
  h.perm.mem_iff.trans InodeDisk.mem_indexBlocks

/-- What has been allocated stays as it is when more is allocated. -/
theorem Alloc.keeps_mem {A B : List BlockSector} (h : Alloc s t A) (hok : MapFileOk s)
    (h' : Alloc t u B) (hy : y ∈ A) : u.content y = t.content y := by
  refine h'.keeps y (h.marked hy) fun hd => ?_
  have hfree := (h.fresh y hy).2
  rw [hok.mapData_marked (h.same.mapData.mp hd)] at hfree
  exact Bool.noConfusion hfree

theorem Alloc.zero {P : ℕ → ℕ → Prop} {Z : Sector → Prop}
    {zero : ℕ → ℕ → (ℕ → BlockSector) → Fs Unit} (hzero : ZeroesTo E P Z zero)
    {A : List BlockSector} (h : Alloc s t A) (hok : MapFileOk s) {bound size : ℕ}
    {sectors : ℕ → BlockSector} (hmem : size ≤ bound → ∀ k < size, sectors k ∈ A)
    (hundef : bound < size → E (.undefined "sectors[i]")) :
    Spec E (zero bound size sectors) t fun _ u => Alloc s u A ∧ P bound size ∧
      (size ≤ bound → ∀ k < size, Z (u.content (sectors k))) := by
  refine (hzero bound size sectors t (fun hle k hk =>
    h.same.has.mpr (h.fresh _ (hmem hle k hk)).1) hundef).post ?_
  rintro - u ⟨hP, c, rfl, hc, hZ⟩
  refine ⟨h.write hok fun z hz => ?_, hP, hZ⟩
  rcases hc with rfl | ⟨hle, hc⟩
  · rfl
  · exact hc z fun k hk heq => hz (heq ▸ hmem hle k hk)

section Phases

variable {P : ℕ → ℕ → Prop} {Z : Sector → Prop} {zero : ℕ → ℕ → (ℕ → BlockSector) → Fs Unit}
  (hzero : ZeroesTo E P Z zero)
include hzero

theorem allocateDirectBlocks_spec (hok : MapFileOk s) (hopen : MapOpen E s) {n : ℕ} (hn : 0 < n)
    (d : InodeDisk) :
    Spec E (allocateDirectBlocks freeMapOps zero n d) s fun r t =>
      (r.1 = 0 → Alloc s t [] ∧ (s.MemAvailable → Scarce s (min n 12))) ∧
      (r.1 ≠ 0 → r.1 = min n 12 ∧ ∃ (D : List BlockSector) (f : Fin 12 → BlockSector),
        r.2 = { d with direct := f } ∧ D.length = min n 12 ∧ Alloc s t D ∧
        Laid r.2 t.content D [] ∧ ∀ y ∈ D, Z (t.content y)) := by
  unfold allocateDirectBlocks
  have hupto : (if n < 12 then n else 12) = min n 12 := by split <;> omega
  rw [hupto]
  refine .seq (freeMapAllocateArray_spec hok.fits hopen _) ?_
  rintro ⟨success, direct⟩ t ⟨hyes, hno⟩
  refine .ite (fun hs => ?_) fun hs => ?_
  · have halloc := (hyes hs).1
    rw [show min 12 (min n 12) = min n 12 by omega] at halloc
    have hlen : ((range (min n 12)).map direct).length = min n 12 := by simp
    refine .seq (halloc.zero hzero hok (fun _ k hk => mem_map_of_mem (mem_range.mpr hk))
      (by omega)) ?_
    rintro - u ⟨hu, -, hZ⟩
    refine .pure ⟨fun h0 => absurd h0 (by dsimp only; omega),
      fun _ => ⟨rfl, _, _, rfl, hlen, hu, ⟨fun k hk => ?_, ?_⟩, ?_⟩⟩
    · rw [hlen] at hk
      rw [InodeDisk.block, if_pos (by omega), entry_eq _ (by omega)]
      simp [hk]
    · rw [InodeDisk.indexBlocks, if_neg (by omega), if_neg (by omega)]
      rfl
    · exact forall_mem_map.mpr fun k hk => hZ (by omega) k (mem_range.mp hk)
  · obtain ⟨hnil, hscarce⟩ := hno (by simpa using hs)
    exact .pure ⟨fun _ => ⟨hnil, hscarce⟩, by simp⟩

theorem allocateIndirectBlocks_spec (hok : MapFileOk s) (hopen : MapOpen E s) {n : ℕ} (hn : 0 < n)
    (d : InodeDisk) :
    Spec E (allocateIndirectBlocks freeMapOps zero n d) s fun r t =>
      (∃ A, Alloc s t A) ∧ (r.1 = 0 → s.MemAvailable → Scarce s (1 + min n 128)) ∧
      (r.1 ≠ 0 → r.1 = min n 128 ∧ ∃ (D : List BlockSector) (z : BlockSector),
        r.2 = { d with indirect := z } ∧ D.length = min n 128 ∧ Alloc s t (D ++ [z]) ∧
        (∀ k < D.length, D[k]? = some ((t.content z).words k)) ∧ ∀ y ∈ D, Z (t.content y)) := by
  unfold allocateIndirectBlocks
  have hupto : (if n < 128 then n else 128) = min n 128 := by split <;> omega
  rw [hupto]
  refine .seq (freeMapAllocate_spec hok.fits) ?_
  rintro r t ⟨hsome, hnone⟩
  cases r with
  | none =>
    exact .pure ⟨⟨[], (hnone rfl).1⟩, fun _ hm => ((hnone rfl).2 hm).mono (by omega), by simp⟩
  | some z =>
    have hz := hsome z rfl
    have hhas := (hz.fresh z (by simp)).1
    refine .seq (freeMapAllocateArray_spec (hok.fits.of_same hz.same) (hz.mapOpen hopen) _) ?_
    rintro ⟨success, buffer⟩ t' ⟨hyes, hno⟩
    refine .ite (fun hs => ?_) fun hs => ?_
    · have halloc := (hyes hs).1
      rw [show min 128 (min n 128) = min n 128 by omega] at halloc
      have hmem : ∀ k < min n 128, buffer k ∈ (range (min n 128)).map buffer := fun k hk =>
        mem_map_of_mem (mem_range.mpr hk)
      have hall : Alloc s t' ((range (min n 128)).map buffer ++ [z]) :=
        (hz.trans halloc).perm (perm_append_singleton z _).symm
      refine .seq (hall.zero hzero hok (fun _ k hk => mem_append_left _ (hmem k hk)) (by omega)) ?_
      rintro - u ⟨hu, -, hZ⟩
      refine .bind (cacheWrite_spec (hu.same.has.mpr hhas) (Spec.pure ?_))
      have hwrite := hu.writeSector hok (y := z) (by simp) (Sector.ofWords buffer)
      refine ⟨⟨_, hwrite⟩, fun h0 => ?_,
        fun _ => ⟨if_pos hs, _, z, rfl, by simp, hwrite, fun k hk => ?_, ?_⟩⟩
      · rw [if_pos hs] at h0
        omega
      · rw [length_map, length_range] at hk
        simp [hk, words_ofWords _ (show k < 128 by omega)]
      -- the index block is not one of the data blocks
      refine forall_mem_map.mpr fun k hk => ?_
      have hk := mem_range.mp hk
      have hne : buffer k ≠ z := fun heq =>
        (nodup_append.mp hall.nodup).2.2 _ (hmem k hk) z (by simp) heq
      dsimp only
      rw [update_of_ne hne]
      exact hZ (by omega) k hk
    · obtain ⟨hnil, hscarce⟩ := hno (by simpa using hs)
      have hall := hz.trans hnil
      refine .bind (cacheWrite_spec (hall.same.has.mpr hhas) (Spec.pure ?_))
      exact ⟨⟨_, hall.writeSector hok (by simp) _⟩, fun _ hm => hz.scarce (hscarce (hz.mem hm)),
        fun h => absurd (if_neg hs) h⟩

end Phases

/-- What the loop of `allocate_doubly_indirect_blocks` has done after `i` rounds: the
data blocks `D`, and the second-level blocks `J`, entered in `buffer`. -/
structure DoublyDone (s t : FileSys) (z : BlockSector) (allocated i : ℕ)
    (buffer : ℕ → BlockSector) (D J : List BlockSector) : Prop where
  alloc : Alloc s t (D ++ (J ++ [z]))
  length_data : D.length = allocated
  length_index : J.length = i
  slot : ∀ j < i, J[j]? = some (buffer j) ∧ 128 * j < allocated
  block : ∀ k < allocated, k / 128 < i ∧
    D[k]? = some ((t.content (buffer (k / 128))).words (k % 128))

/-- One round: the blocks `L` and the second-level block `y` that lists them. -/
theorem DoublyDone.round {z : BlockSector} {i : ℕ} {buffer : ℕ → BlockSector}
    {D J L : List BlockSector} (hok : MapFileOk s) (h : DoublyDone s t z (128 * i) i buffer D J)
    (hround : Alloc t u (L ++ [y])) (hpos : 0 < L.length) (hle : L.length ≤ 128)
    (hL : ∀ k < L.length, L[k]? = some ((u.content y).words k)) :
    DoublyDone s u z (128 * i + L.length) (i + 1) (update buffer i y) (D ++ L) (J ++ [y]) := by
  -- the second-level blocks of earlier rounds keep their content
  have hkeep : ∀ j < i, u.content (buffer j) = t.content (buffer j) := by
    intro j hj
    have hmem : buffer j ∈ D ++ (J ++ [z]) := by simp [mem_of_getElem? (h.slot j hj).1]
    exact h.alloc.keeps_mem hok hround hmem
  have hD := h.length_data
  have hJ := h.length_index
  refine ⟨(h.alloc.trans hround).perm ?_, by simp [hD], by simp [hJ], fun j hj => ?_,
    fun k hk => ?_⟩
  · refine perm_iff_count.mpr fun a => ?_
    simp only [count_append]
    omega
  · by_cases hji : j = i
    · subst hji
      rw [← hJ]
      exact ⟨by simp, by omega⟩
    · obtain ⟨hget, hlt⟩ := h.slot j (by omega)
      rw [update_of_ne hji, getElem?_append_left (by omega)]
      exact ⟨hget, by omega⟩
  by_cases hki : k < 128 * i
  · obtain ⟨hslot, hget⟩ := h.block k hki
    refine ⟨by omega, ?_⟩
    rwa [update_of_ne (by omega), hkeep _ hslot, getElem?_append_left (by omega)]
  · have hdiv : k / 128 = i := by omega
    have hmod : k % 128 = k - 128 * i := by omega
    refine ⟨by omega, ?_⟩
    rw [hdiv, hmod, update_self, getElem?_append_right (by omega), hD]
    exact hL _ (by omega)

/-- Adding the second level to an inode whose direct and indirect blocks are full. -/
theorem Laid.doubly {d : InodeDisk} {c' : BlockSector → Sector} {D D2 J : List BlockSector}
    {w : BlockSector} (h : Laid d c D [d.indirect]) (hD : D.length = 140)
    (hblock : ∀ k < D2.length, D2[k]? = some ((c' ((c' w).words (k / 128))).words (k % 128)))
    (hJ : J = (List.range ((D2.length + 127) / 128)).map fun j => (c' w).words j)
    (hpos : 0 < D2.length) (hkeep : c' d.indirect = c d.indirect) :
    Laid { d with doublyIndirect := w } c' (D ++ D2) (d.indirect :: (J ++ [w])) := by
  have hlen : (D ++ D2).length = 140 + D2.length := by rw [length_append, hD]
  refine ⟨fun k hk => ?_, ?_⟩
  · by_cases h140 : k < 140
    · rw [getElem?_append_left (by omega), h.block k (by omega)]
      unfold InodeDisk.block
      simp only [if_pos h140, hkeep]
    · rw [getElem?_append_right (by omega), hD, InodeDisk.block, if_neg (by omega), if_neg h140]
      exact hblock _ (by omega)
  · rw [hlen, InodeDisk.indexBlocks, if_pos (by omega), if_pos (by omega),
      Nat.add_sub_cancel_left, ← hJ]
    exact (perm_append_singleton w J).cons _

/-- `allocate_blocks` does not run past the end of an array: either there is one
second-level block, or the last one is full. -/
def Zeroable (n : ℕ) : Prop := n ≤ 268 ∨ maxBlocks < n ∨ (n - 140) % 128 = 0

instance (n : ℕ) : Decidable (Zeroable n) := inferInstanceAs (Decidable (_ ∨ _ ∨ _))

/-- The number of sectors of a file of `n` blocks, index blocks included. -/
def sectorsNeeded (n : ℕ) : ℕ :=
  max 1 n + (if 12 < n then 1 else 0) + if 140 < n then 1 + (n - 140 + 127) / 128 else 0

theorem Laid.length {data : InodeDisk} {D I : List BlockSector} {n : ℕ}
    (h : Laid data c D I) (hD : D.length = max 1 n) : (D ++ I).length = sectorsNeeded n := by
  rw [length_append, h.perm.length_eq, hD, InodeDisk.indexBlocks, sectorsNeeded]
  simp only [show 12 < max 1 n ↔ 12 < n by omega, show 140 < max 1 n ↔ 140 < n by omega,
    length_append]
  split
  · split
    · rw [show max 1 n = n by omega]
      simp
      omega
    · rfl
  · rw [if_neg (by omega), if_neg (by omega)]
    rfl

/-- What a failed allocation of `n` blocks leaves: no sector is kept, or all direct blocks at least
are.  There was no memory, or there were too few sectors. -/
structure AllocationFailed (s t : FileSys) (n : ℕ) (A : List BlockSector) : Prop where
  alloc : Alloc s t A
  kept : A = [] ∨ n ≤ maxBlocks ∧ min (max 1 n) 12 ≤ A.length
  scarce : n ≤ maxBlocks → s.MemAvailable → Scarce s (sectorsNeeded n)
  scarce_direct : A = [] → n ≤ maxBlocks → s.MemAvailable → Scarce s (min (max 1 n) 12)

section Doubly

variable {P : ℕ → ℕ → Prop} {Z : Sector → Prop} {zero : ℕ → ℕ → (ℕ → BlockSector) → Fs Unit}
  (hzero : ZeroesTo E P Z zero)
include hzero

section

variable (hok : MapFileOk s) (hopen : MapOpen E s)
include hok hopen

/-- The loop zeroes as many entries of the last array as there are data blocks in all, so it runs
past its end if there are several arrays and the last one is not full.  It gets there unless the
sectors are scarce, all but the last second-level block. -/
theorem allocateDoublyLoop_spec {z : BlockSector} {sectors : ℕ}
    (hundef : 128 < sectors → sectors % 128 ≠ 0 →
      Scarce s (sectors + (sectors + 127) / 128) ∨ E (.undefined "sectors[i]")) (fuel : ℕ) :
    ∀ (left allocated i : ℕ) (buffer : ℕ → BlockSector) (t : FileSys) (D J : List BlockSector),
    left < fuel → left + allocated = sectors → (0 < left → allocated = 128 * i) →
    DoublyDone s t z allocated i buffer D J →
    (left = 0 → sectors % 128 ≠ 0 → P 128 sectors) →
    ((128 < sectors → sectors % 128 = 0) → ∀ y ∈ D, Z (t.content y)) →
    Spec E (allocateDoublyLoop freeMapOps zero sectors fuel left allocated i buffer) t fun r u =>
      (r = none → (∃ A, Alloc s u A) ∧ (s.MemAvailable →
        Scarce s (sectors + (sectors + 127) / 128 + 1) ∧
          (sectors % 128 ≠ 0 → ¬ P 128 sectors → Scarce s (sectors + (sectors + 127) / 128)))) ∧
      ∀ total buffer', r = some (total, buffer') → total = sectors ∧
        (sectors % 128 ≠ 0 → P 128 sectors) ∧
        ∃ i' D' J', DoublyDone s u z sectors i' buffer' D' J' ∧
          ((128 < sectors → sectors % 128 = 0) → ∀ y ∈ D', Z (u.content y)) := by
  induction fuel with
  | zero => intro left allocated i buffer t D J hfuel; omega
  | succ fuel ih =>
    intro left allocated i buffer t D J hfuel hsum hfull hdone hP hZ
    refine .ite (fun hleft => ?_) fun hleft => ?_
    · refine .pure ⟨by simp, fun total buffer' heq => ?_⟩
      obtain ⟨rfl, rfl⟩ := heq
      have : allocated = sectors := by omega
      exact ⟨this, hP hleft, i, D, J, this ▸ hdone, hZ⟩
    have hallocated := hfull (by omega)
    have hok' := hdone.alloc.mapFileOk hok
    have hopen' := hdone.alloc.mapOpen hopen
    have hupto : (if left < 128 then left else 128) = min left 128 := by split <;> omega
    rw [hupto]
    refine .seq (freeMapAllocateArray_spec hok'.fits hopen' _) ?_
    rintro ⟨success, doublyBuffer⟩ t1 ⟨hyes, hno⟩
    cases success with
    | false =>
      obtain ⟨hnil, hscarce⟩ := hno rfl
      refine .pure ⟨fun _ => ⟨⟨_, hdone.alloc.trans hnil⟩, fun hm => ?_⟩, by simp⟩
      have hscarce' := hdone.alloc.scarce (hscarce (hdone.alloc.mem hm))
      simp only [length_append, length_singleton, hdone.length_data, hdone.length_index] at hscarce'
      exact ⟨hscarce'.mono (by omega), fun _ _ => hscarce'.mono (by omega)⟩
    | true =>
      have hL := (hyes rfl).1
      dsimp only at hL
      rw [show min 128 (min left 128) = min left 128 by omega] at hL
      have hlen : ((range (min left 128)).map doublyBuffer).length = min left 128 := by simp
      refine .seq (hL.zero hzero hok' (fun hle k hk => ?_) fun hpast => ?_) ?_
      · -- the array is full, or this is the only round
        refine mem_map_of_mem (mem_range.mpr ?_)
        split at hk
        · rw [if_pos (by assumption)] at hle
          omega
        · omega
      · split at hpast
        · refine (hundef (by omega) (by omega)).resolve_left
            ((hdone.alloc.trans hL).toTaken.not_scarce ?_)
          simp only [length_append, length_singleton, hdone.length_data, hdone.length_index]
          omega
        · omega
      rintro - t2 ⟨ht2, hP2, hZ2⟩
      refine .seq (freeMapAllocate_spec (hok'.fits.of_same ht2.same)) ?_
      rintro r t3 ⟨hsome, hnone⟩
      cases r with
      | none =>
        obtain ⟨hnil, hscarce⟩ := hnone rfl
        have hall := hdone.alloc.trans ht2
        refine .pure ⟨fun _ => ⟨⟨_, hall.trans hnil⟩, fun hm => ?_⟩, by simp⟩
        have hscarce' := hall.scarce (hscarce (hall.mem hm))
        simp only [length_append, length_singleton, hdone.length_data, hdone.length_index]
          at hscarce'
        refine ⟨hscarce'.mono (by omega), fun hmod hnot => hscarce'.mono ?_⟩
        split at hP2
        · exact absurd hP2 hnot
        · omega
      | some y =>
        have hround := ht2.trans (hsome y rfl)
        refine .bind (cacheWrite_spec (hround.same.has.mpr (hround.fresh y (by simp)).1) ?_)
        have hwrite := hround.writeSector hok' (y := y) (by simp) (Sector.ofWords doublyBuffer)
        subst hallocated
        have hnext := hdone.round hok hwrite (by omega) (by omega) fun k hk => by
          rw [hlen] at hk
          simp [hk, words_ofWords _ (show k < 128 by omega)]
        rw [hlen] at hnext
        refine ih _ _ _ _ _ _ _ (by omega) (by omega) (by omega) hnext ?_ ?_
        · intro hend hmod
          rwa [if_pos (by omega)] at hP2
        -- the old data blocks are as before, the new ones have been zeroed
        intro hexact w hw
        rcases mem_append.mp hw with hw | hw
        · rw [hdone.alloc.keeps_mem hok hwrite (mem_append_left _ hw)]
          exact hZ hexact w hw
        obtain ⟨k, hk, rfl⟩ := mem_map.mp hw
        rw [mem_range] at hk
        have hky : doublyBuffer k ≠ y := fun heq =>
          (nodup_append.mp hround.nodup).2.2 _ hw y (by simp) heq
        dsimp only
        rw [update_of_ne hky, ht2.keeps_mem hok' (hsome y rfl) hw]
        exact hZ2 (by split <;> omega) k (by split <;> omega)

theorem allocateDoublyIndirectBlocks_spec {n : ℕ} (hn : n < 128 * 127)
    (hundef : 128 < n → n % 128 ≠ 0 →
      Scarce s (n + (n + 127) / 128) ∨ E (.undefined "sectors[i]")) (d : InodeDisk) :
    Spec E (allocateDoublyIndirectBlocks freeMapOps zero n d) s fun r t =>
      (∃ A, Alloc s t A) ∧
      (r.1 = 0 → 0 < n → s.MemAvailable → Scarce s (n + (n + 127) / 128 + 1) ∧
        (n % 128 ≠ 0 → ¬ P 128 n → Scarce s (n + (n + 127) / 128))) ∧
      (r.1 ≠ 0 → (n % 128 ≠ 0 → P 128 n) ∧ ∃ (D J : List BlockSector) (z : BlockSector),
        r.2 = { d with doublyIndirect := z } ∧ D.length = n ∧ Alloc s t (D ++ (J ++ [z])) ∧
        (∀ k < n, D[k]? = some ((t.content ((t.content z).words (k / 128))).words (k % 128))) ∧
        J = ((range ((n + 127) / 128)).map fun j => (t.content z).words j) ∧
        ((128 < n → n % 128 = 0) → ∀ y ∈ D, Z (t.content y))) := by
  unfold allocateDoublyIndirectBlocks
  rw [if_neg (not_not.mpr hn)]
  refine .seq (freeMapAllocate_spec hok.fits) ?_
  rintro r t ⟨hsome, hnone⟩
  cases r with
  | none =>
    exact .pure ⟨⟨[], (hnone rfl).1⟩, fun _ _ hm => ⟨((hnone rfl).2 hm).mono (by omega),
      fun _ _ => ((hnone rfl).2 hm).mono (by omega)⟩, by simp⟩
  | some z =>
    have hz := hsome z rfl
    have hhas := (hz.fresh z (by simp)).1
    have hstart : DoublyDone s t z 0 0 (fun _ => 0) [] [] :=
      ⟨by simpa using hz, rfl, rfl, by simp, by simp⟩
    refine .seq (allocateDoublyLoop_spec hzero hok hopen hundef (n + 1) n 0 0 _ t [] []
      (by omega) (by omega) (by omega) hstart (by omega) (by simp)) ?_
    rintro r u ⟨hfail, hdone⟩
    cases r with
    | none => exact .pure ⟨(hfail rfl).1, fun _ _ => (hfail rfl).2, by simp⟩
    | some r =>
      obtain ⟨total, buffer⟩ := r
      obtain ⟨rfl, hP, i, D, J, hloop, hZ⟩ := hdone total buffer rfl
      refine .bind (cacheWrite_spec (hloop.alloc.same.has.mpr hhas) (Spec.pure ?_))
      have hwrite := hloop.alloc.writeSector hok (y := z) (by simp) (Sector.ofWords buffer)
      refine ⟨⟨_, hwrite⟩, fun h0 hpos => absurd h0 (by dsimp only; omega),
        fun _ => ⟨hP, D, J, z, rfl, hloop.length_data, hwrite, ?_⟩⟩
      -- fewer than 128 second-level blocks, so each has its slot in the index block
      have hi : ∀ j < i, j < 128 := fun j hj => by
        have := (hloop.slot j hj).2
        omega
      have hslot : ∀ j < i, (update u.content z (Sector.ofWords buffer) z).words j =
          buffer j := fun j hj => by
        rw [update_self, words_ofWords _ (hi j hj)]
      have hnodup := nodup_append.mp hloop.alloc.nodup
      have hne : ∀ j < i, buffer j ≠ z := fun j hj heq =>
        (nodup_append.mp hnodup.2.1).2.2 _ (mem_of_getElem? (hloop.slot j hj).1) z (by simp) heq
      refine ⟨fun k hk => ?_, ext_getElem? fun j => ?_, fun hexact y hy => ?_⟩
      · obtain ⟨hki, hget⟩ := hloop.block k hk
        dsimp only
        rwa [hslot _ hki, update_of_ne (hne _ hki)]
      · -- the rounds are as many as the blocks need
        have hrounds : (total + 127) / 128 = i := by
          by_cases htotal : total = 0
          · by_contra hne0
            omega
          · have hlast := (hloop.block (total - 1) (by omega)).1
            have hfirst := (hloop.slot (i - 1) (by omega)).2
            omega
        rw [hrounds, getElem?_map]
        by_cases hji : j < i
        · rw [getElem?_range hji, (hloop.slot j hji).1, Option.map_some, hslot j hji]
        · rw [getElem?_eq_none (by rw [hloop.length_index]; omega),
            getElem?_eq_none (by simpa using hji)]
          rfl
      · have hyz : y ≠ z := fun heq => hnodup.2.2 y hy z (by simp) heq
        dsimp only
        rw [update_of_ne hyz]
        exact hZ hexact y hy

/-- A successful call of `allocate_blocks` has laid out the blocks of the inode. -/
theorem allocateBlocksWith_spec (n : ℕ) (hundef : Zeroable n ∨
      Scarce s (sectorsNeeded n - 1) ∨ E (.undefined "sectors[i]")) (d : InodeDisk) :
    Spec E (allocateBlocksWith freeMapOps zero n d) s fun r t =>
      (r.1 = false → (∃ A, AllocationFailed s t n A) ∧ (s.MemAvailable → ¬ Zeroable n →
        ¬ P 128 (n - 140) → Scarce s (sectorsNeeded n - 1))) ∧
      (r.1 = true → n ≤ maxBlocks ∧ (140 < n → (n - 140) % 128 ≠ 0 → P 128 (n - 140)) ∧
        ∃ (D I : List BlockSector) (f : Fin 12 → BlockSector) (a b : BlockSector),
        r.2 = { d with direct := f, indirect := a, doublyIndirect := b } ∧
        D.length = max 1 n ∧ Alloc s t (D ++ I) ∧ Laid r.2 t.content D I ∧
        (Zeroable n → ∀ y ∈ D, Z (t.content y))) := by
  refine .ite (fun hmax => .pure ⟨fun _ => ⟨⟨[], Alloc.refl s, .inl rfl, ?_, ?_⟩, ?_⟩, by simp⟩)
    fun hmax => ?_
  · exact fun hle => absurd hle (by unfold maxBlocks; omega)
  · exact fun _ hle => absurd hle (by unfold maxBlocks; omega)
  · exact fun _ hnot => absurd (.inr (.inl hmax)) hnot
  have hmax' : n ≤ maxBlocks := by unfold maxBlocks; omega
  have hlarge : ¬ Zeroable n → 268 < n ∧ (n - 140) % 128 ≠ 0 ∧
      sectorsNeeded n = n + 2 + (n - 140 + 127) / 128 := by
    intro hnot
    unfold Zeroable at hnot
    unfold sectorsNeeded
    rw [if_pos (by omega), if_pos (by omega)]
    omega
  have hremaining : (if 0 < n then n else 1) = max 1 n := by split <;> omega
  rw [hremaining]
  refine .seq (allocateDirectBlocks_spec hzero hok hopen (by omega) d) ?_
  rintro ⟨a0, d0⟩ t0 ⟨hfail0, hdone0⟩
  refine .ite (fun h0 => .pure ⟨fun _ => ?_, by simp⟩) fun ha0 => ?_
  · obtain ⟨hnil, hscarce⟩ := hfail0 h0
    refine ⟨⟨[], hnil, .inl rfl, fun _ hm => (hscarce hm).mono ?_, fun _ _ => hscarce⟩,
      fun hm hnot _ => (hscarce hm).mono ?_⟩
    · unfold sectorsNeeded
      omega
    · have := hlarge hnot
      omega
  obtain ⟨ha0', D0, f, hd0, hlen0, halloc0, hlaid0, hZ0⟩ := hdone0 ha0
  clear hdone0
  subst hd0
  refine .ite (fun hstop => ?_) fun hmore => ?_
  · have hlen : D0.length = max 1 n := by omega
    exact .pure ⟨by simp, fun _ => ⟨hmax', by omega, D0, [], f, d.indirect, d.doublyIndirect,
      rfl, hlen, by simpa using halloc0, hlaid0, fun _ => hZ0⟩⟩
  have hok0 := halloc0.mapFileOk hok
  have hopen0 := halloc0.mapOpen hopen
  -- from here on a failed call keeps the direct blocks
  have hkept : ∀ {v : FileSys} {B : List BlockSector}, Alloc s v (D0 ++ B) →
      (s.MemAvailable → Scarce s (sectorsNeeded n)) → ∃ A, AllocationFailed s v n A := by
    intro v B halloc hscarce
    refine ⟨_, halloc, .inr ⟨hmax', ?_⟩, fun _ => hscarce, fun hnil => ?_⟩
    · rw [length_append]
      omega
    · have hnone := congrArg length hnil
      rw [length_append, length_nil] at hnone
      omega
  refine .seq (allocateIndirectBlocks_spec hzero hok0 hopen0 (by omega) _) ?_
  rintro ⟨a1, d1⟩ t1 ⟨⟨A1, hany1⟩, hfail1, hdone1⟩
  refine .ite (fun h1 => .pure ⟨fun _ => ?_, by simp⟩) fun ha1 => ?_
  · have hscarce := fun hm => halloc0.scarce (hfail1 h1 (halloc0.mem hm))
    refine ⟨hkept (halloc0.trans hany1) fun hm => (hscarce hm).mono ?_,
      fun hm hnot _ => (hscarce hm).mono ?_⟩
    · unfold sectorsNeeded
      rw [if_pos (by omega)]
      omega
    · have := hlarge hnot
      omega
  obtain ⟨ha1', D1, z, hd1, hlen1, halloc1, hblock1, hZ1⟩ := hdone1 ha1
  clear hdone1
  subst hd1
  have hD0 : D0.length = 12 := by omega
  have hall1 : Alloc s t1 ((D0 ++ D1) ++ [z]) := by
    rw [append_assoc]
    exact halloc0.trans halloc1
  have hlaid1 : Laid { d with direct := f, indirect := z } t1.content (D0 ++ D1) [z] := by
    refine ⟨fun k hk => ?_, ?_⟩
    · rw [length_append] at hk
      by_cases h12 : k < 12
      · have := hlaid0.block k (by omega)
        rw [InodeDisk.block, if_pos h12] at this
        rw [getElem?_append_left (by omega), this, InodeDisk.block, if_pos h12]
      · rw [getElem?_append_right (by omega), hD0, InodeDisk.block, if_neg h12, if_pos (by omega)]
        exact hblock1 _ (by omega)
    · rw [length_append, InodeDisk.indexBlocks, if_pos (by omega), if_neg (by omega)]
      rfl
  have hZ01 : ∀ y ∈ D0 ++ D1, Z (t1.content y) := by
    intro y hy
    rcases mem_append.mp hy with hy | hy
    · rw [halloc0.keeps_mem hok halloc1 hy]
      exact hZ0 y hy
    · exact hZ1 y hy
  have hlen01 : (D0 ++ D1).length = 12 + min (max 1 n - 12) 128 := by
    rw [length_append]
    omega
  refine .ite (fun hstop => ?_) fun hmore' => ?_
  · have hlen : (D0 ++ D1).length = max 1 n := by omega
    exact .pure ⟨by simp, fun _ => ⟨hmax', by omega, D0 ++ D1, [z], f, z, d.doublyIndirect, rfl,
      hlen, hall1, hlaid1, fun _ => hZ01⟩⟩
  have hok1 := hall1.mapFileOk hok
  have hopen1 := hall1.mapOpen hopen
  obtain ⟨m, hm⟩ : ∃ m, n - 140 = m := ⟨_, rfl⟩
  have hrest : max 1 n - a0 - a1 = m := by omega
  rw [hrest, hm]
  have hassert : m < 128 * 127 := by unfold maxBlocks at hmax'; omega
  have hlength1 : ((D0 ++ D1) ++ [z]).length = 141 := by
    rw [length_append, length_singleton]
    omega
  have hundef' : 128 < m → m % 128 ≠ 0 →
      Scarce t1 (m + (m + 127) / 128) ∨ E (.undefined "sectors[i]") := by
    intro hlt hmod
    have hnot : ¬ Zeroable n := by
      unfold Zeroable
      omega
    have hneeded := (hlarge hnot).2.2
    refine (hundef.resolve_left hnot).imp_left fun hs => hall1.scarce_iff.mp ?_
    rwa [hlength1, show 141 + (m + (m + 127) / 128) = sectorsNeeded n - 1 by omega]
  refine .seq (allocateDoublyIndirectBlocks_spec hzero hok1 hopen1 hassert hundef' _) ?_
  rintro ⟨a2, d2⟩ t2 ⟨⟨A2, hany2⟩, hfail2, hdone2⟩
  refine .pure ⟨fun ha2 => ?_, fun ha2 => ?_⟩
  · have h2 : a2 = 0 := by simpa using ha2
    have hall2 := hall1.trans hany2
    rw [append_assoc, append_assoc] at hall2
    have hscarce := fun hmem => hfail2 h2 (by omega) (hall1.mem hmem)
    clear hdone2 hfail2
    refine ⟨hkept hall2 fun hmem => (hall1.scarce (hscarce hmem).1).mono ?_,
      fun hmem hnot hP => (hall1.scarce ((hscarce hmem).2 ?_ hP)).mono ?_⟩
    · rw [hlength1]
      unfold sectorsNeeded
      rw [if_pos (by omega), if_pos (by omega)]
      omega
    · exact hm ▸ (hlarge hnot).2.1
    · have := hlarge hnot
      omega
  obtain ⟨hP, D2, J, w, hd2, hlen2, halloc2, hblock2, hindex2, hZ2⟩ :=
    hdone2 (Nat.pos_iff_ne_zero.mp (of_decide_eq_true ha2))
  clear hdone2 hfail2
  subst hd2
  have hD01 : (D0 ++ D1).length = 140 := by omega
  have hlen : ((D0 ++ D1) ++ D2).length = max 1 n := by
    rw [length_append]
    omega
  refine ⟨hmax', fun _ => hP, (D0 ++ D1) ++ D2, z :: (J ++ [w]), f, z, w, rfl, hlen, ?_, ?_, ?_⟩
  · refine (hall1.trans halloc2).perm (perm_iff_count.mpr fun a => ?_)
    simp only [count_append, count_cons, count_nil]
    omega
  · rw [← hlen2] at hblock2 hindex2
    exact Laid.doubly hlaid1 hD01 hblock2 hindex2 (by omega) (hall1.keeps_mem hok halloc2 (by simp))
  intro hzeroable y hy
  rcases mem_append.mp hy with hy | hy
  · rw [hall1.keeps_mem hok halloc2 (mem_append_left _ hy)]
    exact hZ01 y hy
  · refine hZ2 (fun hlt => ?_) y hy
    unfold Zeroable at hzeroable
    omega

end

end Doubly

/-! ## Writer and reader of the block map agree -/

/-- An inode that is stored after its blocks have been laid out. -/
theorem Laid.stored {d : InodeDisk} {D I : List BlockSector}
    (h : Laid d c D I) (hx : x ∉ I) {length : ℤ} (hlow : 0 ≤ length) (hhigh : length < 2147483648) :
    let c' := update c x ({ d with length := length } : InodeDisk).encode
    inodeAt c' x = { d with length := length } ∧ Laid (inodeAt c' x) c' D I := by
  intro c'
  have hinode : inodeAt c' x = { d with length := length } := by
    show InodeDisk.decode (update c x _ x) = _
    rw [update_self]
    exact decode_encode (by dsimp only; omega) hhigh
  have hkeep : ∀ k < D.length, ∀ y ∈ d.path c k, c' y = c y := fun k hk y hy => by
    have hne : y ≠ x := by rintro rfl; exact hx (h.mem_index.mpr ⟨k, hk, hy⟩)
    exact update_of_ne hne _ _
  refine ⟨hinode, fun k hk => ?_, ?_⟩
  · rw [h.block k hk, hinode]
    exact congrArg some (InodeDisk.block_congr (hkeep k hk)).symm
  · have hindex : (inodeAt c' x).indexBlocks c' D.length = d.indexBlocks c D.length := by
      rw [hinode]
      exact InodeDisk.indexBlocks_congr hkeep
    rw [hindex]
    exact h.perm

/-- **Writer and reader of the block map agree.**  If `allocate_blocks` succeeds and the
inode is stored with a length that needs `n` blocks, `byte_to_sector` finds for every
position the entry of a list `D` of `n` sectors.  These and the index blocks `I` are
distinct, were free and are marked, and no other bit has changed.  The assertion in
`allocate_doubly_indirect_blocks` never fails. -/
theorem allocateBlocks_blockMap (zero : ℕ → ℕ → (ℕ → BlockSector) → Fs Unit)
    (hzero : ZeroesOnly (fun e => e ≠ .panic "sectors < 128 * 127") zero) (s : FileSys)
    (hok : MapFileOk s) (inode : Inode) (hinode : s.Has inode.sector)
    (hmarked : s.freeMap inode.sector.toNat = true) (n : ℕ) (hpos : 1 ≤ n) (hmax : n ≤ 16384)
    (d : InodeDisk) :
    (allocateBlocksWith freeMapOps zero n d).run s ≠ .error (.panic "sectors < 128 * 127") ∧
    ∀ (d' : InodeDisk) (t : FileSys),
      (allocateBlocksWith freeMapOps zero n d).run s = .ok ((true, d'), t) →
      ∀ length : ℤ, 512 * ((n : ℤ) - 1) < length → length ≤ 512 * n →
      let u : FileSys := { t with
        content := update t.content inode.sector { d' with length := length }.encode }
      ∃ D I : List BlockSector, D.length = n ∧ (D ++ I).Nodup ∧
        (∀ pos : ℤ, 0 ≤ pos → pos < length → Returns (byteToSector inode pos) u fun r v =>
          v = u ∧ D[(pos / 512).toNat]? = some r) ∧
        (∀ y, y ∈ I ↔ ∃ k < n, y ∈ pathTo u.content inode.sector k) ∧
        (∀ y ∈ D ++ I, s.freeMap y.toNat = false ∧ t.freeMap y.toNat = true) ∧
        ∀ i, (∀ y ∈ D ++ I, y.toNat ≠ i) → t.freeMap i = s.freeMap i := by
  have hspec := allocateBlocksWith_spec hzero.zeroesTo hok (.inr (by simp)) n
    (.inr (.inr (by simp))) d
  refine ⟨fun herr => ?_, fun d' t hrun length hlow hhigh => ?_⟩
  · unfold Spec at hspec
    rw [herr] at hspec
    exact hspec rfl
  obtain ⟨-, -, D, I, -, -, -, -, hlen, halloc, hlaid, -⟩ := (hspec.of_run_eq hrun).2 rfl
  intro u
  have hn : D.length = n := by omega
  have hfree : inode.sector ∉ D ++ I := fun hmem => by
    have := (halloc.fresh _ hmem).2
    rw [hmarked] at this
    exact Bool.noConfusion this
  obtain ⟨hstored, hlaid'⟩ := hlaid.stored (fun h => hfree (mem_append_right _ h))
    (show 0 ≤ length by omega) (show length < 2147483648 by omega)
  have hhas : ∀ y, s.Has y → u.Has y := fun y hy => halloc.same.has.mpr hy
  refine ⟨D, I, hn, halloc.nodup, fun pos hpos0 hposl => ?_, fun y => ⟨fun hy => ?_, ?_⟩,
    fun y hy => ⟨(halloc.fresh y hy).2, halloc.marked hy⟩, fun i hi => ?_⟩
  · have hk : (pos / 512).toNat < D.length := by omega
    have hlength : (inodeAt u.content inode.sector).length = length := by rw [hstored]
    refine byteToSector_rule (.inl ⟨hhas _ hinode, fun _ _ _ y hy => ?_⟩) ⟨rfl, ?_⟩
    · exact hhas y (halloc.fresh y (mem_append_right _ (hlaid'.mem_index.mpr ⟨_, hk, hy⟩))).1
    · have hlt : pos < maxInodeSize := by unfold maxInodeSize; omega
      rw [sectorOf, hlength, if_pos (by omega), if_pos ⟨hpos0, hlt⟩]
      exact hlaid'.block _ hk
  · obtain ⟨k, hk, hyk⟩ := hlaid'.mem_index.mp hy
    exact ⟨k, by omega, hyk⟩
  · rintro ⟨k, hk, hyk⟩
    exact hlaid'.mem_index.mpr ⟨k, by omega, hyk⟩
  · have hbits := halloc.bits i
    rw [Bool.eq_iff_iff, hbits]
    refine ⟨fun h => h.resolve_right ?_, .inl⟩
    rintro ⟨y, hy, heq⟩
    exact hi y hy heq

/-- A disk of eight sectors, three of them in use. -/
def emptyDisk : FileSys :=
  { smallDisk with size := 8, size_lt := by decide, freeMap := fun i => decide (i < 3) }

/-- Three blocks laid out on this disk. -/
theorem allocateBlocks_blockMap_emptyDisk :
    Returns (allocateBlocksWith freeMapOps zeroOut 3 smallInodeDisk) emptyDisk fun r t =>
      r.1 = true ∧ ∃ D I : List BlockSector, D.length = 3 ∧ (D ++ I).Nodup ∧
        ∀ y ∈ D ++ I, emptyDisk.freeMap y.toNat = false ∧ t.freeMap y.toNat = true := by
  have hsuccess : Returns (allocateBlocksWith freeMapOps zeroOut 3 smallInodeDisk) emptyDisk
      (fun r _ => r.1 = true) := by decide +kernel
  obtain ⟨⟨success, d'⟩, t, hrun, rfl⟩ := returns_iff.mp hsuccess
  obtain ⟨-, h⟩ := allocateBlocks_blockMap zeroOut (zeroesOnly_zeroOut (by simp))
    emptyDisk (mapFileOk_of_none rfl) ⟨2, 1, false, 0⟩ (by decide) (by decide) 3 (by decide)
    (by decide) smallInodeDisk
  obtain ⟨D, I, hlen, hnodup, -, -, hbits, -⟩ := h d' t hrun 1100 (by decide) (by decide)
  exact returns_iff.mpr ⟨_, t, hrun, rfl, D, I, hlen, hnodup, hbits⟩

end CS162
