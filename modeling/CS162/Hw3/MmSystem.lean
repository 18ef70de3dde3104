import CS162.Library.Run
import CS162.Hw3.MmAlloc

/-!
# The callers of the user-level allocator

`MmSystem` is a heap together with the pointers that callers hold and how much they asked for.
Callers may write to what they hold, and `sbrk` may fail in any call.

## Strategy

The invariant `Sound` is that the blocks tile the heap and each live pointer has a block of its
own that is in use.  `Careful` is the condition on a call and the state before it under which the
call keeps this; `malloc_derefs_null` is what happens without it.  A careful `mm_realloc` can still
read past the break: it copies as many bytes as the new block has (`overread`).
-/

namespace CS162

open Library List

/-- The heap, and the payloads that callers hold. -/
structure MmSystem where
  heap : MmHeap
  live : List Extent

/-- A call, and whether `sbrk` would succeed; or a write of a caller to its payload. -/
inductive MmLabel where
  | malloc (size : UInt64) (granted : Bool)
  | realloc (ptr : ℕ) (size : UInt64) (granted : Bool)
  | free (ptr : ℕ)
  | store (addr : ℕ) (value : UInt8)

namespace MmSystem

open MmHeap

def Usable (s : MmSystem) (ptr : ℕ) : Prop := ptr = 0 ∨ ptr ∈ s.live.map Extent.start

instance (s : MmSystem) (ptr : ℕ) : Decidable (s.Usable ptr) := inferInstanceAs (Decidable (_ ∨ _))

def grant (ptr size : ℕ) (live : List Extent) : List Extent :=
  if ptr = 0 then live else ⟨ptr, size⟩ :: live

def release (ptr : ℕ) (live : List Extent) : List Extent := live.filter fun e => e.start ≠ ptr

/-- The bytes at `addr` are part of a live payload. -/
def Held (s : MmSystem) (addr : ℕ) : Prop := ∃ e ∈ s.live, e.start ≤ addr ∧ addr < e.stop

instance (s : MmSystem) (addr : ℕ) : Decidable (s.Held addr) :=
  inferInstanceAs (Decidable (∃ e ∈ s.live, _))

/-- A call; only live pointers are freed or reallocated, and written through. -/
def apply (s : MmSystem) : MmLabel → Except Fault (Option MmSystem)
  | .malloc size granted => do
      let (ptr, heap) ← (mmMalloc granted size.toNat).run s.heap
      return some ⟨heap, grant ptr size.toNat s.live⟩
  | .realloc ptr size granted =>
    if s.Usable ptr then do
      let (dest, heap) ← (mmRealloc granted ptr size.toNat).run s.heap
      if dest = 0 then
        return some ⟨heap, s.live⟩
      else
        return some ⟨heap, grant dest size.toNat (release ptr s.live)⟩
    else .ok none
  | .free ptr =>
    if s.Usable ptr then do
      let (_, heap) ← (mmFree ptr).run s.heap
      return some ⟨heap, release ptr s.live⟩
    else .ok none
  | .store addr value =>
    if s.Held addr then
      .ok (some ⟨s.heap.overwrite ⟨addr, 1⟩ fun _ => value, s.live⟩)
    else .ok none

def Step (s : MmSystem) (l : MmLabel) (s' : MmSystem) : Prop := s.apply l = .ok (some s')

/-- Before the first call; `sbrk (0)` is `base`. -/
def init (base : ℕ) (memory : ℕ → UInt8) : MmSystem := ⟨⟨fun _ => none, memory, 0, 0, base⟩, []⟩

/-- The condition under which the allocator works: no request wraps around or splits a block, and
blocks are merged with both neighbours or with none, never at the end of the heap. -/
def Careful (s : MmSystem) : MmLabel → Prop
  | .malloc size _ => size.toNat ≠ 0 → s.heap.Unsplit size.toNat
  | .realloc ptr size _ =>
    if ptr = 0 then size.toNat ≠ 0 → s.heap.Unsplit size.toNat
    else ∀ m ∈ s.heap.blocks (ptr - metadataSize), m.size < size.toNat → s.heap.Unsplit size.toNat
  | .free ptr => ptr ≠ 0 → s.heap.Mergeable (ptr - metadataSize)
  | .store _ _ => True

instance (s : MmSystem) : (l : MmLabel) → Decidable (s.Careful l)
  | .malloc size _ => inferInstanceAs (Decidable (size.toNat ≠ 0 → _))
  | .realloc ptr size _ =>
    inferInstanceAs (Decidable (if ptr = 0 then size.toNat ≠ 0 → s.heap.Unsplit size.toNat
      else ∀ m ∈ s.heap.blocks (ptr - metadataSize), m.size < size.toNat →
        s.heap.Unsplit size.toNat))
  | .free ptr => inferInstanceAs (Decidable (ptr ≠ 0 → _))
  | .store _ _ => inferInstanceAs (Decidable True)

/-! ## The invariant of the system -/

section Sound

variable {s s' : MmSystem} {base size ptr : ℕ} {t : Tile} {ts ts' : List Tile}
  {live : List Extent} {e : Extent}

/-- Each live payload is that of a block in use, which is at least as big as requested. -/
def Covered (ts : List Tile) (live : List Extent) : Prop :=
  ∀ e ∈ live, ∃ t ∈ ts, t.free = false ∧ e.start = t.start + metadataSize ∧ e.size ≤ t.size

/-- **The invariant of the system.** -/
structure Sound (s : MmSystem) (base : ℕ) (ts : List Tile) : Prop where
  tiled : s.heap.Tiled base ts
  covered : Covered ts s.live
  nodup : (s.live.map Extent.start).Nodup

theorem Sound.init {memory : ℕ → UInt8} (hlow : 0 < base) (hhigh : base < wordLimit) :
    (init base memory).Sound base [] where
  tiled := ⟨⟨rfl, trivial, hlow, hhigh⟩, rfl, rfl, .nil⟩
  covered := nofun
  nodup := nodup_nil

theorem release_sublist : (release ptr live).Sublist live := filter_sublist

theorem mem_release : e ∈ release ptr live ↔ e ∈ live ∧ e.start ≠ ptr := by
  simp [release]

theorem Sound.block (h : s.Sound base ts) (hmem : ptr ∈ s.live.map Extent.start) :
    ∃ t ∈ ts, t.free = false ∧ ptr = t.start + metadataSize := by
  obtain ⟨e, he, rfl⟩ := mem_map.mp hmem
  obtain ⟨t, ht, hused, hstart, -⟩ := h.covered e he
  exact ⟨t, ht, hused, hstart⟩

theorem Sound.release_null (h : s.Sound base ts) : release 0 s.live = s.live := by
  refine filter_eq_self.mpr fun e he => ?_
  obtain ⟨t, -, -, hstart, -⟩ := h.covered e he
  rw [metadataSize] at hstart
  simp only [decide_not, Bool.not_eq_true', decide_eq_false_iff_not]
  omega

theorem Sound.obtain {heap : MmHeap} (h : s.Sound base ts) (hlive : live.Sublist s.live)
    (htiled : heap.Tiled base ts') (hobtained : MmHeap.Obtained ts ts' t size) :
    Sound ⟨heap, ⟨t.start + metadataSize, size⟩ :: live⟩ base ts' := by
  refine ⟨htiled, ?_, ?_⟩
  · intro e he
    rcases mem_cons.mp he with rfl | he
    · exact ⟨t, hobtained.mem, hobtained.used, rfl, hobtained.room⟩
    · obtain ⟨u, hu, hused, hcover⟩ := h.covered e (hlive.subset he)
      exact ⟨u, (hobtained.keeps u hu hused).1, hused, hcover⟩
  refine nodup_cons.mpr ⟨?_, h.nodup.sublist (hlive.map _)⟩
  intro hmem
  obtain ⟨e, he, hstart⟩ := mem_map.mp hmem
  obtain ⟨u, hu, hused, hcover, -⟩ := h.covered e (hlive.subset he)
  refine (hobtained.keeps u hu hused).2 ?_
  simp only at hstart
  omega

theorem grant_of_ne_zero (h : ptr ≠ 0) : grant ptr size live = ⟨ptr, size⟩ :: live := if_neg h

private theorem payload_ne_zero (t : Tile) : t.start + metadataSize ≠ 0 := by
  rw [metadataSize]
  omega

/-! ## One call -/

section

variable (h : s.Sound base ts)
include h

theorem Sound.mmMalloc (granted : Bool) (hunsplit : size ≠ 0 → s.heap.Unsplit size) :
    Returns (mmMalloc granted size) s.heap fun p heap =>
      ∃ ts', Sound ⟨heap, grant p size s.live⟩ base ts' := by
  refine (h.tiled.mmMalloc granted hunsplit).post fun p heap hcases => ?_
  rcases hcases with ⟨rfl, rfl⟩ | ⟨ts', t, htiled, hobtained, rfl⟩
  · exact ⟨ts, h⟩
  · rw [grant_of_ne_zero (payload_ne_zero t)]
    exact ⟨ts', h.obtain (List.Sublist.refl _) htiled hobtained⟩

theorem Sound.reallocLive (granted : Bool) (hmem : ptr ∈ s.live.map Extent.start)
    (hunsplit : ∀ m ∈ s.heap.blocks (ptr - metadataSize), m.size < size → s.heap.Unsplit size) :
    Spec (· = overread) (mmRealloc granted ptr size) s.heap fun p heap =>
      ∃ ts', Sound ⟨heap, if p = 0 then s.live else grant p size (release ptr s.live)⟩
        base ts' := by
  obtain ⟨t, ht, hused, rfl⟩ := h.block hmem
  obtain ⟨xs, ys, hts⟩ := append_of_mem ht
  have hblock := (hts ▸ h.tiled.toLaid).block
  refine (h.tiled.mmRealloc granted ht (hunsplit _ hblock)).imp (fun p heap hcases => ?_)
    fun _ hfault => hfault.1
  rcases hcases with ⟨rfl, rfl, -⟩ | ⟨rfl, hroom, htiled⟩ | ⟨ts', u, -, -, htiled, hobtained, rfl⟩
  · exact ⟨ts, h⟩
  · -- the payload is the same block's, so the other ones are elsewhere
    refine ⟨ts, htiled, ?_, ?_⟩
    · intro e he
      rcases mem_cons.mp he with rfl | he
      · exact ⟨t, ht, hused, rfl, hroom⟩
      · exact h.covered e (release_sublist.subset he)
    · refine nodup_cons.mpr ⟨?_, h.nodup.sublist (release_sublist.map _)⟩
      intro hmem
      obtain ⟨e, he, hstart⟩ := mem_map.mp hmem
      exact (mem_release.mp he).2 hstart
  · rw [grant_of_ne_zero (payload_ne_zero u)]
    exact ⟨ts', h.obtain release_sublist htiled hobtained⟩

theorem Sound.freeLive (hmem : ptr ∈ s.live.map Extent.start)
    (hmergeable : s.heap.Mergeable (ptr - metadataSize)) :
    Returns (mmFree ptr) s.heap fun _ heap =>
      ∃ ts', Sound ⟨heap, release ptr s.live⟩ base ts' := by
  obtain ⟨t, ht, hused, rfl⟩ := h.block hmem
  refine (h.tiled.mmFree ht hused hmergeable).post fun _ heap ⟨ts', htiled, hkeeps⟩ =>
    ⟨ts', htiled, ?_, h.nodup.sublist (release_sublist.map _)⟩
  intro e he
  obtain ⟨he, hne⟩ := mem_release.mp he
  obtain ⟨u, hu, huused, hstart, hroom⟩ := h.covered e he
  refine ⟨u, hkeeps u hu huused ?_, huused, hstart, hroom⟩
  rintro rfl
  exact hne hstart

theorem Sound.realloc {size : UInt64} {granted : Bool}
    (husable : s.Usable ptr) (hcareful : s.Careful (.realloc ptr size granted)) :
    Spec (· = overread) (mmRealloc granted ptr size.toNat) s.heap fun p heap =>
      ∃ ts', Sound ⟨heap, if p = 0 then s.live else grant p size.toNat (release ptr s.live)⟩
        base ts' := by
  rw [Careful] at hcareful
  by_cases hnull : ptr = 0
  · rw [if_pos hnull] at hcareful
    subst hnull
    rw [h.release_null]
    have hzero : ∀ p, (if p = 0 then s.live else grant p size.toNat s.live) =
        grant p size.toNat s.live := by
      intro p
      unfold grant
      split <;> rfl
    simp only [hzero, MmHeap.mmRealloc]
    by_cases hsize : size.toNat ≠ 0
    · rw [if_pos hsize]
      exact .of_returns (h.mmMalloc granted hcareful)
    · rw [if_neg hsize]
      exact .pure ⟨ts, h⟩
  · rw [if_neg hnull] at hcareful
    exact h.reallocLive granted (husable.resolve_left hnull) hcareful

theorem Sound.free (husable : s.Usable ptr) (hcareful : s.Careful (.free ptr)) :
    Returns (mmFree ptr) s.heap fun _ heap =>
      ∃ ts', Sound ⟨heap, release ptr s.live⟩ base ts' := by
  by_cases hnull : ptr = 0
  · subst hnull
    rw [h.release_null]
    exact .pure ⟨ts, h⟩
  · exact h.freeLive (husable.resolve_left hnull) (hcareful hnull)

theorem Sound.store {addr : ℕ} {value : UInt8} (hheld : s.Held addr) :
    Sound ⟨s.heap.overwrite ⟨addr, 1⟩ fun _ => value, s.live⟩ base ts := by
  obtain ⟨e, he, hlow, hhigh⟩ := hheld
  obtain ⟨t, ht, -, hstart, hroom⟩ := h.covered e he
  unfold Extent.stop at hhigh
  refine ⟨h.tiled.overwrite ht ?_ ?_, h.covered, h.nodup⟩
  · simp only
    omega
  · simp only [Extent.stop]
    omega

/-- A call that meets the condition keeps the invariant, or it reads past the break. -/
theorem Sound.apply {l : MmLabel} (hcareful : s.Careful l) :
    (∃ r, s.apply l = .ok r ∧ ∀ s' ∈ r, ∃ ts', s'.Sound base ts') ∨
      (∃ ptr size granted, l = .realloc ptr size granted) ∧ s.apply l = .error overread := by
  cases l with
  | malloc size granted =>
    obtain ⟨p, heap, hrun, hsound⟩ := returns_iff.mp (h.mmMalloc granted hcareful)
    refine .inl ⟨some ⟨heap, grant p size.toNat s.live⟩, ?_, ?_⟩
    · rw [MmSystem.apply, hrun]
      rfl
    · rintro s' ⟨⟩
      exact hsound
  | realloc ptr size granted =>
    rw [MmSystem.apply]
    by_cases husable : s.Usable ptr
    · have hspec := h.realloc husable hcareful
      rw [if_pos husable]
      cases hrun : (MmHeap.mmRealloc granted ptr size.toNat).run s.heap with
      | error f =>
        rw [Spec, hrun] at hspec
        exact .inr ⟨⟨_, _, _, rfl⟩, congrArg Except.error hspec⟩
      | ok r =>
        obtain ⟨p, heap⟩ := r
        have hsound := hspec.of_run_eq hrun
        by_cases hp : p = 0
        · refine .inl ⟨_, if_pos hp, ?_⟩
          rintro s' ⟨⟩
          rwa [if_pos hp] at hsound
        · refine .inl ⟨_, if_neg hp, ?_⟩
          rintro s' ⟨⟩
          rwa [if_neg hp] at hsound
    · exact .inl ⟨none, if_neg husable, fun s' hs' => nomatch hs'⟩
  | free ptr =>
    rw [MmSystem.apply]
    by_cases husable : s.Usable ptr
    · obtain ⟨⟨⟩, heap, hrun, hsound⟩ := returns_iff.mp (h.free husable hcareful)
      rw [if_pos husable, hrun]
      refine .inl ⟨_, rfl, ?_⟩
      rintro s' ⟨⟩
      exact hsound
    · exact .inl ⟨none, if_neg husable, fun s' hs' => nomatch hs'⟩
  | store addr value =>
    by_cases hheld : s.Held addr
    · refine .inl ⟨_, if_pos hheld, ?_⟩
      rintro s' ⟨⟩
      exact ⟨ts, h.store hheld⟩
    · exact .inl ⟨none, if_neg hheld, fun s' hs' => nomatch hs'⟩

theorem Sound.live_apart : s.live.Pairwise Extent.Apart := by
  have hnodup : s.live.Pairwise fun e f => e.start ≠ f.start := pairwise_map.mp h.nodup
  apply hnodup.imp_of_mem
  intro e f he hf hne
  obtain ⟨t, ht, -, hestart, hesize⟩ := h.covered e he
  obtain ⟨u, hu, -, hfstart, hfsize⟩ := h.covered f hf
  have htu : t ≠ u := by
    rintro rfl
    exact hne (hestart.trans hfstart.symm)
  have hapart := h.tiled.tiles.apart ht hu htu
  simp only [Extent.Apart, Extent.stop]
  omega

end

/-- Careful calls keep the invariant. -/
theorem sound_of_run {memory : ℕ → UInt8} {labels : List MmLabel} (hlow : 0 < base)
    (hhigh : base < wordLimit)
    (hrun : Run (Guarded Careful Step) (init base memory) labels s) :
    ∃ ts, s.Sound base ts := by
  refine Run.invariant (I := fun s : MmSystem => ∃ ts, s.Sound base ts)
    ⟨[], Sound.init hlow hhigh⟩ ?_ hrun
  rintro t l t' ⟨ts, ht⟩ ⟨hcareful, hstep⟩
  rcases ht.apply hcareful with ⟨r, hr, hsound⟩ | ⟨-, herror⟩
  · exact hsound t' (Except.ok.inj (hr.symm.trans hstep))
  · cases herror.symm.trans hstep

/-- **The heap is a tiling with disjoint allocations.**  As long as no request wraps around or
splits a block, and blocks are merged with both neighbours or with none: the list of blocks tiles
the heap, no two neighbours are free, the live payloads are as big as requested and do not overlap,
and the next call returns: it finds no null pointer and no lost metadata.  Only the copy of
`mm_realloc` may read past the break. -/
theorem heap_tiled {memory : ℕ → UInt8} {labels : List MmLabel} (hlow : 0 < base)
    (hhigh : base < wordLimit)
    (hrun : Run (Guarded Careful Step) (init base memory) labels s) :
    (∃ ts, s.heap.Tiled base ts ∧ ∀ e ∈ s.live, ∃ t ∈ ts, t.free = false ∧
      e.start = t.start + metadataSize ∧ e.size ≤ t.size) ∧
      s.live.Pairwise Extent.Apart ∧ ∀ l, s.Careful l → (∃ r, s.apply l = .ok r) ∨
        (∃ ptr size granted, l = .realloc ptr size granted) ∧ s.apply l = .error overread := by
  obtain ⟨ts, h⟩ := sound_of_run hlow hhigh hrun
  exact ⟨⟨ts, h.tiled, h.covered⟩, h.live_apart, fun l hl => (h.apply hl).imp_left fun ⟨r, hr, _⟩ =>
    ⟨r, hr⟩⟩

theorem guarded_careful (s : MmSystem) (l : MmLabel) (t : MmSystem)
    (h : (if ¬ s.Careful l then none else outcome apply s l) = some t) :
    Guarded Careful Step s l t :=
  guarded_of_ite (fun _ _ _ => outcome_eq_some.mp) (fun _ _ => Decidable.not_not.mp) s l t h

/-- Four blocks; the first and the third are freed, and then the second one, which is merged with
both.  The fourth is moved to a new block. -/
def mergingCalls : List MmLabel :=
  [.malloc 100 true, .malloc 40 true, .malloc 60 true, .malloc 8 true, .free 4128, .free 4332,
    .free 4260, .malloc 240 true, .realloc 4424 300 true, .store 4464 7]

theorem heap_tiled_merged : ∃ s,
    Run (Guarded Careful Step) (init 4096 fun _ => 0) mergingCalls s ∧
      s.live.length = 2 ∧ s.live.Pairwise Extent.Apart := by
  refine exists_run_of_imp guarded_careful (fun s => s.live.length = 2) (by decide +kernel) ?_
  exact fun s hrun hlength => ⟨hlength, (heap_tiled (by decide) (by decide) hrun).2.1⟩

/-- A freed block that is the last one is split for a smaller request: there is no next block
whose link could be changed. -/
theorem malloc_derefs_null : ∃ labels s, Run Step (init 4096 fun _ => 0) labels s ∧
    s.apply (.malloc 10 true) = .error (.undefined "null pointer") := by
  exact ⟨[.malloc 100 true, .free 4128],
    exists_run_of_execute (fun _ _ _ => outcome_eq_some.mp) (by decide +kernel)⟩

end Sound

end MmSystem

end CS162
