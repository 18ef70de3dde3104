import CS162.Hw3.MmSystem

/-!
# What a caller of the user-level allocator can rely on

The loop of `checkfor_free_block` follows the `prev` links from `tail_block` on; `PrevEnds` says
that they lead to null.  `Contract` is what a caller expects of `mm_realloc`.

## Strategy

Both are about the heaps that careful calls lead to.  There the `prev` links lead from tile to
tile.  A block that has to grow is moved, but the old one is never freed; so `mm_realloc` does
what is expected only if it can shrink the block, or finds no other one and fails.
-/

namespace CS162

open Library List

namespace MmHeap

variable {s : MmHeap} {base size block fuel : ℕ} {m : MemoryBlock} {xs ys : List Tile}

/-! ## The search ends -/

/-- The chain of `prev` links from a block on ends with null. -/
inductive PrevEnds (s : MmHeap) : ℕ → Prop
  | null : PrevEnds s 0
  | link {block : ℕ} {m : MemoryBlock} (hnull : block ≠ 0) (hblock : s.blocks block = some m)
      (hprev : PrevEnds s m.prev) : PrevEnds s block

theorem Laid.prevEnds (h : s.Laid base (xs ++ ys)) : s.PrevEnds (lastOr 0 xs) := by
  induction xs using reverseRecOn generalizing ys with
  | nil => exact .null
  | append_singleton xs t ih =>
    rw [append_assoc] at h
    rw [lastOr_append]
    exact .link (h.start_ne_zero mem_append_cons_self) h.block (ih h)

/-- Blocks whose `prev` links stay among them never lead to null. -/
theorem not_prevEnds {loop : List ℕ} (hloop : ∀ b ∈ loop, b ≠ 0 ∧ ∃ m ∈ s.blocks b, m.prev ∈ loop)
    (hmem : block ∈ loop) : ¬ s.PrevEnds block := by
  intro hends
  induction hends with
  | null => exact (hloop 0 hmem).1 rfl
  | link _ hblock _ ih =>
    obtain ⟨-, m, hm, hprev⟩ := hloop _ hmem
    cases hm.symm.trans hblock
    exact ih hprev

/-- What is done with a block does not depend on the number of blocks. -/
theorem readBlock_ends : Spec (· ≠ Fault.outOfFuel) (readBlock block) s fun _ _ => True := by
  apply Spec.get_bind
  refine .ite (fun _ => .throw nofun) fun _ => ?_
  cases s.blocks block with
  | none => exact .throw nofun
  | some m => exact .pure trivial

theorem writeBlock_ends : Spec (· ≠ Fault.outOfFuel) (writeBlock block m) s fun _ _ => True := by
  apply Spec.get_bind
  exact .ite (fun _ => .throw nofun) fun _ => .set trivial

theorem modifyBlock_ends {f : MemoryBlock → MemoryBlock} :
    Spec (· ≠ Fault.outOfFuel) (modifyBlock block f) s fun _ _ => True :=
  Spec.bind (readBlock_ends.post fun _ _ _ => writeBlock_ends)

theorem takeBlock_ends (zero : Bool) :
    Spec (· ≠ Fault.outOfFuel) (takeBlock zero size block) s fun _ _ => True := by
  have hsplit : Spec (· ≠ Fault.outOfFuel) (splitBlock block size) s fun _ _ => True := by
    refine .bind (readBlock_ends.post fun m _ _ => .ite (fun _ => ?_) fun _ => ?_)
    · exact .bind (writeBlock_ends.post fun _ _ _ =>
        Spec.bind (writeBlock_ends.post fun _ _ _ => modifyBlock_ends))
    · exact .pure trivial
  refine .bind (hsplit.post fun _ _ _ => .bind (modifyBlock_ends.post fun _ _ _ => ?_))
  refine .ite (fun _ => ?_) fun _ => .pure trivial
  exact .bind (readBlock_ends.post fun _ _ _ => .modify_bind (Spec.pure trivial))

theorem Laid.searchFreeBlock_ends (h : s.Laid base (xs ++ ys)) (zero : Bool)
    (hfuel : xs.length < fuel) :
    Spec (· ≠ Fault.outOfFuel) (searchFreeBlock zero size fuel (lastOr 0 xs)) s
      fun _ _ => True := by
  induction xs using reverseRecOn generalizing fuel ys with
  | nil =>
    obtain ⟨fuel, rfl⟩ := Nat.exists_eq_add_of_lt hfuel
    exact .pure trivial
  | append_singleton xs t ih =>
    obtain ⟨fuel, rfl⟩ := Nat.exists_eq_add_of_lt hfuel
    rw [append_assoc] at h
    rw [show lastOr 0 (xs ++ [t]) = t.start from lastOr_append 0 xs [t]]
    refine .ite (fun hnull => ?_) fun _ => ?_
    · exact absurd hnull (h.start_ne_zero mem_append_cons_self)
    · refine .bind (h.read ?_)
      refine .ite (fun _ => takeBlock_ends zero) fun _ => ih h ?_
      rw [length_append, length_singleton]
      omega

theorem Tiled.checkforFreeBlock_ends {ts : List Tile} (h : s.Tiled base ts) (zero : Bool) :
    (MmHeap.checkforFreeBlock zero size).run s ≠ .error .outOfFuel := by
  intro herror
  have hall : s.Laid base (ts ++ []) := by
    rw [append_nil]
    exact h.toLaid
  have hlength := h.tiles.length_le
  have hspec : Spec (· ≠ Fault.outOfFuel) (MmHeap.checkforFreeBlock zero size) s
      fun _ _ => True := by
    apply Spec.get_bind
    rw [h.tail]
    refine hall.searchFreeBlock_ends zero ?_
    rw [metadataSize] at hlength
    omega
  rw [Spec, herror] at hspec
  exact hspec rfl

theorem mmRealloc_shrink {p : ℕ} (granted : Bool) (hnull : p - metadataSize ≠ 0)
    (hblock : s.blocks (p - metadataSize) = some m) (hsize : size ≤ m.size) :
    (mmRealloc granted p size).run s =
      .ok (p, s.overwrite ⟨p + size, m.size - size⟩ fun _ => 0) := by
  have hread : (readBlock (p - metadataSize)).run s = .ok (m, s) := by
    simp [readBlock, hnull, hblock]
    rfl
  have hp : p ≠ 0 := fun hzero => hnull (by rw [hzero, Nat.zero_sub])
  unfold mmRealloc
  rw [if_neg hp, StateT.run_bind, hread, ok_bind, if_pos hsize]
  rfl

end MmHeap

namespace MmSystem

open MmHeap

variable {s : MmSystem} {base : ℕ} {ts : List Tile}

/-- **The search for a free block ends**, for every size, in every heap that careful calls lead
to. -/
theorem freeBlock_search_ends {memory : ℕ → UInt8} {labels : List MmLabel} (hlow : 0 < base)
    (hhigh : base < wordLimit)
    (hrun : Run (Guarded Careful Step) (MmSystem.init base memory) labels s) :
    s.heap.PrevEnds s.heap.tailBlock ∧
      ∀ zero size, (checkforFreeBlock zero size).run s.heap ≠ .error .outOfFuel := by
  obtain ⟨ts, h⟩ := sound_of_run hlow hhigh hrun
  have hall : s.heap.Laid base (ts ++ []) := by
    rw [append_nil]
    exact h.tiled.toLaid
  exact ⟨h.tiled.tail ▸ hall.prevEnds, fun zero _ => h.tiled.checkforFreeBlock_ends zero⟩

/-- The heap of `mergingCalls`: four blocks were merged to two, and a third was appended. -/
theorem freeBlock_search_ends_merged : ∃ s,
    Run (Guarded Careful Step) (init 4096 fun _ => 0) mergingCalls s ∧
      s.heap.tailBlock = 4432 ∧ s.heap.PrevEnds 4432 ∧
        (checkforFreeBlock true 1000).run s.heap ≠ .error .outOfFuel := by
  refine exists_run_of_imp guarded_careful (fun s => s.heap.tailBlock = 4432) (by decide +kernel) ?_
  intro s hrun htail
  obtain ⟨hends, hsearch⟩ := freeBlock_search_ends (by decide) (by decide) hrun
  exact ⟨htail, htail ▸ hends, hsearch true 1000⟩

/-- Of three blocks the first is freed, and then the second, which is merged with it but stays in
the chain of `prev` links, with `next` leading back to the first.  When it is split, the new block
becomes the `prev` of the first one: the search for a big block goes round and round. -/
theorem freeBlock_search_loops : ∃ labels s, Run Step (init 8 fun _ => 0) labels s ∧
    ¬ s.heap.PrevEnds s.heap.tailBlock ∧
      (checkforFreeBlock true 1000).run s.heap = .error .outOfFuel := by
  let loop : List ℕ := [180, 48, 8, 90]
  refine ⟨[.malloc 8 true, .malloc 100 true, .malloc 8 true, .free 40, .free 80, .malloc 10 true],
    exists_run_of_imp (fun _ _ _ => outcome_eq_some.mp) (fun s => (s.heap.tailBlock ∈ loop ∧
      ∀ b ∈ loop, b ≠ 0 ∧ ∃ m ∈ s.heap.blocks b, m.prev ∈ loop) ∧
        (checkforFreeBlock true 1000).run s.heap = .error .outOfFuel) (by decide +kernel) ?_⟩
  exact fun s _ ⟨⟨htail, hloop⟩, hfails⟩ => ⟨not_prevEnds hloop htail, hfails⟩

/-! ## The contract of `mm_realloc` -/

/-- What a caller expects of `mm_realloc (p, size)`, where `p` has the block `m`, if the result `q`
is not null.  The bytes outside the block of `p` have no influence on those of `q`. -/
structure Reallocated (s : MmSystem) (granted : Bool) (m : MemoryBlock) (p size q : ℕ)
    (heap : MmHeap) : Prop where
  copied : ∀ i < min m.size size, heap.memory (q + i) = s.heap.memory (p + i)
  cleared : ∀ i, m.size ≤ i → i < size → heap.memory (q + i) = 0
  freed : q ≠ p → ∀ b ∈ heap.blocks (p - metadataSize), b.free = true
  room : ∃ n ∈ heap.blocks (q - metadataSize), size ≤ n.size ∧
    ∀ a, ¬ (p ≤ a ∧ a < p + m.size) → ¬ (q ≤ a ∧ a < q + n.size) → heap.memory a = s.heap.memory a
  others : ∀ e ∈ s.live, e.start ≠ p → ∀ i < e.size,
    heap.memory (e.start + i) = s.heap.memory (e.start + i)
  reads : ∀ memory, (∀ i < m.size, memory (p + i) = s.heap.memory (p + i)) →
    ∃ heap', (mmRealloc granted p size).run { s.heap with memory := memory } = .ok (q, heap') ∧
      ∀ i < size, heap'.memory (q + i) = heap.memory (q + i)

/-- What a caller expects of `mm_realloc (p, size)`. -/
def Contract (s : MmSystem) (granted : Bool) (p size : ℕ) : Prop :=
  ∃ m q heap, s.heap.blocks (p - metadataSize) = some m ∧
    (mmRealloc granted p size).run s.heap = .ok (q, heap) ∧
    (size = 0 → q = 0 ∧ ∀ b ∈ heap.blocks (p - metadataSize), b.free = true) ∧
    (size ≠ 0 → q = 0 → heap = s.heap) ∧
    (size ≠ 0 → q ≠ 0 → s.Reallocated granted m p size q heap)

variable {p size : ℕ} {granted : Bool} {m : MemoryBlock}

theorem Sound.reallocated_shrink (h : s.Sound base ts) (hmem : p ∈ s.live.map Extent.start)
    (hblock : s.heap.blocks (p - metadataSize) = some m) (hsize : size ≤ m.size) :
    s.Reallocated granted m p size p (s.heap.overwrite ⟨p + size, m.size - size⟩ fun _ => 0) := by
  obtain ⟨t, ht, -, rfl⟩ := h.block hmem
  obtain ⟨xs, ys, hts⟩ := append_of_mem ht
  have hlaid := hts ▸ h.tiled.toLaid
  have hheader := hlaid.block
  rw [Nat.add_sub_cancel, hheader] at hblock
  cases hblock
  change size ≤ t.size at hsize
  have hkept : ∀ (e : Extent) (heap : MmHeap) (a : ℕ), a < e.start ∨ e.stop ≤ a →
      (heap.overwrite e fun _ => 0).memory a = heap.memory a := by
    intro e heap a ha
    exact if_neg (by omega)
  refine ⟨?_, ?_, fun hne => absurd rfl hne, ?_, ?_, ?_⟩
  · intro i hi
    exact hkept _ _ _ (.inl (by simp only; omega))
  · intro i hlow hhigh
    simp only at hlow
    omega
  · refine ⟨header t (firstOr ys 0) (lastOr 0 xs), ?_, hsize, fun a _ hout => hkept _ _ _ ?_⟩
    · rw [Nat.add_sub_cancel]
      refine (clobber_apart (.inr ?_)).trans hheader
      simp only [Extent.stop]
      omega
    · simp only [Extent.stop] at hout ⊢
      omega
  · -- the other payloads are in other tiles
    intro e he hne i hi
    obtain ⟨u, hu, -, hstart, hroom⟩ := h.covered e he
    have hut : u ≠ t := by
      rintro rfl
      exact hne hstart
    have hapart := h.tiled.tiles.apart hu ht hut
    refine hkept _ _ _ ?_
    simp only [Extent.stop]
    omega
  · intro memory hmemory
    refine ⟨_,
      mmRealloc_shrink granted ?_ (m := header t (firstOr ys 0) (lastOr 0 xs)) ?_ hsize, ?_⟩
    · rw [Nat.add_sub_cancel]
      exact hlaid.start_ne_zero mem_append_cons_self
    · rwa [Nat.add_sub_cancel]
    · intro i hi
      rw [hkept _ _ _ (.inl (by simp only; omega)), hkept _ _ _ (.inl (by simp only; omega))]
      exact hmemory i (by simp only; omega)

/-- A block that has to grow is moved, and stays in use; so a contract that is kept is that of a
block that need not grow, or cannot. -/
theorem Sound.contract_iff (h : s.Sound base ts) (hmem : p ∈ s.live.map Extent.start)
    (hunsplit : ∀ m ∈ s.heap.blocks (p - metadataSize), m.size < size → s.heap.Unsplit size) :
    s.Contract granted p size ↔ ∃ m ∈ s.heap.blocks (p - metadataSize),
      0 < size ∧ size ≤ m.size ∨ m.size < size ∧ s.heap.Full granted size := by
  obtain ⟨t, ht, hused, hp⟩ := h.block hmem
  obtain ⟨xs, ys, hts⟩ := append_of_mem ht
  have hlaid := hts ▸ h.tiled.toLaid
  have hblock : s.heap.blocks (p - metadataSize) =
      some (header t (firstOr ys 0) (lastOr 0 xs)) := by
    rw [hp]
    exact hlaid.block
  have hnull : p - metadataSize ≠ 0 := by
    rw [hp]
    exact h.tiled.start_ne_zero ht
  have hspec := h.tiled.mmRealloc granted ht (hunsplit _ hblock)
  rw [← hp] at hspec
  rcases hrun : (mmRealloc granted p size).run s.heap with f | ⟨q, heap⟩
  · -- a copy that reads past the break
    rw [Spec, hrun] at hspec
    refine iff_of_false ?_ ?_
    · rintro ⟨_, _, _, -, hrun', -⟩
      cases hrun.symm.trans hrun'
    · rintro ⟨m, hm, hcond⟩
      cases hm.symm.trans hblock
      exact hcond.elim (fun hle => absurd hspec.2.1 (not_lt.mpr hle.2)) fun hfull =>
        hspec.2.2 hfull.2
  have hcases := hspec.of_run_eq hrun
  constructor
  · rintro ⟨m, q', heap', -, hrun', hzero, -, hmoved⟩
    cases hrun.symm.trans hrun'
    refine ⟨_, hblock, ?_⟩
    rcases hcases with ⟨-, -, hlt, hfull⟩ | ⟨rfl, hle, -⟩ | ⟨ts', u, hlt, -, htiled, hobtained, rfl⟩
    · exact .inr ⟨hlt, hfull⟩
    · refine .inl ⟨Nat.pos_of_ne_zero fun hsize => ?_, hle⟩
      exact hnull (by rw [(hzero hsize).1, Nat.zero_sub])
    -- the old block is still in use
    obtain ⟨ht', hne⟩ := hobtained.keeps t ht hused
    obtain ⟨xs', ys', hts'⟩ := append_of_mem ht'
    have hheader := (hts' ▸ htiled.toLaid).block
    have hfreed := (hmoved (Nat.ne_zero_of_lt hlt) (by simp only [metadataSize]; omega)).freed
      (by omega)
    rw [hp] at hfreed
    exact Bool.noConfusion (hused.symm.trans (hfreed _ hheader))
  · rintro ⟨m, hm, hcond⟩
    cases hm.symm.trans hblock
    rcases hcond with ⟨hpos, hle⟩ | ⟨hlt, hfull⟩
    · exact ⟨_, p, _, hblock, mmRealloc_shrink granted hnull hblock hle, fun hzero => by omega,
        fun _ hzero => by omega, fun _ _ => h.reallocated_shrink hmem hblock hle⟩
    · rcases hcases with ⟨rfl, rfl, -⟩ | ⟨-, hle, -⟩ | ⟨_, _, -, hnot, -⟩
      · exact ⟨_, 0, _, hblock, hrun, fun hzero => by omega, fun _ _ => rfl,
          fun _ hne => absurd rfl hne⟩
      · exact absurd hle (not_le.mpr hlt)
      · exact absurd hfull hnot

/-- **When `mm_realloc` keeps its contract.**  In a heap that careful calls lead to, a careful call
does what is expected iff the block is big enough for a request that is not 0, or the request
fails because no free block is big enough and `sbrk` refuses. -/
theorem realloc_contract_iff {memory : ℕ → UInt8} {labels : List MmLabel} {size : UInt64}
    (hlow : 0 < base) (hhigh : base < wordLimit)
    (hrun : Run (Guarded Careful Step) (init base memory) labels s)
    (hmem : p ∈ s.live.map Extent.start) (hcareful : s.Careful (.realloc p size granted)) :
    s.Contract granted p size.toNat ↔ ∃ m ∈ s.heap.blocks (p - metadataSize),
      0 < size.toNat ∧ size.toNat ≤ m.size ∨
        m.size < size.toNat ∧ s.heap.Full granted size.toNat := by
  obtain ⟨ts, h⟩ := sound_of_run hlow hhigh hrun
  refine h.contract_iff hmem ?_
  obtain ⟨t, -, -, rfl⟩ := h.block hmem
  rwa [Careful] at hcareful

/-- A block of 100 bytes is made smaller. -/
theorem realloc_contract_iff_shrink : ∃ labels s,
    Run (Guarded Careful Step) (init 4096 fun _ => 0) labels s ∧
      s.Contract true 4128 40 := by
  refine ⟨[.malloc 100 true], exists_run_of_imp guarded_careful
    (fun s => 4128 ∈ s.live.map Extent.start ∧ s.Careful (.realloc 4128 40 true) ∧
      s.heap.blocks 4096 = some ⟨100, false, 0, 0⟩) (by decide +kernel) ?_⟩
  intro s hrun ⟨hmem, hcareful, hblock⟩
  exact (realloc_contract_iff (by decide) (by decide) hrun hmem hcareful).mpr
    ⟨_, hblock, .inl (by decide)⟩

/-- A block of 8 bytes that has to grow is moved, and the old one is not freed. -/
theorem realloc_leaks_block : ∃ labels s, Run Step (init 4096 fun _ => 0) labels s ∧
    4128 ∈ s.live.map Extent.start ∧ ¬ s.Contract true 4128 100 := by
  obtain ⟨s, hrun, hmem, hbrk, hunsplit, hblock⟩ : ∃ s, Run (Guarded Careful Step)
      (init 4096 fun _ => 0) [.malloc 8 true] s ∧ 4128 ∈ s.live.map Extent.start ∧
        s.heap.brk = 4136 ∧ s.heap.Unsplit 100 ∧ s.heap.blocks 4096 = some ⟨8, false, 0, 0⟩ :=
    exists_run_of_execute guarded_careful (by decide +kernel)
  obtain ⟨ts, h⟩ := sound_of_run (by decide) (by decide) hrun
  refine ⟨_, s, hrun.mono fun _ _ _ hstep => hstep.2, hmem, fun hcontract => ?_⟩
  obtain ⟨m, hm, hcond⟩ := (h.contract_iff hmem fun _ _ _ => hunsplit).mp hcontract
  cases hm.symm.trans hblock
  rcases hcond with ⟨-, hle⟩ | ⟨-, hfull⟩
  · exact absurd hle (by decide)
  · exact hfull.2 ⟨rfl, by decide, by rw [hbrk]; decide⟩

end MmSystem

end CS162
