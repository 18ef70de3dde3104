import CS162.Cache.Coherence

/-!
# Stale and fresh reads

`NeverStale` is a statement about histories, the invariant `Coherent` one about
states.  This file connects them and settles the question.

## Strategy

`next_cases` says once what a step does to the history: it appends nothing, a call
or a return.  From it `Recorded` is preserved by every step:

* a thread inside a call has that call as its latest event (`opened`);
* the event before a return, among the events of its thread, is its call (`matched`);
* a read returned what its sector was meant to hold (`current`).

Only `current` needs `Coherent`.  A write that completes between the call and the
return of a read would have been called before it without having returned, so the
latest write before the read is still the latest when it returns.
-/

namespace CS162

open Function List

/-- The call a thread is in. -/
def Pc.op? : Pc → Option CacheOp
  | .idle => none
  | .start op => some op
  | .lockBlock op _ _ => some op
  | .unlockLru op _ _ _ => some op
  | .writeBack op _ _ => some op
  | .fetch op _ => some op
  | .finish op _ => some op

def CacheLabel.tid : CacheLabel → Tid
  | .call t _ => t
  | .step t => t

namespace ThreadedCache

open Library CacheEvent

variable {initial : BlockSector → Sector} {s s' : ThreadedCache} {t u : Tid}

/-! ## What a step does to the history -/

@[simp] theorem op?_load (op : CacheOp) (i : Fin cacheSize) : (load op i).op? = some op := by
  unfold load
  split <;> rfl

/-- A silent step: thread `t` stays in its call and nothing is recorded. -/
def Silent (s : ThreadedCache) (t : Tid) (s' : ThreadedCache) : Prop :=
  s'.history = s.history ∧ ∃ pc, pc.op? = (s.pc t).op? ∧ s'.pc = update s.pc t pc

variable {op : CacheOp}

theorem search_silent (hpc : s.pc t = .start op) (h : s.search t op = some s') : Silent s t s' := by
  unfold search at h
  dsimp only at h
  split at h
  · obtain rfl := Option.some.inj h
    exact ⟨rfl, _, by rw [hpc]; rfl, rfl⟩
  split at h
  · obtain rfl := Option.some.inj h
    exact ⟨rfl, _, by rw [hpc]; rfl, rfl⟩
  · split at h
    · simp at h
    · obtain rfl := Option.some.inj h
      exact ⟨rfl, _, by rw [hpc]; rfl, rfl⟩

variable {i : Fin cacheSize}

theorem acquireBlock_silent {path : CachePath}
    (hpc : s.pc t = .lockBlock op path i) : Silent s t (s.acquireBlock t op path i) := by
  cases path <;> exact ⟨rfl, _, by rw [hpc]; rfl, rfl⟩

variable {x : BlockSector}

theorem releaseLru_silent {path : CachePath} (hpc : s.pc t = .unlockLru op path i x) :
    Silent s t (s.releaseLru t op path i x) := by
  cases path with
  | hit => exact ⟨rfl, _, by rw [hpc]; rfl, rfl⟩
  | fill => exact ⟨rfl, _, by rw [hpc, op?_load]; rfl, rfl⟩
  | evict =>
    unfold releaseLru
    dsimp only
    split
    · exact ⟨rfl, _, by rw [hpc]; rfl, rfl⟩
    · exact ⟨rfl, _, by rw [hpc, op?_load]; rfl, rfl⟩

theorem writeOld_silent
    (hpc : s.pc t = .writeBack op i x) (h : s.writeOld t op i x = some s') : Silent s t s' := by
  unfold writeOld at h
  dsimp only at h
  split at h
  · simp at h
  · obtain rfl := Option.some.inj h
    exact ⟨rfl, _, by rw [hpc, op?_load]; rfl, rfl⟩

theorem readNew_silent (hpc : s.pc t = .fetch op i)
    (h : s.readNew t op i = some s') : Silent s t s' := by
  unfold readNew at h
  split at h
  · simp at h
  · obtain rfl := Option.some.inj h
    exact ⟨rfl, _, by rw [hpc]; rfl, rfl⟩

/-- The return of a call, with what a read returns. -/
def ReturnsCall (s : ThreadedCache) (t : Tid) (s' : ThreadedCache) : Prop :=
  ∃ op i result, s.pc t = .finish op i ∧ s'.history = s.history ++ [.ret t op result] ∧
    s'.pc = update s.pc t .idle ∧
    (op.isWrite = false → result = (s.cache.blocks i).sector)

theorem finishCall_returns (hpc : s.pc t = .finish op i) :
    ReturnsCall s t (s.finishCall t op i) := by
  cases op with
  | read x => exact ⟨_, i, _, hpc, rfl, rfl, fun _ => rfl⟩
  | write x buffer => exact ⟨_, i, _, hpc, rfl, rfl, fun h => by simp [CacheOp.isWrite] at h⟩

theorem next_cases {label : CacheLabel} (h : s.next label = some s') :
    (∃ op, s.pc label.tid = .idle ∧ s'.history = s.history ++ [.call label.tid op] ∧
      s'.pc = update s.pc label.tid (.start op)) ∨
    ReturnsCall s label.tid s' ∨ Silent s label.tid s' := by
  cases label with
  | call t op =>
    unfold next startCall at h
    cases hpc : s.pc t <;> simp only [hpc, reduceCtorEq, Option.some.injEq] at h
    subst h
    exact .inl ⟨op, hpc, rfl, rfl⟩
  | step t =>
    unfold next step at h
    right
    cases hpc : s.pc t with
    | idle => simp [hpc] at h
    | start op =>
      simp only [hpc, Option.ite_none_right_eq_some] at h
      exact .inr (search_silent hpc h.2)
    | lockBlock op path i =>
      simp only [hpc, Option.ite_none_right_eq_some, Option.some.injEq] at h
      exact .inr (h.2 ▸ acquireBlock_silent hpc)
    | unlockLru op path i x =>
      simp only [hpc, Option.some.injEq] at h
      exact .inr (h ▸ releaseLru_silent hpc)
    | writeBack op i x =>
      simp only [hpc] at h
      exact .inr (writeOld_silent hpc h)
    | fetch op i =>
      simp only [hpc] at h
      exact .inr (readNew_silent hpc h)
    | finish op i =>
      simp only [hpc, Option.some.injEq] at h
      exact .inl (h ▸ finishCall_returns hpc)

/-! ## What the history records -/

/-- The latest event of thread `t` in the history is its call of `op`, at position `k`. -/
def LatestCall (history : List CacheEvent) (t : Tid) (op : CacheOp) (k : ℕ) : Prop :=
  history[k]? = some (.call t op) ∧ ∀ l e, k < l → history[l]? = some e → e.tid ≠ t

theorem LatestCall.append {history : List CacheEvent} {k : ℕ} (h : LatestCall history t op k)
    {e : CacheEvent} (he : e.tid ≠ t) : LatestCall (history ++ [e]) t op k := by
  obtain ⟨hk, hafter⟩ := h
  refine ⟨getElem?_append_left (List.getElem?_eq_some_iff.mp hk).1 ▸ hk, ?_⟩
  intro l e' hl hget
  rw [getElem?_append] at hget
  split at hget
  · exact hafter l e' hl hget
  · have : e = e' := by
      rw [getElem?_singleton] at hget
      split at hget <;> simp_all
    exact this ▸ he

/-- The history is that of the calls the threads are in. -/
structure Recorded (initial : BlockSector → Sector) (s : ThreadedCache) : Prop where
  opened : ∀ t op, (s.pc t).op? = some op → ∃ k, LatestCall s.history t op k
  matched : ∀ m t op result, s.history[m]? = some (.ret t op result) →
    ∃ k, k < m ∧ LatestCall (s.history.take m) t op k
  current : ∀ j t x result, s.history[j]? = some (.ret t (.read x) result) →
    result = (lastWritten (s.history.take j) x).getD (initial x)

theorem recorded_init (device : Device) (blocks : Fin cacheSize → CacheBlock) :
    Recorded initial (init device blocks) :=
  ⟨fun t op h => by simp [Pc.op?] at h, fun m t op r h => by simp at h,
    fun j t x r h => by simp at h⟩

/-- An event appended at the end leaves what was recorded before. -/
theorem getElem?_append_cases {history : List CacheEvent} {e e' : CacheEvent} {k : ℕ}
    (h : (history ++ [e])[k]? = some e') :
    (history[k]? = some e' ∧ (history ++ [e]).take k = history.take k) ∨
      (e = e' ∧ k = history.length ∧ (history ++ [e]).take k = history) := by
  rw [getElem?_append] at h
  split at h
  next hlt => exact .inl ⟨h, take_append_of_le_length hlt.le⟩
  next hge =>
    rw [getElem?_singleton] at h
    split at h
    next hk =>
      have hk : k = history.length := by omega
      exact .inr ⟨Option.some.inj h, hk, by rw [hk]; exact take_left' rfl⟩
    next => simp at h

theorem Recorded.next (h : Recorded initial s) (hcoherent : Coherent initial s)
    {label : CacheLabel} (hstep : s.next label = some s') : Recorded initial s' := by
  rcases next_cases hstep with ⟨op, hidle, hhist, hpc⟩ | ⟨op, i, result, hfin, hhist, hpc, hres⟩ |
    ⟨hhist, pc, hop, hpc⟩
  · -- a call: nothing that was recorded changes, and the caller's latest event is the call
    refine ⟨fun u op' hu => ?_, fun m u op' r hm => ?_, fun j u x r hj => ?_⟩
    · rw [hhist]
      by_cases hut : u = label.tid
      · subst hut
        rw [hpc, update_self, Pc.op?, Option.some.injEq] at hu
        subst hu
        refine ⟨s.history.length, by simp, fun l e hl hget => ?_⟩
        have := (List.getElem?_eq_some_iff.mp hget).1
        rw [length_append, length_singleton] at this
        omega
      · rw [hpc, update_of_ne hut] at hu
        obtain ⟨k, hk⟩ := h.opened u op' hu
        exact ⟨k, hk.append (Ne.symm hut)⟩
    · rw [hhist] at hm ⊢
      rcases getElem?_append_cases hm with ⟨hm, htake⟩ | ⟨he, -, -⟩
      · exact htake ▸ h.matched m u op' r hm
      · simp at he
    · rw [hhist] at hj ⊢
      rcases getElem?_append_cases hj with ⟨hj, htake⟩ | ⟨he, -, -⟩
      · exact htake ▸ h.current j u x r hj
      · simp at he
  · -- a return: the caller was in this call, and a read takes the bytes of its block
    obtain ⟨k, hk⟩ := h.opened label.tid op (by rw [hfin]; rfl)
    refine ⟨fun u op' hu => ?_, fun m u op' r hm => ?_, fun j u x r hj => ?_⟩
    · rw [hhist]
      by_cases hut : u = label.tid
      · subst hut
        simp [hpc, Pc.op?] at hu
      · rw [hpc, update_of_ne hut] at hu
        obtain ⟨k, hk⟩ := h.opened u op' hu
        exact ⟨k, hk.append (Ne.symm hut)⟩
    · rw [hhist] at hm ⊢
      rcases getElem?_append_cases hm with ⟨hm, htake⟩ | ⟨he, hlen, htake⟩
      · exact htake ▸ h.matched m u op' r hm
      · injection he with hu hop' _
        subst hu hop'
        rw [htake, hlen]
        exact ⟨k, (List.getElem?_eq_some_iff.mp hk.1).1, hk⟩
    rw [hhist] at hj ⊢
    rcases getElem?_append_cases hj with ⟨hj, htake⟩ | ⟨he, -, htake⟩
    · exact htake ▸ h.current j u x r hj
    injection he with hu hop' hr
    subst hu hop' hr
    have hthread := hcoherent.thread label.tid
    unfold ThreadOk at hthread
    rw [hfin] at hthread
    have htag : (s.cache.blocks i).sectorTag = x := hthread.1.2.2
    rw [htake, hres rfl, (hthread.2 rfl).1, htag]
    rfl
  · -- a silent step
    refine ⟨fun u op' hu => ?_, hhist ▸ h.matched, hhist ▸ h.current⟩
    rw [hhist]
    by_cases hut : u = label.tid
    · subst hut
      rw [hpc, update_self, hop] at hu
      exact h.opened _ op' hu
    · rw [hpc, update_of_ne hut] at hu
      exact h.opened u op' hu

/-! ## Fresh reads -/

/-- No completed write to `x` among the events: the latest one is the one before. -/
theorem lastWritten_append_of_none {first second : List CacheEvent}
    (h : ∀ e ∈ second, written? x e = none) :
    lastWritten (first ++ second) x = lastWritten first x := by
  have hnone : second.reverse.findSome? (written? x) = none :=
    findSome?_eq_none_iff.mpr fun e he => h e (mem_reverse.mp he)
  simp [lastWritten, hnone]

theorem exists_of_written {e : CacheEvent} (h : written? x e ≠ none) :
    ∃ u b r, e = .ret u (.write x b) r := by
  unfold written? at h
  split at h
  next u target b r =>
    split at h
    next heq => exact ⟨u, b, r, heq ▸ rfl⟩
    next => exact absurd rfl h
  next => exact absurd rfl h

theorem Recorded.neverStale (h : Recorded initial s) : NeverStale s.history := by
  intro i j t x result buffer hi hj hij _ hwrites hlast
  -- no write to `x` completes between the call and the return
  have hnone : ∀ e ∈ (s.history.take j).drop i, written? x e = none := by
    intro e he
    by_contra hwritten
    obtain ⟨u, b, r, rfl⟩ := exists_of_written hwritten
    obtain ⟨d, hd⟩ := mem_iff_getElem?.mp he
    rw [getElem?_drop, getElem?_take] at hd
    split at hd
    next hm =>
      obtain ⟨k, hkm, hcall, hafter⟩ := h.matched (i + d) u (.write x b) r hd
      rw [getElem?_take_of_lt hkm] at hcall
      obtain ⟨m, b', r', hk, hmi, hret⟩ := hwrites k u b (by omega) hcall
      refine hafter m (.ret u (.write x b') r') hk ?_ rfl
      rwa [getElem?_take_of_lt (by omega)]
    next => simp at hd
  have hsplit : s.history.take j = s.history.take i ++ (s.history.take j).drop i := by
    have := take_append_drop i (s.history.take j)
    rwa [take_take, Nat.min_eq_left hij.le, eq_comm] at this
  rw [h.current j t x result hj, hsplit, lastWritten_append_of_none hnone, hlast]
  rfl

theorem coherent_recorded_of_settled {device : Device} {blocks : Fin cacheSize → CacheBlock}
    {labels : List CacheLabel}
    (hrun : Run (Guarded Settled fun s l t => s.next l = some t) (init device blocks) labels s) :
    Coherent device.content s ∧ Recorded device.content s := by
  refine hrun.invariant (I := fun s => Coherent device.content s ∧ Recorded device.content s)
    ⟨coherent_init device blocks, recorded_init device blocks⟩ ?_
  rintro s l s' ⟨hcoherent, hrecorded⟩ ⟨hsettled, hstep⟩
  exact ⟨hcoherent.next hsettled hstep, hrecorded.next hcoherent hstep⟩

/-- **Fresh reads.**  For any number of threads and any interleaving in which no call
misses a sector that is still to be written back, no read is stale. -/
theorem neverStale_of_settled (device : Device) (blocks : Fin cacheSize → CacheBlock)
    (labels : List CacheLabel) (s : ThreadedCache)
    (hrun : Run (Guarded Settled fun s l t => s.next l = some t) (init device blocks) labels s) :
    NeverStale s.history :=
  (coherent_recorded_of_settled hrun).2.neverStale

/-! ## Runs of a few threads -/

theorem next_pc_of_ne {label : CacheLabel} (h : s.next label = some s') (hu : u ≠ label.tid) :
    s'.pc u = s.pc u := by
  rcases next_cases h with ⟨_, _, _, hpc⟩ | ⟨_, _, _, _, _, hpc, _⟩ | ⟨_, _, _, hpc⟩ <;>
    rw [hpc, update_of_ne hu]

/-- The sector that the thread has still to write back. -/
def victim? : Pc → Option BlockSector
  | .writeBack _ _ oldSector => some oldSector
  | _ => none

/-- `Settled`, computed for a step of one of the first `n` threads. -/
def settledBelow (n : ℕ) (s : ThreadedCache) (label : CacheLabel) : Bool :=
  label.tid < n && match label with
    | .call _ _ => true
    | .step t => match s.pc t with
      | .start op => (s.cache.findBlock op.sector).isSome ||
          (List.range n).all fun u => victim? (s.pc u) ≠ some op.sector
      | _ => true

theorem settled_of_settledBelow {n : ℕ} {label : CacheLabel}
    (hidle : ∀ u, n ≤ u → s.pc u = .idle) (h : settledBelow n s label) : Settled s label := by
  cases label with
  | call _ _ => trivial
  | step t =>
    intro op hpc hmiss u op' i hu
    simp only [settledBelow, hpc, hmiss, Option.isSome_none, Bool.false_or, Bool.and_eq_true,
      all_eq_true, mem_range, decide_eq_true_eq] at h
    have hlt : u < n := by
      by_contra hge
      rw [hidle u (Nat.le_of_not_lt hge)] at hu
      exact Pc.noConfusion hu
    exact h.2 u hlt (by rw [hu]; rfl)

/-- Where the other threads have not called, the condition can be computed. -/
theorem run_settled {n : ℕ} {device : Device} {blocks : Fin cacheSize → CacheBlock}
    {labels : List CacheLabel}
    (hrun : Run (Guarded (fun s l => settledBelow n s l) fun s l t => s.next l = some t)
      (init device blocks) labels s) :
    Run (Guarded Settled fun s l t => s.next l = some t) (init device blocks) labels s ∧
      ∀ u, n ≤ u → s.pc u = .idle := by
  induction hrun with
  | nil => exact ⟨.nil, fun _ _ => rfl⟩
  | snoc hprev hstep ih =>
    obtain ⟨hrun, hidle⟩ := ih
    obtain ⟨hbelow, hstep⟩ := hstep
    refine ⟨hrun.snoc ⟨settled_of_settledBelow hidle hbelow, hstep⟩, fun u hu => ?_⟩
    have hlt := of_decide_eq_true (Bool.and_eq_true_iff.mp hbelow).1
    rw [next_pc_of_ne hstep (hlt.trans_le hu).ne']
    exact hidle u hu

/-- A call of thread `t` and its steps up to the return. -/
def wholeCall (t : Tid) (op : CacheOp) (steps : ℕ) : List CacheLabel :=
  .call t op :: List.replicate steps (.step t)

/-- A disk of 100 sectors of zeros. -/
def zeroDisk : Device := ⟨100, fun _ _ => 0⟩

def zeroBlocks : Fin cacheSize → CacheBlock := fun _ => ⟨0, fun _ => 0, false⟩

/-- Writes by thread 0 that fill the cache with sectors 0 to 63. -/
def fillCalls : List CacheLabel :=
  (List.range cacheSize).flatMap fun n => wholeCall 0 (.write (UInt32.ofNat n) fun _ => 1) 4

/-- Thread 1 reads sector 64 and evicts sector 0; before it has written sector 0 back, thread 2
reads sector 5 and returns. -/
theorem neverStale_of_settled_evicting :
    ∃ labels s, Run (Guarded Settled fun s l t => s.next l = some t)
      (init zeroDisk zeroBlocks) labels s ∧ s.history.length = 132 ∧ NeverStale s.history := by
  obtain ⟨s, hrun, hlength⟩ : ∃ s, Run
      (Guarded (fun s l => settledBelow 3 s l) fun s l t => s.next l = some t)
      (init zeroDisk zeroBlocks) (fillCalls ++ (wholeCall 1 (.read 64) 3 ++
        wholeCall 2 (.read 5) 4 ++ List.replicate 3 (.step 1))) s ∧ s.history.length = 132 :=
    exists_run_of_execute (guarded_of_ite (fun _ _ _ hstep => hstep)
      fun _ _ => Decidable.not_not.mp) (by decide +kernel)
  have hsettled := (run_settled hrun).1
  exact ⟨_, s, hsettled, hlength, neverStale_of_settled zeroDisk zeroBlocks _ s hsettled⟩

end ThreadedCache

/-! ## A stale read

64 writes fill the cache.  Thread 1 then reads sector 64 and evicts sector 0: it has
retagged the block and released `LRU_lock`, but not yet written sector 0 back.
Thread 2 reads sector 0, misses it, evicts another block and fetches the old bytes
from the device. -/

namespace ThreadedCache

open Library CacheEvent

def staleSchedule : List CacheLabel :=
  fillCalls ++ (wholeCall 1 (.read 64) 3 ++ wholeCall 2 (.read 0) 6)

def callsWrite (x : BlockSector) : CacheEvent → Bool
  | .call _ (.write y _) => y = x
  | _ => false

/-- The test `staleSchedule` passes: the only write to sector 0 is the first call, it has
returned, and it was of ones; the last read of sector 0 returns a zero. -/
def isStale (history : List CacheEvent) : Bool :=
  (List.range 130).all (fun k => k = 0 ∨ !history[k]?.any (callsWrite 0)) &&
    (lastWritten (history.take 129) 0).map (fun buffer => buffer 0) = some 1 &&
    match history[0]?, history[1]?, history[129]?, history[130]? with
    | some (CacheEvent.call u _), some (CacheEvent.ret u' (.write x _) _),
      some (CacheEvent.call t (.read y)), some (CacheEvent.ret t' (.read y') result) =>
      u' = u ∧ x = 0 ∧ y = 0 ∧ t' = t ∧ y' = 0 ∧ result 0 = 0
    | _, _, _, _ => false

theorem not_neverStale_of_isStale {history : List CacheEvent} (h : isStale history = true) :
    ¬ NeverStale history := by
  simp only [isStale, Bool.and_eq_true, decide_eq_true_eq] at h
  obtain ⟨⟨honly, hlast⟩, hevents⟩ := h
  intro hstale
  split at hevents
  · next u _ u' x written r t y t' y' result hfirst hdone hcall hret =>
    obtain ⟨rfl, rfl, rfl, rfl, rfl, hbyte⟩ := of_decide_eq_true hevents
    obtain ⟨buffer, hbuffer, hone⟩ := Option.map_eq_some_iff.mp hlast
    have hresult := hstale 129 130 t' 0 result buffer hcall hret (by omega) (by omega) ?_ hbuffer
    · rw [hresult, hone] at hbyte
      exact absurd hbyte (by decide)
    · intro k v b hk hget
      have hk := all_eq_true.mp honly k (mem_range.mpr hk)
      obtain rfl : k = 0 := by simpa [hget, callsWrite] using hk
      cases hfirst.symm.trans hget
      exact ⟨1, written, r, by omega, by omega, hdone⟩
  · cases hevents

set_option maxRecDepth 100000 in
theorem isStale_staleSchedule :
    ∃ s ∈ execute next (init zeroDisk zeroBlocks) staleSchedule, isStale s.history = true := by
  decide +kernel

/-- A read called after the only write to its sector has returned gives old bytes. -/
theorem stale_read : ∃ labels s, Run (fun s l t => s.next l = some t)
    (init zeroDisk zeroBlocks) labels s ∧ ¬ NeverStale s.history := by
  obtain ⟨s, hrun, hstale⟩ := exists_run_of_execute (fun _ _ _ hstep => hstep) isStale_staleSchedule
  exact ⟨staleSchedule, s, hrun, not_neverStale_of_isStale hstale⟩

end ThreadedCache

end CS162
