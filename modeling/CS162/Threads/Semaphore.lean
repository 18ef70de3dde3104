import CS162.Library.Run
import Mathlib.Data.Set.Card

/-!
# Semaphores

The semaphore of `synch.c` and the part of `thread.c` it sleeps with.  A semaphore
operation runs with interrupts off, so it is one step, except that `sema_down`
gives up the processor in `thread_block`: a thread that finds the value 0 puts itself
on `waiters` and sleeps, and when it runs again it tests the value once more.  A
thread that `sema_up` has unblocked is on the ready list like any other, and threads
that were never asleep may take the value before it runs.

## Strategy

The value alone does not bound the sleepers, since a woken thread can lose the race
and go back to sleep.  The invariant `SemaSystem.Accounted` counts the threads that
`sema_up` has unblocked and that have not run since: as long as a thread sleeps, the
value is at most their number.  A `sema_up` that finds a waiter raises both sides by
one; a thread that takes the value lowers the left side; a woken thread that finds
the value 0 lowers the right side while the left side is 0.
-/

namespace CS162

open Library Function List

abbrev Tid := ℕ

/-- Whether the scheduler may run a thread.  `THREAD_RUNNING` and `THREAD_READY` are
one here: which of the runnable threads takes the next step is left open. -/
inductive ThreadStatus where
  | ready
  | blocked
  deriving DecidableEq

/-- `struct semaphore`; `value` is an `unsigned`. -/
structure Semaphore where
  value : UInt32
  waiters : List Tid
  deriving DecidableEq

def semaInit (value : UInt32) : Semaphore := ⟨value, []⟩

/-- One round of the loop of `sema_down`, run by thread `t`.  The round ends the call
if it returns `true`; otherwise the thread is on `waiters` and blocks. -/
def semaDown (sema : Semaphore) (t : Tid) : Semaphore × Bool :=
  if sema.value = 0 then ({ sema with waiters := sema.waiters ++ [t] }, false)
  else ({ sema with value := sema.value - 1 }, true)

def semaTryDown (sema : Semaphore) : Semaphore × Bool :=
  if sema.value > 0 then ({ sema with value := sema.value - 1 }, true) else (sema, false)

/-- `sema_up`, with the thread it hands to `thread_unblock`. -/
def semaUp (sema : Semaphore) : Semaphore × Option Tid :=
  match sema.waiters with
  | [] => ({ sema with value := sema.value + 1 }, none)
  | t :: rest => (⟨sema.value + 1, rest⟩, some t)

def threadBlock (status : Tid → ThreadStatus) (t : Tid) : Tid → ThreadStatus :=
  update status t .blocked

/-- `thread_unblock`, which asserts that the thread is blocked. -/
def threadUnblock (status : Tid → ThreadStatus) (t : Tid) : Option (Tid → ThreadStatus) :=
  if status t = .blocked then some (update status t .ready) else none

/-! ## Threads using one semaphore -/

/-- A semaphore and the threads that use it. -/
structure SemaSystem where
  sema : Semaphore
  status : Tid → ThreadStatus
  /-- The threads that have called `sema_down` and not returned from it. -/
  inDown : Tid → Bool
  /-- The calls of `sema_up` that have returned. -/
  ups : ℕ
  /-- The calls of `sema_down` and the successful calls of `sema_try_down` that have
  returned. -/
  downs : ℕ

/-- A call by a thread outside the operations, or a thread that runs on in
`sema_down` after it was unblocked. -/
inductive SemaLabel where
  | down (t : Tid)
  | resume (t : Tid)
  | tryDown (t : Tid)
  | up (t : Tid)

namespace SemaSystem

def init (value : UInt32) : SemaSystem := ⟨semaInit value, fun _ => .ready, fun _ => false, 0, 0⟩

/-- The thread sleeps in `thread_block` inside `sema_down`. -/
@[simp] def Sleeping (s : SemaSystem) (t : Tid) : Prop := s.inDown t = true ∧ s.status t = .blocked

/-- The thread was unblocked from the wait list and has not resumed yet. -/
@[simp] def Woken (s : SemaSystem) (t : Tid) : Prop := s.inDown t = true ∧ s.status t = .ready

/-- The thread runs outside the semaphore's operations. -/
def Outside (s : SemaSystem) (t : Tid) : Prop := s.inDown t = false ∧ s.status t = .ready

instance (s : SemaSystem) (t : Tid) : Decidable (s.Sleeping t) :=
  inferInstanceAs (Decidable (_ ∧ _))

instance (s : SemaSystem) (t : Tid) : Decidable (s.Woken t) :=
  inferInstanceAs (Decidable (_ ∧ _))

instance (s : SemaSystem) (t : Tid) : Decidable (s.Outside t) :=
  inferInstanceAs (Decidable (_ ∧ _))

/-- Thread `t` runs one round of the loop of `sema_down`. -/
def round (s : SemaSystem) (t : Tid) : SemaSystem :=
  match semaDown s.sema t with
  | (sema, true) =>
    { s with sema := sema, inDown := update s.inDown t false, downs := s.downs + 1 }
  | (sema, false) =>
    { s with
      sema := sema
      inDown := update s.inDown t true
      status := threadBlock s.status t }

def tryDown (s : SemaSystem) : SemaSystem :=
  match semaTryDown s.sema with
  | (sema, true) => { s with sema := sema, downs := s.downs + 1 }
  | (sema, false) => { s with sema := sema }

def up (s : SemaSystem) : Option SemaSystem :=
  match semaUp s.sema with
  | (sema, none) => some { s with sema := sema, ups := s.ups + 1 }
  | (sema, some t) =>
    (threadUnblock s.status t).map fun status =>
      { s with sema := sema, status := status, ups := s.ups + 1 }

def next (s : SemaSystem) : SemaLabel → Option SemaSystem
  | .down t => if s.Outside t then some (s.round t) else none
  | .resume t => if s.Woken t then some (s.round t) else none
  | .tryDown t => if s.Outside t then some s.tryDown else none
  | .up t => if s.Outside t then s.up else none

/-! ## What each operation does -/

/-- Thread `t` has taken the value and returned from `sema_down`. -/
@[simp] def taken (s : SemaSystem) (t : Tid) : SemaSystem :=
  { s with
    sema := { s.sema with value := s.sema.value - 1 }
    inDown := update s.inDown t false
    downs := s.downs + 1 }

/-- Thread `t` has gone to sleep in `sema_down`. -/
@[simp] def slept (s : SemaSystem) (t : Tid) : SemaSystem :=
  { s with
    sema := { s.sema with waiters := s.sema.waiters ++ [t] }
    inDown := update s.inDown t true
    status := update s.status t .blocked }

/-- A `sema_try_down` has taken the value. -/
def tried (s : SemaSystem) : SemaSystem :=
  { s with sema := { s.sema with value := s.sema.value - 1 }, downs := s.downs + 1 }

/-- A `sema_up` has found nobody waiting. -/
def raised (s : SemaSystem) : SemaSystem :=
  { s with sema := ⟨s.sema.value + 1, []⟩, ups := s.ups + 1 }

/-- A `sema_up` has unblocked the first waiter `t`. -/
@[simp] def woke (s : SemaSystem) (t : Tid) (rest : List Tid) : SemaSystem :=
  { s with
    sema := ⟨s.sema.value + 1, rest⟩
    status := update s.status t .ready
    ups := s.ups + 1 }

theorem round_cases (s : SemaSystem) (t : Tid) :
    (s.sema.value ≠ 0 ∧ s.round t = s.taken t) ∨ (s.sema.value = 0 ∧ s.round t = s.slept t) := by
  by_cases hvalue : s.sema.value = 0
  · right
    simp [round, semaDown, hvalue, threadBlock]
  · left
    simp [round, semaDown, hvalue]

theorem tryDown_cases (s : SemaSystem) :
    (s.sema.value ≠ 0 ∧ s.tryDown = s.tried) ∨ (s.sema.value = 0 ∧ s.tryDown = s) := by
  by_cases hvalue : s.sema.value = 0
  · right
    simp [tryDown, semaTryDown, hvalue]
  · left
    have hpos : 0 < s.sema.value := UInt32.pos_iff_ne_zero.mpr hvalue
    simp [tryDown, semaTryDown, hvalue, hpos, tried]

theorem up_cases {s u : SemaSystem} (h : s.up = some u) : (s.sema.waiters = [] ∧ u = s.raised) ∨
    (∃ t rest, s.sema.waiters = t :: rest ∧ s.status t = .blocked ∧ u = s.woke t rest) := by
  cases hwaiters : s.sema.waiters with
  | nil =>
    left
    rw [up, semaUp, hwaiters, Option.some.injEq] at h
    exact ⟨rfl, h.symm⟩
  | cons t rest =>
    right
    simp only [up, semaUp, hwaiters, threadUnblock, Option.map_eq_some_iff] at h
    obtain ⟨status, hstatus, rfl⟩ := h
    split at hstatus
    · cases hstatus
      exact ⟨t, rest, rfl, ‹_›, rfl⟩
    · cases hstatus

/-! ## The invariant -/

/-- What holds in every state: the balance of ups and downs, which threads are on the
wait list, and the bound on the value while it is not empty. -/
structure Accounted (value : UInt32) (s : SemaSystem) : Prop where
  balance : ∃ wraps, s.sema.value.toNat + s.downs + 2 ^ 32 * wraps = value.toNat + s.ups
  waiting : ∀ t, t ∈ s.sema.waiters ↔ s.Sleeping t
  nodup : s.sema.waiters.Nodup
  finite : {t | s.Woken t}.Finite
  bound : s.sema.waiters ≠ [] → s.sema.value.toNat ≤ {t | s.Woken t}.ncard

theorem accounted_init (value : UInt32) : (init value).Accounted value where
  balance := ⟨0, by simp [init, semaInit]⟩
  waiting t := by simp [init, semaInit]
  nodup := nodup_nil
  finite := by simp [init]
  bound h := absurd rfl h

variable {value : UInt32} {s u : SemaSystem} {t : Tid}

theorem toNat_pred {v : UInt32} (hv : v ≠ 0) : (v - 1).toNat + 1 = v.toNat := by
  have hpos : 0 < v := UInt32.pos_iff_ne_zero.mpr hv
  have hone : (1 : UInt32) ≤ v := UInt32.le_iff_toNat_le.mpr (UInt32.lt_iff_toNat_lt.mp hpos)
  have hle : 1 ≤ v.toNat := UInt32.le_iff_toNat_le.mp hone
  rw [UInt32.toNat_sub_of_le _ _ hone]
  show v.toNat - 1 + 1 = v.toNat
  omega

theorem toNat_succ (v : UInt32) : ∃ wrap, (v + 1).toNat + 2 ^ 32 * wrap = v.toNat + 1 := by
  refine ⟨(v.toNat + 1) / 2 ^ 32, ?_⟩
  exact Nat.mod_add_div _ _

theorem woken_taken (s : SemaSystem) (t : Tid) :
    {x | (s.taken t).Woken x} = {x | s.Woken x} \ {t} := by
  ext x
  by_cases hx : x = t <;> simp [hx]

theorem woken_woke {rest : List Tid} (h : s.Sleeping t) :
    {x | (s.woke t rest).Woken x} = insert t {x | s.Woken x} := by
  ext x
  by_cases hx : x = t <;> simp [hx, h.1]

section

variable (h : s.Accounted value)
include h

/-- A woken thread may be the one that takes the value, so the bound loses one on both
sides. -/
theorem Accounted.taken (hstatus : s.status t = .ready)
    (hvalue : s.sema.value ≠ 0) : (s.taken t).Accounted value := by
  have hpred := toNat_pred hvalue
  constructor
  · obtain ⟨wraps, hbalance⟩ := h.balance
    refine ⟨wraps, ?_⟩
    simp only [SemaSystem.taken]
    omega
  · intro x
    apply (h.waiting x).trans
    by_cases hx : x = t
    · simp [hx, hstatus]
    · simp [hx]
  · exact h.nodup
  · rw [woken_taken]
    exact h.finite.sdiff
  · intro hwaiters
    rw [woken_taken]
    calc (s.sema.value - 1).toNat = s.sema.value.toNat - 1 := by omega
      _ ≤ {x | s.Woken x}.ncard - 1 := Nat.sub_le_sub_right (h.bound hwaiters) 1
      _ ≤ ({x | s.Woken x} \ {t}).ncard := Set.pred_ncard_le_ncard_sdiff_singleton _ t

/-- A thread goes to sleep only while the value is 0, which no bound excludes. -/
theorem Accounted.slept (hstatus : s.status t = .ready)
    (hvalue : s.sema.value = 0) : (s.slept t).Accounted value := by
  have hnew : t ∉ s.sema.waiters := by
    rw [h.waiting t]
    simp [hstatus]
  constructor
  · exact h.balance
  · intro x
    rw [SemaSystem.slept, mem_append, h.waiting x]
    by_cases hx : x = t
    · simp [hx]
    · simp [hx]
  · show (s.sema.waiters ++ [t]).Nodup
    exact concat_eq_append ▸ h.nodup.concat hnew
  · apply h.finite.subset
    intro x hx
    by_cases hxt : x = t
    · simp [hxt] at hx
    · simpa [hxt] using hx
  · intro _
    simp [hvalue]

theorem Accounted.tried (hvalue : s.sema.value ≠ 0) : s.tried.Accounted value := by
  have hpred := toNat_pred hvalue
  constructor
  · obtain ⟨wraps, hbalance⟩ := h.balance
    refine ⟨wraps, ?_⟩
    simp only [SemaSystem.tried]
    omega
  · exact h.waiting
  · exact h.nodup
  · exact h.finite
  · intro hwaiters
    calc (s.sema.value - 1).toNat ≤ s.sema.value.toNat := by omega
      _ ≤ {x | s.Woken x}.ncard := h.bound hwaiters

theorem Accounted.raised (hwaiters : s.sema.waiters = []) : s.raised.Accounted value := by
  constructor
  · obtain ⟨wraps, hbalance⟩ := h.balance
    obtain ⟨wrap, hsucc⟩ := toNat_succ s.sema.value
    refine ⟨wraps + wrap, ?_⟩
    simp only [SemaSystem.raised]
    omega
  · intro x
    have hmem := h.waiting x
    rwa [hwaiters] at hmem
  · exact nodup_nil
  · exact h.finite
  · exact fun hne => absurd rfl hne

theorem Accounted.woke {rest : List Tid}
    (hwaiters : s.sema.waiters = t :: rest) : (s.woke t rest).Accounted value := by
  obtain ⟨wrap, hsucc⟩ := toNat_succ s.sema.value
  have hsleeping : s.Sleeping t := (h.waiting t).mp (by simp [hwaiters])
  obtain ⟨hnot, hnodup⟩ : t ∉ rest ∧ rest.Nodup := by
    have hall := h.nodup
    rwa [hwaiters, nodup_cons] at hall
  constructor
  · obtain ⟨wraps, hbalance⟩ := h.balance
    refine ⟨wraps + wrap, ?_⟩
    simp only [SemaSystem.woke]
    omega
  · intro x
    have hmem := h.waiting x
    rw [hwaiters] at hmem
    by_cases hx : x = t
    · simp [hx, hnot]
    · simpa [hx] using hmem
  · exact hnodup
  · rw [woken_woke hsleeping]
    exact h.finite.insert t
  · intro _
    have hfresh : t ∉ {x | s.Woken x} := by simp [hsleeping.2]
    rw [woken_woke hsleeping, Set.ncard_insert_of_notMem hfresh h.finite]
    calc (s.sema.value + 1).toNat ≤ s.sema.value.toNat + 1 := by omega
      _ ≤ {x | s.Woken x}.ncard + 1 := Nat.add_le_add_right (h.bound (by simp [hwaiters])) 1

theorem Accounted.round (hstatus : s.status t = .ready) : (s.round t).Accounted value := by
  obtain ⟨hvalue, hround⟩ | ⟨hvalue, hround⟩ := round_cases s t
  · rw [hround]
    exact h.taken hstatus hvalue
  · rw [hround]
    exact h.slept hstatus hvalue

theorem Accounted.tryDown : s.tryDown.Accounted value := by
  obtain ⟨hvalue, htry⟩ | ⟨_, htry⟩ := tryDown_cases s
  · rw [htry]
    exact h.tried hvalue
  · rwa [htry]

theorem Accounted.up (hup : s.up = some u) : u.Accounted value := by
  obtain ⟨hwaiters, rfl⟩ | ⟨t, rest, hwaiters, _, rfl⟩ := up_cases hup
  · exact h.raised hwaiters
  · exact h.woke hwaiters

theorem Accounted.next {l : SemaLabel} (hnext : s.next l = some u) : u.Accounted value := by
  cases l with
  | down t =>
    obtain ⟨hout, ⟨⟩⟩ := Option.ite_none_right_eq_some.mp hnext
    exact h.round hout.2
  | resume t =>
    obtain ⟨hwoken, ⟨⟩⟩ := Option.ite_none_right_eq_some.mp hnext
    exact h.round hwoken.2
  | tryDown t =>
    obtain ⟨_, ⟨⟩⟩ := Option.ite_none_right_eq_some.mp hnext
    exact h.tryDown
  | up t =>
    obtain ⟨_, hup⟩ := Option.ite_none_right_eq_some.mp hnext
    exact h.up hup

end

/-! ## Accounting over whole runs -/

/-- **Semaphore accounting, and no wakeup is lost.**  After any interleaving of
`sema_down`, `sema_try_down` and `sema_up` the value is the initial value plus the
completed ups minus the completed downs, in the arithmetic of `unsigned`.  While a
thread sleeps on the wait list, the value is at most the number of threads that were
unblocked and have not resumed, so a positive value comes with a woken thread. -/
theorem value_accounted (value : UInt32) {labels : List SemaLabel} {s : SemaSystem}
    (hrun : Run (fun s l u => next s l = some u) (init value) labels s) :
    s.downs ≤ value.toNat + s.ups ∧ s.sema.value.toNat = (value.toNat + s.ups - s.downs) % 2 ^ 32 ∧
      (s.sema.waiters ≠ [] → s.sema.value.toNat ≤ {t | s.Woken t}.ncard) ∧
      (∀ t, s.Sleeping t ↔ t ∈ s.sema.waiters) ∧
      (∀ t, s.Sleeping t → 0 < s.sema.value → ∃ u, s.Woken u) := by
  have h : s.Accounted value :=
    hrun.invariant (accounted_init value) fun _ _ _ hs hnext => hs.next hnext
  obtain ⟨wraps, hbalance⟩ := h.balance
  have hlt := s.sema.value.toNat_lt
  refine ⟨by omega, ?_, h.bound, fun t => (h.waiting t).symm, ?_⟩
  · have hsplit : value.toNat + s.ups - s.downs = s.sema.value.toNat + 2 ^ 32 * wraps := by omega
    rw [hsplit, Nat.add_mul_mod_self_left, Nat.mod_eq_of_lt hlt]
  · intro t ht hpos
    have hmem : t ∈ s.sema.waiters := (h.waiting t).mpr ht
    have hbound := h.bound (ne_nil_of_mem hmem)
    have hcard : 0 < {t | s.Woken t}.ncard := lt_of_lt_of_le (UInt32.lt_iff_toNat_lt.mp hpos) hbound
    exact (Set.ncard_pos h.finite).mp hcard

/-- Thread 0 sleeps, thread 1 wakes it and takes the value before it resumes. -/
theorem value_accounted_barging :
    ∃ s : SemaSystem, s.Sleeping 0 ∧ s.downs ≤ (0 : UInt32).toNat + s.ups ∧
      s.sema.value.toNat = ((0 : UInt32).toNat + s.ups - s.downs) % 2 ^ 32 := by
  have hexec : ∃ s ∈ execute next (init 0) [.down 0, .up 1, .tryDown 1, .resume 0],
      s.Sleeping 0 := by decide
  obtain ⟨s, hrun, hsleeping⟩ := exists_run_of_execute (fun _ _ _ hstep => hstep) hexec
  have h := value_accounted 0 hrun
  exact ⟨s, hsleeping, h.1, h.2.1⟩

/-- The largest `unsigned` is raised to 0. -/
theorem value_wraps : ∃ labels s, Run (fun s l u => next s l = some u) (init 4294967295) labels s ∧
      s.sema.value.toNat ≠ (4294967295 : UInt32).toNat + s.ups - s.downs := by
  exact ⟨[.up 0], exists_run_of_execute (fun _ _ _ hstep => hstep) (by decide)⟩

end SemaSystem

end CS162
