import CS162.Threads.Semaphore

/-!
# Locks

A lock is a semaphore with initial value 1 and a `holder`.  `lock_acquire` writes
`holder` after `sema_down` has returned and `lock_release` clears it before it calls
`sema_up`, both with interrupts on, so between the two writes and the two semaphore
operations other threads may run.  Each of these is a step of its own here, and so is
the test of an assertion.

## Strategy

A thread is *inside* from the moment it has taken the semaphore's value to the moment
it gives the value back, and it *owns* the lock from the write of `holder` to the
write that clears it.  `LockExclusive` says what a lock keeps for these two notions; it
names no program counter, and there is one rule for each write to the lock, so that
any system of threads can use it.
-/

namespace CS162

open Library Function List

/-- `struct lock`. -/
structure Lock where
  holder : Option Tid
  semaphore : Semaphore
  deriving DecidableEq

def lockInit : Lock := ⟨none, semaInit 1⟩

def lockHeldByCurrentThread (lock : Lock) (t : Tid) : Bool := decide (lock.holder = some t)

/-! ## What a lock keeps -/

/-- The threads that are inside and the one that owns the lock, as the lock has it. -/
structure LockExclusive (lock : Lock) (inside owns : Tid → Prop) : Prop where
  unique : ∀ t u, inside t → inside u → t = u
  holder : ∀ t, lock.holder = some t ↔ owns t
  owns_inside : ∀ t, owns t → inside t
  value : lock.semaphore.value = 0 ∨ lock.semaphore.value = 1
  free : lock.semaphore.value = 1 → ∀ t, ¬ inside t

namespace LockExclusive

variable {lock : Lock} {inside owns inside' owns' : Tid → Prop} {t : Tid}

theorem init (hfree : ∀ t, ¬ inside t) (howns : ∀ t, ¬ owns t) :
    LockExclusive lockInit inside owns where
  unique t _ ht := absurd ht (hfree t)
  holder t := by simp [lockInit, howns t]
  owns_inside t ht := absurd ht (howns t)
  value := .inr rfl
  free _ := hfree

section

variable (h : LockExclusive lock inside owns)
include h

theorem waiters (list : List Tid) :
    LockExclusive { lock with semaphore := ⟨lock.semaphore.value, list⟩ } inside owns :=
  ⟨h.unique, h.holder, h.owns_inside, h.value, h.free⟩

theorem congr (hinside : ∀ x, inside' x ↔ inside x)
    (howns : ∀ x, owns' x ↔ owns x) : LockExclusive lock inside' owns' := by
  have hin : inside' = inside := funext fun x => propext (hinside x)
  have hown : owns' = owns := funext fun x => propext (howns x)
  rwa [hin, hown]

theorem take (hvalue : lock.semaphore.value ≠ 0) (hinside : ∀ x, inside' x ↔ inside x ∨ x = t) :
    LockExclusive
      { lock with semaphore := { lock.semaphore with value := lock.semaphore.value - 1 } }
      inside' owns := by
  have hone : lock.semaphore.value = 1 := h.value.resolve_left hvalue
  have hself : ∀ x, inside' x → x = t := by
    intro x hx
    exact ((hinside x).mp hx).resolve_left (h.free hone x)
  constructor
  · intro x y hx hy
    rw [hself x hx, hself y hy]
  · exact h.holder
  · intro x hx
    exact (hinside x).mpr (.inl (h.owns_inside x hx))
  · left
    rw [hone]
    rfl
  · intro hvalue'
    have hpred : lock.semaphore.value - 1 = 1 := hvalue'
    rw [hone] at hpred
    exact absurd hpred (by decide)

theorem setHolder (ht : inside t)
    (howns : ∀ x, owns' x ↔ x = t) : LockExclusive { lock with holder := some t } inside owns' where
  unique := h.unique
  holder x := by simp [howns x, eq_comm]
  owns_inside x hx := by rwa [(howns x).mp hx]
  value := h.value
  free := h.free

theorem clearHolder (howns : ∀ x, ¬ owns' x) :
    LockExclusive { lock with holder := none } inside owns' where
  unique := h.unique
  holder x := by simp [howns x]
  owns_inside x hx := absurd hx (howns x)
  value := h.value
  free := h.free

/-- A thread inside that does not own the lock gives the value back. -/
theorem give (ht : inside t) (hnot : ¬ owns t)
    (hinside : ∀ x, inside' x ↔ inside x ∧ x ≠ t) (list : List Tid) :
    LockExclusive { lock with semaphore := ⟨lock.semaphore.value + 1, list⟩ } inside' owns := by
  have hzero : lock.semaphore.value = 0 := h.value.resolve_right fun hone => h.free hone t ht
  have hnone : ∀ x, ¬ inside' x := by
    intro x hx
    obtain ⟨hin, hne⟩ := (hinside x).mp hx
    exact hne (h.unique x t hin ht)
  constructor
  · exact fun x _ hx => absurd hx (hnone x)
  · exact h.holder
  · intro x hx
    have hxt : x = t := h.unique x t (h.owns_inside x hx) ht
    exact absurd (hxt ▸ hx) hnot
  · right
    rw [hzero]
    rfl
  · exact fun _ => hnone

theorem owns_eq (ht : inside t) {x : Tid} (hx : owns x) :
    x = t := h.unique x t (h.owns_inside x hx) ht

end

end LockExclusive

/-! ## Threads using one lock -/

/-- Where a thread is in the code of the lock's operations. -/
inductive LockPc where
  /-- Between two operations. -/
  | idle
  /-- In `lock_acquire`, at `sema_down`. -/
  | down
  /-- In `lock_try_acquire`, at `sema_try_down`. -/
  | tryDown
  /-- After the semaphore's value was taken, at the write of `holder`. -/
  | setHolder
  /-- In `lock_release`, at the write that clears `holder`. -/
  | clearHolder
  /-- In `lock_release`, at `sema_up`. -/
  | up
  deriving DecidableEq

/-- A thread that uses the lock. -/
structure LockThread where
  pc : LockPc
  /-- The thread has completed an acquire and not begun to undo it. -/
  owns : Bool
  deriving DecidableEq

namespace LockThread

/-- The thread has taken the semaphore's value and not given it back. -/
@[simp] def Inside (x : LockThread) : Prop := x.owns = true ∨ x.pc = .setHolder ∨ x.pc = .up

/-- An owner is between two operations or about to clear `holder`. -/
structure Agrees (x : LockThread) : Prop where
  clearing : x.pc = .clearHolder → x.owns = true
  working : x.pc ≠ .idle → x.pc ≠ .clearHolder → x.owns = false

end LockThread

/-- A lock and the threads that use it. -/
structure LockSystem where
  lock : Lock
  status : Tid → ThreadStatus
  threads : Tid → LockThread

/-- A thread calls an operation, or runs on inside one. -/
inductive LockLabel where
  | acquire (t : Tid)
  | tryAcquire (t : Tid)
  | release (t : Tid)
  | step (t : Tid)

namespace LockSystem

def init : LockSystem := ⟨lockInit, fun _ => .ready, fun _ => ⟨.idle, false⟩⟩

def put (s : LockSystem) (t : Tid) (x : LockThread) : LockSystem :=
  { s with threads := update s.threads t x }

@[simp] def goto (s : LockSystem) (t : Tid) (pc : LockPc) : LockSystem :=
  s.put t { s.threads t with pc := pc }

@[simp] def setSema (s : LockSystem) (sema : Semaphore) : LockSystem :=
  { s with lock := { s.lock with semaphore := sema } }

def setHolder (s : LockSystem) (holder : Option Tid) : LockSystem :=
  { s with lock := { s.lock with holder := holder } }

/-- The call of `sema_up` in `lock_release`. -/
def up (s : LockSystem) (t : Tid) : Option LockSystem :=
  match semaUp s.lock.semaphore with
  | (sema, none) => some ((s.setSema sema).goto t .idle)
  | (sema, some w) =>
    (threadUnblock s.status w).map fun status =>
      { (s.setSema sema).goto t .idle with status := status }

/-- The next step of a runnable thread inside an operation. -/
def step (s : LockSystem) (t : Tid) : Option LockSystem :=
  match (s.threads t).pc with
  | .idle => none
  | .down =>
    match semaDown s.lock.semaphore t with
    | (sema, true) => some ((s.setSema sema).goto t .setHolder)
    | (sema, false) => some { s.setSema sema with status := threadBlock s.status t }
  | .tryDown =>
    match semaTryDown s.lock.semaphore with
    | (sema, true) => some ((s.setSema sema).goto t .setHolder)
    | (sema, false) => some ((s.setSema sema).goto t .idle)
  | .setHolder => some ((s.setHolder (some t)).put t ⟨.idle, true⟩)
  | .clearHolder => some ((s.setHolder none).put t ⟨.up, false⟩)
  | .up => s.up t

/-- The thread is between two operations and may run. -/
def Idle (s : LockSystem) (t : Tid) : Prop := (s.threads t).pc = .idle ∧ s.status t = .ready

instance (s : LockSystem) (t : Tid) : Decidable (s.Idle t) :=
  inferInstanceAs (Decidable (_ ∧ _))

/-- The calls test their assertion first; a thread that would fail it does not call. -/
def next (s : LockSystem) : LockLabel → Option LockSystem
  | .acquire t =>
    if s.Idle t ∧ lockHeldByCurrentThread s.lock t = false then some (s.goto t .down) else none
  | .tryAcquire t =>
    if s.Idle t ∧ lockHeldByCurrentThread s.lock t = false then some (s.goto t .tryDown)
    else none
  | .release t =>
    if s.Idle t ∧ lockHeldByCurrentThread s.lock t = true then some (s.goto t .clearHolder)
    else none
  | .step t => if s.status t = .ready then s.step t else none

/-- What a step inside an operation can do. -/
inductive Moves (s : LockSystem) (t : Tid) : LockSystem → Prop
  | sleep (hpc : (s.threads t).pc = .down) : Moves s t
      { s.setSema { s.lock.semaphore with waiters := s.lock.semaphore.waiters ++ [t] } with
        status := update s.status t .blocked }
  | take (hpc : (s.threads t).pc = .down ∨ (s.threads t).pc = .tryDown)
      (hvalue : s.lock.semaphore.value ≠ 0) : Moves s t
      ((s.setSema { s.lock.semaphore with value := s.lock.semaphore.value - 1 }).goto t .setHolder)
  | fail (hpc : (s.threads t).pc = .tryDown) : Moves s t (s.goto t .idle)
  | setHolder (hpc : (s.threads t).pc = .setHolder) :
      Moves s t ((s.setHolder (some t)).put t ⟨.idle, true⟩)
  | clearHolder (hpc : (s.threads t).pc = .clearHolder) :
      Moves s t ((s.setHolder none).put t ⟨.up, false⟩)
  | raise (hpc : (s.threads t).pc = .up) :
      Moves s t ((s.setSema ⟨s.lock.semaphore.value + 1, []⟩).goto t .idle)
  | wake (w : Tid) (rest : List Tid) (hpc : (s.threads t).pc = .up)
      (hwaiters : s.lock.semaphore.waiters = w :: rest) : Moves s t
      { (s.setSema ⟨s.lock.semaphore.value + 1, rest⟩).goto t .idle with
        status := update s.status w .ready }

variable {s u : LockSystem} {t : Tid}

theorem moves_of_step (hstep : s.step t = some u) : Moves s t u := by
  cases hpc : (s.threads t).pc with
  | idle => simp [step, hpc] at hstep
  | down =>
    by_cases hvalue : s.lock.semaphore.value = 0
    · rw [step, hpc, semaDown, if_pos hvalue, Option.some.injEq] at hstep
      exact hstep ▸ .sleep hpc
    · rw [step, hpc, semaDown, if_neg hvalue, Option.some.injEq] at hstep
      exact hstep ▸ .take (.inl hpc) hvalue
  | tryDown =>
    by_cases hvalue : s.lock.semaphore.value > 0
    · rw [step, hpc, semaTryDown, if_pos hvalue, Option.some.injEq] at hstep
      exact hstep ▸ .take (.inr hpc) (UInt32.pos_iff_ne_zero.mp hvalue)
    · rw [step, hpc, semaTryDown, if_neg hvalue, Option.some.injEq] at hstep
      exact hstep ▸ .fail hpc
  | setHolder =>
    rw [step, hpc, Option.some.injEq] at hstep
    exact hstep ▸ .setHolder hpc
  | clearHolder =>
    rw [step, hpc, Option.some.injEq] at hstep
    exact hstep ▸ .clearHolder hpc
  | up =>
    cases hwaiters : s.lock.semaphore.waiters with
    | nil =>
      rw [step, hpc, up, semaUp, hwaiters, Option.some.injEq] at hstep
      exact hstep ▸ .raise hpc
    | cons w rest =>
      simp only [step, hpc, up, semaUp, hwaiters, threadUnblock, Option.map_eq_some_iff] at hstep
      obtain ⟨status, hstatus, rfl⟩ := hstep
      obtain ⟨-, hstatus⟩ := Option.ite_none_right_eq_some.mp hstatus
      exact Option.some.inj hstatus ▸ .wake w rest hpc hwaiters

/-! ## The invariant of the threads -/

/-- What holds in every state: the lock is exclusive, and the program counters agree
with who owns it. -/
structure Disciplined (s : LockSystem) : Prop where
  exclusive : LockExclusive s.lock (fun t => (s.threads t).Inside)
    (fun t => (s.threads t).owns = true)
  agrees : ∀ t, (s.threads t).Agrees
  nodup : s.lock.semaphore.waiters.Nodup
  waiting : ∀ t ∈ s.lock.semaphore.waiters, s.status t = .blocked

theorem disciplined_init : init.Disciplined where
  exclusive := LockExclusive.init (by simp [init]) (by simp [init])
  agrees _ := ⟨by simp [init], by simp [init]⟩
  nodup := nodup_nil
  waiting t h := by simp [init, lockInit, semaInit] at h

section

variable (h : s.Disciplined)
include h

/-- The lock is written to and one thread changes. -/
theorem Disciplined.put {y : LockThread} {inside owns : Tid → Prop}
    (hthreads : u.threads = update s.threads t y) (hlock : LockExclusive u.lock inside owns)
    (hself : (y.Inside ↔ inside t) ∧ (y.owns = true ↔ owns t))
    (hother : ∀ x ≠ t, ((s.threads x).Inside ↔ inside x) ∧ ((s.threads x).owns = true ↔ owns x))
    (hagrees : y.Agrees) (hnodup : u.lock.semaphore.waiters.Nodup)
    (hwaiting : ∀ x ∈ u.lock.semaphore.waiters, u.status x = .blocked) : u.Disciplined := by
  have hall : ∀ x, ((u.threads x).Inside ↔ inside x) ∧ ((u.threads x).owns = true ↔ owns x) := by
    rw [hthreads]
    exact (forall_update_iff s.threads fun x z =>
      (z.Inside ↔ inside x) ∧ (z.owns = true ↔ owns x)).mpr ⟨hself, hother⟩
  refine ⟨hlock.congr (fun x => (hall x).1) fun x => (hall x).2, ?_, hnodup, hwaiting⟩
  rw [hthreads]
  exact (forall_update_iff s.threads fun _ z => z.Agrees).mpr ⟨hagrees, fun x _ => h.agrees x⟩

theorem Disciplined.goto {pc : LockPc}
    (hinside : LockThread.Inside ⟨pc, (s.threads t).owns⟩ ↔ (s.threads t).Inside)
    (hagrees : LockThread.Agrees ⟨pc, (s.threads t).owns⟩) : (s.goto t pc).Disciplined :=
  h.put rfl h.exclusive ⟨hinside, Iff.rfl⟩ (fun _ _ => ⟨Iff.rfl, Iff.rfl⟩) hagrees h.nodup h.waiting

/-- A thread takes the value and goes on to the write of `holder`. -/
theorem Disciplined.take (hvalue : s.lock.semaphore.value ≠ 0) (hown : (s.threads t).owns = false) :
    ((s.setSema { s.lock.semaphore with value := s.lock.semaphore.value - 1 }).goto t
      .setHolder).Disciplined := by
  apply h.put rfl (h.exclusive.take (t := t) hvalue fun _ => Iff.rfl)
  · exact ⟨by simp, Iff.rfl⟩
  · exact fun x hx => ⟨by simp [hx], Iff.rfl⟩
  · exact ⟨by simp, fun _ _ => hown⟩
  · exact h.nodup
  · exact h.waiting

theorem Disciplined.sleep (hstatus : s.status t = .ready) :
    { s.setSema { s.lock.semaphore with waiters := s.lock.semaphore.waiters ++ [t] } with
      status := update s.status t .blocked : LockSystem }.Disciplined where
  exclusive := h.exclusive.waiters _
  agrees := h.agrees
  nodup := by
    have hnew : t ∉ s.lock.semaphore.waiters := by
      intro hmem
      have hblocked := h.waiting t hmem
      rw [hstatus] at hblocked
      cases hblocked
    exact concat_eq_append ▸ h.nodup.concat hnew
  waiting x hx := by
    by_cases hxt : x = t
    · simp [hxt]
    · have hold : x ∈ s.lock.semaphore.waiters := by simpa [hxt] using hx
      simpa [hxt] using h.waiting x hold

theorem Disciplined.not_owns (ht : (s.threads t).Inside) {x : Tid} (hx : x ≠ t) :
    (s.threads x).owns ≠ true := fun hown => hx (h.exclusive.owns_eq ht hown)

theorem Disciplined.setHolder (hpc : (s.threads t).pc = .setHolder) :
    ((s.setHolder (some t)).put t ⟨.idle, true⟩).Disciplined := by
  have hinside : (s.threads t).Inside := .inr (.inl hpc)
  apply h.put rfl (h.exclusive.setHolder hinside fun _ => Iff.rfl)
  · simpa using hinside
  · exact fun x hx => ⟨Iff.rfl, by simpa [hx] using h.not_owns hinside hx⟩
  · exact ⟨by simp, by simp⟩
  · exact h.nodup
  · exact h.waiting

theorem Disciplined.clearHolder (hpc : (s.threads t).pc = .clearHolder) :
    ((s.setHolder none).put t ⟨.up, false⟩).Disciplined := by
  have hinside : (s.threads t).Inside := .inl ((h.agrees t).clearing hpc)
  apply h.put rfl (h.exclusive.clearHolder fun _ : Tid => not_false)
  · simpa using hinside
  · exact fun x hx => ⟨Iff.rfl, by simpa using h.not_owns hinside hx⟩
  · exact ⟨by simp, fun _ _ => rfl⟩
  · exact h.nodup
  · exact h.waiting

/-- `sema_up` gives the value back; a waiter may have become ready. -/
theorem Disciplined.give (hpc : (s.threads t).pc = .up) {list : List Tid}
    (status : Tid → ThreadStatus) (hnodup : list.Nodup)
    (hwaiting : ∀ x ∈ list, status x = .blocked) :
    { (s.setSema ⟨s.lock.semaphore.value + 1, list⟩).goto t .idle with
      status := status : LockSystem }.Disciplined := by
  have hown : (s.threads t).owns = false := (h.agrees t).working (by simp [hpc]) (by simp [hpc])
  apply h.put rfl (h.exclusive.give (t := t) (.inr (.inr hpc)) (by simp [hown])
    (fun _ => Iff.rfl) list)
  · exact ⟨by simp [hown], Iff.rfl⟩
  · exact fun x hx => ⟨by simp [hx], Iff.rfl⟩
  · exact ⟨by simp, by simp⟩
  · exact hnodup
  · exact hwaiting

theorem Disciplined.step (hstatus : s.status t = .ready)
    (hstep : s.step t = some u) : u.Disciplined := by
  cases moves_of_step hstep with
  | sleep => exact h.sleep hstatus
  | take hpc hvalue =>
    exact h.take hvalue ((h.agrees t).working (by rcases hpc with h | h <;> simp [h])
      (by rcases hpc with h | h <;> simp [h]))
  | fail hpc => exact h.goto (by simp [hpc]) ⟨by simp, by simp⟩
  | setHolder hpc => exact h.setHolder hpc
  | clearHolder hpc => exact h.clearHolder hpc
  | raise hpc => exact h.give hpc s.status nodup_nil (by simp)
  | wake w rest hpc hwaiters =>
    have hnodup := h.nodup
    rw [hwaiters, nodup_cons] at hnodup
    apply h.give hpc _ hnodup.2
    intro x hx
    have hne : x ≠ w := fun hxw => hnodup.1 (hxw ▸ hx)
    rw [update_of_ne hne]
    exact h.waiting x (by simp [hwaiters, hx])

/-- The assertions of the calls read `holder`, which tells who owns the lock. -/
theorem Disciplined.held_iff (t : Tid) :
    lockHeldByCurrentThread s.lock t = true ↔ (s.threads t).owns = true := by
  rw [lockHeldByCurrentThread, decide_eq_true_iff]
  exact h.exclusive.holder t

theorem Disciplined.next {l : LockLabel} (hnext : s.next l = some u) : u.Disciplined := by
  cases l with
  | acquire t | tryAcquire t =>
    obtain ⟨⟨hidle, hheld⟩, ⟨⟩⟩ := Option.ite_none_right_eq_some.mp hnext
    have hown : (s.threads t).owns = false := by
      rwa [← Bool.not_eq_true, ← h.held_iff t, Bool.not_eq_true]
    exact h.goto (by simp [hidle.1]) ⟨by simp, fun _ _ => hown⟩
  | release t =>
    obtain ⟨⟨hidle, hheld⟩, ⟨⟩⟩ := Option.ite_none_right_eq_some.mp hnext
    have hown : (s.threads t).owns = true := (h.held_iff t).mp hheld
    exact h.goto (by simp [hidle.1]) ⟨fun _ => hown, by simp⟩
  | step t =>
    obtain ⟨hstatus, hstep⟩ := Option.ite_none_right_eq_some.mp hnext
    exact h.step hstatus hstep

/-- A runnable thread inside an operation is never stuck: no assertion fails there. -/
theorem Disciplined.step_isSome (hpc : (s.threads t).pc ≠ .idle) : (s.step t).isSome := by
  cases hcase : (s.threads t).pc with
  | idle => exact absurd hcase hpc
  | down =>
    by_cases hvalue : s.lock.semaphore.value = 0 <;> simp [LockSystem.step, hcase, semaDown, hvalue]
  | tryDown =>
    by_cases hvalue : s.lock.semaphore.value > 0 <;>
      simp [LockSystem.step, hcase, semaTryDown, hvalue]
  | setHolder | clearHolder => simp [LockSystem.step, hcase]
  | up =>
    cases hwaiters : s.lock.semaphore.waiters with
    | nil => simp [LockSystem.step, hcase, LockSystem.up, semaUp, hwaiters]
    | cons w rest =>
      have hblocked := h.waiting w (by simp [hwaiters])
      simp [LockSystem.step, hcase, LockSystem.up, semaUp, hwaiters, threadUnblock, hblocked]

end

/-! ## Mutual exclusion over whole runs -/

/-- **Mutual exclusion.**  After any interleaving of `lock_acquire`,
`lock_try_acquire` and `lock_release` by threads that obey the assertions, at most one
thread is between taking the semaphore's value and giving it back, the value is 0 or 1,
and `holder` is exactly the thread between a completed acquire and its release. -/
theorem lock_mutual_exclusion {labels : List LockLabel} {s : LockSystem}
    (hrun : Run (fun s l u => next s l = some u) init labels s) :
    (∀ t u, (s.threads t).Inside → (s.threads u).Inside → t = u) ∧
      (∀ t u, (s.threads t).owns = true → (s.threads u).owns = true → t = u) ∧
      (s.lock.semaphore.value = 0 ∨ s.lock.semaphore.value = 1) ∧
      (∀ t, s.lock.holder = some t ↔ (s.threads t).owns = true) ∧
      (∀ t, lockHeldByCurrentThread s.lock t = true ↔ (s.threads t).owns = true) := by
  have h : s.Disciplined := hrun.invariant disciplined_init fun _ _ _ hs hnext => hs.next hnext
  refine ⟨h.exclusive.unique, ?_, h.exclusive.value, h.exclusive.holder, h.held_iff⟩
  intro t u ht hu
  exact h.exclusive.unique t u (h.exclusive.owns_inside t ht) (h.exclusive.owns_inside u hu)

/-- Thread 1 sleeps while thread 0 owns the lock, and owns it after thread 0. -/
theorem lock_mutual_exclusion_handover : ∃ s : LockSystem, (s.threads 1).owns = true ∧
      ∀ t, s.lock.holder = some t ↔ (s.threads t).owns = true := by
  have hexec : ∃ s ∈ execute next init [.acquire 0, .step 0, .acquire 1, .step 1, .step 0,
      .release 0, .step 0, .step 0, .step 1, .step 1], (s.threads 1).owns = true := by decide
  obtain ⟨s, hrun, howns⟩ := exists_run_of_execute (fun _ _ _ hstep => hstep) hexec
  exact ⟨s, howns, (lock_mutual_exclusion hrun).2.2.2.1⟩

end LockSystem

end CS162
