import CS162.Block
import CS162.Threads.Lock

/-!
# Condition variables

`cond_wait`, `cond_signal` and `cond_broadcast` of `synch.c`, used by threads that hold the
lock of the condition variable.  Each wait has a semaphore of its own on the stack of the
waiting thread.  A wait joins the list, releases the lock, sleeps on its semaphore and takes
the lock again; other threads may run between any two of these.

`CondSystem` extends the threads of one lock by a condition variable.  A thread that is in
the middle of a lock operation goes on with it as in `LockSystem`; what it does when the
operation is over is given by its place in the code of the condition variable.

## Strategy

`entered`, `signalled` and `returned` list the threads as they join the list of waiters, are
taken off it and return.  Between the first and the last of these a wait has one ticket: it
is on the list, or the thread that has taken it off is about to call `sema_up`, or its
semaphore has the value 1.  A thread passes `sema_down` only by using up the ticket.
-/

namespace CS162

open Library Function List

/-- Where a thread is in the code of the condition variable.  A place after the call of a
lock operation is reached with the call; the thread goes on from there when the operation is
over. -/
inductive CondPc where
  /-- In none of the functions. -/
  | outside
  /-- In `cond_wait`, at `sema_init` and `list_push_back`. -/
  | enqueue
  /-- In `cond_wait`, at the call of `lock_release`. -/
  | releasing
  /-- In `cond_wait`, at `sema_down`. -/
  | sleeping
  /-- In `cond_wait`, at the call of `lock_acquire`. -/
  | acquiring
  /-- At the end of `cond_wait`. -/
  | returning
  /-- In `cond_broadcast`, at the test of the loop. -/
  | broadcast
  /-- In `cond_signal`, called by `cond_broadcast` or not. -/
  | signal (all : Bool)
  /-- In `cond_signal`, at `sema_up` for thread `w`. -/
  | wake (w : Tid) (all : Bool)
  deriving DecidableEq

/-- A lock, a condition variable and the threads that use them. -/
structure CondSystem extends LockSystem where
  /-- The member of `struct condition`: the threads whose `semaphore_elem` is on the list. -/
  waiters : List Tid
  /-- The semaphore in the frame of each thread's `cond_wait`. -/
  sema : Tid → Semaphore
  pc : Tid → CondPc
  /-- The waits that have joined the list. -/
  entered : List Tid
  /-- The waits that `cond_signal` has taken off the list. -/
  signalled : List Tid
  /-- The waits that have returned. -/
  returned : List Tid

/-- A thread calls an operation, or runs on inside one. -/
inductive CondLabel where
  | acquire (t : Tid)
  | tryAcquire (t : Tid)
  | release (t : Tid)
  | wait (t : Tid)
  | signal (t : Tid)
  | broadcast (t : Tid)
  | step (t : Tid)
  deriving DecidableEq

namespace CondSystem

/-- The semaphores are on the threads' stacks and not initialised. -/
def init (sema : Tid → Semaphore) : CondSystem :=
  ⟨.init, [], sema, fun _ => .outside, [], [], []⟩

@[simp] def goto (s : CondSystem) (t : Tid) (pc : CondPc) : CondSystem :=
  { s with pc := update s.pc t pc }

def withLock (s : CondSystem) (lock : LockSystem) : CondSystem := { s with toLockSystem := lock }

@[simp] def setSema (s : CondSystem) (t : Tid) (sema : Semaphore) : CondSystem :=
  { s with sema := update s.sema t sema }

@[simp] def setStatus (s : CondSystem) (status : Tid → ThreadStatus) : CondSystem :=
  { s with status := status }

/-- A call of a lock operation in `cond_wait`; its assertion must hold. -/
def callLock (s : CondSystem) (l : LockLabel) (site : String) : Except Fault CondSystem :=
  match s.toLockSystem.next l with
  | none => .error (.panic site)
  | some lock => .ok (s.withLock lock)

def caller (all : Bool) : CondPc := if all then .broadcast else .outside

/-- Joins the list. -/
def enqueue (s : CondSystem) (t : Tid) : CondSystem :=
  { s.setSema t (semaInit 0) with
    waiters := s.waiters ++ [t], entered := s.entered ++ [t] }

/-- `sema_down (&waiter.semaphore)`. -/
def down (s : CondSystem) (t : Tid) : CondSystem :=
  match semaDown (s.sema t) t with
  | (sema, true) => (s.setSema t sema).goto t .acquiring
  | (sema, false) => (s.setSema t sema).setStatus (threadBlock s.status t)

/-- `sema_up` on the semaphore of `w`. -/
def up (s : CondSystem) (w : Tid) : Except Fault CondSystem :=
  match semaUp (s.sema w) with
  | (sema, none) => .ok (s.setSema w sema)
  | (sema, some x) =>
    match threadUnblock s.status x with
    | none => .error (.panic "thread_unblock")
    | some status => .ok ((s.setSema w sema).setStatus status)

/-- The next step of a thread that is not inside a lock operation. -/
def proceed (s : CondSystem) (t : Tid) : Except Fault (Option CondSystem) :=
  match s.pc t with
  | .outside => .ok none
  | .enqueue => .ok (some ((s.enqueue t).goto t .releasing))
  | .releasing => do
      let s ← s.callLock (.release t) "lock_release"
      return some (s.goto t .sleeping)
  | .sleeping => .ok (some (s.down t))
  | .acquiring => do
      let s ← s.callLock (.acquire t) "lock_acquire"
      return some (s.goto t .returning)
  | .returning => .ok (some ({ s with returned := s.returned ++ [t] }.goto t .outside))
  | .broadcast =>
    match s.waiters with
    | [] => .ok (some (s.goto t .outside))
    | _ :: _ => .ok (some (s.goto t (.signal true)))
  | .signal all =>
    if lockHeldByCurrentThread s.lock t then
      match s.waiters with
      | [] => .ok (some (s.goto t (caller all)))
      | w :: rest =>
        .ok (some ({ s with waiters := rest, signalled := s.signalled ++ [w] }.goto t
          (.wake w all)))
    else .error (.panic "cond_signal")
  | .wake w all => do
      let s ← s.up w
      return some (s.goto t (caller all))

/-- The thread may call an operation that asserts that it holds the lock. -/
def MayCall (s : CondSystem) (t : Tid) : Prop :=
  s.pc t = .outside ∧ s.Idle t ∧ lockHeldByCurrentThread s.lock t = true

instance (s : CondSystem) (t : Tid) : Decidable (s.MayCall t) :=
  inferInstanceAs (Decidable (_ ∧ _ ∧ _))

/-- A thread in none of the functions calls a lock operation. -/
def callOutside (s : CondSystem) (t : Tid) (l : LockLabel) : Option CondSystem :=
  if s.pc t = .outside then (s.toLockSystem.next l).map s.withLock else none

/-- A thread that holds the lock calls a function of the condition variable. -/
def enter (s : CondSystem) (t : Tid) (pc : CondPc) : Option CondSystem :=
  if s.MayCall t then some (s.goto t pc) else none

/-- What a label does; nothing if it is not possible.  Only a thread that holds the lock
calls a function of the condition variable, and only one that does not hold it acquires
it. -/
def apply (s : CondSystem) : CondLabel → Except Fault (Option CondSystem)
  | .acquire t => .ok (s.callOutside t (.acquire t))
  | .tryAcquire t => .ok (s.callOutside t (.tryAcquire t))
  | .release t => .ok (s.callOutside t (.release t))
  | .wait t => .ok (s.enter t .enqueue)
  | .signal t => .ok (s.enter t (.signal false))
  | .broadcast t => .ok (s.enter t .broadcast)
  | .step t =>
    if s.status t = .ready then
      if (s.threads t).pc = .idle then s.proceed t
      else
        match s.toLockSystem.step t with
        | none => .error (.panic "thread_unblock")
        | some lock => .ok (some (s.withLock lock))
    else .ok none

/-- The next state, if there is one. -/
def next (s : CondSystem) (l : CondLabel) : Option CondSystem :=
  match s.apply l with
  | .ok s' => s'
  | .error _ => none

def Step (s : CondSystem) (l : CondLabel) (s' : CondSystem) : Prop := s.next l = some s'

theorem step_iff {s s' : CondSystem} {l : CondLabel} : Step s l s' ↔ s.apply l = .ok (some s') := by
  unfold Step next
  split
  · next r hr => rw [hr, Except.ok.injEq]
  · next e he => simp [he]

end CondSystem

/-! ## What a place says about the lock -/

namespace CondPc

/-- The wait is on the list or has a signal that it has not used. -/
def pending : CondPc → Bool
  | releasing | sleeping => true
  | _ => false

/-- The wait has joined the list and not returned. -/
def inWait : CondPc → Bool
  | releasing | sleeping | acquiring | returning => true
  | _ => false

/-- The thread that is about to be given a signal. -/
def wakes : CondPc → Option Tid
  | wake w _ => some w
  | _ => none

/-- The places of `cond_broadcast`. -/
def inBroadcast : CondPc → Bool
  | broadcast | signal true | wake _ true => true
  | _ => false

/-- What the thread is doing with the lock. -/
@[simp] def Agrees (x : LockThread) : CondPc → Prop
  | outside => True
  | enqueue | releasing | broadcast | signal _ | wake _ _ => x.pc = .idle ∧ x.owns = true
  | sleeping => x.pc = .clearHolder ∨ x.pc = .up ∨ x.pc = .idle ∧ x.owns = false
  | acquiring => x.pc = .idle ∧ x.owns = false
  | returning => x.pc = .down ∨ x.pc = .setHolder ∨ x.pc = .idle ∧ x.owns = true

theorem inBroadcast_cases {pc : CondPc} (h : pc.inBroadcast = true) :
    pc = broadcast ∨ pc = signal true ∨ ∃ w, pc = wake w true := by
  cases pc with
  | broadcast => exact .inl rfl
  | signal all =>
    cases all with
    | false => cases h
    | true => exact .inr (.inl rfl)
  | wake w all =>
    cases all with
    | false => cases h
    | true => exact .inr (.inr ⟨w, rfl⟩)
  | _ => cases h

/-- The two places are in the same part of a wait and of a signal. -/
def Like (pc pc' : CondPc) : Prop :=
  pc.pending = pc'.pending ∧ pc.wakes = pc'.wakes ∧ pc.inWait = pc'.inWait

theorem Agrees.ne_down {x : LockThread} {pc : CondPc} (h : pc.Agrees x) (hpc : pc.pending = true) :
    x.pc ≠ .down := by
  cases pc <;> simp_all [pending]
  rcases h with h | h | h <;> simp [h]

end CondPc

/-! ## One step of the lock -/

namespace LockSystem

variable {s u : LockSystem} {t : Tid}

/-- What a step inside a lock operation leaves alone: the other threads, and the status of
those that are not at `sema_down`.  The thread itself can only go to sleep at `sema_down`. -/
structure Leaves (s u : LockSystem) (t : Tid) : Prop where
  threads : ∀ x, x ≠ t → u.threads x = s.threads x
  status : ∀ x, (s.threads x).pc ≠ .down → u.status x = s.status x
  queued : ∀ x ∈ u.lock.semaphore.waiters, (u.threads x).pc = .down
  asleep : u.status t = .blocked → (u.threads t).pc = .down

/-- Every thread on the wait list is at `sema_down`. -/
def Queued (s : LockSystem) : Prop :=
  ∀ x ∈ s.lock.semaphore.waiters, (s.threads x).pc = .down

section

variable (h : s.Disciplined) (hqueued : s.Queued) (hready : s.status t = .ready)
include h hqueued hready

theorem Leaves.of_update {y : LockThread} (hthreads : u.threads = update s.threads t y)
    (hstatus : ∀ x, x ∉ s.lock.semaphore.waiters → u.status x = s.status x)
    (hsubset : u.lock.semaphore.waiters ⊆ s.lock.semaphore.waiters) : Leaves s u t := by
  have hnot : t ∉ s.lock.semaphore.waiters := by
    intro hmem
    have hblocked := h.waiting t hmem
    rw [hready] at hblocked
    cases hblocked
  constructor
  · intro x hx
    rw [hthreads, update_of_ne hx]
  · intro x hx
    exact hstatus x fun hmem => hx (hqueued x hmem)
  · intro x hx
    have hne : x ≠ t := fun heq => hnot (heq ▸ hsubset hx)
    rw [hthreads, update_of_ne hne]
    exact hqueued x (hsubset hx)
  · intro hblocked
    rw [hstatus t hnot, hready] at hblocked
    cases hblocked

/-- The assertion of the call holds and the thread is at the start of the operation. -/
theorem leaves_goto (pc : LockPc) : Leaves s (s.goto t pc) t :=
  .of_update h hqueued hready rfl (fun _ _ => rfl) (List.Subset.refl _)

theorem leaves_step (hstep : s.step t = some u) : Leaves s u t := by
  cases moves_of_step hstep with
  | sleep hpc =>
    refine ⟨fun _ _ => rfl, ?_, ?_, fun _ => hpc⟩
    · intro x hx
      have hne : x ≠ t := fun heq => hx (heq ▸ hpc)
      exact update_of_ne hne _ _
    · intro x hx
      rcases mem_append.mp hx with hold | hnew
      · exact hqueued x hold
      · rwa [mem_singleton.mp hnew]
  | take | fail | setHolder | clearHolder =>
    exact .of_update h hqueued hready rfl (fun _ _ => rfl) (List.Subset.refl _)
  | raise => exact .of_update h hqueued hready rfl (fun _ _ => rfl) (nil_subset _)
  | wake w rest _ hwaiters =>
    apply Leaves.of_update h hqueued hready rfl
    · intro x hx
      rw [hwaiters] at hx
      exact update_of_ne (ne_of_not_mem_cons hx) _ _
    · rw [hwaiters]
      exact subset_cons_self w rest

end

/-- A step inside a lock operation brings the thread on, as its place expects. -/
theorem agrees_step (h : s.Disciplined) {pc : CondPc} (hagrees : pc.Agrees (s.threads t))
    (hstep : s.step t = some u) : pc.Agrees (u.threads t) := by
  cases moves_of_step hstep with
  | sleep => exact hagrees
  | fail hpc =>
    have houtside : pc = .outside := by cases pc <;> simp_all
    rw [houtside]
    trivial
  | take hpc | setHolder hpc =>
    have hreturning : pc = .outside ∨ pc = .returning := by cases pc <;> simp_all <;> grind
    rcases hreturning with rfl | rfl <;> simp [put]
  | clearHolder hpc =>
    have hsleeping : pc = .outside ∨ pc = .sleeping := by cases pc <;> simp_all
    rcases hsleeping with rfl | rfl <;> simp [put]
  | raise hpc | wake _ _ hpc =>
    have hsleeping : pc = .outside ∨ pc = .sleeping := by cases pc <;> simp_all
    have hown : (s.threads t).owns = false := (h.agrees t).working (by simp [hpc]) (by simp [hpc])
    rcases hsleeping with rfl | rfl <;> simp [put, hown]

theorem Disciplined.setStatus (h : s.Disciplined) {status : Tid → ThreadStatus}
    (hstatus : ∀ x ∈ s.lock.semaphore.waiters, status x = s.status x) :
    ({ s with status := status } : LockSystem).Disciplined where
  exclusive := h.exclusive
  agrees := h.agrees
  nodup := h.nodup
  waiting x hx := (hstatus x hx).trans (h.waiting x hx)

end LockSystem

namespace CondSystem

variable {s s' : CondSystem} {t : Tid} {pc : CondPc}

/-! ## The ticket of a wait -/

/-- A thread has taken `x` off the list and is about to call `sema_up` for it. -/
def Waking (s : CondSystem) (x : Tid) : Prop := ∃ u, (s.pc u).wakes = some x

/-- Where the ticket of a wait is: on the list, with a thread in `cond_signal`, or in the
semaphore of the wait. -/
inductive Ticket (queued waking : Prop) (value : UInt32) (status : ThreadStatus) : Prop
  | listed : queued → ¬ waking → value = 0 → Ticket queued waking value status
  | passing : ¬ queued → waking → value = 0 → Ticket queued waking value status
  | given : ¬ queued → ¬ waking → value = 1 → status = .ready → Ticket queued waking value status

/-- A wait that has not passed `sema_down`: its thread sleeps on its own semaphore or not at
all, and it has one ticket. -/
structure Waiting (s : CondSystem) (x : Tid) : Prop where
  asleep : (s.sema x).waiters = if s.status x = .blocked then [x] else []
  ticket : Ticket (x ∈ s.waiters) (s.Waking x) (s.sema x).value (s.status x)

theorem Waiting.congr {x : Tid} (h : s.Waiting x) (hsema : s'.sema x = s.sema x)
    (hstatus : s'.status x = s.status x) (hmem : x ∈ s'.waiters ↔ x ∈ s.waiters)
    (hwaking : s'.Waking x ↔ s.Waking x) : s'.Waiting x := by
  constructor
  · rw [hsema, hstatus]
    exact h.asleep
  · rw [hsema, hstatus, hmem, hwaking]
    exact h.ticket

/-- **The invariant.** -/
structure Sound (s : CondSystem) : Prop where
  lock : s.toLockSystem.Disciplined
  queued : s.toLockSystem.Queued
  agrees : ∀ x, (s.pc x).Agrees (s.threads x)
  awake : ∀ x, s.status x = .blocked → (s.threads x).pc = .down ∨ s.pc x = .sleeping
  waiting : ∀ x, (s.pc x).pending = true → s.Waiting x
  absent : ∀ x, (s.pc x).pending = false → x ∉ s.waiters ∧ ¬ s.Waking x
  nodup : s.waiters.Nodup
  order : s.entered = s.signalled ++ s.waiters
  counts : ∀ x, s.entered.count x = s.returned.count x + if (s.pc x).inWait then 1 else 0

theorem Sound.at (hs : s.Sound) (hpc : s.pc t = pc) : pc.Agrees (s.threads t) := hpc ▸ hs.agrees t

theorem Sound.init (sema : Tid → Semaphore) : (init sema).Sound where
  lock := LockSystem.disciplined_init
  queued _ hx := nomatch hx
  agrees _ := trivial
  awake _ h := nomatch h
  waiting _ h := nomatch h
  absent _ _ := ⟨not_mem_nil, fun ⟨_, h⟩ => nomatch h⟩
  nodup := nodup_nil
  order := rfl
  counts _ := rfl

/-! ## Steps that keep the tickets -/

theorem waking_goto (hwakes : pc.wakes = (s.pc t).wakes) (x : Tid) :
    (s.goto t pc).Waking x ↔ s.Waking x := by
  apply exists_congr
  intro u
  by_cases hu : u = t <;> simp [hu, hwakes]

theorem pending_update (hpending : pc.pending = (s.pc t).pending) (x : Tid) :
    (update s.pc t pc x).pending = (s.pc x).pending := by
  by_cases hx : x = t
  · rw [hx, update_self, hpending]
  · rw [update_of_ne hx]

theorem Sound.counts_update (hs : s.Sound) (hinWait : pc.inWait = (s.pc t).inWait) (x : Tid) :
    s.entered.count x = s.returned.count x + if (update s.pc t pc x).inWait then 1 else 0 := by
  rw [hs.counts x]
  by_cases hx : x = t
  · rw [hx, update_self, hinWait]
  · rw [update_of_ne hx]

/-- The lock makes a step and the thread may change its place. -/
theorem Sound.move (hs : s.Sound) {lock : LockSystem} (hlock : lock.Disciplined)
    (hleaves : s.toLockSystem.Leaves lock t) (hagrees : pc.Agrees (lock.threads t))
    (hlike : pc.Like (s.pc t)) : ((s.withLock lock).goto t pc).Sound := by
  have hpend : ∀ x, (((s.withLock lock).goto t pc).pc x).pending = (s.pc x).pending :=
    pending_update hlike.1
  have hwaking : ∀ x, ((s.withLock lock).goto t pc).Waking x ↔ s.Waking x :=
    waking_goto (s := s.withLock lock) hlike.2.1
  constructor
  · exact hlock
  · exact hleaves.queued
  · intro x
    by_cases hx : x = t
    · simpa [withLock, hx] using hagrees
    · simpa [withLock, hx, hleaves.threads x hx] using hs.agrees x
  · intro x hblocked
    by_cases hx : x = t
    · subst hx
      exact .inl (hleaves.asleep hblocked)
    · by_cases hdown : (s.threads x).pc = .down
      · exact .inl ((congrArg LockThread.pc (hleaves.threads x hx)).trans hdown)
      · have hold := hs.awake x ((hleaves.status x hdown).symm.trans hblocked)
        exact .inr (by simpa [withLock, hx] using hold.resolve_left hdown)
  · intro x hx
    rw [hpend] at hx
    exact (hs.waiting x hx).congr rfl (hleaves.status x ((hs.agrees x).ne_down hx)) Iff.rfl
      (hwaking x)
  · intro x hx
    rw [hpend] at hx
    rw [hwaking]
    exact hs.absent x hx
  · exact hs.nodup
  · exact hs.order
  · exact hs.counts_update hlike.2.2

theorem Sound.goto (hs : s.Sound) (hready : s.status t = .ready) (hagrees : pc.Agrees (s.threads t))
    (hlike : pc.Like (s.pc t)) : (s.goto t pc).Sound := by
  apply hs.move hs.lock ⟨fun _ _ => rfl, fun _ _ => rfl, hs.queued, _⟩ hagrees hlike
  intro hblocked
  rw [hready] at hblocked
  cases hblocked

/-- The thread calls a lock operation and its assertion holds. -/
theorem Sound.call (hs : s.Sound) {l : LockLabel} {start : LockPc} (hready : s.status t = .ready)
    (hcall : s.toLockSystem.next l = some (s.toLockSystem.goto t start))
    (hagrees : pc.Agrees ⟨start, (s.threads t).owns⟩) (hlike : pc.Like (s.pc t)) :
    ((s.withLock (s.toLockSystem.goto t start)).goto t pc).Sound := by
  apply hs.move (hs.lock.next hcall) (LockSystem.leaves_goto hs.lock hs.queued hready start) _ hlike
  simpa [LockSystem.put] using hagrees

theorem goto_self (s : CondSystem) (t : Tid) : s.goto t (s.pc t) = s := by
  simp

theorem Sound.lockStep (hs : s.Sound) {lock : LockSystem} (hready : s.status t = .ready)
    (hstep : s.toLockSystem.step t = some lock) : (s.withLock lock).Sound := by
  rw [← goto_self (s.withLock lock) t]
  exact hs.move (hs.lock.step hready hstep) (LockSystem.leaves_step hs.lock hs.queued hready hstep)
    (LockSystem.agrees_step hs.lock (hs.agrees t) hstep) ⟨rfl, rfl, rfl⟩

/-! ## Steps that pass a ticket on -/

theorem Sound.wakes_owns (hs : s.Sound) {u x : Tid} (h : (s.pc u).wakes = some x) :
    (s.threads u).owns = true := by
  have hagrees := hs.agrees u
  cases hpc : s.pc u <;> rw [hpc] at h hagrees <;> simp [CondPc.wakes] at h
  exact hagrees.2

theorem Sound.owner_unique (hs : s.Sound) {u : Tid} (ht : (s.threads t).owns = true)
    (hu : (s.threads u).owns = true) : u = t :=
  hs.lock.exclusive.unique u t (.inl hu) (.inl ht)

/-- While one thread has the lock, no other is in `cond_signal`. -/
theorem Sound.waking_iff (hs : s.Sound) (ht : (s.threads t).owns = true) (x : Tid) :
    s.Waking x ↔ (s.pc t).wakes = some x := by
  constructor
  · rintro ⟨u, hu⟩
    rwa [← hs.owner_unique ht (hs.wakes_owns hu)]
  · exact fun h => ⟨t, h⟩

theorem blocked_ne (hready : s.status t = .ready) {x : Tid} (hblocked : s.status x = .blocked) :
    x ≠ t := by
  rintro rfl
  exact absurd (hready.symm.trans hblocked) (by decide)

section

variable (hs : s.Sound)
include hs

theorem Sound.agrees_update (hagrees : pc.Agrees (s.threads t)) (x : Tid) :
    (update s.pc t pc x).Agrees (s.threads x) := by
  by_cases hx : x = t
  · rwa [hx, update_self]
  · rw [update_of_ne hx]
    exact hs.agrees x

theorem Sound.awake_update (hready : s.status t = .ready) (x : Tid)
    (hblocked : s.status x = .blocked) :
    (s.threads x).pc = .down ∨ update s.pc t pc x = .sleeping := by
  rw [update_of_ne (blocked_ne hready hblocked)]
  exact hs.awake x hblocked

/-- A thread that waits is not on the list of the lock. -/
theorem Sound.lock_update {w : Tid} (hpending : (s.pc w).pending = true) (status : ThreadStatus) :
    ({ s.toLockSystem with status := update s.status w status } : LockSystem).Disciplined := by
  apply hs.lock.setStatus
  intro x hx
  have hne : x ≠ w := by
    rintro rfl
    exact (hs.agrees x).ne_down hpending (hs.queued x hx)
  exact update_of_ne hne _ _

theorem Sound.enqueue (hready : s.status t = .ready) (hpc : s.pc t = .enqueue) :
    ((s.enqueue t).goto t .releasing).Sound := by
  obtain ⟨hnot, hnotWaking⟩ := hs.absent t (by rw [hpc]; rfl)
  have hwaking : ∀ x, ((s.enqueue t).goto t .releasing).Waking x ↔ s.Waking x :=
    waking_goto (s := s.enqueue t) (by simp [CondSystem.enqueue, hpc, CondPc.wakes])
  have hplace : ∀ x, x ≠ t → ((s.enqueue t).goto t .releasing).pc x = s.pc x := fun x hx =>
    update_of_ne hx _ _
  have hself : ((s.enqueue t).goto t .releasing).pc t = .releasing := update_self _ _ _
  have hmem : ∀ x, x ≠ t → (x ∈ s.waiters ++ [t] ↔ x ∈ s.waiters) := by
    intro x hx
    simp [hx]
  have hagrees := hs.at hpc
  refine { hs with
    agrees := hs.agrees_update hagrees, awake := hs.awake_update hready
    waiting := ?_, absent := ?_, nodup := ?_, order := ?_, counts := ?_ }
  · intro x hx
    by_cases hxt : x = t
    · subst hxt
      have hsema : ((s.enqueue x).goto x .releasing).sema x = semaInit 0 := update_self _ _ _
      refine ⟨?_, .listed ?_ ?_ ?_⟩
      · have hready' : ((s.enqueue x).goto x .releasing).status x = .ready := hready
        rw [hsema, hready']
        rfl
      · exact mem_append_right _ (mem_singleton_self x)
      · rwa [hwaking]
      · rw [hsema]
        rfl
    · rw [hplace x hxt] at hx
      exact (hs.waiting x hx).congr (update_of_ne hxt _ _) rfl (hmem x hxt) (hwaking x)
  · intro x hx
    have hxt : x ≠ t := by
      rintro rfl
      rw [hself] at hx
      cases hx
    rw [hplace x hxt] at hx
    rw [hwaking]
    exact ⟨(hmem x hxt).not.mpr (hs.absent x hx).1, (hs.absent x hx).2⟩
  · show (s.waiters ++ [t]).Nodup
    exact concat_eq_append ▸ hs.nodup.concat hnot
  · show s.entered ++ [t] = s.signalled ++ (s.waiters ++ [t])
    rw [hs.order, append_assoc]
  · intro x
    show (s.entered ++ [t]).count x = s.returned.count x + _
    rw [count_append, hs.counts x]
    by_cases hx : x = t
    · subst hx
      rw [hpc]
      simp [CondPc.inWait]
    · rw [hplace x hx]
      simp [Ne.symm hx]

theorem Sound.sleep (hready : s.status t = .ready) (hpc : s.pc t = .sleeping)
    (hvalue : (s.sema t).value = 0) :
    ((s.setSema t ⟨(s.sema t).value, (s.sema t).waiters ++ [t]⟩).setStatus
      (threadBlock s.status t)).Sound := by
  have hpending : (s.pc t).pending = true := by
    rw [hpc]
    rfl
  refine { hs with lock := hs.lock_update hpending _, awake := ?_, waiting := ?_ }
  · intro x hblocked
    by_cases hx : x = t
    · exact .inr (hx ▸ hpc)
    · exact hs.awake x ((update_of_ne hx _ _).symm.trans hblocked)
  intro x hx
  by_cases hxt : x = t
  · subst hxt
    obtain ⟨hasleep, hticket⟩ := hs.waiting x hx
    rw [hready] at hasleep
    refine ⟨?_, ?_⟩
    · simp [threadBlock, hasleep]
    have hvalue' : (((s.setSema x ⟨(s.sema x).value, (s.sema x).waiters ++ [x]⟩).setStatus
        (threadBlock s.status x)).sema x).value = 0 := by
      simp [hvalue]
    cases hticket with
    | listed hmem hnot _ => exact .listed hmem hnot hvalue'
    | passing hnot hwaking _ => exact .passing hnot hwaking hvalue'
    | given _ _ hone _ =>
      rw [hvalue] at hone
      cases hone
  · exact (hs.waiting x hx).congr (update_of_ne hxt _ _) (update_of_ne hxt _ _) Iff.rfl Iff.rfl

theorem Sound.pass (hready : s.status t = .ready) (hpc : s.pc t = .sleeping)
    (hidle : (s.threads t).pc = .idle) (hvalue : (s.sema t).value ≠ 0) (sema : Semaphore) :
    ((s.setSema t sema).goto t .acquiring).Sound := by
  have hpending : (s.pc t).pending = true := by
    rw [hpc]
    rfl
  have hwaking : ∀ x, ((s.setSema t sema).goto t .acquiring).Waking x ↔ s.Waking x :=
    waking_goto (s := s.setSema t sema) (by simp [hpc, CondPc.wakes])
  have hplace : ∀ x, x ≠ t → ((s.setSema t sema).goto t .acquiring).pc x = s.pc x := fun x hx =>
    update_of_ne hx _ _
  have hself : ((s.setSema t sema).goto t .acquiring).pc t = .acquiring := update_self _ _ _
  have hagrees : CondPc.acquiring.Agrees (s.threads t) := by simpa [hidle] using hs.at hpc
  refine { hs with
    agrees := hs.agrees_update hagrees, awake := hs.awake_update hready
    waiting := ?_, absent := ?_, counts := hs.counts_update (by rw [hpc]; rfl) }
  · intro x hx
    have hxt : x ≠ t := by
      rintro rfl
      rw [hself] at hx
      cases hx
    rw [hplace x hxt] at hx
    exact (hs.waiting x hx).congr (update_of_ne hxt _ _) rfl Iff.rfl (hwaking x)
  intro x hx
  rw [hwaking]
  by_cases hxt : x = t
  · subst hxt
    cases (hs.waiting x hpending).ticket with
    | listed _ _ hzero | passing _ _ hzero => exact absurd hzero hvalue
    | given hnot hnotWaking _ _ => exact ⟨hnot, hnotWaking⟩
  · rw [hplace x hxt] at hx
    exact hs.absent x hx

theorem Sound.return (hready : s.status t = .ready) (hpc : s.pc t = .returning) :
    ({ s with returned := s.returned ++ [t] }.goto t .outside).Sound := by
  have hpend : ∀ x, (update s.pc t .outside x).pending = (s.pc x).pending :=
    pending_update (by rw [hpc]; rfl)
  have hwaking : ∀ x, ({ s with returned := s.returned ++ [t] }.goto t .outside).Waking x ↔
      s.Waking x :=
    waking_goto (s := { s with returned := s.returned ++ [t] }) (by simp [hpc, CondPc.wakes])
  refine { hs with
    agrees := hs.agrees_update trivial, awake := hs.awake_update hready
    waiting := ?_, absent := ?_, counts := ?_ }
  · intro x hx
    exact (hs.waiting x ((hpend x).symm.trans hx)).congr rfl rfl Iff.rfl (hwaking x)
  · intro x hx
    rw [hwaking]
    exact hs.absent x ((hpend x).symm.trans hx)
  intro x
  show s.entered.count x = (s.returned ++ [t]).count x + if (update s.pc t _ x).inWait then 1 else 0
  rw [hs.counts x]
  by_cases hx : x = t
  · simp [hx, hpc, CondPc.inWait]
  · simp [hx, Ne.symm hx]

end

variable {all : Bool} {w : Tid}

theorem Sound.signal (hs : s.Sound) (hready : s.status t = .ready)
    (hpc : s.pc t = .signal all) {rest : List Tid} (hwaiters : s.waiters = w :: rest) :
    ({ s with waiters := rest, signalled := s.signalled ++ [w] }.goto t (.wake w all)).Sound := by
  have hagrees := hs.at hpc
  have hnodup := hs.nodup
  rw [hwaiters, nodup_cons] at hnodup
  have hpend : ∀ x, (update s.pc t (.wake w all) x).pending = (s.pc x).pending :=
    pending_update (by rw [hpc]; rfl)
  -- nobody else is in `cond_signal`, for this thread has the lock
  have hnone : ∀ x, ¬ s.Waking x := by
    intro x hx
    rw [hs.waking_iff hagrees.2, hpc] at hx
    cases hx
  have hwaking : ∀ x, ({ s with waiters := rest, signalled := s.signalled ++ [w] }.goto t
      (.wake w all)).Waking x ↔ x = w := by
    intro x
    constructor
    · rintro ⟨u, hu⟩
      by_cases hut : u = t
      · simpa [hut, CondPc.wakes, eq_comm] using hu
      · exact absurd ⟨u, by simpa [hut] using hu⟩ (hnone x)
    · rintro rfl
      exact ⟨t, congrArg CondPc.wakes (update_self t _ s.pc)⟩
  have hpending : (s.pc w).pending = true := by
    by_contra hnot
    exact (hs.absent w (Bool.eq_false_iff.mpr hnot)).1 (hwaiters ▸ mem_cons_self)
  refine { hs with
    agrees := hs.agrees_update hagrees, awake := hs.awake_update hready
    waiting := ?_, absent := ?_, nodup := hnodup.2, order := ?_
    counts := hs.counts_update (by rw [hpc]; rfl) }
  · intro x hx
    replace hx := (hpend x).symm.trans hx
    by_cases hxw : x = w
    · subst hxw
      obtain ⟨hasleep, hticket⟩ := hs.waiting x hx
      refine ⟨hasleep, ?_⟩
      cases hticket with
      | listed _ _ hzero => exact .passing hnodup.1 ((hwaking x).mpr rfl) hzero
      | passing hnot _ _ | given hnot _ _ _ => exact absurd (hwaiters ▸ mem_cons_self) hnot
    · refine (hs.waiting x hx).congr rfl rfl ?_ ?_
      · rw [hwaiters]
        exact (mem_cons.trans (or_iff_right hxw)).symm
      · rw [hwaking]
        exact ⟨fun h => absurd h hxw, fun h => absurd h (hnone x)⟩
  · intro x hx
    replace hx := (hpend x).symm.trans hx
    have hxw : x ≠ w := by
      rintro rfl
      rw [hpending] at hx
      cases hx
    rw [hwaking]
    have hnot := (hs.absent x hx).1
    rw [hwaiters] at hnot
    exact ⟨fun h => hnot (mem_cons_of_mem w h), hxw⟩
  · show s.entered = s.signalled ++ [w] ++ rest
    rw [hs.order, hwaiters, ← append_cons]

/-- What `sema_up` on the semaphore of a wait does. -/
def raise (s : CondSystem) (w : Tid) : CondSystem :=
  (s.setSema w ⟨(s.sema w).value + 1, []⟩).setStatus (update s.status w .ready)

/-- `sema_up` does not fail, and it wakes the thread if it sleeps. -/
theorem Waiting.up (h : s.Waiting w) : s.up w = .ok (s.raise w) := by
  unfold raise
  have hasleep := h.asleep
  cases hstatus : s.status w with
  | ready =>
    rw [hstatus] at hasleep
    have hsame : update s.status w .ready = s.status := update_eq_self_iff.mpr hstatus.symm
    rw [CondSystem.up, semaUp, hasleep, hsame]
    simp
  | blocked =>
    simp only [CondSystem.up, semaUp, hasleep, threadUnblock, hstatus, if_true]

theorem Sound.pending_of_wake (hs : s.Sound) (hpc : s.pc t = .wake w all) :
    (s.pc w).pending = true := by
  by_contra hnot
  exact (hs.absent w (Bool.eq_false_iff.mpr hnot)).2 ⟨t, by rw [hpc]; rfl⟩

theorem Sound.wake (hs : s.Sound) (hready : s.status t = .ready) (hpc : s.pc t = .wake w all) :
    ((s.raise w).goto t (caller all)).Sound := by
  have hagrees := hs.at hpc
  have hcaller : (caller all).pending = false ∧ (caller all).wakes = none ∧
      (caller all).inWait = false ∧ (caller all).Agrees (s.threads t) := by
    cases all with
    | false => exact ⟨rfl, rfl, rfl, trivial⟩
    | true => exact ⟨rfl, rfl, rfl, hagrees⟩
  have hpend : ∀ x, (update s.pc t (caller all) x).pending = (s.pc x).pending :=
    pending_update (by rw [hcaller.1, hpc]; rfl)
  have hone : ∀ x, s.Waking x ↔ x = w := by
    intro x
    rw [hs.waking_iff hagrees.2, hpc]
    exact Option.some_inj.trans eq_comm
  have hnone : ∀ x, ¬ ((s.raise w).goto t (caller all)).Waking x := by
    rintro x ⟨u, hu⟩
    by_cases hut : u = t
    · simp [hut, hcaller.2.1] at hu
    · replace hu := (congrArg CondPc.wakes (update_of_ne hut _ s.pc)).symm.trans hu
      exact hut (hs.owner_unique hagrees.2 (hs.wakes_owns hu))
  refine { hs with
    lock := hs.lock_update (hs.pending_of_wake hpc) _
    agrees := hs.agrees_update hcaller.2.2.2, awake := ?_
    waiting := ?_, absent := ?_, counts := hs.counts_update (by rw [hcaller.2.2.1, hpc]; rfl) }
  · intro x hblocked
    have hxw : x ≠ w := by
      rintro rfl
      have hwoken : (update s.status x .ready) x = .blocked := hblocked
      rw [update_self] at hwoken
      cases hwoken
    exact hs.awake_update hready x ((update_of_ne hxw _ _).symm.trans hblocked)
  · intro x hx
    replace hx := (hpend x).symm.trans hx
    by_cases hxw : x = w
    · subst hxw
      have hwoken : ((s.raise x).goto t (caller all)).status x = .ready := update_self _ _ _
      have hsema : ((s.raise x).goto t (caller all)).sema x = ⟨(s.sema x).value + 1, []⟩ :=
        update_self _ _ _
      constructor
      · rw [hsema, hwoken, if_neg (by decide)]
      cases (hs.waiting x hx).ticket with
      | listed _ hnot _ | given _ hnot _ _ => exact absurd ((hone x).mpr rfl) hnot
      | passing hnot _ hzero =>
        refine .given hnot (hnone x) ?_ hwoken
        rw [hsema, hzero]
        rfl
    · refine (hs.waiting x hx).congr (update_of_ne hxw _ _) (update_of_ne hxw _ _) Iff.rfl ?_
      exact ⟨fun h => absurd h (hnone x), fun h => absurd ((hone x).mp h) hxw⟩
  · intro x hx
    exact ⟨(hs.absent x ((hpend x).symm.trans hx)).1, hnone x⟩

/-! ## Every step -/

theorem next_acquire {s : LockSystem} (hidle : s.Idle t)
    (hheld : lockHeldByCurrentThread s.lock t = false) :
    s.next (.acquire t) = some (s.goto t .down) := if_pos ⟨hidle, hheld⟩

theorem next_release {s : LockSystem} (hidle : s.Idle t)
    (hheld : lockHeldByCurrentThread s.lock t = true) :
    s.next (.release t) = some (s.goto t .clearHolder) := if_pos ⟨hidle, hheld⟩

section

variable (hs : s.Sound)
include hs

theorem Sound.held (hown : (s.threads t).owns = true) :
    lockHeldByCurrentThread s.lock t = true := (hs.lock.held_iff t).mpr hown

theorem Sound.not_held (hown : (s.threads t).owns = false) :
    lockHeldByCurrentThread s.lock t = false := by
  rw [← Bool.not_eq_true, hs.lock.held_iff, hown]
  exact Bool.false_ne_true

theorem Sound.after :
    ∃ r, (.ok (some s) : Except Fault (Option CondSystem)) = .ok r ∧ ∀ s', r = some s' → s'.Sound :=
  ⟨_, rfl, fun _ h => Option.some.inj h ▸ hs⟩

/-- **One step outside the lock operations.**  No assertion fails. -/
theorem Sound.proceed (hready : s.status t = .ready) (hidle : (s.threads t).pc = .idle) :
    ∃ r, s.proceed t = .ok r ∧ ∀ s', r = some s' → s'.Sound := by
  have hagrees := hs.agrees t
  unfold CondSystem.proceed
  cases hpc : s.pc t with
  | outside => exact ⟨none, rfl, nofun⟩
  | enqueue =>
    exact Sound.after (hs.enqueue hready hpc)
  | releasing =>
    rw [hpc] at hagrees
    have hcall := next_release ⟨hidle, hready⟩ (hs.held hagrees.2)
    rw [CondSystem.callLock, hcall]
    exact Sound.after (hs.call hready hcall (.inl rfl) (hpc ▸ ⟨rfl, rfl, rfl⟩))
  | sleeping =>
    apply Sound.after
    by_cases hvalue : (s.sema t).value = 0
    · rw [CondSystem.down, semaDown, if_pos hvalue]
      exact hs.sleep hready hpc hvalue
    · rw [CondSystem.down, semaDown, if_neg hvalue]
      exact hs.pass hready hpc hidle hvalue _
  | acquiring =>
    rw [hpc] at hagrees
    have hcall := next_acquire ⟨hidle, hready⟩ (hs.not_held hagrees.2)
    simp only [CondSystem.callLock, hcall]
    exact Sound.after (hs.call hready hcall (.inl rfl) (hpc ▸ ⟨rfl, rfl, rfl⟩))
  | returning =>
    exact Sound.after (hs.return hready hpc)
  | broadcast =>
    rw [hpc] at hagrees
    cases hwaiters : s.waiters with
    | nil =>
      exact Sound.after (hs.goto hready trivial (hpc ▸ ⟨rfl, rfl, rfl⟩))
    | cons w rest =>
      exact Sound.after (hs.goto hready hagrees (hpc ▸ ⟨rfl, rfl, rfl⟩))
  | signal all =>
    rw [hpc] at hagrees
    simp only [hs.held hagrees.2]
    cases hwaiters : s.waiters with
    | nil =>
      apply Sound.after
      cases all with
      | false =>
        exact hs.goto hready trivial (hpc ▸ ⟨rfl, rfl, rfl⟩)
      | true =>
        exact hs.goto hready hagrees (hpc ▸ ⟨rfl, rfl, rfl⟩)
    | cons w rest =>
      exact Sound.after (hs.signal hready hpc hwaiters)
  | wake w all =>
    simp only [(hs.waiting w (hs.pending_of_wake hpc)).up]
    exact Sound.after (hs.wake hready hpc)

theorem Sound.callOutside {l : LockLabel} {start : LockPc}
    (hnext : ∀ lock, s.toLockSystem.next l = some lock → s.toLockSystem.Idle t ∧
      lock = s.toLockSystem.goto t start)
    (hcall : s.callOutside t l = some s') : s'.Sound := by
  obtain ⟨hpc, hmap⟩ := Option.ite_none_right_eq_some.mp hcall
  obtain ⟨lock, hlock, rfl⟩ := Option.map_eq_some_iff.mp hmap
  obtain ⟨hidle, rfl⟩ := hnext lock hlock
  rw [← goto_self (s.withLock _) t]
  apply hs.call hidle.2 hlock _ ⟨rfl, rfl, rfl⟩
  rw [hpc]
  trivial

/-- A thread that holds the lock calls a function of the condition variable. -/
theorem Sound.enter
    (hagrees : pc.Agrees (s.threads t) ↔ (s.threads t).pc = .idle ∧ (s.threads t).owns = true)
    (hlike : pc.Like .outside) (hcall : s.enter t pc = some s') : s'.Sound := by
  obtain ⟨⟨hpc, ⟨hidle, hready⟩, hheld⟩, ⟨⟩⟩ := Option.ite_none_right_eq_some.mp hcall
  apply hs.goto hready
  · exact hagrees.mpr ⟨hidle, (hs.lock.held_iff t).mp hheld⟩
  · rwa [hpc]

end

theorem next_call {s lock : LockSystem} {start : LockPc} {p : Prop} [Decidable p]
    (hnext : (if s.Idle t ∧ p then some (s.goto t start) else none) = some lock) :
    s.Idle t ∧ lock = s.goto t start := by
  obtain ⟨⟨hidle, -⟩, hgoto⟩ := Option.ite_none_right_eq_some.mp hnext
  exact ⟨hidle, (Option.some.inj hgoto).symm⟩

/-- **One step.**  No assertion fails. -/
theorem Sound.apply (hs : s.Sound) (l : CondLabel) :
    ∃ r, s.apply l = .ok r ∧ ∀ s', r = some s' → s'.Sound := by
  cases l with
  | acquire t | tryAcquire t | release t =>
    exact ⟨_, rfl, fun _ => hs.callOutside fun _ => next_call⟩
  | wait t | signal t | broadcast t => exact ⟨_, rfl, fun _ => hs.enter Iff.rfl ⟨rfl, rfl, rfl⟩⟩
  | step t =>
    rw [CondSystem.apply]
    split
    · next hready =>
      split
      · next hidle => exact hs.proceed hready hidle
      · next hidle =>
        obtain ⟨lock, hstep⟩ := Option.isSome_iff_exists.mp (hs.lock.step_isSome hidle)
        rw [hstep]
        exact (hs.lockStep hready hstep).after
    · exact ⟨none, rfl, nofun⟩

theorem Sound.step {l : CondLabel} (hs : s.Sound) (hstep : Step s l s') : s'.Sound := by
  obtain ⟨r, happly, hnext⟩ := hs.apply l
  rw [step_iff.mp hstep] at happly
  exact hnext s' (Except.ok.inj happly).symm

theorem Sound.run {sema : Tid → Semaphore} {labels : List CondLabel}
    (hrun : Run Step (CondSystem.init sema) labels s) : s.Sound :=
  hrun.invariant (Sound.init sema) fun _ _ _ hs hstep => hs.step hstep

/-! ## Signals and waits -/

/-- What a thread that is not inside a lock operation does next. -/
theorem step_of_proceed (hready : s.status t = .ready) (hidle : (s.threads t).pc = .idle)
    (hproceed : s.proceed t = .ok (some s')) : Step s (.step t) s' := by
  rw [step_iff]
  rw [apply, if_pos hready, if_pos hidle, hproceed]

section

variable (hs : s.Sound)
include hs

theorem Sound.count_signalled (t : Tid) :
    s.signalled.count t + s.waiters.count t = s.entered.count t := by
  rw [hs.order, count_append]

/-- **Signals and waits of a thread alternate.** -/
theorem Sound.paired (t : Tid) :
    s.returned.count t ≤ s.signalled.count t ∧ s.signalled.count t ≤ s.entered.count t ∧
      s.entered.count t ≤ s.returned.count t + 1 := by
  have hle := nodup_iff_count_le_one.mp hs.nodup t
  have hsignalled := hs.count_signalled t
  have hcounts := hs.counts t
  by_cases hin : (s.pc t).inWait = true
  · rw [if_pos hin] at hcounts
    omega
  · have hpending : (s.pc t).pending = false := by
      cases hpc : s.pc t <;> simp_all [CondPc.inWait, CondPc.pending]
    have hzero : s.waiters.count t = 0 := count_eq_zero.mpr (hs.absent t hpending).1
    rw [if_neg hin] at hcounts
    omega

theorem Sound.unsignalled (hpc : s.pc t = .sleeping)
    (hcount : s.signalled.count t < s.entered.count t) (hstep : Step s (.step t) s') :
    s'.pc t = .sleeping := by
  have hsignalled := hs.count_signalled t
  have hmem : t ∈ s.waiters := count_pos_iff.mp (by omega)
  have hvalue : (s.sema t).value = 0 := by
    cases (hs.waiting t (by rw [hpc]; rfl)).ticket with
    | listed _ _ hzero | passing _ _ hzero => exact hzero
    | given hnot _ _ _ => exact absurd hmem hnot
  rw [step_iff] at hstep
  rw [CondSystem.apply] at hstep
  split at hstep
  · split at hstep
    · rw [CondSystem.proceed, hpc, CondSystem.down, semaDown, if_pos hvalue] at hstep
      cases hstep
      exact hpc
    · split at hstep
      · cases hstep
      · cases hstep
        exact hpc
  · cases hstep

theorem Sound.proceeds (hpc : s.pc t = .sleeping)
    (hidle : (s.threads t).pc = .idle) (hcount : s.signalled.count t = s.entered.count t) :
    s.Waking t ∨ ∃ s', Step s (.step t) s' ∧ s'.pc t = .acquiring := by
  have hsignalled := hs.count_signalled t
  have hnot : t ∉ s.waiters := count_eq_zero.mp (by omega)
  cases (hs.waiting t (by rw [hpc]; rfl)).ticket with
  | listed hmem _ _ => exact absurd hmem hnot
  | passing _ hwaking _ => exact .inl hwaking
  | given _ _ hone hready =>
    have hvalue : (s.sema t).value ≠ 0 := by
      rw [hone]
      decide
    refine .inr ⟨s.down t, step_of_proceed hready hidle ?_, ?_⟩
    · rw [CondSystem.proceed, hpc]
    · simp [CondSystem.down, semaDown, hvalue]

/-- A thread in the code of the condition variable that holds the lock does not sleep. -/
theorem Sound.ready (hidle : (s.threads t).pc = .idle) (hpc : s.pc t ≠ .sleeping) :
    s.status t = .ready := by
  cases hstatus : s.status t with
  | ready => rfl
  | blocked =>
    rcases hs.awake t hstatus with hdown | hsleeping
    · rw [hidle] at hdown
      cases hdown
    · exact absurd hsleeping hpc

theorem Sound.reaches (hpc : s.pc t = .wake w all) :
    ∃ s', Step s (.step t) s' ∧ s'.signalled = s.signalled ∧ ¬ s'.Waking w := by
  have hagrees := hs.at hpc
  have hready : s.status t = .ready := hs.ready hagrees.1 (by rw [hpc]; nofun)
  have hproceed : s.proceed t = .ok (some ((s.raise w).goto t (caller all))) := by
    simp only [CondSystem.proceed, hpc, (hs.waiting w (hs.pending_of_wake hpc)).up]
    rfl
  have hstep := step_of_proceed hready hagrees.1 hproceed
  refine ⟨_, hstep, rfl, ?_⟩
  rw [(hs.step hstep).waking_iff (t := t) hagrees.2]
  cases all <;> simp [caller, CondPc.wakes]

/-- **`cond_signal` chooses the wait that joined first.** -/
theorem Sound.signals (hpc : s.pc t = .signal all) :
    ∃ s', Step s (.step t) s' ∧ s'.signalled = s.signalled ++ s.waiters.head?.toList ∧
      s'.waiters = s.waiters.tail := by
  have hagrees := hs.at hpc
  have hready : s.status t = .ready := hs.ready hagrees.1 (by rw [hpc]; nofun)
  cases hwaiters : s.waiters with
  | nil =>
    have hproceed : s.proceed t = .ok (some (s.goto t (caller all))) := by
      simp only [CondSystem.proceed, hpc, hs.held hagrees.2, hwaiters, if_true]
    refine ⟨_, step_of_proceed hready hagrees.1 hproceed, ?_, hwaiters⟩
    exact (append_nil _).symm
  | cons w rest =>
    have hproceed : s.proceed t = .ok (some ({ s with
        waiters := rest, signalled := s.signalled ++ [w] }.goto t (.wake w all))) := by
      simp only [CondSystem.proceed, hpc, hs.held hagrees.2, hwaiters, if_true]
    exact ⟨_, step_of_proceed hready hagrees.1 hproceed, rfl, rfl⟩

end

/-! ## Broadcasts -/

/-- The steps a thread in `cond_broadcast` has still to make. -/
def rank (s : CondSystem) (t : Tid) : ℕ :=
  match s.pc t with
  | .broadcast => 3 * s.waiters.length + 1
  | .signal true => if s.waiters = [] then 2 else 3 * s.waiters.length
  | .wake _ true => 3 * s.waiters.length + 2
  | _ => 0

theorem Sound.inBroadcast (hs : s.Sound) (hpc : (s.pc t).inBroadcast = true) :
    (s.threads t).pc = .idle ∧ (s.threads t).owns = true := by
  have hagrees := hs.agrees t
  rcases CondPc.inBroadcast_cases hpc with hcase | hcase | ⟨w, hcase⟩ <;> rw [hcase] at hagrees <;>
    exact hagrees

/-- **A broadcast makes its next step**, and has fewer to make then.  When it returns, every
wait has its signal. -/
theorem Sound.broadcast_step (hs : s.Sound) (hpc : (s.pc t).inBroadcast = true) :
    ∃ s', Step s (.step t) s' ∧ s'.rank t < s.rank t ∧
      (s'.pc t = .outside → s'.signalled = s'.entered ∧ ∀ x, ¬ s'.Waking x) := by
  obtain ⟨hidle, hown⟩ := hs.inBroadcast hpc
  have hready : s.status t = .ready := hs.ready hidle fun h => by rw [h] at hpc; cases hpc
  rcases CondPc.inBroadcast_cases hpc with hcase | hcase | ⟨w, hcase⟩
  · cases hwaiters : s.waiters with
    | nil =>
      refine ⟨s.goto t .outside, step_of_proceed hready hidle ?_, ?_, fun _ => ⟨?_, ?_⟩⟩
      · rw [CondSystem.proceed, hcase, hwaiters]
      · simp [rank, hcase]
      · exact (append_nil _).symm.trans (hwaiters ▸ hs.order.symm)
      · intro x
        rw [waking_goto (by rw [hcase]; rfl), hs.waking_iff hown, hcase]
        nofun
    | cons w rest =>
      refine ⟨s.goto t (.signal true), step_of_proceed hready hidle ?_, ?_, by simp⟩
      · rw [CondSystem.proceed, hcase, hwaiters]
      · simp [rank, hcase, hwaiters]
  · cases hwaiters : s.waiters with
    | nil =>
      refine ⟨s.goto t .broadcast, step_of_proceed hready hidle ?_, ?_, by simp⟩
      · simp only [CondSystem.proceed, hcase, hs.held hown, hwaiters]
        rfl
      · simp [rank, hcase, hwaiters]
    | cons w rest =>
      refine ⟨_, step_of_proceed hready hidle (by
        simp only [CondSystem.proceed, hcase, hs.held hown, hwaiters]; rfl), ?_, by simp⟩
      simp [rank, hcase, hwaiters]
      omega
  · refine ⟨_, step_of_proceed hready hidle (by
      simp only [CondSystem.proceed, hcase, (hs.waiting w (hs.pending_of_wake hcase)).up]
      rfl), ?_, by simp [caller]⟩
    simp [rank, raise, caller, hcase]

theorem Sound.proceed_other (hs : s.Sound) {u : Tid} (hne : t ≠ u)
    (hown : (s.threads t).owns = true) (hproceed : s.proceed u = .ok (some s')) :
    s'.pc t = s.pc t ∧ s'.waiters = s.waiters := by
  have hagrees := hs.agrees u
  have hnot : (s.threads u).owns = false :=
    Bool.eq_false_iff.mpr fun hu => hne (hs.owner_unique hu hown)
  cases hpc : s.pc u with
  | outside => simp [CondSystem.proceed, hpc] at hproceed
  | enqueue | releasing | broadcast | signal all | wake w all =>
    rw [hpc] at hagrees
    exact absurd hagrees.2 (by simp [hnot])
  | sleeping =>
    rw [CondSystem.proceed, hpc, Except.ok.injEq, Option.some.injEq] at hproceed
    subst hproceed
    unfold CondSystem.down
    split
    · exact ⟨update_of_ne hne _ _, rfl⟩
    · exact ⟨rfl, rfl⟩
  | acquiring =>
    rw [CondSystem.proceed, hpc] at hproceed
    obtain ⟨mid, hmid, ⟨⟩⟩ := bind_eq_ok.mp hproceed
    unfold CondSystem.callLock at hmid
    split at hmid
    · cases hmid
    · cases hmid
      exact ⟨update_of_ne hne _ _, rfl⟩
  | returning =>
    rw [CondSystem.proceed, hpc, Except.ok.injEq, Option.some.injEq] at hproceed
    subst hproceed
    exact ⟨update_of_ne hne _ _, rfl⟩

theorem callOutside_other {u : Tid} {l : LockLabel} (hcall : s.callOutside u l = some s') :
    s'.pc t = s.pc t ∧ s'.waiters = s.waiters := by
  obtain ⟨-, hmap⟩ := Option.ite_none_right_eq_some.mp hcall
  obtain ⟨lock, -, rfl⟩ := Option.map_eq_some_iff.mp hmap
  exact ⟨rfl, rfl⟩

theorem enter_other {u : Tid} (hout : s.pc t ≠ .outside) (hcall : s.enter u pc = some s') :
    s'.pc t = s.pc t ∧ s'.waiters = s.waiters := by
  obtain ⟨hmay, hgoto⟩ := Option.ite_none_right_eq_some.mp hcall
  have hne : t ≠ u := fun h => hout (h ▸ hmay.1)
  cases hgoto
  exact ⟨update_of_ne hne _ _, rfl⟩

/-- **Nobody else disturbs a broadcast.** -/
theorem Sound.broadcast_other (hs : s.Sound) {l : CondLabel} (hpc : (s.pc t).inBroadcast = true)
    (hl : l ≠ .step t) (hstep : Step s l s') : s'.pc t = s.pc t ∧ s'.waiters = s.waiters := by
  have hown := (hs.inBroadcast hpc).2
  have hout : s.pc t ≠ .outside := by
    intro h
    rw [h] at hpc
    cases hpc
  rw [step_iff] at hstep
  cases l with
  | acquire u | tryAcquire u | release u => exact callOutside_other (Except.ok.inj hstep)
  | wait u | signal u | broadcast u => exact enter_other hout (Except.ok.inj hstep)
  | step u =>
    have hne : t ≠ u := fun h => hl (h ▸ rfl)
    rw [CondSystem.apply] at hstep
    split at hstep
    · split at hstep
      · exact hs.proceed_other hne hown hstep
      · split at hstep
        · cases hstep
        · cases hstep
          exact ⟨rfl, rfl⟩
    · cases hstep

/-- What a condition variable promises in a state. -/
structure LosesNoSignal (s : CondSystem) : Prop where
  /-- Signals go to the waits in the order in which they joined. -/
  order : s.entered = s.signalled ++ s.waiters
  /-- `cond_signal` takes the longest-waiting one. -/
  signals : ∀ t all, s.pc t = .signal all → ∃ s', Step s (.step t) s' ∧
    s'.signalled = s.signalled ++ s.waiters.head?.toList ∧ s'.waiters = s.waiters.tail
  /-- A thread is signalled once in each of its waits, before it returns from it. -/
  paired : ∀ t, s.returned.count t ≤ s.signalled.count t ∧
    s.signalled.count t ≤ s.entered.count t ∧ s.entered.count t ≤ s.returned.count t + 1
  /-- A wait that has not been signalled stays where it is. -/
  stays : ∀ t s', s.pc t = .sleeping → s.signalled.count t < s.entered.count t →
    Step s (.step t) s' → s'.pc t = .sleeping
  /-- A wait that has been signalled goes on as soon as the signaller is past `sema_up`. -/
  proceeds : ∀ t, s.pc t = .sleeping → (s.threads t).pc = .idle →
    s.signalled.count t = s.entered.count t →
      s.Waking t ∨ ∃ s', Step s (.step t) s' ∧ s'.pc t = .acquiring
  /-- The signaller is not kept from `sema_up`. -/
  reaches : ∀ t w all, s.pc t = .wake w all →
    ∃ s', Step s (.step t) s' ∧ s'.signalled = s.signalled ∧ ¬ s'.Waking w
  /-- A thread that returns from `cond_wait` holds the lock. -/
  holds : ∀ t, s.pc t = .returning → (s.threads t).pc = .idle → s.lock.holder = some t
  /-- A broadcast goes on. -/
  broadcasts : ∀ t, (s.pc t).inBroadcast = true → ∃ s', Step s (.step t) s' ∧ s'.rank t < s.rank t
  /-- Others do not change what it has still to do. -/
  undisturbed : ∀ t l s', (s.pc t).inBroadcast = true → l ≠ .step t → Step s l s' →
    (s'.pc t).inBroadcast = true ∧ s'.rank t = s.rank t
  /-- All waits have been signalled when it returns. -/
  done : ∀ t s', (s.pc t).inBroadcast = true → Step s (.step t) s' → s'.pc t = .outside →
    s'.signalled = s'.entered ∧ ∀ x, ¬ s'.Waking x
  /-- No assertion fails in the next step. -/
  safe : ∀ l, ∃ r, s.apply l = .ok r

/-- **Condition variables lose no signal**, in any interleaving of threads that call them
with the lock held. -/
theorem cond_loses_no_signal {sema : Tid → Semaphore} {labels : List CondLabel}
    (hrun : Run Step (init sema) labels s) : s.LosesNoSignal := by
  have hs := Sound.run hrun
  constructor
  · exact hs.order
  · exact fun _ _ hpc => hs.signals hpc
  · exact hs.paired
  · exact fun _ _ hpc hcount hstep => hs.unsignalled hpc hcount hstep
  · exact fun _ hpc hidle hcount => hs.proceeds hpc hidle hcount
  · exact fun _ _ _ hpc => hs.reaches hpc
  · intro t hpc hidle
    have hagrees := hs.at hpc
    rw [hs.lock.exclusive.holder]
    simpa [hidle] using hagrees
  · intro t hpc
    obtain ⟨s', hstep, hrank, -⟩ := hs.broadcast_step hpc
    exact ⟨s', hstep, hrank⟩
  · intro t l s' hpc hl hstep
    obtain ⟨hplace, hwaiters⟩ := hs.broadcast_other hpc hl hstep
    constructor
    · rwa [hplace]
    · simp only [rank, hplace, hwaiters]
  · intro t s' hpc hstep hout
    obtain ⟨s'', hstep'', -, hdone⟩ := hs.broadcast_step hpc
    obtain rfl := Option.some.inj (hstep.symm.trans hstep'')
    exact hdone hout
  · intro l
    obtain ⟨r, happly, -⟩ := hs.apply l
    exact ⟨r, happly⟩

/-- Thread 1 waits and releases the lock, and thread 2 signals it before it is asleep. -/
theorem cond_loses_no_signal_early : ∃ s, Run Step (init fun _ => semaInit 0)
        [.acquire 1, .step 1, .step 1, .wait 1, .step 1, .step 1, .step 1, .step 1, .acquire 2,
          .step 2, .step 2, .signal 2, .step 2, .step 2] s ∧
      s.pc 1 = .sleeping ∧ s.signalled = [1] ∧ s.LosesNoSignal := by
  refine exists_run_of_imp (fun _ _ _ hstep => hstep)
    (fun s => s.pc 1 = .sleeping ∧ s.signalled = [1]) (by decide) ?_
  exact fun s hrun ⟨hpc, hsignalled⟩ => ⟨hpc, hsignalled, cond_loses_no_signal hrun⟩

end CondSystem

end CS162
