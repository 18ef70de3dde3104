import CS162.Block
import CS162.Library.RingBuffer
import CS162.Threads.Lock

/-!
# Interrupt queues

`devices/intq.c`: a ring of 64 bytes between threads and interrupt handlers.  Interrupts are
off in all of its functions, so a thread that calls one of them runs on until it returns or
sleeps.  It can sleep in two places: in `lock_acquire`, behind another thread that waits, and
in `wait`, until a byte arrives or is taken.

`IntqSystem` is a queue with the threads that use it.  A label is a call by a thread, a call
by an interrupt handler, or a thread that goes on after it has slept.  `put` and `got` are
the bytes that have gone in and out so far; `intq_fifo` says that the queue lies between
them.

## Strategy

The two ways of waiting mirror each other.  `slack` is the number of calls that can be served
before a caller has to wait, so that a call takes one from the slack of its own side and adds
one to the other side.  A thread that has found the slack 0 and sleeps in `lock_acquire` must
find it 0 when it gets the lock, for `wait` asserts it.
-/

namespace CS162

open Library Function List

abbrev intqBufsize : ℕ := 64

/-- `struct intq`. -/
structure Intq extends RingBuffer UInt8 where
  lock : Lock
  notFull : Option Tid
  notEmpty : Option Tid

/-- The two calls. -/
inductive IntqOp where
  | getc
  | putc (byte : UInt8)
  deriving DecidableEq

/-- The two members that record a waiting thread. -/
inductive IntqSide where
  | notFull
  | notEmpty
  deriving DecidableEq

/-- The member a call waits on. -/
def IntqOp.waits : IntqOp → IntqSide
  | getc => .notEmpty
  | putc _ => .notFull

/-- The member a call signals. -/
def IntqOp.signals : IntqOp → IntqSide
  | getc => .notFull
  | putc _ => .notEmpty

namespace Intq

/-- `intq_init`; the bytes of the buffer are not initialised. -/
def init (buf : ℕ → UInt8) : Intq := ⟨⟨buf, 0, 0⟩, lockInit, none, none⟩

def empty (q : Intq) : Bool := q.head = q.tail

def full (q : Intq) : Bool := RingBuffer.next intqBufsize q.head = q.tail

/-- The condition under which a thread has to wait. -/
def awaited (q : Intq) : IntqSide → Bool
  | .notFull => q.full
  | .notEmpty => q.empty

def waiter (q : Intq) : IntqSide → Option Tid
  | .notFull => q.notFull
  | .notEmpty => q.notEmpty

def setWaiter (q : Intq) (side : IntqSide) (t : Option Tid) : Intq :=
  match side with
  | .notFull => { q with notFull := t }
  | .notEmpty => { q with notEmpty := t }

/-- The change a call makes to the ring once it is past its loop. -/
def serve (q : Intq) : IntqOp → Intq
  | .getc => { q with toRingBuffer := q.toRingBuffer.take intqBufsize }
  | .putc byte => { q with toRingBuffer := q.toRingBuffer.put intqBufsize byte }

/-! ## The recorded threads -/

@[simp]
theorem toRingBuffer_setWaiter (q : Intq) (side : IntqSide) (t : Option Tid) :
    (q.setWaiter side t).toRingBuffer = q.toRingBuffer := by
  cases side <;> rfl

@[simp]
theorem lock_setWaiter (q : Intq) (side : IntqSide) (t : Option Tid) :
    (q.setWaiter side t).lock = q.lock := by
  cases side <;> rfl

theorem waiter_setWaiter (q : Intq) (side side' : IntqSide) (t : Option Tid) :
    (q.setWaiter side t).waiter side' = if side' = side then t else q.waiter side' := by
  cases side <;> cases side' <;> rfl

/-! ## How many calls can be served -/

variable {q : Intq} {op : IntqOp} {side : IntqSide}

/-- The number of calls that are served before a caller has to wait. -/
def slack (q : Intq) : IntqSide → ℕ
  | .notFull => intqBufsize - 1 - q.count intqBufsize
  | .notEmpty => q.count intqBufsize

theorem slack_congr {q' : Intq} (h : q'.toRingBuffer = q.toRingBuffer) (side : IntqSide) :
    q'.slack side = q.slack side := by
  cases side <;> simp only [slack, h]

section

variable (h : q.Valid intqBufsize)
include h

theorem awaited_iff : q.awaited side = true ↔ q.slack side = 0 := by
  have hlt : q.count intqBufsize < intqBufsize := h.count_lt
  cases side with
  | notFull =>
    have hfull := h.full_iff
    rw [awaited, full, decide_eq_true_eq, slack]
    omega
  | notEmpty =>
    rw [awaited, empty, decide_eq_true_eq]
    exact h.empty_iff

theorem valid_serve (op : IntqOp) : (q.serve op).Valid intqBufsize := by
  cases op with
  | getc => exact h.take
  | putc byte => exact h.put byte

theorem slack_serve_waits (hopen : q.awaited op.waits = false) :
    (q.serve op).slack op.waits + 1 = q.slack op.waits := by
  cases op with
  | getc => exact h.count_take (of_decide_eq_false hopen)
  | putc byte =>
    have hput : (q.serve (.putc byte)).count intqBufsize = q.count intqBufsize + 1 :=
      h.count_put byte (of_decide_eq_false hopen)
    have hlt : (q.serve (.putc byte)).count intqBufsize < intqBufsize := (h.put byte).count_lt
    simp only [IntqOp.waits, slack]
    omega

theorem slack_serve_signals (hopen : q.awaited op.waits = false) :
    (q.serve op).slack op.signals = q.slack op.signals + 1 := by
  cases op with
  | getc =>
    have htake : (q.serve .getc).count intqBufsize + 1 = q.count intqBufsize :=
      h.count_take (of_decide_eq_false hopen)
    have hlt : q.count intqBufsize < intqBufsize := h.count_lt
    simp only [IntqOp.signals, slack]
    omega
  | putc byte => exact h.count_put byte (of_decide_eq_false hopen)

end

end Intq

/-! ## The threads -/

/-- Where a thread is: it runs, or it sleeps in `lock_acquire` or in `wait`.  A thread that
has been woken stays there until it runs.  Between two steps, a thread that runs is in no
call. -/
inductive IntqPc where
  | running
  | locking (op : IntqOp)
  | waiting (op : IntqOp)
  deriving DecidableEq

/-- A queue and the threads that use it. -/
structure IntqSystem where
  q : Intq
  status : Tid → ThreadStatus
  pc : Tid → IntqPc
  /-- The bytes that have been stored. -/
  put : List UInt8
  /-- The bytes that have been returned. -/
  got : List UInt8

/-- What can happen. -/
inductive IntqLabel where
  | call (t : Tid) (op : IntqOp)
  | resume (t : Tid)
  | interrupt (op : IntqOp)

namespace IntqSystem

def init (buf : ℕ → UInt8) : IntqSystem := ⟨.init buf, fun _ => .ready, fun _ => .running, [], []⟩

@[simp] def goto (s : IntqSystem) (t : Tid) (pc : IntqPc) : IntqSystem :=
  { s with pc := update s.pc t pc }

@[simp] def setLock (s : IntqSystem) (lock : Lock) : IntqSystem :=
  { s with q := { s.q with lock := lock } }

@[simp] def block (s : IntqSystem) (t : Tid) : IntqSystem :=
  { s with status := threadBlock s.status t }

/-- `thread_unblock`. -/
def unblock (s : IntqSystem) (t : Tid) : Except Fault IntqSystem :=
  match threadUnblock s.status t with
  | none => .error (.panic "thread_unblock")
  | some status => .ok { s with status := status }

/-- Thread `t` goes to sleep as the recorded thread. -/
@[simp] def record (s : IntqSystem) (t : Tid) (op : IntqOp) : IntqSystem :=
  ({ s with q := s.q.setWaiter op.waits (some t) }.goto t (.waiting op)).block t

/-- Thread `t` goes to sleep on the wait list of the lock. -/
@[simp] def enqueue (s : IntqSystem) (t : Tid) (op : IntqOp) (sema : Semaphore) : IntqSystem :=
  ((s.setLock { s.q.lock with semaphore := sema }).goto t (.locking op)).block t

def wait (s : IntqSystem) (t : Tid) (op : IntqOp) : Except Fault IntqSystem :=
  if s.q.awaited op.waits then .ok (s.record t op) else .error (.panic "wait")

def signal (s : IntqSystem) (side : IntqSide) : Except Fault IntqSystem :=
  if s.q.awaited side then .error (.panic "signal")
  else
    match s.q.waiter side with
    | none => .ok s
    | some t => do
        let s ← s.unblock t
        return { s with q := s.q.setWaiter side none }

/-- The `sema_down` of `lock_acquire` and what follows it. -/
def lockDown (s : IntqSystem) (t : Tid) (op : IntqOp) : Except Fault IntqSystem :=
  match semaDown s.q.lock.semaphore t with
  | (sema, true) => (s.setLock ⟨some t, sema⟩).wait t op
  | (sema, false) => .ok (s.enqueue t op sema)

/-- `lock_acquire`, followed by `wait`. -/
def lockAcquire (s : IntqSystem) (t : Tid) (op : IntqOp) : Except Fault IntqSystem :=
  if lockHeldByCurrentThread s.q.lock t then .error (.panic "lock_acquire") else s.lockDown t op

def lockRelease (s : IntqSystem) (t : Tid) : Except Fault IntqSystem :=
  if lockHeldByCurrentThread s.q.lock t then
    match semaUp s.q.lock.semaphore with
    | (sema, none) => .ok (s.setLock ⟨none, sema⟩)
    | (sema, some u) => (s.setLock ⟨none, sema⟩).unblock u
  else .error (.panic "lock_release")

/-- A call moves its byte. -/
def move (s : IntqSystem) : IntqOp → IntqSystem
  | .getc => { s with q := s.q.serve .getc, got := s.got ++ [s.q.first] }
  | .putc byte => { s with q := s.q.serve (.putc byte), put := s.put ++ [byte] }

/-- The rest of a call after its loop. -/
def serve (s : IntqSystem) (op : IntqOp) : Except Fault IntqSystem :=
  (s.move op).signal op.signals

/-- Thread `t` tests the condition of its loop. -/
def attempt (s : IntqSystem) (t : Tid) (op : IntqOp) : Except Fault IntqSystem :=
  if s.q.awaited op.waits then s.lockAcquire t op
  else do
    let s ← s.serve op
    return s.goto t .running

/-- What a label does; nothing if it is not possible.  An interrupt handler must not call
`intq_getc` on an empty queue or `intq_putc` on a full one. -/
def apply (s : IntqSystem) : IntqLabel → Except Fault (Option IntqSystem)
  | .call t op =>
    if s.pc t = .running ∧ s.status t = .ready then some <$> s.attempt t op else .ok none
  | .resume t =>
    if s.status t = .ready then
      match s.pc t with
      | .running => .ok none
      | .locking op => some <$> (s.goto t .running).lockDown t op
      | .waiting op => do
          let s ← s.lockRelease t
          some <$> (s.goto t .running).attempt t op
    else .ok none
  | .interrupt op => if s.q.awaited op.waits then .ok none else some <$> s.serve op

/-- The next state, if there is one. -/
def next (s : IntqSystem) (l : IntqLabel) : Option IntqSystem :=
  match s.apply l with
  | .ok s' => s'
  | .error _ => none

def Step (s : IntqSystem) (l : IntqLabel) (s' : IntqSystem) : Prop := s.next l = some s'

variable {s s' : IntqSystem} {t : Tid} {op : IntqOp} {side : IntqSide} {l : IntqLabel}

/-! ## First in, first out -/

/-- The steps that move no byte. -/
structure SameBytes (s s' : IntqSystem) : Prop where
  ring : s'.q.toRingBuffer = s.q.toRingBuffer
  put : s'.put = s.put
  got : s'.got = s.got

theorem SameBytes.trans {s'' : IntqSystem} (h : SameBytes s s') (h' : SameBytes s' s'') :
    SameBytes s s'' := ⟨h'.ring.trans h.ring, h'.put.trans h.put, h'.got.trans h.got⟩

theorem sameBytes_unblock (h : s.unblock t = .ok s') : SameBytes s s' := by
  unfold unblock at h
  split at h
  · cases h
  · cases h
    exact ⟨rfl, rfl, rfl⟩

theorem sameBytes_wait (h : s.wait t op = .ok s') : SameBytes s s' := by
  unfold wait at h
  split at h
  · cases h
    exact ⟨Intq.toRingBuffer_setWaiter _ _ _, rfl, rfl⟩
  · cases h

theorem sameBytes_signal (h : s.signal side = .ok s') : SameBytes s s' := by
  unfold signal at h
  split at h
  · cases h
  split at h
  · cases h
    exact ⟨rfl, rfl, rfl⟩
  · obtain ⟨u, hu, ⟨⟩⟩ := bind_eq_ok.mp h
    exact (sameBytes_unblock hu).trans ⟨Intq.toRingBuffer_setWaiter _ _ _, rfl, rfl⟩

theorem sameBytes_lockDown (h : s.lockDown t op = .ok s') : SameBytes s s' := by
  unfold lockDown at h
  split at h
  · obtain ⟨hring, hput, hgot⟩ := sameBytes_wait h
    exact ⟨hring, hput, hgot⟩
  · cases h
    exact ⟨rfl, rfl, rfl⟩

theorem sameBytes_lockRelease (h : s.lockRelease t = .ok s') : SameBytes s s' := by
  unfold lockRelease at h
  split at h
  · split at h
    · cases h
      exact ⟨rfl, rfl, rfl⟩
    · obtain ⟨hring, hput, hgot⟩ := sameBytes_unblock h
      exact ⟨hring, hput, hgot⟩
  · cases h

/-- The queue lies between the bytes that have gone in and those that have come out. -/
structure Fifo (s : IntqSystem) : Prop where
  valid : s.q.Valid intqBufsize
  bytes : s.put = s.got ++ s.q.content intqBufsize

theorem SameBytes.fifo (h : SameBytes s s') (hs : s.Fifo) : s'.Fifo := by
  constructor
  · rw [h.ring]
    exact hs.valid
  · rw [h.put, h.got, h.ring]
    exact hs.bytes

theorem Fifo.move (hs : s.Fifo) (hopen : s.q.awaited op.waits = false) : (s.move op).Fifo := by
  cases op with
  | getc =>
    have hsome : s.q.head ≠ s.q.tail := of_decide_eq_false hopen
    refine ⟨hs.valid.take, ?_⟩
    calc s.put = s.got ++ s.q.content intqBufsize := hs.bytes
      _ = s.got ++ s.q.first :: (s.q.take intqBufsize).content intqBufsize := by
          rw [hs.valid.content_take hsome]
      _ = s.got ++ [s.q.first] ++ (s.q.take intqBufsize).content intqBufsize := append_cons _ _ _
  | putc byte =>
    have hroom : RingBuffer.next intqBufsize s.q.head ≠ s.q.tail := of_decide_eq_false hopen
    refine ⟨hs.valid.put byte, ?_⟩
    calc s.put ++ [byte] = s.got ++ s.q.content intqBufsize ++ [byte] := by rw [hs.bytes]
      _ = s.got ++ (s.q.put intqBufsize byte).content intqBufsize := by
          rw [append_assoc, hs.valid.content_put byte hroom]

theorem Fifo.serve (hs : s.Fifo) (hopen : s.q.awaited op.waits = false)
    (h : s.serve op = .ok s') : s'.Fifo :=
  (sameBytes_signal h).fifo (hs.move hopen)

theorem Fifo.goto (hs : s.Fifo) (t : Tid) (pc : IntqPc) : (s.goto t pc).Fifo :=
  ⟨hs.valid, hs.bytes⟩

theorem Fifo.attempt (hs : s.Fifo) (h : s.attempt t op = .ok s') : s'.Fifo := by
  unfold IntqSystem.attempt at h
  split at h
  · unfold lockAcquire at h
    split at h
    · cases h
    · exact (sameBytes_lockDown h).fifo hs
  · next hopen =>
    obtain ⟨u, hu, ⟨⟩⟩ := bind_eq_ok.mp h
    exact (hs.serve (Bool.eq_false_iff.mpr hopen) hu).goto t _

theorem apply_of_step (h : Step s l s') : s.apply l = .ok (some s') := by
  unfold Step next at h
  split at h
  · next hs => rw [hs, h]
  · cases h

/-- **One step.** -/
theorem Fifo.step (hs : s.Fifo) (h : Step s l s') : s'.Fifo := by
  replace h := apply_of_step h
  cases l with
  | call t op =>
    rw [apply] at h
    split at h
    · obtain ⟨u, hu, ⟨⟩⟩ := map_eq_ok.mp h
      exact hs.attempt hu
    · cases h
  | resume t =>
    rw [apply] at h
    split at h
    · split at h
      · cases h
      · obtain ⟨u, hu, ⟨⟩⟩ := map_eq_ok.mp h
        exact (sameBytes_lockDown hu).fifo (hs.goto t _)
      · obtain ⟨mid, hmid, h⟩ := bind_eq_ok.mp h
        obtain ⟨u, hu, ⟨⟩⟩ := map_eq_ok.mp h
        exact (((sameBytes_lockRelease hmid).fifo hs).goto t _).attempt hu
    · cases h
  | interrupt op =>
    rw [apply] at h
    split at h
    · cases h
    · next hopen =>
      obtain ⟨u, hu, ⟨⟩⟩ := map_eq_ok.mp h
      exact hs.serve (Bool.eq_false_iff.mpr hopen) hu

/-- **An interrupt queue is first in, first out.**  In every state that threads and interrupt
handlers can reach, the positions are inside the buffer and the cells from `tail` to `head`
hold the bytes that have been stored and not yet returned, in order.  There are at most 63. -/
theorem intq_fifo {buf : ℕ → UInt8} {labels : List IntqLabel}
    (hrun : Run Step (init buf) labels s) :
    s.q.head < 64 ∧ s.q.tail < 64 ∧ s.put = s.got ++ s.q.content 64 ∧
      (s.q.content 64).length ≤ 63 ∧ s.got <+: s.put := by
  have hinit : (init buf).Fifo :=
    ⟨⟨Nat.zero_lt_succ 63, Nat.zero_lt_succ 63⟩, by
      simp [init, Intq.init, RingBuffer.content, RingBuffer.count]⟩
  have hs : s.Fifo := hrun.invariant hinit fun _ _ _ hu hstep => hu.step hstep
  refine ⟨hs.valid.head_lt, hs.valid.tail_lt, hs.bytes, ?_, ?_⟩
  · rw [RingBuffer.length_content]
    exact Nat.le_of_lt_succ hs.valid.count_lt
  · rw [hs.bytes]
    exact prefix_append _ _

/-- Two threads find the queue empty; the first of two bytes goes to the first of them. -/
theorem intq_fifo_two_readers :
    ∃ s, Run Step (init fun _ => 0) [.call 1 .getc, .call 2 .getc, .interrupt (.putc 65),
        .interrupt (.putc 66), .resume 1] s ∧
      s.got = [65] ∧ s.put = s.got ++ s.q.content 64 := by
  refine exists_run_of_imp (fun _ _ _ hstep => hstep) (fun s => s.got = [65]) (by decide) ?_
  exact fun s hrun hgot => ⟨hgot, (intq_fifo hrun).2.2.1⟩

/-! ## The lock and the recorded threads -/

/-- The thread sleeps in `wait`, or has been woken there and has not run since. -/
def Waits (s : IntqSystem) (t : Tid) : Prop := ∃ op, s.pc t = .waiting op

theorem waits_congr (h : s'.pc = s.pc) : s'.Waits = s.Waits := by
  unfold Waits
  rw [h]

/-- What the lock and the two members say about the threads. -/
structure Orderly (s : IntqSystem) : Prop where
  valid : s.q.Valid intqBufsize
  lock : LockExclusive s.q.lock s.Waits s.Waits
  nodup : s.q.lock.semaphore.waiters.Nodup
  queued : ∀ t ∈ s.q.lock.semaphore.waiters, (∃ op, s.pc t = .locking op) ∧ s.status t = .blocked
  recorded : ∀ side t, s.q.waiter side = some t →
    ∃ op, op.waits = side ∧ s.pc t = .waiting op ∧ s.status t = .blocked

/-- A thread asleep in `lock_acquire` has found no slack.  There can be one by now if it is
meant for a thread that waits, which still holds the lock. -/
def Tight (s : IntqSystem) : Prop :=
  ∀ t op, s.pc t = .locking op → s.q.slack op.waits = 0 ∨
    s.q.slack op.waits = 1 ∧ ∃ u op', op'.waits = op.waits ∧ s.pc u = .waiting op'

theorem Orderly.init (buf : ℕ → UInt8) : (init buf).Orderly where
  valid := ⟨Nat.zero_lt_succ 63, Nat.zero_lt_succ 63⟩
  lock := LockExclusive.init (fun _ ⟨_, h⟩ => nomatch h) fun _ ⟨_, h⟩ => nomatch h
  nodup := nodup_nil
  queued _ h := nomatch h
  recorded side _ h := by cases side <;> cases h

theorem Orderly.not_mem_waiters (hs : s.Orderly) (hready : s.status t = .ready) :
    t ∉ s.q.lock.semaphore.waiters := by
  intro hmem
  have hblocked := (hs.queued t hmem).2
  rw [hready] at hblocked
  cases hblocked

/-- A thread that runs in `lock_acquire` is to the others as one outside. -/
theorem Orderly.goto_running (hs : s.Orderly) (hready : s.status t = .ready)
    (hpc : s.pc t = .locking op) : (s.goto t .running).Orderly := by
  have hnot := hs.not_mem_waiters hready
  constructor
  · exact hs.valid
  · apply hs.lock.congr <;>
    · intro x
      by_cases hx : x = t <;> simp [Waits, hx, hpc]
  · exact hs.nodup
  · intro x hx
    have hne : x ≠ t := fun h => hnot (h ▸ hx)
    simpa [hne] using hs.queued x hx
  · intro side x hx
    obtain ⟨op', hop, hwait, hblocked⟩ := hs.recorded side x hx
    have hne : x ≠ t := ne_of_apply_ne s.pc (by simp [hwait, hpc])
    exact ⟨op', hop, by simpa [hne] using hwait, hblocked⟩

/-! ## Taking the lock -/

theorem Orderly.enqueue (hs : s.Orderly) (hpc : s.pc t = .running) (hready : s.status t = .ready) :
    (s.enqueue t op ⟨s.q.lock.semaphore.value, s.q.lock.semaphore.waiters ++ [t]⟩).Orderly := by
  have hnot := hs.not_mem_waiters hready
  constructor
  · exact hs.valid
  · apply (hs.lock.waiters _).congr <;>
    · intro x
      by_cases hx : x = t <;> simp [Waits, hx, hpc]
  · show (s.q.lock.semaphore.waiters ++ [t]).Nodup
    simpa [nodup_append] using ⟨hs.nodup, fun x hx h => hnot (h ▸ hx)⟩
  · intro x hx
    rcases mem_append.mp hx with hold | hnew
    · have hne : x ≠ t := fun h => hnot (h ▸ hold)
      simpa [threadBlock, hne] using hs.queued x hold
    · rw [mem_singleton.mp hnew]
      simp [threadBlock]
  · intro side x hx
    obtain ⟨op', hop, hwait, hblocked⟩ := hs.recorded side x hx
    have hne : x ≠ t := ne_of_apply_ne s.pc (by simp [hwait, hpc])
    refine ⟨op', hop, ?_, ?_⟩
    · simpa [hne] using hwait
    · simpa [threadBlock, hne] using hblocked

theorem Orderly.record (hs : s.Orderly) (hready : s.status t = .ready)
    (hvalue : s.q.lock.semaphore.value ≠ 0) (op : IntqOp) :
    ((s.setLock ⟨some t, { s.q.lock.semaphore with
      value := s.q.lock.semaphore.value - 1 }⟩).record t op).Orderly := by
  have hnot := hs.not_mem_waiters hready
  have hnone : ∀ x, ¬ s.Waits x := hs.lock.free (hs.lock.value.resolve_left hvalue)
  constructor
  · simpa using hs.valid
  · have hwaits : ∀ x, ((s.setLock ⟨some t, { s.q.lock.semaphore with
        value := s.q.lock.semaphore.value - 1 }⟩).record t op).Waits x ↔ s.Waits x ∨ x = t := by
      intro x
      by_cases hx : x = t <;> simp [Waits, hx]
    have htaken := (hs.lock.take hvalue hwaits).setHolder ((hwaits t).mpr (.inr rfl))
      fun x => (hwaits x).trans (or_iff_right (hnone x))
    simpa using htaken
  · simpa using hs.nodup
  · intro x hx
    replace hx : x ∈ s.q.lock.semaphore.waiters := by
      simpa using hx
    have hne : x ≠ t := fun h => hnot (h ▸ hx)
    simpa [threadBlock, hne] using hs.queued x hx
  · intro side x hx
    rw [IntqSystem.record, goto, block, Intq.waiter_setWaiter] at hx
    split at hx
    · next hside =>
      cases hx
      exact ⟨op, hside.symm, by simp, by simp [threadBlock]⟩
    · obtain ⟨op', -, hwait, -⟩ := hs.recorded side x hx
      exact absurd ⟨op', hwait⟩ (hnone x)

/-- **A thread that has found no slack gets the lock or sleeps on it**, and in the first case
there is still no slack. -/
theorem Orderly.lockDown (hs : s.Orderly) (hpc : s.pc t = .running) (hready : s.status t = .ready)
    (ht : (s.goto t (.locking op)).Tight) :
    ∃ s', s.lockDown t op = .ok s' ∧ s'.Orderly ∧ s'.Tight := by
  by_cases hvalue : s.q.lock.semaphore.value = 0
  · rw [IntqSystem.lockDown, semaDown, if_pos hvalue]
    exact ⟨_, rfl, hs.enqueue hpc hready, ht⟩
  -- nobody waits while the lock is free, so no slack is on its way to another thread
  have hnone : ∀ x, ¬ s.Waits x := hs.lock.free (hs.lock.value.resolve_left hvalue)
  have hslack : ∀ x op', (s.goto t (.locking op)).pc x = .locking op' →
      s.q.slack op'.waits = 0 := by
    intro x op' hx
    rcases ht x op' hx with hzero | ⟨-, u, op'', -, hu⟩
    · exact hzero
    · have hne : u ≠ t := by
        rintro rfl
        simp at hu
      exact absurd ⟨op'', by simpa [hne] using hu⟩ (hnone u)
  have hawaited : s.q.awaited op.waits = true :=
    (Intq.awaited_iff hs.valid).mpr (hslack t op (by simp))
  refine ⟨_, ?_, hs.record hready hvalue op, ?_⟩
  · simp only [IntqSystem.lockDown, semaDown, if_neg hvalue]
    exact if_pos hawaited
  intro x op' hx
  have hne : x ≠ t := by
    rintro rfl
    simp at hx
  left
  have hzero := hslack x op' (by simpa [hne] using hx)
  rwa [Intq.slack_congr (q := s.q) (by simp)]

/-! ## Moving a byte -/

@[simp]
theorem q_move (s : IntqSystem) (op : IntqOp) : (s.move op).q = s.q.serve op := by
  cases op <;> rfl

@[simp]
theorem pc_move (s : IntqSystem) (op : IntqOp) : (s.move op).pc = s.pc := by
  cases op <;> rfl

@[simp]
theorem status_move (s : IntqSystem) (op : IntqOp) : (s.move op).status = s.status := by
  cases op <;> rfl

theorem Orderly.move (hs : s.Orderly) (op : IntqOp) : (s.move op).Orderly := by
  have hlock : (s.q.serve op).lock = s.q.lock := by cases op <;> rfl
  have hwaiter : ∀ side, (s.q.serve op).waiter side = s.q.waiter side := by
    intro side
    cases op <;> cases side <;> rfl
  constructor
  · rw [q_move]
    exact Intq.valid_serve hs.valid op
  · rw [waits_congr (pc_move s op), q_move, hlock]
    exact hs.lock
  · simpa [hlock] using hs.nodup
  · simpa [hlock] using hs.queued
  · simpa [hwaiter] using hs.recorded

theorem Orderly.wake {u : Tid} (hs : s.Orderly) (hu : s.q.waiter side = some u) :
    ({ s with status := update s.status u .ready,
              q := s.q.setWaiter side none } : IntqSystem).Orderly := by
  obtain ⟨op, hop, hwait, -⟩ := hs.recorded side u hu
  constructor
  · simpa using hs.valid
  · have hlock : LockExclusive (s.q.setWaiter side none).lock s.Waits s.Waits := by
      rw [Intq.lock_setWaiter]
      exact hs.lock
    exact hlock
  · simpa using hs.nodup
  · intro x hx
    obtain ⟨⟨op', hlocking⟩, hsleep⟩ := hs.queued x (by simpa using hx)
    have hne : x ≠ u := ne_of_apply_ne s.pc (by simp [hlocking, hwait])
    exact ⟨⟨op', hlocking⟩, by simpa [hne] using hsleep⟩
  · intro side' x hx
    simp only [Intq.waiter_setWaiter] at hx
    split at hx
    · cases hx
    next hside =>
    obtain ⟨op', hop', hwait', hsleep⟩ := hs.recorded side' x hx
    have hne : x ≠ u := by
      rintro rfl
      rw [hwait] at hwait'
      cases hwait'
      exact hside (hop'.symm.trans hop)
    exact ⟨op', hop', hwait', by simpa [hne] using hsleep⟩

/-- **A call that moves its byte returns**: what `signal` asserts holds, and the thread it
wakes is blocked. -/
theorem Orderly.serve (hs : s.Orderly) (hopen : s.q.awaited op.waits = false) :
    ∃ s', s.serve op = .ok s' ∧ s'.Orderly ∧ s'.pc = s.pc ∧
      s'.q.toRingBuffer = (s.q.serve op).toRingBuffer := by
  have hmove := hs.move op
  have hslack : (s.move op).q.slack op.signals = s.q.slack op.signals + 1 := by
    rw [q_move]
    exact Intq.slack_serve_signals hs.valid hopen
  have hsignal : ¬ (s.move op).q.awaited op.signals = true := by
    rw [Intq.awaited_iff hmove.valid, hslack]
    exact Nat.succ_ne_zero _
  rw [IntqSystem.serve, signal, if_neg hsignal]
  cases hwaiter : (s.move op).q.waiter op.signals with
  | none => exact ⟨_, rfl, hmove, pc_move s op, by rw [q_move]⟩
  | some u =>
    obtain ⟨-, -, -, hblocked⟩ := hmove.recorded _ u hwaiter
    have hunblock : (s.move op).unblock u =
        .ok { s.move op with status := update (s.move op).status u .ready } := by
      rw [unblock, threadUnblock, if_pos hblocked]
    simp only [hunblock]
    exact ⟨_, rfl, hmove.wake hwaiter, pc_move s op, by simp⟩

theorem waits_ne_signals (op : IntqOp) : op.waits ≠ op.signals := by
  cases op <;> simp [IntqOp.waits, IntqOp.signals]

/-- Nobody asleep in `lock_acquire` counts on what the call changes, or there was no slack
and a recorded thread will use it up. -/
def Quiet (s : IntqSystem) (op : IntqOp) : Prop :=
  (∀ t op', s.pc t = .locking op' → op'.waits ≠ op.signals) ∨
    s.q.awaited op.signals = true ∧ (s.q.waiter op.signals).isSome = true

theorem eq_waits_or_eq_signals (op : IntqOp) (side : IntqSide) :
    side = op.waits ∨ side = op.signals := by
  cases op <;> cases side <;> simp [IntqOp.waits, IntqOp.signals]

theorem Tight.serve (ht : s.Tight) (hs : s.Orderly) (hopen : s.q.awaited op.waits = false)
    (hring : s'.q.toRingBuffer = (s.q.serve op).toRingBuffer)
    (hpc : ∀ x, s'.pc x = s.pc x ∨ s'.pc x = .running ∧ s.pc x = .waiting op)
    (hquiet : s.Quiet op) : s'.Tight := by
  intro x op' hx'
  have hx : s.pc x = .locking op' := by
    rcases hpc x with h | ⟨h, -⟩
    · rw [← h, hx']
    · rw [hx'] at h
      cases h
  rw [Intq.slack_congr hring]
  rcases eq_waits_or_eq_signals op op'.waits with hside | hside
  · -- the slack that was left is used up
    have hserve := Intq.slack_serve_waits hs.valid hopen
    have hzero : s.q.slack op.waits ≠ 0 := by
      rw [ne_eq, ← Intq.awaited_iff hs.valid, hopen]
      exact Bool.false_ne_true
    left
    rcases ht x op' hx with h | ⟨h, -⟩
    · rw [hside] at h
      exact absurd h hzero
    · rw [hside] at h ⊢
      omega
  · -- there is one now, and a thread that waits for it
    rcases hquiet with hnone | ⟨hawaited, hsome⟩
    · exact absurd hside (hnone x op' hx)
    obtain ⟨u, hu⟩ := Option.isSome_iff_exists.mp hsome
    obtain ⟨op'', hop'', hwait, -⟩ := hs.recorded _ u hu
    right
    constructor
    · rw [hside, Intq.slack_serve_signals hs.valid hopen, (Intq.awaited_iff hs.valid).mp hawaited]
    refine ⟨u, op'', hop''.trans hside.symm, ?_⟩
    rcases hpc u with h | ⟨-, h⟩
    · rw [h, hwait]
    · rw [hwait] at h
      cases h
      exact absurd hop'' (waits_ne_signals op)

/-! ## A call and its rounds -/

/-- **One round of a call.**  The state `s` is that before the thread ran, when it was outside
or woken in `wait`; `s'` is that in which it tests the condition of its loop. -/
theorem Orderly.attempt (hs : s.Orderly) (ht : s.Tight)
    (hpc : s.pc t = .running ∨ s.pc t = .waiting op) (hs' : s'.Orderly)
    (hpc' : s'.pc = update s.pc t .running) (hready : s'.status t = .ready)
    (hring : s'.q.toRingBuffer = s.q.toRingBuffer) :
    ∃ s'', s'.attempt t op = .ok s'' ∧ s''.Orderly ∧
      ((s.q.awaited op.waits = false → s.Quiet op) → s''.Tight) := by
  have hout : s'.pc t = .running := by simp [hpc']
  have hslack : ∀ side, s'.q.slack side = s.q.slack side := Intq.slack_congr hring
  have hawaited : s'.q.awaited op.waits = s.q.awaited op.waits := by
    rw [Bool.eq_iff_iff, Intq.awaited_iff hs'.valid, Intq.awaited_iff hs.valid, hslack]
  unfold IntqSystem.attempt
  split
  · next hwait =>
    have hzero : s.q.slack op.waits = 0 := by rwa [hawaited, Intq.awaited_iff hs.valid] at hwait
    have hholder : lockHeldByCurrentThread s'.q.lock t = false := by
      apply decide_eq_false
      intro hholder
      obtain ⟨op', hop'⟩ := (hs'.lock.holder t).mp hholder
      rw [hout] at hop'
      cases hop'
    have htight : (s'.goto t (.locking op)).Tight := by
      intro x op' hx
      show s'.q.slack op'.waits = 0 ∨ s'.q.slack op'.waits = 1 ∧ _
      rw [hslack]
      by_cases hxt : x = t
      · subst hxt
        left
        simp at hx
        rwa [← hx]
      rcases ht x op' (by simpa [hxt, hpc'] using hx) with h | ⟨hone, u, op'', hop'', hu⟩
      · exact .inl h
      have hne : u ≠ t := by
        rintro rfl
        rcases hpc with h | h
        · rw [hu] at h
          cases h
        · rw [hu] at h
          cases h
          rw [← hop'', hzero] at hone
          cases hone
      exact .inr ⟨hone, u, op'', hop'', by simpa [hne, hpc'] using hu⟩
    obtain ⟨s'', hdown, ho, hti⟩ := hs'.lockDown hout hready htight
    refine ⟨s'', ?_, ho, fun _ => hti⟩
    rw [lockAcquire, hholder, hdown]
    rfl
  · next hopen =>
    replace hopen := Bool.eq_false_iff.mpr hopen
    obtain ⟨u, hserve, hu, hupc, huring⟩ := hs'.serve hopen
    have hstay : update u.pc t .running = u.pc := update_eq_self_iff.mpr (by rw [hupc, hout])
    have hgoto : u.goto t .running = u := by simp only [goto, hstay]
    rw [hserve]
    refine ⟨u, congrArg Except.ok hgoto, hu, fun hquiet => ?_⟩
    rw [hawaited] at hopen
    apply ht.serve hs hopen _ _ (hquiet hopen)
    · rw [huring]
      cases op <;> simp only [Intq.serve, hring]
    intro x
    rw [hupc, hpc']
    by_cases hx : x = t
    · subst hx
      rcases hpc with h | h
      · exact .inl (by simp [h])
      · exact .inr ⟨by simp, h⟩
    · exact .inl (update_of_ne hx _ _)

/-- The lock is free again and the thread is out of `wait`; threads may have left the wait
list. -/
theorem Orderly.release (hs : s.Orderly) (hready : s.status t = .ready)
    (hpc : s.pc t = .waiting op) {rest : List Tid} {status : Tid → ThreadStatus}
    (hrest : rest.Sublist s.q.lock.semaphore.waiters)
    (hstatus : ∀ x, x ∈ rest ∨ s.Waits x → status x = s.status x) :
    ({ s.setLock ⟨none, ⟨s.q.lock.semaphore.value + 1, rest⟩⟩ with
      status := status }.goto t .running).Orderly := by
  have hwaits : ∀ x, (s.goto t .running).Waits x ↔ s.Waits x ∧ x ≠ t := by
    intro x
    by_cases hx : x = t <;> simp [Waits, hx]
  have hnone : ∀ x, ¬ (s.goto t .running).Waits x := by
    intro x hx
    obtain ⟨hin, hne⟩ := (hwaits x).mp hx
    exact hne (hs.lock.unique x t hin ⟨op, hpc⟩)
  constructor
  · exact hs.valid
  · exact (hs.lock.clearHolder hnone).give ⟨op, hpc⟩ (hnone t) hwaits rest
  · exact hrest.nodup hs.nodup
  · intro x hx
    obtain ⟨⟨op', hlocking⟩, hsleep⟩ := hs.queued x (hrest.subset hx)
    have hne : x ≠ t := ne_of_apply_ne s.pc (by simp [hlocking, hpc])
    exact ⟨⟨op', by simpa [hne] using hlocking⟩, (hstatus x (.inl hx)).trans hsleep⟩
  · intro side x hx
    obtain ⟨op', hop', hwait, hsleep⟩ := hs.recorded side x hx
    have hne : x ≠ t := ne_of_apply_ne s.status (by simp [hsleep, hready])
    exact ⟨op', hop', by simpa [hne] using hwait, (hstatus x (.inr ⟨op', hwait⟩)).trans hsleep⟩

/-- **A woken thread gives the lock back.** -/
theorem Orderly.lockRelease (hs : s.Orderly) (hready : s.status t = .ready)
    (hpc : s.pc t = .waiting op) :
    ∃ s', s.lockRelease t = .ok s' ∧ (s'.goto t .running).Orderly ∧ s'.pc = s.pc ∧
      s'.status t = .ready ∧ s'.q.toRingBuffer = s.q.toRingBuffer := by
  have hheld : lockHeldByCurrentThread s.q.lock t = true :=
    decide_eq_true ((hs.lock.holder t).mpr ⟨op, hpc⟩)
  simp only [IntqSystem.lockRelease, hheld, semaUp]
  cases hwaiters : s.q.lock.semaphore.waiters with
  | nil =>
    refine ⟨_, rfl, ?_, rfl, hready, rfl⟩
    exact hs.release hready hpc (nil_sublist _) fun _ _ => rfl
  | cons u rest =>
    have hnodup : (u :: rest).Nodup := hwaiters ▸ hs.nodup
    have hmem : u ∈ s.q.lock.semaphore.waiters := hwaiters ▸ mem_cons_self
    obtain ⟨⟨op', hlocking⟩, hblocked⟩ := hs.queued u hmem
    have hunblock : threadUnblock s.status u = some (update s.status u .ready) := if_pos hblocked
    have hne : t ≠ u := ne_of_apply_ne s.pc (by simp [hlocking, hpc])
    simp only [unblock, setLock, hunblock]
    refine ⟨_, rfl, ?_, rfl, ?_, rfl⟩
    · apply hs.release hready hpc
      · rw [hwaiters]
        exact sublist_cons_self u rest
      intro x hx
      apply update_of_ne
      rintro rfl
      rcases hx with hx | ⟨op'', hop''⟩
      · exact (nodup_cons.mp hnodup).1 hx
      · rw [hlocking] at hop''
        cases hop''
    · exact (update_of_ne hne _ _).trans hready

/-! ## Runs -/

/-- The call a label completes if it can happen. -/
def performs (s : IntqSystem) : IntqLabel → Option IntqOp
  | .call _ op => if s.q.awaited op.waits then none else some op
  | .resume t =>
    match s.pc t with
    | .waiting op => if s.q.awaited op.waits then none else some op
    | _ => none
  | .interrupt op => if s.q.awaited op.waits then none else some op

/-- A call is completed only while no thread asleep in `lock_acquire` counts on what it
changes, or as the one that wakes the recorded thread. -/
def Unhurried (s : IntqSystem) (l : IntqLabel) : Prop := ∀ op, s.performs l = some op → s.Quiet op

/-- **One step.**  It ends without a panic. -/
theorem Orderly.apply (hs : s.Orderly) (ht : s.Tight) (l : IntqLabel) :
    ∃ r, s.apply l = .ok r ∧ ∀ s', r = some s' → s'.Orderly ∧ (s.Unhurried l → s'.Tight) := by
  cases l with
  | call t op =>
    rw [IntqSystem.apply]
    split
    · next hcall =>
      obtain ⟨s', happly, ho, hti⟩ := hs.attempt ht (.inl hcall.1) hs
        (update_eq_self_iff.mpr hcall.1.symm).symm hcall.2 rfl
      refine ⟨some s', map_eq_ok.mpr ⟨s', happly, rfl⟩, ?_⟩
      rintro _ ⟨⟩
      refine ⟨ho, fun hun => hti fun hopen => hun op ?_⟩
      simp [performs, hopen]
    · exact ⟨none, rfl, nofun⟩
  | resume t =>
    rw [IntqSystem.apply]
    split
    · next hready =>
      split
      · exact ⟨none, rfl, nofun⟩
      · next op hpc =>
        have hback : (s.goto t .running).goto t (.locking op) = s := by simp [← hpc]
        obtain ⟨s', happly, ho, hti⟩ := (hs.goto_running hready hpc).lockDown
          (by simp) hready (hback.symm ▸ ht)
        refine ⟨some s', map_eq_ok.mpr ⟨s', happly, rfl⟩, ?_⟩
        rintro _ ⟨⟩
        exact ⟨ho, fun _ => hti⟩
      next op hpc =>
      obtain ⟨mid, hrelease, hmid, hmidpc, hmidready, hring⟩ := hs.lockRelease hready hpc
      obtain ⟨s', happly, ho, hti⟩ := hs.attempt ht (.inr hpc) hmid
        (by simp [hmidpc]) hmidready hring
      refine ⟨some s', bind_eq_ok.mpr ⟨mid, hrelease, map_eq_ok.mpr ⟨s', happly, rfl⟩⟩, ?_⟩
      rintro _ ⟨⟩
      refine ⟨ho, fun hun => hti fun hopen => hun op ?_⟩
      simp [performs, hpc, hopen]
    · exact ⟨none, rfl, nofun⟩
  | interrupt op =>
    rw [IntqSystem.apply]
    split
    · exact ⟨none, rfl, nofun⟩
    next hopen =>
    replace hopen := Bool.eq_false_iff.mpr hopen
    obtain ⟨s', happly, ho, hpc, hring⟩ := hs.serve hopen
    refine ⟨some s', map_eq_ok.mpr ⟨s', happly, rfl⟩, ?_⟩
    rintro _ ⟨⟩
    refine ⟨ho, fun hun => ?_⟩
    apply ht.serve hs hopen hring fun x => .inl (congrFun hpc x)
    exact hun op (by simp [performs, hopen])

theorem Orderly.one_recorded (hs : s.Orderly) {side' : IntqSide} {u : Tid}
    (ht : s.q.waiter side = some t) (hu : s.q.waiter side' = some u) : side = side' ∧ t = u := by
  obtain ⟨op, hop, hwait, -⟩ := hs.recorded side t ht
  obtain ⟨op', hop', hwait', -⟩ := hs.recorded side' u hu
  obtain rfl : t = u := hs.lock.unique t u ⟨op, hwait⟩ ⟨op', hwait'⟩
  rw [hwait] at hwait'
  cases hwait'
  exact ⟨hop.symm.trans hop', rfl⟩

/-- **A queue that is not hurried does not panic.**  As long as bytes arrive and leave only
while nobody asleep in `lock_acquire` counts on them, or one at a time for the recorded
thread, no assertion fails and at most one thread is recorded. -/
theorem wait_never_panics {buf : ℕ → UInt8} {labels : List IntqLabel}
    (hrun : Run (Guarded Unhurried Step) (init buf) labels s) :
    (∀ l, ∃ r, s.apply l = .ok r) ∧
      ∀ side side' t u, s.q.waiter side = some t → s.q.waiter side' = some u →
        side = side' ∧ t = u := by
  have hinit : (init buf).Orderly ∧ (init buf).Tight := ⟨.init buf, nofun⟩
  obtain ⟨hs, ht⟩ : s.Orderly ∧ s.Tight := by
    apply hrun.invariant (I := fun s => s.Orderly ∧ s.Tight) hinit
    rintro s l s' ⟨ho, hti⟩ ⟨hguard, hstep⟩
    obtain ⟨r, happly, hnext⟩ := ho.apply hti l
    rw [apply_of_step hstep] at happly
    obtain ⟨ho', hti'⟩ := hnext s' (Except.ok.inj happly).symm
    exact ⟨ho', hti' hguard⟩
  constructor
  · intro l
    obtain ⟨r, happly, -⟩ := hs.apply ht l
    exact ⟨r, happly⟩
  · intro side side' t u
    exact hs.one_recorded

/-- A test that lets only unhurried steps pass: it looks at the queue and not at the
threads. -/
def mayHurry (s : IntqSystem) : IntqLabel → Bool
  | .call _ op => !s.q.awaited op.waits
  | .resume _ => true
  | .interrupt op => !(s.q.awaited op.signals && (s.q.waiter op.signals).isSome)

theorem unhurried_of_not_mayHurry (h : ¬ s.mayHurry l = true) : s.Unhurried l := by
  intro op hop
  cases l with
  | call t op' => simp_all [performs, mayHurry]
  | resume t => exact absurd rfl h
  | interrupt op' =>
    right
    rw [performs, Option.ite_none_left_eq_some, Option.some.injEq] at hop
    obtain ⟨-, rfl⟩ := hop
    simpa [mayHurry, Option.isSome_iff_ne_none] using h

/-- One thread waits, one sleeps on the lock behind it, and a byte arrives. -/
theorem wait_never_panics_two_readers : ∃ s, Run (Guarded Unhurried Step) (init fun _ => 0)
        [.call 1 .getc, .call 2 .getc, .interrupt (.putc 65)] s ∧ s.put = [65] ∧
      ∃ r, s.apply (.resume 1) = .ok r := by
  refine exists_run_of_imp (guarded_of_ite (fun _ _ _ hstep => hstep)
    fun _ _ => unhurried_of_not_mayHurry) (fun s => s.put = [65]) (by decide) ?_
  exact fun s hrun hput => ⟨hput, (wait_never_panics hrun).1 _⟩

/-- Two threads find the queue empty and two bytes arrive before they run again: the first
thread leaves a byte behind, and the second one fails the assertion of `wait`. -/
theorem second_reader_panics :
    ∃ s, Run Step (init fun _ => 0) [.call 1 .getc, .call 2 .getc, .interrupt (.putc 65),
        .interrupt (.putc 66), .resume 1] s ∧
      s.apply (.resume 2) = .error (.panic "wait") :=
  exists_run_of_execute (fun _ _ _ hstep => hstep) (by decide)

end IntqSystem

end CS162
