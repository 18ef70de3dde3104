import CS162.Block
import CS162.Threads.Lock

/-!
# Processes and their wait_status records

`process_execute`, `process_wait` and `process_exit` of `process.c`, with the part of
`thread_create` that hands a new thread its `wait_status`.  Parent and child share the
record through its semaphore, its `ref_count` under `ref_count_lock`, and its place in
the parent's `children` list under the global `child_list_lock`.

A thread in the kernel is the list of the actions it still has to take.  One step takes
the first action; an `if` or a loop is an action that puts the chosen branch in front
of what follows it.  Any thread that is not blocked may take the next step, so a
thread can be preempted between any two actions.  The locks are those of `synch.c`:
taking one is the assertion, the rounds of `sema_down` and the write of `holder`, each
a step of its own, and `lock_init` resets `child_list_lock` whoever holds it.

Records and thread pages are never reused here, so that an access to one that has been
freed can be recognised: it is the fault `useAfterFree`.  `tid_t` is unbounded.
-/

namespace CS162

open Function (update)

/-- The address of a `struct wait_status`. -/
abbrev RecordId := ℕ

/-- `struct wait_status`; its place in the list is kept in `Processes.children`. -/
structure WaitStatus where
  exitCode : ℤ
  tid : ℤ
  sema : Semaphore
  refCount : ℤ
  refCountLock : Lock

/-- The locks of `process.c`. -/
inductive LockRef where
  /-- `child_list_lock` -/
  | childList
  /-- The `ref_count_lock` of a record. -/
  | refCount (r : RecordId)
  deriving DecidableEq

/-- The semaphores of `process.c`. -/
inductive SemaRef where
  | lock (l : LockRef)
  /-- The `sema` of a record. -/
  | exited (r : RecordId)
  deriving DecidableEq

/-- What a thread does in one step. -/
inductive Action where
  /-- `lock_init (&child_list_lock)` -/
  | lockInit
  /-- `malloc` of a record and the initialisation of its fields. -/
  | mallocStatus
  /-- The assertion of `lock_acquire`. -/
  | assertNotHeld (l : LockRef)
  /-- One round of `sema_down`. -/
  | semaDown (q : SemaRef)
  | setHolder (l : LockRef)
  /-- The assertion of `lock_release`. -/
  | assertHeld (l : LockRef)
  | clearHolder (l : LockRef)
  | semaUp (q : SemaRef)
  /-- `list_push_front` of a new record to the thread's own `children`. -/
  | pushChild (r : RecordId)
  | threadCreate
  /-- The search of `process_wait` through the thread's own `children`. -/
  | findChild (tid : ℤ)
  /-- `exit_status = child->exit_code` -/
  | readExitCode (r : RecordId) (tid : ℤ)
  /-- `ref_count -= 1` -/
  | decRef (r : RecordId)
  /-- `if (ref_count == 0)` of `process_wait`, and of `process_exit` for its own record. -/
  | testRef (r : RecordId)
  /-- `if (ref_count == 0)` in the loop of `process_exit`. -/
  | testLoop (r : RecordId)
  /-- `list_remove` of a record from the list it is in. -/
  | removeChild (r : RecordId)
  | free (r : RecordId)
  /-- The end of `process_wait`; `waited` tells whether it went through `sema_down`. -/
  | returnWait (tid : ℤ) (status : ℤ) (waited : Bool)
  /-- `my_wait_status->exit_code = args[1]` of `k_exit`. -/
  | setExitCode (r : RecordId) (code : ℤ)
  /-- `e = list_begin (l)` before the loop of `process_exit`. -/
  | exitBegin
  /-- The test of the loop of `process_exit`, with its variable `e`. -/
  | exitLoop (e : Option RecordId)
  /-- The end of `thread_exit`: the thread never runs again. -/
  | die
  deriving DecidableEq

def lockAcquire (l : LockRef) : List Action := [.assertNotHeld l, .semaDown (.lock l), .setHolder l]

def lockRelease (l : LockRef) : List Action := [.assertHeld l, .clearHolder l, .semaUp (.lock l)]

/-- `process_execute` from `lock_init` on. -/
def processExecute : List Action := [.lockInit, .mallocStatus]

/-- What `process_execute` does with a record that `malloc` has returned. -/
def addChild (r : RecordId) : List Action :=
  lockAcquire .childList ++ [.pushChild r] ++ lockRelease .childList ++ [.threadCreate]

def processWait (tid : ℤ) : List Action := lockAcquire .childList ++ [.findChild tid]

/-- What `process_wait` does after its search. -/
def awaitChild (tid : ℤ) : Option RecordId → List Action
  | none => lockRelease .childList ++ [.returnWait tid (-1) false]
  | some r => lockRelease .childList ++ [.semaDown (.exited r), .readExitCode r tid]

/-- Giving up a reference and, if it was the last one, the record. -/
def dropRecord (r : RecordId) : List Action :=
  lockAcquire (.refCount r) ++ [.decRef r, .testRef r]

/-- The branches of `if (ref_count == 0)` outside the loop of `process_exit`. -/
def releaseRecord (r : RecordId) (refCount : ℤ) : List Action :=
  if refCount = 0 then
    lockAcquire .childList ++ [.removeChild r] ++ lockRelease .childList ++ [.free r]
  else lockRelease (.refCount r)

/-- The branches of `if (ref_count == 0)` in the loop of `process_exit`. -/
def releaseInLoop (r : RecordId) (refCount : ℤ) : List Action :=
  if refCount = 0 then [.removeChild r, .free r] else lockRelease (.refCount r)

/-- `process_exit`, called by a thread with the given `my_wait_status`. -/
def processExit (myWaitStatus : Option RecordId) : List Action :=
  (match myWaitStatus with
    | some r => dropRecord r ++ [.semaUp (.exited r)]
    | none => []) ++
  lockAcquire .childList ++ [.exitBegin] ++ lockRelease .childList ++ [.die]

/-- `thread_exit`, after `k_exit` with an exit code or without one. -/
def threadExit (myWaitStatus : Option RecordId) (code : Option ℤ) : List Action :=
  (match myWaitStatus, code with
    | some r, some code => [.setExitCode r code]
    | _, _ => []) ++
  processExit myWaitStatus

/-- The body of the loop of `process_exit`. -/
def exitBody (w : RecordId) (next : Option RecordId) : List Action :=
  lockAcquire (.refCount w) ++ [.decRef w, .testLoop w, .exitLoop next]

attribute [simp] lockAcquire lockRelease processExecute addChild processWait awaitChild dropRecord
  processExit threadExit exitBody

/-- What happens, in the order it happens. -/
inductive ProcessEvent where
  | created (parent child : Tid)
  /-- `k_exit` with an exit code, or an exit without one. -/
  | exiting (t : Tid) (code : Option ℤ)
  /-- The `sema_up` of `process_exit`. -/
  | exited (t : Tid)
  | returned (parent : Tid) (tid : ℤ) (status : ℤ) (waited : Bool)
  | dropped (t : Tid) (r : RecordId)
  | freed (t : Tid) (r : RecordId)
  deriving DecidableEq

/-- The locks, semaphores and records that several threads write to. -/
structure Shared where
  childListLock : Lock
  waitStatus : RecordId → WaitStatus

namespace Shared

@[simp] def setRecord (m : Shared) (r : RecordId) (w : WaitStatus) : Shared :=
  { m with waitStatus := update m.waitStatus r w }

def lock (m : Shared) : LockRef → Lock
  | .childList => m.childListLock
  | .refCount r => (m.waitStatus r).refCountLock

def setLock (m : Shared) (l : LockRef) (lock : Lock) : Shared :=
  match l with
  | .childList => { m with childListLock := lock }
  | .refCount r => m.setRecord r { m.waitStatus r with refCountLock := lock }

def sema (m : Shared) : SemaRef → Semaphore
  | .lock l => (m.lock l).semaphore
  | .exited r => (m.waitStatus r).sema

def setSema (m : Shared) (q : SemaRef) (sema : Semaphore) : Shared :=
  match q with
  | .lock l => m.setLock l { m.lock l with semaphore := sema }
  | .exited r => m.setRecord r { m.waitStatus r with sema := sema }

end Shared

/-- The processes and what they share. -/
structure Processes where
  shared : Shared
  freed : RecordId → Bool
  /-- The thread whose `children` list a record is made for. -/
  owner : RecordId → Tid
  nextRecord : RecordId
  nextTid : Tid
  /-- The thread exists, and it has not ended. -/
  alive : Tid → Bool
  status : Tid → ThreadStatus
  children : Tid → List RecordId
  myWaitStatus : Tid → Option RecordId
  /-- What the thread has still to do before it is back in user mode. -/
  prog : Tid → List Action
  history : List ProcessEvent

/-- A process makes a call, or a thread takes its next step.  Steps that allocate
memory take the outcome: none, or memory with arbitrary contents. -/
inductive ProcessLabel where
  | execute (p : Tid)
  | wait (p : Tid) (tid : ℤ)
  | exit (p : Tid) (code : Option ℤ)
  | step (p : Tid) (memory : Option ℤ)

namespace Processes

/-- The main thread of `init.c` starts with `process_execute`; `child_list_lock` is a
static variable that `lock_init` has not been called on. -/
@[simp] def boot : Processes where
  shared := ⟨⟨none, ⟨0, []⟩⟩, fun _ => ⟨0, 0, semaInit 0, 0, lockInit⟩⟩
  freed _ := false
  owner _ := 0
  nextRecord := 0
  nextTid := 3
  alive t := t = 1
  status _ := .ready
  children _ := []
  myWaitStatus _ := none
  prog t := if t = 1 then processExecute else []
  history := []

abbrev childListLock (s : Processes) : Lock := s.shared.childListLock

@[simp] abbrev waitStatus (s : Processes) (r : RecordId) : WaitStatus := s.shared.waitStatus r

@[simp] def setRecord (s : Processes) (r : RecordId) (w : WaitStatus) : Processes :=
  { s with shared := s.shared.setRecord r w }

@[simp] def log (s : Processes) (e : ProcessEvent) : Processes :=
  { s with history := s.history ++ [e] }

/-! ## Accesses to records -/

/-- The element before `r` in a list. -/
def listPrev (list : List RecordId) (r : RecordId) : Option RecordId :=
  (list.takeWhile (· ≠ r)).getLast?

/-- The element after `r` in a list. -/
def listNext (list : List RecordId) (r : RecordId) : Option RecordId :=
  (list.dropWhile (· ≠ r)).tail.head?

def recordOfLock : LockRef → List RecordId
  | .childList => []
  | .refCount r => [r]

def recordOfSema : SemaRef → List RecordId
  | .lock l => recordOfLock l
  | .exited r => [r]

/-- The record that `process_wait` looks for. -/
def childWith (s : Processes) (p : Tid) (tid : ℤ) : Option RecordId :=
  (s.children p).find? fun r => decide ((s.waitStatus r).tid = tid)

/-- The records an action of thread `p` reads or writes.  A search reads the list up to
the record it finds, and `list_remove` writes the elements before and after. -/
def touched (s : Processes) (p : Tid) : Action → List RecordId
  | .assertNotHeld l | .setHolder l | .assertHeld l | .clearHolder l => recordOfLock l
  | .semaDown q | .semaUp q => recordOfSema q
  | .pushChild r => r :: (s.children p).head?.toList
  | .threadCreate => (s.children p).head?.toList
  | .findChild tid =>
    (s.children p).takeWhile (fun r => decide ((s.waitStatus r).tid ≠ tid)) ++
      (s.childWith p tid).toList
  | .readExitCode r _ | .decRef r | .testRef r | .testLoop r | .free r | .setExitCode r _ => [r]
  | .removeChild r =>
    let list := s.children (s.owner r)
    r :: ((listPrev list r).toList ++ (listNext list r).toList)
  | .exitLoop e => e.toList
  | .lockInit | .mallocStatus | .returnWait _ _ _ | .exitBegin | .die => []

/-- `list_remove` of the first or the last element writes to the list itself, which is in
the page of its owner. -/
def touchedOwner (s : Processes) : Action → Option Tid
  | .removeChild r =>
    let list := s.children (s.owner r)
    if (listPrev list r).isNone ∨ (listNext list r).isNone then some (s.owner r) else none
  | _ => none

/-- `thread_schedule_tail` frees the page of a thread that has ended, except the `initial_thread`,
which has tid 1. -/
def pageFreed (s : Processes) (q : Tid) : Bool := q ≠ 1 && !s.alive q

/-- The action touches memory that has been freed. -/
def dangling (s : Processes) (p : Tid) (a : Action) : Bool :=
  (s.touched p a).any s.freed || (s.touchedOwner a).any s.pageFreed

/-! ## The actions -/

def useAfterFree : Fault := .undefined "use after free"

/-- The record `thread_create` hands to the new thread: the first one of the parent's
list, if no other thread has it. -/
def recordForChild (s : Processes) (p : Tid) : Option RecordId :=
  (s.children p).head?.filter fun r => decide ((s.waitStatus r).refCount = -1)

/-- `thread_create` from `thread_current ()` on. -/
@[simp] def threadCreate (s : Processes) (p : Tid) : Processes :=
  let c := s.nextTid
  { s with
    shared := match s.recordForChild p with
      | none => s.shared
      | some r => s.shared.setRecord r
          { s.waitStatus r with refCount := 2, tid := c, exitCode := -1 }
    nextTid := c + 1
    alive := update s.alive c true
    myWaitStatus := update s.myWaitStatus c (s.recordForChild p)
    history := s.history ++ [.created p c] }

/-- The memory of a new record, as `process_execute` sets it up. -/
@[simp] def newRecord (garbage : ℤ) : WaitStatus := ⟨garbage, garbage, semaInit 0, -1, lockInit⟩

/-- The `sema_up` on a record's semaphore is the event that its child has exited. -/
def upEvents (p : Tid) : SemaRef → List ProcessEvent
  | .lock _ => []
  | .exited _ => [.exited p]

/-- What an action does, and what it puts in front of the actions that follow it. -/
def effect (s : Processes) (p : Tid) (memory : Option ℤ) :
    Action → Except Fault (Processes × List Action)
  | .lockInit => .ok ({ s with shared := s.shared.setLock .childList lockInit }, [])
  | .mallocStatus =>
    match memory with
    | none => .ok (s, [])
    | some garbage =>
      .ok ({ s.setRecord s.nextRecord (newRecord garbage) with
        nextRecord := s.nextRecord + 1
        owner := update s.owner s.nextRecord p }, addChild s.nextRecord)
  | .assertNotHeld l =>
    if lockHeldByCurrentThread (s.shared.lock l) p then .error (.panic "lock_acquire")
    else .ok (s, [])
  | .semaDown q =>
    match semaDown (s.shared.sema q) p with
    | (sema, true) => .ok ({ s with shared := s.shared.setSema q sema }, [])
    | (sema, false) =>
      .ok ({ s with
        shared := s.shared.setSema q sema
        status := threadBlock s.status p }, [.semaDown q])
  | .setHolder l =>
    .ok ({ s with shared := s.shared.setLock l { s.shared.lock l with holder := some p } }, [])
  | .assertHeld l =>
    if lockHeldByCurrentThread (s.shared.lock l) p then .ok (s, [])
    else .error (.panic "lock_release")
  | .clearHolder l =>
    .ok ({ s with shared := s.shared.setLock l { s.shared.lock l with holder := none } }, [])
  | .semaUp q =>
    match semaUp (s.shared.sema q) with
    | (sema, none) =>
      .ok ({ s with
        shared := s.shared.setSema q sema
        history := s.history ++ upEvents p q }, [])
    | (sema, some w) =>
      match threadUnblock s.status w with
      | none => .error (.panic "thread_unblock")
      | some status =>
        .ok ({ s with
          shared := s.shared.setSema q sema
          status := status
          history := s.history ++ upEvents p q }, [])
  | .pushChild r =>
    .ok ({ s with children := update s.children p (r :: s.children p) }, [])
  | .threadCreate =>
    match memory with
    | none => .ok (s, [])
    | some _ => .ok (s.threadCreate p, [])
  | .findChild tid => .ok (s, awaitChild tid (s.childWith p tid))
  | .readExitCode r tid =>
    .ok (s, dropRecord r ++ [.returnWait tid (s.waitStatus r).exitCode true])
  | .decRef r =>
    let w := s.waitStatus r
    .ok ((s.setRecord r { w with refCount := w.refCount - 1 }).log (.dropped p r), [])
  | .testRef r => .ok (s, releaseRecord r (s.waitStatus r).refCount)
  | .testLoop r => .ok (s, releaseInLoop r (s.waitStatus r).refCount)
  | .removeChild r =>
    if r ∈ s.children (s.owner r) then
      .ok ({ s with
        children := update s.children (s.owner r) ((s.children (s.owner r)).erase r) }, [])
    else .error (.undefined "list_remove")
  | .free r => .ok (({ s with freed := update s.freed r true }).log (.freed p r), [])
  | .returnWait tid status waited => .ok (s.log (.returned p tid status waited), [])
  | .setExitCode r code => .ok (s.setRecord r { s.waitStatus r with exitCode := code }, [])
  | .exitBegin => .ok (s, [.exitLoop (s.children p).head?])
  | .exitLoop none => .ok (s, [])
  | .exitLoop (some w) => .ok (s, exitBody w (listNext (s.children p) w))
  | .die => .ok ({ s with alive := update s.alive p false }, [])

/-- What each action can do when it does not end in a fault. -/
inductive Effect (s : Processes) (p : Tid) : Action → Processes → List Action → Prop
  | lockInit :
      Effect s p .lockInit { s with shared := s.shared.setLock .childList lockInit } []
  | noRecord : Effect s p .mallocStatus s []
  | newRecord (garbage : ℤ) :
      Effect s p .mallocStatus
        { s.setRecord s.nextRecord (newRecord garbage) with
          nextRecord := s.nextRecord + 1
          owner := update s.owner s.nextRecord p }
        (addChild s.nextRecord)
  | assertNotHeld (l : LockRef) : Effect s p (.assertNotHeld l) s []
  | take (q : SemaRef) (hvalue : (s.shared.sema q).value ≠ 0) :
      Effect s p (.semaDown q)
        { s with shared :=
          s.shared.setSema q ⟨(s.shared.sema q).value - 1, (s.shared.sema q).waiters⟩ } []
  | sleep (q : SemaRef) (hvalue : (s.shared.sema q).value = 0) :
      Effect s p (.semaDown q)
        { s with
          shared := s.shared.setSema q ⟨0, (s.shared.sema q).waiters ++ [p]⟩
          status := update s.status p .blocked }
        [.semaDown q]
  | setHolder (l : LockRef) :
      Effect s p (.setHolder l)
        { s with shared := s.shared.setLock l ⟨some p, (s.shared.lock l).semaphore⟩ } []
  | assertHeld (l : LockRef) (hheld : (s.shared.lock l).holder = some p) :
      Effect s p (.assertHeld l) s []
  | clearHolder (l : LockRef) :
      Effect s p (.clearHolder l)
        { s with shared := s.shared.setLock l ⟨none, (s.shared.lock l).semaphore⟩ } []
  | raise (q : SemaRef) (hwaiters : (s.shared.sema q).waiters = []) :
      Effect s p (.semaUp q)
        { s with
          shared := s.shared.setSema q ⟨(s.shared.sema q).value + 1, []⟩
          history := s.history ++ upEvents p q } []
  | wake (q : SemaRef) (t : Tid) (rest : List Tid)
      (hwaiters : (s.shared.sema q).waiters = t :: rest)
      (hblocked : s.status t = .blocked) :
      Effect s p (.semaUp q)
        { s with
          shared := s.shared.setSema q ⟨(s.shared.sema q).value + 1, rest⟩
          status := update s.status t .ready
          history := s.history ++ upEvents p q } []
  | pushChild (r : RecordId) :
      Effect s p (.pushChild r)
        { s with children := update s.children p (r :: s.children p) } []
  | noThread : Effect s p .threadCreate s []
  | threadCreate : Effect s p .threadCreate (s.threadCreate p) []
  | findChild (tid : ℤ) : Effect s p (.findChild tid) s (awaitChild tid (s.childWith p tid))
  | readExitCode (r : RecordId) (tid : ℤ) :
      Effect s p (.readExitCode r tid) s
        (dropRecord r ++ [.returnWait tid (s.waitStatus r).exitCode true])
  | decRef (r : RecordId) :
      Effect s p (.decRef r)
        ((s.setRecord r { s.waitStatus r with refCount := (s.waitStatus r).refCount - 1 }).log
          (.dropped p r)) []
  | testRef (r : RecordId) :
      Effect s p (.testRef r) s (releaseRecord r (s.waitStatus r).refCount)
  | testLoop (r : RecordId) :
      Effect s p (.testLoop r) s (releaseInLoop r (s.waitStatus r).refCount)
  | removeChild (r : RecordId) (hmem : r ∈ s.children (s.owner r)) :
      Effect s p (.removeChild r)
        { s with
          children := update s.children (s.owner r) ((s.children (s.owner r)).erase r) } []
  | free (r : RecordId) :
      Effect s p (.free r)
        (({ s with freed := update s.freed r true }).log (.freed p r)) []
  | returnWait (tid status : ℤ) (waited : Bool) :
      Effect s p (.returnWait tid status waited) (s.log (.returned p tid status waited)) []
  | setExitCode (r : RecordId) (code : ℤ) :
      Effect s p (.setExitCode r code) (s.setRecord r { s.waitStatus r with exitCode := code }) []
  | exitBegin : Effect s p .exitBegin s [.exitLoop (s.children p).head?]
  | exitEnd : Effect s p (.exitLoop none) s []
  | exitLoop (w : RecordId) :
      Effect s p (.exitLoop (some w)) s (exitBody w (listNext (s.children p) w))
  | die : Effect s p .die { s with alive := update s.alive p false } []

theorem Effect.of_effect {s u : Processes} {p : Tid} {memory : Option ℤ} {a : Action}
    {more : List Action} (h : s.effect p memory a = .ok (u, more)) : Effect s p a u more := by
  cases a with
  | lockInit | setHolder l | clearHolder l | pushChild r | findChild tid | readExitCode r tid
  | decRef r | testRef r | testLoop r | free r | returnWait tid status waited
  | setExitCode r code | exitBegin | die =>
    cases h
    constructor
  | mallocStatus | threadCreate => cases memory <;> cases h <;> constructor
  | exitLoop e => cases e <;> cases h <;> constructor
  | assertNotHeld l =>
    rw [effect] at h
    split at h
    · cases h
    · cases h
      exact .assertNotHeld l
  | assertHeld l =>
    rw [effect] at h
    split at h
    · rename_i hheld
      cases h
      exact .assertHeld l (of_decide_eq_true hheld)
    · cases h
  | semaDown q =>
    by_cases hvalue : (s.shared.sema q).value = 0
    · simp only [effect, semaDown, hvalue] at h
      obtain ⟨rfl, rfl⟩ := h
      exact .sleep q hvalue
    · simp only [effect, semaDown, hvalue] at h
      obtain ⟨rfl, rfl⟩ := h
      exact .take q hvalue
  | semaUp q =>
    cases hwaiters : (s.shared.sema q).waiters with
    | nil =>
      rw [effect, semaUp, hwaiters, Except.ok.injEq] at h
      obtain ⟨rfl, rfl⟩ := h
      exact .raise q hwaiters
    | cons w rest =>
      simp only [effect, semaUp, hwaiters] at h
      split at h
      · cases h
      · rename_i status hstatus
        obtain ⟨hblocked, ⟨⟩⟩ := Option.ite_none_right_eq_some.mp hstatus
        cases h
        exact .wake q w rest hwaiters hblocked
  | removeChild r =>
    rw [effect] at h
    split at h
    · cases h
      exact .removeChild r ‹_›
    · cases h

/-! ## The system -/

@[simp] def setProg (s : Processes) (p : Tid) (actions : List Action) : Processes :=
  { s with prog := update s.prog p actions }

/-- Thread `p` takes its first action. -/
def act (s : Processes) (p : Tid) (memory : Option ℤ) (a : Action) (rest : List Action) :
    Except Fault Processes :=
  if s.dangling p a then .error useAfterFree
  else
    match s.effect p memory a with
    | .error e => .error e
    | .ok (t, more) => .ok (t.setProg p (more ++ rest))

def Runnable (s : Processes) (p : Tid) : Prop := s.alive p = true ∧ s.status p = .ready

instance (s : Processes) (p : Tid) : Decidable (s.Runnable p) :=
  inferInstanceAs (Decidable (_ ∧ _))

def InUser (s : Processes) (p : Tid) : Prop := s.Runnable p ∧ s.prog p = []

instance (s : Processes) (p : Tid) : Decidable (s.InUser p) :=
  inferInstanceAs (Decidable (_ ∧ _))

/-- The next state, unless the thread cannot take the step; a step can also end in a
fault. -/
def next (s : Processes) : ProcessLabel → Option (Except Fault Processes)
  | .execute p => if s.InUser p then some (.ok (s.setProg p processExecute)) else none
  | .wait p tid => if s.InUser p then some (.ok (s.setProg p (processWait tid))) else none
  | .exit p code =>
    if s.InUser p then
      some (.ok ((s.setProg p (threadExit (s.myWaitStatus p) code)).log (.exiting p code)))
    else none
  | .step p memory =>
    match s.prog p with
    | [] => none
    | a :: rest => if s.Runnable p then some (s.act p memory a rest) else none

def Step (s : Processes) (l : ProcessLabel) (t : Processes) : Prop := s.next l = some (.ok t)

def nextState (s : Processes) (l : ProcessLabel) : Option Processes :=
  (s.next l).bind Except.toOption

theorem step_of_nextState {s t : Processes} {l : ProcessLabel} (h : s.nextState l = some t) :
    s.Step l t := by
  obtain ⟨r, hnext, hr⟩ := Option.bind_eq_some_iff.mp h
  cases r with
  | error e => cases hr
  | ok u =>
    cases hr
    exact hnext

/-- What a step that does not end in a fault can be: a call of a process in user mode, or
the first action of a runnable thread. -/
inductive Moves (s : Processes) : ProcessLabel → Processes → Prop
  | execute {p : Tid} (huser : s.InUser p) : Moves s (.execute p) (s.setProg p processExecute)
  | wait {p : Tid} (tid : ℤ) (huser : s.InUser p) :
      Moves s (.wait p tid) (s.setProg p (processWait tid))
  | exit {p : Tid} (code : Option ℤ) (huser : s.InUser p) : Moves s (.exit p code)
      ((s.setProg p (threadExit (s.myWaitStatus p) code)).log (.exiting p code))
  | step {p : Tid} {memory : Option ℤ} {a : Action} {rest more : List Action} {u : Processes}
      (hrun : s.Runnable p) (hprog : s.prog p = a :: rest)
      (heffect : s.effect p memory a = .ok (u, more)) :
      Moves s (.step p memory) (u.setProg p (more ++ rest))

theorem moves_of_step {s t : Processes} {l : ProcessLabel} (h : s.Step l t) : s.Moves l t := by
  cases l with
  | execute p =>
    obtain ⟨huser, ⟨⟩⟩ := Option.ite_none_right_eq_some.mp h
    exact .execute huser
  | wait p tid =>
    obtain ⟨huser, ⟨⟩⟩ := Option.ite_none_right_eq_some.mp h
    exact .wait tid huser
  | exit p code =>
    obtain ⟨huser, ⟨⟩⟩ := Option.ite_none_right_eq_some.mp h
    exact .exit code huser
  | step p memory =>
    rw [Step, next] at h
    cases hprog : s.prog p with
    | nil => simp [hprog] at h
    | cons a rest =>
      rw [hprog] at h
      obtain ⟨hrun, hact⟩ := Option.ite_none_right_eq_some.mp h
      rw [act] at hact
      split at hact
      · cases hact
      · split at hact
        · cases hact
        · next u more heffect =>
          cases hact
          exact .step hrun hprog heffect

end Processes

end CS162
