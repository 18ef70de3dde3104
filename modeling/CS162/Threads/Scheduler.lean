import CS162.Block
import CS162.Threads.Semaphore

/-!
# The scheduler

The part of `thread.c` that decides which thread runs, and the semaphores whose wait lists use
the same list element of a thread as `ready_list`.  A scheduler function runs with interrupts
off, so it is one step.  A timer interrupt is a `thread_yield` between two steps, and an
interrupt handler may call `sema_up` and `thread_unblock`.

The lists are sequences of threads here.  With one `elem` in each thread this is right only
as long as no thread is on two lists or twice on one, which is part of what is proved.

## Strategy

`Switching` is the state in which `schedule` is called: the current thread has got a new
status, and no thread is running.  Each function that gives up the processor leads to such
a state, and `schedule` leads back to an `Orderly` one.  A thread on a wait list is told by
its place in the code: it is inside `sema_down` on that semaphore.  The idle thread never
is, so it may be run from any status.
-/

namespace CS162

open Library Function List

/-- `enum thread_status`. -/
inductive RunStatus where
  | running
  | ready
  | blocked
  | dying
  deriving DecidableEq

/-- Where a thread is. -/
inductive RunPc where
  /-- In its function, or in an interrupt handler. -/
  | body
  /-- In the loop of `sema_down`. -/
  | down (k : ℕ)
  /-- In `idle`, at the write of `idle_thread`; `k` is `idle_started`. -/
  | idleStart (k : ℕ)
  /-- In `idle`, at `sema_up`. -/
  | idleUp (k : ℕ)
  | idleLoop
  deriving DecidableEq

/-- The place is in `idle`. -/
def RunPc.isIdle : RunPc → Bool
  | idleStart _ | idleUp _ | idleLoop => true
  | _ => false

/-- The place is in `idle`, and `idle_thread` has been set. -/
def RunPc.idleSet : RunPc → Bool
  | idleUp _ | idleLoop => true
  | _ => false

/-- Interrupts are on. -/
def RunPc.interruptible : RunPc → Bool
  | down _ => false
  | _ => true

/-- The variables of `thread.c`, the threads and the semaphores.  A thread is named by its
page, which can be used again after the thread is gone. -/
structure Scheduler where
  /-- The member `status`; `none` if the page holds no thread. -/
  status : Tid → Option RunStatus
  pc : Tid → RunPc
  ready : List Tid
  /-- `running_thread ()`. -/
  current : Tid
  /-- `idle_thread`. -/
  idle : Option Tid
  /-- `initial_thread`. -/
  initial : Tid
  /-- `thread_start` has created the idle thread. -/
  started : Bool
  semas : ℕ → Semaphore

/-- What the current thread, or an interrupt, does next. -/
inductive SchedLabel where
  /-- `thread_create`, up to its call of `thread_unblock`. -/
  | create (t : Tid)
  /-- The same in `thread_start`, for the idle thread. -/
  | start (t : Tid) (k : ℕ)
  | unblock (t : Tid)
  | block
  | yield
  | exit
  | down (k : ℕ)
  /-- The loop of `sema_down` after `thread_block` has returned. -/
  | resume
  | up (k : ℕ)
  /-- The next line of `idle`. -/
  | idle

namespace Scheduler

/-- `thread_init`. -/
def init (initial : Tid) (values : ℕ → UInt32) : Scheduler where
  status := update (fun _ => none) initial (some .running)
  pc _ := .body
  ready := []
  current := initial
  idle := none
  initial := initial
  started := false
  semas k := semaInit (values k)

@[simp] def setStatus (s : Scheduler) (t : Tid) (status : Option RunStatus) : Scheduler :=
  { s with status := update s.status t status }

@[simp] def goto (s : Scheduler) (t : Tid) (pc : RunPc) : Scheduler :=
  { s with pc := update s.pc t pc }

@[simp] def setSema (s : Scheduler) (k : ℕ) (sema : Semaphore) : Scheduler :=
  { s with semas := update s.semas k sema }

def pushReady (s : Scheduler) (t : Tid) : Scheduler := { s with ready := s.ready ++ [t] }

/-- `next_thread_to_run`, with what remains of `ready_list`. -/
def nextThreadToRun (s : Scheduler) : Option Tid × List Tid :=
  match s.ready with
  | [] => (s.idle, [])
  | t :: rest => (some t, rest)

/-- The switch to `t`, and the first line of `thread_schedule_tail`. -/
def dispatch (s : Scheduler) (t : Tid) (rest : List Tid) : Scheduler :=
  { s with ready := rest, current := t, status := update s.status t (some .running) }

/-- The rest of `thread_schedule_tail`: the thread we switched from is destroyed if it is
dying. -/
def scheduleTail (s : Scheduler) (prev : Tid) : Scheduler :=
  if prev ≠ s.current ∧ s.status prev = some .dying ∧ prev ≠ s.initial then s.setStatus prev none
  else s

def schedule (s : Scheduler) : Except Fault Scheduler :=
  if s.status s.current = some .running then .error (.panic "schedule")
  else
    match s.nextThreadToRun with
    | (none, _) => .error (.panic "schedule")
    | (some t, rest) =>
      if s.status t = none then .error (.panic "schedule")
      else .ok ((s.dispatch t rest).scheduleTail s.current)

def threadUnblock (s : Scheduler) (t : Tid) : Except Fault Scheduler :=
  if s.status t = some .blocked then .ok ((s.pushReady t).setStatus t (some .ready))
  else .error (.panic "thread_unblock")

def threadBlock (s : Scheduler) : Except Fault Scheduler :=
  (s.setStatus s.current (some .blocked)).schedule

def threadYield (s : Scheduler) : Except Fault Scheduler :=
  let s' := if s.idle ≠ some s.current then s.pushReady s.current else s
  (s'.setStatus s.current (some .ready)).schedule

def threadExit (s : Scheduler) : Except Fault Scheduler :=
  (s.setStatus s.current (some .dying)).schedule

/-- One round of the loop of `sema_down`. -/
def semaDown (s : Scheduler) (k : ℕ) : Except Fault Scheduler :=
  match CS162.semaDown (s.semas k) s.current with
  | (sema, true) => .ok ((s.setSema k sema).goto s.current .body)
  | (sema, false) => ((s.setSema k sema).goto s.current (.down k)).threadBlock

def semaUp (s : Scheduler) (k : ℕ) : Except Fault Scheduler :=
  match CS162.semaUp (s.semas k) with
  | (sema, none) => .ok (s.setSema k sema)
  | (sema, some t) => (s.setSema k sema).threadUnblock t

/-- The page for a new thread, as `init_thread` leaves it. -/
def initThread (s : Scheduler) (t : Tid) (pc : RunPc) : Scheduler :=
  (s.setStatus t (some .blocked)).goto t pc

/-- What a label does; nothing if it is not possible. -/
def apply (s : Scheduler) : SchedLabel → Except Fault (Option Scheduler)
  | .create t =>
    if s.pc s.current = .body ∧ s.status t = none then .ok (some (s.initThread t .body))
    else .ok none
  | .start t k =>
    if s.pc s.current = .body ∧ s.status t = none ∧ s.started = false then
      .ok (some { s.initThread t (.idleStart k) with started := true })
    else .ok none
  | .unblock t =>
    if (s.pc s.current).interruptible then some <$> s.threadUnblock t else .ok none
  | .block =>
    if s.pc s.current = .body ∨ s.pc s.current = .idleLoop then some <$> s.threadBlock
    else .ok none
  | .yield => if (s.pc s.current).interruptible then some <$> s.threadYield else .ok none
  | .exit => if s.pc s.current = .body then some <$> s.threadExit else .ok none
  | .down k => if s.pc s.current = .body then some <$> s.semaDown k else .ok none
  | .resume =>
    match s.pc s.current with
    | .down k => some <$> s.semaDown k
    | _ => .ok none
  | .up k => if (s.pc s.current).interruptible then some <$> s.semaUp k else .ok none
  | .idle =>
    match s.pc s.current with
    | .idleStart k => .ok (some ({ s with idle := some s.current }.goto s.current (.idleUp k)))
    | .idleUp k => do
        let s' ← s.semaUp k
        return some (s'.goto s'.current .idleLoop)
    | _ => .ok none

/-- The next state, if there is one. -/
def next (s : Scheduler) (l : SchedLabel) : Option Scheduler :=
  match s.apply l with
  | .ok s' => s'
  | .error _ => none

def Step (s : Scheduler) (l : SchedLabel) (s' : Scheduler) : Prop := s.next l = some s'

variable {s s' : Scheduler} {t : Tid} {pc : RunPc} {l : SchedLabel}

theorem step_iff : Step s l s' ↔ s.apply l = .ok (some s') := by
  unfold Step next
  split
  · next r hr => rw [hr, Except.ok.injEq]
  · next e he => simp [he]

/-! ## The lists and the status -/

/-- What holds of the lists whether a thread runs or not. -/
structure Listed (s : Scheduler) : Prop where
  ready : ∀ t, t ∈ s.ready ↔ s.status t = some .ready ∧ s.idle ≠ some t
  nodup : s.ready.Nodup
  waiting : ∀ k, ∀ t ∈ (s.semas k).waiters, s.status t = some .blocked ∧ s.pc t = .down k
  waitingNodup : ∀ k, (s.semas k).waiters.Nodup
  idle : ∀ i, s.idle = some i →
    (s.pc i).idleSet = true ∧ s.status i ≠ none ∧ s.status i ≠ some .dying
  one : ∀ t u, (s.pc t).isIdle = true → (s.pc u).isIdle = true → s.status t ≠ none →
    s.status u ≠ none → t = u
  start : s.started = false → ∀ t, s.status t ≠ none → (s.pc t).isIdle = false

/-- **The invariant between two steps.** -/
structure Orderly (s : Scheduler) : Prop extends Listed s where
  running : ∀ t, s.status t = some .running ↔ t = s.current

/-- The state in which `schedule` is called. -/
structure Switching (s : Scheduler) : Prop extends Listed s where
  running : ∀ t, s.status t ≠ some .running

theorem Orderly.init (initial : Tid) (values : ℕ → UInt32) : (init initial values).Orderly where
  ready t := by
    by_cases ht : t = initial <;> simp [Scheduler.init, ht]
  nodup := nodup_nil
  waiting _ _ h := nomatch h
  waitingNodup _ := nodup_nil
  idle _ h := nomatch h
  one _ _ h := nomatch h
  start _ _ _ := rfl
  running t := by
    by_cases ht : t = initial <;> simp [Scheduler.init, ht]

section

variable (h : s.Listed)
include h

/-- Thread `t` gets a new status, and `ready_list` is brought in line with it. -/
theorem Listed.setStatus {status : Option RunStatus} (list : List Tid)
    (hready : ∀ x, x ∈ list ↔ update s.status t status x = some .ready ∧ s.idle ≠ some x)
    (hnodup : list.Nodup) (hwaiting : ∀ k, t ∉ (s.semas k).waiters)
    (hidle : s.idle = some t → status ≠ none ∧ status ≠ some .dying) (hold : s.status t ≠ none) :
    ({ s with ready := list }.setStatus t status).Listed := by
  have hsome : ∀ x, update s.status t status x ≠ none → s.status x ≠ none := by
    intro x hx
    by_cases hxt : x = t
    · rwa [hxt]
    · rwa [update_of_ne hxt] at hx
  refine
    { h with ready := hready, nodup := hnodup, waiting := ?_, idle := ?_, one := ?_, start := ?_ }
  · intro k x hx
    have hne : x ≠ t := fun heq => hwaiting k (heq ▸ hx)
    obtain ⟨hblocked, hpc⟩ := h.waiting k x hx
    exact ⟨(update_of_ne hne _ _).trans hblocked, hpc⟩
  · intro i hi
    obtain ⟨hpc, hlive, hdying⟩ := h.idle i hi
    refine ⟨hpc, ?_⟩
    by_cases hit : i = t
    · subst hit
      have hstatus := hidle hi
      simpa using hstatus
    · simpa [hit] using ⟨hlive, hdying⟩
  · intro x y hx hy hxs hys
    exact h.one x y hx hy (hsome x hxs) (hsome y hys)
  · intro hstarted x hx
    exact h.start hstarted x (hsome x hx)

theorem Listed.setStatus_same {status : Option RunStatus} (hbefore : s.status t ≠ some .ready)
    (hafter : status ≠ some .ready) (hwaiting : ∀ k, t ∉ (s.semas k).waiters)
    (hidle : s.idle = some t → status ≠ none ∧ status ≠ some .dying) (hold : s.status t ≠ none) :
    (s.setStatus t status).Listed := by
  refine h.setStatus s.ready ?_ h.nodup hwaiting hidle hold
  intro x
  rw [h.ready]
  by_cases hx : x = t
  · simp [hx, hbefore, hafter]
  · rw [update_of_ne hx]

theorem Listed.setStatus_ready (hbefore : s.status t ≠ some .ready)
    (hwaiting : ∀ k, t ∉ (s.semas k).waiters) (hidle : s.idle ≠ some t) (hold : s.status t ≠ none) :
    ((s.pushReady t).setStatus t (some .ready)).Listed := by
  have hnot : t ∉ s.ready := fun hmem => hbefore ((h.ready t).mp hmem).1
  refine h.setStatus (s.ready ++ [t]) ?_ ?_ hwaiting (fun hi => absurd hi hidle) hold
  · intro x
    rw [mem_append, h.ready]
    by_cases hx : x = t
    · simp [hx, hidle]
    · simp [hx]
  · exact concat_eq_append ▸ h.nodup.concat hnot

theorem Listed.not_waiting (hstatus : s.status t ≠ some .blocked) (k : ℕ) :
    t ∉ (s.semas k).waiters := fun hmem => hstatus (h.waiting k t hmem).1

theorem Listed.idle_not_waiting (hidle : s.idle = some t) (k : ℕ) : t ∉ (s.semas k).waiters := by
  intro hmem
  have hset := (h.idle t hidle).1
  rw [(h.waiting k t hmem).2] at hset
  cases hset

/-! ## `schedule` -/

theorem Listed.dispatch {rest : List Tid}
    (hready : ∀ x, x ∈ rest ↔ x ≠ t ∧ s.status x = some .ready ∧ s.idle ≠ some x)
    (hnodup : rest.Nodup) (hwaiting : ∀ k, t ∉ (s.semas k).waiters) (hold : s.status t ≠ none) :
    (s.dispatch t rest).Listed := by
  have hlisted : ({ s with ready := rest }.setStatus t (some .running)).Listed := by
    refine h.setStatus rest ?_ hnodup hwaiting (fun _ => ⟨nofun, nofun⟩) hold
    intro x
    rw [hready]
    by_cases hx : x = t <;> simp [hx]
  exact { hlisted with }

theorem Listed.nextThreadToRun {rest : List Tid}
    (hnext : s.nextThreadToRun = (some t, rest)) : s.status t ≠ none ∧
      (∀ k, t ∉ (s.semas k).waiters) ∧ (s.dispatch t rest).Listed := by
  unfold Scheduler.nextThreadToRun at hnext
  cases hlist : s.ready with
  | nil =>
    rw [hlist] at hnext
    obtain ⟨hidle, rfl⟩ := Prod.mk.inj hnext
    have hlive := (h.idle t hidle).2.1
    have hwaiting := h.idle_not_waiting hidle
    refine ⟨hlive, hwaiting, ?_⟩
    apply h.dispatch _ nodup_nil hwaiting hlive
    intro x
    rw [← h.ready, hlist]
    simp
  | cons u tail =>
    rw [hlist] at hnext
    obtain ⟨⟨⟩, hrest⟩ := Prod.mk.inj hnext
    subst hrest
    have hnodup := h.nodup
    rw [hlist, nodup_cons] at hnodup
    have hready : s.status t = some .ready := ((h.ready t).mp (hlist ▸ mem_cons_self)).1
    have hlive : s.status t ≠ none := by
      rw [hready]
      nofun
    have hwaiting := h.not_waiting (t := t) (by rw [hready]; nofun)
    refine ⟨hlive, hwaiting, ?_⟩
    apply h.dispatch _ hnodup.2 hwaiting hlive
    intro x
    rw [← h.ready, hlist, mem_cons]
    constructor
    · intro hx
      exact ⟨fun heq => hnodup.1 (heq ▸ hx), .inr hx⟩
    · rintro ⟨hne, hx⟩
      exact hx.resolve_left hne

end

theorem Orderly.scheduleTail (h : s.Orderly) (prev : Tid) : (s.scheduleTail prev).Orderly := by
  unfold Scheduler.scheduleTail
  split
  · next hfree =>
    obtain ⟨hne, hdying, -⟩ := hfree
    refine ⟨?_, ?_⟩
    · apply h.setStatus_same
      · rw [hdying]
        nofun
      · nofun
      · exact h.not_waiting (by rw [hdying]; nofun)
      · intro hidle
        exact absurd hdying (h.idle prev hidle).2.2
      · rw [hdying]
        nofun
    · intro x
      rw [show (s.setStatus prev none).current = s.current from rfl, ← h.running]
      by_cases hx : x = prev
      · simp [hx, hdying]
      · simp [hx]
  · exact h

/-- **`schedule` leaves one thread running.** -/
theorem Switching.schedule (h : s.Switching) (hschedule : s.schedule = .ok s') : s'.Orderly := by
  unfold Scheduler.schedule at hschedule
  rw [if_neg (h.running _)] at hschedule
  split at hschedule
  · cases hschedule
  next t rest hnext =>
  split at hschedule
  · cases hschedule
  cases hschedule
  obtain ⟨-, -, hlisted⟩ := h.nextThreadToRun hnext
  apply Orderly.scheduleTail
  refine ⟨hlisted, ?_⟩
  intro x
  by_cases hx : x = t
  · simp [dispatch, hx]
  · simpa [dispatch, hx] using h.running x

/-- **`schedule` finds a thread** once there is an idle thread. -/
theorem Switching.schedule_isOk (h : s.Switching) (hidle : s.idle ≠ none) :
    ∃ s', s.schedule = .ok s' := by
  unfold Scheduler.schedule
  rw [if_neg (h.running _)]
  have hsome : ∃ t rest, s.nextThreadToRun = (some t, rest) := by
    unfold Scheduler.nextThreadToRun
    cases s.ready with
    | nil =>
      obtain ⟨i, hi⟩ := Option.ne_none_iff_exists'.mp hidle
      exact ⟨i, [], by rw [hi]⟩
    | cons t rest => exact ⟨t, rest, rfl⟩
  obtain ⟨t, rest, hnext⟩ := hsome
  simp only [hnext, if_neg (h.nextThreadToRun hnext).1]
  exact ⟨_, rfl⟩

/-! ## Giving up the processor -/

theorem Orderly.current_status (h : s.Orderly) : s.status s.current = some .running :=
  (h.running s.current).mpr rfl

/-- Nobody runs after the current thread has got another status. -/
theorem Orderly.none_running (h : s.Orderly) {status : Option RunStatus}
    (hstatus : status ≠ some .running) (x : Tid) :
    update s.status s.current status x ≠ some .running := by
  by_cases hx : x = s.current
  · rwa [hx, update_self]
  · rw [update_of_ne hx]
    exact fun hrunning => hx ((h.running x).mp hrunning)

theorem Orderly.current_not_waiting (h : s.Orderly) (k : ℕ) :
    s.current ∉ (s.semas k).waiters := h.not_waiting (by rw [h.current_status]; nofun) k

/-- A thread whose place is not in `idle` is not the idle thread. -/
theorem Listed.not_idle (h : s.Listed) (hpc : (s.pc t).isIdle = false) : s.idle ≠ some t := by
  intro hidle
  have hset := (h.idle t hidle).1
  cases hcase : s.pc t <;> rw [hcase] at hpc hset <;> simp_all [RunPc.isIdle, RunPc.idleSet]

theorem Orderly.block (h : s.Orderly) : (s.setStatus s.current (some .blocked)).Switching where
  toListed := h.setStatus_same (by rw [h.current_status]; nofun) nofun h.current_not_waiting
    (fun _ => ⟨nofun, nofun⟩) (by rw [h.current_status]; nofun)
  running := h.none_running nofun

theorem Orderly.exit (h : s.Orderly) (hpc : s.pc s.current = .body) :
    (s.setStatus s.current (some .dying)).Switching where
  toListed := h.setStatus_same (by rw [h.current_status]; nofun) nofun h.current_not_waiting
    (fun hidle => absurd hidle (h.not_idle (by rw [hpc]; rfl))) (by rw [h.current_status]; nofun)
  running := h.none_running nofun

theorem Orderly.yield (h : s.Orderly) :
    ((if s.idle ≠ some s.current then s.pushReady s.current else s).setStatus s.current
      (some .ready)).Switching := by
  split
  · next hidle =>
    exact ⟨h.setStatus_ready (by rw [h.current_status]; nofun) h.current_not_waiting hidle
      (by rw [h.current_status]; nofun), h.none_running nofun⟩
  next hidle =>
  refine ⟨h.setStatus s.ready ?_ h.nodup h.current_not_waiting
    (fun _ => ⟨nofun, nofun⟩) (by rw [h.current_status]; nofun), h.none_running nofun⟩
  intro x
  rw [h.ready]
  by_cases hx : x = s.current
  · simp [hx, hidle]
  · rw [update_of_ne hx]

/-! ## Semaphores -/

theorem Listed.goto (h : s.Listed) (hwaiting : ∀ k, t ∉ (s.semas k).waiters)
    (hidle : s.idle ≠ some t) (hpc : pc.isIdle = false) : (s.goto t pc).Listed := by
  have hplace : ∀ x, ((s.goto t pc).pc x).isIdle = true → x ≠ t ∧ (s.pc x).isIdle = true := by
    intro x hx
    by_cases hxt : x = t
    · simp [hxt, hpc] at hx
    · exact ⟨hxt, by simpa [hxt] using hx⟩
  refine { h with waiting := ?_, idle := ?_, one := ?_, start := ?_ }
  · intro k x hx
    have hne : x ≠ t := fun heq => hwaiting k (heq ▸ hx)
    obtain ⟨hblocked, hdown⟩ := h.waiting k x hx
    exact ⟨hblocked, (update_of_ne hne _ _).trans hdown⟩
  · intro i hi
    have hne : i ≠ t := fun heq => hidle (heq ▸ hi)
    obtain ⟨hset, hlive⟩ := h.idle i hi
    exact ⟨by simpa [hne] using hset, hlive⟩
  · intro x y hx hy
    exact h.one x y (hplace x hx).2 (hplace y hy).2
  · intro hstarted x hx
    by_contra hnot
    rw [Bool.not_eq_false] at hnot
    have hfalse := h.start hstarted x hx
    rw [(hplace x hnot).2] at hfalse
    cases hfalse

theorem Listed.setSema (h : s.Listed) {k : ℕ} {sema : Semaphore}
    (hwaiting : ∀ x ∈ sema.waiters, s.status x = some .blocked ∧ s.pc x = .down k)
    (hnodup : sema.waiters.Nodup) : (s.setSema k sema).Listed := by
  refine { h with waiting := ?_, waitingNodup := ?_ }
  · exact (forall_update_iff s.semas fun k sema =>
      ∀ x ∈ sema.waiters, s.status x = some .blocked ∧ s.pc x = .down k).mpr
      ⟨hwaiting, fun j _ => h.waiting j⟩
  · exact (forall_update_iff s.semas fun _ sema => sema.waiters.Nodup).mpr
      ⟨hnodup, fun j _ => h.waitingNodup j⟩

section

variable (h : s.Orderly)
include h

theorem Orderly.setValue (k : ℕ) (value : UInt32) :
    (s.setSema k { s.semas k with value := value }).Orderly :=
  ⟨h.setSema (h.waiting k) (h.waitingNodup k), h.running⟩

theorem Orderly.sleep {k : ℕ} (hpc : (s.pc s.current).isIdle = false) :
    (((s.setSema k ⟨(s.semas k).value, (s.semas k).waiters ++ [s.current]⟩).goto s.current
      (.down k)).setStatus s.current (some .blocked)).Switching := by
  have hblocked : ((s.setStatus s.current (some .blocked)).goto s.current (.down k)).Listed :=
    h.block.goto h.current_not_waiting (h.not_idle hpc) rfl
  have hlisted : (((s.setStatus s.current (some .blocked)).goto s.current (.down k)).setSema k
      ⟨(s.semas k).value, (s.semas k).waiters ++ [s.current]⟩).Listed := by
    apply hblocked.setSema
    · intro x hx
      rcases mem_append.mp hx with hold | hnew
      · exact hblocked.waiting k x hold
      · rw [mem_singleton.mp hnew]
        exact ⟨update_self _ _ _, update_self _ _ _⟩
    · exact concat_eq_append ▸ (h.waitingNodup k).concat (h.current_not_waiting k)
  exact ⟨hlisted, h.none_running nofun⟩

theorem Orderly.unblock (hwaiting : ∀ k, t ∉ (s.semas k).waiters)
    (hidle : s.idle ≠ some t) (hunblock : s.threadUnblock t = .ok s') : s'.Orderly := by
  unfold threadUnblock at hunblock
  split at hunblock
  · next hblocked =>
    cases hunblock
    refine ⟨h.setStatus_ready (by rw [hblocked]; nofun) hwaiting hidle
      (by rw [hblocked]; nofun), ?_⟩
    intro x
    rw [show ((s.pushReady t).setStatus t (some .ready)).current = s.current from rfl, ← h.running]
    by_cases hx : x = t
    · simp [hx, hblocked]
    · simp [pushReady, hx]
  · cases hunblock

/-- **`sema_up` wakes a blocked thread.**  The assertion of `thread_unblock` holds. -/
theorem Orderly.semaUp (k : ℕ) :
    ∃ s', s.semaUp k = .ok s' ∧ s'.Orderly ∧ s'.pc = s.pc ∧ s'.current = s.current ∧
      s'.idle = s.idle := by
  unfold Scheduler.semaUp CS162.semaUp
  cases hwaiters : (s.semas k).waiters with
  | nil =>
    refine ⟨_, rfl, ?_, rfl, rfl, rfl⟩
    have hvalue := h.setValue k ((s.semas k).value + 1)
    simp only [hwaiters] at hvalue
    exact hvalue
  | cons t rest =>
    obtain ⟨hblocked, hpc⟩ := h.waiting k t (hwaiters ▸ mem_cons_self)
    have hnodup := h.waitingNodup k
    rw [hwaiters, nodup_cons] at hnodup
    have hset : (s.setSema k ⟨(s.semas k).value + 1, rest⟩).Orderly := by
      refine ⟨h.setSema ?_ hnodup.2, h.running⟩
      intro x hx
      exact h.waiting k x (hwaiters ▸ mem_cons_of_mem t hx)
    have hunblock : (s.setSema k ⟨(s.semas k).value + 1, rest⟩).threadUnblock t =
        .ok (((s.setSema k ⟨(s.semas k).value + 1, rest⟩).pushReady t).setStatus t
          (some .ready)) := if_pos hblocked
    refine ⟨_, hunblock, ?_, rfl, rfl, rfl⟩
    apply hset.unblock _ _ hunblock
    · intro j hj
      by_cases hjk : j = k
      · subst hjk
        have hrest : t ∈ rest := by simpa using hj
        exact hnodup.1 hrest
      · have hold : t ∈ (s.semas j).waiters := by simpa [hjk] using hj
        have hdown := (h.waiting j t hold).2
        rw [hpc] at hdown
        cases hdown
        exact hjk rfl
    · exact h.not_idle (by rw [hpc]; rfl)

/-! ## New threads and the idle thread -/

theorem Orderly.initThread (hnone : s.status t = none) {started : Bool}
    (hone : pc.isIdle = true → s.started = false)
    (hstart : started = false → s.started = false ∧ pc.isIdle = false) :
    ({ s.initThread t pc with started := started } : Scheduler).Orderly := by
  have hstatus : ∀ x, x ≠ t → update s.status t (some .blocked) x = s.status x :=
    fun x hx => update_of_ne hx _ _
  have hplace : ∀ x, x ≠ t → update s.pc t pc x = s.pc x := fun x hx =>
    update_of_ne hx _ _
  have hother : ∀ x, s.status x ≠ none → x ≠ t := fun x hx heq => hx (heq ▸ hnone)
  have hcase : ∀ x, (update s.pc t pc x).isIdle = true →
      update s.status t (some .blocked) x ≠ none →
      x = t ∧ pc.isIdle = true ∨ (s.pc x).isIdle = true ∧ s.status x ≠ none := by
    intro x hidle hlive
    by_cases hx : x = t
    · rw [hx, update_self] at hidle
      exact .inl ⟨hx, hidle⟩
    · rw [hplace x hx] at hidle
      rw [hstatus x hx] at hlive
      exact .inr ⟨hidle, hlive⟩
  have hfirst : s.started = false → ∀ x, ¬ ((s.pc x).isIdle = true ∧ s.status x ≠ none) := by
    rintro hstarted x ⟨hidle, hlive⟩
    rw [h.start hstarted x hlive] at hidle
    cases hidle
  refine { h with ready := ?_, waiting := ?_, idle := ?_, one := ?_, start := ?_, running := ?_ }
  · intro x
    show x ∈ s.ready ↔ update s.status t (some .blocked) x = some .ready ∧ _
    rw [h.ready]
    by_cases hx : x = t
    · simp [hx, hnone]
    · rw [hstatus x hx]
      rfl
  · intro k x hx
    obtain ⟨hblocked, hdown⟩ := h.waiting k x hx
    have hne := hother x (by rw [hblocked]; nofun)
    exact ⟨(hstatus x hne).trans hblocked, (hplace x hne).trans hdown⟩
  · intro i hi
    obtain ⟨hset, hlive, hdying⟩ := h.idle i hi
    have hne := hother i hlive
    show (update s.pc t pc i).idleSet = true ∧ update s.status t (some .blocked) i ≠ none ∧
      update s.status t (some .blocked) i ≠ some .dying
    rw [hplace i hne, hstatus i hne]
    exact ⟨hset, hlive, hdying⟩
  · intro x y hx hy hxs hys
    -- another thread in `idle` would have been created before
    rcases hcase x hx hxs with ⟨hxt, hpc⟩ | ⟨hx, hxs⟩
    · rcases hcase y hy hys with ⟨hyt, -⟩ | hy
      · rw [hxt, hyt]
      · exact absurd hy (hfirst (hone hpc) y)
    · rcases hcase y hy hys with ⟨-, hpc⟩ | ⟨hy, hys⟩
      · exact absurd ⟨hx, hxs⟩ (hfirst (hone hpc) x)
      · exact h.one x y hx hy hxs hys
  · intro hstarted x hlive
    obtain ⟨hbefore, hpc⟩ := hstart hstarted
    by_contra hidle
    rcases hcase x (eq_true_of_ne_false hidle) hlive with ⟨-, hidle⟩ | hold
    · rw [hpc] at hidle
      cases hidle
    · exact hfirst hbefore x hold
  · intro x
    show update s.status t (some .blocked) x = some .running ↔ x = s.current
    rw [← h.running]
    by_cases hx : x = t
    · simp [hx, hnone]
    · rw [hstatus x hx]

theorem Orderly.gotoIdle (hpc : (s.pc s.current).isIdle = true)
    (hset : pc.idleSet = true) : (s.goto s.current pc).Orderly := by
  have hidle : pc.isIdle = true := by cases pc <;> simp_all [RunPc.idleSet, RunPc.isIdle]
  have hplace : ∀ x, ((s.goto s.current pc).pc x).isIdle = (s.pc x).isIdle := by
    intro x
    by_cases hx : x = s.current <;> simp [hx, hpc, hidle]
  refine { h with waiting := ?_, idle := ?_, one := ?_, start := ?_ }
  · intro k x hx
    obtain ⟨hblocked, hdown⟩ := h.waiting k x hx
    have hne : x ≠ s.current := fun heq => h.current_not_waiting k (heq ▸ hx)
    exact ⟨hblocked, (update_of_ne hne _ _).trans hdown⟩
  · intro i hi
    obtain ⟨hiset, hlive⟩ := h.idle i hi
    refine ⟨?_, hlive⟩
    by_cases hic : i = s.current
    · simp [hic, hset]
    · simpa [hic] using hiset
  · intro x y hx hy
    rw [hplace] at hx hy
    exact h.one x y hx hy
  · intro hstarted x hx
    rw [hplace]
    exact h.start hstarted x hx

theorem Orderly.setIdle {k : ℕ} (hpc : s.pc s.current = .idleStart k) :
    ({ s with idle := some s.current }.goto s.current (.idleUp k)).Orderly := by
  have hlive : s.status s.current ≠ none := by
    rw [h.current_status]
    nofun
  have hnone : s.idle = none := by
    by_contra hsome
    obtain ⟨i, hi⟩ := Option.ne_none_iff_exists'.mp hsome
    obtain ⟨hset, hilive, -⟩ := h.idle i hi
    have hisIdle : (s.pc i).isIdle = true := by
      cases hcase : s.pc i <;> rw [hcase] at hset <;> simp_all [RunPc.idleSet, RunPc.isIdle]
    have heq : i = s.current := h.one i s.current hisIdle (by rw [hpc]; rfl) hilive hlive
    rw [heq, hpc] at hset
    cases hset
  have hgoto : (s.goto s.current (.idleUp k)).Orderly := h.gotoIdle (by rw [hpc]; rfl) rfl
  refine { hgoto with ready := ?_, idle := ?_ }
  · intro x
    have hx := hgoto.ready x
    rw [show (s.goto s.current (.idleUp k)).idle = none from hnone] at hx
    refine hx.trans ?_
    constructor
    · rintro ⟨hready, -⟩
      refine ⟨hready, ?_⟩
      rintro ⟨⟩
      exact absurd (h.current_status.symm.trans hready) nofun
    · exact fun hready => ⟨hready.1, nofun⟩
  · rintro _ ⟨⟩
    refine ⟨by simp [RunPc.idleSet], hlive, ?_⟩
    intro hdying
    exact absurd (h.current_status.symm.trans hdying) nofun

/-! ## Every step -/

theorem Orderly.semaDown {k : ℕ} (hpc : (s.pc s.current).isIdle = false) :
    (∀ s', s.semaDown k = .ok s' → s'.Orderly) ∧ (s.idle ≠ none → ∃ s', s.semaDown k = .ok s') := by
  by_cases hvalue : (s.semas k).value = 0
  · have hsleep := h.sleep (k := k) hpc
    rw [Scheduler.semaDown, CS162.semaDown, if_pos hvalue]
    exact ⟨fun _ => hsleep.schedule, hsleep.schedule_isOk⟩
  · rw [Scheduler.semaDown, CS162.semaDown, if_neg hvalue]
    refine ⟨?_, fun _ => ⟨_, rfl⟩⟩
    rintro _ ⟨⟩
    have hset := h.setValue k ((s.semas k).value - 1)
    exact ⟨hset.goto hset.current_not_waiting (h.not_idle hpc) rfl, h.running⟩

end

/-- A direct call of `thread_unblock` is for a thread that does not sleep in `sema_down`, and
not for the idle thread. -/
def DirectUnblock (s : Scheduler) (l : SchedLabel) : Prop :=
  ∀ t, l = .unblock t → (s.pc t).interruptible = true ∧ s.idle ≠ some t

theorem not_isIdle_of_body (hpc : s.pc t = .body) : (s.pc t).isIdle = false := by
  rw [hpc]
  rfl

/-- **The result of one step.** -/
theorem Orderly.apply (h : s.Orderly) (hguard : s.DirectUnblock l)
    (happly : s.apply l = .ok (some s')) : s'.Orderly := by
  cases l with
  | create t =>
    obtain ⟨⟨-, hnone⟩, ⟨⟩⟩ := ite_ok_none_eq_ok_some.mp happly
    exact h.initThread hnone nofun fun hstarted => ⟨hstarted, rfl⟩
  | start t k =>
    obtain ⟨⟨-, hnone, hstarted⟩, ⟨⟩⟩ := ite_ok_none_eq_ok_some.mp happly
    exact h.initThread hnone (fun _ => hstarted) nofun
  | unblock t =>
    obtain ⟨-, hu⟩ := ite_map_some_eq_ok.mp happly
    obtain ⟨hpc, hidle⟩ := hguard t rfl
    apply h.unblock _ hidle hu
    intro k hmem
    rw [(h.waiting k t hmem).2] at hpc
    cases hpc
  | block =>
    obtain ⟨-, hu⟩ := ite_map_some_eq_ok.mp happly
    exact h.block.schedule hu
  | yield =>
    obtain ⟨-, hu⟩ := ite_map_some_eq_ok.mp happly
    exact h.yield.schedule hu
  | exit =>
    obtain ⟨hpc, hu⟩ := ite_map_some_eq_ok.mp happly
    exact (h.exit hpc).schedule hu
  | down k =>
    obtain ⟨hpc, hu⟩ := ite_map_some_eq_ok.mp happly
    exact (h.semaDown (not_isIdle_of_body hpc)).1 _ hu
  | resume =>
    rw [apply] at happly
    split at happly
    · next k hpc =>
      obtain ⟨u, hu, ⟨⟩⟩ := map_eq_ok.mp happly
      exact (h.semaDown (by rw [hpc]; rfl)).1 _ hu
    · cases happly
  | up k =>
    obtain ⟨-, hu⟩ := ite_map_some_eq_ok.mp happly
    obtain ⟨v, hv, horderly, -⟩ := h.semaUp k
    rw [hu] at hv
    cases hv
    exact horderly
  | idle =>
    rw [apply] at happly
    split at happly
    · next k hpc =>
      cases happly
      exact h.setIdle hpc
    · next k hpc =>
      obtain ⟨u, hu, ⟨⟩⟩ := bind_eq_ok.mp happly
      obtain ⟨v, hv, horderly, hsame, hcurrent, -⟩ := h.semaUp k
      rw [hu] at hv
      cases hv
      apply horderly.gotoIdle _ rfl
      rw [hsame, hcurrent, hpc]
      rfl
    · cases happly

/-- **No assertion fails in the next step** once there is an idle thread; a direct call of
`thread_unblock` is the duty of its caller. -/
theorem Orderly.apply_isOk (h : s.Orderly) (hidle : s.idle ≠ none)
    (hl : ∀ t, l ≠ .unblock t) : ∃ r, s.apply l = .ok r := by
  cases l with
  | create t | start t k => exact ite_ok_none_isOk fun _ => ⟨_, rfl⟩
  | unblock t => exact absurd rfl (hl t)
  | block =>
    exact ite_map_some_isOk fun _ => h.block.schedule_isOk hidle
  | yield =>
    exact ite_map_some_isOk fun _ => h.yield.schedule_isOk (by split <;> exact hidle)
  | exit =>
    exact ite_map_some_isOk fun hpc => (h.exit hpc).schedule_isOk hidle
  | down k =>
    exact ite_map_some_isOk fun hpc => (h.semaDown (not_isIdle_of_body hpc)).2 hidle
  | resume =>
    rw [Scheduler.apply]
    split
    · next k hpc =>
      obtain ⟨u, hu⟩ := (h.semaDown (k := k) (by rw [hpc]; rfl)).2 hidle
      exact ⟨_, map_eq_ok.mpr ⟨u, hu, rfl⟩⟩
    · exact ⟨none, rfl⟩
  | up k =>
    obtain ⟨u, hu, -⟩ := h.semaUp k
    exact ite_map_some_isOk fun _ => ⟨u, hu⟩
  | idle =>
    rw [Scheduler.apply]
    split
    · exact ⟨_, rfl⟩
    · next k hpc =>
      obtain ⟨u, hu, -⟩ := h.semaUp k
      exact ⟨_, bind_eq_ok.mpr ⟨u, hu, rfl⟩⟩
    · exact ⟨none, rfl⟩

/-! ## Whole runs -/

/-- **The structure of the scheduler.**  As long as a direct call of `thread_unblock` is for
a thread that has called `thread_block` itself, one thread is running, `ready_list` has each
ready thread but the idle one, once, the threads on the wait lists are blocked and each is on
one list, once; `sema_up` wakes a blocked thread, and `schedule` finds a thread. -/
theorem scheduler_structure {initial : Tid} {values : ℕ → UInt32} {labels : List SchedLabel}
    (hrun : Run (Guarded DirectUnblock Step) (init initial values) labels s) :
    (∃! t, s.status t = some .running) ∧
      (∀ t, t ∈ s.ready ↔ s.status t = some .ready ∧ s.idle ≠ some t) ∧ s.ready.Nodup ∧
      (∀ k, ∀ t ∈ (s.semas k).waiters, s.status t = some .blocked ∧ t ∉ s.ready) ∧
      (∀ k j t, t ∈ (s.semas k).waiters → t ∈ (s.semas j).waiters → k = j) ∧
      (∀ k, (s.semas k).waiters.Nodup) ∧
      (∀ k, ∃ s', s.semaUp k = .ok s') ∧
      (s.idle ≠ none → ∀ l, (∀ t, l ≠ .unblock t) → ∃ r, s.apply l = .ok r) := by
  have h : s.Orderly := by
    apply hrun.invariant (I := Orderly) (Orderly.init initial values)
    rintro s l s' hs ⟨hguard, hstep⟩
    exact hs.apply hguard (step_iff.mp hstep)
  refine ⟨⟨s.current, h.current_status, fun t => (h.running t).mp⟩, h.ready, h.nodup, ?_, ?_,
    h.waitingNodup, ?_, fun hidle l => h.apply_isOk hidle⟩
  · intro k t hmem
    have hblocked := (h.waiting k t hmem).1
    refine ⟨hblocked, fun hready => ?_⟩
    exact absurd (hblocked.symm.trans ((h.ready t).mp hready).1) nofun
  · intro k j t hk hj
    have heq := (h.waiting k t hk).2.symm.trans (h.waiting j t hj).2
    cases heq
    rfl
  · intro k
    obtain ⟨s', hup, -⟩ := h.semaUp k
    exact ⟨s', hup⟩

/-- The direct calls that the condition refuses. -/
def refused (s : Scheduler) : SchedLabel → Bool
  | .unblock t => !(s.pc t).interruptible || decide (s.idle = some t)
  | _ => false

theorem directUnblock_of_not_refused (h : ¬ s.refused l = true) : s.DirectUnblock l := by
  rintro t rfl
  simpa [refused] using h

/-- The kernel starts and creates two threads; the first of them sleeps on a semaphore, the
second is ready. -/
theorem scheduler_structure_two_threads : ∃ s, Run (Guarded DirectUnblock Step) (init 0 fun _ => 0)
        [.start 1 0, .unblock 1, .down 0, .idle, .idle, .block, .resume, .create 2, .unblock 2,
          .yield, .down 1, .create 3, .unblock 3] s ∧
      s.ready = [3] ∧ (s.semas 1).waiters = [2] ∧ ∃ s', s.semaUp 1 = .ok s' := by
  refine exists_run_of_imp (guarded_of_ite (fun _ _ _ hstep => hstep)
    fun _ _ => directUnblock_of_not_refused)
    (fun s => s.ready = [3] ∧ (s.semas 1).waiters = [2]) (by decide) ?_
  intro s hrun ⟨hready, hwaiters⟩
  exact ⟨hready, hwaiters, (scheduler_structure hrun).2.2.2.2.2.2.1 1⟩

/-- Thread 2 sleeps in `sema_down` and is unblocked directly: it is on both lists, and the
next `sema_up` fails the assertion of `thread_unblock`. -/
theorem semaphore_sleeper_on_both_lists : ∃ s, Run Step (init 0 fun _ => 0)
        [.start 1 0, .unblock 1, .down 0, .idle, .idle, .block, .resume, .create 2, .unblock 2,
          .yield, .down 1, .unblock 2] s ∧
      2 ∈ s.ready ∧ 2 ∈ (s.semas 1).waiters ∧
      s.semaUp 1 = .error (.panic "thread_unblock") := by
  exact exists_run_of_execute (fun _ _ _ hstep => hstep) (by decide)

end Scheduler

end CS162
