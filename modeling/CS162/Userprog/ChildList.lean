import CS162.Userprog.Process

/-!
# Mutual exclusion on child_list_lock

`process_execute` calls `lock_init (&child_list_lock)` each time, so the argument of
`Threads.Lock` for a lock that is initialised once does not apply.  It does apply in
the runs in which no thread is between taking the lock and giving it back when
`process_execute` initialises it.

## Strategy

Where a thread stands with respect to the lock is read off the actions it has still
to take: `phase` looks for the next one that concerns the lock.  `Bracketed` says
that these actions come in the order acquire, release, and that the actions that
expand to a branch or a loop body are taken at the phase their expansion starts in.
Every program of `process.c` is bracketed and every step keeps it so; then each write
to the lock is one of the rules of `LockExclusive`.
-/

namespace CS162

open Library

/-- Where a thread is between `lock_acquire` and `lock_release`. -/
inductive LockPhase where
  | outside
  /-- `sema_down` has returned, `holder` is not written yet. -/
  | taken
  | owns
  /-- `holder` is cleared, `sema_up` is still to come. -/
  | cleared
  deriving DecidableEq

/-- The phase with respect to `child_list_lock` of a thread with these actions left. -/
def phase : List Action → LockPhase
  | [] => .outside
  | .assertNotHeld .childList :: _ | .semaDown (.lock .childList) :: _ => .outside
  | .setHolder .childList :: _ => .taken
  | .assertHeld .childList :: _ | .clearHolder .childList :: _ | .findChild _ :: _ => .owns
  | .semaUp (.lock .childList) :: _ => .cleared
  | _ :: rest => phase rest

/-- The phase in which an action must leave the thread. -/
def fits : Action → LockPhase → Prop
  | .semaDown (.lock .childList), after => after = .taken
  | .setHolder .childList, after | .assertHeld .childList, after => after = .owns
  | .clearHolder .childList, after => after = .cleared
  | .assertNotHeld .childList, after | .semaUp (.lock .childList), after
  | .mallocStatus, after | .findChild _, after | .readExitCode _ _, after
  | .testRef _, after => after = .outside
  | _, _ => True

/-- The actions take `child_list_lock` and give it back in turn. -/
def Bracketed : List Action → Prop
  | [] => True
  | a :: rest => fits a (phase rest) ∧ Bracketed rest

/-! ## The programs of process.c -/

theorem bracketed_processExecute : Bracketed processExecute := by
  simp [Bracketed, fits, phase]

theorem bracketed_processWait (tid : ℤ) : Bracketed (processWait tid) := by
  simp [Bracketed, fits, phase]

theorem bracketed_threadExit (my : Option RecordId) (code : Option ℤ) :
    Bracketed (threadExit my code) := by
  cases my <;> cases code <;> simp [Bracketed, fits, phase]

theorem phase_threadExit (my : Option RecordId) (code : Option ℤ) :
    phase (threadExit my code) = .outside := by
  cases my <;> cases code <;> simp [phase]

/-! ## Actions on other locks -/

/-- The actions that write to `child_list_lock`. -/
def writesChildList : Action → Bool
  | .lockInit => true
  | .semaDown q | .semaUp q => decide (q = .lock .childList)
  | .setHolder l | .clearHolder l => decide (l = .childList)
  | _ => false

namespace Processes

variable {s u : Processes} {p : Tid} {a : Action} {more rest : List Action}

theorem setSema_childListLock {q : SemaRef} (hq : q ≠ .lock .childList) (m : Shared)
    (sema : Semaphore) : (m.setSema q sema).childListLock = m.childListLock := by
  rcases q with (_ | r) | r
  · exact absurd rfl hq
  · rfl
  · rfl

theorem setLock_childListLock {l : LockRef} (hl : l ≠ .childList) (m : Shared) (lock : Lock) :
    (m.setLock l lock).childListLock = m.childListLock := by
  cases l with
  | childList => exact absurd rfl hl
  | refCount r => rfl

theorem threadCreate_childListLock (s : Processes) (p : Tid) :
    (s.threadCreate p).childListLock = s.childListLock := by
  unfold threadCreate
  split <;> rfl

/-- An action leaves all programs alone; the acting thread's is then set by the step. -/
theorem Effect.prog (h : Effect s p a u more) : u.prog = s.prog := by
  cases h <;> rfl

theorem Effect.childListLock (h : Effect s p a u more) (ha : writesChildList a = false) :
    u.childListLock = s.childListLock := by
  cases h with
  | lockInit => cases ha
  | take q _ | sleep q _ | raise q _ | wake q _ _ _ _ =>
    exact setSema_childListLock (of_decide_eq_false ha) _ _
  | setHolder l | clearHolder l => exact setLock_childListLock (of_decide_eq_false ha) _ _
  | threadCreate => exact threadCreate_childListLock s p
  | _ => rfl

/-- An action that does not write to the lock keeps the program bracketed and the thread
in its phase. -/
theorem Effect.phase (h : Effect s p a u more) (ha : writesChildList a = false)
    (hb : Bracketed (a :: rest)) :
    Bracketed (more ++ rest) ∧ phase (more ++ rest) = phase (a :: rest) := by
  obtain ⟨hfits, hrest⟩ := hb
  cases h with
  | take q _ | sleep q _ | raise q _ | wake q _ _ _ _ =>
    rcases q with (_ | r) | r <;> simp_all [writesChildList, Bracketed, phase]
  | assertNotHeld l | setHolder l | assertHeld l | clearHolder l =>
    cases l <;> simp_all [writesChildList, fits, phase]
  | findChild tid =>
    cases s.childWith p tid <;> simp_all [Bracketed, fits, phase]
  | testRef r =>
    unfold releaseRecord
    split <;> simp_all [Bracketed, fits, phase]
  | testLoop r =>
    unfold releaseInLoop
    split <;> simp_all [Bracketed, fits, phase]
  | _ =>
    simp_all [Bracketed, fits, phase]

/-! ## The invariant -/

/-- The thread has taken `child_list_lock` and not given it back. -/
def InsideList (s : Processes) (t : Tid) : Prop := phase (s.prog t) ≠ .outside

/-- The thread is between a completed `lock_acquire` and its `lock_release`. -/
def OwnsList (s : Processes) (t : Tid) : Prop := phase (s.prog t) = .owns

/-- What holds as long as `lock_init` finds nobody inside. -/
structure Orderly (s : Processes) : Prop where
  bracketed : ∀ t, Bracketed (s.prog t)
  exclusive : LockExclusive s.childListLock s.InsideList s.OwnsList

theorem orderly_boot : boot.Orderly where
  bracketed t := by
    unfold boot
    simp only
    split
    · exact bracketed_processExecute
    · trivial
  exclusive := by
    have hphase : ∀ t, phase (boot.prog t) = .outside := by
      intro t
      unfold boot
      simp only
      split <;> rfl
    constructor
    · exact fun t _ ht => absurd (hphase t) ht
    · intro t
      rw [OwnsList, hphase]
      simp
    · intro t ht
      rw [OwnsList, hphase] at ht
      cases ht
    · exact .inl rfl
    · intro _ t ht
      exact ht (hphase t)

theorem bracketed_setProg {actions : List Action} (h : ∀ t, Bracketed (s.prog t))
    (hb : Bracketed actions) : ∀ t, Bracketed ((s.setProg p actions).prog t) := by
  intro t
  by_cases ht : t = p
  · simpa [ht] using hb
  · simpa [ht] using h t

/-- The phases after thread `p` has gone on to other actions. -/
theorem phase_setProg (s : Processes) (p : Tid) (actions : List Action) (t : Tid) :
    phase ((s.setProg p actions).prog t) =
      if t = p then phase actions else phase (s.prog t) := by
  by_cases ht : t = p <;> simp [ht]

section

variable (h : s.Orderly)
include h

/-- A thread goes on to actions in the same phase, and the lock stays as it is. -/
theorem Orderly.goto {actions : List Action} (hprog : u.prog = s.prog)
    (hlock : u.childListLock = s.childListLock) (hb : Bracketed actions)
    (hphase : phase actions = phase (s.prog p)) : (u.setProg p actions).Orderly where
  bracketed := bracketed_setProg (by rw [hprog]; exact h.bracketed) hb
  exclusive := by
    have hsame : ∀ t, phase ((u.setProg p actions).prog t) = phase (s.prog t) := by
      intro t
      rw [phase_setProg, hprog, hphase]
      split
      · rename_i ht
        rw [ht]
      · rfl
    have hex : LockExclusive (u.setProg p actions).childListLock s.InsideList s.OwnsList := by
      show LockExclusive u.childListLock _ _
      rw [hlock]
      exact h.exclusive
    apply hex.congr
    · intro t
      simp only [InsideList, hsame]
    · intro t
      simp only [OwnsList, hsame]

theorem Orderly.call (huser : s.InUser p) {actions : List Action} (hb : Bracketed actions)
    (hphase : phase actions = .outside) : (s.setProg p actions).Orderly := by
  apply h.goto rfl rfl hb
  rw [hphase, huser.2]
  rfl

theorem Orderly.lockInit (hb : Bracketed rest)
    (hprog : s.prog p = .lockInit :: rest) (hfree : ∀ t, ¬ s.InsideList t) :
    ({ s with shared := s.shared.setLock .childList CS162.lockInit }.setProg p rest).Orderly where
  bracketed := bracketed_setProg
    (s := { s with shared := s.shared.setLock .childList CS162.lockInit }) h.bracketed hb
  exclusive := by
    have hphase : ∀ t, CS162.phase (Function.update s.prog p rest t) = .outside := by
      intro t
      rw [Function.update_apply]
      split
      · have hout := hfree p
        rwa [InsideList, hprog, not_not] at hout
      · exact not_not.mp (hfree t)
    apply LockExclusive.init
    · intro t
      simp [InsideList, hphase]
    · intro t
      simp [OwnsList, hphase]

/-- A thread goes on to the actions left, with the lock as the rules allow it then. -/
theorem Orderly.pass (hprog : s.prog p = a :: rest) (hu : u.prog = s.prog)
    {inside owns : Tid → Prop} (hex : LockExclusive u.childListLock inside owns)
    (hinside : ∀ t, (if t = p then phase rest ≠ .outside else s.InsideList t) ↔ inside t)
    (howns : ∀ t, (if t = p then phase rest = .owns else s.OwnsList t) ↔ owns t) :
    (u.setProg p rest).Orderly where
  bracketed := by
    have hb := h.bracketed p
    rw [hprog] at hb
    exact bracketed_setProg (by rw [hu]; exact h.bracketed) hb.2
  exclusive := by
    apply hex.congr
    · intro t
      rw [← hinside t, InsideList, phase_setProg, hu]
      split <;> rfl
    · intro t
      rw [← howns t, OwnsList, phase_setProg, hu]
      split <;> rfl

theorem Orderly.take (hprog : s.prog p = .semaDown (.lock .childList) :: rest)
    (hvalue : s.childListLock.semaphore.value ≠ 0) :
    ({ s with
        shared := s.shared.setSema (.lock .childList) ⟨s.childListLock.semaphore.value - 1,
          s.childListLock.semaphore.waiters⟩ }.setProg p rest).Orderly := by
  have hb := h.bracketed p
  rw [hprog] at hb
  have hafter : phase rest = .taken := hb.1
  have hbefore : phase (s.prog p) = .outside := by rw [hprog]; rfl
  refine h.pass hprog rfl (h.exclusive.take (t := p) hvalue fun _ => Iff.rfl) ?_ ?_
  · intro t
    by_cases ht : t = p <;> simp [ht, hafter]
  · intro t
    by_cases ht : t = p <;> simp [ht, hafter, OwnsList, hbefore]

/-- A thread goes to sleep in `sema_down` of `lock_acquire`. -/
theorem Orderly.sleep (hprog : s.prog p = .semaDown (.lock .childList) :: rest)
    (hvalue : s.childListLock.semaphore.value = 0) (waiters : List Tid)
    (status : Tid → ThreadStatus) :
    ({ s with
      shared := s.shared.setSema (.lock .childList) ⟨0, waiters⟩
      status := status }.setProg p (.semaDown (.lock .childList) :: rest)).Orderly := by
  rw [← hprog, setProg]
  rw [Function.update_eq_self]
  constructor
  · exact h.bracketed
  · have hwaiters := h.exclusive.waiters waiters
    rwa [hvalue] at hwaiters

theorem Orderly.setHolder (hprog : s.prog p = .setHolder .childList :: rest) :
    ({ s with shared := s.shared.setLock .childList ⟨some p, s.childListLock.semaphore⟩ }.setProg
      p rest).Orderly := by
  have hb := h.bracketed p
  rw [hprog] at hb
  have hafter : phase rest = .owns := hb.1
  have hinside : s.InsideList p := by simp [InsideList, hprog, phase]
  refine h.pass hprog rfl (h.exclusive.setHolder hinside fun _ => Iff.rfl) ?_ ?_
  · intro t
    by_cases ht : t = p <;> simp [ht, hafter, hinside]
  · intro t
    by_cases ht : t = p
    · simp [ht, hafter]
    · simpa [ht] using fun howns => ht (h.exclusive.owns_eq hinside howns)

theorem Orderly.clearHolder (hprog : s.prog p = .clearHolder .childList :: rest) :
    ({ s with shared := s.shared.setLock .childList ⟨none, s.childListLock.semaphore⟩ }.setProg
      p rest).Orderly := by
  have hb := h.bracketed p
  rw [hprog] at hb
  have hafter : phase rest = .cleared := hb.1
  have hinside : s.InsideList p := by simp [InsideList, hprog, phase]
  refine h.pass hprog rfl (h.exclusive.clearHolder fun _ : Tid => not_false) ?_ ?_
  · intro t
    by_cases ht : t = p <;> simp [ht, hafter, hinside]
  · intro t
    by_cases ht : t = p
    · simp [ht, hafter]
    · simpa [ht] using fun howns => ht (h.exclusive.owns_eq hinside howns)

theorem Orderly.give (hprog : s.prog p = .semaUp (.lock .childList) :: rest)
    (hu : u.prog = s.prog) {waiters : List Tid}
    (hlock : u.childListLock =
      { s.childListLock with semaphore := ⟨s.childListLock.semaphore.value + 1, waiters⟩ }) :
    (u.setProg p rest).Orderly := by
  have hb := h.bracketed p
  rw [hprog] at hb
  have hafter : phase rest = .outside := hb.1
  have hbefore : phase (s.prog p) = .cleared := by rw [hprog]; rfl
  have hgive := h.exclusive.give (t := p) (by simp [InsideList, hbefore])
    (by simp [OwnsList, hbefore]) (fun _ => Iff.rfl) waiters
  rw [← hlock] at hgive
  refine h.pass hprog hu hgive ?_ ?_
  · intro t
    by_cases ht : t = p <;> simp [ht, hafter]
  · intro t
    by_cases ht : t = p <;> simp [ht, hafter, OwnsList, hbefore]

end

/-- Nobody has taken `child_list_lock` and not given it back when `process_execute`
initialises it. -/
def InitFree (s : Processes) : ProcessLabel → Prop
  | .step p _ => (s.prog p).head? = some .lockInit → ∀ t, ¬ s.InsideList t
  | _ => True

/-- The step initialises `child_list_lock`. -/
def initialises (s : Processes) : ProcessLabel → Bool
  | .step p _ => (s.prog p).head? == some .lockInit
  | _ => false

theorem Orderly.effect (h : s.Orderly) (hprog : s.prog p = a :: rest)
    (heffect : Effect s p a u more)
    (hinit : a = .lockInit → ∀ t, ¬ s.InsideList t) : (u.setProg p (more ++ rest)).Orderly := by
  have hb := h.bracketed p
  rw [hprog] at hb
  cases hwrites : writesChildList a with
  | false =>
    obtain ⟨hbracketed, hphase⟩ := heffect.phase hwrites hb
    exact h.goto heffect.prog (heffect.childListLock hwrites) hbracketed (by rw [hphase, hprog])
  | true =>
    cases heffect with
    | lockInit => exact h.lockInit hb.2 hprog (hinit rfl)
    | take q hvalue =>
      obtain rfl : q = .lock .childList := of_decide_eq_true hwrites
      exact h.take hprog hvalue
    | sleep q hvalue =>
      obtain rfl : q = .lock .childList := of_decide_eq_true hwrites
      exact h.sleep hprog hvalue _ _
    | setHolder l =>
      obtain rfl : l = .childList := of_decide_eq_true hwrites
      exact h.setHolder hprog
    | clearHolder l =>
      obtain rfl : l = .childList := of_decide_eq_true hwrites
      exact h.clearHolder hprog
    | raise q _ | wake q _ _ _ _ =>
      obtain rfl : q = .lock .childList := of_decide_eq_true hwrites
      exact h.give hprog rfl rfl
    | _ => cases hwrites

theorem Orderly.step (h : s.Orderly) {l : ProcessLabel} {t : Processes} (hfree : s.InitFree l)
    (hstep : s.Step l t) : t.Orderly := by
  cases moves_of_step hstep with
  | execute huser => exact h.call huser bracketed_processExecute rfl
  | wait tid huser => exact h.call huser (bracketed_processWait tid) rfl
  | exit code huser =>
    exact { h.call huser (bracketed_threadExit _ code) (phase_threadExit _ code) with }
  | step _ hprog heffect =>
    apply h.effect hprog (.of_effect heffect)
    intro ha
    apply hfree
    rw [hprog, ha]
    rfl

/-! ## Mutual exclusion over whole runs -/

/-- **Mutual exclusion on child_list_lock.**  In every run of `process_execute`,
`process_wait` and `process_exit` by any number of processes in which `lock_init` finds
nobody inside, at most one thread is between `lock_acquire (&child_list_lock)` and its
`lock_release`, and a thread that is about to release the lock is its holder. -/
theorem childListLock_exclusive {labels : List ProcessLabel} {s : Processes}
    (hrun : Run (Guarded InitFree Step) boot labels s) :
    (∀ t u, s.InsideList t → s.InsideList u → t = u) ∧
      ∀ t rest, s.prog t = .assertHeld .childList :: rest → s.childListLock.holder = some t := by
  have h : s.Orderly := hrun.invariant orderly_boot fun _ _ _ hs hstep => hs.step hstep.1 hstep.2
  refine ⟨h.exclusive.unique, ?_⟩
  intro t rest hprog
  apply (h.exclusive.holder t).mpr
  rw [OwnsList, hprog]
  rfl

theorem initFree_of_not_initialises (s : Processes) (l : ProcessLabel)
    (h : ¬ initialises s l = true) : InitFree s l := by
  cases l with
  | step p memory => exact fun hhead => absurd (by simp [initialises, hhead]) h
  | _ => trivial

/-- The child 3 is in its `process_exit`, before the release, and the main thread sleeps in its
`process_wait` until it gets the lock. -/
theorem childListLock_exclusive_turns :
    ∃ s : Processes, s.prog 3 = lockRelease .childList ++ [.die] ∧ s.status 1 = .blocked ∧
      s.childListLock.holder = some 3 ∧ ¬ s.InsideList 1 := by
  have hinit : Run (Guarded InitFree Step) boot [.step 1 none]
      ({ boot with shared := boot.shared.setLock .childList lockInit }.setProg 1
        [.mallocStatus]) := by
    refine Run.snoc .nil ?_
    constructor
    · intro _ t
      simp only [InsideList, boot]
      split <;> simp [phase]
    · rfl
  obtain ⟨s, hrun, hprog, hblocked⟩ : ∃ s, Run (Guarded InitFree Step)
      ({ boot with shared := boot.shared.setLock .childList lockInit }.setProg 1
        [.mallocStatus])
      (List.replicate 9 (.step 1 (some 0)) ++ [.exit 3 none] ++ List.replicate 14 (.step 3 none) ++
        [.wait 1 3] ++ List.replicate 2 (.step 1 none)) s ∧
        s.prog 3 = lockRelease .childList ++ [.die] ∧ s.status 1 = .blocked :=
    exists_run_of_execute (guarded_of_ite (fun _ _ _ => step_of_nextState)
      initFree_of_not_initialises) (by decide +kernel)
  obtain ⟨hunique, hholder⟩ := childListLock_exclusive (hinit.trans hrun)
  have hinside : s.InsideList 3 := by simp [InsideList, hprog, phase]
  exact ⟨s, hprog, hblocked, hholder 3 _ hprog, fun hmain => absurd (hunique 1 3 hmain hinside)
    (by decide)⟩

/-- The child 3 is in the loop of `process_exit` when the main thread initialises the lock
again. -/
theorem lockInit_breaks_exclusion :
    ∃ labels s, Run Step boot labels s ∧ s.InsideList 1 ∧ s.InsideList 3 := by
  refine ⟨List.replicate 10 (.step 1 (some 0)) ++ [.exit 3 (some 7)] ++
    List.replicate 12 (.step 3 none) ++ [.execute 1] ++ List.replicate 5 (.step 1 (some 0)),
    exists_run_of_imp (fun _ _ _ => step_of_nextState) (fun s => phase (s.prog 1) ≠ .outside ∧
      phase (s.prog 3) ≠ .outside) (by decide +kernel) ?_⟩
  exact fun _ _ hinside => hinside

end Processes

end CS162
