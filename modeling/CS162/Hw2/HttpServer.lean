import Mathlib.Data.Fintype.Basic
import Mathlib.Data.Finset.Card
import Mathlib.Data.Fintype.Card
import CS162.Hw2.Wq

/-!
# The thread pool of the HTTP server (`personal/hw2/httpserver.c`)

`serve_forever` creates `num_threads` workers, accepts connections and pushes them to the work
queue.  A worker pops one connection, calls the request handler, closes the connection and
returns.  Without workers the main thread handles the requests itself.

The main thread is `none` and the workers are `some i`.  Inside `wq_push` and `wq_pop` they run the
code of `Wq`; a request handler takes as long as it likes.  `accepted` counts the connections.

## Strategy

A worker pops at most one connection, so the connections that were accepted are those in the
queue, those that a worker has popped, and the one that is being pushed (`Balanced`).  Hence the
queue is empty once all workers have terminated, if there were no more connections than workers.
-/

namespace CS162

open Library Function

/-- Where the main thread is. -/
inductive MainPc where
  /-- In the loop of `init_thread_pool`. -/
  | create (i : ℕ)
  | accept
  | push
  /-- In the request handler, without workers. -/
  | serve (fd : ℤ)
  | close (fd : ℤ)
  deriving DecidableEq

/-- Where a worker is in `handle_thread`. -/
inductive WorkerPc where
  | uncreated
  | start
  | pop
  | serve (fd : ℤ)
  | close (fd : ℤ)
  | terminated
  deriving DecidableEq

/-- The server with `n` workers. -/
structure HttpServer (n : ℕ) where
  workQueue : Wq (Option (Fin n))
  main : MainPc
  worker : Fin n → WorkerPc
  /-- The number of connections that `accept` has returned. -/
  accepted : ℕ

/-- A thread goes on. -/
inductive HttpLabel (n : ℕ) where
  | create
  | accept (fd : ℤ)
  /-- A statement inside `wq_push` or `wq_pop`. -/
  | queue (l : WqLabel (Option (Fin n)))
  | pushed
  | mainServed
  | mainClosed
  | start (i : Fin n)
  | popped (i : Fin n) (fd : ℤ)
  | served (i : Fin n)
  | closed (i : Fin n)

namespace HttpServer

variable {n : ℕ}

/-- Before `init_thread_pool`. -/
def init (n : ℕ) : HttpServer n :=
  ⟨.wqInit, if 0 < n then .create 0 else .accept, fun _ => .uncreated, 0⟩

def setWorker (s : HttpServer n) (i : Fin n) (pc : WorkerPc) : HttpServer n :=
  { s with worker := update s.worker i pc }

/-- A step of the work queue, after which its thread is at another place. -/
def withQueue (s : HttpServer n) (l : WqLabel (Option (Fin n)))
    (f : HttpServer n → HttpServer n) : Except Fault (Option (HttpServer n)) := do
  let queue ← s.workQueue.apply l
  return queue.map fun queue => f { s with workQueue := queue }

/-- What a label does; nothing if it is not possible. -/
def apply (s : HttpServer n) : HttpLabel n → Except Fault (Option (HttpServer n))
  | .create =>
    match s.main with
    | .create i =>
      if h : i < n then .ok (some { s.setWorker ⟨i, h⟩ .start with main := .create (i + 1) })
      else .ok (some { s with main := .accept })
    | _ => .ok none
  | .accept fd =>
    if s.main = .accept then
      -- `accept` failed: perror, and the next round
      if fd < 0 then .ok (some s)
      else if 0 < n then
        s.withQueue (.callPush none fd) fun s =>
          { s with main := .push, accepted := s.accepted + 1 }
      else .ok (some { s with main := .serve fd, accepted := s.accepted + 1 })
    else .ok none
  | .queue l => if l.toAtomic.all (·.operation.isSome) then s.withQueue l id else .ok none
  | .pushed =>
    if s.main = .push then s.withQueue (.returnPush none) fun s => { s with main := .accept }
    else .ok none
  | .mainServed =>
    match s.main with
    | .serve fd => .ok (some { s with main := .close fd })
    | _ => .ok none
  | .mainClosed =>
    match s.main with
    | .close _ => .ok (some { s with main := .accept })
    | _ => .ok none
  | .start i =>
    if s.worker i = .start then s.withQueue (.callPop (some i)) (·.setWorker i .pop)
    else .ok none
  | .popped i fd =>
    if s.worker i = .pop then s.withQueue (.returnPop (some i) fd) (·.setWorker i (.serve fd))
    else .ok none
  | .served i =>
    match s.worker i with
    | .serve fd => .ok (some (s.setWorker i (.close fd)))
    | _ => .ok none
  | .closed i =>
    match s.worker i with
    | .close _ => .ok (some (s.setWorker i .terminated))
    | _ => .ok none

def Step (s : HttpServer n) (l : HttpLabel n) (s' : HttpServer n) : Prop :=
  s.apply l = .ok (some s')

/-- Whether the connection at the head of the queue can still be served. -/
def Alive (s : HttpServer n) : Prop := ∃ i, s.worker i ≠ .terminated

end HttpServer

/-! ## Where the connections are -/

section Accounts

variable {n len accepted : ℕ} {i : Fin n} {w : WorkerPc} {o : FifoOp} {r : Option ℤ}
  {c : CallStatus FifoOp (Option ℤ)} {status : Option (Fin n) → CallStatus FifoOp (Option ℤ)}
  {worker : Fin n → WorkerPc}

/-- A call has been made and has not taken effect. -/
def calling : CallStatus FifoOp (Option ℤ) → Bool
  | .called _ => true
  | _ => false

/-- A worker has taken a connection off the queue; `c` is what it is doing with the queue. -/
def WorkerPc.took (w : WorkerPc) (c : CallStatus FifoOp (Option ℤ)) : Bool :=
  match w with
  | .serve _ | .close _ | .terminated => true
  | .pop => !calling c
  | _ => false

/-- The number of workers that have taken a connection off the queue. -/
def taken (status : Option (Fin n) → CallStatus FifoOp (Option ℤ))
    (worker : Fin n → WorkerPc) : ℕ :=
  (Finset.univ.filter fun i => (worker i).took (status (some i)) = true).card

/-- The number of connections that the main thread is pushing. -/
def pushing (status : Option (Fin n) → CallStatus FifoOp (Option ℤ)) : ℕ :=
  if calling (status none) then 1 else 0

/-- Only the main thread pushes; the `len` connections in the queue, those that workers have taken
and the one that is being pushed have been accepted. -/
structure Accounts (len : ℕ) (status : Option (Fin n) → CallStatus FifoOp (Option ℤ))
    (worker : Fin n → WorkerPc) (accepted : ℕ) : Prop where
  pops : ∀ i fd, status (some i) ≠ .called (.push fd)
  count : len + taken status worker + pushing status ≤ accepted

theorem taken_update_none : taken (update status none c) worker = taken status worker := by
  unfold taken
  simp only [update_of_ne (Option.some_ne_none _)]

theorem pushing_update_some : pushing (update status (some i) c) = pushing status := by
  unfold pushing
  rw [update_of_ne (Option.some_ne_none i).symm]

/-- A worker that goes on may have taken a connection by that. -/
theorem taken_update_le (status : Option (Fin n) → CallStatus FifoOp (Option ℤ))
    (worker : Fin n → WorkerPc) (i : Fin n) (c : CallStatus FifoOp (Option ℤ)) (w : WorkerPc) :
    taken (update status (some i) c) (update worker i w) ≤ taken status worker + 1 := by
  refine (Finset.card_le_card ?_).trans (Finset.card_insert_le i _)
  intro j hj
  rw [Finset.mem_insert, Finset.mem_filter]
  by_cases hji : j = i
  · exact .inl hji
  · rw [Finset.mem_filter, update_of_ne hji, update_of_ne (fun h => hji (Option.some.inj h))] at hj
    exact .inr hj

theorem taken_update_le_of_took (status : Option (Fin n) → CallStatus FifoOp (Option ℤ))
    (worker : Fin n → WorkerPc) (h : w.took c = true → (worker i).took (status (some i)) = true) :
    taken (update status (some i) c) (update worker i w) ≤ taken status worker := by
  refine Finset.card_le_card ?_
  intro j hj
  rw [Finset.mem_filter] at hj ⊢
  by_cases hji : j = i
  · subst hji
    rw [update_self, update_self] at hj
    exact ⟨hj.1, h hj.2⟩
  · rwa [update_of_ne hji, update_of_ne (fun h => hji (Option.some.inj h))] at hj

theorem Accounts.ofMain {len' accepted' : ℕ} (h : Accounts len status worker accepted)
    (hcount : len' + (if calling c then 1 else 0) + accepted ≤
      len + (if calling (status none) then 1 else 0) + accepted') :
    Accounts len' (update status none c) worker accepted' := by
  refine ⟨fun i fd => ?_, ?_⟩
  · rw [update_of_ne (Option.some_ne_none i)]
    exact h.pops i fd
  · have hold := h.count
    rw [taken_update_none, pushing, update_self]
    rw [pushing] at hold
    omega

theorem Accounts.ofWorker (h : Accounts len status worker accepted)
    (hpops : ∀ fd, c ≠ .called (.push fd))
    (htook : w.took c = true → (worker i).took (status (some i)) = true) :
    Accounts len (update status (some i) c) (update worker i w) accepted := by
  refine ⟨fun j fd => ?_, ?_⟩
  · by_cases hji : some j = some i
    · rw [hji, update_self]
      exact hpops fd
    · rw [update_of_ne hji]
      exact h.pops j fd
  · have hold := h.count
    have htaken := taken_update_le_of_took status worker htook
    rw [pushing_update_some]
    omega

theorem Accounts.take (h : Accounts (len + 1) status worker accepted) :
    Accounts len (update status (some i) (.done r)) worker accepted := by
  refine ⟨fun j fd => ?_, ?_⟩
  · by_cases hji : some j = some i
    · rw [hji, update_self]
      nofun
    · rw [update_of_ne hji]
      exact h.pops j fd
  · have hold := h.count
    have htaken := taken_update_le status worker i (.done r) (worker i)
    rw [update_eq_self] at htaken
    rw [pushing_update_some]
    omega

theorem Accounts.effect {q q' : List ℤ} {t : Option (Fin n)}
    (h : Accounts q.length status worker accepted) (hcalled : status t = .called o)
    (happly : fifo.apply q o = some (q', r)) :
    Accounts q'.length (update status t (.done r)) worker accepted := by
  cases o with
  | push fd =>
    cases happly
    cases t with
    | some i => exact absurd hcalled (h.pops i fd)
    | none =>
      apply h.ofMain
      rw [hcalled]
      simp [calling]
  | pop =>
    cases q with
    | nil => cases happly
    | cons x rest =>
      cases happly
      cases t with
      | some i => exact h.take
      | none =>
        apply h.ofMain
        rw [hcalled]
        simp [calling]
        omega

/-- When all workers have terminated, each has taken a connection. -/
theorem taken_of_terminated (h : ∀ i, worker i = .terminated) : taken status worker = n := by
  have hall : (Finset.univ.filter fun i => (worker i).took (status (some i)) = true) =
      Finset.univ := by
    refine Finset.filter_true_of_mem fun i _ => ?_
    rw [h i]
    rfl
  rw [taken, hall, Finset.card_univ, Fintype.card_fin]

end Accounts

namespace HttpServer

variable {n : ℕ} {s s' : HttpServer n} {i : Fin n}

/-- **The invariant of the server.** -/
structure Balanced (s : HttpServer n) : Prop where
  sound : s.workQueue.Sound
  accounts : Accounts s.workQueue.items.length s.workQueue.atomic.status s.worker s.accepted

theorem balanced_init : (init n).Balanced := by
  refine ⟨Wq.sound_wqInit, fun i fd => nofun, ?_⟩
  simp [init, Wq.wqInit, taken, WorkerPc.took, pushing, calling, Wq.atomic, WqPc.status]

theorem withQueue_eq_ok {l : WqLabel (Option (Fin n))} {f : HttpServer n → HttpServer n} :
    s.withQueue l f = .ok (some s') ↔
      ∃ q, Wq.Step s.workQueue l q ∧ f { s with workQueue := q } = s' := by
  unfold withQueue Wq.Step
  rw [bind_eq_ok]
  constructor
  · rintro ⟨r, hr, hs'⟩
    obtain ⟨q, rfl, hq⟩ := Option.map_eq_some_iff.mp (Except.ok.inj hs')
    exact ⟨q, hr, hq⟩
  · rintro ⟨q, hq, rfl⟩
    exact ⟨some q, hq, rfl⟩

theorem Balanced.queue {l : WqLabel (Option (Fin n))} {q : Wq (Option (Fin n))} (h : s.Balanced)
    (hstep : Wq.Step s.workQueue l q) (hl : l.toAtomic.all (·.operation.isSome) = true) :
    Balanced { s with workQueue := q } := by
  obtain ⟨hsound, hfollows⟩ := h.sound.step hstep
  refine ⟨hsound, ?_⟩
  unfold Wq.Follows at hfollows
  cases hatomic : l.toAtomic with
  | none =>
    rw [hatomic] at hfollows
    have hitems : q.items = s.workQueue.items := congrArg Atomic.obj hfollows
    rw [hfollows, hitems]
    exact h.accounts
  | some l' =>
    rw [hatomic] at hfollows hl
    cases l' with
    | call t o => cases hl
    | ret t r => cases hl
    | effect t o r =>
      obtain ⟨hcalled, obj, happly, hq⟩ := hfollows
      have hitems : q.items = obj := congrArg Atomic.obj hq
      rw [hq, hitems]
      exact h.accounts.effect hcalled happly

theorem Balanced.edge {l : WqLabel (Option (Fin n))} {l' : AtomicLabel (Option (Fin n)) FifoOp
    (Option ℤ)} {q : Wq (Option (Fin n))} (h : s.Balanced) (hstep : Wq.Step s.workQueue l q)
    (hl : l.toAtomic = some l') : q.Sound ∧ AtomicStep fifo s.workQueue.atomic l' q.atomic := by
  obtain ⟨hsound, hfollows⟩ := h.sound.step hstep
  rw [Wq.Follows, hl] at hfollows
  exact ⟨hsound, hfollows⟩

theorem Balanced.setWorker {w : WorkerPc} (h : s.Balanced)
    (htook : ∀ c, w.took c = true → (s.worker i).took c = true) : (s.setWorker i w).Balanced := by
  refine ⟨h.sound, ?_⟩
  have haccounts := h.accounts.ofWorker (i := i) (w := w) (h.accounts.pops i) (htook _)
  rwa [update_eq_self] at haccounts

/-- **One step** keeps the invariant. -/
theorem Balanced.step {l : HttpLabel n} (h : s.Balanced) (hstep : Step s l s') : s'.Balanced := by
  unfold Step at hstep
  cases l with
  | create =>
    rw [apply] at hstep
    split at hstep
    · split at hstep
      · next i _ hi =>
        cases hstep
        have hset := h.setWorker (i := ⟨i, hi⟩) (w := .start) nofun
        exact ⟨hset.sound, hset.accounts⟩
      · cases hstep
        exact ⟨h.sound, h.accounts⟩
    · cases hstep
  | accept fd =>
    rw [apply] at hstep
    split at hstep
    · split at hstep
      · cases hstep
        exact h
      split at hstep
      · obtain ⟨q, hq, rfl⟩ := withQueue_eq_ok.mp hstep
        obtain ⟨hsound, hidle, hatomic⟩ := h.edge hq rfl
        have hitems : q.items = s.workQueue.items := congrArg Atomic.obj hatomic
        refine ⟨hsound, ?_⟩
        rw [hatomic, hitems]
        apply h.accounts.ofMain
        simp [calling]
        omega
      · cases hstep
        refine ⟨h.sound, h.accounts.pops, h.accounts.count.trans (Nat.le_succ _)⟩
    · cases hstep
  | queue l =>
    rw [apply] at hstep
    split at hstep
    · next hl =>
      obtain ⟨q, hq, rfl⟩ := withQueue_eq_ok.mp hstep
      exact h.queue hq hl
    · cases hstep
  | pushed =>
    rw [apply] at hstep
    split at hstep
    · obtain ⟨q, hq, rfl⟩ := withQueue_eq_ok.mp hstep
      obtain ⟨hsound, hdone, hatomic⟩ := h.edge hq rfl
      have hitems : q.items = s.workQueue.items := congrArg Atomic.obj hatomic
      refine ⟨hsound, ?_⟩
      rw [hatomic, hitems]
      apply h.accounts.ofMain
      simp [calling]
    · cases hstep
  | mainServed | mainClosed =>
    rw [apply] at hstep
    split at hstep
    · cases hstep
      exact ⟨h.sound, h.accounts⟩
    · cases hstep
  | start i =>
    rw [apply] at hstep
    split at hstep
    · obtain ⟨q, hq, rfl⟩ := withQueue_eq_ok.mp hstep
      obtain ⟨hsound, -, hatomic⟩ := h.edge hq rfl
      have hitems : q.items = s.workQueue.items := congrArg Atomic.obj hatomic
      refine ⟨hsound, ?_⟩
      show Accounts q.items.length q.atomic.status (update s.worker i _) s.accepted
      rw [hatomic, hitems]
      exact h.accounts.ofWorker nofun nofun
    · cases hstep
  | popped i fd =>
    rw [apply] at hstep
    split at hstep
    · next hpop =>
      obtain ⟨q, hq, rfl⟩ := withQueue_eq_ok.mp hstep
      obtain ⟨hsound, hdone, hatomic⟩ := h.edge hq rfl
      have hitems : q.items = s.workQueue.items := congrArg Atomic.obj hatomic
      refine ⟨hsound, ?_⟩
      show Accounts q.items.length q.atomic.status (update s.worker i _) s.accepted
      rw [hatomic, hitems]
      refine h.accounts.ofWorker nofun fun _ => ?_
      rw [hpop, hdone]
      rfl
    · cases hstep
  | served i | closed i =>
    rw [apply] at hstep
    split at hstep
    · next fd hworker =>
      cases hstep
      exact h.setWorker fun c _ => by rw [hworker]; rfl
    · cases hstep

theorem run_balanced {labels : List (HttpLabel n)} (hrun : Run Step (init n) labels s) :
    s.Balanced :=
  hrun.invariant balanced_init fun _ _ _ h hstep => h.step hstep

/-- As long as no more connections are accepted than there are workers, someone can serve those in
the queue. -/
theorem Balanced.alive (h : s.Balanced) (hfew : s.accepted ≤ n) (hitems : s.workQueue.items ≠ []) :
    s.Alive := by
  by_contra hdead
  have hall : ∀ i, s.worker i = .terminated := by
    intro i
    by_contra hi
    exact hdead ⟨i, hi⟩
  have hcount := h.accounts.count
  rw [taken_of_terminated hall] at hcount
  have hlength := List.length_pos_iff.mpr hitems
  omega

/-! ## A run that leaves a connection behind -/

/-- The workers before `k` have been created. -/
def creating (n k : ℕ) : HttpServer n :=
  ⟨.wqInit, .create k, fun i => if i < k then .start else .uncreated, 0⟩

/-- The workers before `k` have served a connection each, and there were no others. -/
def spent (n k : ℕ) : HttpServer n :=
  ⟨.wqInit, .accept, fun i => if i < k then .terminated else .start, k⟩

/-- As `spent`, with a connection in the queue. -/
def queued (n k : ℕ) : HttpServer n :=
  { spent n k with workQueue := { Wq.wqInit with size := 1, items := [0] }, accepted := k + 1 }

/-- The main thread accepts a connection and pushes it. -/
def pushLabels (n : ℕ) : List (HttpLabel n) :=
  [.accept 0, .queue (.lock none), .queue (.alloc none true), .queue (.append none 0),
    .queue (.inc none), .queue (.signal none none), .queue (.unlock none), .pushed]

/-- A worker pops a connection and serves it. -/
def popLabels (i : Fin n) : List (HttpLabel n) :=
  [.start i, .queue (.lock (some i)), .queue (.test (some i)), .queue (.read (some i)),
    .queue (.dec (some i)), .queue (.delete (some i) 0), .queue (.unlock (some i)), .popped i 0,
    .served i, .closed i]

theorem run_of_outcome {labels : List (HttpLabel n)}
    (h : execute (outcome apply) s labels = some s') : Run Step s labels s' :=
  (run_of_execute h).mono fun _ _ _ hstep => outcome_eq_some.mp hstep

theorem update_lt_succ {α : Type} {a b : α} (i : Fin n) :
    update (fun j : Fin n => if j.val < i.val then a else b) i a =
      fun j : Fin n => if j.val < i.val + 1 then a else b := by
  funext j
  by_cases hji : j = i
  · rw [hji, update_self, if_pos (Nat.lt_succ_self _)]
  · have hne : j.val ≠ i.val := fun h => hji (Fin.ext h)
    rw [update_of_ne hji]
    simp only [show j.val < i.val + 1 ↔ j.val < i.val by omega]

theorem creating_succ (i : Fin n) : Step (creating n i) .create (creating n (i + 1)) := by
  have hset : (creating n i).setWorker i .start =
      { creating n (i + 1) with main := .create i } := by
    simp only [setWorker, creating, update_lt_succ]
  have happly : (creating n i).apply .create =
      .ok (some { (creating n i).setWorker i .start with main := .create (i + 1) }) :=
    dif_pos i.isLt
  rw [Step, happly, hset]
  rfl

theorem run_push (hn : 0 < n) (k : ℕ) : Run Step (spent n k) (pushLabels n) (queued n k) := by
  apply run_of_outcome
  simp [execute, outcome, Except.toOption, AtomicLabel.operation, apply, pushLabels, spent, queued,
    hn, withQueue, Wq.apply, Wq.goto, Wq.lock, Wq.unlock, Wq.alloc, Wq.append, Wq.inc, Wq.signal,
    Wq.wqInit, WqLabel.toAtomic]

theorem run_pop (i : Fin n) : Run Step (queued n i) (popLabels i) (spent n (i + 1)) := by
  apply run_of_outcome
  have hworker := update_lt_succ (a := WorkerPc.terminated) (b := .start) i
  simp only [Fin.val_fin_lt] at hworker
  simp [execute, outcome, Except.toOption, AtomicLabel.operation, apply, popLabels, spent, queued,
    withQueue, Wq.apply, Wq.goto, Wq.lock, Wq.unlock, Wq.test, Wq.read, Wq.dec, Wq.delete,
    Wq.wqInit, WqLabel.toAtomic, setWorker, intMin, hworker]

theorem exists_run_creating {k : ℕ} (hn : 0 < n) (hk : k ≤ n) :
    ∃ labels, Run Step (init n) labels (creating n k) := by
  induction k with
  | zero =>
    have hinit : init n = creating n 0 := by simp [init, creating, hn]
    exact ⟨[], hinit ▸ .nil⟩
  | succ k ih =>
    obtain ⟨labels, hrun⟩ := ih (by omega)
    exact ⟨_, hrun.snoc (creating_succ ⟨k, hk⟩)⟩

theorem exists_run_spent {k : ℕ} (hn : 0 < n) (hk : k ≤ n) :
    ∃ labels, Run Step (init n) labels (spent n k) := by
  induction k with
  | zero =>
    obtain ⟨labels, hrun⟩ := exists_run_creating hn le_rfl
    have hlast : Step (creating n n) .create (spent n 0) := by simp [Step, apply, creating, spent]
    exact ⟨_, hrun.snoc hlast⟩
  | succ k ih =>
    obtain ⟨labels, hrun⟩ := ih (by omega)
    exact ⟨_, (hrun.trans (run_push hn k)).trans (run_pop ⟨k, hk⟩)⟩

/-- **The pool and its connections.** With at least one worker, someone is left to serve the
connections in the queue, in every state of every run with at most `m` connections, if and only if
there are as many workers: each of them serves one connection and returns. -/
theorem pool_serves_iff (hn : 0 < n) (m : ℕ) :
    (∀ labels s, Run Step (init n) labels s → s.accepted ≤ m → s.workQueue.items ≠ [] → s.Alive) ↔
      m ≤ n := by
  constructor
  · intro hserves
    by_contra hmany
    obtain ⟨labels, hrun⟩ := exists_run_spent hn le_rfl
    obtain ⟨i, hi⟩ := hserves _ _ (hrun.trans (run_push hn n)) (show n + 1 ≤ m by omega)
      (List.cons_ne_nil _ _)
    exact hi (if_pos i.isLt)
  · intro hfew labels s hrun haccepted hitems
    exact (run_balanced hrun).alive (haccepted.trans hfew) hitems

/-- Three workers are enough for three connections, not for four. -/
theorem pool_serves_iff_three :
    (∀ labels s, Run Step (init 3) labels s → s.accepted ≤ 3 → s.workQueue.items ≠ [] → s.Alive) ∧
      ¬ ∀ labels s, Run Step (init 3) labels s → s.accepted ≤ 4 → s.workQueue.items ≠ [] →
        s.Alive := by
  refine ⟨(pool_serves_iff (by decide) 3).mpr le_rfl, fun hserves => ?_⟩
  exact absurd ((pool_serves_iff (by decide) 4).mp hserves) (by decide)

/-- The worker of a pool of one has returned when the second connection comes. -/
theorem pool_runs_dry :
    ∃ labels s, Run Step (init 1) labels s ∧ s.accepted = 2 ∧ s.workQueue.items ≠ [] ∧
      ¬ s.Alive := by
  refine ⟨[.create, .create] ++ pushLabels 1 ++ popLabels 0 ++ pushLabels 1,
    exists_run_of_imp (fun _ _ _ => outcome_eq_some.mp) (fun s => s.accepted = 2 ∧
      s.workQueue.items ≠ [] ∧ ∀ i, s.worker i = .terminated) (by decide +kernel) ?_⟩
  exact fun s _ ⟨haccepted, hitems, hall⟩ => ⟨haccepted, hitems, fun ⟨i, hi⟩ => hi (hall i)⟩

end HttpServer

end CS162
