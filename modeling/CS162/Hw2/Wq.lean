import CS162.Library.Atomic
import CS162.Block

/-!
# The work queue (`personal/hw2/wq.c`)

Any number of threads call `wq_push` and `wq_pop`.  A label names the statement that a thread
executes next, so that a run is an interleaving of statements.  The mutex has an owner;
`pthread_cond_wait` gives it up and waits in one step, a waiting thread may wake up at any time
(`wake`), and `pthread_cond_signal` wakes a waiting thread if there is one.

The items are on a list, which `DL_APPEND` and `DL_DELETE` change; `free` is left out.  `size` is
an `int`: incrementing it past `INT_MAX` is undefined, and so is using what `calloc` returns when
there is no memory.

## Strategy

Only the owner of the mutex touches the queue, so the invariant `Sound` says what holds at its
place in the code (`Consistent`).  A run is then a run of an atomic queue (`fifo`), in which
`wq_push` takes effect at `DL_APPEND` and `wq_pop` at `DL_DELETE`.
-/

namespace CS162

open Library Function List

/-- Where a thread is in the code of the queue; the parameter is `client_socket_fd`. -/
inductive WqPc where
  /-- In none of the functions. -/
  | outside
  | popLock
  /-- At the test of the loop. -/
  | popTest
  /-- In `pthread_cond_wait`, waiting for a signal. -/
  | popWait
  /-- In `pthread_cond_wait`, waiting for the mutex. -/
  | popRelock
  | popRead
  | popDec (fd : ℤ)
  | popDelete (fd : ℤ)
  | popUnlock (fd : ℤ)
  | popReturn (fd : ℤ)
  | pushLock (fd : ℤ)
  | pushAlloc (fd : ℤ)
  | pushAppend (fd : ℤ)
  | pushInc
  | pushSignal
  | pushUnlock
  | pushReturn
  deriving DecidableEq

/-- `struct wq`, and the threads that use it. -/
structure Wq (ι : Type) where
  size : ℤ
  /-- The items on the list from `head` on. -/
  items : List ℤ
  /-- The thread that has locked `mut`. -/
  owner : Option ι
  /-- The threads that wait for `cond_pop`. -/
  waiters : List ι
  pc : ι → WqPc

/-- A thread calls a function, executes a statement of it, or returns from it. -/
inductive WqLabel (ι : Type) where
  | callPop (t : ι)
  | callPush (t : ι) (fd : ℤ)
  | lock (t : ι)
  | unlock (t : ι)
  | test (t : ι)
  /-- A wakeup without a signal. -/
  | wake (t : ι)
  | read (t : ι)
  | dec (t : ι)
  | delete (t : ι) (fd : ℤ)
  | returnPop (t : ι) (fd : ℤ)
  | alloc (t : ι) (granted : Bool)
  | append (t : ι) (fd : ℤ)
  | inc (t : ι)
  | signal (t : ι) (woken : Option ι)
  | returnPush (t : ι)
  deriving DecidableEq

abbrev intMax : ℤ := 2147483647

abbrev intMin : ℤ := -2147483648

namespace Wq

variable {ι : Type} [DecidableEq ι]

def wqInit : Wq ι := ⟨0, [], none, [], fun _ => .outside⟩

def goto (s : Wq ι) (t : ι) (pc : WqPc) : Wq ι := { s with pc := update s.pc t pc }

/-- `pthread_mutex_lock`, also the one at the end of `pthread_cond_wait`. -/
def lock (s : Wq ι) (t : ι) : Option (Wq ι) :=
  if s.owner.isNone then
    match s.pc t with
    | .popLock | .popRelock => some ({ s with owner := some t }.goto t .popTest)
    | .pushLock fd => some ({ s with owner := some t }.goto t (.pushAlloc fd))
    | _ => none
  else none

/-- `pthread_mutex_unlock`. -/
def unlock (s : Wq ι) (t : ι) : Option (Wq ι) :=
  match s.pc t with
  | .popUnlock fd => some ({ s with owner := none }.goto t (.popReturn fd))
  | .pushUnlock => some ({ s with owner := none }.goto t .pushReturn)
  | _ => none

/-- `while (wq->size < 1) pthread_cond_wait (...)`. -/
def test (s : Wq ι) (t : ι) : Option (Wq ι) :=
  if s.pc t = .popTest then
    if s.size < 1 then
      some ({ s with owner := none, waiters := s.waiters ++ [t] }.goto t .popWait)
    else some (s.goto t .popRead)
  else none

/-- `wq->head->client_socket_fd`. -/
def read (s : Wq ι) (t : ι) : Except Fault (Option (Wq ι)) :=
  if s.pc t = .popRead then
    match s.items with
    | [] => .error (.undefined "wq->head->client_socket_fd")
    | fd :: _ => .ok (some (s.goto t (.popDec fd)))
  else .ok none

/-- `wq->size--`. -/
def dec (s : Wq ι) (t : ι) : Except Fault (Option (Wq ι)) :=
  match s.pc t with
  | .popDec fd =>
    if s.size = intMin then .error (.undefined "wq->size--")
    else .ok (some ({ s with size := s.size - 1 }.goto t (.popDelete fd)))
  | _ => .ok none

/-- `DL_DELETE (wq->head, wq->head)`. -/
def delete (s : Wq ι) (t : ι) (fd : ℤ) : Except Fault (Option (Wq ι)) :=
  if s.pc t = .popDelete fd then
    match s.items with
    | [] => .error (.undefined "DL_DELETE")
    | _ :: rest => .ok (some ({ s with items := rest }.goto t (.popUnlock fd)))
  else .ok none

/-- `calloc`, and the first use of what it returns. -/
def alloc (s : Wq ι) (t : ι) (granted : Bool) : Except Fault (Option (Wq ι)) :=
  match s.pc t with
  | .pushAlloc fd =>
    if granted then .ok (some (s.goto t (.pushAppend fd)))
    else .error (.undefined "wq_item->client_socket_fd")
  | _ => .ok none

/-- `DL_APPEND (wq->head, wq_item)`. -/
def append (s : Wq ι) (t : ι) (fd : ℤ) : Option (Wq ι) :=
  if s.pc t = .pushAppend fd then some ({ s with items := s.items ++ [fd] }.goto t .pushInc)
  else none

/-- `wq->size++`. -/
def inc (s : Wq ι) (t : ι) : Except Fault (Option (Wq ι)) :=
  if s.pc t = .pushInc then
    if s.size = intMax then .error (.undefined "wq->size++")
    else .ok (some ({ s with size := s.size + 1 }.goto t .pushSignal))
  else .ok none

/-- A thread in `pthread_cond_wait` wakes up. -/
def wake (s : Wq ι) (t : ι) : Option (Wq ι) :=
  if t ∈ s.waiters then some ({ s with waiters := s.waiters.erase t }.goto t .popRelock) else none

/-- `pthread_cond_signal`; it wakes nobody only if nobody waits. -/
def signal (s : Wq ι) (t : ι) (woken : Option ι) : Option (Wq ι) :=
  if s.pc t = .pushSignal then
    match woken with
    | some w => (s.wake w).map (·.goto t .pushUnlock)
    | none => if s.waiters = [] then some (s.goto t .pushUnlock) else none
  else none

/-- What a label does; nothing if it is not possible. -/
def apply (s : Wq ι) : WqLabel ι → Except Fault (Option (Wq ι))
  | .callPop t => .ok (if s.pc t = .outside then some (s.goto t .popLock) else none)
  | .callPush t fd => .ok (if s.pc t = .outside then some (s.goto t (.pushLock fd)) else none)
  | .lock t => .ok (s.lock t)
  | .unlock t => .ok (s.unlock t)
  | .test t => .ok (s.test t)
  | .wake t => .ok (s.wake t)
  | .read t => s.read t
  | .dec t => s.dec t
  | .delete t fd => s.delete t fd
  | .returnPop t fd =>
    .ok (if s.pc t = .popReturn fd then some (s.goto t .outside) else none)
  | .alloc t granted => s.alloc t granted
  | .append t fd => .ok (s.append t fd)
  | .inc t => s.inc t
  | .signal t woken => .ok (s.signal t woken)
  | .returnPush t => .ok (if s.pc t = .pushReturn then some (s.goto t .outside) else none)

def Step (s : Wq ι) (l : WqLabel ι) (s' : Wq ι) : Prop := s.apply l = .ok (some s')

end Wq

/-! ## The atomic queue -/

/-- An operation on a queue. -/
inductive FifoOp where
  | push (fd : ℤ)
  | pop

/-- A queue: `pop` has to wait while it is empty, and returns the oldest item. -/
def fifo : SeqObject (List ℤ) FifoOp (Option ℤ) where
  init := []
  apply
    | q, .push fd => some (q ++ [fd], none)
    | fd :: q, .pop => some (q, some fd)
    | [], .pop => none

namespace WqPc

/-- The places between locking and unlocking the mutex. -/
def inside : WqPc → Bool
  | popTest | popRead | popDec _ | popDelete _ | popUnlock _ | pushAlloc _ | pushAppend _
  | pushInc | pushSignal | pushUnlock => true
  | _ => false

/-- What the thread is doing with the queue. -/
def status : WqPc → CallStatus FifoOp (Option ℤ)
  | outside => .idle
  | popLock | popTest | popWait | popRelock | popRead | popDec _ | popDelete _ => .called .pop
  | popUnlock fd | popReturn fd => .done (some fd)
  | pushLock fd | pushAlloc fd | pushAppend fd => .called (.push fd)
  | pushInc | pushSignal | pushUnlock | pushReturn => .done none

/-- What is true of the queue when its owner is at a place. -/
def Consistent (size : ℤ) (items : List ℤ) : WqPc → Prop
  | popRead => size = items.length ∧ items ≠ []
  | popDec fd => size = items.length ∧ items.head? = some fd
  | popDelete fd => size + 1 = items.length ∧ items.head? = some fd
  | pushInc => size + 1 = items.length
  | _ => size = items.length

/-- The item that `wq_pop` has taken off the list and not returned yet. -/
def unreturned : WqPc → List ℤ
  | popUnlock fd | popReturn fd => [fd]
  | _ => []

/-- The item is on the list and not counted, or counted off and still on the list. -/
def updating : WqPc → Bool
  | popDelete _ | pushInc => true
  | _ => false

end WqPc

namespace WqLabel

variable {ι : Type}

/-- The calls, their effects and the returns. -/
def toAtomic : WqLabel ι → Option (AtomicLabel ι FifoOp (Option ℤ))
  | callPop t => some (.call t .pop)
  | callPush t fd => some (.call t (.push fd))
  | delete t fd => some (.effect t .pop (some fd))
  | append t fd => some (.effect t (.push fd) none)
  | returnPop t fd => some (.ret t (some fd))
  | returnPush t => some (.ret t none)
  | _ => none

/-- The item that is put on the list. -/
def pushed : WqLabel ι → Option ℤ
  | append _ fd => some fd
  | _ => none

/-- The item that is taken off the list. -/
def popped : WqLabel ι → Option ℤ
  | delete _ fd => some fd
  | _ => none

variable [DecidableEq ι]

/-- The item that `t` takes off the list. -/
def poppedBy (t : ι) : WqLabel ι → Option ℤ
  | delete u fd => if u = t then some fd else none
  | _ => none

/-- The item that a call of `wq_pop` by `t` returns. -/
def returnedTo (t : ι) : WqLabel ι → Option ℤ
  | returnPop u fd => if u = t then some fd else none
  | _ => none

end WqLabel

open WqLabel (toAtomic pushed returnedTo popped poppedBy)

namespace Wq

variable {ι : Type} {s s' : Wq ι} {t : ι} {pc : WqPc} {fd : ℤ}

/-- The atomic queue that the work queue stands for. -/
def atomic (s : Wq ι) : Atomic ι (List ℤ) FifoOp (Option ℤ) := ⟨s.items, fun t => (s.pc t).status⟩

/-- **The invariant of the queue.** -/
structure Sound (s : Wq ι) : Prop where
  exclusive : ∀ t, (s.pc t).inside = true ↔ s.owner = some t
  waiting : ∀ t ∈ s.waiters, s.pc t = .popWait
  nodup : s.waiters.Nodup
  free : s.owner = none → s.size = s.items.length
  held : ∀ t, s.owner = some t → (s.pc t).Consistent s.size s.items

theorem Sound.consistent (h : s.Sound) (hpc : s.pc t = pc) (hinside : pc.inside = true) :
    s.owner = some t ∧ pc.Consistent s.size s.items := by
  have howner := (h.exclusive t).mp (hpc ▸ hinside)
  exact ⟨howner, hpc ▸ h.held t howner⟩

theorem Sound.not_waiting (h : s.Sound) (hpc : s.pc t = pc) (hne : pc ≠ .popWait) :
    t ∉ s.waiters := fun hmem => hne (hpc.symm.trans (h.waiting t hmem))

theorem sound_wqInit : (wqInit : Wq ι).Sound :=
  ⟨fun _ => ⟨nofun, nofun⟩, nofun, nodup_nil, fun _ => rfl, nofun⟩

variable [DecidableEq ι]

/-- A thread without the mutex goes on, and has nothing to do with the queue. -/
theorem Sound.elsewhere {waiters : List ι} (h : s.Sound) (hpc : (s.pc t).inside = false)
    (hpc' : pc.inside = false) (hsub : waiters ⊆ s.waiters) (hnodup : waiters.Nodup)
    (hnot : t ∉ waiters) : ({ s with waiters := waiters }.goto t pc).Sound := by
  have hne : ∀ u, s.owner = some u → u ≠ t := by
    rintro u hu rfl
    rw [(h.exclusive u).mpr hu] at hpc
    cases hpc
  refine ⟨fun u => ?_, fun u hu => ?_, hnodup, h.free, fun u hu => ?_⟩
  · by_cases hut : u = t
    · subst hut
      simp only [goto, update_self, hpc', Bool.false_eq_true, false_iff]
      exact fun howner => hne u howner rfl
    · simp only [goto, update_of_ne hut]
      exact h.exclusive u
  · have hut : u ≠ t := fun heq => hnot (heq ▸ hu)
    simp only [goto, update_of_ne hut]
    exact h.waiting u (hsub hu)
  · simp only [goto, update_of_ne (hne u hu)]
    exact h.held u hu

/-- A thread that takes, has or gives up the mutex changes the queue. -/
theorem Sound.change {size : ℤ} {items : List ℤ} {owner : Option ι} {waiters : List ι} (h : s.Sound)
    (hfree : ∀ u, s.owner = some u → u = t) (howner : owner = if pc.inside then some t else none)
    (hwaiters : ∀ u ∈ waiters, (u ∈ s.waiters ∧ u ≠ t) ∨ (u = t ∧ pc = .popWait))
    (hnodup : waiters.Nodup) (hc : pc.Consistent size items) :
    (goto ⟨size, items, owner, waiters, s.pc⟩ t pc).Sound := by
  have hout : pc.inside = false → size = items.length := by
    cases pc <;> simp [WqPc.inside] <;> exact hc
  refine ⟨fun u => ?_, fun u hu => ?_, hnodup, fun hnone => ?_, fun u hu => ?_⟩
  · by_cases hut : u = t
    · subst hut
      simp only [goto, update_self, howner]
      cases pc.inside <;> simp
    · simp only [goto, update_of_ne hut, howner]
      have hnot : (s.pc u).inside = true ↔ False :=
        (h.exclusive u).trans (iff_false_intro fun hu => hut (hfree u hu))
      rw [hnot]
      cases pc.inside <;> simp [Ne.symm hut]
  · rcases hwaiters u hu with ⟨hold, hut⟩ | ⟨rfl, rfl⟩
    · simp only [goto, update_of_ne hut]
      exact h.waiting u hold
    · simp only [goto, update_self]
  · apply hout
    rw [howner] at hnone
    split at hnone
    · cases hnone
    · next hnot => exact Bool.eq_false_iff.mpr hnot
  · rw [howner] at hu
    split at hu
    · cases hu
      simp only [goto, update_self]
      exact hc
    · cases hu

theorem Sound.inside {size : ℤ} {items : List ℤ} (h : s.Sound) (howner : s.owner = some t)
    (hinside : pc.inside = true) (hc : pc.Consistent size items) :
    ({ s with size := size, items := items }.goto t pc).Sound := by
  have hpc := (h.exclusive t).mpr howner
  have hothers : ∀ u, s.owner = some u → u = t := fun u hu => Option.some.inj (hu.symm.trans howner)
  refine h.change hothers ?_ (fun u hu => ?_) h.nodup hc
  · rw [howner, if_pos hinside]
  · refine .inl ⟨hu, ?_⟩
    rintro rfl
    rw [h.waiting u hu] at hpc
    cases hpc

theorem atomic_goto (s : Wq ι) (t : ι) (pc : WqPc) :
    (s.goto t pc).atomic = ⟨s.items, update s.atomic.status t pc.status⟩ := by
  unfold atomic goto
  congr 1
  funext u
  by_cases hu : u = t
  · subst hu
    simp
  · simp [update_of_ne hu]

theorem atomic_goto_silent (h : pc.status = (s.pc t).status) : (s.goto t pc).atomic = s.atomic := by
  rw [atomic_goto, h]
  exact congrArg _ (update_eq_self ..)

/-- What a step amounts to for the atomic queue. -/
def Follows (s : Wq ι) (l : WqLabel ι) (s' : Wq ι) : Prop :=
  match l.toAtomic with
  | some l' => AtomicStep fifo s.atomic l' s'.atomic
  | none => s'.atomic = s.atomic

/-! ## One statement -/

section

variable (h : s.Sound)
include h

theorem Sound.edge (hpc : s.pc t = pc) (hout : pc.inside = false)
    (hne : pc ≠ .popWait) {pc' : WqPc} (hout' : pc'.inside = false) : (s.goto t pc').Sound :=
  h.elsewhere (hpc ▸ hout) hout' (List.Subset.refl _) h.nodup (h.not_waiting hpc hne)

theorem Sound.acquire (hfree : s.owner = none) {pc' : WqPc} (hpc : s.pc t = pc)
    (hne : pc ≠ .popWait) (hinside : pc'.inside = true)
    (hc : pc'.Consistent s.size s.items) : ({ s with owner := some t }.goto t pc').Sound := by
  refine h.change (fun u hu => nomatch hfree.symm.trans hu) (by rw [if_pos hinside]) ?_ h.nodup hc
  intro u hu
  refine .inl ⟨hu, ?_⟩
  rintro rfl
  exact h.not_waiting hpc hne hu

theorem Sound.release {pc' : WqPc} (hpc : s.pc t = pc) (hinside : pc.inside = true)
    (hout : pc'.inside = false) (hsize : s.size = s.items.length) {waiters : List ι}
    (hwaiters : waiters = s.waiters ∨ (waiters = s.waiters ++ [t] ∧ pc' = .popWait)) :
    ({ s with owner := none, waiters := waiters }.goto t pc').Sound := by
  have howner := (h.consistent hpc hinside).1
  have hnot : t ∉ s.waiters := by
    apply h.not_waiting hpc
    rintro rfl
    cases hinside
  have hc : pc'.Consistent s.size s.items := by cases pc' <;> first | exact hsize | cases hout
  refine h.change (fun u hu => Option.some.inj (hu.symm.trans howner)) (by rw [hout]; rfl) ?_ ?_ hc
  · intro u hu
    have hold (hmem : u ∈ s.waiters) : u ∈ s.waiters ∧ u ≠ t := ⟨hmem, fun heq => hnot (heq ▸ hmem)⟩
    rcases hwaiters with rfl | ⟨rfl, hwait⟩
    · exact .inl (hold hu)
    · rcases mem_append.mp hu with hmem | hmem
      · exact .inl (hold hmem)
      · exact .inr ⟨mem_singleton.mp hmem, hwait⟩
  · rcases hwaiters with rfl | ⟨rfl, -⟩
    · exact h.nodup
    · rw [nodup_append]
      refine ⟨h.nodup, nodup_singleton t, fun u hu v hv heq => hnot ?_⟩
      rwa [← mem_singleton.mp hv, ← heq]

theorem Sound.lock (hstep : s.lock t = some s') : s'.Sound ∧ s'.atomic = s.atomic := by
  unfold Wq.lock at hstep
  split at hstep
  · next hnone =>
    have hfree := Option.isNone_iff_eq_none.mp hnone
    split at hstep
    case h_4 => cases hstep
    all_goals
      next hpc =>
      cases hstep
      exact ⟨h.acquire hfree hpc nofun rfl (h.free hfree), atomic_goto_silent (by rw [hpc]; rfl)⟩
  · cases hstep

theorem Sound.unlock (hstep : s.unlock t = some s') : s'.Sound ∧ s'.atomic = s.atomic := by
  unfold Wq.unlock at hstep
  split at hstep
  case h_3 => cases hstep
  all_goals
    next hpc =>
    cases hstep
    have hsize : s.size = s.items.length := (h.consistent hpc rfl).2
    exact ⟨h.release hpc rfl rfl hsize (.inl rfl), atomic_goto_silent (by rw [hpc]; rfl)⟩

theorem Sound.test (hstep : s.test t = some s') : s'.Sound ∧ s'.atomic = s.atomic := by
  unfold Wq.test at hstep
  split at hstep
  · next hpc =>
    obtain ⟨howner, hsize⟩ := h.consistent hpc rfl
    split at hstep
    · cases hstep
      exact ⟨h.release hpc rfl rfl hsize (.inr ⟨rfl, rfl⟩), atomic_goto_silent (by rw [hpc]; rfl)⟩
    next hfull =>
    cases hstep
    have hne : s.items ≠ [] := by
      intro hnil
      rw [hsize, hnil] at hfull
      exact hfull (by decide)
    exact ⟨h.inside howner rfl ⟨hsize, hne⟩, atomic_goto_silent (by rw [hpc]; rfl)⟩
  · cases hstep

theorem Sound.wake (hstep : s.wake t = some s') : s'.Sound ∧ s'.atomic = s.atomic := by
  unfold Wq.wake at hstep
  split at hstep
  · next hmem =>
    cases hstep
    have hpc := h.waiting t hmem
    refine ⟨h.elsewhere (by rw [hpc]; rfl) rfl erase_subset (h.nodup.erase t) ?_,
      atomic_goto_silent (by rw [hpc]; rfl)⟩
    exact fun hmem => (h.nodup.mem_erase_iff.mp hmem).1 rfl
  · cases hstep

theorem Sound.wake_pc {w : ι} (hstep : s.wake w = some s')
    (hne : s.pc t ≠ .popWait) : s'.pc t = s.pc t := by
  unfold Wq.wake at hstep
  split at hstep
  · next hmem =>
    cases hstep
    apply update_of_ne
    rintro rfl
    exact hne (h.waiting t hmem)
  · cases hstep

theorem Sound.read : ∃ r, s.read t = .ok r ∧ ∀ s' ∈ r, s'.Sound ∧ s'.atomic = s.atomic := by
  unfold Wq.read
  split
  · next hpc =>
    obtain ⟨howner, hsize, hne⟩ := h.consistent hpc rfl
    cases hitems : s.items with
    | nil => exact absurd hitems hne
    | cons fd rest =>
      refine ⟨_, rfl, ?_⟩
      rintro s' ⟨⟩
      exact ⟨h.inside howner rfl ⟨hsize, by rw [hitems]; rfl⟩,
        atomic_goto_silent (by rw [hpc]; rfl)⟩
  · exact ⟨none, rfl, nofun⟩

theorem Sound.dec : ∃ r, s.dec t = .ok r ∧ ∀ s' ∈ r, s'.Sound ∧ s'.atomic = s.atomic := by
  unfold Wq.dec
  split
  · next fd hpc =>
    obtain ⟨howner, hsize, hhead⟩ := h.consistent hpc rfl
    have hmin : s.size ≠ intMin := by
      rw [intMin]
      omega
    rw [if_neg hmin]
    refine ⟨_, rfl, ?_⟩
    rintro s' ⟨⟩
    refine ⟨h.inside howner rfl ⟨?_, hhead⟩, ?_⟩
    · rwa [Int.sub_add_cancel]
    · exact atomic_goto_silent (s := { s with size := s.size - 1 }) (by rw [hpc]; rfl)
  · exact ⟨none, rfl, nofun⟩

/-- `wq_pop` takes effect: the item that was read is the first one. -/
theorem Sound.delete : ∃ r, s.delete t fd = .ok r ∧ ∀ s' ∈ r, s'.Sound ∧
    AtomicStep fifo s.atomic (.effect t .pop (some fd)) s'.atomic := by
  unfold Wq.delete
  split
  · next hpc =>
    obtain ⟨howner, hsize, hhead⟩ := h.consistent hpc rfl
    cases hitems : s.items with
    | nil =>
      rw [hitems] at hhead
      cases hhead
    | cons x rest =>
      rw [hitems] at hhead hsize
      cases hhead
      refine ⟨_, rfl, ?_⟩
      rintro s' ⟨⟩
      refine ⟨h.inside howner rfl ?_, ?_, rest, ?_, atomic_goto ..⟩
      · simp only [WqPc.Consistent, length_cons] at hsize ⊢
        omega
      · simp only [atomic, hpc]
        rfl
      · rw [atomic, hitems]
        rfl
  · exact ⟨none, rfl, nofun⟩

theorem Sound.append (hstep : s.append t fd = some s') :
    s'.Sound ∧ AtomicStep fifo s.atomic (.effect t (.push fd) none) s'.atomic := by
  unfold Wq.append at hstep
  split at hstep
  · next hpc =>
    cases hstep
    obtain ⟨howner, hsize⟩ := h.consistent hpc rfl
    replace hsize : s.size = s.items.length := hsize
    refine ⟨h.inside howner rfl ?_, ?_, s.items ++ [fd], rfl, atomic_goto ..⟩
    · simp [WqPc.Consistent, hsize]
    · simp only [atomic, hpc]
      rfl
  · cases hstep

theorem Sound.alloc {granted : Bool} (hstep : s.alloc t granted = .ok (some s')) :
    s'.Sound ∧ s'.atomic = s.atomic := by
  unfold Wq.alloc at hstep
  split at hstep
  · next fd hpc =>
    split at hstep
    · cases hstep
      obtain ⟨howner, hsize⟩ := h.consistent hpc rfl
      exact ⟨h.inside howner rfl hsize, atomic_goto_silent (by rw [hpc]; rfl)⟩
    · cases hstep
  · cases hstep

theorem Sound.inc (hstep : s.inc t = .ok (some s')) : s'.Sound ∧ s'.atomic = s.atomic := by
  unfold Wq.inc at hstep
  split at hstep
  · next hpc =>
    split at hstep
    · cases hstep
    · cases hstep
      obtain ⟨howner, hsize⟩ := h.consistent hpc rfl
      refine ⟨h.inside howner rfl hsize, ?_⟩
      exact atomic_goto_silent (s := { s with size := s.size + 1 }) (by rw [hpc]; rfl)
  · cases hstep

theorem Sound.signal {woken : Option ι} (hstep : s.signal t woken = some s') :
    s'.Sound ∧ s'.atomic = s.atomic := by
  unfold Wq.signal at hstep
  split at hstep
  · next hpc =>
    split at hstep
    · next w =>
      obtain ⟨u, hwake, rfl⟩ := Option.map_eq_some_iff.mp hstep
      obtain ⟨hu, hsame⟩ := h.wake hwake
      have hupc : u.pc t = .pushSignal := (h.wake_pc hwake (by rw [hpc]; nofun)).trans hpc
      obtain ⟨howner, hsize⟩ := hu.consistent hupc rfl
      refine ⟨hu.inside howner rfl hsize, ?_⟩
      rw [atomic_goto_silent (by rw [hupc]; rfl), hsame]
    · split at hstep
      · cases hstep
        obtain ⟨howner, hsize⟩ := h.consistent hpc rfl
        exact ⟨h.inside howner rfl hsize, atomic_goto_silent (by rw [hpc]; rfl)⟩
      · cases hstep
  · cases hstep

/-- **One step** keeps the invariant, and is a step of the atomic queue or none. -/
theorem Sound.step {l : WqLabel ι} (hstep : Step s l s') : s'.Sound ∧ s.Follows l s' := by
  have hok {r : Except Fault (Option (Wq ι))} {P : Wq ι → Prop} (hr : r = .ok (some s'))
      (hex : ∃ o, r = .ok o ∧ ∀ s' ∈ o, P s') : P s' := by
    obtain ⟨o, ho, hP⟩ := hex
    exact hP s' (Except.ok.inj (ho.symm.trans hr))
  cases l with
  | callPop t | callPush t fd | returnPop t fd | returnPush t =>
    obtain ⟨hpc, ⟨⟩⟩ := Option.ite_none_right_eq_some.mp (Except.ok.inj hstep)
    exact ⟨h.edge hpc rfl nofun rfl, congrArg WqPc.status hpc, atomic_goto ..⟩
  | lock t => exact h.lock (Except.ok.inj hstep)
  | unlock t => exact h.unlock (Except.ok.inj hstep)
  | test t => exact h.test (Except.ok.inj hstep)
  | wake t => exact h.wake (Except.ok.inj hstep)
  | read t => exact hok hstep h.read
  | dec t => exact hok hstep h.dec
  | delete t fd => exact hok hstep h.delete
  | alloc t granted => exact h.alloc hstep
  | append t fd => exact h.append (Except.ok.inj hstep)
  | inc t => exact h.inc hstep
  | signal t woken => exact h.signal (Except.ok.inj hstep)

/-- The only statements that can go wrong are in `wq_push`: there is no memory, or the counter is
at its maximum. -/
theorem Sound.error {l : WqLabel ι} {e : Fault} (herror : s.apply l = .error e) :
    ∃ t, l = .alloc t false ∨ (l = .inc t ∧ s.size = intMax) := by
  have hok {r : Except Fault (Option (Wq ι))} {P : Wq ι → Prop} (hr : r = .error e)
      (hex : ∃ o, r = .ok o ∧ ∀ s' ∈ o, P s') : False := by
    obtain ⟨o, ho, -⟩ := hex
    cases ho.symm.trans hr
  cases l with
  | read t => exact (hok herror h.read).elim
  | dec t => exact (hok herror h.dec).elim
  | delete t fd => exact (hok herror h.delete).elim
  | alloc t granted =>
    rw [apply, Wq.alloc] at herror
    split at herror
    · cases granted with
      | false => exact ⟨t, .inl rfl⟩
      | true => cases herror
    · cases herror
  | inc t =>
    rw [apply, Wq.inc] at herror
    split at herror
    · split at herror
      · next hmax => exact ⟨t, .inr ⟨rfl, hmax⟩⟩
      · cases herror
    · cases herror
  | _ => cases herror

end

end Wq

/-! ## Order -/

section Fifo

def pushedItems (ops : List (FifoOp × Option ℤ)) : List ℤ :=
  ops.filterMap fun l => match l.1 with
    | .push fd => some fd
    | .pop => none

def poppedItems (ops : List (FifoOp × Option ℤ)) : List ℤ :=
  ops.filterMap fun l => match l.1 with
    | .push _ => none
    | .pop => l.2

/-- What was popped is what was pushed first, and the rest is on the queue. -/
theorem fifo_order {ops : List (FifoOp × Option ℤ)} {q : List ℤ}
    (hrun : Run (SeqStep fifo) [] ops q) : poppedItems ops ++ q = pushedItems ops := by
  induction hrun with
  | nil => rfl
  | @snoc ops q q' l _ hstep ih =>
    obtain ⟨o, r⟩ := l
    unfold poppedItems pushedItems at ih ⊢
    rw [filterMap_append, filterMap_append, ← ih]
    cases o with
    | push fd =>
      cases hstep
      simp
    | pop =>
      cases q with
      | nil => cases hstep
      | cons fd rest =>
        cases hstep
        simp

end Fifo

namespace Wq

variable {ι : Type} [DecidableEq ι] {s : Wq ι} {labels : List (WqLabel ι)}

section

variable (hrun : Run Step wqInit labels s)
include hrun

theorem run_sound : s.Sound :=
  hrun.invariant sound_wqInit fun _ _ _ h hstep => (h.step hstep).1

theorem run_atomic :
    Run (AtomicStep fifo) (Atomic.start fifo) (labels.filterMap toAtomic) s.atomic := by
  suffices hsim : ∃ a, Run (AtomicStep fifo) (Atomic.start fifo)
      (labels.filterMap toAtomic) a ∧ (s.Sound ∧ a = s.atomic) by
    obtain ⟨a, ha, -, rfl⟩ := hsim
    exact ha
  refine hrun.refinement (R := fun s a => s.Sound ∧ a = s.atomic) ⟨sound_wqInit, rfl⟩ ?_ ?_
  · rintro s l s' a l' ⟨h, rfl⟩ hstep hl
    obtain ⟨h', hfollows⟩ := h.step hstep
    rw [Follows, hl] at hfollows
    exact ⟨s'.atomic, hfollows, h', rfl⟩
  · rintro s l s' a ⟨h, rfl⟩ hstep hl
    obtain ⟨h', hfollows⟩ := h.step hstep
    rw [Follows, hl] at hfollows
    exact ⟨h', hfollows.symm⟩

theorem run_order : labels.filterMap popped ++ s.items = labels.filterMap pushed := by
  let ops := (labels.filterMap toAtomic).filterMap AtomicLabel.operation
  have hpopped : poppedItems ops = labels.filterMap popped := by
    simp only [ops, poppedItems, filterMap_filterMap]
    exact filterMap_congr fun l _ => by cases l <;> rfl
  have hpushed : pushedItems ops = labels.filterMap pushed := by
    simp only [ops, pushedItems, filterMap_filterMap]
    exact filterMap_congr fun l _ => by cases l <;> rfl
  calc
    labels.filterMap popped ++ s.items = poppedItems ops ++ s.atomic.obj := by
      rw [hpopped]
      rfl
    _ = pushedItems ops := fifo_order (run_atomic hrun).effects
    _ = labels.filterMap pushed := hpushed

theorem run_returned (t : ι) : labels.filterMap (poppedBy t) =
      labels.filterMap (returnedTo t) ++ (s.pc t).unreturned := by
  have hresults := congrArg (filterMap id) ((run_atomic hrun).results t)
  simp only [filterMap_append, filterMap_filterMap] at hresults
  have hpopped : ∀ l ∈ labels, ((l.toAtomic.bind (AtomicLabel.resultOf t)).bind id) =
      poppedBy t l := by
    intro l _
    cases l with
    | delete u fd | append u fd =>
      simp only [toAtomic, Option.bind_some, AtomicLabel.resultOf, poppedBy]
      split <;> rfl
    | _ => rfl
  have hreturned : ∀ l ∈ labels, ((l.toAtomic.bind (AtomicLabel.returnOf t)).bind id) =
      returnedTo t l := by
    intro l _
    cases l with
    | returnPop u fd | returnPush u =>
      simp only [toAtomic, Option.bind_some, AtomicLabel.returnOf, returnedTo]
      split <;> rfl
    | _ => rfl
  rw [filterMap_congr hpopped, filterMap_congr hreturned] at hresults
  rw [hresults]
  congr 1
  simp only [atomic]
  cases s.pc t <;> rfl

end

/-- **The work queue is a linearizable queue.**  In every interleaving: the calls are calls of an
atomic queue, which take effect while the mutex is held; the items are popped in the order in which
they were pushed, and each is returned by the call that popped it; `size` counts the items,
except between the two statements that change them; and `wq_pop` never reads an empty queue. -/
theorem wq_linearizable (hrun : Run Step wqInit labels s) :
    Run (AtomicStep fifo) (Atomic.start fifo) (labels.filterMap toAtomic) s.atomic ∧
      (∀ t, (s.pc t).inside = true ↔ s.owner = some t) ∧
      labels.filterMap popped ++ s.items = labels.filterMap pushed ∧
      (∀ t, labels.filterMap (poppedBy t) =
        labels.filterMap (returnedTo t) ++ (s.pc t).unreturned) ∧
      ((∀ t, (s.pc t).updating = false) → s.size = s.items.length) ∧
      ∀ l e, s.apply l = .error e → ∃ t, l = .alloc t false ∨ (l = .inc t ∧ s.size = intMax) := by
  have h := run_sound hrun
  refine ⟨run_atomic hrun, h.exclusive, run_order hrun, run_returned hrun, ?_, fun l e => h.error⟩
  intro hno
  cases howner : s.owner with
  | none => exact h.free howner
  | some t =>
    have hc := h.held t howner
    have ht := hno t
    cases hpc : s.pc t <;> rw [hpc] at hc ht <;> first | exact hc | exact hc.1 | cases ht

/-- A consumer waits, wakes up for nothing and waits again; two items are pushed, and it returns
the first one. -/
theorem wq_linearizable_two_items : ∃ labels s, Run Step (wqInit : Wq Bool) labels s ∧
    labels.filterMap (returnedTo true) = [7] ∧
      labels.filterMap pushed = [7, 8] ∧ s.items = [8] ∧ s.size = s.items.length := by
  let labels : List (WqLabel Bool) :=
    [.callPop true, .lock true, .test true, .wake true, .lock true, .test true,
      .callPush false 7, .lock false, .alloc false true, .append false 7, .inc false,
      .signal false (some true), .unlock false, .returnPush false,
      .callPush false 8, .lock false, .alloc false true, .append false 8, .inc false,
      .signal false none, .unlock false, .returnPush false,
      .lock true, .test true, .read true, .dec true, .delete true 7, .unlock true,
      .returnPop true 7]
  obtain ⟨s, hrun, htrue, hfalse⟩ : ∃ s, Run Step wqInit labels s ∧ s.pc true = .outside ∧
      s.pc false = .outside :=
    exists_run_of_execute (fun _ _ _ => outcome_eq_some.mp) (by decide +kernel)
  obtain ⟨-, -, horder, -, hsize, -⟩ := wq_linearizable hrun
  have hitems : [7] ++ s.items = [7, 8] := horder
  refine ⟨labels, s, hrun, rfl, rfl, append_cancel_left hitems, hsize fun t => ?_⟩
  cases t with
  | false => rw [hfalse]; rfl
  | true => rw [htrue]; rfl

end Wq

end CS162
