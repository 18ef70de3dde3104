import CS162.Userprog.Frame

/-!
# The records follow the protocol

Every step of the processes either leaves a record as it is, or is one of the actions of
the protocol of `WaitStatus.lean`.  The protocol is kept as long as the loop of
`process_exit` finds only records whose child has exited, and `thread_create` succeeds.

## Strategy

* **The invariant.**  `Sound good` speaks of the records whose owner is `good`: the linked
  ones are at a stage of the protocol (`links`), the others are fresh and about to be
  handed to a new thread (`fresh`), and the variable of the loop of `process_exit` is the
  first record still in the list (`loop`).
* **The step.**  Each part of `Sound` has its own lemma; `Sound.step` puts them together.
-/

namespace CS162

open Function List

namespace Processes

variable {s u : Processes} {p : Tid} {a : Action} {more rest : List Action} {strict : Prop}
  {good : Tid → Prop} {c t : Tid} {r w : RecordId}

/-! ## The invariant -/

/-- What can be seen of record `r`, which thread `c` has from its parent. -/
@[simp] def view (s : Processes) (c : Tid) (r : RecordId) : View where
  tid := (s.waitStatus r).tid
  refCount := (s.waitStatus r).refCount
  value := (s.waitStatus r).sema.value
  exitCode := (s.waitStatus r).exitCode
  parentDropped := s.Dropped (s.owner r) r
  childDropped := s.Dropped c r
  listed := r ∈ s.children (s.owner r)
  freed := s.freed r = true
  exiting code := .exiting c code ∈ s.history
  exited := s.Exited c
  parent := focus (s.prog (s.owner r))
  child := focus (s.prog c)

def Unlinked (s : Processes) (r : RecordId) : Prop := ∀ c, s.myWaitStatus c ≠ some r

/-- The record is as `process_execute` has set it up. -/
structure Fresh (s : Processes) (r : RecordId) : Prop where
  refCount : (s.waitStatus r).refCount = -1
  value : (s.waitStatus r).sema.value = 0
  dropped : ∀ t, ¬ s.Dropped t r
  freed : s.freed r = false

/-- The variable `e` of the loop of `process_exit`. -/
def loopVar : List Action → Option (Option RecordId)
  | [] => none
  | .exitLoop e :: _ => some e
  | _ :: rest => loopVar rest

/-- The loop of `process_exit` works on the first record of the list, or has just taken
it out. -/
def loopFits (e : Option RecordId) (list : List RecordId) : Focus → Prop
  | .dropping w | .testing w | .removing w => list.head? = some w ∧ list.tail.head? = e
  | .freeing _ => list.head? = e
  | .looping e' => e' = e ∧ list.head? = e
  | _ => False

/-- The records of the good processes are used as the protocol says. -/
structure Sound (good : Tid → Prop) (s : Processes) : Prop where
  links : ∀ c r, s.myWaitStatus c = some r → good (s.owner r) →
    ∃ ps cs, AtStage (s.view c r) c r ps cs
  unique : ∀ c c' r, s.myWaitStatus c = some r → s.myWaitStatus c' = some r →
    good (s.owner r) → c = c'
  fresh : ∀ r < s.nextRecord, good (s.owner r) → s.Unlinked r → s.Fresh r
  adding : ∀ r < s.nextRecord, good (s.owner r) → s.Unlinked r →
    focus (s.prog (s.owner r)) = .pushing r ∨
      (focus (s.prog (s.owner r)) = .creating ∧ (s.children (s.owner r)).head? = some r)
  pushing : ∀ p r, good p → focus (s.prog p) = .pushing r → s.Unlinked r
  creating : ∀ p, good p → focus (s.prog p) = .creating →
    ∃ r, (s.children p).head? = some r ∧ s.Unlinked r
  loop : ∀ p e, good p → loopVar (s.prog p) = some e → loopFits e (s.children p) (focus (s.prog p))
  freed : ∀ r, s.freed r = true → r < s.nextRecord

theorem sound_boot : boot.Sound good where
  links c r h := by simp at h
  unique c c' r h := by simp at h
  fresh r h := by simp at h
  adding r h := by simp at h
  pushing p r _ h := by
    simp only [boot] at h
    split at h <;> simp at h
  creating p _ h := by
    simp only [boot] at h
    split at h <;> simp at h
  loop p e _ h := by
    simp only [boot] at h
    split at h <;> simp [loopVar] at h
  freed r h := by simp at h

/-- What the protocol asks of an action of a good process: `thread_create` succeeds, and
the loop of `process_exit` finds only records whose child has exited. -/
structure Tends (s : Processes) (p : Tid) (a : Action) (u : Processes) : Prop where
  create : a = .threadCreate → u = s.threadCreate p
  loop : ∀ w, a = .exitLoop (some w) → ∃ c, s.myWaitStatus c = some w ∧ s.Exited c

/-! ## Who an action concerns -/

variable {prog : List Action}

/-- The record a thread has an action on is one it has allocated, or its own. -/
theorem Role.record (h : s.Role p prog a)
    (hr : (aim a).bind Focus.record = some r) : s.Owns p r ∨ s.myWaitStatus p = some r := by
  cases a with
  | semaDown q => cases q <;> cases hr; exact .inl h
  | semaUp q => cases q <;> cases hr; exact .inr h
  | pushChild w | readExitCode w tid | testLoop w => cases hr; exact .inl h
  | setExitCode w code => cases hr; exact .inr h
  | decRef w | testRef w | removeChild w | free w => cases hr; exact h.imp_right And.left
  | _ => cases hr

theorem Structured.concerns (h : s.Structured strict) (hprog : s.prog p = a :: rest)
    (hr : s.concerns p a = some r) : s.Owns p r ∨ s.myWaitStatus p = some r := by
  cases a with
  | findChild tid => exact .inl (h.children_owner p r (childWith_mem hr))
  | exitLoop e => exact .inl (h.role_head hprog r hr)
  | _ => exact Role.record (h.role_head hprog) hr

theorem Sound.child_keeps (h : s.Sound good) (hc : s.myWaitStatus c = some r)
    (hgood : good (s.owner r)) :
    focus (s.prog c) ≠ .removing r ∧ focus (s.prog c) ≠ .freeing r := by
  obtain ⟨ps, cs, hfits⟩ := h.links c r hc hgood
  constructor <;> intro hfocus <;> simpa using hfits.child_of hfocus

/-- The records a good process has handed out have a `ref_count` of their own. -/
theorem Sound.refCount_nonneg (h : s.Sound good) (hc : s.myWaitStatus c = some r)
    (hgood : good (s.owner r)) : 0 ≤ (s.waitStatus r).refCount := by
  obtain ⟨ps, cs, hfits⟩ := h.links c r hc hgood
  have hcount : (s.waitStatus r).refCount = ps.refs + cs.refs := hfits.refCount
  rw [hcount]
  cases ps <;> cases cs <;> decide

theorem recordForChild_eq_some (h : s.recordForChild p = some r) :
    (s.children p).head? = some r ∧ (s.waitStatus r).refCount = -1 := by
  obtain ⟨hhead, hcount⟩ := Option.filter_eq_some_iff.mp h
  exact ⟨hhead, of_decide_eq_true hcount⟩

theorem Sound.recordForChild_ne (h : s.Sound good) (hc : s.myWaitStatus c = some r)
    (hgood : good (s.owner r)) : s.recordForChild p ≠ some r := by
  intro hrecord
  have hnonneg := h.refCount_nonneg hc hgood
  rw [(recordForChild_eq_some hrecord).2] at hnonneg
  exact absurd hnonneg (by decide)

theorem Structured.my_kept (h : s.Structured strict) (heffect : Effect s p a u more)
    (hc : s.myWaitStatus c = some r) : u.myWaitStatus c = some r := by
  rw [heffect.grows.mine c (h.mine c r hc).2.1, hc]

theorem Effect.my_new (h : Effect s p a u more) (hc : u.myWaitStatus c = some r) :
    s.myWaitStatus c = some r ∨
      (a = .threadCreate ∧ u = s.threadCreate p ∧ c = s.nextTid ∧ s.recordForChild p = some r) := by
  cases h with
  | threadCreate =>
    by_cases hnew : c = s.nextTid
    · subst hnew
      right
      exact ⟨rfl, rfl, rfl, by simpa using hc⟩
    · left
      simpa [hnew] using hc
  | _ => exact .inl hc

theorem Sound.linked_or_fresh (h : s.Sound good) (hr : r < s.nextRecord)
    (hgood : good (s.owner r)) :
    (∃ c ps cs, s.myWaitStatus c = some r ∧ AtStage (s.view c r) c r ps cs) ∨
      (s.Unlinked r ∧ s.Fresh r) := by
  by_cases hunlinked : s.Unlinked r
  · exact .inr ⟨hunlinked, h.fresh r hr hgood hunlinked⟩
  · obtain ⟨c, hc⟩ : ∃ c, s.myWaitStatus c = some r := by simpa [Unlinked] using hunlinked
    obtain ⟨ps, cs, hfits⟩ := h.links c r hc hgood
    exact .inl ⟨c, ps, cs, hc, hfits⟩

/-- Outside `process_execute` every record of the process has its child. -/
theorem Sound.linked (h : s.Sound good) (howns : s.Owns p r) (hgood : good p)
    (hidle : ¬ (focus (s.prog p)).Adding) :
    ∃ c ps cs, s.myWaitStatus c = some r ∧ AtStage (s.view c r) c r ps cs := by
  obtain ⟨rfl, hr⟩ := howns
  refine (h.linked_or_fresh hr hgood).resolve_right fun ⟨hunlinked, _⟩ => hidle ?_
  rcases h.adding r hr hgood hunlinked with hfocus | ⟨hfocus, _⟩
  · exact .inr ⟨r, hfocus⟩
  · exact .inl hfocus

/-- A good process that tests `ref_count` as a parent finds it 0. -/
theorem Sound.refCount_testing (h : s.Sound good) (hgood : good p) (howns : s.Owns p r)
    (hfocus : focus (s.prog p) = .testing r) : (s.waitStatus r).refCount = 0 := by
  obtain ⟨c, ps, cs, _, hfits⟩ := h.linked howns hgood (by simp [hfocus])
  obtain ⟨rfl, _⟩ := howns
  exact hfits.refCount_parent hfocus

/-- A thread that is still to call `sema_up` on a record has it from its parent. -/
theorem Structured.publishing (h : s.Structured strict) (hprog : s.prog p = a :: rest)
    (hfocus : focus rest = .publishing r) : s.myWaitStatus p = some r := by
  obtain ⟨b, hb, haim⟩ := exists_aim_of_focus hfocus (by simp)
  have hup : b = .semaUp (.exited r) := by
    unfold aim at haim
    split at haim <;> simp_all
  have hall := h.role p b
  rw [hprog, hup] at hall
  exact hall (mem_cons_of_mem a (hup ▸ hb))

/-! ## The linked records -/

section Links

variable {ps : ParentStage} {cs : ChildStage}

theorem Sound.fits_child (h : s.Sound good) (hs : s.Structured strict)
    (hprog : s.prog c = a :: rest) (heffect : Effect s c a u more)
    (hc : s.myWaitStatus c = some r) (hgood : good (s.owner r))
    (hconcerns : s.concerns c a = some r) (hfits : AtStage (s.view c r) c r ps cs) :
    ∃ ps cs, AtStage ((u.setProg c (more ++ rest)).view c r) c r ps cs := by
  have hne : s.owner r ≠ c := ne_of_lt (hs.mine c r hc).2.2
  have hfollows := (hs.sequenced_of hprog).1
  have hrole := hs.role_head hprog
  have hbefore : (s.view c r).child = focus (a :: rest) := by simp only [view, hprog]
  cases heffect with
  | raise q _ | wake q _ _ _ _ =>
    cases q <;> cases hconcerns
    have hfocus : focus rest = .idle := hfollows.1
    have hzero : (s.waitStatus r).sema.value = 0 := hfits.value_publishing hbefore
    have hone : (s.waitStatus r).sema.value + 1 ≠ 0 := by
      rw [hzero]
      decide
    refine ⟨_, _, (hfits.childUp hbefore (f := .idle) (by simp) hone).of_eq ?_⟩
    simp [Shared.setSema, Shared.sema, hne, hfocus, upEvents]
  | decRef w =>
    cases hconcerns
    have hfocus : focus rest = .testing r := hfollows
    refine ⟨_, _, (hfits.childDrop hbefore).of_eq ?_⟩
    simp [hne, hfocus]
  | testRef w =>
    cases hconcerns
    have hone : (s.waitStatus r).refCount = 1 := hfits.refCount_child hbefore
    have hfocus : focus rest = .publishing r := by
      rcases hfollows with ⟨hidle, _⟩ | ⟨hfocus, _⟩
      · rcases hrole with howns | ⟨_, hup⟩
        · exact absurd howns.1 hne
        · have hmem : Action.semaUp (.exited r) ∈ rest := by simpa using hup
          cases aim_of_focus_idle hidle _ hmem
      · exact hfocus
    refine ⟨_, _, (hfits.childTest hbefore).of_eq ?_⟩
    simp [hne, hone, releaseRecord, hfocus]
  | removeChild w _ =>
    cases hconcerns
    exact absurd (by rw [hprog]; rfl) (h.child_keeps hc hgood).1
  | free w =>
    cases hconcerns
    exact absurd (by rw [hprog]; rfl) (h.child_keeps hc hgood).2
  | setExitCode w code =>
    cases hconcerns
    have hfocus : focus rest = .dropping r := hfollows.1
    refine ⟨_, _, (hfits.childCode hbefore).of_eq ?_⟩
    simp [hne, hfocus]
  | findChild tid => exact absurd (hs.children_owner c r (childWith_mem hconcerns)).1 hne
  | exitLoop w =>
    cases hconcerns
    exact absurd (hrole r rfl).1 hne
  | take q _ | sleep q _ =>
    cases q <;> cases hconcerns
    exact absurd hrole.1 hne
  | pushChild w | readExitCode w tid | testLoop w =>
    cases hconcerns
    exact absurd hrole.1 hne
  | _ => cases hconcerns

theorem Sound.fits_create (h : s.Sound good) (hs : s.Structured strict)
    (hprog : s.prog p = .threadCreate :: rest) (hrecord : s.recordForChild p = some r)
    (hgood : good p) :
    AtStage (((s.threadCreate p).setProg p rest).view s.nextTid r) s.nextTid r .held .running := by
  obtain ⟨hhead, hcount⟩ := recordForChild_eq_some hrecord
  have hmem : r ∈ s.children p := mem_of_mem_head? hhead
  obtain ⟨rfl, hr⟩ := hs.children_owner p r hmem
  have hfresh : s.Fresh r := by
    apply h.fresh r hr hgood
    intro c hc
    exact h.recordForChild_ne hc hgood hrecord
  have hne : s.nextTid ≠ s.owner r := ne_of_gt (hs.lt_nextTid hprog)
  have hunborn := (hs.unborn s.nextTid le_rfl).1
  have hfocus : focus rest = .idle := (hs.sequenced_of hprog).1.1
  have hexiting : ∀ code, ProcessEvent.exiting s.nextTid code ∉ s.history :=
    fun code he => lt_irrefl _ (hs.known _ he)
  have hexited : ProcessEvent.exited s.nextTid ∉ s.history :=
    fun he => lt_irrefl _ (hs.known _ he)
  have hdropped : ∀ t, ProcessEvent.dropped t r ∉ s.history := hfresh.dropped
  have hvalue := hfresh.value
  have hfreed := hfresh.freed
  constructor <;> simp_all [ParentStage.refs, ChildStage.refs]

end Links

/-! ## The fresh records -/

theorem Structured.unlinked_of_effect (h : s.Structured strict) (heffect : Effect s p a u more)
    (hr : u.Unlinked r) : s.Unlinked r :=
  fun c hc => hr c (h.my_kept heffect hc)

/-- A record stays unlinked until `thread_create` hands it out. -/
theorem Unlinked.effect (h : s.Unlinked r) (heffect : Effect s p a u more)
    (hcreate : a = .threadCreate → s.recordForChild p ≠ some r) : u.Unlinked r := by
  intro c hc
  rcases heffect.my_new hc with hold | ⟨ha, _, _, hrecord⟩
  · exact h c hold
  · exact hcreate ha hrecord

/-- `thread_create` only hands out records of the thread's own list. -/
theorem Structured.recordForChild_owner (h : s.Structured strict)
    (hrecord : s.recordForChild p = some r) : s.owner r = p ∧ r ∈ s.children p := by
  have hmem : r ∈ s.children p := mem_of_mem_head? (recordForChild_eq_some hrecord).1
  exact ⟨(h.children_owner p r hmem).1, hmem⟩

/-- A thread that is about to hand out a record hands out that record. -/
theorem Sound.recordForChild_creating (h : s.Sound good) (hs : s.Structured strict)
    (hgood : good p) (hfocus : focus (s.prog p) = .creating) :
    ∃ r, (s.children p).head? = some r ∧ s.recordForChild p = some r := by
  obtain ⟨r, hhead, hunlinked⟩ := h.creating p hgood hfocus
  obtain ⟨howner, hr⟩ := hs.children_owner p r (mem_of_mem_head? hhead)
  have hfresh := h.fresh r hr (howner.symm ▸ hgood) hunlinked
  refine ⟨r, hhead, Option.filter_eq_some_iff.mpr ⟨hhead, ?_⟩⟩
  simp [hfresh.refCount]

/-- A record nobody has yet is about to be pushed or handed out, and nothing else. -/
theorem Sound.concerns_unlinked (h : s.Sound good) (hs : s.Structured strict)
    (hprog : s.prog p = a :: rest) (hr : r < s.nextRecord) (hgood : good (s.owner r))
    (hunlinked : s.Unlinked r) (hconcerns : s.concerns p a = some r) : a = .pushChild r := by
  have howns : s.owner r = p := by
    rcases hs.concerns hprog hconcerns with howns | hmine
    · exact howns.1
    · exact absurd hmine (hunlinked p)
  have hadding := h.adding r hr hgood hunlinked
  rw [howns, hprog] at hadding
  have hfollows := (hs.sequenced_of hprog).1
  cases a with
  | pushChild w => cases hconcerns; rfl
  | findChild tid =>
    have hidle : focus (.findChild tid :: rest) = .idle := hfollows.1
    rw [hidle] at hadding
    simp at hadding
  | semaDown q | semaUp q => cases q <;> simp_all [Processes.concerns]
  | _ => simp_all [Processes.concerns]

theorem Structured.pushing_owner (h : s.Structured strict)
    (hfocus : focus (s.prog p) = .pushing r) :
    s.Owns p r := by
  obtain ⟨b, hb, haim⟩ := exists_aim_of_focus hfocus (by simp)
  have hpush : b = .pushChild r := by
    unfold aim at haim
    split at haim <;> simp_all
  have hrole := h.role p b hb
  rwa [hpush] at hrole

theorem Effect.children_of_aim (h : Effect s p a u more) (haim : aim a = none) (q : Tid) :
    u.children q = s.children q := by
  rcases h.children q with hsame | ⟨w, rfl, _, _⟩ | ⟨w, rfl, _, _⟩
  · exact hsame
  · cases haim
  · cases haim

theorem Sound.unique_effect (h : s.Sound good) (hs : s.Structured strict)
    (heffect : Effect s p a u more) {c' : Tid} (hc : u.myWaitStatus c = some r)
    (hc' : u.myWaitStatus c' = some r) (hgood : good (u.owner r)) : c = c' := by
  rcases heffect.my_new hc with hold | ⟨_, _, rfl, hrecord⟩
  · rw [heffect.grows.owner r (hs.mine c r hold).1] at hgood
    rcases heffect.my_new hc' with hold' | ⟨_, _, _, hrecord⟩
    · exact h.unique c c' r hold hold' hgood
    · exact absurd hrecord (h.recordForChild_ne hold hgood)
  · rcases heffect.my_new hc' with hold' | ⟨_, _, rfl, _⟩
    · rw [heffect.grows.owner r (hs.mine c' r hold').1] at hgood
      exact absurd hrecord (h.recordForChild_ne hold' hgood)
    · rfl

/-! ## The loop of process_exit -/

theorem loopVar_of_focus_idle (h : focus prog = .idle) : loopVar prog = none := by
  induction prog with
  | nil => rfl
  | cons b rest ih =>
    have haim := aim_of_focus_idle h b mem_cons_self
    rw [focus, haim] at h
    cases b with
    | exitLoop e => cases haim
    | _ => exact ih h

theorem loopVar_of_focus_looping {e : Option RecordId}
    (h : focus prog = .looping e) : loopVar prog = some e := by
  induction prog with
  | nil => cases h
  | cons b rest ih =>
    rw [focus] at h
    cases haim : aim b with
    | some f =>
      rw [haim] at h
      unfold aim at haim
      split at haim <;> simp_all [loopVar]
    | none =>
      rw [haim] at h
      cases b with
      | exitLoop e => cases haim
      | _ => exact ih h

/-- A thread that has still to call `sema_up` on its own record is not in the loop. -/
theorem loopVar_of_focus_publishing (hseq : Sequenced strict prog)
    (h : focus prog = .publishing r) : loopVar prog = none := by
  induction prog with
  | nil => rfl
  | cons b rest ih =>
    rw [focus] at h
    cases haim : aim b with
    | some f =>
      rw [haim] at h
      have hup : b = .semaUp (.exited r) := by
        unfold aim at haim
        split at haim <;> simp_all
      subst hup
      show loopVar rest = none
      exact loopVar_of_focus_idle hseq.1.1
    | none =>
      rw [haim] at h
      cases b with
      | exitLoop e => cases haim
      | _ => exact ih hseq.2 h

theorem listNext_head {list : List RecordId} (h : list.head? = some w) :
    listNext list w = list.tail.head? := by
  cases list with
  | nil => cases h
  | cons b rest =>
    cases h
    simp [listNext]

/-! ## One action -/

section Action

variable (h : s.Sound good) (hs : s.Structured strict) (hprog : s.prog p = a :: rest)
  (heffect : Effect s p a u more) {ps : ParentStage} {cs : ChildStage}
include h hs hprog heffect

theorem Sound.children_other {q : Tid} (hq : good q)
    (hne : q ≠ p) : u.children q = s.children q := by
  rcases heffect.children q with hsame | ⟨w, _, heq, _⟩ | ⟨w, rfl, rfl, _, _⟩
  · exact hsame
  · exact absurd heq hne
  · rcases hs.role_head hprog with howns | ⟨hmine, _⟩
    · exact absurd howns.1 hne
    · exact absurd (by rw [hprog]; rfl) (h.child_keeps hmine hq).1

/-- An action leaves the view of a record it is not about as it is, up to what its thread
does next. -/
theorem Sound.view_frame (hc : s.myWaitStatus c = some r)
    (hgood : good (s.owner r)) (hconcerns : s.concerns p a ≠ some r) :
    (u.setProg p (more ++ rest)).view c r =
      { s.view c r with
        parent := focus ((u.setProg p (more ++ rest)).prog (s.owner r))
        child := focus ((u.setProg p (more ++ rest)).prog c) } := by
  have hr := (hs.mine c r hc).1
  have hsame := heffect.sameRecord hr hconcerns fun _ => h.recordForChild_ne hc hgood
  have howner : u.owner r = s.owner r := heffect.grows.owner r hr
  have hexited : u.Exited c ↔ s.Exited c := by
    refine ⟨fun he => ?_, fun he => heffect.grows.history _ he⟩
    rcases heffect.logged he with hold | ⟨rfl, w, rfl⟩
    · exact hold
    · -- the `sema_up` of the child is on its own record
      have hw : s.myWaitStatus c = some w := hs.role_head hprog
      exact absurd (hw.symm.trans hc) hconcerns
  simp only [view, setProg, View.mk.injEq, howner, hsame.freed, true_and, and_true]
  exact ⟨hsame.tid, hsame.refCount, hsame.value, hsame.exitCode, propext (hsame.dropped _),
    propext (hsame.dropped _), propext (hsame.listed _),
    funext fun code => propext (heffect.mem_exiting c code), propext hexited⟩

theorem Sound.fits_frame (hc : s.myWaitStatus c = some r) (hgood : good (s.owner r))
    (hconcerns : s.concerns p a ≠ some r) (hfits : AtStage (s.view c r) c r ps cs) :
    AtStage ((u.setProg p (more ++ rest)).view c r) c r ps cs := by
  have hseq := hs.sequenced_of hprog
  have haway := heffect.focus_away hseq (hs.mine c r hc).1 hconcerns
  rw [h.view_frame hs hprog heffect hc hgood hconcerns]
  have hne : s.owner r ≠ c := ne_of_lt (hs.mine c r hc).2.2
  by_cases hparent : s.owner r = p
  · have hchild : c ≠ p := fun heq => hne (hparent.trans heq.symm)
    simp only [setProg, hparent, update_self, update_of_ne hchild, heffect.prog]
    have hbefore : (s.view c r).parent = focus (a :: rest) := by simp only [view, hparent, hprog]
    rcases haway with hsame | ⟨hold, hnew⟩
    · rwa [hsame, ← hbefore]
    · exact hfits.parentAway (hbefore ▸ hold) hnew
  by_cases hchild : c = p
  · subst hchild
    simp only [setProg, update_self, update_of_ne hparent, heffect.prog]
    have hbefore : (s.view c r).child = focus (a :: rest) := by simp only [view, hprog]
    rcases haway with hsame | ⟨hold, hnew⟩
    · rwa [hsame, ← hbefore]
    · exact hfits.childAway (hbefore ▸ hold) hnew
  · simp only [setProg, update_of_ne hparent, update_of_ne hchild, heffect.prog]
    exact hfits

theorem Sound.fits_parent (htends : s.Tends p a u) (hc : s.myWaitStatus c = some r)
    (hgood : good (s.owner r)) (hconcerns : s.concerns p a = some r) (howns : s.Owns p r)
    (hfits : AtStage (s.view c r) c r ps cs) :
    ∃ ps cs, AtStage ((u.setProg p (more ++ rest)).view c r) c r ps cs := by
  obtain ⟨rfl, hr⟩ := howns
  have hne : c ≠ s.owner r := ne_of_gt (hs.mine c r hc).2.2
  have hfollows := (hs.sequenced_of hprog).1
  have hbefore : (s.view c r).parent = focus (a :: rest) := by simp only [view, hprog]
  have hnotmine : s.myWaitStatus (s.owner r) ≠ some r :=
    fun hm => lt_irrefl _ (hs.mine _ r hm).2.2
  cases heffect with
  | take q hvalue =>
    cases q <;> cases hconcerns
    have hfocus : focus rest = .reading r := hfollows.1
    refine ⟨_, _, (hfits.down hbefore hvalue ((s.waitStatus r).sema.value - 1)).of_eq ?_⟩
    simp [Shared.setSema, Shared.sema, hne, hfocus]
  | sleep q hvalue =>
    cases q <;> cases hconcerns
    refine ⟨ps, cs, hfits.of_eq ?_⟩
    have hzero : (s.waitStatus r).sema.value = 0 := hvalue
    simp [Shared.setSema, hne, hprog, hzero]
  | pushChild w =>
    cases hconcerns
    exact absurd hc (h.pushing _ r hgood (by rw [hprog]; rfl) c)
  | findChild tid =>
    have hfind : s.childWith (s.owner r) tid = some r := hconcerns
    have hfocus : focus rest = .idle := hfollows.1
    have hidle : (s.view c r).parent.record ≠ some r := by
      rw [hbefore]
      simp [hfocus]
    refine ⟨_, _, (hfits.find hidle (childWith_mem hfind)).of_eq ?_⟩
    simp [hne, hfind]
  | readExitCode w tid =>
    cases hconcerns
    refine ⟨_, _, (hfits.read hbefore).of_eq ?_⟩
    simp [hne]
  | decRef w =>
    cases hconcerns
    have hfocus : focus rest = .testing r := hfollows
    refine ⟨_, _, (hfits.parentDrop hbefore).of_eq ?_⟩
    simp [hne, hfocus]
  | testRef w | testLoop w =>
    cases hconcerns
    have hzero : (s.waitStatus r).refCount = 0 := hfits.refCount_parent hbefore
    refine ⟨_, _, (hfits.parentTest hbefore).of_eq ?_⟩
    simp [hne, hzero, releaseRecord, releaseInLoop]
  | removeChild w hmem =>
    cases hconcerns
    have hfocus : focus rest = .freeing r := hfollows
    have hgone : r ∉ (s.children (s.owner r)).erase r := (hs.children_nodup _).not_mem_erase
    refine ⟨_, _, (hfits.remove hbefore).of_eq ?_⟩
    simp [hne, hfocus, hgone]
  | free w =>
    cases hconcerns
    have haway : (focus rest).record ≠ some r := by
      rcases hfollows with ⟨hfocus, _⟩ | ⟨hfocus | ⟨e, hfocus⟩, _⟩
      · simp [hfocus]
      · exact absurd (hs.publishing hprog hfocus) hnotmine
      · simp [hfocus]
    refine ⟨_, _, (hfits.free hbefore haway).of_eq ?_⟩
    simp [hne]
  | exitLoop w =>
    cases hconcerns
    obtain ⟨c', hc', hexited⟩ := htends.loop r rfl
    rw [h.unique c' c r hc' hc hgood] at hexited
    have hhead := (h.loop _ (some r) hgood (by rw [hprog]; rfl))
    rw [hprog] at hhead
    have hlisted : r ∈ s.children (s.owner r) := mem_of_mem_head? hhead.2
    have haway : (s.view c r).parent.record ≠ some r := by
      rw [hbefore]
      simp
    refine ⟨_, _, (hfits.loop haway hlisted hexited).of_eq ?_⟩
    simp [hne]
  | raise q _ | wake q _ _ _ _ =>
    cases q <;> cases hconcerns
    exact absurd (hs.role_head hprog) hnotmine
  | setExitCode w code =>
    cases hconcerns
    exact absurd (hs.role_head hprog) hnotmine
  | _ => cases hconcerns

/-- **Every linked record stays at a stage of the protocol.** -/
theorem Sound.links_effect (htends : good p → s.Tends p a u) (hc : u.myWaitStatus c = some r)
    (hgood : good (u.owner r)) :
    ∃ ps cs, AtStage ((u.setProg p (more ++ rest)).view c r) c r ps cs := by
  rcases heffect.my_new hc with hold | ⟨rfl, rfl, rfl, hrecord⟩
  · have hr := (hs.mine c r hold).1
    rw [heffect.grows.owner r hr] at hgood
    obtain ⟨ps, cs, hfits⟩ := h.links c r hold hgood
    by_cases hconcerns : s.concerns p a = some r
    · rcases hs.concerns hprog hconcerns with howns | hmine
      · exact h.fits_parent hs hprog heffect (htends (howns.1 ▸ hgood)) hold hgood hconcerns howns
          hfits
      · obtain rfl : c = p := h.unique c p r hold hmine hgood
        exact h.fits_child hs hprog heffect hold hgood hconcerns hfits
    · exact ⟨ps, cs, h.fits_frame hs hprog heffect hold hgood hconcerns hfits⟩
  · have hp : good p := (hs.recordForChild_owner hrecord).1 ▸ hgood
    have hmore : more = [] := by
      generalize hu : s.threadCreate p = v at heffect
      cases heffect <;> rfl
    rw [hmore]
    exact ⟨_, _, h.fits_create hs hprog hrecord hp⟩

theorem Sound.fresh_effect (hr : r < u.nextRecord)
    (hgood : good (u.owner r)) (hunlinked : u.Unlinked r) : u.Fresh r := by
  by_cases hold : r < s.nextRecord
  · rw [heffect.grows.owner r hold] at hgood
    have hbefore := hs.unlinked_of_effect heffect hunlinked
    have hfresh := h.fresh r hold hgood hbefore
    by_cases hpush : a = .pushChild r
    · subst hpush
      cases heffect
      exact ⟨hfresh.refCount, hfresh.value, hfresh.dropped, hfresh.freed⟩
    have hconcerns : s.concerns p a ≠ some r :=
      fun hr' => hpush (h.concerns_unlinked hs hprog hold hgood hbefore hr')
    by_cases hrecord : a = .threadCreate ∧ s.recordForChild p = some r
    · obtain ⟨rfl, hrecord⟩ := hrecord
      cases heffect with
      | noThread => exact hfresh
      | threadCreate =>
        exact absurd (by simp [hrecord]) (hunlinked s.nextTid)
    · have hsame := heffect.sameRecord hold hconcerns fun ha hw => hrecord ⟨ha, hw⟩
      exact ⟨hsame.refCount.trans hfresh.refCount, hsame.value.trans hfresh.value,
        fun t ht => hfresh.dropped t ((hsame.dropped t).mp ht), hsame.freed.trans hfresh.freed⟩
  · cases heffect with
    | newRecord garbage =>
      obtain rfl : r = s.nextRecord :=
        le_antisymm (Nat.le_of_lt_succ hr) (Nat.le_of_not_lt hold)
      refine ⟨by simp, by simp [semaInit], ?_, ?_⟩
      · intro t ht
        exact lt_irrefl _ (hs.known _ ht).2
      · show s.freed s.nextRecord = false
        by_contra hfreed
        exact lt_irrefl _ (h.freed _ (by simpa using hfreed))
    | _ => exact absurd hr hold

theorem Sound.pushing_effect {q : Tid} (hgood : good q)
    (hfocus : focus ((u.setProg p (more ++ rest)).prog q) = .pushing r) : u.Unlinked r := by
  by_cases hq : q = p
  · subst hq
    have hseq := hs.sequenced_of hprog
    simp only [setProg, update_self] at hfocus
    rcases heffect.focus_adding hseq (.inr ⟨r, rfl⟩) hfocus with ⟨haim, hold⟩ | ⟨rfl, hr⟩ |
      ⟨_, _, hr⟩
    · apply (h.pushing q r hgood (by rw [hprog, hold])).effect heffect
      rintro rfl
      cases haim
    · cases hr
      have hnew : s.Unlinked s.nextRecord := fun c hc => lt_irrefl _ (hs.mine c _ hc).1
      exact hnew.effect heffect (by simp)
    · cases hr
  · simp only [setProg, update_of_ne hq, heffect.prog] at hfocus
    apply (h.pushing q r hgood hfocus).effect heffect
    intro _ hrecord
    exact hq ((hs.pushing_owner hfocus).1.symm.trans (hs.recordForChild_owner hrecord).1)

theorem Sound.creating_effect {q : Tid} (hgood : good q)
    (hfocus : focus ((u.setProg p (more ++ rest)).prog q) = .creating) :
    ∃ r, (u.children q).head? = some r ∧ u.Unlinked r := by
  by_cases hq : q = p
  · subst hq
    have hseq := hs.sequenced_of hprog
    simp only [setProg, update_self] at hfocus
    rcases heffect.focus_adding hseq (.inl rfl) hfocus with ⟨haim, hold⟩ | ⟨_, hr⟩ | ⟨r, rfl, _⟩
    · obtain ⟨r, hhead, hunlinked⟩ := h.creating q hgood (by rw [hprog, hold])
      refine ⟨r, by rw [heffect.children_of_aim haim q, hhead], hunlinked.effect heffect ?_⟩
      rintro rfl
      cases haim
    · cases hr
    · have hunlinked := h.pushing q r hgood (by rw [hprog]; rfl)
      refine ⟨r, ?_, hunlinked.effect heffect (by simp)⟩
      cases heffect
      simp
  · simp only [setProg, update_of_ne hq, heffect.prog] at hfocus
    obtain ⟨r, hhead, hunlinked⟩ := h.creating q hgood hfocus
    refine ⟨r, by rw [h.children_other hs hprog heffect hgood hq, hhead], ?_⟩
    apply hunlinked.effect heffect
    intro _ hrecord
    have howner := (hs.children_owner q r (mem_of_mem_head? hhead)).1
    exact hq (howner.symm.trans (hs.recordForChild_owner hrecord).1)

theorem Sound.adding_effect (htends : good p → s.Tends p a u)
    (hr : r < u.nextRecord) (hgood : good (u.owner r)) (hunlinked : u.Unlinked r) :
    focus ((u.setProg p (more ++ rest)).prog (u.owner r)) = .pushing r ∨
      (focus ((u.setProg p (more ++ rest)).prog (u.owner r)) = .creating ∧
        (u.children (u.owner r)).head? = some r) := by
  by_cases hold : r < s.nextRecord
  · rw [heffect.grows.owner r hold] at hgood ⊢
    have hbefore := hs.unlinked_of_effect heffect hunlinked
    have hadding := h.adding r hold hgood hbefore
    by_cases hp : s.owner r = p
    · subst hp
      have hseq := hs.sequenced_of hprog
      rw [hprog] at hadding
      simp only [setProg, update_self]
      rcases hadding with hfocus | ⟨hfocus, hhead⟩
      · rcases heffect.focus_of_adding hseq (.inr ⟨r, rfl⟩) hfocus with ⟨hkept, _⟩ |
          ⟨w, rfl, hw, hcreating⟩ | ⟨_, hw⟩
        · exact .inl hkept
        · cases hw
          right
          refine ⟨hcreating, ?_⟩
          cases heffect
          simp
        · cases hw
      · rcases heffect.focus_of_adding hseq (.inl rfl) hfocus with ⟨hkept, haim⟩ |
          ⟨w, _, hw, _⟩ | ⟨rfl, _⟩
        · exact .inr ⟨hkept, by rw [heffect.children_of_aim haim, hhead]⟩
        · cases hw
        · -- the record is handed to the new thread
          obtain ⟨w, hw, hrecord⟩ := h.recordForChild_creating hs hgood (by rw [hprog]; rfl)
          obtain rfl : r = w := Option.some_injective _ (hhead.symm.trans hw)
          rw [(htends hgood).create rfl] at hunlinked
          exact absurd (by simp [hrecord]) (hunlinked s.nextTid)
    · simp only [setProg, update_of_ne hp, heffect.prog]
      rwa [h.children_other hs hprog heffect hgood hp]
  · left
    cases heffect with
    | newRecord garbage =>
      obtain rfl : r = s.nextRecord :=
        le_antisymm (Nat.le_of_lt_succ hr) (Nat.le_of_not_lt hold)
      simp
    | _ => exact absurd hr hold

theorem Sound.freed_effect (hfreed : u.freed r = true) : r < u.nextRecord := by
  refine lt_of_lt_of_le ?_ heffect.grows.nextRecord
  by_cases hold : s.freed r = true
  · exact h.freed r hold
  have hconcerns : s.concerns p a = some r := by
    cases heffect with
    | free w =>
      by_cases hr : r = w
      · subst hr
        rfl
      · exact absurd (by simpa [hr] using hfreed) hold
    | _ => exact absurd hfreed hold
  rcases hs.concerns hprog hconcerns with howns | hmine
  · exact howns.2
  · exact (hs.mine p r hmine).1

theorem Sound.loop_effect (hgood : good p)
    {e : Option RecordId} (hvar : loopVar (more ++ rest) = some e) :
    loopFits e (u.children p) (focus (more ++ rest)) := by
  have hseq := hs.sequenced_of hprog
  have hfollows := hseq.1
  have hbefore : ∀ e, loopVar (a :: rest) = some e →
      loopFits e (s.children p) (focus (a :: rest)) := by
    intro e he
    have hloop := h.loop p e hgood
    rw [hprog] at hloop
    exact hloop he
  have hidle : focus rest = .idle → loopVar rest ≠ some e := by
    intro hfocus hrest
    rw [loopVar_of_focus_idle hfocus] at hrest
    cases hrest
  have hpublishing : ∀ r, focus rest = .publishing r → loopVar rest ≠ some e := by
    intro r hfocus hrest
    rw [loopVar_of_focus_publishing hseq.2 hfocus] at hrest
    cases hrest
  cases heffect with
  | take q _ =>
    cases q with
    | lock l => exact hbefore e hvar
    | exited w => exact (hbefore e hvar).elim
  | raise q _ | wake q _ _ _ _ =>
    cases q with
    | lock l => exact hbefore e hvar
    | exited w => exact absurd hvar (hidle hfollows.1)
  | assertNotHeld l | assertHeld l | setHolder l | clearHolder l | sleep q _ =>
    exact hbefore e hvar
  | pushChild w | setExitCode w code => exact (hbefore e hvar).elim
  | findChild tid =>
    have hrest : loopVar rest = some e := by
      cases hfind : s.childWith p tid <;> rw [hfind] at hvar <;> exact hvar
    exact absurd hrest (hidle hfollows.1)
  | decRef w =>
    have hfits := hbefore e hvar
    rwa [nil_append, hfollows]
  | testRef w =>
    have hrest : loopVar rest = some e := by
      unfold releaseRecord at hvar
      split at hvar <;> exact hvar
    rcases hfollows with ⟨hfocus, _⟩ | ⟨hfocus, _⟩
    · exact absurd hrest (hidle hfocus)
    · exact absurd hrest (hpublishing w hfocus)
  | testLoop w =>
    have hrest : loopVar rest = some e := by
      unfold releaseInLoop at hvar
      split at hvar <;> exact hvar
    have hfits : loopFits e (s.children p) (.testing w) := hbefore e hrest
    unfold releaseInLoop
    split
    · exact hfits
    · rename_i hcount
      exact absurd (h.refCount_testing hgood (hs.role_head hprog) (by rw [hprog]; rfl)) hcount
  | removeChild w hmem =>
    obtain ⟨hhead, htail⟩ : loopFits e (s.children p) (.removing w) := hbefore e hvar
    have howner := (hs.children_owner p w (mem_of_mem_head? hhead)).1
    rw [nil_append, hfollows]
    simp only [howner, update_self]
    cases hlist : s.children p with
    | nil =>
      rw [hlist] at hhead
      cases hhead
    | cons b tail =>
      rw [hlist] at hhead htail
      cases hhead
      rwa [erase_cons_head]
  | free w =>
    have hfits : loopFits e (s.children p) (.freeing w) := hbefore e hvar
    rcases hfollows with ⟨hfocus, _⟩ | ⟨hfocus | ⟨e', hfocus⟩, _⟩
    · exact absurd hvar (hidle hfocus)
    · exact absurd hvar (hpublishing w hfocus)
    · rw [nil_append, loopVar_of_focus_looping hfocus] at hvar
      cases hvar
      rw [nil_append, hfocus]
      exact ⟨rfl, hfits⟩
  | exitBegin =>
    cases hvar
    exact ⟨rfl, rfl⟩
  | exitLoop w =>
    obtain ⟨_, hhead⟩ : loopFits (some w) (s.children p) (.looping (some w)) := hbefore (some w) rfl
    cases hvar
    exact ⟨hhead, (listNext_head hhead).symm⟩
  | die =>
    obtain rfl : rest = [] := hfollows
    cases hvar
  | _ => exact absurd hvar (hidle hfollows.1)

/-- **An action that the protocol allows keeps the records sound.** -/
theorem Sound.effect (htends : good p → s.Tends p a u) :
    (u.setProg p (more ++ rest)).Sound good where
  links c r hc hgood := h.links_effect hs hprog heffect htends hc hgood
  unique c c' r hc hc' hgood := h.unique_effect hs heffect hc hc' hgood
  fresh r hr hgood hunlinked := by
    have hfresh := h.fresh_effect hs hprog heffect hr hgood hunlinked
    exact ⟨hfresh.refCount, hfresh.value, hfresh.dropped, hfresh.freed⟩
  adding r hr hgood hunlinked := h.adding_effect hs hprog heffect htends hr hgood hunlinked
  pushing q r hgood hfocus := (h.pushing_effect hs hprog heffect hgood hfocus :)
  creating q hgood hfocus := h.creating_effect hs hprog heffect hgood hfocus
  loop q e hgood hvar := by
    by_cases hq : q = p
    · subst hq
      simp only [setProg, update_self] at hvar ⊢
      exact h.loop_effect hs hprog heffect hgood hvar
    · simp only [setProg, update_of_ne hq, heffect.prog] at hvar ⊢
      rw [h.children_other hs hprog heffect hgood hq]
      exact h.loop q e hgood hvar
  freed r hfreed := (h.freed_effect hs hprog heffect hfreed :)

end Action

/-! ## The steps -/

/-- A call of a process in user mode keeps the records sound if it keeps the linked ones. -/
theorem Sound.call (h : s.Sound good) (huser : s.InUser p) {actions : List Action}
    (events : List ProcessEvent) (hfocus : ¬ (focus actions).Adding)
    (hvar : loopVar actions = none) (hevents : ∀ e ∈ events, ∃ code, e = .exiting p code)
    (hlinks : ∀ c r, s.myWaitStatus c = some r → good (s.owner r) → ∃ ps cs,
      AtStage ({ s.setProg p actions with history := s.history ++ events }.view c r) c r ps cs) :
    { s.setProg p actions with history := s.history ++ events }.Sound good where
  links := hlinks
  unique := h.unique
  fresh r hr hgood hunlinked := by
    have hfresh := h.fresh r hr hgood hunlinked
    refine ⟨hfresh.refCount, hfresh.value, fun t ht => ?_, hfresh.freed⟩
    rcases mem_append.mp ht with hold | hnew
    · exact hfresh.dropped t hold
    · obtain ⟨code, ⟨⟩⟩ := hevents _ hnew
  adding r hr hgood hunlinked := by
    have hadding := h.adding r hr hgood hunlinked
    have hp : s.owner r ≠ p := by
      intro heq
      rw [heq, huser.2] at hadding
      simp at hadding
    simpa only [setProg, update_of_ne hp] using hadding
  pushing :=
    (forall_update_iff s.prog fun q prog =>
      ∀ r, good q → focus prog = .pushing r → s.Unlinked r).mpr
      ⟨fun r _ hpushing => absurd (.inr ⟨r, hpushing⟩) hfocus, fun q _ => h.pushing q⟩
  creating :=
    (forall_update_iff s.prog fun q prog => good q → focus prog = .creating →
      ∃ r, (s.children q).head? = some r ∧ s.Unlinked r).mpr
      ⟨fun _ hcreating => absurd (.inl hcreating) hfocus, fun q _ => h.creating q⟩
  loop :=
    (forall_update_iff s.prog fun q prog => ∀ e, good q → loopVar prog = some e →
      loopFits e (s.children q) (focus prog)).mpr
      ⟨fun e _ hloop => absurd (hvar.symm.trans hloop) (by simp), fun q _ => h.loop q⟩
  freed := h.freed

theorem Sound.call_idle (h : s.Sound good) (huser : s.InUser p) {actions : List Action}
    (hfocus : focus actions = .idle) : (s.setProg p actions).Sound good := by
  have hcall := h.call huser [] (by simp [hfocus]) (loopVar_of_focus_idle hfocus) (by simp) ?_
  · rwa [append_nil] at hcall
  intro c r hc hgood
  have hfoci : ∀ q, focus (update s.prog p actions q) = focus (s.prog q) := by
    intro q
    by_cases hq : q = p
    · rw [hq, update_self, hfocus, huser.2]
      rfl
    · rw [update_of_ne hq]
  obtain ⟨ps, cs, hfits⟩ := h.links c r hc hgood
  refine ⟨ps, cs, hfits.of_eq ?_⟩
  simp only [view, setProg, hfoci, append_nil]
  rfl

theorem Sound.call_exit (h : s.Sound good) (hs : s.Structured strict) (huser : s.InUser p)
    (code : Option ℤ) :
    ((s.setProg p (threadExit (s.myWaitStatus p) code)).log (.exiting p code)).Sound good := by
  have hfocus : ¬ (focus (threadExit (s.myWaitStatus p) code)).Adding := by
    cases s.myWaitStatus p <;> cases code <;> simp
  have hvar : loopVar (threadExit (s.myWaitStatus p) code) = none := by
    cases s.myWaitStatus p <;> cases code <;> rfl
  apply h.call huser [.exiting p code] hfocus hvar (by simp)
  intro c r hc hgood
  obtain ⟨ps, cs, hfits⟩ := h.links c r hc hgood
  have hne : s.owner r ≠ c := ne_of_lt (hs.mine c r hc).2.2
  by_cases hchild : c = p
  · subst hchild
    have hexiting : ¬ ∃ code, (s.view c r).exiting code := hs.not_exiting huser
    have hnone : ∀ code, ProcessEvent.exiting c code ∉ s.history :=
      fun code he => hexiting ⟨code, he⟩
    refine ⟨_, _, (hfits.childExit hexiting code rfl).of_eq ?_⟩
    cases code <;> simp [hc, hne, hnone]
  by_cases hparent : s.owner r = p
  · -- the thread turns to its own record, which is not one of its children's
    have haway : (focus (threadExit (s.myWaitStatus p) code)).record ≠ some r := by
      have hmine : s.myWaitStatus p ≠ some r :=
        fun hm => ne_of_lt (hs.mine p r hm).2.2 hparent
      cases hm : s.myWaitStatus p with
      | none => cases code <;> exact nofun
      | some w =>
        have hw : w ≠ r := fun heq => hmine (heq ▸ hm)
        cases code <;> simp [hw]
    refine ⟨_, _, (hfits.parentAway (by simp [hparent, huser.2]) haway).of_eq ?_⟩
    simp [hparent, hchild]
  · refine ⟨ps, cs, hfits.of_eq ?_⟩
    simp [hparent, hchild]

/-- The condition on a step: when a good process takes it, `thread_create` does not run
out of memory, and the loop of `process_exit` comes to a record only after the child has
called `sema_up` on it. -/
def Tended (good : Tid → Prop) (s : Processes) : ProcessLabel → Prop
  | .step p memory => good p → (memory = none → (s.prog p).head? ≠ some .threadCreate) ∧
        ∀ w, (s.prog p).head? = some (.exitLoop (some w)) →
          ∃ c, s.myWaitStatus c = some w ∧ s.Exited c
  | _ => True

/-- **Every step that meets the condition keeps the records sound.** -/
theorem Sound.step (h : s.Sound good) (hs : s.Structured strict) {l : ProcessLabel}
    {t : Processes} (htended : s.Tended good l) (hstep : s.Step l t) : t.Sound good := by
  cases moves_of_step hstep with
  | execute huser | wait tid huser => exact h.call_idle huser rfl
  | exit code huser => exact h.call_exit hs huser code
  | @step p memory _ _ _ _ _ hprog heffect =>
    apply h.effect hs hprog (.of_effect heffect)
    intro hgood
    obtain ⟨hcreate, hloop⟩ := htended hgood
    rw [hprog] at hcreate hloop
    refine ⟨?_, fun w hw => hloop w (by rw [hw]; rfl)⟩
    rintro rfl
    cases memory with
    | none => exact absurd rfl (hcreate rfl)
    | some garbage =>
      cases heffect
      rfl

end Processes

end CS162
