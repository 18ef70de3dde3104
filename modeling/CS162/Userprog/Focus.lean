import CS162.Userprog.ChildList

/-!
# What a thread is about to do to a record

The actions a thread has left tell which `wait_status` record it is working on and how
far it has come with it: `focus` is the next action that concerns a record.  `Sequenced`
says that these actions follow each other as `process.c` has them; the actions of
`process_execute` and `process_wait` never stand before the end of `process_exit`, those
of `process_exit` always do.
-/

namespace CS162

/-- The next action that concerns a record. -/
inductive Focus where
  | idle
  | pushing (r : RecordId)
  | creating
  | waiting (r : RecordId)
  | reading (r : RecordId)
  | leaving (r : RecordId) (code : ℤ)
  | dropping (r : RecordId)
  | testing (r : RecordId)
  | removing (r : RecordId)
  | freeing (r : RecordId)
  | publishing (r : RecordId)
  | looping (e : Option RecordId)
  deriving DecidableEq

/-- The thread adds a child: it is on its way to `list_push_front` or to `thread_create`. -/
@[simp] def Focus.Adding (f : Focus) : Prop := f = .creating ∨ ∃ r, f = .pushing r

/-- How an action concerns a record. -/
@[simp] def aim : Action → Option Focus
  | .pushChild r => some (.pushing r)
  | .threadCreate => some .creating
  | .semaDown (.exited r) => some (.waiting r)
  | .readExitCode r _ => some (.reading r)
  | .setExitCode r code => some (.leaving r code)
  | .decRef r => some (.dropping r)
  | .testRef r | .testLoop r => some (.testing r)
  | .removeChild r => some (.removing r)
  | .free r => some (.freeing r)
  | .semaUp (.exited r) => some (.publishing r)
  | .exitLoop e => some (.looping e)
  | _ => none

@[simp] def focus : List Action → Focus
  | [] => .idle
  | a :: rest => (aim a).getD (focus rest)

theorem aim_ne_idle (a : Action) : aim a ≠ some .idle := by
  unfold aim
  split <;> simp

/-- A thread whose focus is idle has no action left that concerns a record. -/
theorem aim_of_focus_idle {prog : List Action} (h : focus prog = .idle) :
    ∀ a ∈ prog, aim a = none := by
  induction prog with
  | nil => simp
  | cons b rest ih =>
    rw [focus] at h
    cases hb : aim b with
    | some f =>
      rw [hb, Option.getD_some] at h
      exact absurd (h ▸ hb) (aim_ne_idle b)
    | none =>
      rw [hb, Option.getD_none] at h
      intro a ha
      rcases List.mem_cons.mp ha with rfl | hrest
      · exact hb
      · exact ih h a hrest

theorem exists_aim_of_focus {prog : List Action} {f : Focus} (h : focus prog = f)
    (hf : f ≠ .idle) : ∃ a ∈ prog, aim a = some f := by
  induction prog with
  | nil => exact absurd h.symm hf
  | cons b rest ih =>
    rw [focus] at h
    cases hb : aim b with
    | some g =>
      rw [hb, Option.getD_some] at h
      exact ⟨b, List.mem_cons_self, h ▸ hb⟩
    | none =>
      rw [hb, Option.getD_none] at h
      obtain ⟨a, ha, haim⟩ := ih h
      exact ⟨a, List.mem_cons_of_mem b ha, haim⟩

/-- What may follow an action.  In a strict program `ref_count_lock` is released only on
the way to the `sema_up` of `process_exit`. -/
@[simp] def follows (strict : Prop) : Action → List Action → Prop
  | .assertNotHeld (.refCount r), rest | .semaDown (.lock (.refCount r)), rest
  | .setHolder (.refCount r), rest => focus rest = .dropping r
  | .assertHeld (.refCount r), rest | .clearHolder (.refCount r), rest
  | .semaUp (.lock (.refCount r)), rest => strict → focus rest = .publishing r
  | .lockInit, rest => focus rest = .idle ∧ .die ∉ rest
  | .mallocStatus, rest | .threadCreate, rest | .findChild _, rest | .readExitCode _ _, rest
  | .returnWait _ _ _, rest => focus rest = .idle ∧ rest = []
  | .pushChild _, rest => focus rest = .creating ∧ .die ∉ rest
  | .semaDown (.exited r), rest => focus rest = .reading r ∧ .die ∉ rest
  | .setExitCode r _, rest => focus rest = .dropping r ∧ .die ∈ rest
  | .decRef r, rest => focus rest = .testing r
  | .testRef r, rest =>
    (focus rest = .idle ∧ .die ∉ rest) ∨ (focus rest = .publishing r ∧ .die ∈ rest)
  | .testLoop _, rest => (∃ e, focus rest = .looping e) ∧ .die ∈ rest
  | .removeChild r, rest => focus rest = .freeing r
  | .free r, rest =>
    (focus rest = .idle ∧ .die ∉ rest) ∨
      ((focus rest = .publishing r ∨ ∃ e, focus rest = .looping e) ∧ .die ∈ rest)
  | .semaUp (.exited _), rest | .exitBegin, rest | .exitLoop _, rest =>
    focus rest = .idle ∧ .die ∈ rest
  | .die, rest => rest = []
  | _, _ => True

/-- The actions follow each other as in `process.c`. -/
def Sequenced (strict : Prop) : List Action → Prop
  | [] => True
  | a :: rest => follows strict a rest ∧ Sequenced strict rest

variable {strict : Prop}

theorem sequenced_processExecute : Sequenced strict processExecute := by
  simp [Sequenced]

theorem sequenced_processWait (tid : ℤ) : Sequenced strict (processWait tid) := by
  simp [Sequenced]

theorem sequenced_threadExit (my : Option RecordId) (code : Option ℤ) :
    Sequenced strict (threadExit my code) := by
  cases my <;> cases code <;> simp [Sequenced]

namespace Processes

variable {s u : Processes} {p : Tid} {a : Action} {more rest : List Action}

/-- A strict program keeps `ref_count_lock` only if the record is not given up by its
parent. -/
def KeepsStrict (s : Processes) (a : Action) (rest : List Action) : Prop :=
  (∀ r, a = .testRef r → .die ∉ rest → (s.waitStatus r).refCount = 0) ∧
    ∀ r, a = .testLoop r → (s.waitStatus r).refCount = 0

section

variable (h : Effect s p a u more) (hseq : Sequenced strict (a :: rest))
include h hseq

theorem Effect.sequenced
    (hstrict : strict → s.KeepsStrict a rest) : Sequenced strict (more ++ rest) := by
  obtain ⟨hfollows, hrest⟩ := hseq
  cases h with
  | newRecord garbage | readExitCode r tid =>
    rw [follows] at hfollows
    simp [Sequenced, hfollows]
  | sleep q _ | exitBegin => exact ⟨hfollows, hrest⟩
  | findChild tid =>
    rw [follows] at hfollows
    cases s.childWith p tid <;> simp [Sequenced, hfollows]
  | testRef r =>
    by_cases hzero : (s.waitStatus r).refCount = 0
    · have hfree : follows strict (.free r) rest := by
        exact hfollows.imp_right fun ⟨hfocus, hdie⟩ => ⟨.inl hfocus, hdie⟩
      rw [releaseRecord, if_pos hzero]
      exact ⟨trivial, trivial, trivial, rfl, trivial, trivial, trivial, hfree, hrest⟩
    have hrelease : strict → focus rest = .publishing r := by
      intro hs
      rcases hfollows with ⟨_, hdie⟩ | ⟨hfocus, _⟩
      · exact absurd ((hstrict hs).1 r rfl hdie) hzero
      · exact hfocus
    rw [releaseRecord, if_neg hzero]
    exact ⟨hrelease, hrelease, hrelease, hrest⟩
  | testLoop r =>
    rw [follows] at hfollows
    by_cases hzero : (s.waitStatus r).refCount = 0
    · simp [releaseInLoop, hzero, Sequenced, hrest, hfollows]
    · have hrelease : strict → focus rest = .publishing r :=
        fun hs => absurd ((hstrict hs).2 r rfl) hzero
      rw [releaseInLoop, if_neg hzero]
      exact ⟨hrelease, hrelease, hrelease, hrest⟩
  | exitLoop w =>
    rw [follows] at hfollows
    simp [Sequenced, hfollows, hrest]
  | _ => exact hrest

theorem Effect.focus_adding {f : Focus} (hf : f.Adding) (hfocus : focus (more ++ rest) = f) :
    (aim a = none ∧ focus (a :: rest) = f) ∨ (a = .mallocStatus ∧ f = .pushing s.nextRecord) ∨
      (∃ r, a = .pushChild r ∧ f = .creating) := by
  obtain ⟨hfollows, -⟩ := hseq
  subst hfocus
  cases h with
  | newRecord garbage => exact .inr (.inl ⟨rfl, rfl⟩)
  | pushChild w => exact .inr (.inr ⟨w, rfl, hfollows.1⟩)
  | take q _ | sleep q _ | raise q _ | wake q _ _ _ _ =>
    cases q <;> simp_all
  | findChild tid =>
    cases hfind : s.childWith p tid <;> simp_all
  | testRef w =>
    rcases hfollows with hfollows | hfollows <;> by_cases hzero : (s.waitStatus w).refCount = 0 <;>
      simp_all [releaseRecord]
  | testLoop w =>
    obtain ⟨e, he⟩ := hfollows.1
    by_cases hzero : (s.waitStatus w).refCount = 0 <;> simp_all [releaseInLoop]
  | free w =>
    rcases hfollows with hfollows | ⟨hfollows | ⟨e, hfollows⟩, _⟩ <;> simp_all
  | _ => simp_all

theorem Effect.focus_of_adding {f : Focus} (hf : f.Adding) (hfocus : focus (a :: rest) = f) :
    (focus (more ++ rest) = f ∧ aim a = none) ∨
      (∃ r, a = .pushChild r ∧ f = .pushing r ∧ focus (more ++ rest) = .creating) ∨
      (a = .threadCreate ∧ f = .creating) := by
  obtain ⟨hfollows, -⟩ := hseq
  subst hfocus
  cases h with
  | pushChild w => exact .inr (.inl ⟨w, rfl, rfl, hfollows.1⟩)
  | noThread | threadCreate => exact .inr (.inr ⟨rfl, rfl⟩)
  | take q _ | sleep q _ | raise q _ | wake q _ _ _ _ =>
    cases q <;> simp_all
  | _ => simp_all

end

end Processes

end CS162
