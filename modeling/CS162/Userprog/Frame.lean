import CS162.Userprog.WaitStatus

/-!
# The frame of an action

`concerns` is the record an action is about.  `Effect.sameRecord` says that an action
changes nothing that can be seen of another record, `Effect.focus_away` that its thread
does not turn to another one.
-/

namespace CS162

namespace Processes

variable {s u : Processes} {p : Tid} {a : Action} {more rest : List Action} {strict : Prop}
  {r w : RecordId}

/-- The record an action is about. -/
def concerns (s : Processes) (p : Tid) : Action → Option RecordId
  | .findChild tid => s.childWith p tid
  | .exitLoop e => e
  | a => (aim a).bind Focus.record

/-- The records differ in their lock and in the queue of their semaphore only. -/
structure Alike (w w' : WaitStatus) : Prop where
  tid : w'.tid = w.tid
  refCount : w'.refCount = w.refCount
  value : w'.sema.value = w.sema.value
  exitCode : w'.exitCode = w.exitCode

theorem Alike.of_eq {w w' : WaitStatus} (h : w' = w) : Alike w w' :=
  h ▸ ⟨rfl, rfl, rfl, rfl⟩

/-- What can be seen of a record, apart from its threads, is the same. -/
structure SameRecord (s u : Processes) (r : RecordId) : Prop
    extends Alike (s.waitStatus r) (u.waitStatus r) where
  dropped : ∀ t, u.Dropped t r ↔ s.Dropped t r
  listed : ∀ q, r ∈ u.children q ↔ r ∈ s.children q
  freed : u.freed r = s.freed r

theorem SameRecord.refl (s : Processes) (r : RecordId) : s.SameRecord s r :=
  ⟨.of_eq rfl, fun _ => Iff.rfl, fun _ => Iff.rfl, rfl⟩

/-- Only the locks and semaphores change, and the record's semaphore keeps its value. -/
theorem SameRecord.of_shared (m : Shared) (status : Tid → ThreadStatus) (events : List ProcessEvent)
    (hrecord : Alike (s.waitStatus r) (m.waitStatus r)) (hevents : ∀ t, .dropped t r ∉ events) :
    s.SameRecord { s with shared := m, status := status, history := s.history ++ events } r :=
  ⟨hrecord, by simp [hevents], fun _ => Iff.rfl, rfl⟩

theorem waitStatus_setRecord_of_ne (m : Shared) (w' : WaitStatus) (h : r ≠ w) :
    (m.setRecord w w').waitStatus r = m.waitStatus r :=
  Function.update_of_ne h _ _

theorem alike_setLock (m : Shared) (l : LockRef) (lock : Lock) (r : RecordId) :
    Alike (m.waitStatus r) ((m.setLock l lock).waitStatus r) := by
  cases l with
  | childList => exact .of_eq rfl
  | refCount w =>
    by_cases hr : r = w
    · subst hr
      constructor <;> simp [Shared.setLock]
    · exact .of_eq (waitStatus_setRecord_of_ne _ _ hr)

theorem alike_setSema (m : Shared) (q : SemaRef) (sema : Semaphore) (h : q ≠ .exited r) :
    Alike (m.waitStatus r) ((m.setSema q sema).waitStatus r) := by
  cases q with
  | lock l => exact alike_setLock m l _ r
  | exited w => exact .of_eq (waitStatus_setRecord_of_ne _ _ fun heq => h (by rw [heq]))

theorem SameRecord.setLock (l : LockRef) (lock : Lock) :
    s.SameRecord { s with shared := s.shared.setLock l lock } r := by
  have hsame := SameRecord.of_shared (s := s) (s.shared.setLock l lock) s.status []
    (alike_setLock _ l lock r) (by simp)
  rwa [List.append_nil] at hsame

theorem SameRecord.setSema {q : SemaRef} (h : q ≠ .exited r) (sema : Semaphore)
    (status : Tid → ThreadStatus) :
    s.SameRecord { s with shared := s.shared.setSema q sema, status := status } r := by
  have hsame := SameRecord.of_shared (s := s) _ status [] (alike_setSema s.shared q sema h)
    (by simp)
  rwa [List.append_nil] at hsame

theorem SameRecord.setRecord (h : r ≠ w) (w' : WaitStatus) : s.SameRecord (s.setRecord w w') r :=
  ⟨.of_eq (waitStatus_setRecord_of_ne _ _ h), fun _ => Iff.rfl, fun _ => Iff.rfl, rfl⟩

/-- An action changes nothing that can be seen of a record it is not about. -/
theorem Effect.sameRecord (h : Effect s p a u more) (hr : r < s.nextRecord)
    (hconcerns : s.concerns p a ≠ some r)
    (hcreate : a = .threadCreate → s.recordForChild p ≠ some r) : s.SameRecord u r := by
  have hsema : ∀ q, a = .semaDown q ∨ a = .semaUp q → q ≠ .exited r := by
    rintro q (rfl | rfl) rfl <;> exact hconcerns rfl
  have hup : ∀ q t, ProcessEvent.dropped t r ∉ upEvents p q := by
    intro q t
    cases q <;> simp [upEvents]
  have hne : ∀ w, s.concerns p a = some w → r ≠ w := by
    rintro w hw rfl
    exact hconcerns hw
  cases h with
  | lockInit | setHolder l | clearHolder l => exact .setLock _ _
  | newRecord garbage => exact { SameRecord.setRecord (s := s) (ne_of_lt hr) _ with }
  | take q _ => exact .setSema (hsema q (.inl rfl)) _ s.status
  | sleep q _ => exact .setSema (hsema q (.inl rfl)) _ _
  | raise q _ | wake q _ _ _ _ =>
    exact .of_shared _ _ _ (alike_setSema s.shared q _ (hsema q (.inr rfl))) (hup q)
  | pushChild w =>
    refine { SameRecord.refl s r with listed := fun q => ?_ }
    rcases eq_or_ne q p with rfl | hq <;> simp [*, hne w rfl]
  | threadCreate =>
    have hrecord : (s.threadCreate p).waitStatus r = s.waitStatus r := by
      unfold Processes.threadCreate
      cases hchild : s.recordForChild p with
      | none => rfl
      | some w =>
        have hne : r ≠ w := fun heq => hcreate rfl (heq ▸ hchild)
        exact waitStatus_setRecord_of_ne _ _ hne
    exact ⟨.of_eq hrecord, by simp, fun _ => Iff.rfl, rfl⟩
  | decRef w =>
    exact { SameRecord.setRecord (s := s) (hne w rfl) _ with
      dropped := fun t => by simp [hne w rfl] }
  | removeChild w _ =>
    refine { SameRecord.refl s r with listed := fun q => ?_ }
    rcases eq_or_ne q (s.owner w) with rfl | hq <;> simp [*, List.mem_erase_of_ne (hne w rfl)]
  | free w =>
    exact { SameRecord.refl s r with
      dropped := by simp
      freed := Function.update_of_ne (hne w rfl) _ _ }
  | returnWait tid status waited =>
    exact { SameRecord.refl s r with dropped := by simp }
  | setExitCode w code => exact .setRecord (hne w rfl) _
  | die => exact { SameRecord.refl s r with }
  | _ => exact .refl s r

/-- A thread does not turn to, or away from, a record its action is not about. -/
theorem Effect.focus_away (h : Effect s p a u more) (hseq : Sequenced strict (a :: rest))
    (hr : r < s.nextRecord) (hconcerns : s.concerns p a ≠ some r) :
    focus (more ++ rest) = focus (a :: rest) ∨
      ((focus (a :: rest)).record ≠ some r ∧ (focus (more ++ rest)).record ≠ some r) := by
  obtain ⟨hfollows, -⟩ := hseq
  have hnew : s.nextRecord ≠ r := ne_of_gt hr
  cases h with
  | take q _ | sleep q _ | raise q _ | wake q _ _ _ _ =>
    cases q <;> simp_all [concerns]
  | findChild tid =>
    cases hfind : s.childWith p tid <;> simp_all [concerns]
  | testRef w =>
    rcases hfollows with hfollows | hfollows <;> by_cases hzero : (s.waitStatus w).refCount = 0 <;>
      simp_all [concerns, releaseRecord]
  | testLoop w =>
    obtain ⟨e, he⟩ := hfollows.1
    by_cases hzero : (s.waitStatus w).refCount = 0 <;> simp_all [concerns, releaseInLoop]
  | free w =>
    rcases hfollows with hfollows | ⟨hfollows | ⟨e, hfollows⟩, _⟩ <;> simp_all [concerns]
  | _ =>
    simp_all [concerns]

end Processes

end CS162
