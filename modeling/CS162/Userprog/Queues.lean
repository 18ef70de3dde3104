import CS162.Userprog.Structure

/-!
# The waiting lists of the semaphores

A thread on the list of a semaphore sleeps in `sema_down` on it.  `lock_init` may forget
the sleepers of `child_list_lock`, but nothing forgets the parent that sleeps on the record
of a child: it is on the list, and the value of the semaphore is 0.
-/

namespace CS162

open Function List

namespace Processes

variable {s u : Processes} {p q t : Tid} {a : Action} {more rest : List Action} {strict : Prop}
  {r : RecordId}

/-- The threads on a semaphore's list sleep in `sema_down` on it, and who sleeps on the
semaphore of a record of `p` does so while its value is 0. -/
structure Queued (p : Tid) (s : Processes) : Prop where
  sleeping : ∀ q, ∀ t ∈ (s.shared.sema q).waiters,
    s.status t = .blocked ∧ (s.prog t).head? = some (.semaDown q)
  nodup : ∀ q, (s.shared.sema q).waiters.Nodup
  listed : ∀ t r, s.status t = .blocked → (s.prog t).head? = some (.semaDown (.exited r)) →
    t ∈ (s.shared.sema (.exited r)).waiters
  value : ∀ r, s.owner r = p → (s.shared.sema (.exited r)).waiters ≠ [] →
    (s.shared.sema (.exited r)).value = 0

theorem queued_boot : boot.Queued p where
  sleeping q t ht := by
    cases q with
    | exited r => cases ht
    | lock l => cases l <;> cases ht
  nodup q := by
    cases q with
    | exited r => exact nodup_nil
    | lock l => cases l <;> exact nodup_nil
  listed t r hblocked := by cases hblocked
  value r _ hne := absurd rfl hne

theorem sema_setRecord (m : Shared) (r : RecordId) (w : WaitStatus) (q : SemaRef)
    (hexited : q = .exited r → w.sema = (m.waitStatus r).sema)
    (hlock : q = .lock (.refCount r) →
      w.refCountLock.semaphore = (m.waitStatus r).refCountLock.semaphore) :
    (m.setRecord r w).sema q = m.sema q := by
  rcases q with (_ | r') | r'
  · rfl
  · by_cases hr : r' = r
    · subst hr
      simpa [Shared.sema, Shared.lock] using hlock rfl
    · simp [Shared.sema, Shared.lock, hr]
  · by_cases hr : r' = r
    · subst hr
      simpa [Shared.sema] using hexited rfl
    · simp [Shared.sema, hr]

theorem sema_setLock_of_ne (m : Shared) (l : LockRef) (lock : Lock) {q : SemaRef}
    (h : q = .lock l → lock.semaphore = (m.lock l).semaphore) :
    (m.setLock l lock).sema q = m.sema q := by
  cases l with
  | childList =>
    rcases q with (_ | r) | r
    · exact h rfl
    · rfl
    · rfl
  | refCount r => exact sema_setRecord m r _ q (fun _ => rfl) h

theorem sema_setSema (m : Shared) (q : SemaRef) (sema : Semaphore) :
    (m.setSema q sema).sema = update m.sema q sema := by
  refine eq_update_iff.mpr ⟨?_, fun q' h => ?_⟩
  · rcases q with (_ | r) | r
    · rfl
    · simp [Shared.setSema, Shared.sema, Shared.setLock, Shared.lock]
    · simp [Shared.setSema, Shared.sema]
  · cases q with
    | lock l => exact sema_setLock_of_ne m l _ fun heq => absurd heq h
    | exited r => exact sema_setRecord m r _ q' (fun heq => absurd heq h) fun _ => rfl

/-- Who sleeps on the semaphore of a record has allocated it. -/
theorem Queued.owns (h : s.Queued p) (hs : s.Structured strict)
    (ht : t ∈ (s.shared.sema (.exited r)).waiters) : s.Owns t r :=
  hs.role t (.semaDown (.exited r)) (mem_of_mem_head? (h.sleeping _ t ht).2)

section

variable (h : s.Queued p) (hs : s.Structured strict) (hready : s.status q = .ready)
  (hstatus : u.status = s.status) (hprog : ∀ t, t ≠ q → u.prog t = s.prog t)
include h hs hready hstatus hprog

/-- A step of thread `q` after which the lists are the same, or empty where nobody of
interest can have slept. -/
theorem Queued.quiet (hwaiters : ∀ k, (u.shared.sema k).waiters = (s.shared.sema k).waiters ∨
      ((u.shared.sema k).waiters = [] ∧ ∀ r, k = .exited r → s.nextRecord ≤ r))
    (hvalue : ∀ r, u.owner r = p → (u.shared.sema (.exited r)).waiters ≠ [] →
      (u.shared.sema (.exited r)).value = 0) : u.Queued p := by
  have hold : ∀ k, ∀ t ∈ (u.shared.sema k).waiters, t ∈ (s.shared.sema k).waiters := by
    intro k t ht
    rcases hwaiters k with hsame | ⟨hnil, _⟩
    · rwa [hsame] at ht
    · rw [hnil] at ht
      cases ht
  have hother : ∀ t, s.status t = .blocked → t ≠ q :=
    fun t hblocked => ne_of_apply_ne s.status (by simp [hblocked, hready])
  constructor
  case sleeping =>
    intro k t ht
    obtain ⟨hblocked, hhead⟩ := h.sleeping k t (hold k t ht)
    rw [hstatus, hprog t (hother t hblocked)]
    exact ⟨hblocked, hhead⟩
  case nodup =>
    intro k
    rcases hwaiters k with hsame | ⟨hnil, _⟩
    · rw [hsame]
      exact h.nodup k
    · rw [hnil]
      exact nodup_nil
  case listed =>
    intro t r hblocked hhead
    rw [hstatus] at hblocked
    rw [hprog t (hother t hblocked)] at hhead
    have hmem := h.listed t r hblocked hhead
    rcases hwaiters (.exited r) with hsame | ⟨_, hfresh⟩
    · rwa [hsame]
    · exact absurd (h.owns hs hmem).2 (not_lt.mpr (hfresh r rfl))
  case value => exact hvalue

theorem Queued.same (howner : ∀ r < s.nextRecord, u.owner r = s.owner r)
    (hsema : ∀ k, u.shared.sema k = s.shared.sema k) : u.Queued p := by
  apply h.quiet hs hready hstatus hprog (fun k => .inl (by rw [hsema k]))
  intro r hr hne
  rw [hsema] at hne ⊢
  obtain ⟨t, ht⟩ := exists_mem_of_ne_nil _ hne
  exact h.value r ((howner r (h.owns hs ht).2).symm.trans hr) hne

/-- The value of a semaphore changes on which nobody of interest sleeps. -/
theorem Queued.setSema (howner : u.owner = s.owner) {k : SemaRef} {sema : Semaphore}
    (hshared : u.shared = s.shared.setSema k sema)
    (hwaiters : sema.waiters = (s.shared.sema k).waiters)
    (hnil : ∀ r, k = .exited r → s.owner r = p → (s.shared.sema (.exited r)).waiters = []) :
    u.Queued p := by
  refine h.quiet hs hready hstatus hprog (fun k' => .inl ?_) ?_
  · by_cases hk : k' = k
    · rw [hk, hshared, sema_setSema, update_self, hwaiters]
    · rw [hshared, sema_setSema, update_of_ne hk]
  intro r hr hne
  rw [howner] at hr
  rw [hshared, sema_setSema] at hne ⊢
  by_cases hk : SemaRef.exited r = k
  · subst hk
    rw [update_self, hwaiters] at hne
    exact absurd (hnil r rfl hr) hne
  · rw [update_of_ne hk] at hne ⊢
    exact h.value r hr hne

end

theorem Queued.sleep (h : s.Queued p) (k : SemaRef) (rest : List Action)
    (hnot : ∀ k, q ∉ (s.shared.sema k).waiters) :
    ({ s with
        shared := s.shared.setSema k ⟨0, (s.shared.sema k).waiters ++ [q]⟩
        status := update s.status q .blocked }.setProg q
      (Action.semaDown k :: rest)).Queued p := by
  have hne : ∀ k', ∀ t ∈ (s.shared.sema k').waiters, t ≠ q := by
    rintro k' t ht rfl
    exact hnot k' ht
  have hold : ∀ k', ∀ t ∈ (s.shared.sema k').waiters, update s.status q .blocked t = .blocked ∧
        (update s.prog q (.semaDown k :: rest) t).head? = some (.semaDown k') := by
    intro k' t ht
    rw [update_of_ne (hne k' t ht), update_of_ne (hne k' t ht)]
    exact h.sleeping k' t ht
  constructor <;> rw [setProg, sema_setSema]
  case sleeping =>
    refine (forall_update_iff s.shared.sema fun k' sema => ∀ t ∈ sema.waiters,
      update s.status q .blocked t = .blocked ∧
        (update s.prog q (.semaDown k :: rest) t).head? = some (.semaDown k')).mpr
      ⟨fun t ht => ?_, fun k' _ => hold k'⟩
    rcases mem_append.mp ht with ht | ht
    · exact hold k t ht
    · simp [mem_singleton.mp ht]
  case nodup =>
    refine (forall_update_iff s.shared.sema fun _ sema => sema.waiters.Nodup).mpr
      ⟨?_, fun k' _ => h.nodup k'⟩
    exact concat_eq_append ▸ (h.nodup k).concat fun hmem => hne k q hmem rfl
  case listed =>
    intro t r hblocked hhead
    by_cases ht : t = q
    · subst ht
      have hk : k = .exited r := by simpa using hhead
      simp [hk]
    · simp only [update_of_ne ht] at hblocked hhead
      have hmem := h.listed t r hblocked hhead
      by_cases hk : SemaRef.exited r = k
      · simp [← hk, hmem]
      · simpa [hk] using hmem
  case value =>
    intro r hr hwaiters
    by_cases hk : SemaRef.exited r = k
    · simp [hk]
    · simp only [update_of_ne hk] at hwaiters ⊢
      exact h.value r hr hwaiters

section

variable (h : s.Queued p) (hs : s.Structured strict)
include h hs

theorem Queued.wake (hready : s.status q = .ready) {k : SemaRef} {tail : List Tid} {value : UInt32}
    {events : List ProcessEvent} (hwaiters : (s.shared.sema k).waiters = t :: tail)
    {actions : List Action} (hprog : ∀ x, x ≠ q → update s.prog q actions x = s.prog x) :
    ({ s with
        shared := s.shared.setSema k ⟨value, tail⟩
        status := update s.status t .ready
        history := s.history ++ events }.setProg q actions).Queued p := by
  have hnodup : (t :: tail).Nodup := hwaiters ▸ h.nodup k
  have htail : ∀ x ∈ tail, x ∈ (s.shared.sema k).waiters := by
    intro x hx
    rw [hwaiters]
    exact mem_cons_of_mem t hx
  have hhead : (s.prog t).head? = some (.semaDown k) :=
    (h.sleeping k t (by rw [hwaiters]; exact mem_cons_self)).2
  have hold : ∀ k', ∀ x ∈ (s.shared.sema k').waiters, x ≠ t →
      update s.status t .ready x = .blocked ∧
        (update s.prog q actions x).head? = some (.semaDown k') := by
    intro k' x hx hxt
    obtain ⟨hblocked, hheadx⟩ := h.sleeping k' x hx
    have hxq : x ≠ q := ne_of_apply_ne s.status (by simp [hblocked, hready])
    rw [update_of_ne hxt, hprog x hxq]
    exact ⟨hblocked, hheadx⟩
  constructor <;> rw [setProg, sema_setSema]
  case sleeping =>
    refine (forall_update_iff s.shared.sema fun k' sema => ∀ x ∈ sema.waiters,
      update s.status t .ready x = .blocked ∧
        (update s.prog q actions x).head? = some (.semaDown k')).mpr ⟨fun x hx => ?_, ?_⟩
    · apply hold k x (htail x hx)
      rintro rfl
      exact (nodup_cons.mp hnodup).1 hx
    intro k' hk x hx
    apply hold k' x hx
    -- nobody sleeps in two places
    rintro rfl
    have hheadx := (h.sleeping k' x hx).2
    rw [hhead] at hheadx
    cases hheadx
    exact hk rfl
  case nodup =>
    exact (forall_update_iff s.shared.sema fun _ sema => sema.waiters.Nodup).mpr
      ⟨(nodup_cons.mp hnodup).2, fun k' _ => h.nodup k'⟩
  case listed =>
    intro x r hblocked hheadx
    have hxt : x ≠ t := by
      rintro rfl
      simp at hblocked
    simp only [update_of_ne hxt] at hblocked
    have hxq : x ≠ q := ne_of_apply_ne s.status (by simp [hblocked, hready])
    simp only [hprog x hxq] at hheadx
    have hmem := h.listed x r hblocked hheadx
    by_cases hk : SemaRef.exited r = k
    · subst hk
      rw [hwaiters] at hmem
      simpa [hxt] using hmem
    · simpa [hk] using hmem
  case value =>
    intro r hr hne
    by_cases hk : SemaRef.exited r = k
    · subst hk
      rw [update_self] at hne
      -- only the parent sleeps on a record, and it is awake now
      obtain ⟨x, hx⟩ := exists_mem_of_ne_nil _ hne
      have hxt : x = t := (h.owns hs (htail x hx)).1.symm.trans
        (h.owns hs (hwaiters ▸ mem_cons_self)).1
      exact absurd (hxt ▸ hx) (nodup_cons.mp hnodup).1
    · simp only [update_of_ne hk] at hne ⊢
      exact h.value r hr hne

theorem Queued.effect (hprog : s.prog q = a :: rest) (hready : s.status q = .ready)
    (heffect : Effect s q a u more) : (u.setProg q (more ++ rest)).Queued p := by
  have hother : ∀ t, t ≠ q → (u.setProg q (more ++ rest)).prog t = s.prog t := by
    intro t ht
    simp [ht, heffect.prog]
  have howner : ∀ r < s.nextRecord, (u.setProg q (more ++ rest)).owner r = s.owner r :=
    heffect.grows.owner
  have hrecords : ∀ r, (s.shared.sema (.exited r)).waiters ≠ [] → r < s.nextRecord := by
    intro r hne
    obtain ⟨t, ht⟩ := exists_mem_of_ne_nil _ hne
    exact (h.owns hs ht).2
  have hnot : ∀ k, q ∉ (s.shared.sema k).waiters := by
    intro k hmem
    have hblocked := (h.sleeping k q hmem).1
    rw [hready] at hblocked
    cases hblocked
  cases heffect with
  | lockInit =>
    refine h.quiet hs hready rfl hother ?_ ?_
    · intro k
      by_cases hk : k = .lock .childList
      · subst hk
        exact .inr ⟨rfl, by simp⟩
      · left
        show ((s.shared.setLock .childList lockInit).sema k).waiters = _
        rw [sema_setLock_of_ne _ _ _ fun heq => absurd heq hk]
    · exact h.value
  | newRecord garbage =>
    have hkeep : ∀ k, k ≠ .exited s.nextRecord → k ≠ .lock (.refCount s.nextRecord) →
        (s.shared.setRecord s.nextRecord (newRecord garbage)).sema k =
          s.shared.sema k := by
      intro k hexited hlock
      exact sema_setRecord _ _ _ k (fun heq => absurd heq hexited) fun heq => absurd heq hlock
    have hnew : ((s.shared.setRecord s.nextRecord (newRecord garbage)).sema
        (.exited s.nextRecord)).waiters = [] := by
      simp [Shared.sema, semaInit]
    refine h.quiet hs hready rfl hother ?_ ?_
    · intro k
      by_cases hexited : k = .exited s.nextRecord
      · subst hexited
        exact .inr ⟨hnew, by simp⟩
      by_cases hlock : k = .lock (.refCount s.nextRecord)
      · subst hlock
        right
        refine ⟨?_, by simp⟩
        simp [Shared.sema, Shared.lock, lockInit, semaInit]
      · left
        show ((s.shared.setRecord s.nextRecord (newRecord garbage)).sema k).waiters = _
        rw [hkeep k hexited hlock]
    · intro r hr hne
      by_cases hexited : r = s.nextRecord
      · subst hexited
        exact absurd hnew hne
      have hsame := hkeep (.exited r) (by simpa using hexited) (by simp)
      replace hne : ((s.shared.setRecord s.nextRecord (newRecord garbage)).sema
        (.exited r)).waiters ≠ [] := hne
      rw [hsame] at hne
      show ((s.shared.setRecord s.nextRecord (newRecord garbage)).sema (.exited r)).value = 0
      rw [hsame]
      exact h.value r ((howner r (hrecords r hne)).symm.trans hr) hne
  | take k hvalue =>
    refine h.setSema hs hready rfl hother rfl rfl rfl ?_
    rintro r rfl hr
    by_contra hne
    exact hvalue (h.value r hr hne)
  | raise k hnil => exact h.setSema hs hready rfl hother rfl rfl hnil.symm fun r hk _ => hk ▸ hnil
  | sleep k hvalue => exact h.sleep k rest hnot
  | wake k t tail hwaiters hblocked => exact h.wake hs hready hwaiters hother
  | setHolder l | clearHolder l =>
    exact h.same hs hready rfl hother howner fun k => sema_setLock_of_ne _ l _ fun _ => rfl
  | threadCreate =>
    refine h.same hs hready rfl hother howner fun k => ?_
    cases hrecord : s.recordForChild q with
    | none => simp [hrecord]
    | some r =>
      rw [threadCreate, hrecord]
      exact sema_setRecord _ r _ k (fun _ => rfl) fun _ => rfl
  | decRef r | setExitCode r code =>
    exact h.same hs hready rfl hother howner fun k =>
      sema_setRecord _ r _ k (fun _ => rfl) fun _ => rfl
  | _ => exact h.same hs hready rfl hother howner fun _ => rfl

theorem Queued.call (huser : s.InUser q) (actions : List Action) (history : List ProcessEvent) :
    { s.setProg q actions with history := history }.Queued p := by
  refine h.same hs huser.1.2 rfl ?_ (fun _ _ => rfl) fun _ => rfl
  intro t ht
  simp [ht]

end

end Processes

end CS162
