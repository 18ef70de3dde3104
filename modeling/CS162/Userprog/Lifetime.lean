import CS162.Userprog.Records

/-!
# The lifetime of a wait_status record

A record is freed once, after parent and child have given their references up, and no
thread touches it afterwards.  This holds in the runs in which the loop of `process_exit`
comes to a record only after the child has called `sema_up` on it: the child gives its
reference up before that call, so that a parent that exits in between frees the record,
and a parent that exits earlier leaves the child with a list in a page that is gone.

## Strategy

* **What is in use is not freed.**  A record in a list, or one that a thread is working
  on, is at a stage before `gone`.
* **No step touches freed memory.**  Every action touches records of these two kinds.
* **Every record is freed in the end.**  The loop of `process_exit` leaves an empty list.
-/

namespace CS162

open Library Function List

namespace Processes

variable {s u : Processes} {p : Tid} {a : Action} {more rest : List Action} {strict : Prop}
  {good : Tid → Prop} {c t : Tid} {r w : RecordId}

/-! ## What is in use is not freed -/

theorem Sound.not_freed_of_listed (h : s.Sound good) (hs : s.Structured strict) (hgood : good p)
    (hr : r ∈ s.children p) : s.freed r = false := by
  obtain ⟨rfl, hlt⟩ := hs.children_owner p r hr
  rcases h.linked_or_fresh hlt hgood with ⟨c, ps, cs, _, hfits⟩ | ⟨_, hfresh⟩
  · have hps : ps = .held ∨ ps = .given := hfits.listed.mp hr
    by_contra hfreed
    have hgone : ps = .gone := hfits.freed.mp (eq_true_of_ne_false hfreed)
    rw [hgone] at hps
    simp at hps
  · exact hfresh.freed

/-- The record a thread is working on is one it has allocated, or its own. -/
theorem Structured.focus_role (h : s.Structured strict)
    (hrecord : (focus (s.prog p)).record = some r) : s.Owns p r ∨ s.myWaitStatus p = some r := by
  have hactive : focus (s.prog p) ≠ .idle := by
    intro hidle
    rw [hidle] at hrecord
    cases hrecord
  obtain ⟨b, hb, haim⟩ := @exists_aim_of_focus (s.prog p) _ rfl hactive
  exact Role.record (h.role p b hb) (by rw [haim]; exact hrecord)

theorem Sound.not_freed_of_focus (h : s.Sound good) (hs : s.Structured strict)
    (hgood : good (s.owner r)) (hrecord : (focus (s.prog p)).record = some r) :
    s.freed r = false := by
  have hrole := hs.focus_role hrecord
  have hr : r < s.nextRecord := hrole.elim (fun howns => howns.2) fun hm => (hs.mine p r hm).1
  rcases h.linked_or_fresh hr hgood with ⟨c, ps, cs, hc, hfits⟩ | ⟨_, hfresh⟩
  · by_contra hfreed
    have hgone : ps = .gone := hfits.freed.mp (eq_true_of_ne_false hfreed)
    subst hgone
    rcases hrole with ⟨rfl, _⟩ | hmine
    · have hparent : parentFits r .gone cs (focus (s.prog (s.owner r))) := hfits.parent
      unfold parentFits at hparent
      rw [if_pos hrecord] at hparent
      split at hparent <;> simp at hparent
    obtain rfl := h.unique c p r hc hmine hgood
    have hchild : childFits r cs (focus (s.prog c)) := hfits.child
    rw [hfits.order (by simp)] at hchild
    unfold childFits at hchild
    rw [if_pos hrecord] at hchild
    split at hchild <;> simp at hchild
  · exact hfresh.freed

/-! ## No step touches freed memory -/

def everyone : Tid → Prop := fun _ => True

/-- The parent is the last to give its reference up, so it never releases
`ref_count_lock`. -/
theorem Sound.keepsStrictly (h : s.Sound everyone) (hs : s.Structured strict)
    (l : ProcessLabel) : s.KeepsStrictly l := by
  cases l with
  | step p memory =>
    intro a rest hprog
    have hseq := hs.sequenced_of hprog
    constructor
    · rintro r rfl hdie
      have howns : s.Owns p r := by
        rcases hs.role_head hprog with howns | ⟨_, hup⟩
        · exact howns
        · rcases hseq.1 with ⟨hidle, _⟩ | ⟨_, hmem⟩
          · cases aim_of_focus_idle hidle (.semaUp (.exited r)) (by simpa using hup)
          · exact absurd hmem hdie
      exact h.refCount_testing trivial howns (by rw [hprog]; rfl)
    · rintro r rfl
      exact h.refCount_testing trivial (hs.role_head hprog) (by rw [hprog]; rfl)
  | _ => trivial

theorem mem_listPrev {list : List RecordId} (h : listPrev list w = some r) : r ∈ list :=
  (takeWhile_sublist _).subset (mem_of_getLast? h)

theorem Sound.touched_not_freed (h : s.Sound everyone) (hs : s.Structured True)
    (hprog : s.prog p = a :: rest) : ∀ r ∈ s.touched p a, s.freed r = false := by
  have hfollows := (hs.sequenced_of hprog).1
  have hlisted : ∀ q, ∀ r ∈ s.children q, s.freed r = false :=
    fun q r hr => h.not_freed_of_listed hs trivial hr
  have hhead : ∀ r ∈ (s.children p).head?.toList, s.freed r = false :=
    fun r hr => hlisted p r (mem_of_mem_head? (Option.mem_toList.mp hr))
  have hfocus : ∀ r, (focus (a :: rest)).record = some r → s.freed r = false :=
    fun r hr => h.not_freed_of_focus hs trivial (p := p) (by rw [hprog]; exact hr)
  have hsingle : ∀ w, (focus (a :: rest)).record = some w → ∀ r ∈ [w], s.freed r = false :=
    fun w hw r hr => mem_singleton.mp hr ▸ hfocus w hw
  have hlock : ∀ l, focus (a :: rest) = focus rest → ∀ r ∈ recordOfLock l,
      (∀ w, l = .refCount w → (focus rest).record = some w) → s.freed r = false := by
    intro l hsame r hr hl
    cases l with
    | childList => cases hr
    | refCount w => exact hsingle w (by rw [hsame, hl w rfl]) r hr
  intro r hr
  cases a with
  | assertNotHeld l | setHolder l =>
    exact hlock l rfl r hr fun w hw => by subst hw; exact congrArg _ hfollows
  | assertHeld l | clearHolder l =>
    exact hlock l rfl r hr fun w hw => by subst hw; exact congrArg _ (hfollows trivial)
  | semaDown q =>
    cases q with
    | lock l => exact hlock l rfl r hr fun w hw => by subst hw; exact congrArg _ hfollows
    | exited w => exact hsingle w rfl r hr
  | semaUp q =>
    cases q with
    | lock l => exact hlock l rfl r hr fun w hw => by subst hw; exact congrArg _ (hfollows trivial)
    | exited w => exact hsingle w rfl r hr
  | pushChild w =>
    rcases mem_cons.mp hr with rfl | hr
    · exact hfocus r rfl
    · exact hhead r hr
  | threadCreate => exact hhead r hr
  | findChild tid =>
    rcases mem_append.mp hr with hr | hr
    · exact hlisted p r ((takeWhile_sublist _).subset hr)
    · exact hlisted p r (childWith_mem (Option.mem_toList.mp hr))
  | readExitCode w tid | decRef w | testRef w | testLoop w | free w | setExitCode w code =>
    exact hsingle w rfl r hr
  | removeChild w =>
    rcases mem_cons.mp hr with rfl | hr
    · exact hfocus r rfl
    · rcases mem_append.mp hr with hr | hr
      · exact hlisted _ r (mem_listPrev (Option.mem_toList.mp hr))
      · exact hlisted _ r (mem_listNext (Option.mem_toList.mp hr))
  | exitLoop e =>
    have hloop := h.loop p e trivial (by rw [hprog]; rfl)
    rw [hprog] at hloop
    exact hhead r (by rw [hloop.2]; exact hr)
  | _ => cases hr

/-- A record that is taken out of a list is in the list of the thread that does it. -/
theorem Sound.removing (h : s.Sound everyone) (hs : s.Structured strict)
    (hprog : s.prog p = .removeChild r :: rest) : s.owner r = p ∧ r ∈ s.children (s.owner r) := by
  have hfocus : focus (s.prog p) = .removing r := by rw [hprog]; rfl
  have howns : s.Owns p r := by
    rcases hs.role_head hprog with howns | ⟨hmine, _⟩
    · exact howns
    · exact absurd hfocus (h.child_keeps hmine trivial).1
  obtain ⟨c, ps, cs, _, hfits⟩ := h.linked howns trivial (by simp [hfocus])
  rw [← howns.1] at hfocus
  have hps : ps = .given := by simpa using hfits.parent_of hfocus
  exact ⟨howns.1, hfits.listed.mpr (.inr hps)⟩

theorem Sound.not_dangling (h : s.Sound everyone) (hs : s.Structured True)
    (hprog : s.prog p = a :: rest) (halive : s.alive p = true) : s.dangling p a = false := by
  have htouched : (s.touched p a).any s.freed = false := by
    rw [any_eq_false]
    intro r hr
    simp [h.touched_not_freed hs hprog r hr]
  have howner : ∀ q, s.touchedOwner a = some q → s.alive q = true := by
    intro q hq
    cases a with
    | removeChild w =>
      rw [touchedOwner] at hq
      split at hq
      · cases hq
        rwa [(h.removing hs hprog).1]
      · cases hq
    | _ => cases hq
  unfold dangling
  rw [htouched]
  cases hq : s.touchedOwner a with
  | none => rfl
  | some q => simp [pageFreed, howner q hq]

/-- The only action with undefined behaviour of its own is `list_remove`. -/
theorem effect_ne_undefined (hremove : ∀ r, a = .removeChild r → r ∈ s.children (s.owner r))
    (memory : Option ℤ) (site : String) : s.effect p memory a ≠ .error (.undefined site) := by
  intro heffect
  cases a with
  | mallocStatus | threadCreate => cases memory <;> cases heffect
  | assertNotHeld l | semaDown q | assertHeld l =>
    rw [effect] at heffect
    split at heffect <;> cases heffect
  | semaUp q =>
    rw [effect] at heffect
    split at heffect
    · cases heffect
    · split at heffect <;> cases heffect
  | removeChild r =>
    rw [effect, if_pos (hremove r rfl)] at heffect
    cases heffect
  | exitLoop e => cases e <;> cases heffect
  | _ => cases heffect

/-- **No step touches freed memory.** -/
theorem Sound.next_ne_undefined (h : s.Sound everyone) (hs : s.Structured True)
    (l : ProcessLabel) (site : String) : s.next l ≠ some (.error (.undefined site)) := by
  intro hnext
  cases l with
  | step p memory =>
    rw [next] at hnext
    cases hprog : s.prog p with
    | nil => simp [hprog] at hnext
    | cons a rest =>
      rw [hprog] at hnext
      obtain ⟨hrun, hact⟩ := Option.ite_none_right_eq_some.mp hnext
      simp only [act, h.not_dangling hs hprog hrun.1, Option.some.injEq, Bool.false_eq_true,
        if_false] at hact
      split at hact
      · rename_i e heffect
        cases hact
        refine effect_ne_undefined ?_ memory site heffect
        rintro r rfl
        exact (h.removing hs hprog).2
      · cases hact
  | execute p | wait p tid | exit p code =>
    obtain ⟨_, ⟨⟩⟩ := Option.ite_none_right_eq_some.mp hnext

/-! ## Every record is freed in the end -/

/-- The event that record `r` is freed. -/
def frees (r : RecordId) : ProcessEvent → Bool
  | .freed _ w => w = r
  | _ => false

/-- The history counts the calls of `free`. -/
def Counted (s : Processes) : Prop :=
  ∀ r, s.history.countP (frees r) = if s.freed r then 1 else 0

theorem Counted.append (h : s.Counted) {events : List ProcessEvent}
    (hevents : ∀ e ∈ events, ∀ r, frees r e = false) (r : RecordId) :
    (s.history ++ events).countP (frees r) = if s.freed r then 1 else 0 := by
  have hnone : events.countP (frees r) = 0 := by
    rw [countP_eq_zero]
    intro e he
    simp [hevents e he r]
  rw [countP_append, hnone, h r, add_zero]

theorem Counted.effect (h : s.Counted) (hsound : s.Sound everyone) (hs : s.Structured strict)
    (hprog : s.prog p = a :: rest) (heffect : Effect s p a u more) : u.Counted := by
  cases heffect with
  | raise q _ | wake q _ _ _ _ => exact h.append (by cases q <;> simp [upEvents, frees])
  | threadCreate | decRef w | returnWait tid status waited => exact h.append (by simp [frees])
  | free w =>
    intro r
    have hfreed : s.freed w = false :=
      hsound.not_freed_of_focus hs trivial (p := p) (by rw [hprog]; rfl)
    rw [log, countP_append, h r, countP_singleton, frees]
    by_cases hr : r = w
    · subst hr
      simp [hfreed]
    · simp [hr, Ne.symm hr]
  | _ => exact h

/-- A process that is through the loop of `process_exit` has no records left. -/
def Cleared (s : Processes) : Prop :=
  ∀ p, s.Exiting p → .exitBegin ∉ s.prog p → loopVar (s.prog p) = none → s.children p = []

theorem Cleared.effect (h : s.Cleared) (hsound : s.Sound everyone) (hs : s.Structured strict)
    (hprog : s.prog p = a :: rest) (halive : s.alive p = true) (heffect : Effect s p a u more) :
    (u.setProg p (more ++ rest)).Cleared := by
  intro q hexiting hbegin hvar
  replace hexiting : s.Exiting q := (heffect.exiting_iff q).mp hexiting
  show u.children q = []
  by_cases hq : q = p
  · subst hq
    simp only [setProg, update_self] at hbegin hvar
    have hdie := (hs.exiting q halive).mp hexiting
    have hseq := hs.sequenced q
    rw [hprog] at hseq hdie
    have hold : a ≠ .exitBegin → (∀ e, a ≠ .exitLoop e) → loopVar rest = none →
        .exitBegin ∉ rest → s.children q = [] := by
      intro ha hloop hrest hmem
      apply h q hexiting
      · rw [hprog]
        simp [hmem, ha.symm]
      · rw [hprog]
        cases a with
        | exitLoop e => exact absurd rfl (hloop e)
        | _ => exact hrest
    have hrest : .exitBegin ∉ rest := fun hmem => hbegin (mem_append_right _ hmem)
    cases heffect with
    | exitBegin => cases hvar
    | exitEnd =>
      have hloop := hsound.loop q none trivial (by rw [hprog]; rfl)
      rw [hprog] at hloop
      exact head?_eq_none_iff.mp hloop.2
    | exitLoop w => cases hvar
    | pushChild w => exact absurd (by simpa using hdie) hseq.1.2
    | removeChild w hmem =>
      have hnil := hold (by simp) (by simp) hvar hrest
      rw [(hsound.removing hs hprog).1, hnil] at hmem
      cases hmem
    | findChild tid =>
      apply hold (by simp) (by simp) _ hrest
      cases hfind : s.childWith q tid <;> rw [hfind] at hvar <;> exact hvar
    | testRef w =>
      apply hold (by simp) (by simp) _ hrest
      unfold releaseRecord at hvar
      split at hvar <;> exact hvar
    | testLoop w =>
      apply hold (by simp) (by simp) _ hrest
      unfold releaseInLoop at hvar
      split at hvar <;> exact hvar
    | _ => exact hold (by simp) (by simp) hvar hrest
  · simp only [setProg, update_of_ne hq, heffect.prog] at hbegin hvar
    rw [hsound.children_other hs hprog heffect trivial hq]
    exact h q hexiting hbegin hvar

theorem Cleared.call (h : s.Cleared) (hs : s.Structured strict) (huser : s.InUser p)
    (actions : List Action) (events : List ProcessEvent)
    (hevents : ∀ e ∈ events, ∃ code, e = .exiting p code)
    (hbegin : events ≠ [] → .exitBegin ∈ actions) :
    { s.setProg p actions with history := s.history ++ events }.Cleared := by
  intro q hexiting hmem hvar
  rcases (exiting_call hevents).mp hexiting with hold | ⟨rfl, hne⟩
  · have hq : q ≠ p := by
      rintro rfl
      exact hs.not_exiting huser hold
    simp only [setProg, update_of_ne hq] at hmem hvar
    exact h q hold hmem hvar
  · exact absurd (hbegin hne) (by simpa using hmem)

/-! ## The lifetime over whole runs -/

/-- What holds in every state of a run in which every process follows the protocol. -/
structure Tidy (s : Processes) : Prop where
  structured : s.Structured True
  sound : s.Sound everyone
  counted : s.Counted
  cleared : s.Cleared

theorem tidy_boot : boot.Tidy where
  structured := structured_boot
  sound := sound_boot
  counted r := by simp
  cleared p hexiting := by
    obtain ⟨code, ⟨⟩⟩ := hexiting

theorem Tidy.step (h : s.Tidy) {l : ProcessLabel} {t : Processes}
    (htended : s.Tended everyone l) (hstep : s.Step l t) : t.Tidy where
  structured := h.structured.step (fun _ => h.sound.keepsStrictly h.structured l) hstep
  sound := h.sound.step h.structured htended hstep
  counted := by
    cases moves_of_step hstep with
    | execute | wait => exact h.counted
    | exit => exact h.counted.append (by simp [frees])
    | step _ hprog heffect =>
      exact (h.counted.effect h.sound h.structured hprog (.of_effect heffect) :)
  cleared := by
    cases moves_of_step hstep with
    | execute huser =>
      have hcall := h.cleared.call h.structured huser processExecute [] (by simp) (by simp)
      rwa [append_nil] at hcall
    | wait tid huser =>
      have hcall := h.cleared.call h.structured huser (processWait tid) [] (by simp) (by simp)
      rwa [append_nil] at hcall
    | exit code huser =>
      exact h.cleared.call h.structured huser _ _ (by simp) (by simp)
    | step hrun hprog heffect =>
      exact h.cleared.effect h.sound h.structured hprog hrun.1 (.of_effect heffect)

/-- The life of the records as it should be. -/
structure LifetimeKept (s : Processes) : Prop where
  /-- A record is freed at most once. -/
  freed_once : ∀ r, s.history.countP (frees r) ≤ 1
  /-- It is freed only after parent and child have given their references up. -/
  freed_dropped : ∀ r, s.freed r = true →
    ∃ c, s.myWaitStatus c = some r ∧ s.Dropped (s.owner r) r ∧ s.Dropped c r
  /-- A parent that has given its reference up has freed the record when it is back from
  the kernel. -/
  dropped_freed : ∀ r, s.Dropped (s.owner r) r → s.prog (s.owner r) = [] →
    s.history.countP (frees r) = 1
  /-- A parent that has ended has freed all its records. -/
  ended_freed : ∀ r < s.nextRecord, s.Exiting (s.owner r) → s.prog (s.owner r) = [] →
    s.history.countP (frees r) = 1
  /-- No step accesses a record or a list that has been freed. -/
  no_use_after_free : ∀ l site, s.next l ≠ some (.error (.undefined site))

/-- A process out of the kernel has every record it has allocated in its list, or freed. -/
theorem Sound.held_or_gone (h : s.Sound everyone) (hr : r < s.nextRecord)
    (hprog : s.prog (s.owner r) = []) :
    ∃ c ps cs, s.myWaitStatus c = some r ∧ AtStage (s.view c r) c r ps cs ∧
      (ps = .held ∨ ps = .gone) := by
  obtain ⟨c, ps, cs, hc, hfits⟩ := h.linked ⟨rfl, hr⟩ trivial (by simp [hprog])
  have haway : (s.view c r).parent.record ≠ some r := by simp [hprog]
  exact ⟨c, ps, cs, hc, hfits, (AtStage.parentFits_away haway).mp hfits.parent⟩

theorem Tidy.lifetimeKept (h : s.Tidy) : s.LifetimeKept := by
  have hcount : ∀ r, s.freed r = true → s.history.countP (frees r) = 1 := by
    intro r hfreed
    rw [h.counted r, if_pos hfreed]
  constructor
  case freed_once =>
    intro r
    rw [h.counted r]
    split <;> simp
  case freed_dropped =>
    intro r hfreed
    have hr := h.sound.freed r hfreed
    rcases h.sound.linked_or_fresh hr trivial with ⟨c, ps, cs, hc, hfits⟩ | ⟨_, hfresh⟩
    · have hps : ps = .gone := hfits.freed.mp hfreed
      have hcs : cs = .exited := hfits.order (by simp [hps])
      exact ⟨c, hc, hfits.parentDropped.mpr (by simp [hps]), hfits.childDropped.mpr (.inr hcs)⟩
    · rw [hfresh.freed] at hfreed
      cases hfreed
  case dropped_freed =>
    intro r hdropped hprog
    have hr : r < s.nextRecord := (h.structured.known _ hdropped).2
    obtain ⟨c, ps, cs, _, hfits, hheld | hgone⟩ := h.sound.held_or_gone hr hprog
    · exact absurd hheld (hfits.parentDropped.mp hdropped)
    · exact hcount r (hfits.freed.mpr hgone)
  case ended_freed =>
    intro r hr hexiting hprog
    obtain ⟨c, ps, cs, _, hfits, hheld | hgone⟩ := h.sound.held_or_gone hr hprog
    · have hlisted : r ∈ s.children (s.owner r) := hfits.listed.mpr (.inl hheld)
      rw [h.cleared _ hexiting (by simp [hprog]) (by rw [hprog]; rfl)] at hlisted
      cases hlisted
    · exact hcount r (hfits.freed.mpr hgone)
  case no_use_after_free => exact h.sound.next_ne_undefined h.structured

/-- **The lifetime of a wait_status record.**  In every interleaving of `process_execute`,
`process_wait` and `process_exit` by any number of processes in which `thread_create`
succeeds and the loop of `process_exit` comes to a record only after the child has called
`sema_up` on it, every record is freed once and in time, and never used again. -/
theorem waitStatus_lifetime {labels : List ProcessLabel} {s : Processes}
    (hrun : Run (Guarded (Tended everyone) Step) boot labels s) : s.LifetimeKept := by
  have htidy : s.Tidy := hrun.invariant tidy_boot fun _ _ _ h hstep => h.step hstep.1 hstep.2
  exact htidy.lifetimeKept

/-- The steps that could break the condition of the protocol. -/
def mayBreak (s : Processes) : ProcessLabel → Bool
  | .step p memory =>
    match (s.prog p).head? with
    | some .threadCreate => memory.isNone
    | some (.exitLoop (some _)) => true
    | _ => false
  | _ => false

theorem tended_of_not_mayBreak (s : Processes) (l : ProcessLabel) (h : ¬ s.mayBreak l = true) :
    s.Tended good l := by
  cases l with
  | step p memory =>
    intro _
    constructor
    · rintro rfl hhead
      exact h (by simp [mayBreak, hhead])
    · intro w hhead
      exact absurd (by simp [mayBreak, hhead]) h
  | _ => trivial

/-- The main thread waits for its child 3, which has exited with 7. -/
theorem waitStatus_lifetime_wait :
    ∃ s : Processes, s.freed 0 = true ∧ s.myWaitStatus 3 = some 0 ∧ s.LifetimeKept := by
  obtain ⟨s, hrun, hfreed, hmine⟩ : ∃ s, Run (Guarded (Tended everyone) Step) boot
      (replicate 10 (.step 1 (some 0)) ++ [.exit 3 (some 7)] ++
        replicate 10 (.step 3 none) ++ [.wait 1 3] ++ replicate 22 (.step 1 none)) s ∧
      s.freed 0 = true ∧ s.myWaitStatus 3 = some 0 :=
    exists_run_of_execute (guarded_of_ite (fun _ _ _ => step_of_nextState) tended_of_not_mayBreak)
      (by decide +kernel)
  exact ⟨s, hfreed, hmine, waitStatus_lifetime hrun⟩

/-- The main thread waits for process 3, which exits before its child 4; that one then takes its
record out of a list that is gone. -/
theorem orphan_uses_freed_list : ∃ labels s site, Run Step boot labels s ∧
      s.next (.step 4 none) = some (.error (.undefined site)) := by
  obtain ⟨s, hrun, r, hr, rfl⟩ : ∃ s, Run Step boot (replicate 10 (.step 1 (some 0)) ++
      [.wait 1 3] ++ replicate 8 (.step 1 none) ++ [.execute 3] ++
        replicate 10 (.step 3 (some 0)) ++ [.exit 3 none] ++ replicate 27 (.step 3 none) ++
          [.exit 4 (some 7)] ++ replicate 9 (.step 4 none)) s ∧
      ∃ r ∈ s.next (.step 4 none), r = .error useAfterFree :=
    exists_run_of_execute (fun _ _ _ => step_of_nextState) (by decide +kernel)
  exact ⟨_, s, _, hrun, hr⟩

end Processes

end CS162
