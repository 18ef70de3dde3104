import CS162.Userprog.Focus

/-!
# Who works on which record

What holds of the threads, their lists and their records however the processes behave: a
thread works on records it has allocated, as a parent, or on the record it has from its
parent, as a child; lists have no duplicates; events name threads and records that exist.
-/

namespace CS162

open Function List

namespace Processes

variable {s u : Processes} {p : Tid} {a : Action} {more rest : List Action} {strict : Prop}

/-! ## Roles -/

@[simp] def Dropped (s : Processes) (t : Tid) (r : RecordId) : Prop := .dropped t r ∈ s.history

def Exiting (s : Processes) (t : Tid) : Prop := ∃ code, .exiting t code ∈ s.history

@[simp] def Exited (s : Processes) (t : Tid) : Prop := .exited t ∈ s.history

def Owns (s : Processes) (t : Tid) (r : RecordId) : Prop := s.owner r = t ∧ r < s.nextRecord

/-- A thread works on the records it has allocated, as a parent, and until its `sema_up`
on its own record, as a child. -/
def Role (s : Processes) (t : Tid) (prog : List Action) : Action → Prop
  | .pushChild r | .semaDown (.exited r) | .readExitCode r _ | .testLoop r => s.Owns t r
  | .exitLoop e => ∀ r, e = some r → s.Owns t r
  | .setExitCode r _ | .semaUp (.exited r) => s.myWaitStatus t = some r
  | .decRef r | .testRef r | .removeChild r | .free r =>
    s.Owns t r ∨ (s.myWaitStatus t = some r ∧ .semaUp (.exited r) ∈ prog)
  | _ => True

/-- The threads and records an event names exist. -/
def Known (s : Processes) : ProcessEvent → Prop
  | .created p c => p < s.nextTid ∧ c < s.nextTid
  | .exiting t _ | .exited t | .returned t _ _ _ => t < s.nextTid
  | .dropped t r | .freed t r => t < s.nextTid ∧ r < s.nextRecord

/-- What holds of the threads, lists and records however the processes behave. -/
structure Structured (strict : Prop) (s : Processes) : Prop where
  sequenced : ∀ t, Sequenced strict (s.prog t)
  role : ∀ t, ∀ a ∈ s.prog t, s.Role t (s.prog t) a
  children_owner : ∀ p, ∀ r ∈ s.children p, s.Owns p r
  children_nodup : ∀ p, (s.children p).Nodup
  pushing : ∀ p r, focus (s.prog p) = .pushing r → r ∉ s.children p
  mine : ∀ c r, s.myWaitStatus c = some r → r < s.nextRecord ∧ c < s.nextTid ∧ s.owner r < c
  unborn : ∀ t, s.nextTid ≤ t → s.prog t = [] ∧ s.alive t = false ∧ s.children t = []
  known : ∀ e ∈ s.history, s.Known e
  exiting : ∀ t, s.alive t = true → (s.Exiting t ↔ .die ∈ s.prog t)

theorem structured_boot : boot.Structured strict where
  sequenced t := by
    simp only [boot]
    split
    · exact sequenced_processExecute
    · trivial
  role t a ha := by
    simp only [boot] at ha
    split at ha
    · rcases mem_pair.mp ha with rfl | rfl <;> trivial
    · simp at ha
  children_owner p r hr := by simp at hr
  children_nodup p := nodup_nil
  pushing p r _ := by simp
  mine c r h := by simp at h
  unborn t ht := by
    have hne : t ≠ 1 := fun h => absurd ht (by rw [h]; decide)
    simp [hne]
  known e he := by simp at he
  exiting t _ := by
    simp only [Exiting, boot]
    split <;> simp

/-! ## What only grows -/

/-- Counters, event lists and the names of records and threads in use only grow. -/
structure Grows (s u : Processes) : Prop where
  nextRecord : s.nextRecord ≤ u.nextRecord
  nextTid : s.nextTid ≤ u.nextTid
  owner : ∀ r < s.nextRecord, u.owner r = s.owner r
  mine : ∀ t < s.nextTid, u.myWaitStatus t = s.myWaitStatus t
  history : ∀ e ∈ s.history, e ∈ u.history

theorem Effect.grows (h : Effect s p a u more) : s.Grows u := by
  cases h with
  | newRecord garbage =>
    refine ⟨Nat.le_succ _, le_rfl, ?_, fun _ _ => rfl, fun _ h => h⟩
    intro r hr
    exact update_of_ne (ne_of_lt hr) _ _
  | threadCreate =>
    refine ⟨le_rfl, Nat.le_succ _, fun _ _ => rfl, ?_, fun _ => mem_append_left _⟩
    intro t ht
    exact update_of_ne (ne_of_lt ht) _ _
  | raise q _ | wake q _ _ _ _ | decRef r | free r | returnWait tid status waited =>
    exact ⟨le_rfl, le_rfl, fun _ _ => rfl, fun _ _ => rfl, fun _ => mem_append_left _⟩
  | _ => exact ⟨le_rfl, le_rfl, fun _ _ => rfl, fun _ _ => rfl, fun _ h => h⟩

variable {t : Tid} {r : RecordId}

theorem Grows.owns (h : s.Grows u) (howns : s.Owns t r) : u.Owns t r :=
  ⟨(h.owner r howns.2).trans howns.1, lt_of_lt_of_le howns.2 h.nextRecord⟩

theorem Grows.known (h : s.Grows u) {e : ProcessEvent} (he : s.Known e) : u.Known e := by
  have htid := h.nextTid
  have hrecord := h.nextRecord
  cases e with
  | created p c => exact ⟨lt_of_lt_of_le he.1 htid, lt_of_lt_of_le he.2 htid⟩
  | dropped t r | freed t r =>
    exact ⟨lt_of_lt_of_le he.1 htid, lt_of_lt_of_le he.2 hrecord⟩
  | _ => exact lt_of_lt_of_le he htid

/-- A role is kept as long as the `sema_up` it may depend on is still to come. -/
theorem Grows.role (h : s.Grows u) (ht : t < s.nextTid) {prog prog' : List Action}
    (hup : ∀ r, .semaUp (.exited r) ∈ prog → .semaUp (.exited r) ∈ prog') {b : Action}
    (hb : s.Role t prog b) : u.Role t prog' b := by
  have hmine := h.mine t ht
  cases b with
  | semaDown q =>
    cases q with
    | lock l => trivial
    | exited r => exact h.owns hb
  | semaUp q =>
    cases q with
    | lock l => trivial
    | exited r => exact hmine.trans hb
  | pushChild r | readExitCode r tid | testLoop r => exact h.owns hb
  | exitLoop e => exact fun r hr => h.owns (hb r hr)
  | setExitCode r code => exact hmine.trans hb
  | decRef r | testRef r | removeChild r | free r =>
    exact hb.imp h.owns fun ⟨hm, hmem⟩ => ⟨hmine.trans hm, hup r hmem⟩
  | _ => trivial

/-! ## The structure is kept -/

theorem mem_listNext {list : List RecordId} {w r : RecordId} (h : listNext list w = some r) :
    r ∈ list := by
  have hmem := mem_of_mem_tail (mem_of_mem_head? h)
  exact (dropWhile_suffix _).subset hmem

theorem childWith_mem {tid : ℤ} (h : s.childWith p tid = some r) : r ∈ s.children p :=
  mem_of_find?_eq_some h

theorem Structured.sequenced_of (h : s.Structured strict) (hprog : s.prog p = a :: rest) :
    Sequenced strict (a :: rest) := hprog ▸ h.sequenced p

/-- A thread that has still something to do exists. -/
theorem Structured.lt_of_mem (h : s.Structured strict) {b : Action} (hb : b ∈ s.prog t) :
    t < s.nextTid := by
  by_contra hge
  rw [(h.unborn t (Nat.le_of_not_lt hge)).1] at hb
  cases hb

section

variable (h : s.Structured strict) (hprog : s.prog p = a :: rest)
include h hprog

theorem Structured.role_head : s.Role p (a :: rest) a := by
  have hall := h.role p a
  rw [hprog] at hall
  exact hall mem_cons_self

theorem Structured.role_more
    (heffect : Effect s p a u more) : ∀ b ∈ more, u.Role p (more ++ rest) b := by
  have hrole := h.role_head hprog
  cases heffect with
  | newRecord garbage => simp [Role, Owns]
  | sleep q _ =>
    cases q with
    | lock l => simp [Role]
    | exited r => exact forall_mem_singleton.mpr hrole
  | findChild tid =>
    cases hfind : s.childWith p tid with
    | none => simp [Role]
    | some r =>
      have howns := h.children_owner p r (childWith_mem hfind)
      simp [Role, howns]
  | readExitCode r tid =>
    have howns : s.Owns p r := hrole
    simp [Role, howns]
  | testRef r =>
    have hkept : s.Owns p r ∨ (s.myWaitStatus p = some r ∧ .semaUp (.exited r) ∈ rest) :=
      hrole.imp_right fun ⟨hm, hmem⟩ => ⟨hm, by simpa using hmem⟩
    unfold releaseRecord
    split <;> simp [Role, hkept]
  | testLoop r =>
    have howns : s.Owns p r := hrole
    unfold releaseInLoop
    split <;> simp [Role, howns]
  | exitBegin =>
    have hhead : ∀ r, (s.children p).head? = some r → s.Owns p r :=
      fun r hr => h.children_owner p r (mem_of_mem_head? hr)
    simpa [Role] using hhead
  | exitLoop w =>
    have howns : s.Owns p w := hrole w rfl
    have hnext : ∀ r, listNext (s.children p) w = some r → s.Owns p r :=
      fun r hr => h.children_owner p r (mem_listNext hr)
    simpa [Role, howns] using hnext
  | _ => simp

/-- The actions left after the first one keep their roles: no action on the own record
comes after the `sema_up` on it. -/
theorem Structured.role_rest
    (hp : p < s.nextTid) (hgrows : s.Grows u) : ∀ b ∈ rest, u.Role p (more ++ rest) b := by
  intro b hb
  have hrole : s.Role p (a :: rest) b := by
    have hall := h.role p b
    rw [hprog] at hall
    exact hall (mem_cons_of_mem a hb)
  have hseq := h.sequenced_of hprog
  by_cases hup : ∃ r, a = .semaUp (.exited r)
  · obtain ⟨r, rfl⟩ := hup
    have hidle : aim b = none := aim_of_focus_idle hseq.1.1 b hb
    cases b with
    | semaDown q | semaUp q => cases q <;> trivial
    | pushChild _ | readExitCode _ _ | testLoop _ | exitLoop _ | setExitCode _ _ | decRef _
    | testRef _ | removeChild _ | free _ => cases hidle
    | _ => trivial
  · apply hgrows.role hp _ hrole
    intro r hmem
    rcases mem_cons.mp hmem with heq | hmem
    · exact absurd ⟨r, heq.symm⟩ hup
    · exact mem_append_right _ hmem

theorem Structured.lt_nextTid : p < s.nextTid := h.lt_of_mem (hprog ▸ mem_cons_self)

end

/-- What an action may add to the history. -/
def Logs (s : Processes) (p : Tid) (a : Action) (u : Processes) : ProcessEvent → Prop
  | .created q c => q = p ∧ a = .threadCreate ∧ c = s.nextTid ∧ u.nextTid = s.nextTid + 1
  | .exiting _ _ => False
  | .exited t => t = p ∧ ∃ r, a = .semaUp (.exited r)
  | .dropped t r => t = p ∧ a = .decRef r
  | .freed t r => t = p ∧ a = .free r
  | .returned q tid status waited => q = p ∧ a = .returnWait tid status waited

section

variable (h : Effect s p a u more)
include h

theorem Effect.children (q : Tid) : u.children q = s.children q ∨
      (∃ r, a = .pushChild r ∧ q = p ∧ u.children q = r :: s.children q) ∨
      ∃ r, a = .removeChild r ∧ q = s.owner r ∧ r ∈ s.children q ∧
        u.children q = (s.children q).erase r := by
  cases h with
  | pushChild r =>
    by_cases hq : q = p
    · subst hq
      exact .inr (.inl ⟨r, rfl, rfl, update_self _ _ _⟩)
    · exact .inl (update_of_ne hq _ _)
  | removeChild r hmem =>
    by_cases hq : q = s.owner r
    · subst hq
      exact .inr (.inr ⟨r, rfl, rfl, hmem, update_self _ _ _⟩)
    · exact .inl (update_of_ne hq _ _)
  | _ => exact .inl rfl

theorem Effect.history :
    ∃ events, u.history = s.history ++ events ∧ ∀ e ∈ events, s.Logs p a u e := by
  cases h with
  | raise q _ | wake q _ _ _ _ => exact ⟨_, rfl, by cases q <;> simp [upEvents, Logs]⟩
  | threadCreate | decRef r | free r => exact ⟨_, rfl, by simp [Logs]⟩
  | returnWait tid status waited =>
    exact ⟨[.returned p tid status waited], rfl, by simp [Logs]⟩
  | _ => exact ⟨[], (append_nil _).symm, by simp⟩

theorem Effect.logged {e : ProcessEvent} (he : e ∈ u.history) : e ∈ s.history ∨ s.Logs p a u e := by
  obtain ⟨events, hhistory, hevents⟩ := h.history
  rw [hhistory] at he
  exact (mem_append.mp he).imp_right (hevents e)

theorem Effect.mem_exiting (t : Tid) (code : Option ℤ) :
    .exiting t code ∈ u.history ↔ .exiting t code ∈ s.history :=
  ⟨fun he => (h.logged he).resolve_right id, h.grows.history _⟩

theorem Effect.exiting_iff (t : Tid) : u.Exiting t ↔ s.Exiting t :=
  exists_congr (h.mem_exiting t)

/-- Only `die` ends a program that leads to the end of the thread. -/
theorem Effect.die_mem (ha : a ≠ .die) : .die ∈ more ++ rest ↔ .die ∈ a :: rest := by
  have hmore : Action.die ∉ more := by
    cases h with
    | findChild tid => cases s.childWith p tid <;> simp
    | testRef r => unfold releaseRecord; split <;> simp
    | testLoop r => unfold releaseInLoop; split <;> simp
    | _ => simp
  simp [hmore, ha.symm]

end

theorem Structured.effect (h : s.Structured strict) (hprog : s.prog p = a :: rest)
    (heffect : Effect s p a u more) (hstrict : strict → s.KeepsStrict a rest) :
    (u.setProg p (more ++ rest)).Structured strict := by
  have hp := h.lt_nextTid hprog
  have hgrows := heffect.grows
  have hseq := h.sequenced_of hprog
  constructor
  case sequenced =>
    intro t
    by_cases ht : t = p
    · simpa [ht] using heffect.sequenced hseq hstrict
    · simpa [ht, heffect.prog] using h.sequenced t
  case role =>
    intro t b hb
    by_cases ht : t = p
    · subst ht
      simp only [setProg, update_self] at hb ⊢
      rcases mem_append.mp hb with hmore | hrest
      · exact h.role_more hprog heffect b hmore
      · exact h.role_rest hprog hp hgrows b hrest
    · simp only [setProg, update_of_ne ht, heffect.prog] at hb ⊢
      exact hgrows.role (h.lt_of_mem hb) (fun _ hmem => hmem) (h.role t b hb)
  case children_owner =>
    intro q r hr
    have hr' : r ∈ u.children q := hr
    rcases heffect.children q with hsame | ⟨r', rfl, rfl, hcons⟩ | ⟨r', _, _, _, herase⟩
    · rw [hsame] at hr'
      exact hgrows.owns (h.children_owner q r hr')
    · rw [hcons] at hr'
      rcases mem_cons.mp hr' with rfl | hold
      · exact hgrows.owns (h.role_head hprog)
      · exact hgrows.owns (h.children_owner q r hold)
    · rw [herase] at hr'
      exact hgrows.owns (h.children_owner q r (mem_of_mem_erase hr'))
  case children_nodup =>
    intro q
    show (u.children q).Nodup
    rcases heffect.children q with hsame | ⟨r', rfl, rfl, hcons⟩ | ⟨r', _, _, _, herase⟩
    · rw [hsame]
      exact h.children_nodup q
    · rw [hcons]
      have hnew := h.pushing q r' (by rw [hprog]; rfl)
      exact nodup_cons.mpr ⟨hnew, h.children_nodup q⟩
    · rw [herase]
      exact (h.children_nodup q).erase r'
  case pushing =>
    intro q r hfocus hmem
    replace hmem : r ∈ u.children q := hmem
    have hold : focus (s.prog q) = .pushing r ∨
        (r = s.nextRecord ∧ u.children q = s.children q) := by
      by_cases hq : q = p
      · subst hq
        simp only [setProg, update_self] at hfocus
        rw [hprog]
        rcases heffect.focus_adding hseq (.inr ⟨r, rfl⟩) hfocus with ⟨_, hsame⟩ | ⟨rfl, hr⟩ |
          ⟨_, _, hr⟩
        · exact .inl hsame
        · cases hr
          right
          cases heffect <;> exact ⟨rfl, rfl⟩
        · cases hr
      · left
        simpa [hq, heffect.prog] using hfocus
    rcases hold with hpushing | ⟨rfl, hsame⟩
    · have hnot := h.pushing q r hpushing
      rcases heffect.children q with hsame | ⟨r', rfl, rfl, hcons⟩ | ⟨r', _, _, _, herase⟩
      · exact hnot (hsame ▸ hmem)
      · -- the record was pushed by this very action, which leaves the focus
        simp only [setProg, update_self] at hfocus
        cases heffect
        cases hseq.1.1.symm.trans hfocus
      · rw [herase] at hmem
        exact hnot (mem_of_mem_erase hmem)
    · rw [hsame] at hmem
      exact lt_irrefl _ (h.children_owner q _ hmem).2
  case mine =>
    intro c r hc
    replace hc : u.myWaitStatus c = some r := hc
    by_cases hold : c < s.nextTid
    · rw [hgrows.mine c hold] at hc
      obtain ⟨hr, htid, howner⟩ := h.mine c r hc
      refine ⟨lt_of_lt_of_le hr hgrows.nextRecord, lt_of_lt_of_le htid hgrows.nextTid, ?_⟩
      show u.owner r < c
      rwa [hgrows.owner r hr]
    have hnone : s.myWaitStatus c ≠ some r := fun hs => hold (h.mine c r hs).2.1
    cases heffect with
    | threadCreate =>
      by_cases hnew : c = s.nextTid
      · subst hnew
        have hrecord : s.recordForChild p = some r := by simpa using hc
        have hmem : r ∈ s.children p := mem_of_mem_head? (Option.filter_eq_some_iff.mp hrecord).1
        have howns := h.children_owner p r hmem
        exact ⟨howns.2, Nat.lt_succ_self _, howns.1 ▸ hp⟩
      · exact absurd (by simpa [hnew] using hc) hnone
    | _ => exact absurd hc hnone
  case unborn =>
    intro t ht
    have ht' : s.nextTid ≤ t := le_trans hgrows.nextTid ht
    obtain ⟨hnil, halive, hchildren⟩ := h.unborn t ht'
    have htp : t ≠ p := fun heq => absurd hp (by rw [← heq]; exact not_lt.mpr ht')
    refine ⟨by simpa [htp, heffect.prog] using hnil, ?_, ?_⟩
    · show u.alive t = false
      cases heffect with
      | threadCreate =>
        have hne : t ≠ s.nextTid := ne_of_gt ht
        simpa [hne] using halive
      | die => simpa [htp] using halive
      | _ => exact halive
    show u.children t = []
    rcases heffect.children t with hsame | ⟨r', _, heq, _⟩ | ⟨r', _, _, hmem, _⟩
    · rw [hsame, hchildren]
    · exact absurd heq htp
    · rw [hchildren] at hmem
      simp at hmem
  case known =>
    intro e he
    rcases heffect.logged he with hold | hnew
    · exact hgrows.known (h.known e hold)
    have hp' : p < u.nextTid := lt_of_lt_of_le hp hgrows.nextTid
    have hrole : ∀ r, a = .decRef r ∨ a = .free r → r < u.nextRecord := by
      intro r ha
      apply lt_of_lt_of_le _ hgrows.nextRecord
      have hrole := h.role_head hprog
      rcases ha with rfl | rfl
      all_goals exact hrole.elim (fun howns => howns.2) fun hm => (h.mine p r hm.1).1
    cases e with
    | created q c =>
      obtain ⟨rfl, _, rfl, htid⟩ := hnew
      exact ⟨hp', htid ▸ Nat.lt_succ_self _⟩
    | exiting t code => exact hnew.elim
    | exited t | returned t tid status waited => exact hnew.1 ▸ hp'
    | dropped t r => exact ⟨hnew.1 ▸ hp', hrole r (.inl hnew.2)⟩
    | freed t r => exact ⟨hnew.1 ▸ hp', hrole r (.inr hnew.2)⟩
  case exiting =>
    intro t ht
    show u.Exiting t ↔ _
    rw [heffect.exiting_iff t]
    by_cases htp : t = p
    · subst htp
      simp only [setProg, update_self]
      have ha : a ≠ .die := by
        rintro rfl
        cases heffect
        simp at ht
      have halive : s.alive t = true := by
        cases heffect with
        | threadCreate =>
          have hne : t ≠ s.nextTid := ne_of_lt hp
          simpa [hne] using ht
        | die => exact absurd rfl ha
        | _ => exact ht
      rw [heffect.die_mem ha, ← hprog]
      exact h.exiting t halive
    · simp only [setProg, update_of_ne htp, heffect.prog]
      by_cases halive : s.alive t = true
      · exact h.exiting t halive
      -- the thread has just been created
      have hnew : s.nextTid ≤ t := by
        cases heffect with
        | threadCreate =>
          by_contra hlt
          have hne : t ≠ s.nextTid := fun heq => hlt (le_of_eq heq.symm)
          exact halive (by simpa [hne] using ht)
        | die => exact absurd (by simpa [htp] using ht) halive
        | _ => exact absurd ht halive
      rw [(h.unborn t hnew).1]
      simp only [not_mem_nil, iff_false]
      rintro ⟨code, he⟩
      exact absurd (h.known _ he) (not_lt.mpr hnew)

theorem Structured.not_exiting (h : s.Structured strict) (huser : s.InUser p) : ¬ s.Exiting p := by
  rw [h.exiting p huser.1.1, huser.2]
  exact not_mem_nil

theorem exiting_call {events : List ProcessEvent}
    (hevents : ∀ e ∈ events, ∃ code, e = .exiting p code) {actions : List Action} {t : Tid} :
    { s.setProg p actions with history := s.history ++ events }.Exiting t ↔
      s.Exiting t ∨ (t = p ∧ events ≠ []) := by
  simp only [Exiting, mem_append, exists_or]
  refine or_congr_right ⟨?_, ?_⟩
  · rintro ⟨code, hmem⟩
    obtain ⟨_, ⟨⟩⟩ := hevents _ hmem
    exact ⟨rfl, ne_nil_of_mem hmem⟩
  · rintro ⟨rfl, hne⟩
    obtain ⟨e, he⟩ := exists_mem_of_ne_nil events hne
    obtain ⟨code, rfl⟩ := hevents e he
    exact ⟨code, he⟩

/-- A process in user mode calls `process_execute` or `process_wait`, or exits. -/
theorem Structured.call (h : s.Structured strict) (huser : s.InUser p) {actions : List Action}
    (events : List ProcessEvent) (hseq : Sequenced strict actions)
    (hrole : ∀ b ∈ actions, s.Role p actions b) (hfocus : ∀ r, focus actions ≠ .pushing r)
    (hevents : ∀ e ∈ events, ∃ code, e = .exiting p code) (hdie : .die ∈ actions ↔ events ≠ []) :
    ({ s.setProg p actions with history := s.history ++ events }).Structured strict := by
  have hp : p < s.nextTid := by
    by_contra hge
    have hdead := (h.unborn p (Nat.le_of_not_lt hge)).2.1
    rw [huser.1.1] at hdead
    cases hdead
  have hgrows : s.Grows { s.setProg p actions with history := s.history ++ events } :=
    ⟨le_rfl, le_rfl, fun _ _ => rfl, fun _ _ => rfl, fun _ => mem_append_left _⟩
  constructor
  case sequenced =>
    exact (forall_update_iff s.prog fun _ => Sequenced strict).mpr ⟨hseq, fun t _ => h.sequenced t⟩
  case role =>
    refine (forall_update_iff s.prog fun t prog => ∀ b ∈ prog, Role _ t prog b).mpr ⟨?_, ?_⟩
    · intro b hb
      exact hgrows.role hp (fun _ hmem => hmem) (hrole b hb)
    · intro t _ b hb
      exact hgrows.role (h.lt_of_mem hb) (fun _ hmem => hmem) (h.role t b hb)
  case children_owner => exact h.children_owner
  case children_nodup => exact h.children_nodup
  case pushing =>
    exact (forall_update_iff s.prog fun q prog =>
      ∀ r, focus prog = .pushing r → r ∉ s.children q).mpr
      ⟨fun r hr => absurd hr (hfocus r), fun q _ => h.pushing q⟩
  case mine => exact h.mine
  case unborn =>
    intro t ht
    obtain ⟨hnil, halive, hchildren⟩ := h.unborn t ht
    have htp : t ≠ p := fun heq => absurd hp (by rw [← heq]; exact not_lt.mpr ht)
    exact ⟨by simpa [htp] using hnil, halive, hchildren⟩
  case known =>
    intro e he
    rcases mem_append.mp he with hold | hnew
    · exact hgrows.known (h.known e hold)
    · obtain ⟨code, rfl⟩ := hevents e hnew
      exact hp
  case exiting =>
    intro t ht
    rw [exiting_call hevents]
    by_cases htp : t = p
    · subst htp
      simp [h.not_exiting huser, hdie]
    · simp [htp, h.exiting t ht]

theorem role_threadExit (s : Processes) (p : Tid) (code : Option ℤ) :
    ∀ b ∈ threadExit (s.myWaitStatus p) code, s.Role p (threadExit (s.myWaitStatus p) code) b := by
  cases hmine : s.myWaitStatus p <;> cases code <;> simp [Role, hmine]

theorem focus_threadExit (my : Option RecordId) (code : Option ℤ) (r : RecordId) :
    focus (threadExit my code) ≠ .pushing r := by
  cases my <;> cases code <;> simp

/-- What the strict structure asks of the state before a step. -/
def KeepsStrictly (s : Processes) : ProcessLabel → Prop
  | .step p _ => ∀ a rest, s.prog p = a :: rest → s.KeepsStrict a rest
  | _ => True

theorem Structured.step (h : s.Structured strict) {l : ProcessLabel} {t : Processes}
    (hstrict : strict → s.KeepsStrictly l) (hstep : s.Step l t) : t.Structured strict := by
  cases moves_of_step hstep with
  | execute huser =>
    have hcall := h.call huser [] sequenced_processExecute (by simp [Role]) (by simp) (by simp)
      (by simp)
    rwa [append_nil] at hcall
  | wait tid huser =>
    have hcall := h.call huser [] (sequenced_processWait tid) (by simp [Role]) (by simp)
      (by simp) (by simp)
    rwa [append_nil] at hcall
  | exit code huser =>
    exact h.call huser _ (sequenced_threadExit _ code) (role_threadExit s _ code)
      (focus_threadExit _ code) (by simp) (by simp)
  | step _ hprog heffect =>
    exact h.effect hprog (.of_effect heffect) fun hs => hstrict hs _ _ hprog

end Processes

end CS162
