import CS162.Userprog.Queues
import CS162.Userprog.Records

/-!
# process_wait delivers each exit status once

A process `p` that does not exit waits for its children.  The first `process_wait` on a
child returns after the child has called `sema_up` in `process_exit`, with the status the
child has passed to `k_exit`; every other one returns -1 without a `sema_down`.

## Strategy

* **The history.**  `Pending p c` reads off the history whether `p` has still to return
  from its first wait for `c`; `Law p` says what each return has to look like, given the
  history before it.
* **The invariant.**  `Waits p` says that a child is pending as long as its record is in
  the list of `p` or `p` is on its way back from the wait for it (`pending`), and what the
  wait that `p` is in will return (`result`).
* **No lost wake-up.**  By `Queues.lean` `p` sleeps on a child's semaphore only while its
  value is 0, and by the protocol of `WaitStatus.lean` it is not once the child has exited.
-/

namespace CS162

open Library Function List

/-! ## Histories -/

/-- The thread an event is about. -/
def ProcessEvent.actor : ProcessEvent → Tid
  | created p _ => p
  | exiting t _ | exited t | dropped t _ | freed t _ => t
  | returned p _ _ _ => p

/-- Process `p` has created child `c` and has not returned from a wait for it since. -/
def Pending (p c : Tid) (history : List ProcessEvent) : Prop :=
  ∃ before after, history = before ++ .created p c :: after ∧
    ∀ status waited, .returned p c status waited ∉ after

section History

variable {p c : Tid} {history events : List ProcessEvent} {e : ProcessEvent}

theorem pending_concat : Pending p c (history ++ [e]) ↔ e = .created p c ∨
      (Pending p c history ∧ ∀ status waited, e ≠ .returned p c status waited) := by
  constructor
  · rintro ⟨before, after, heq, hnone⟩
    rcases eq_nil_or_concat' after with rfl | ⟨after, last, rfl⟩
    · exact .inl (singleton_inj.mp (append_inj' heq rfl).2)
    right
    rw [← cons_append, ← append_assoc] at heq
    obtain ⟨hhistory, hlast⟩ := append_inj' heq rfl
    simp only [mem_append, mem_singleton, not_or] at hnone
    refine ⟨⟨before, after, hhistory, fun status waited => (hnone status waited).1⟩, ?_⟩
    intro status waited he
    exact (hnone status waited).2 (he ▸ singleton_inj.mp hlast)
  · rintro (rfl | ⟨⟨before, after, rfl, hnone⟩, hne⟩)
    · exact ⟨history, [], rfl, by simp⟩
    · refine ⟨before, after ++ [e], by simp, ?_⟩
      intro status waited hmem
      rcases mem_append.mp hmem with hold | hnew
      · exact hnone status waited hold
      · exact hne status waited (mem_singleton.mp hnew).symm

theorem pending_append (hcreated : .created p c ∉ events)
    (hreturned : ∀ status waited, .returned p c status waited ∉ events) :
    Pending p c (history ++ events) ↔ Pending p c history := by
  induction events using reverseRecOn with
  | nil => rw [append_nil]
  | append_singleton events e ih =>
    simp only [mem_append, mem_singleton, not_or] at hcreated hreturned
    rw [← append_assoc, pending_concat,
      ih hcreated.1 fun status waited => (hreturned status waited).1]
    constructor
    · rintro (heq | ⟨hpending, _⟩)
      · exact absurd heq.symm hcreated.2
      · exact hpending
    · intro hpending
      exact .inr ⟨hpending, fun status waited => Ne.symm (hreturned status waited).2⟩

theorem Pending.created (h : Pending p c history) : .created p c ∈ history := by
  obtain ⟨before, after, rfl, _⟩ := h
  simp

/-- What a return from `process_wait (tid)` has to be, after the given history: for a
child that has not been waited for, the status it has passed to `k_exit`, or -1 if it has
ended without; otherwise -1 without waiting. -/
def WaitLaw (p : Tid) (history : List ProcessEvent) (tid status : ℤ) (waited : Bool) : Prop :=
  (∀ c : Tid, tid = c → Pending p c history →
    waited = true ∧ .exited c ∈ history ∧ (∃ code, .exiting c code ∈ history) ∧
      ∀ code, .exiting c code ∈ history → status = code.getD (-1)) ∧
  ((∀ c : Tid, tid = c → ¬ Pending p c history) → waited = false ∧ status = -1)

/-- Every return of process `p` from `process_wait` is as it has to be. -/
def Law (p : Tid) (history : List ProcessEvent) : Prop :=
  ∀ before tid status waited, before ++ [.returned p tid status waited] <+: history →
    WaitLaw p before tid status waited

theorem Law.concat (h : Law p history)
    (he : ∀ tid status waited, e = .returned p tid status waited →
      WaitLaw p history tid status waited) : Law p (history ++ [e]) := by
  intro before tid status waited hprefix
  rcases prefix_concat_iff.mp hprefix with heq | hold
  · obtain ⟨rfl, hlast⟩ := append_inj' heq rfl
    exact he tid status waited (singleton_inj.mp hlast).symm
  · exact h before tid status waited hold

theorem Law.append (h : Law p history)
    (hevents : ∀ tid status waited, .returned p tid status waited ∉ events) :
    Law p (history ++ events) := by
  induction events using reverseRecOn with
  | nil => rwa [append_nil]
  | append_singleton events e ih =>
    simp only [mem_append, mem_singleton, not_or] at hevents
    rw [← append_assoc]
    apply (ih fun tid status waited => (hevents tid status waited).1).concat
    intro tid status waited heq
    exact absurd heq.symm (hevents tid status waited).2

end History

namespace Processes

variable {s u : Processes} {p q : Tid} {a : Action} {more rest : List Action} {strict : Prop}
  {c t : Tid} {r w : RecordId}

theorem Logs.actor {e : ProcessEvent} (h : s.Logs p a u e) : e.actor = p := by
  cases e with
  | exiting t code => exact h.elim
  | _ => exact h.1

/-! ## The invariant -/

/-- What `process_wait` will return. -/
def Result (s : Processes) (p : Tid) (tid status : ℤ) : Bool → Prop
  | true => ∃ c r, tid = (c : Tid) ∧ s.myWaitStatus c = some r ∧ s.owner r = p ∧ s.Exited c ∧
      s.Exiting c ∧ (∀ code, .exiting c code ∈ s.history → status = code.getD (-1)) ∧
      (focus (s.prog p) = .dropping r ∨ s.Dropped p r)
  | false => status = -1 ∧ ∀ c : Tid, tid = c → ¬ Pending p c s.history

/-- The waits of process `p` are on the right way. -/
structure Waits (p : Tid) (s : Processes) : Prop where
  staying : ¬ s.Exiting p
  created : ∀ c, .created p c ∈ s.history → ∃ r, s.myWaitStatus c = some r ∧ s.owner r = p
  pending : ∀ c r, s.myWaitStatus c = some r → s.owner r = p →
    (Pending p c s.history ↔ r ∈ s.children p ∨ ∃ status, .returnWait c status true ∈ s.prog p)
  reading : ∀ r (tid : ℤ), .readExitCode r tid ∈ s.prog p →
    ∃ c : Tid, s.myWaitStatus c = some r ∧ tid = c
  giving : ∀ r, .decRef r ∈ s.prog p ∨ .testRef r ∈ s.prog p ∨ .removeChild r ∈ s.prog p →
    ∃ (c : Tid) (status : ℤ), s.myWaitStatus c = some r ∧ .returnWait c status true ∈ s.prog p
  result : ∀ tid status waited, .returnWait tid status waited ∈ s.prog p →
    s.Result p tid status waited
  law : Law p s.history

theorem waits_boot : boot.Waits p where
  staying := by rintro ⟨code, he⟩; cases he
  created c he := by cases he
  pending c r h := by simp at h
  reading r tid h := by
    simp only [boot] at h
    split at h <;> simp at h
  giving r h := by
    simp only [boot] at h
    split at h <;> simp at h
  result tid status waited h := by
    simp only [boot] at h
    split at h <;> simp at h
  law before tid status waited h := by
    simp at h

/-! ## Steps of other threads -/

/-- A step of another thread: `p` keeps its list and its program, and the new events and
links are not its own. -/
theorem Waits.other (h : s.Waits p) (events : List ProcessEvent) (hprog : u.prog p = s.prog p)
    (hchildren : u.children p = s.children p) (hhistory : u.history = s.history ++ events)
    (hactor : ∀ e ∈ events, e.actor ≠ p)
    (hexiting : ∀ c code, s.Exiting c → .exiting c code ∉ events)
    (hkept : ∀ c r, s.myWaitStatus c = some r → u.myWaitStatus c = some r ∧ u.owner r = s.owner r)
    (hnew : ∀ c r, u.myWaitStatus c = some r → u.owner r = p → s.myWaitStatus c = some r) :
    u.Waits p := by
  have hgrows : ∀ e ∈ s.history, e ∈ u.history := by
    intro e he
    rw [hhistory]
    exact mem_append_left _ he
  have hevent : ∀ e ∈ u.history, e.actor = p → e ∈ s.history := by
    intro e he hp
    rw [hhistory] at he
    rcases mem_append.mp he with hold | hnew
    · exact hold
    · exact absurd hp (hactor e hnew)
  have hpending : ∀ c, Pending p c u.history ↔ Pending p c s.history := by
    intro c
    rw [hhistory]
    exact pending_append (fun he => hactor _ he rfl) fun _ _ he => hactor _ he rfl
  constructor
  case staying =>
    rintro ⟨code, he⟩
    exact h.staying ⟨code, hevent _ he rfl⟩
  case created =>
    intro c he
    obtain ⟨r, hc, howner⟩ := h.created c (hevent _ he rfl)
    obtain ⟨hc', howner'⟩ := hkept c r hc
    exact ⟨r, hc', howner'.trans howner⟩
  case pending =>
    intro c r hc howner
    have hold := hnew c r hc howner
    rw [hpending c, hchildren, hprog]
    exact h.pending c r hold ((hkept c r hold).2.symm.trans howner)
  case reading =>
    intro r tid hmem
    rw [hprog] at hmem
    obtain ⟨c, hc, htid⟩ := h.reading r tid hmem
    exact ⟨c, (hkept c r hc).1, htid⟩
  case giving =>
    intro r hmem
    rw [hprog] at hmem ⊢
    obtain ⟨c, status, hc, hreturn⟩ := h.giving r hmem
    exact ⟨c, status, (hkept c r hc).1, hreturn⟩
  case result =>
    intro tid status waited hmem
    rw [hprog] at hmem
    have hresult := h.result tid status waited hmem
    cases waited with
    | false => exact ⟨hresult.1, fun c hc => (hpending c).not.mpr (hresult.2 c hc)⟩
    | true =>
      obtain ⟨c, r, htid, hc, howner, hexited, ⟨code, hcode⟩, hstatus, hdropped⟩ := hresult
      obtain ⟨hc', howner'⟩ := hkept c r hc
      refine ⟨c, r, htid, hc', howner'.trans howner, hgrows _ hexited, ⟨code, hgrows _ hcode⟩,
        ?_, ?_⟩
      · intro code' he
        rw [hhistory] at he
        rcases mem_append.mp he with hold | hnew
        · exact hstatus code' hold
        · exact absurd hnew (hexiting c code' ⟨code, hcode⟩)
      · rw [hprog]
        exact hdropped.imp_right (hgrows _)
  case law =>
    rw [hhistory]
    exact h.law.append fun _ _ _ he => hactor _ he rfl

theorem Waits.effect_other (h : s.Waits p) (hsound : s.Sound (· = p)) (hs : s.Structured strict)
    (hprog : s.prog q = a :: rest) (heffect : Effect s q a u more) (hq : q ≠ p) :
    (u.setProg q (more ++ rest)).Waits p := by
  obtain ⟨events, hhistory, hevents⟩ := heffect.history
  refine h.other events ?_ (hsound.children_other hs hprog heffect rfl hq.symm) hhistory ?_
    (fun _ _ _ => hevents _) ?_ ?_
  · simp [hq.symm, heffect.prog]
  · intro e he
    rwa [(hevents e he).actor]
  · intro c r hc
    have hkept := hs.my_kept heffect hc
    exact ⟨hkept, heffect.grows.owner r (hs.mine c r hc).1⟩
  · intro c r hc howner
    rcases heffect.my_new hc with hold | ⟨_, rfl, _, hrecord⟩
    · exact hold
    · exact absurd ((hs.recordForChild_owner hrecord).1.symm.trans howner) hq

/-! ## Steps of the process -/

section Own

variable (h : s.Waits p) (hsound : s.Sound (· = p)) (hs : s.Structured strict)
  (hprog : s.prog p = a :: rest) (heffect : Effect s p a u more) (htends : s.Tends p a u)
  (halive : s.alive p = true)

include h hs hprog halive in
theorem Waits.die_not_mem : .die ∉ rest := by
  intro hdie
  apply h.staying
  rw [hs.exiting p halive, hprog]
  exact mem_cons_of_mem a hdie

include hsound hs in
/-- The search of `process_wait` finds the record of the child. -/
theorem Sound.childWith_iff (hidle : ¬ (focus (s.prog p)).Adding) (tid : ℤ) :
    s.childWith p tid = some r ↔
      ∃ c : Tid, tid = c ∧ s.myWaitStatus c = some r ∧ r ∈ s.children p := by
  have hlinked : ∀ r ∈ s.children p, ∃ c ps cs, s.myWaitStatus c = some r ∧
      AtStage (s.view c r) c r ps cs :=
    fun r hr => hsound.linked (hs.children_owner p r hr) rfl hidle
  constructor
  · intro hfind
    have hmem := childWith_mem hfind
    obtain ⟨c, ps, cs, hc, hfits⟩ := hlinked r hmem
    have htid : (s.waitStatus r).tid = tid := by simpa using find?_some hfind
    exact ⟨c, htid.symm.trans hfits.tid, hc, hmem⟩
  rintro ⟨c, rfl, hc, hmem⟩
  obtain ⟨c', ps, cs, hc', hfits⟩ := hlinked r hmem
  have hgood : s.owner r = p := (hs.children_owner p r hmem).1
  obtain rfl := hsound.unique c c' r hc hc' hgood
  have htid : (s.waitStatus r).tid = c := hfits.tid
  cases hfind : s.childWith p c with
  | none =>
    have hnone := find?_eq_none.mp hfind r hmem
    simp [htid] at hnone
  | some w =>
    -- the record found has the same child
    have hw := childWith_mem hfind
    obtain ⟨d, _, _, hd, hfits'⟩ := hlinked w hw
    have htid' : (s.waitStatus w).tid = (c : ℤ) := by simpa using find?_some hfind
    have hdc : (d : ℤ) = c := hfits'.tid.symm.trans htid'
    obtain rfl : d = c := by exact_mod_cast hdc
    exact hd.symm.trans hc

include h hsound hs in
/-- `process_wait` finds a record exactly for a pending child. -/
theorem Waits.search {tid : ℤ} (hfind : s.prog p = .findChild tid :: rest) :
    (∃ r, s.childWith p tid = some r) ↔ ∃ c : Tid, tid = c ∧ Pending p c s.history := by
  obtain ⟨hfocus, rfl⟩ := (hs.sequenced_of hfind).1
  have hidle : ¬ (focus (s.prog p)).Adding := by
    rw [hfind, focus, show aim (.findChild tid) = none from rfl, hfocus]
    simp
  constructor
  · rintro ⟨r, hr⟩
    obtain ⟨c, htid, hc, hlisted⟩ := (hsound.childWith_iff hs hidle tid).mp hr
    exact ⟨c, htid, (h.pending c r hc (hs.children_owner p r hlisted).1).mpr (.inl hlisted)⟩
  rintro ⟨c, htid, hpending⟩
  obtain ⟨r, hc, howner⟩ := h.created c hpending.created
  rcases (h.pending c r hc howner).mp hpending with hlisted | ⟨status, hreturn⟩
  · exact ⟨r, (hsound.childWith_iff hs hidle tid).mpr ⟨c, htid, hc, hlisted⟩⟩
  · rw [hfind] at hreturn
    simp at hreturn

include hsound in
/-- When the process reads the exit code, the child has exited and its code is the one it
has passed to `k_exit`. -/
theorem Sound.at_reading (hc : s.myWaitStatus c = some r) (howner : s.owner r = p)
    (hfocus : focus (s.prog p) = .reading r) :
    r ∈ s.children p ∧ s.Exited c ∧ s.Exiting c ∧
      ∀ code, .exiting c code ∈ s.history → (s.waitStatus r).exitCode = code.getD (-1) := by
  subst howner
  obtain ⟨ps, cs, hfits⟩ := hsound.links c r hc rfl
  obtain ⟨rfl, rfl⟩ : ps = .held ∧ cs = .exited := by simpa using hfits.parent_of hfocus
  refine ⟨hfits.listed.mpr (.inl rfl), hfits.exited.mpr rfl, hfits.exiting.mpr (by simp), ?_⟩
  intro code hcode
  apply hfits.exitCode code hcode
  intro k hleaving
  simpa using hfits.child_of hleaving

include hsound in
/-- A process that has given its reference up and is done with it has removed the record. -/
theorem Sound.gone_of_dropped (hc : s.myWaitStatus c = some r) (howner : s.owner r = p)
    (hfocus : focus (s.prog p) = .idle) (hdropped : s.Dropped p r) : r ∉ s.children p := by
  subst howner
  intro hlisted
  obtain ⟨ps, cs, hfits⟩ := hsound.links c r hc rfl
  have hps : ps = .held ∨ ps = .gone := by simpa using hfits.parent_of hfocus
  have hnotHeld : ps ≠ .held := hfits.parentDropped.mp hdropped
  have hgone : ps = .gone := hps.resolve_left hnotHeld
  have hin : ps = .held ∨ ps = .given := hfits.listed.mp hlisted
  rw [hgone] at hin
  simp at hin

include heffect in
theorem Effect.mem_returnWait (hread : ∀ r tid, a ≠ .readExitCode r tid)
    (hreturn : ∀ tid status waited, a ≠ .returnWait tid status waited) (tid status : ℤ) :
    .returnWait tid status true ∈ more ++ rest ↔ .returnWait tid status true ∈ a :: rest := by
  cases heffect with
  | findChild tid => cases s.childWith p tid <;> simp
  | readExitCode r tid => exact absurd rfl (hread r tid)
  | testRef r => unfold releaseRecord; split <;> simp
  | testLoop r => unfold releaseInLoop; split <;> simp
  | returnWait tid status waited => exact absurd rfl (hreturn tid status waited)
  | _ => simp

include heffect in
/-- Only `thread_create` and the end of `process_wait` change what is pending. -/
theorem Effect.pending_iff (q c : Tid) (hcreate : a ≠ .threadCreate)
    (hreturn : ∀ tid status waited, a ≠ .returnWait tid status waited) :
    Pending q c u.history ↔ Pending q c s.history := by
  obtain ⟨events, hhistory, hevents⟩ := heffect.history
  rw [hhistory]
  exact pending_append (fun he => hcreate (hevents _ he).2.1)
    fun status waited he => hreturn c status waited (hevents _ he).2

include h hsound hs hprog heffect htends in
/-- A child stays pending until the process has returned from the wait for it. -/
theorem Waits.pending_effect (hc : u.myWaitStatus c = some r) (howner : u.owner r = p) :
    Pending p c u.history ↔
      r ∈ u.children p ∨ ∃ status, .returnWait c status true ∈ more ++ rest := by
  have hfollows := (hs.sequenced_of hprog).1
  have hold : s.myWaitStatus c = some r → (r ∈ u.children p ↔ r ∈ s.children p) →
      (Pending p c u.history ↔ Pending p c s.history) → (∀ r tid, a ≠ .readExitCode r tid) →
      (∀ tid status waited, a ≠ .returnWait tid status waited) →
      (Pending p c u.history ↔
        r ∈ u.children p ∨ ∃ status, .returnWait c status true ∈ more ++ rest) := by
    intro hmine hlisted hpending hread hreturn
    have howner' : s.owner r = p := by
      rwa [← heffect.grows.owner r (hs.mine c r hmine).1]
    have hbefore := h.pending c r hmine howner'
    rw [hprog] at hbefore
    simp only [hpending, hlisted, heffect.mem_returnWait hread hreturn]
    exact hbefore
  have hsame := heffect.pending_iff p c
  cases heffect with
  | raise q _ | wake q _ _ _ _ | decRef w | free w =>
    exact hold hc Iff.rfl (hsame (by simp) (by simp)) (by simp) (by simp)
  | pushChild w =>
    have hne : r ≠ w := by
      rintro rfl
      exact hsound.pushing p r rfl (by rw [hprog]; rfl) c hc
    exact hold hc (by simp [hne]) Iff.rfl (by simp) (by simp)
  | threadCreate =>
    by_cases hnew : c = s.nextTid
    · subst hnew
      have hrecord : s.recordForChild p = some r := by simpa using hc
      exact ⟨fun _ => .inl (hs.recordForChild_owner hrecord).2,
        fun _ => pending_concat.mpr (.inl rfl)⟩
    · refine hold (by simpa [hnew] using hc) Iff.rfl ?_ (by simp) (by simp)
      simp [pending_concat, Ne.symm hnew]
  | readExitCode w tid =>
    obtain ⟨d, hd, rfl⟩ := h.reading w tid (hprog ▸ mem_cons_self)
    have hbefore := h.pending c r hc howner
    rw [hprog] at hbefore
    by_cases hdc : c = d
    · subst hdc
      obtain rfl : r = w := Option.some_injective _ (hc.symm.trans hd)
      have hlisted : r ∈ s.children p := (hsound.at_reading hc howner (by rw [hprog]; rfl)).1
      exact ⟨fun _ => .inl hlisted, fun _ => hbefore.mpr (.inl hlisted)⟩
    · have hcast : (c : ℤ) ≠ d := by exact_mod_cast hdc
      simpa [hcast] using hbefore
  | removeChild w hmem =>
    by_cases hw : r = w
    · subst hw
      obtain ⟨d, status, hd, hreturn⟩ :=
        h.giving r (.inr (.inr (hprog ▸ mem_cons_self)))
      obtain rfl := hsound.unique c d r hc hd howner
      have hpending := (h.pending c r hc howner).mpr (.inr ⟨status, hreturn⟩)
      rw [hprog] at hreturn
      exact ⟨fun _ => .inr ⟨status, by simpa using hreturn⟩, fun _ => hpending⟩
    · refine hold hc ?_ Iff.rfl (by simp) (by simp)
      by_cases hq : p = s.owner w
      · subst hq
        simp [mem_erase_of_ne hw]
      · simp [hq]
  | returnWait tid status waited =>
    have hbefore := h.pending c r hc howner
    obtain rfl : rest = [] := hfollows.2
    have hresult := h.result tid status waited (hprog ▸ mem_cons_self)
    rw [hprog] at hbefore
    by_cases htid : tid = c
    · subst htid
      have hgone : r ∉ s.children p := by
        intro hlisted
        cases waited with
        | false => exact hresult.2 c rfl (hbefore.mpr (.inl hlisted))
        | true =>
          obtain ⟨d, w, hcd, hd, _, _, _, _, hdropped⟩ := hresult
          obtain rfl : c = d := by exact_mod_cast hcd
          obtain rfl : r = w := Option.some_injective _ (hc.symm.trans hd)
          have hidle : focus (s.prog p) = .idle := by
            rw [hprog]
            rfl
          rw [hidle] at hdropped
          exact hsound.gone_of_dropped hc howner hidle (hdropped.resolve_left (by simp)) hlisted
      simp [pending_concat, hgone]
    · have hother : Pending p c s.history ↔ r ∈ s.children p := by
        simpa [Ne.symm htid] using hbefore
      simp [pending_concat, htid, hother]
  | _ => exact hold hc Iff.rfl Iff.rfl (by simp) (by simp)

include h hsound hs hprog heffect htends in
theorem Waits.created_effect (hcreated : .created p c ∈ u.history) :
    ∃ r, u.myWaitStatus c = some r ∧ u.owner r = p := by
  rcases heffect.logged hcreated with hold | ⟨_, rfl, rfl, _⟩
  · obtain ⟨r, hc, howner⟩ := h.created c hold
    exact ⟨r, hs.my_kept heffect hc, (heffect.grows.owner r (hs.mine c r hc).1).trans howner⟩
  · obtain ⟨r, _, hrecord⟩ := hsound.recordForChild_creating hs rfl (by rw [hprog]; rfl)
    rw [htends.create rfl]
    exact ⟨r, by simp [hrecord], (hs.recordForChild_owner hrecord).1⟩

include h hsound hs hprog heffect in
theorem Waits.reading_effect {tid : ℤ} (hmem : .readExitCode r tid ∈ more ++ rest) :
    ∃ c : Tid, u.myWaitStatus c = some r ∧ tid = c := by
  have hfollows := (hs.sequenced_of hprog).1
  rcases mem_append.mp hmem with hmore | hrest
  · cases heffect with
    | findChild tid' =>
      cases hfind : s.childWith p tid' with
      | none => simp [hfind] at hmore
      | some w =>
        obtain ⟨rfl, rfl⟩ : r = w ∧ tid = tid' := by simpa [hfind] using hmore
        have hidle : ¬ (focus (s.prog p)).Adding := by
          rw [hprog, focus, show aim (.findChild tid) = none from rfl, hfollows.1]
          simp
        obtain ⟨c, htid, hc, _⟩ := (hsound.childWith_iff hs hidle tid).mp hfind
        exact ⟨c, hc, htid⟩
    | testRef w =>
      unfold releaseRecord at hmore
      split at hmore <;> simp at hmore
    | testLoop w =>
      unfold releaseInLoop at hmore
      split at hmore <;> simp at hmore
    | _ => simp at hmore
  · obtain ⟨c, hc, htid⟩ := h.reading r tid (hprog ▸ mem_cons_of_mem a hrest)
    exact ⟨c, hs.my_kept heffect hc, htid⟩

include h hs hprog heffect halive in
theorem Waits.giving_effect
    (hmem : .decRef r ∈ more ++ rest ∨ .testRef r ∈ more ++ rest ∨ .removeChild r ∈ more ++ rest) :
    ∃ (c : Tid) (status : ℤ), u.myWaitStatus c = some r ∧
      .returnWait c status true ∈ more ++ rest := by
  have hfollows := (hs.sequenced_of hprog).1
  have hdie := h.die_not_mem hs hprog halive
  have hold : (.decRef r ∈ a :: rest ∨ .testRef r ∈ a :: rest ∨ .removeChild r ∈ a :: rest) →
      rest ≠ [] → ∃ (c : Tid) (status : ℤ), u.myWaitStatus c = some r ∧
        .returnWait c status true ∈ more ++ rest := by
    intro hmem hne
    obtain ⟨c, status, hc, hreturn⟩ := h.giving r (by rw [hprog]; exact hmem)
    rw [hprog] at hreturn
    refine ⟨c, status, hs.my_kept heffect hc, mem_append_right _ ?_⟩
    rcases mem_cons.mp hreturn with rfl | hrest
    · exact absurd hfollows.2 hne
    · exact hrest
  by_cases hrest : .decRef r ∈ rest ∨ .testRef r ∈ rest ∨ .removeChild r ∈ rest
  · refine hold ?_ ?_
    · exact hrest.imp (mem_cons_of_mem a) (Or.imp (mem_cons_of_mem a) (mem_cons_of_mem a))
    · rintro rfl
      simp at hrest
  have hmore : .decRef r ∈ more ∨ .testRef r ∈ more ∨ .removeChild r ∈ more := by
    simp only [not_or] at hrest
    simpa [hrest] using hmem
  cases heffect with
  | findChild tid =>
    cases hfind : s.childWith p tid <;> simp [hfind] at hmore
  | readExitCode w tid =>
    obtain ⟨c, hc, rfl⟩ := h.reading w tid (hprog ▸ mem_cons_self)
    obtain rfl : r = w := by simpa using hmore
    exact ⟨c, (s.waitStatus r).exitCode, hc, by simp⟩
  | testRef w =>
    obtain rfl : r = w := by
      unfold releaseRecord at hmore
      split at hmore
      · simpa using hmore
      · simp at hmore
    apply hold (.inr (.inl mem_cons_self))
    rintro rfl
    obtain ⟨c, status, _, hreturn⟩ :=
      h.giving r (.inr (.inl (hprog ▸ mem_cons_self)))
    rw [hprog] at hreturn
    simp at hreturn
  | testLoop w | exitLoop w => exact absurd hfollows.2 hdie
  | _ => simp at hmore

include hs hprog heffect in
/-- The process gives its reference up before it turns to anything else. -/
theorem Structured.dropping_effect (hfocus : focus (a :: rest) = .dropping r)
    (hrest : rest ≠ []) : focus (more ++ rest) = .dropping r ∨ u.Dropped p r := by
  have hfollows := (hs.sequenced_of hprog).1
  cases heffect with
  | decRef w =>
    cases hfocus
    right
    simp
  | newRecord garbage | findChild tid => exact absurd hfollows.2 hrest
  | exitBegin => cases hfollows.1.symm.trans hfocus
  | take q _ | raise q _ | wake q _ _ _ _ => cases q <;> simp_all
  | sleep q _ => exact .inl hfocus
  | _ => simp_all

include h hsound hs hprog heffect in
/-- What `process_wait` will return stays what it has to be. -/
theorem Waits.result_effect {tid status : ℤ} {waited : Bool}
    (hmem : .returnWait tid status waited ∈ more ++ rest) :
    (u.setProg p (more ++ rest)).Result p tid status waited := by
  have hfollows := (hs.sequenced_of hprog).1
  have hgrows := heffect.grows
  have hfocus' : focus ((u.setProg p (more ++ rest)).prog p) = focus (more ++ rest) := by simp
  by_cases hrest : .returnWait tid status waited ∈ rest
  · have hne : rest ≠ [] := ne_nil_of_mem hrest
    have hresult := h.result tid status waited (hprog ▸ mem_cons_of_mem a hrest)
    cases waited with
    | false =>
      refine ⟨hresult.1, fun c hc hpending => hresult.2 c hc ?_⟩
      -- neither `thread_create` nor the end of a wait stands before this return
      refine (heffect.pending_iff p c ?_ ?_).mp hpending
      · rintro rfl
        exact hne hfollows.2
      · rintro _ _ _ rfl
        exact hne hfollows.2
    | true =>
      obtain ⟨c, r, htid, hc, howner, hexited, ⟨code, hcode⟩, hstatus, hdropped⟩ := hresult
      have hkept := hs.my_kept heffect hc
      refine ⟨c, r, htid, hkept, (hgrows.owner r (hs.mine c r hc).1).trans howner,
        hgrows.history _ hexited, ⟨code, hgrows.history _ hcode⟩, ?_, ?_⟩
      · intro code' he
        exact hstatus code' ((heffect.mem_exiting c code').mp he)
      · rw [hfocus']
        rcases hdropped with hfocus | hdropped
        · rw [hprog] at hfocus
          exact (hs.dropping_effect hprog heffect hfocus hne :)
        · exact .inr (hgrows.history _ hdropped)
  · have hmore := (mem_append.mp hmem).resolve_right hrest
    cases heffect with
    | findChild tid' =>
      cases hfind : s.childWith p tid' with
      | some w => simp [hfind] at hmore
      | none =>
        obtain ⟨rfl, rfl, rfl⟩ : tid = tid' ∧ status = -1 ∧ waited = false := by
          simpa [hfind] using hmore
        refine ⟨rfl, fun c hc hpending => ?_⟩
        obtain ⟨r, hr⟩ := (h.search hsound hs hprog).mpr ⟨c, hc, hpending⟩
        rw [hfind] at hr
        cases hr
    | readExitCode w tid' =>
      obtain ⟨c, hc, rfl⟩ := h.reading w tid' (hprog ▸ mem_cons_self)
      obtain ⟨rfl, rfl, rfl⟩ : tid = c ∧ status = (s.waitStatus w).exitCode ∧ waited = true := by
        simpa using hmore
      have howner : s.owner w = p := (hs.role_head hprog).1
      obtain ⟨_, hexited, hexiting, hstatus⟩ := hsound.at_reading hc howner (by rw [hprog]; rfl)
      exact ⟨c, w, rfl, hc, howner, hexited, hexiting, hstatus, .inl (by rw [hfocus']; rfl)⟩
    | testRef w =>
      unfold releaseRecord at hmore
      split at hmore <;> simp at hmore
    | testLoop w =>
      unfold releaseInLoop at hmore
      split at hmore <;> simp at hmore
    | _ => simp at hmore

include h hprog heffect in
theorem Waits.law_effect : Law p u.history := by
  by_cases hreturn : ∃ tid status waited, a = .returnWait tid status waited
  · obtain ⟨tid, status, waited, rfl⟩ := hreturn
    have hmem : .returnWait tid status waited ∈ s.prog p := hprog ▸ mem_cons_self
    have hresult := h.result tid status waited hmem
    cases heffect
    apply h.law.concat
    rintro _ _ _ ⟨⟩
    cases waited with
    | false =>
      obtain ⟨hstatus, hnot⟩ := hresult
      exact ⟨fun c hc hpending => absurd hpending (hnot c hc), fun _ => ⟨rfl, hstatus⟩⟩
    | true =>
      obtain ⟨c, r, rfl, hc, howner, hexited, hexiting, hstatus, _⟩ := hresult
      have hpending := (h.pending c r hc howner).mpr (.inr ⟨status, hmem⟩)
      refine ⟨fun d hd _ => ?_, fun hnot => absurd hpending (hnot c rfl)⟩
      obtain rfl : c = d := by exact_mod_cast hd
      exact ⟨rfl, hexited, hexiting, hstatus⟩
  · obtain ⟨events, hhistory, hevents⟩ := heffect.history
    rw [hhistory]
    apply h.law.append
    intro tid status waited he
    exact hreturn ⟨tid, status, waited, (hevents _ he).2⟩

include h hsound hs hprog heffect htends halive in
/-- **Every action of the process keeps its waits on the right way.** -/
theorem Waits.effect_self : (u.setProg p (more ++ rest)).Waits p where
  staying := by
    intro hexiting
    exact h.staying ((heffect.exiting_iff p).mp hexiting)
  created c hcreated := (h.created_effect hsound hs hprog heffect htends hcreated :)
  pending c r hc howner := by
    have hpending := h.pending_effect hsound hs hprog heffect htends hc howner
    simpa using hpending
  reading r tid hmem := by
    simp only [setProg, update_self] at hmem
    exact (h.reading_effect hsound hs hprog heffect hmem :)
  giving r hmem := by
    simp only [setProg, update_self] at hmem ⊢
    exact h.giving_effect hs hprog heffect halive hmem
  result tid status waited hmem := by
    simp only [setProg, update_self] at hmem
    exact h.result_effect hsound hs hprog heffect hmem
  law := (h.law_effect hprog heffect :)

end Own

/-- The action does not stand after the `sema_down` of `process_wait`. -/
@[simp] def BeforeDown : Action → Prop
  | .readExitCode _ _ | .decRef _ | .testRef _ | .removeChild _ | .returnWait _ _ _ => False
  | _ => True

theorem Waits.call_self (h : s.Waits p) (huser : s.InUser p) {actions : List Action}
    (hactions : ∀ a ∈ actions, BeforeDown a) : (s.setProg p actions).Waits p := by
  constructor
  case staying => exact h.staying
  case created => exact h.created
  case pending =>
    intro c r hc howner
    have hpending := h.pending c r hc howner
    rw [huser.2] at hpending
    have hnone : ∀ status, Action.returnWait c status true ∉ actions :=
      fun status => hactions _
    simpa [hnone] using hpending
  case reading =>
    intro r tid hmem
    simp only [setProg, update_self] at hmem
    exact (hactions _ hmem).elim
  case giving =>
    intro r hmem
    simp only [setProg, update_self] at hmem
    rcases hmem with hmem | hmem | hmem <;> exact (hactions _ hmem).elim
  case result =>
    intro tid status waited hmem
    simp only [setProg, update_self] at hmem
    exact (hactions _ hmem).elim
  case law => exact h.law

theorem Waits.call_other (h : s.Waits p) (hs : s.Structured strict) (huser : s.InUser q)
    (hq : q ≠ p) (actions : List Action) (events : List ProcessEvent)
    (hevents : ∀ e ∈ events, ∃ code, e = .exiting q code) :
    { s.setProg q actions with history := s.history ++ events }.Waits p := by
  refine h.other events ?_ rfl rfl ?_ ?_ (fun c r hc => ⟨hc, rfl⟩) (fun c r hc _ => hc)
  · simp [hq.symm]
  · intro e he
    obtain ⟨code, rfl⟩ := hevents e he
    exact hq
  · intro c code hexiting he
    obtain ⟨code', ⟨⟩⟩ := hevents _ he
    exact hs.not_exiting huser hexiting

/-! ## Waits over whole runs -/

/-- The condition on a step: process `p` does not exit, and its calls of `thread_create`
succeed. -/
def Attends (p : Tid) (s : Processes) : ProcessLabel → Prop
  | .exit q _ => q ≠ p
  | .step q memory => q = p → memory = none → (s.prog p).head? ≠ some .threadCreate
  | _ => True

/-- The waits of process `p` are as they should be. -/
structure WaitsDeliver (p : Tid) (s : Processes) : Prop where
  /-- Every return from `process_wait`, given the history before it. -/
  returned : ∀ before tid status waited,
    before ++ [.returned p tid status waited] <+: s.history → WaitLaw p before tid status waited
  /-- The search of `process_wait` finds a record, and goes on to `sema_down`, exactly for a
  child that has not been waited for. -/
  searched : ∀ tid rest, s.prog p = .findChild tid :: rest →
    ((s.childWith p tid).isSome ↔ ∃ c : Tid, tid = c ∧ Pending p c s.history)
  /-- The process does not sleep on a child that has exited. -/
  woken : ∀ c r rest, s.myWaitStatus c = some r → s.prog p = .semaDown (.exited r) :: rest →
    s.Exited c → s.status p = .ready ∧ (s.waitStatus r).sema.value ≠ 0

/-- What holds in every state of a run with the waits of `p`. -/
structure Attended (p : Tid) (s : Processes) : Prop where
  structured : s.Structured False
  sound : s.Sound (· = p)
  waits : s.Waits p
  queued : s.Queued p

theorem attended_boot : boot.Attended p :=
  ⟨structured_boot, sound_boot, waits_boot, queued_boot⟩

theorem Attended.call (h : s.Attended p) (huser : s.InUser q) (actions : List Action)
    (hactions : ∀ a ∈ actions, BeforeDown a) :
    (s.setProg q actions).Waits p ∧ (s.setProg q actions).Queued p := by
  refine ⟨?_, h.queued.call h.structured huser actions s.history⟩
  by_cases hq : q = p
  · subst hq
    exact h.waits.call_self huser hactions
  · have hcall := h.waits.call_other h.structured huser hq actions [] (by simp)
    rwa [append_nil] at hcall

theorem Attended.step (h : s.Attended p) {l : ProcessLabel} {t : Processes}
    (hattends : s.Attends p l) (hstep : s.Step l t) : t.Attended p := by
  have hstructured : t.Structured False := h.structured.step False.elim hstep
  cases moves_of_step hstep with
  | execute huser =>
    obtain ⟨hwaits, hqueued⟩ := h.call huser processExecute (by simp)
    exact ⟨hstructured, h.sound.call_idle huser rfl, hwaits, hqueued⟩
  | wait tid huser =>
    obtain ⟨hwaits, hqueued⟩ := h.call huser (processWait tid) (by simp)
    exact ⟨hstructured, h.sound.call_idle huser rfl, hwaits, hqueued⟩
  | exit code huser =>
    exact ⟨hstructured, h.sound.call_exit h.structured huser code,
      h.waits.call_other h.structured huser hattends _ [.exiting _ code] (by simp),
      h.queued.call h.structured huser _ _⟩
  | @step q memory a _ _ u hrun hprog heffect =>
    have heffect' := Effect.of_effect heffect
    have htends : q = p → s.Tends q a u := by
      rintro rfl
      have hdie := h.waits.die_not_mem h.structured hprog hrun.1
      refine ⟨?_, ?_⟩
      · rintro rfl
        cases memory with
        | none => exact absurd (by rw [hprog]; rfl) (hattends rfl rfl)
        | some garbage =>
          cases heffect
          rfl
      · rintro w rfl
        exact absurd (h.structured.sequenced_of hprog).1.2 hdie
    refine ⟨hstructured, h.sound.effect h.structured hprog heffect' htends, ?_,
      h.queued.effect h.structured hprog hrun.2 heffect'⟩
    by_cases hq : q = p
    · subst hq
      exact h.waits.effect_self h.sound h.structured hprog heffect' (htends rfl) hrun.1
    · exact h.waits.effect_other h.sound h.structured hprog heffect' hq

theorem Attended.waitsDeliver (h : s.Attended p) : s.WaitsDeliver p where
  returned := h.waits.law
  searched tid rest hprog := by
    rw [← h.waits.search h.sound h.structured hprog, Option.isSome_iff_exists]
  woken c r rest hc hprog hexited := by
    obtain ⟨rfl, hr⟩ : s.Owns p r := h.structured.role_head hprog
    obtain ⟨ps, cs, hfits⟩ := h.sound.links c r hc rfl
    have hfocus : (s.view c r).parent = .waiting r := by
      rw [view, hprog]
      rfl
    have hps : ps = .held := by simpa using hfits.parent_of hfocus
    have hcs : cs = .exited := hfits.exited.mp hexited
    have hvalue : (s.waitStatus r).sema.value ≠ 0 := hfits.ready hcs hps (.inr hfocus)
    refine ⟨?_, hvalue⟩
    cases hstatus : s.status (s.owner r) with
    | ready => rfl
    | blocked =>
      have hmem := h.queued.listed (s.owner r) r hstatus (by rw [hprog]; rfl)
      exact absurd (h.queued.value r rfl (ne_nil_of_mem hmem)) hvalue

/-- **process_wait delivers each exit status once.**  In every interleaving of the steps of
any number of processes in which `p` does not exit and its `process_execute` calls succeed,
the first `process_wait` of `p` on a child returns after the child's `process_exit` has
called `sema_up`, with the status of the child, and every other one returns -1 without
waiting. -/
theorem process_wait_delivers (p : Tid) {labels : List ProcessLabel} {s : Processes}
    (hrun : Run (Guarded (Attends p) Step) boot labels s) : s.WaitsDeliver p := by
  have h : s.Attended p := hrun.invariant attended_boot fun _ _ _ h hstep => h.step hstep.1 hstep.2
  exact h.waitsDeliver

/-- The steps that could break the condition on the waits of the main thread. -/
def mayLeave (s : Processes) : ProcessLabel → Bool
  | .exit q _ => q = 1
  | .step q memory => q = 1 && memory.isNone && (s.prog 1).head? = some .threadCreate
  | _ => false

theorem attends_of_not_mayLeave (s : Processes) (l : ProcessLabel) (h : ¬ s.mayLeave l = true) :
    s.Attends 1 l := by
  cases l with
  | exit q code =>
    show q ≠ 1
    simpa [mayLeave] using h
  | step q memory =>
    rintro rfl rfl hhead
    exact h (by simp [mayLeave, hhead])
  | _ => trivial

/-- The main thread waits twice for its child 3, which exits with 7 in between. -/
theorem process_wait_delivers_twice :
    ∃ s : Processes, s.history.filter (fun e => e matches .returned _ _ _ _) =
      [.returned 1 3 7 true, .returned 1 3 (-1) false] ∧ s.WaitsDeliver 1 := by
  obtain ⟨s, hrun, hreturned⟩ : ∃ s, Run (Guarded (Attends 1) Step) boot
      (replicate 10 (.step 1 (some 0)) ++ [.wait 1 3] ++ replicate 8 (.step 1 none) ++
        [.exit 3 (some 7)] ++ replicate 10 (.step 3 none) ++
        replicate 16 (.step 1 none) ++ [.wait 1 3] ++ replicate 8 (.step 1 none)) s ∧
      s.history.filter (fun e => e matches .returned _ _ _ _) =
        [.returned 1 3 7 true, .returned 1 3 (-1) false] :=
    exists_run_of_execute (guarded_of_ite (fun _ _ _ => step_of_nextState) attends_of_not_mayLeave)
      (by decide +kernel)
  exact ⟨s, hreturned, process_wait_delivers 1 hrun⟩

end Processes

end CS162
