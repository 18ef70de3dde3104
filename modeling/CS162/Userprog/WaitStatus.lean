import CS162.Userprog.Structure

/-!
# The life of a wait_status record

A record has two references, the parent's and the child's.  The parent gives its
reference up in `process_wait` or in the loop of `process_exit`, the child in its own
`process_exit`, and whoever finds `ref_count` 0 frees the record.  The child still calls
`sema_up` on the record after it has given its reference up.

## Strategy

* **The stages.**  `ParentStage` and `ChildStage` tell how far the two sides of one
  record have come.  `AtStage` ties them to what can be seen of the record (`View`): its
  fields, the events in the history, its place in the list, and what parent and child
  are about to do.
* **The protocol.**  There is one lemma per action on the record, about views alone.

The parent gets past `held` only when the child has exited: in `process_wait` through
the semaphore, in `process_exit` by the condition `Tended` on the run.
-/

namespace CS162

/-- How far the parent has come with a record. -/
inductive ParentStage where
  /-- It has its reference. -/
  | held
  /-- It has given its reference up; the record is still in the list. -/
  | given
  /-- The record is no longer in the list. -/
  | removed
  /-- The record is freed. -/
  | gone
  deriving DecidableEq

/-- How far the child has come with a record. -/
inductive ChildStage where
  | running
  /-- It is on its way through `thread_exit` and has its reference. -/
  | leaving
  /-- It has given its reference up. -/
  | dropped
  /-- It has called `sema_up`. -/
  | exited
  deriving DecidableEq

/-- The reference the parent has. -/
def ParentStage.refs : ParentStage → ℤ
  | held => 1
  | _ => 0

/-- The reference the child has. -/
def ChildStage.refs : ChildStage → ℤ
  | running | leaving => 1
  | dropped | exited => 0

/-- The record a thread is working on. -/
@[simp] def Focus.record : Focus → Option RecordId
  | pushing r | waiting r | reading r | leaving r _ | dropping r | testing r | removing r
  | freeing r | publishing r => some r
  | idle | creating | looping _ => none

/-- What the parent can be doing at a stage. -/
@[simp] def parentFits (r : RecordId) (ps : ParentStage) (cs : ChildStage) (f : Focus) : Prop :=
  if f.record = some r then
    match f with
    | .waiting _ => ps = .held
    | .reading _ | .dropping _ => ps = .held ∧ cs = .exited
    | .testing _ | .removing _ => ps = .given
    | .freeing _ => ps = .removed
    | _ => False
  else ps = .held ∨ ps = .gone

/-- What the child can be doing at a stage. -/
@[simp] def childFits (r : RecordId) (cs : ChildStage) (f : Focus) : Prop :=
  if f.record = some r then
    match f with
    | .leaving _ _ | .dropping _ => cs = .leaving
    | .testing _ | .publishing _ => cs = .dropped
    | _ => False
  else cs = .running ∨ cs = .exited

/-- What can be seen of a record with its parent and its child. -/
structure View where
  tid : ℤ
  refCount : ℤ
  value : UInt32
  exitCode : ℤ
  parentDropped : Prop
  childDropped : Prop
  listed : Prop
  freed : Prop
  exiting : Option ℤ → Prop
  exited : Prop
  parent : Focus
  child : Focus

/-- The record looks as it does at these stages. -/
structure AtStage (v : View) (c : Tid) (r : RecordId) (ps : ParentStage) (cs : ChildStage) :
    Prop where
  tid : v.tid = c
  refCount : v.refCount = ps.refs + cs.refs
  value : v.value ≠ 0 → cs = .exited
  parentDropped : v.parentDropped ↔ ps ≠ .held
  listed : v.listed ↔ ps = .held ∨ ps = .given
  freed : v.freed ↔ ps = .gone
  exiting : (∃ code, v.exiting code) ↔ cs ≠ .running
  childDropped : v.childDropped ↔ cs = .dropped ∨ cs = .exited
  exited : v.exited ↔ cs = .exited
  order : ps ≠ .held → cs = .exited
  ready : cs = .exited → ps = .held → v.parent.record ≠ some r ∨ v.parent = .waiting r → v.value ≠ 0
  parent : parentFits r ps cs v.parent
  child : childFits r cs v.child
  running_exitCode : cs = .running → v.exitCode = -1
  leaving_code : ∀ code k, v.exiting code → v.child = .leaving r k → code = some k
  exitCode : ∀ code, v.exiting code → (∀ k, v.child ≠ .leaving r k) → v.exitCode = code.getD (-1)

/-! ## The protocol of one record -/

namespace AtStage

variable {v : View} {c : Tid} {r : RecordId} {ps : ParentStage} {cs : ChildStage} {f : Focus}

theorem parentFits_away (hf : f.record ≠ some r) :
    parentFits r ps cs f ↔ ps = .held ∨ ps = .gone := by
  unfold parentFits
  rw [if_neg hf]

theorem childFits_away (hf : f.record ≠ some r) :
    childFits r cs f ↔ cs = .running ∨ cs = .exited := by
  unfold childFits
  rw [if_neg hf]

/-- Until the child has exited, what the parent does fits every stage of the child. -/
theorem parentFits_held (h : parentFits r .held cs f) (hcs : cs ≠ .exited) (cs' : ChildStage) :
    parentFits r .held cs' f := by
  unfold parentFits at h ⊢
  split at h
  · rename_i hrecord
    split at h <;> simp_all
  · rename_i hrecord
    rwa [if_neg hrecord]

section

variable (h : AtStage v c r ps cs)
include h

theorem of_eq {v' : View} (hv : v' = v) : AtStage v' c r ps cs :=
  hv ▸ h

theorem parent_of (hf : v.parent = f) : parentFits r ps cs f :=
  hf ▸ h.parent

theorem child_of (hf : v.child = f) : childFits r cs f :=
  hf ▸ h.child

theorem held_of_not_exited (hcs : cs ≠ .exited) : ps = .held := by
  by_contra hne
  exact hcs (h.order hne)

theorem value_eq_zero (hcs : cs ≠ .exited) : v.value = 0 := by
  by_contra hne
  exact hcs (h.value hne)

/-- The exit code is there if the child is not about to store it. -/
theorem exitCode_kept (hbefore : ∀ k, v.child ≠ .leaving r k) :
    ∀ code, v.exiting code → (∀ k, f ≠ .leaving r k) → v.exitCode = code.getD (-1) :=
  fun code hcode _ => h.exitCode code hcode hbefore

/-- The parent turns to something else that does not concern the record. -/
theorem parentAway (hbefore : v.parent.record ≠ some r)
    (hf : f.record ≠ some r) : AtStage { v with parent := f } c r ps cs :=
  { h with
    ready := fun hcs hps _ => h.ready hcs hps (.inl hbefore)
    parent := (parentFits_away hf).mpr ((parentFits_away hbefore).mp h.parent) }

/-- The child turns to something else that does not concern the record. -/
theorem childAway (hbefore : v.child.record ≠ some r)
    (hf : f.record ≠ some r) : AtStage { v with child := f } c r ps cs :=
  { h with
    child := (childFits_away hf).mpr ((childFits_away hbefore).mp h.child)
    leaving_code := by
      rintro code k _ rfl
      exact absurd rfl hf
    exitCode := h.exitCode_kept fun k hk => by
      rw [hk] at hbefore
      exact absurd rfl hbefore }

/-- `process_wait` has found the record. -/
theorem find (hbefore : v.parent.record ≠ some r) (hlisted : v.listed) :
    AtStage { v with parent := .waiting r } c r .held cs := by
  have hheld : ps = .held := by
    rcases (parentFits_away hbefore).mp h.parent with hps | hps
    · exact hps
    · rw [hps] at h
      simpa using h.listed.mp hlisted
  subst hheld
  exact { h with
    ready := fun hcs _ _ => h.ready hcs rfl (.inl hbefore)
    parent := by simp }

/-- The `sema_down` of `process_wait` returns: the child has exited. -/
theorem down (hbefore : v.parent = .waiting r) (hvalue : v.value ≠ 0)
    (value : UInt32) :
    AtStage { v with value := value, parent := .reading r } c r .held .exited := by
  have hps : ps = .held := by simpa using h.parent_of hbefore
  have hcs : cs = .exited := h.value hvalue
  subst hps hcs
  exact { h with
    value := fun _ => rfl
    ready := by simp
    parent := by simp }

/-- The parent has read the exit code and goes on to give its reference up. -/
theorem read (hbefore : v.parent = .reading r) :
    AtStage { v with parent := .dropping r } c r ps cs :=
  { h with
    ready := by simp
    parent := by
      simpa using h.parent_of hbefore }

/-- The loop of `process_exit` comes to the record. -/
theorem loop (hbefore : v.parent.record ≠ some r) (hlisted : v.listed)
    (hexited : v.exited) : AtStage { v with parent := .dropping r } c r .held .exited := by
  have hfind := h.find hbefore hlisted
  have hcs : cs = .exited := h.exited.mp hexited
  subst hcs
  exact { hfind with
    ready := by simp
    parent := by simp }

/-- The parent gives its reference up. -/
theorem parentDrop (hbefore : v.parent = .dropping r) :
    AtStage { v with refCount := v.refCount - 1, parentDropped := True, parent := .testing r } c r
      .given .exited := by
  obtain ⟨rfl, rfl⟩ : ps = .held ∧ cs = .exited := by simpa using h.parent_of hbefore
  exact { h with
    refCount := by simp [h.refCount, ParentStage.refs]
    parentDropped := by simp
    listed := by simpa using h.listed
    freed := by simpa using h.freed
    order := fun _ => rfl
    ready := fun _ hps => by cases hps
    parent := by simp }

/-- The parent was the last to give its reference up. -/
theorem refCount_parent (hbefore : v.parent = .testing r) : v.refCount = 0 := by
  have hps : ps = .given := by simpa using h.parent_of hbefore
  have hcs : cs = .exited := h.order (by simp [hps])
  rw [h.refCount, hps, hcs]
  rfl

theorem parentTest (hbefore : v.parent = .testing r) :
    AtStage { v with parent := .removing r } c r ps cs :=
  { h with
    ready := by simp
    parent := by
      simpa using h.parent_of hbefore }

/-- The parent takes the record out of its list. -/
theorem remove (hbefore : v.parent = .removing r) :
    AtStage { v with listed := False, parent := .freeing r } c r .removed .exited := by
  have hps : ps = .given := by simpa using h.parent_of hbefore
  have hcs : cs = .exited := h.order (by simp [hps])
  subst hps hcs
  exact { h with
    refCount := h.refCount
    parentDropped := by simpa using h.parentDropped
    listed := by simp
    freed := by simpa using h.freed
    order := fun _ => rfl
    ready := fun _ hps => by cases hps
    parent := by simp }

theorem free (hbefore : v.parent = .freeing r) (hf : f.record ≠ some r) :
    AtStage { v with freed := True, parent := f } c r .gone .exited := by
  have hps : ps = .removed := by simpa using h.parent_of hbefore
  have hcs : cs = .exited := h.order (by simp [hps])
  subst hps hcs
  exact { h with
    refCount := h.refCount
    parentDropped := by simpa using h.parentDropped
    listed := by simpa using h.listed
    freed := by simp
    order := fun _ => rfl
    ready := fun _ hps => by cases hps
    parent := (parentFits_away hf).mpr (.inr rfl) }

/-- The child calls `thread_exit`. -/
theorem childExit (hexiting : ¬ ∃ code, v.exiting code) (code : Option ℤ)
    (hf : f = match code with | some k => .leaving r k | none => .dropping r) :
    AtStage { v with exiting := fun k => k = code, child := f } c r ps .leaving := by
  have hcs : cs = .running := by
    by_contra hne
    exact hexiting (h.exiting.mpr hne)
  have hps : ps = .held := h.held_of_not_exited (by simp [hcs])
  subst hcs hps
  have hvalue : v.value = 0 := h.value_eq_zero (by simp)
  exact { h with
    refCount := h.refCount
    value := fun hne => absurd hvalue hne
    exiting := by simp
    childDropped := by simpa using h.childDropped
    exited := by simpa using h.exited
    order := fun hne => absurd rfl hne
    ready := nofun
    parent := parentFits_held h.parent (by simp) _
    child := by
      rw [hf]
      cases code <;> simp
    running_exitCode := nofun
    leaving_code := by
      rintro code k rfl hleaving
      rw [hf] at hleaving
      cases code with
      | none => cases hleaving
      | some k' =>
        cases hleaving
        rfl
    exitCode := by
      rintro code rfl hnot
      cases code with
      | none => exact h.running_exitCode rfl
      | some k => exact absurd hf (hnot k) }

/-- `k_exit` stores the exit code. -/
theorem childCode {k : ℤ} (hbefore : v.child = .leaving r k) :
    AtStage { v with exitCode := k, child := .dropping r } c r ps cs := by
  have hcs : cs = .leaving := by simpa using h.child_of hbefore
  subst hcs
  exact { h with
    child := by simp
    running_exitCode := nofun
    leaving_code := by
      intro code k' _ hleaving
      cases hleaving
    exitCode := by
      intro code hcode _
      rw [h.leaving_code code k hcode hbefore]
      rfl }

/-- The child gives its reference up. -/
theorem childDrop (hbefore : v.child = .dropping r) :
    AtStage { v with refCount := v.refCount - 1, childDropped := True, child := .testing r } c r
      .held .dropped := by
  have hcs : cs = .leaving := by simpa using h.child_of hbefore
  have hps : ps = .held := h.held_of_not_exited (by simp [hcs])
  subst hcs hps
  have hvalue : v.value = 0 := h.value_eq_zero (by simp)
  exact { h with
    refCount := by simp [h.refCount, ChildStage.refs]
    value := fun hne => absurd hvalue hne
    exiting := by simpa using h.exiting
    childDropped := by simp
    exited := by simpa using h.exited
    order := fun hne => absurd rfl hne
    ready := nofun
    parent := parentFits_held h.parent (by simp) _
    child := by simp
    running_exitCode := nofun
    leaving_code := fun _ _ _ hleaving => by cases hleaving
    exitCode := h.exitCode_kept (by simp [hbefore]) }

theorem value_publishing (hbefore : v.child = .publishing r) : v.value = 0 := by
  have hcs : cs = .dropped := by simpa using h.child_of hbefore
  exact h.value_eq_zero (by simp [hcs])

/-- The child is never the last to give its reference up. -/
theorem refCount_child (hbefore : v.child = .testing r) : v.refCount = 1 := by
  have hcs : cs = .dropped := by simpa using h.child_of hbefore
  have hps : ps = .held := h.held_of_not_exited (by simp [hcs])
  rw [h.refCount, hps, hcs]
  rfl

theorem childTest (hbefore : v.child = .testing r) :
    AtStage { v with child := .publishing r } c r ps cs :=
  { h with
    child := by
      simpa using h.child_of hbefore
    leaving_code := fun _ _ _ hleaving => by cases hleaving
    exitCode := h.exitCode_kept (by simp [hbefore]) }

/-- The child calls `sema_up`. -/
theorem childUp (hbefore : v.child = .publishing r)
    (hf : f.record ≠ some r) {value : UInt32} (hvalue : value ≠ 0) :
    AtStage { v with value := value, exited := True, child := f } c r .held .exited := by
  have hcs : cs = .dropped := by simpa using h.child_of hbefore
  have hps : ps = .held := h.held_of_not_exited (by simp [hcs])
  subst hcs hps
  exact { h with
    refCount := h.refCount
    value := fun _ => rfl
    exiting := by simpa using h.exiting
    childDropped := by simpa using h.childDropped
    exited := by simp
    order := fun hne => absurd rfl hne
    ready := fun _ _ _ => hvalue
    parent := parentFits_held h.parent (by simp) _
    child := (childFits_away hf).mpr (.inr rfl)
    running_exitCode := nofun
    leaving_code := by
      rintro code k _ rfl
      exact absurd rfl hf
    exitCode := h.exitCode_kept (by simp [hbefore]) }

end

end AtStage

end CS162
