import CS162.Library.Frame
import CS162.Userprog.Chdir

/-!
# The lock around the file system

Every handler that takes `file_lock` has to give it back before it goes back to user mode or
ends the thread, and must not take it twice.  Three paths do not give it back: `k_open` returns
as soon as the path does not resolve, and `k_read` and `k_write` call `error` for a descriptor
that is not an open file after they have taken the lock.  `handler_balanced_iff` says that there
are no others.

## Strategy

The callees leave the lock as it is (`Quiet`), whatever state the file system is in.  So each
handler is reduced to its `lock_acquire`, its tests and its `lock_release`.
-/

namespace CS162

open Library Syscall

variable {α β : Type} {k : Kernel} {user : UserMemory}

/-! ## Callees -/

/-- A fault that is not the assertion of `lock_acquire`. -/
def Foreign (e : Stop) : Prop := e ≠ .reacquired

/-- A call that neither takes nor gives back the lock. -/
abbrev Quiet (m : Sys α) : Prop := Leaves Foreign Kernel.fileLock m

theorem foreign_fault (e : Fault) : Foreign (.fault e) := nofun

theorem foreign_dangling : Foreign .dangling := nofun

theorem quiet_onHandles (m : Hs α) : Quiet (onHandles m) := by
  refine Leaves.zoom ?_ foreign_fault m
  exact fun _ _ => rfl

theorem quiet_onFiles (m : Fs α) : Quiet (onFiles m) := by
  refine Leaves.zoom ?_ foreign_fault m
  exact fun _ _ => rfl

theorem quiet_derefFile (p : Ptr) : Quiet (derefFile p) :=
  .bind .get fun k => by
    split
    · exact .pure _
    · exact .throw foreign_dangling

theorem quiet_derefDir (p : Ptr) : Quiet (derefDir p) :=
  .bind .get fun k => by
    split
    · exact .pure _
    · exact .throw foreign_dangling

theorem quiet_record (e : HandleEvent) : Quiet (record e) := .modify fun _ => rfl

theorem quiet_fileClose (p : Option Ptr) : Quiet (Syscall.fileClose p) := by
  cases p with
  | none => exact .pure ()
  | some p =>
    exact .bind (quiet_derefFile p) fun _ => .bind (quiet_onHandles _) fun _ => quiet_record _

theorem quiet_pathResolution (path : CString) : Quiet (Syscall.pathResolution path) :=
  .bind .get fun _ => quiet_onFiles _

theorem quiet_dirReopen (dir : Option Dir) : Quiet (Syscall.dirReopen dir) := by
  cases dir with
  | none => exact .throw (foreign_fault _)
  | some dir => exact quiet_onFiles _

theorem quiet_newHandle (o : FileSys.OpenFile) : Quiet (newHandle o) := by
  cases o with
  | file x | dir d => exact quiet_onHandles _

theorem quiet_filesysOpen (dir : Option Dir) (name : CString) :
    Quiet (Syscall.filesysOpen dir name) := by
  refine .bind (quiet_onFiles _) fun r => ?_
  split
  · exact .pure _
  · exact .bind (quiet_newHandle _) fun _ => .pure _
  · exact .bind (quiet_newHandle _) fun _ => .pure _

theorem quiet_install (p : Ptr) (isDir : Bool) : Quiet (install p isDir) := by
  refine .bind .get fun k => ?_
  split
  · exact .throw (foreign_fault _)
  · exact .bind (.modify fun _ => rfl) fun _ => .pure _

theorem quiet_fileRead (p : Ptr) (size : ℤ) : Quiet (fileRead p size) :=
  .bind (quiet_derefFile p) fun _ => .bind (quiet_onFiles _) fun _ =>
    .bind (quiet_onHandles _) fun _ => .pure _

theorem quiet_fileWrite (p : Ptr) (buffer : ℕ → UInt8) (size : ℤ) :
    Quiet (fileWrite p buffer size) :=
  .bind (quiet_derefFile p) fun _ => .bind (quiet_onFiles _) fun _ =>
    .bind (quiet_onHandles _) fun _ => .pure _

theorem quiet_fileLength (p : Ptr) : Quiet (fileLength p) :=
  .bind (quiet_derefFile p) fun _ => quiet_onFiles _

theorem quiet_fileSeek (p : Ptr) (newPos : ℤ) : Quiet (fileSeek p newPos) := by
  unfold fileSeek
  split
  · exact .throw (foreign_fault _)
  · exact .bind (quiet_derefFile p) fun _ => quiet_onHandles _

theorem quiet_fileTell (p : Ptr) : Quiet (fileTell p) :=
  .bind (quiet_derefFile p) fun _ => .pure _

theorem quiet_dirReaddir (p : Ptr) : Quiet (Syscall.dirReaddir p) :=
  .bind (quiet_derefDir p) fun _ => .bind (quiet_onFiles _) fun _ =>
    .bind (quiet_onHandles _) fun _ => .pure _

theorem quiet_fdEntry (fd : UInt32) : Quiet (fdEntry fd) := by
  unfold fdEntry
  split
  · exact .bind .get fun _ => .pure _
  · exact .throw (foreign_fault _)

/-! ## Handlers that do not touch the lock -/

theorem quiet_kChdir (arg : UInt32) : Quiet (kChdir user arg) := by
  refine .ite (.bind (quiet_pathResolution _) fun r => ?_) (.pure _)
  refine .ite ?_ (.bind (quiet_onFiles _) fun _ => .pure _)
  exact .bind .get fun _ => .bind (quiet_onFiles _) fun _ => .bind (quiet_dirReopen _) fun _ =>
    .bind (.modify fun _ => rfl) fun _ => .bind (quiet_onFiles _) fun _ => .pure _

theorem quiet_kReaddir (fd : UInt32) : Quiet (kReaddir fd) := by
  refine .ite (.pure _) (.bind (quiet_fdEntry fd) fun e => .ite ?_ (.pure _))
  split
  · exact .throw foreign_dangling
  · exact .bind (quiet_dirReaddir _) fun _ => .pure _

theorem quiet_kIsdir (fd : UInt32) : Quiet (kIsdir fd) :=
  .ite (.pure _) (.bind (quiet_fdEntry fd) fun _ => .pure _)

theorem quiet_kInumber (fd : UInt32) : Quiet (kInumber fd) := by
  refine .ite (.pure _) (.bind (quiet_fdEntry fd) fun e => ?_)
  split
  · exact .throw foreign_dangling
  · exact .ite (.bind (quiet_derefDir _) fun _ => .pure _)
      (.bind (quiet_derefFile _) fun _ => .pure _)

theorem quiet_load (cwd : Option Dir) (fileName : CString) (loads : Bool) :
    Quiet (Syscall.load cwd fileName loads) := by
  refine .bind (quiet_onFiles _) fun _ => .ite (.pure _) (.bind (quiet_dirReopen _) fun _ =>
    .bind (quiet_filesysOpen _ _) fun r => .bind (quiet_onFiles _) fun _ => ?_)
  split
  · exact .ite (.bind (quiet_onHandles _) fun _ => .pure _) (.pure _)
  · exact .pure _

theorem quiet_processExecute (cmdLine : CString) (loads : Bool) :
    Quiet (Syscall.processExecute cmdLine loads) := by
  refine .bind (quiet_onFiles _) fun _ => .ite (.pure _) (.bind (quiet_onFiles _) fun _ =>
    .ite (.pure _) (.bind (quiet_onFiles _) fun _ => .ite (.pure _)
      (.ite (.throw (foreign_fault _)) (.bind .get fun k => ?_))))
  split
  · refine .bind (.pure _) fun cwd => .bind (quiet_load _ _ _) fun r => ?_
    split <;> exact .pure _
  · refine .bind (quiet_onFiles _) fun cwd => .bind (quiet_load _ _ _) fun r => ?_
    split <;> exact .pure _

theorem quiet_kExec (env : Surroundings) (arg : UInt32) : Quiet (kExec user env arg) := by
  refine .ite (.pure _) (.bind (quiet_onFiles _) fun _ => .ite (.pure _)
    (.bind (quiet_processExecute _ _) fun r => ?_))
  split
  · exact .pure _
  · exact .pure _

/-! ## Handlers that take the lock -/

/-- The call does not take the lock twice, and does not hold it at its end. -/
def Balanced (m : Sys α) (k : Kernel) : Prop := Spec Foreign m k fun _ t => t.fileLock = false

theorem Balanced.of_quiet {m : Sys α} (h : Quiet m) (hk : k.fileLock = false) : Balanced m k :=
  (h k).post fun _ _ ht => ht.trans hk

theorem not_balanced {m : Sys α} (h : Returns m k fun _ t => t.fileLock = true) :
    ¬ Balanced m k := by
  intro hbalanced
  obtain ⟨a, t, hrun, ht⟩ := returns_iff.mp h
  have hfree : t.fileLock = false := hbalanced.of_run_eq hrun
  rw [ht] at hfree
  cases hfree

namespace Syscall

/-- The last two steps of a handler that has taken the lock. -/
theorem balanced_release (hk : k.fileLock = true) (a : α) : Balanced (do lockRelease; return a) k :=
  Spec.bind (lockRelease_rule hk (Spec.pure rfl))

theorem balanced_acquire_iff {f : Unit → Sys α} (hk : k.fileLock = false) :
    Balanced (lockAcquire >>= f) k ↔ Balanced (f ()) { k with fileLock := true } := by
  have hrun : lockAcquire.run k = .ok ((), { k with fileLock := true }) := by
    have hspec : Returns lockAcquire k fun _ t => t = { k with fileLock := true } :=
      lockAcquire_rule hk rfl
    obtain ⟨_, t, hrun, rfl⟩ := returns_iff.mp hspec
    exact hrun
  unfold Balanced Spec
  rw [StateT.run_bind, hrun]
  rfl

/-- The lock is taken, a callee is called, and the lock is given back. -/
theorem balanced_bracket {m : Sys α} (hm : Quiet m) (f : α → β) (hk : k.fileLock = false) :
    Balanced (do lockAcquire; let a ← m; lockRelease; return f a) k := by
  apply Spec.bind
  refine lockAcquire_rule hk ?_
  exact hm.andThen fun a t ht => balanced_release ht (f a)

theorem balanced_kCreate (arg initialSize : UInt32) (hk : k.fileLock = false) :
    Balanced (kCreate user arg initialSize) k := by
  refine .ite (fun _ => ?_) fun _ => .pure hk
  apply Spec.bind
  refine lockAcquire_rule hk ?_
  refine (quiet_pathResolution _).andThen fun r t ht => ?_
  have hcreate : ∀ created : Bool, ∀ u : Kernel, u.fileLock = true → Balanced (do
      onFiles (FileSys.dirClose r.2.1)
      lockRelease
      return SysEnd.back (some (boolWord created))) u := by
    intro created u hu
    exact (quiet_onFiles _).andThen fun _ v hv => balanced_release (hv.trans hu) _
  refine .ite (fun _ => ?_) fun _ => hcreate false t ht
  exact (quiet_onFiles _).andThen fun created u hu => hcreate created u (hu.trans ht)

theorem balanced_kRemove (arg : UInt32) (hk : k.fileLock = false) :
    Balanced (kRemove user arg) k := by
  refine .ite (fun _ => ?_) fun _ => .pure hk
  apply Spec.bind
  refine lockAcquire_rule hk ?_
  apply Spec.get_bind
  refine (quiet_dirReopen _).andThen fun dir t ht => ?_
  refine (quiet_onFiles _).andThen fun removed u hu => ?_
  refine (quiet_onFiles _).andThen fun _ v hv => ?_
  exact balanced_release (hv.trans (hu.trans ht)) _

theorem balanced_kMkdir (arg : UInt32) (hk : k.fileLock = false) :
    Balanced (kMkdir user arg) k := by
  apply Spec.bind
  refine lockAcquire_rule hk (Spec.ite (fun _ => ?_) fun _ => balanced_release rfl _)
  refine (quiet_pathResolution _).andThen fun r t ht => ?_
  have hclose : ∀ eax : Option UInt32, ∀ u : Kernel, u.fileLock = true → Balanced (do
      onFiles (FileSys.dirClose r.2.1)
      lockRelease
      return SysEnd.back eax) u := by
    intro eax u hu
    exact (quiet_onFiles _).andThen fun _ v hv => balanced_release (hv.trans hu) _
  refine .ite (fun _ => ?_) fun _ => hclose none t ht
  refine (quiet_onFiles _).andThen fun created u hu => ?_
  refine .ite (fun _ => ?_) fun _ => hclose _ u (hu.trans ht)
  exact (quiet_onFiles _).andThen fun _ v hv => hclose _ v (hv.trans (hu.trans ht))

end Syscall

/-- `k_filesize`, `k_seek`, `k_tell` and `k_close` test the descriptor before they take the
lock. -/
theorem balanced_withFile (fd : UInt32) {body : Ptr → Sys (Option UInt32)}
    (hbody : ∀ p, Quiet (body p)) (hk : k.fileLock = false) : Balanced (withFile fd body) k := by
  refine .ite (fun _ => ?_) fun _ => .pure hk
  refine (quiet_fdEntry fd).andThen fun e t ht => ?_
  split
  · exact .pure (ht.trans hk)
  · exact balanced_bracket (hbody _) _ (ht.trans hk)

/-! ## The paths that keep the lock -/

/-- `path_resolution` returns false. -/
def Unresolved (k : Kernel) (path : CString) : Prop :=
  ∃ dir name fs, (pathResolutionFrom k.process.cwd path).run k.handles.fs =
    .ok ((false, dir, name), fs)

theorem balanced_kOpen_iff (arg : UInt32) (hk : k.fileLock = false) : Balanced (kOpen user arg) k ↔
      ¬ (checkArg user arg = true ∧ Unresolved k (user.string arg.toNat)) := by
  unfold kOpen
  by_cases harg : checkArg user arg = true
  · rw [if_pos harg]
    constructor
    · rintro hbalanced ⟨-, dir, name, fs, hrun⟩
      refine not_balanced ?_ hbalanced
      apply Spec.bind
      refine lockAcquire_rule hk ?_
      apply Spec.bind
      apply Spec.get_bind
      apply onFiles_rule
      exact .of_returns (returns_iff.mpr ⟨_, fs, hrun, Spec.pure rfl⟩)
    intro hresolved
    apply Spec.bind
    refine lockAcquire_rule hk ?_
    apply Spec.bind
    apply Spec.get_bind
    apply onFiles_rule
    refine .intro (fun r fs hrun => ?_) fun e _ => foreign_fault e
    obtain ⟨success, dir, name⟩ := r
    cases success with
    | false => exact absurd ⟨harg, dir, name, fs, hrun⟩ hresolved
    | true =>
      dsimp only
      refine (quiet_filesysOpen _ _).andThen fun r t ht => ?_
      refine (quiet_onFiles _).andThen fun _ u hu => ?_
      have hlock := hu.trans ht
      cases r with
      | none => exact balanced_release hlock _
      | some r =>
        refine (quiet_install _ _).andThen fun _ v hv => ?_
        exact balanced_release (hv.trans hlock) _
  · rw [if_neg harg]
    exact iff_of_true (Spec.pure hk) fun h => harg h.1

/-- On a tree, the paths that do not resolve are those the resolution says are not valid. -/
theorem Tree.unresolved_iff {dirs : Set BlockSector} {cwd : Dir} (h : Tree k.handles.fs dirs)
    (hmem : k.handles.fs.MemAvailable) (hl : Counted k.handles.fs.openInodes)
    (hcwd : k.process.cwd = some cwd) (hdir : cwd.inode ∈ dirs)
    (hopen : (FileSys.findInode cwd.inode k.handles.fs.openInodes).isSome) (path : CString) :
    Unresolved k path ↔ (resolution (entryIn k.handles.fs.content) cwd path).valid = false := by
  have hspec := h.pathResolution_spec (E := fun _ => False) hmem hl hdir hopen path
  obtain ⟨r, fs, hrun, rfl, -⟩ := returns_iff.mp hspec
  unfold Unresolved
  rw [hcwd]
  show (∃ dir name fs, (FileSys.pathResolution cwd path).run k.handles.fs =
    .ok ((false, dir, name), fs)) ↔ _
  rw [hrun]
  simp

/-- The entry of the descriptor table. -/
def Process.entry (p : Process) (fd : UInt32) : FdEntry :=
  if h : fd.toNat < maxFileDescriptors then p.fdTable ⟨fd.toNat, h⟩ else .zero

theorem toNat_lt_of_intOfWord {w : UInt32} {n : ℕ} (hlow : 0 ≤ intOfWord w)
    (hhigh : intOfWord w < n) : w.toNat < n := by
  have hw := w.toNat_lt
  unfold intOfWord at hlow hhigh
  by_cases hsmall : w.toNat < 2147483648
  · rw [wrap32_eq (by omega) (by omega)] at hhigh
    omega
  · rw [wrap32_overflow (by omega) (by omega)] at hlow
    omega

theorem fdEntry_rule {fd : UInt32} (hfd : checkFdReadWrite fd = true) {E : Stop → Prop}
    {Q : FdEntry → Kernel → Prop} (h : Q (k.process.entry fd) k) : Spec E (fdEntry fd) k Q := by
  have hlt : fd.toNat < maxFileDescriptors := by
    rw [checkFdReadWrite, Bool.and_eq_true, decide_eq_true_eq, decide_eq_true_eq] at hfd
    exact toNat_lt_of_intOfWord hfd.1 hfd.2
  unfold fdEntry
  unfold Process.entry at h
  rw [dif_pos hlt] at h ⊢
  exact h

theorem balanced_useFile_iff {fd : UInt32} (hfd : checkFdReadWrite fd = true)
    {body : Ptr → Sys ℤ} (hbody : ∀ p, Quiet (body p)) (hk : k.fileLock = true) :
    Balanced (do
      match (← fdEntry fd).filePtr with
      | none => return SysEnd.exit
      | some fl =>
        let n ← body fl
        Syscall.lockRelease
        return SysEnd.back (some (wordOfInt n))) k ↔ (k.process.entry fd).filePtr ≠ none := by
  cases hptr : (k.process.entry fd).filePtr with
  | none =>
    refine iff_of_false (not_balanced ?_) fun h => h rfl
    apply Spec.bind
    refine fdEntry_rule hfd ?_
    rw [hptr]
    exact .pure hk
  | some fl =>
    refine iff_of_true ?_ nofun
    apply Spec.bind
    refine fdEntry_rule hfd ?_
    rw [hptr]
    exact (hbody fl).andThen fun n t ht => balanced_release (ht.trans hk) _

theorem balanced_kRead_iff (fd buffer size : UInt32) (hk : k.fileLock = false) :
    Balanced (kRead user fd buffer size) k ↔ ¬ (checkFdReadWrite fd = true ∧ size ≠ 0 ∧
      checkArg user buffer = true ∧ fd ≠ 0 ∧ (k.process.entry fd).filePtr = none) := by
  unfold kRead
  split
  next hfd =>
    split
    next hsize => exact iff_of_true (Spec.pure hk) fun h => h.2.1 hsize
    next hsize =>
      split
      next harg =>
        rw [balanced_acquire_iff hk]
        split
        next hzero => exact iff_of_true (balanced_release rfl _) fun h => h.2.2.2.1 hzero
        next hzero =>
          refine (balanced_useFile_iff hfd (fun p => quiet_fileRead p _) rfl).trans ?_
          exact ⟨fun h hall => h hall.2.2.2.2, fun h hptr => h ⟨hfd, hsize, harg, hzero, hptr⟩⟩
      next harg => exact iff_of_true (Spec.pure hk) fun h => harg h.2.2.1
  next hfd => exact iff_of_true (Spec.pure hk) fun h => hfd h.1

theorem balanced_kWrite_iff (fd buffer size : UInt32) (hk : k.fileLock = false) :
    Balanced (kWrite user fd buffer size) k ↔ ¬ (checkFdReadWrite fd = true ∧ size ≠ 0 ∧
      (0 < fd && checkArg user buffer) = true ∧ fd ≠ 1 ∧
      (k.process.entry fd).filePtr = none) := by
  unfold kWrite
  split
  next hfd =>
    split
    next hsize => exact iff_of_true (Spec.pure hk) fun h => h.2.1 hsize
    next hsize =>
      split
      next harg =>
        rw [balanced_acquire_iff hk]
        split
        next hone => exact iff_of_true (balanced_release rfl _) fun h => h.2.2.2.1 hone
        next hone =>
          refine (balanced_useFile_iff hfd (fun p => quiet_fileWrite p _ _) rfl).trans ?_
          exact ⟨fun h hall => h hall.2.2.2.2, fun h hptr => h ⟨hfd, hsize, harg, hone, hptr⟩⟩
      next harg => exact iff_of_true (Spec.pure hk) fun h => harg h.2.2.1
  next hfd => exact iff_of_true (Spec.pure hk) fun h => hfd h.1

/-! ## All system calls -/

/-- The words a system call is made with: its number and three arguments. -/
structure Request where
  number : UInt32
  a : UInt32
  b : UInt32
  c : UInt32

/-- The system calls that end with the lock held: `open` of a path that does not resolve, and
`read` and `write` with a descriptor that is not an open file. -/
def KeepsLock (k : Kernel) (user : UserMemory) (req : Request) : Prop :=
  (req.number.toNat = 6 ∧ checkArg user req.a = true ∧ Unresolved k (user.string req.a.toNat)) ∨
  (req.number.toNat = 8 ∧ checkFdReadWrite req.a = true ∧ req.c ≠ 0 ∧ checkArg user req.b = true ∧
    req.a ≠ 0 ∧ (k.process.entry req.a).filePtr = none) ∨
  (req.number.toNat = 9 ∧ checkFdReadWrite req.a = true ∧ req.c ≠ 0 ∧
    (0 < req.a && checkArg user req.b) = true ∧ req.a ≠ 1 ∧
    (k.process.entry req.a).filePtr = none)

theorem balanced_alone {m : Sys SysEnd} :
    Balanced (do return (← m, (none : Option Process))) k ↔ Balanced m k := by
  unfold Balanced Spec
  rw [StateT.run_bind]
  cases m.run k <;> rfl

theorem balanced_other {m : Sys (SysEnd × Option Process)} {req : Request} (h : Balanced m k)
    (hother : req.number.toNat ≠ 6 ∧ req.number.toNat ≠ 8 ∧ req.number.toNat ≠ 9) :
    Balanced m k ↔ ¬ KeepsLock k user req := by
  refine iff_of_true h ?_
  rintro (hkeeps | hkeeps | hkeeps)
  · exact hother.1 hkeeps.1
  · exact hother.2.1 hkeeps.1
  · exact hother.2.2 hkeeps.1

theorem balanced_dispatch_iff (env : Surroundings) (req : Request) (hk : k.fileLock = false) :
    Balanced (dispatch user env req.number req.a req.b req.c) k ↔ ¬ KeepsLock k user req := by
  have halone : ∀ {m : Sys SysEnd} {n : ℕ}, Balanced m k → req.number.toNat = n →
      n ≠ 6 ∧ n ≠ 8 ∧ n ≠ 9 → (Balanced (do return (← m, (none : Option Process))) k ↔
        ¬ KeepsLock k user req) := by
    intro m n hm hn hother
    exact balanced_other (balanced_alone.mpr hm) (hn ▸ hother)
  have hpure : ∀ r : SysEnd, Balanced (pure r) k := fun r => .pure hk
  unfold dispatch
  split
  next hn => exact halone (hpure _) hn (by decide)
  next hn => exact halone (hpure _) hn (by decide)
  next hn =>
    exact balanced_other (.of_quiet (quiet_kExec env _) hk) (hn ▸ by decide)
  next hn => exact halone (hpure _) hn (by decide)
  next hn => exact halone (balanced_kCreate _ _ hk) hn (by decide)
  next hn => exact halone (balanced_kRemove _ hk) hn (by decide)
  next hn =>
    rw [balanced_alone, balanced_kOpen_iff _ hk]
    simp [KeepsLock, hn]
  next hn =>
    refine halone (balanced_withFile _ (fun p => ?_) hk) hn (by decide)
    exact .bind (quiet_fileLength p) fun _ => .pure _
  next hn =>
    rw [balanced_alone, balanced_kRead_iff _ _ _ hk]
    simp [KeepsLock, hn]
  next hn =>
    rw [balanced_alone, balanced_kWrite_iff _ _ _ hk]
    simp [KeepsLock, hn]
  next hn =>
    refine halone (balanced_withFile _ (fun p => ?_) hk) hn (by decide)
    exact .bind (quiet_fileSeek p _) fun _ => .pure _
  next hn =>
    refine halone (balanced_withFile _ (fun p => ?_) hk) hn (by decide)
    exact .bind (quiet_fileTell p) fun _ => .pure _
  next hn =>
    refine halone (balanced_withFile _ (fun p => ?_) hk) hn (by decide)
    exact .bind (quiet_fileClose _) fun _ => .bind (.modify fun _ => rfl) fun _ => .pure _
  next hn => exact halone (hpure _) hn (by decide)
  next hn =>
    exact halone (.of_quiet (quiet_kChdir _) hk) hn (by decide)
  next hn => exact halone (balanced_kMkdir _ hk) hn (by decide)
  next hn =>
    exact halone (.of_quiet (quiet_kReaddir _) hk) hn (by decide)
  next hn =>
    exact halone (.of_quiet (quiet_kIsdir _) hk) hn (by decide)
  next hn =>
    exact halone (.of_quiet (quiet_kInumber _) hk) hn (by decide)
  next =>
    refine balanced_other (balanced_alone.mpr (hpure _)) ⟨?_, ?_, ?_⟩
    all_goals assumption

/-- The words on the user's stack. -/
def requestAt (user : UserMemory) (esp : UInt32) : Request :=
  ⟨user.word (esp + 4 * 0).toNat, user.word (esp + 4 * 1).toNat, user.word (esp + 4 * 2).toNat,
    user.word (esp + 4 * 3).toNat⟩

/-- **`file_lock` is balanced** for every system call with any arguments in any state, except
for the three that keep it: a thread that made the call without the lock does not hold it when
it goes back to user mode or exits, and has not taken it twice. -/
theorem handler_balanced_iff (k : Kernel) (user : UserMemory) (env : Surroundings) (esp : UInt32)
    (hk : k.fileLock = false) :
    Balanced (handler user env esp) k ↔
      ¬ ((checkEsp user esp && !isKernelVaddr (esp + 16).toNat) = true ∧
        KeepsLock k user (requestAt user esp)) := by
  unfold handler
  dsimp only
  split
  next hvalid =>
    rw [and_iff_right hvalid]
    exact balanced_dispatch_iff env (requestAt user esp) hk
  next hvalid => exact iff_of_true (Spec.pure hk) fun h => hvalid h.1

/-- User memory with the words of a system call at address 4096, one string, and everything
mapped. -/
def callWith (number a b c : UInt32) (path : CString) : UserMemory :=
  ⟨fun _ => true, fun _ => path, fun _ _ => 0, fun addr =>
    if addr = 4096 then number else if addr = 4100 then a else if addr = 4104 then b else c⟩

/-- `close (2)` in a process without open files ends the process without the lock. -/
theorem handler_balanced_iff_close : Balanced
    (handler (callWith 12 2 0 0 nameA) ⟨true, 3, 0⟩ 4096) (inRoot diskA) :=
  (handler_balanced_iff (inRoot diskA) _ _ 4096 rfl).mpr fun h => by
    rcases h.2 with hkeeps | hkeeps | hkeeps
    · exact absurd hkeeps.1 (by decide)
    · exact absurd hkeeps.1 (by decide)
    · exact absurd hkeeps.1 (by decide)

/-- `read (2, buffer, 1)` in a process without open files ends the process with the lock
held. -/
theorem kRead_keeps_lock : Returns (handler (callWith 8 2 4096 1 nameA) ⟨true, 3, 0⟩ 4096)
    (inRoot diskA) (fun r t => r = (.exit, none) ∧ t.fileLock = true) ∧
    ¬ Balanced (handler (callWith 8 2 4096 1 nameA) ⟨true, 3, 0⟩ 4096) (inRoot diskA) := by
  have hrun : Returns (handler (callWith 8 2 4096 1 nameA) ⟨true, 3, 0⟩ 4096)
      (inRoot diskA) (fun r t => r = (.exit, none) ∧ t.fileLock = true) := by
    have hfd : checkFdReadWrite 2 = true := by
      have htwo : intOfWord 2 = 2 := wrap32_eq (by decide) (by decide)
      rw [checkFdReadWrite, htwo]
      decide
    show Returns (do return (← kRead (callWith 8 2 4096 1 nameA) 2 4096 1, none)) _ _
    apply Spec.bind
    unfold kRead
    rw [if_pos hfd, if_neg (by decide)]
    apply Spec.bind
    refine lockAcquire_rule rfl ?_
    apply Spec.bind
    refine fdEntry_rule hfd ?_
    exact .pure (Spec.pure ⟨rfl, rfl⟩)
  exact ⟨hrun, not_balanced (hrun.post fun _ _ h => h.2)⟩

end CS162
