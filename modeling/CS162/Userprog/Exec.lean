import CS162.Threads.Semaphore
import CS162.Userprog.Load

/-!
# Concurrent calls of process_execute

`process_execute` leaves the words of the command line in the static variables `argv` and
`argc`, and the thread it creates reads them there; `load` keeps the executable in a static
variable as well.  A thread can be preempted between any two accesses to them.

## Strategy

`ExecPc` says where a thread is in `process_execute` or in `start_process`.  A thread is
*active* while it relies on the static variables: from its first `strtok_r` until it has
created the new thread, and the new thread until its `load` is over.  `Phase` says what an
active thread relies on.  As long as a thread only starts to cut up a command line when no
thread is active, the variables belong to one thread at a time, and the load of a new thread
is a load that nobody disturbs (`Alone`).
-/

namespace CS162

open Library Function List

/-! ## The threads -/

abbrev argLimit : ℕ := 1024

/-- A pointer into a page. -/
structure Pointer where
  page : ℕ
  offset : ℕ
  deriving DecidableEq

/-- Where a thread is.  `page` is the page `fn_copy` points to. -/
inductive ExecPc where
  /-- In user mode; the main thread is in `run_actions`. -/
  | user
  /-- `fn_copy = palloc_get_page (0)` and `strlcpy` -/
  | copy
  /-- The call of `tokenize`. -/
  | tokenize (page : ℕ)
  /-- `token = strtok_r (file_name, delim, &saveptr)` -/
  | scan (page save i : ℕ)
  /-- `argv[i] = token; i++` -/
  | store (page token save i : ℕ)
  /-- `argv[i] = (char *) 0` -/
  | sentinel (page i : ℕ)
  | setArgc (page i : ℕ)
  /-- `malloc` of the `wait_status` -/
  | status (page : ℕ)
  /-- `thread_create (argv[0], PRI_DEFAULT, start_process, fn_copy)` -/
  | create (page : ℕ)
  /-- `k_exec` waits until the child has been loaded. -/
  | awaiting (child : Tid)
  /-- `process_wait` of the main thread -/
  | waiting (child : Tid)
  /-- `load (argv[0], ..)` -/
  | start (page : ℕ)
  /-- `pagedir_create ()`; `name` is the argument of `load`. -/
  | pagedir (page : ℕ) (name : Option Pointer)
  /-- `filesys_open (dir, file_name, &is_dir)` -/
  | opening (page : ℕ) (name : Option Pointer)
  | assign (page : ℕ) (file : Option ℕ)
  /-- The rest of `load`; `param` is the parameter `file` of `load_segment`. -/
  | loading (page : ℕ) (param : Option ℕ)
  /-- `sema_up (&thread_current ()->parent_load->sema)` -/
  | publish (page : ℕ)
  /-- `palloc_free_page (file_name)` -/
  | release (page : ℕ)
  | dead
  deriving DecidableEq

namespace ExecPc

/-- The thread relies on the static variables. -/
def active : ExecPc → Bool
  | scan .. | store .. | sentinel .. | setArgc .. | status _ | create _ => true
  | start _ | pagedir .. | opening .. | assign .. | loading .. => true
  | _ => false

/-- The thread is about to rely on them. -/
def enters : ExecPc → Bool
  | tokenize _ => true
  | _ => false

/-- The page the thread has still to free or to hand over. -/
def page : ExecPc → Option ℕ
  | tokenize q | scan q _ _ | store q _ _ _ | sentinel q _ | setArgc q _ | status q | create q
  | start q | pagedir q _ | opening q _ | assign q _ | loading q _ | publish q | release q => some q
  | _ => none

/-- The thread has not told its parent yet whether it could be loaded. -/
def loads : ExecPc → Bool
  | start _ | pagedir .. | opening .. | assign .. | loading .. | publish _ => true
  | _ => false

end ExecPc

/-- A thread, with the command line that it was created for, the argument of its call of
`process_execute`, and the process it is. -/
structure ExecThread where
  pc : ExecPc
  command : Bytes
  argument : Bytes
  process : Loader

/-- The static variables and the pages and files their values point to. -/
structure ExecShared where
  /-- The pages that are in use. -/
  page : ℕ → Option Bytes
  nextPage : ℕ
  argv : ℕ → Option Pointer
  argc : ℕ
  /-- The static variable of `load`. -/
  file : Option ℕ
  handle : ℕ → Handle
  nextHandle : ℕ

namespace ExecShared

/-- The string at a pointer. -/
def deref (m : ExecShared) (ptr : Pointer) : Option Bytes :=
  (m.page ptr.page).map fun b => stringAt b ptr.offset

/-- What `load` sees, where its variable `file` has this value. -/
def env (m : ExecShared) (file : Option ℕ) : LoadEnv :=
  ⟨file.map m.handle, fun k => (m.argv k).bind m.deref, m.argc⟩

@[simp] def setPage (m : ExecShared) (q : ℕ) (b : Option Bytes) : ExecShared :=
  { m with page := update m.page q b }

/-- What `file` points to is now `h`. -/
def setFile (m : ExecShared) (file : Option ℕ) (h : Option Handle) : ExecShared :=
  match file, h with
  | some i, some h => { m with handle := update m.handle i h }
  | _, _ => m

theorem setFile_eq (m : ExecShared) (file : Option ℕ) (h : Option Handle) :
    ∃ handle, m.setFile file h = { m with handle := handle } := by
  unfold setFile
  split
  · exact ⟨_, rfl⟩
  · exact ⟨m.handle, rfl⟩

/-- One step of thread `p` that concerns no other thread; `memory` tells whether an
allocation succeeds. -/
def act (d : Disk) (m : ExecShared) (p : Tid) (memory : Bool) (t : ExecThread) :
    Except Fault (ExecShared × ExecThread) :=
  let goto (m : ExecShared) (pc : ExecPc) : Except Fault (ExecShared × ExecThread) :=
    .ok (m, { t with pc := pc })
  match t.pc with
  | .copy =>
    if memory then
      goto { m.setPage m.nextPage (some (copyLine t.argument)) with nextPage := m.nextPage + 1 }
        (.tokenize m.nextPage)
    else goto m .user
  | .tokenize q => goto m (.scan q 0 0)
  | .scan q save i =>
    match m.page q with
    | none => .error (.undefined "strtok_r")
    | some b =>
      match strtokR b save with
      | (some token, b', save') => goto (m.setPage q (some b')) (.store q token save' i)
      | (none, b', _) => goto (m.setPage q (some b')) (.sentinel q i)
  | .store q token save i =>
    goto { m with argv := update m.argv i (some ⟨q, token⟩) }
      (if i + 1 = argLimit then .sentinel q (i + 1) else .scan q save (i + 1))
  | .sentinel q i =>
    if i < argLimit then goto { m with argv := update m.argv i none } (.setArgc q i)
    else .error (.undefined "argv")
  | .setArgc q i => goto { m with argc := i } (.status q)
  | .status q => if memory then goto m (.create q) else goto (m.setPage q none) .user
  | .start q => goto m (.pagedir q (m.argv 0))
  | .pagedir q name =>
    if memory then goto m (.opening q name)
    else .ok (m, { t with pc := .publish q, process := { t.process with pc := .done false } })
  | .opening q name =>
    match name with
    | none => .error (.panic "dir_lookup")
    | some ptr =>
      match m.deref ptr with
      | none => .error (.undefined "file_name")
      | some w =>
        match d.lookup p w with
        | none => goto m (.assign q none)
        | some f =>
          if memory then
            goto { m with
              handle := update m.handle m.nextHandle ⟨f, 0⟩
              nextHandle := m.nextHandle + 1 } (.assign q (some m.nextHandle))
          else goto m (.assign q none)
  | .assign q file => goto { m with file := file } (.loading q none)
  | .loading q param =>
    let file := if t.process.pc.inSegment then param else m.file
    match loadStep d (m.env file) memory t.process with
    | .error e => .error e
    | .ok (l, h) =>
      match l.pc with
      | .done _ => .ok (m.setFile file h, { t with pc := .publish q, process := l })
      | _ => .ok (m.setFile file h, { t with pc := .loading q file, process := l })
  | .publish q => goto m (.release q)
  | .release q =>
    goto (m.setPage q none) (if t.process.pc = .done true then .user else .dead)
  | _ => .ok (m, t)

end ExecShared

open ExecShared (act)

/-- All threads. -/
structure Execs where
  shared : ExecShared
  thread : Tid → ExecThread
  nextTid : Tid

/-- What can happen: a process calls `process_execute`, a process exits, or a thread takes
its next step. -/
inductive ExecLabel where
  | execute (p : Tid) (line : Bytes)
  | exit (p : Tid)
  | step (p : Tid) (memory : Bool)

namespace Execs

/-- The main thread is the only one to start with. -/
@[simp] def boot : Execs where
  shared := ⟨fun _ => none, 0, fun _ => none, 0, none, fun _ => ⟨0, 0⟩, 0⟩
  thread p := ⟨if p = 1 then .user else .dead, [], [], Loader.start⟩
  nextTid := 3

def setThread (s : Execs) (p : Tid) (t : ExecThread) : Execs :=
  { s with thread := update s.thread p t }

def setPc (s : Execs) (p : Tid) (pc : ExecPc) : Execs :=
  s.setThread p { s.thread p with pc := pc }

/-- `thread_create` for the command line of thread `p`. -/
def create (s : Execs) (p : Tid) (q : ℕ) : Execs :=
  let s' := s.setPc p (if p = 1 then .waiting s.nextTid else .awaiting s.nextTid)
  { s'.setThread s.nextTid ⟨.start q, (s.thread p).argument, [], Loader.start⟩ with
    nextTid := s.nextTid + 1 }

/-- One step of thread `p`, or nothing if it has to wait. -/
def step (d : Disk) (s : Execs) (p : Tid) (memory : Bool) : Except Fault (Option Execs) :=
  match (s.thread p).pc with
  | .user | .dead => .ok none
  | .awaiting c => .ok (if (s.thread c).pc.loads then none else some (s.setPc p .user))
  | .waiting c => .ok (if (s.thread c).pc = .dead then some (s.setPc p .user) else none)
  | .create q =>
    if memory then
      match s.shared.argv 0 with
      | none => .error (.panic "init_thread")
      | some ptr =>
        match s.shared.deref ptr with
        | none => .error (.undefined "init_thread")
        | some _ => .ok (some (s.create p q))
    else .ok (some { s.setPc p .user with shared := s.shared.setPage q none })
  | _ =>
    match s.shared.act d p memory (s.thread p) with
    | .error e => .error e
    | .ok (m, t) => .ok (some { s.setThread p t with shared := m })

/-- What a label does. -/
def apply (d : Disk) (s : Execs) : ExecLabel → Except Fault (Option Execs)
  | .execute p line =>
    .ok (if (s.thread p).pc = .user then
      some (s.setThread p { s.thread p with pc := .copy, argument := stringAt line 0 })
    else none)
  | .exit p =>
    .ok (if (s.thread p).pc = .user ∧ p ≠ 1 then some (s.setPc p .dead) else none)
  | .step p memory => s.step d p memory

/-- The next state, if there is one. -/
def next (d : Disk) (s : Execs) (l : ExecLabel) : Option Execs :=
  match s.apply d l with
  | .ok s' => s'
  | .error _ => none

def Step (d : Disk) (s : Execs) (l : ExecLabel) (s' : Execs) : Prop := s.next d l = some s'

end Execs

/-! ## What a command line asks for -/

def executable (line : Bytes) : Bytes := (words space line).headD []

/-- The process is, as far as it has been loaded, what the command line asks for. -/
def LoadsCommand (d : Disk) (p : Tid) (t : ExecThread) (h : Option Handle) : Prop :=
  0 ∉ t.command ∧ ∃ file, (file = none ∨ file = d.lookup p (executable t.command)) ∧
    Alone d file (words space t.command) t.process h

/-- The command line fits in a page, `argv` can hold its words and the sentinel, and so can
the first page of the stack. -/
def Proper (line : Bytes) : Prop :=
  line.length < pgSize ∧ (words space line).length < argLimit ∧
    stackSize (words space line) ≤ pgSize

instance (line : Bytes) : Decidable (Proper line) := inferInstanceAs (Decidable (_ ∧ _ ∧ _))

/-! ## What an active thread relies on -/

/-- The words that have been found are where `argv` points, before `save`. -/
def Found (m : ExecShared) (q save : ℕ) (found : List Bytes) : Prop :=
  ∀ k w, found[k]? = some w → ∃ b offset,
    m.page q = some b ∧ m.argv k = some ⟨q, offset⟩ ∧ StringAt b save offset w

/-- `argv` points to the words of a command line. -/
def Tokenized (m : ExecShared) (q : ℕ) (args : List Bytes) : Prop :=
  ∀ k w, args[k]? = some w → ∃ b offset,
    m.page q = some b ∧ m.argv k = some ⟨q, offset⟩ ∧ stringAt b offset = w

/-- The line is a string that fits. -/
def FitLine (line : Bytes) : Prop := 0 ∉ line ∧ Proper line

/-- The static variables are those of the new thread. -/
def Ready (m : ExecShared) (q : ℕ) (line : Bytes) : Prop :=
  FitLine line ∧ Tokenized m q (words space line) ∧ m.argc = (words space line).length ∧
    words space line ≠ []

/-- What a thread relies on. -/
def Phase (d : Disk) (m : ExecShared) (p : Tid) (t : ExecThread) : Prop :=
  match t.pc with
  | .copy => FitLine t.argument
  | .tokenize q => FitLine t.argument ∧ m.page q = some (copyLine t.argument)
  | .scan q save i => FitLine t.argument ∧ ∃ b found rest, m.page q = some b ∧
      b.drop save = rest ++ [0] ∧ 0 ∉ rest ∧ words space t.argument = found ++ words space rest ∧
      found.length = i ∧ Found m q save found
  | .store q token save i => FitLine t.argument ∧ ∃ b found w rest, m.page q = some b ∧
      StringAt b save token w ∧ b.drop save = rest ++ [0] ∧ 0 ∉ rest ∧
      words space t.argument = found ++ w :: words space rest ∧ found.length = i ∧
      Found m q save found
  | .sentinel q i => FitLine t.argument ∧ Tokenized m q (words space t.argument) ∧
      i = (words space t.argument).length
  | .setArgc q i => FitLine t.argument ∧ Tokenized m q (words space t.argument) ∧
      i = (words space t.argument).length ∧ m.argv i = none
  | .status q | .create q => FitLine t.argument ∧ Tokenized m q (words space t.argument) ∧
      m.argc = (words space t.argument).length ∧ m.argv (words space t.argument).length = none
  | .start q => Ready m q t.command ∧ t.process = Loader.start
  | .pagedir q name | .opening q name =>
    Ready m q t.command ∧ t.process = Loader.start ∧ name = m.argv 0
  | .assign q file => Ready m q t.command ∧ t.process = Loader.start ∧
      ∀ i, file = some i → ∃ f, d.lookup p (executable t.command) = some f ∧ m.handle i = ⟨f, 0⟩
  | .loading q param => Ready m q t.command ∧ LoadsCommand d p t (m.file.map m.handle) ∧
      (t.process.pc.inSegment → param = m.file)
  | _ => True

/-! ## One step of one thread -/

/-- What a step of a thread leaves alone. -/
structure ActFrame (m : ExecShared) (t : ExecThread) (m' : ExecShared) (t' : ExecThread) :
    Prop where
  page : ∀ q < m.nextPage, t.pc.page ≠ some q → m'.page q = m.page q
  nextPage : m.nextPage ≤ m'.nextPage
  quiet : t.pc.active = false →
    m'.argv = m.argv ∧ m'.argc = m.argc ∧ m'.file = m.file ∧ m'.handle = m.handle
  command : t'.command = t.command
  owns : ∀ q, t'.pc.page = some q → t.pc.page = some q ∨ q = m.nextPage ∧ q < m'.nextPage
  active : t'.pc.active = true → t.pc.active = true ∨ t.pc.enters = true

section Act

variable {d : Disk} {m m' : ExecShared} {p : Tid} {memory : Bool} {t t' : ExecThread}

theorem act_frame (hact : m.act d p memory t = .ok (m', t')) : ActFrame m t m' t' := by
  obtain ⟨pc, command, argument, process⟩ := t
  cases pc with
  | loading q =>
    simp only [act] at hact
    split at hact
    · cases hact
    · next l h _ =>
      obtain ⟨handle, hset⟩ := m.setFile_eq _ h
      rw [hset] at hact
      split at hact <;> cases hact <;> constructor <;> simp [ExecPc.active, ExecPc.page]
  | _ =>
    simp only [act] at hact
    (repeat' split at hact) <;> cases hact <;> constructor <;>
      simp +contextual [ExecPc.active, ExecPc.enters, ExecPc.page] <;>
      grind

variable {q : ℕ} {command argument : Bytes} {process : Loader}

theorem Found.tokenized {save : ℕ} {args : List Bytes} (h : Found m q save args) :
    Tokenized m q args := by
  intro k w hw
  obtain ⟨b, offset, hpage, hargv, hstring⟩ := h k w hw
  exact ⟨b, offset, hpage, hargv, hstring.stringAt_eq⟩

theorem phase_scan {save i : ℕ} (h : Phase d m p ⟨.scan q save i, command, argument, process⟩)
    (hact : m.act d p memory ⟨.scan q save i, command, argument, process⟩ = .ok (m', t')) :
    Phase d m' p t' := by
  obtain ⟨hline, b, found, rest, hpage, hdrop, hnul, hwords, hlength, hfound⟩ := h
  simp only [act, hpage] at hact
  rcases strtokR_spec hdrop hnul with ⟨hnil, save', htok⟩ | ⟨w, ws, b', token, save', hws, hcut⟩
  · rw [htok] at hact
    cases hact
    rw [hnil, append_nil] at hwords
    have hsame : m.setPage q (some b) = m := by rw [ExecShared.setPage, ← hpage, update_eq_self]
    rw [Phase, hwords, hsame]
    exact ⟨hline, hfound.tokenized, hlength.symm⟩
  rw [hcut.eq] at hact
  cases hact
  obtain ⟨rest', hdrop', hnul', rfl⟩ := hcut.rest
  refine ⟨hline, b', found, w, rest', by simp, hcut.string, hdrop', hnul',
    by rw [hwords, hws], hlength, ?_⟩
  intro k v hv
  obtain ⟨c, offset, hpage', hargv, hstring⟩ := hfound k v hv
  obtain rfl : c = b := Option.some.inj (hpage'.symm.trans hpage)
  exact ⟨b', offset, by simp, hargv, hstring.mono hcut.le hcut.before⟩

theorem phase_store {token save i : ℕ}
    (h : Phase d m p ⟨.store q token save i, command, argument, process⟩)
    (hact : m.act d p memory ⟨.store q token save i, command, argument, process⟩ = .ok (m', t')) :
    Phase d m' p t' := by
  obtain ⟨hline, b, found, w, rest, hpage, hstring, hdrop, hnul, hwords, hlength, hfound⟩ := h
  have hi : i + 1 ≠ argLimit := by
    have hlimit := hline.2.2.1
    rw [hwords, length_append, length_cons] at hlimit
    omega
  simp only [act, if_neg hi] at hact
  cases hact
  refine ⟨hline, b, found ++ [w], rest, hpage, hdrop, hnul, by simp [hwords], by simp [hlength], ?_⟩
  intro k v hv
  rcases lt_or_ge k found.length with hk | hk
  · rw [getElem?_append_left hk] at hv
    obtain ⟨c, offset, hpage', hargv, hstring'⟩ := hfound k v hv
    exact ⟨c, offset, hpage', by simp [update_apply, hargv]; omega, hstring'⟩
  · rw [getElem?_append_right hk, getElem?_singleton] at hv
    obtain ⟨hzero, heq⟩ := Option.ite_none_right_eq_some.mp hv
    obtain rfl := Option.some.inj heq
    have hk' : k = i := by omega
    exact ⟨b, token, hpage, by simp [hk'], hstring⟩

theorem phase_sentinel {i : ℕ} (h : Phase d m p ⟨.sentinel q i, command, argument, process⟩)
    (hact : m.act d p memory ⟨.sentinel q i, command, argument, process⟩ = .ok (m', t')) :
    Phase d m' p t' := by
  simp only [Phase] at h
  obtain ⟨hline, htokens, rfl⟩ := h
  simp only [act, if_pos hline.2.2.1] at hact
  cases hact
  refine ⟨hline, ?_, rfl, by simp⟩
  intro k w hw
  obtain ⟨b, offset, hpage, hargv, hstring⟩ := htokens k w hw
  obtain ⟨hk, -⟩ := List.getElem?_eq_some_iff.mp hw
  exact ⟨b, offset, hpage, by simp [hk.ne, hargv], hstring⟩

theorem Ready.deref {line : Bytes} (h : Ready m q line) :
    ∃ ptr, m.argv 0 = some ptr ∧ m.deref ptr = some (executable line) := by
  obtain ⟨-, htokens, -, hne⟩ := h
  obtain ⟨w, ws, hwords⟩ := exists_cons_of_ne_nil hne
  obtain ⟨b, offset, hpage, hargv, hstring⟩ := htokens 0 w (by simp [hwords])
  exact ⟨_, hargv, by simp [ExecShared.deref, hpage, hstring, executable, hwords]⟩

theorem phase_opening {name : Option Pointer}
    (h : Phase d m p ⟨.opening q name, command, argument, process⟩)
    (hact : m.act d p memory ⟨.opening q name, command, argument, process⟩ = .ok (m', t')) :
    Phase d m' p t' := by
  obtain ⟨hready, hprocess, rfl⟩ := h
  obtain ⟨ptr, hargv, hderef⟩ := hready.deref
  simp only [act, hargv, hderef] at hact
  split at hact
  · cases hact
    exact ⟨hready, hprocess, nofun⟩
  next f hf =>
  split at hact
  · cases hact
    refine ⟨hready, hprocess, ?_⟩
    intro i hi
    cases hi
    exact ⟨f, hf, by simp⟩
  · cases hact
    exact ⟨hready, hprocess, nofun⟩

theorem phase_assign {file : Option ℕ}
    (h : Phase d m p ⟨.assign q file, command, argument, process⟩) :
    Phase d { m with file := file } p ⟨.loading q none, command, argument, process⟩ := by
  obtain ⟨hready, hprocess, hfile⟩ := h
  obtain rfl : process = Loader.start := hprocess
  refine ⟨hready, ⟨hready.1.1, ?_⟩, nofun⟩
  cases file with
  | none => exact ⟨none, .inl rfl, .refl⟩
  | some i =>
    obtain ⟨f, hf, hhandle⟩ := hfile i rfl
    refine ⟨some f, .inr hf.symm, ?_⟩
    rw [Option.map_some, hhandle]
    exact .refl

theorem setFile_map {h : Option Handle} (hsome : h.isSome = m.file.isSome) :
    (m.setFile m.file h).file.map (m.setFile m.file h).handle = h := by
  obtain ⟨page, nextPage, argv, argc, file, handle, nextHandle⟩ := m
  cases file <;> cases h <;> simp_all [ExecShared.setFile]

theorem Ready.argv {line : Bytes} (h : Ready m q line) {k : ℕ} {arg : Bytes}
    (harg : (words space line)[k]? = some arg) (file : Option ℕ) :
    (m.env file).argv k = some arg := by
  obtain ⟨b, offset, hpage, hargv, hstring⟩ := h.2.1 k arg harg
  simp [ExecShared.env, ExecShared.deref, hargv, hpage, hstring]

theorem FitLine.nul_notMem {line : Bytes} (h : FitLine line) : ∀ w ∈ words space line, 0 ∉ w :=
  fun _ hw hmem => h.1 (mem_of_mem_words hw 0 hmem)

/-- Among other threads that leave the static variables alone, `load` does what it does
alone. -/
theorem Ready.loadStep_eq (hready : Ready m q t.command) {file : Option FileId}
    (halone : Alone d file (words space t.command) t.process (m.file.map m.handle)) :
    loadStep d (m.env m.file) memory t.process =
      loadStep d ⟨m.file.map m.handle, fun k => (words space t.command)[k]?,
        (words space t.command).length⟩ memory t.process :=
  (halone.loading hready.1.nul_notMem).loadStep_eq rfl (fun _ _ harg => hready.argv harg _)
    hready.2.2.1

theorem loadsCommand_step (hready : Ready m q t.command)
    (hloads : LoadsCommand d p t (m.file.map m.handle)) {l : Loader} {h : Option Handle}
    (hstep : loadStep d (m.env m.file) memory t.process = .ok (l, h)) (pc : ExecPc) :
    LoadsCommand d p { t with pc := pc, process := l }
      ((m.setFile m.file h).file.map (m.setFile m.file h).handle) := by
  obtain ⟨hnul', file, hfile, halone⟩ := hloads
  rw [hready.loadStep_eq halone] at hstep
  have halone' : Alone d file (words space t.command) l h := halone.tail ⟨memory, hstep⟩
  have hnul := hready.1.nul_notMem
  have hsome : h.isSome = m.file.isSome := by
    rw [← Option.isSome_map (f := Handle.file), (halone'.loading hnul).handle,
      ← (halone.loading hnul).handle]
    simp
  rw [setFile_map hsome]
  exact ⟨hnul', file, hfile, halone'⟩

theorem if_then_self {b : Bool} {param file : Option ℕ} (h : b → param = file) :
    (if b then param else file) = file := ite_eq_right_iff.mpr h

/-- A step of an active thread keeps what the thread relies on. -/
theorem act_phase (h : Phase d m p t) (hact : m.act d p memory t = .ok (m', t')) :
    Phase d m' p t' := by
  obtain ⟨pc, command, argument, process⟩ := t
  cases pc with
  | copy =>
    cases memory with
    | true =>
      cases hact
      exact ⟨h, by simp⟩
    | false =>
      cases hact
      trivial
  | tokenize q =>
    cases hact
    refine ⟨h.1, _, [], argument, h.2, ?_, h.1.1, rfl, rfl, fun k w hw => by simp at hw⟩
    rw [drop_zero, copyLine, take_of_length_le (Nat.le_sub_one_of_lt h.1.2.1)]
  | scan q save i => exact phase_scan h hact
  | store q token save i => exact phase_store h hact
  | sentinel q i => exact phase_sentinel h hact
  | setArgc q i =>
    simp only [Phase] at h
    obtain ⟨hline, htokens, rfl, hnone⟩ := h
    cases hact
    exact ⟨hline, htokens, rfl, hnone⟩
  | start q =>
    cases hact
    exact ⟨h.1, h.2, rfl⟩
  | status q | pagedir q name =>
    cases memory with
    | true =>
      cases hact
      exact h
    | false =>
      cases hact
      trivial
  | opening q name => exact phase_opening h hact
  | assign q file =>
    cases hact
    exact phase_assign h
  | loading q param =>
    obtain ⟨hready, hloads, hparam⟩ := h
    simp only [act, if_then_self hparam] at hact
    split at hact
    · cases hact
    next l h hstep =>
    have hnext := loadsCommand_step hready hloads hstep (.loading q m.file)
    obtain ⟨handle, hset⟩ := m.setFile_eq m.file h
    split at hact
    · cases hact
      trivial
    · cases hact
      refine ⟨?_, hnext, ?_⟩ <;> rw [hset]
      · exact hready
      · exact fun _ => rfl
  | release q =>
    cases hact
    by_cases hdone : process.pc = .done true <;> simp [Phase, hdone]
  | _ =>
    cases hact
    exact h

/-- A step keeps the process what the command line asks for. -/
theorem act_loads (h : Phase d m p t) (hloads : ∃ h, LoadsCommand d p t h)
    (hact : m.act d p memory t = .ok (m', t')) : ∃ h, LoadsCommand d p t' h := by
  obtain ⟨pc, command, argument, process⟩ := t
  cases pc with
  | pagedir q name =>
    obtain ⟨hready, hprocess, -⟩ := h
    obtain rfl : process = Loader.start := hprocess
    cases memory with
    | true =>
      cases hact
      exact hloads
    | false =>
      cases hact
      exact ⟨none, hready.1.1, none, .inl rfl, .tail .refl ⟨false, rfl⟩⟩
  | loading q param =>
    obtain ⟨hready, hload, hparam⟩ := h
    simp only [act, if_then_self hparam] at hact
    split at hact
    · cases hact
    · next l h hstep =>
      have hnext := loadsCommand_step hready hload hstep
      split at hact <;> cases hact <;> exact ⟨_, hnext _⟩
  | _ =>
    simp only [act] at hact
    (repeat' split at hact) <;> cases hact <;> exact hloads

/-- A thread that has what it relies on does nothing undefined. -/
theorem act_ne_undefined (h : Phase d m p t) (site : String) :
    m.act d p memory t ≠ .error (.undefined site) := by
  obtain ⟨pc, command, argument, process⟩ := t
  cases pc with
  | scan q save i =>
    obtain ⟨-, b, -, -, hpage, -⟩ := h
    simp only [act, hpage]
    split <;> exact nofun
  | sentinel q i =>
    simp only [Phase] at h
    obtain ⟨hline, -, rfl⟩ := h
    simp only [act, if_pos hline.2.2.1]
    exact nofun
  | opening q name =>
    obtain ⟨hready, -, rfl⟩ := h
    obtain ⟨ptr, hargv, hderef⟩ := hready.deref
    simp only [act, hargv, hderef]
    (repeat' split) <;> exact nofun
  | loading q param =>
    obtain ⟨hready, ⟨-, file, -, halone⟩, hparam⟩ := h
    have hne := halone.next_ne_undefined hready.1.nul_notMem hready.1.2.2.2 memory
    rw [← hready.loadStep_eq halone] at hne
    simp only [act, if_then_self hparam]
    split
    · next e herror =>
      intro heq
      cases heq
      exact hne site herror
    · split <;> exact nofun
  | _ =>
    simp only [act]
    (repeat' split) <;> exact nofun

/-- What a thread relies on is left alone by the steps of other threads. -/
theorem Phase.frame (h : Phase d m p t) (hpage : ∀ q, t.pc.page = some q → m'.page q = m.page q)
    (hshared : t.pc.active = true →
      m'.argv = m.argv ∧ m'.argc = m.argc ∧ m'.file = m.file ∧ m'.handle = m.handle) :
    Phase d m' p t := by
  cases hpc : t.pc with
  | tokenize q =>
    rw [hpc] at hpage
    simp only [Phase, hpc, hpage q rfl] at h ⊢
    exact h
  | scan q | store q | sentinel q | setArgc q | status q | create q | start q | pagedir q
  | opening q | assign q | loading q =>
    rw [hpc] at hpage hshared
    obtain ⟨hargv, hargc, hfile, hhandle⟩ := hshared rfl
    simp only [Phase, hpc, Ready, Tokenized, Found, hpage q rfl, hargv, hargc, hfile, hhandle]
      at h ⊢
    exact h
  | copy =>
    simp only [Phase, hpc] at h ⊢
    exact h
  | _ => simp only [Phase, hpc]

end Act

/-! ## All threads -/

namespace Execs

/-- The threads rely on different pages, at most one of them on the static variables, and
every process is what its command line asks for. -/
structure Sound (d : Disk) (s : Execs) : Prop where
  owned : ∀ p q, (s.thread p).pc.page = some q → q < s.shared.nextPage
  distinct : ∀ p p' q, (s.thread p).pc.page = some q → (s.thread p').pc.page = some q → p = p'
  exclusive : ∀ p p', (s.thread p).pc.active = true → (s.thread p').pc.active = true → p = p'
  unborn : ∀ p, s.nextTid ≤ p → (s.thread p).pc = .dead
  phase : ∀ p, Phase d s.shared p (s.thread p)
  loads : ∀ p, ∃ h, LoadsCommand d p (s.thread p) h

theorem sound_boot (d : Disk) : Sound d boot where
  owned p q h := by
    by_cases hp : p = 1 <;> simp [hp, ExecPc.page] at h
  distinct p p' q h := by
    by_cases hp : p = 1 <;> simp [hp, ExecPc.page] at h
  exclusive p p' h := by
    by_cases hp : p = 1 <;> simp [hp, ExecPc.active] at h
  unborn p hp := by
    have hne : p ≠ 1 := fun heq => by simp [heq] at hp
    simp [hne]
  phase p := by
    by_cases hp : p = 1 <;> simp [hp, Phase]
  loads _ := ⟨none, not_mem_nil, none, .inl rfl, .refl⟩

variable {d : Disk} {s s' : Execs}

/-- One thread changes, and with it only what the other threads do not rely on. -/
theorem Sound.update (hs : Sound d s) (p : Tid) (hp : p < s'.nextTid)
    (hnext : s.nextTid ≤ s'.nextTid) (hthread : ∀ p' ≠ p, s'.thread p' = s.thread p')
    (hpages : s.shared.nextPage ≤ s'.shared.nextPage)
    (hpage : ∀ p' ≠ p, ∀ q, (s.thread p').pc.page = some q → s'.shared.page q = s.shared.page q)
    (hshared : (s.thread p).pc.active = true ∨ s'.shared.argv = s.shared.argv ∧
      s'.shared.argc = s.shared.argc ∧ s'.shared.file = s.shared.file ∧
      s'.shared.handle = s.shared.handle)
    (howns : ∀ q, (s'.thread p).pc.page = some q → q < s'.shared.nextPage ∧
      ∀ p' ≠ p, (s.thread p').pc.page ≠ some q)
    (hactive : (s'.thread p).pc.active = true → ∀ p' ≠ p, (s.thread p').pc.active = false)
    (hphase : Phase d s'.shared p (s'.thread p)) (hloads : ∃ h, LoadsCommand d p (s'.thread p) h) :
    Sound d s' where
  owned p' q h := by
    by_cases heq : p' = p
    · subst heq
      exact (howns q h).1
    · rw [hthread p' heq] at h
      exact (hs.owned p' q h).trans_le hpages
  distinct p₁ p₂ q h₁ h₂ := by
    by_cases heq₁ : p₁ = p
    · by_cases heq₂ : p₂ = p
      · rw [heq₁, heq₂]
      · rw [hthread p₂ heq₂] at h₂
        exact absurd h₂ ((howns q (heq₁ ▸ h₁)).2 p₂ heq₂)
    · rw [hthread p₁ heq₁] at h₁
      by_cases heq₂ : p₂ = p
      · exact absurd h₁ ((howns q (heq₂ ▸ h₂)).2 p₁ heq₁)
      · rw [hthread p₂ heq₂] at h₂
        exact hs.distinct p₁ p₂ q h₁ h₂
  exclusive p₁ p₂ h₁ h₂ := by
    by_cases heq₁ : p₁ = p
    · by_cases heq₂ : p₂ = p
      · rw [heq₁, heq₂]
      · rw [hthread p₂ heq₂, hactive (heq₁ ▸ h₁) p₂ heq₂] at h₂
        cases h₂
    rw [hthread p₁ heq₁] at h₁
    by_cases heq₂ : p₂ = p
    · rw [hactive (heq₂ ▸ h₂) p₁ heq₁] at h₁
      cases h₁
    · rw [hthread p₂ heq₂] at h₂
      exact hs.exclusive p₁ p₂ h₁ h₂
  unborn p' hp' := by
    rw [hthread p' (hp.trans_le hp').ne']
    exact hs.unborn p' (hnext.trans hp')
  phase p' := by
    by_cases heq : p' = p
    · exact heq ▸ hphase
    rw [hthread p' heq]
    apply (hs.phase p').frame (hpage p' heq)
    intro hactive'
    rcases hshared with hother | hsame
    · exact absurd (hs.exclusive p' p hactive' hother) heq
    · exact hsame
  loads p' := by
    by_cases heq : p' = p
    · exact heq ▸ hloads
    · rw [hthread p' heq]
      exact hs.loads p'

theorem Sound.born (hs : Sound d s) {p : Tid} (hp : (s.thread p).pc ≠ .dead) : p < s.nextTid := by
  by_contra hge
  exact hp (hs.unborn p (not_lt.mp hge))

theorem Sound.act (hs : Sound d s) {p : Tid} {memory : Bool} {m : ExecShared} {t : ExecThread}
    (hact : s.shared.act d p memory (s.thread p) = .ok (m, t)) (hp : (s.thread p).pc ≠ .dead)
    (hguard : (s.thread p).pc.enters = true → ∀ p', (s.thread p').pc.active = false) :
    Sound d { s.setThread p t with shared := m } := by
  have hframe := act_frame hact
  have hself : (s.setThread p t).thread p = t := by simp [setThread]
  apply hs.update p
  · exact hs.born hp
  · exact le_refl _
  · intro p' hne
    simp [setThread, hne]
  · exact hframe.nextPage
  · intro p' hne q hq
    apply hframe.page q (hs.owned p' q hq)
    intro hq'
    exact hne (hs.distinct p' p q hq hq')
  · by_cases hactive : (s.thread p).pc.active = true
    · exact .inl hactive
    · exact .inr (hframe.quiet (by simpa using hactive))
  · intro q hq
    rw [hself] at hq
    rcases hframe.owns q hq with hown | ⟨rfl, hlt⟩
    · exact ⟨(hs.owned p q hown).trans_le hframe.nextPage,
        fun p' hne hq' => hne (hs.distinct p' p q hq' hown)⟩
    · exact ⟨hlt, fun p' _ hq' => (hs.owned p' _ hq').false⟩
  · intro hactive p' hne
    rw [hself] at hactive
    rcases hframe.active hactive with hother | htokenize
    · by_contra hactive'
      exact hne (hs.exclusive p' p (by simpa using hactive') hother)
    · exact hguard htokenize p'
  · rw [hself]
    exact act_phase (hs.phase p) hact
  · rw [hself]
    exact act_loads (hs.phase p) (hs.loads p) hact

/-- A thread that gives up its page, if it has one, and the static variables. -/
theorem Sound.leave (hs : Sound d s) {p : Tid} (hp : (s.thread p).pc ≠ .dead) {t : ExecThread}
    (hpage : t.pc.page = none) (hactive : t.pc.active = false)
    (hphase : ∀ m, Phase d m p t) (hcommand : t.command = (s.thread p).command)
    (hprocess : t.process = (s.thread p).process) {m : ExecShared}
    (hm : m = s.shared ∨ ∃ q, (s.thread p).pc.page = some q ∧ m = s.shared.setPage q none) :
    Sound d { s.setThread p t with shared := m } := by
  have hself : (s.setThread p t).thread p = t := by simp [setThread]
  apply hs.update p
  · exact hs.born hp
  · exact le_refl _
  · intro p' hne
    simp [setThread, hne]
  · rcases hm with rfl | ⟨q, -, rfl⟩ <;> exact le_refl _
  · intro p' hne q hq
    rcases hm with rfl | ⟨q', hq', rfl⟩
    · rfl
    · have hne' : q ≠ q' := by
        rintro rfl
        exact hne (hs.distinct p' p q hq hq')
      simp [hne']
  · rcases hm with rfl | ⟨q, -, rfl⟩ <;> exact .inr ⟨rfl, rfl, rfl, rfl⟩
  · intro q hq
    rw [hself, hpage] at hq
    cases hq
  · intro hactive'
    rw [hself, hactive] at hactive'
    cases hactive'
  · rw [hself]
    exact hphase m
  · rw [hself]
    obtain ⟨h, hnul, file, hfile, halone⟩ := hs.loads p
    exact ⟨h, hcommand ▸ hnul, file, hcommand ▸ hfile, by rw [hcommand, hprocess]; exact halone⟩

/-- The new thread takes over the page and the static variables. -/
theorem Sound.create (hs : Sound d s) {p : Tid} {q : ℕ} (hpc : (s.thread p).pc = .create q)
    {ptr : Pointer} (hargv : s.shared.argv 0 = some ptr) : Sound d (s.create p q) := by
  have hdead : (s.thread p).pc ≠ .dead := by simp [hpc]
  have hphase := hs.phase p
  rw [Phase, hpc] at hphase
  obtain ⟨hline, htokens, hargc, hnone⟩ := hphase
  have hne : words space (s.thread p).argument ≠ [] := by
    intro hnil
    rw [hnil, length_nil, hargv] at hnone
    cases hnone
  set pc : ExecPc := if p = 1 then .waiting s.nextTid else .awaiting s.nextTid with hpcdef
  have hleft : Sound d (s.setPc p pc) := by
    apply hs.leave hdead (t := { s.thread p with pc := pc }) ?_ ?_ ?_ rfl rfl (.inl rfl) <;>
      rw [hpcdef] <;> split_ifs <;> first | rfl | exact fun _ => trivial
  have hidle : ∀ p', ((s.setPc p pc).thread p').pc.active = false := by
    intro p'
    by_cases heq : p' = p
    · subst heq
      simp only [setPc, setThread, update_self, hpcdef]
      split_ifs <;> rfl
    · by_contra hactive
      simp only [setPc, setThread, update_of_ne heq, Bool.not_eq_false] at hactive
      exact heq (hs.exclusive p' p hactive (by rw [hpc]; rfl))
  have hchild : (s.create p q).thread s.nextTid =
      ⟨.start q, (s.thread p).argument, [], Loader.start⟩ := by
    simp [Execs.create, setThread]
  have hothers : ∀ p' ≠ s.nextTid, (s.create p q).thread p' = (s.setPc p pc).thread p' := by
    intro p' hne'
    simp [Execs.create, setThread, hne', hpcdef]
  apply hleft.update s.nextTid (Nat.lt_succ_self _) (Nat.le_succ _) hothers (le_refl _)
    (fun _ _ _ _ => rfl) (.inr ⟨rfl, rfl, rfl, rfl⟩)
  · intro q' hq'
    rw [hchild] at hq'
    cases hq'
    refine ⟨hs.owned p q (by rw [hpc]; rfl), ?_⟩
    intro p' _ hq'
    by_cases heq : p' = p
    · subst heq
      simp only [setPc, setThread, update_self, hpcdef] at hq'
      split_ifs at hq' <;> cases hq'
    · simp only [setPc, setThread, update_of_ne heq] at hq'
      exact heq (hs.distinct p' p q hq' (by rw [hpc]; rfl))
  · intro _ p' _
    exact hidle p'
  · rw [hchild]
    exact ⟨⟨hline, htokens, hargc, hne⟩, rfl⟩
  · rw [hchild]
    exact ⟨none, hline.1, none, .inl rfl, .refl⟩

/-- A step is undisturbed: a thread starts to cut up a command line only when no thread
relies on the static variables, and the command lines are proper. -/
def Undisturbed (s : Execs) : ExecLabel → Prop
  | .execute _ line => Proper (stringAt line 0)
  | .exit _ => True
  | .step p _ => (s.thread p).pc.enters = true → ∀ p' < s.nextTid, (s.thread p').pc.active = false

instance (s : Execs) (l : ExecLabel) : Decidable (Undisturbed s l) := by
  cases l <;> unfold Undisturbed <;> infer_instance

theorem nul_notMem_stringAt (line : Bytes) (offset : ℕ) : 0 ∉ stringAt line offset := by
  intro hmem
  simpa using mem_takeWhile_imp hmem

theorem Sound.step (hs : Sound d s) {l : ExecLabel} (hguard : Undisturbed s l)
    (hstep : Step d s l s') : Sound d s' := by
  cases l with
  | execute p line =>
    obtain ⟨huser, ⟨⟩⟩ := Option.ite_none_right_eq_some.mp hstep
    exact hs.leave (t := { s.thread p with pc := .copy, argument := stringAt line 0 })
      (by simp [huser]) rfl rfl (fun _ => ⟨nul_notMem_stringAt line 0, hguard⟩) rfl rfl
      (.inl rfl)
  | exit p =>
    obtain ⟨⟨huser, -⟩, ⟨⟩⟩ := Option.ite_none_right_eq_some.mp hstep
    exact hs.leave (t := { s.thread p with pc := .dead }) (by simp [huser]) rfl rfl
      (fun _ => trivial) rfl rfl (.inl rfl)
  | step p memory =>
    have hback : (s.thread p).pc ≠ .dead → Sound d (s.setPc p .user) := fun hdead =>
      hs.leave (t := { s.thread p with pc := .user }) hdead rfl rfl (fun _ => trivial) rfl rfl
        (.inl rfl)
    rw [Step, next, apply, Execs.step] at hstep
    cases hpc : (s.thread p).pc with
    | user | dead => simp [hpc] at hstep
    | awaiting c =>
      simp only [hpc] at hstep
      obtain ⟨-, ⟨⟩⟩ := Option.ite_none_left_eq_some.mp hstep
      exact hback (by simp [hpc])
    | waiting c =>
      rw [hpc] at hstep
      obtain ⟨-, ⟨⟩⟩ := Option.ite_none_right_eq_some.mp hstep
      exact hback (by simp [hpc])
    | create q =>
      cases memory with
      | false =>
        simp only [hpc, Bool.false_eq_true, if_false, Option.some.injEq] at hstep
        subst hstep
        exact hs.leave (t := { s.thread p with pc := .user }) (by simp [hpc]) rfl rfl
          (fun _ => trivial) rfl rfl (.inr ⟨q, by rw [hpc]; rfl, rfl⟩)
      | true =>
        simp only [hpc, if_true] at hstep
        cases hargv : s.shared.argv 0 with
        | none => simp [hargv] at hstep
        | some ptr =>
          cases hderef : s.shared.deref ptr with
          | none => simp [hargv, hderef] at hstep
          | some w =>
            simp only [hargv, hderef, Option.some.injEq] at hstep
            subst hstep
            exact hs.create hpc hargv
    | _ =>
      rw [hpc] at hstep
      cases hact : s.shared.act d p memory (s.thread p) with
      | error e => simp [hact] at hstep
      | ok r =>
        rw [hact, Option.some.injEq] at hstep
        subst hstep
        apply hs.act hact (by simp [hpc])
        intro henters p'
        rcases lt_or_ge p' s.nextTid with hlt | hge
        · exact hguard henters p' hlt
        · rw [hs.unborn p' hge]
          rfl

theorem Sound.next_ne_undefined (hs : Sound d s) (p : Tid) (memory : Bool) (site : String) :
    s.step d p memory ≠ .error (.undefined site) := by
  cases hpc : (s.thread p).pc with
  | user | dead | awaiting c | waiting c =>
    rw [Execs.step, hpc]
    exact nofun
  | create q =>
    have hphase := hs.phase p
    simp only [Phase, hpc] at hphase
    obtain ⟨-, htokens, -, hnone⟩ := hphase
    simp only [Execs.step, hpc]
    split
    · split
      · exact nofun
      next ptr hargv =>
      cases hwords : words space (s.thread p).argument with
      | nil =>
        rw [hwords, length_nil, hargv] at hnone
        cases hnone
      | cons w ws =>
        obtain ⟨b, offset, hpage, hargv', -⟩ := htokens 0 w (by simp [hwords])
        obtain rfl : ptr = ⟨q, offset⟩ := Option.some.inj (hargv.symm.trans hargv')
        rw [ExecShared.deref, hpage]
        exact nofun
    · exact nofun
  | _ =>
    have hact := @act_ne_undefined d s.shared p memory (s.thread p) (hs.phase p) site
    simp only [Execs.step, hpc]
    split
    · next e herror =>
      intro heq
      cases heq
      exact hact herror
    · exact nofun

/-- The process runs its command: what has been loaded comes from the executable that the
command line names, and once it is loaded, the process has that file open and finds the words
of the command line on its stack. -/
structure RunsCommand (d : Disk) (p : Tid) (t : ExecThread) : Prop where
  loads : ∃ h, LoadsCommand d p t h
  loaded : t.process.pc = .done true →
    (∃ f, d.lookup p (executable t.command) = some f ∧ t.process.file = some f) ∧
      stackArgc t.process.stack = (words space t.command).length ∧
      stackArgv t.process.stack = words space t.command

theorem Sound.runsCommand (hs : Sound d s) (p : Tid) : RunsCommand d p (s.thread p) := by
  refine ⟨hs.loads p, ?_⟩
  intro hdone
  obtain ⟨h, hnul, file, hfile, halone⟩ := hs.loads p
  have hwords : ∀ w ∈ words space (s.thread p).command, 0 ∉ w :=
    fun _ hw hmem => hnul (mem_of_mem_words hw 0 hmem)
  obtain ⟨hsome, hopened, hstack⟩ := halone.loaded hwords hdone
  obtain ⟨f, rfl⟩ := Option.isSome_iff_exists.mp hsome
  rcases hfile with hnone | hlookup
  · cases hnone
  · exact ⟨⟨f, hlookup.symm, hopened⟩, hstack⟩

/-- **Each process runs its own command.**  This holds as long as a thread starts to cut up a
command line only when no other thread is between its `tokenize` and the end of the load it
has asked for. -/
theorem process_runs_its_command (d : Disk) {labels : List ExecLabel}
    (hrun : Run (Guarded Undisturbed (Step d)) boot labels s) :
    (∀ p, RunsCommand d p (s.thread p)) ∧
      ∀ p memory site, s.step d p memory ≠ .error (.undefined site) := by
  have hs : Sound d s := by
    apply hrun.invariant (sound_boot d)
    intro s l s' hs hstep
    exact hs.step hstep.1 hstep.2
  exact ⟨hs.runsCommand, hs.next_ne_undefined⟩

/-! ## Two commands at once -/

/-- An executable without segments. -/
def emptyProgram : Bytes :=
  [0x7f, 0x45, 0x4c, 0x46, 1, 1, 1, 0, 0, 0, 0, 0, 0, 0, 0, 0, 2, 0, 3, 0, 1, 0, 0, 0, 0, 0,
    0, 0, 0, 0, 0, 0, 0, 0, 0, 0, 0, 0, 0, 0, 0, 0, 32, 0, 0, 0, 0, 0, 0, 0, 0, 0]

/-- The files `a` and `b`. -/
def twoFiles : Disk where
  lookup _ w := if w = [97] then some 0 else if w = [98] then some 1 else none
  content _ := emptyProgram

def steps (p : Tid) (n : ℕ) : List ExecLabel := List.replicate n (.step p true)

/-- One after another, `a 1` and the child `b 2` of that process are run as they should be. -/
theorem process_runs_its_command_in_turn : ∃ labels s,
    Run (Guarded Undisturbed (Step twoFiles)) boot labels s ∧
      ((s.thread 3).command = [97, 32, 49] ∧ (s.thread 3).process.file = some 0 ∧
        stackArgv (s.thread 3).process.stack = [[97], [49]]) ∧
      (s.thread 4).command = [98, 32, 50] ∧ (s.thread 4).process.file = some 1 ∧
        stackArgv (s.thread 4).process.stack = [[98], [50]] := by
  refine ⟨[.execute 1 [97, 32, 49]] ++ steps 1 11 ++ steps 3 19 ++ [.execute 3 [98, 32, 50]] ++
    steps 3 11 ++ steps 4 19, exists_run_of_imp
    (guarded_of_ite (fun _ _ _ hstep => hstep) fun _ _ => Decidable.not_not.mp)
    (fun s => ((s.thread 3).command = [97, 32, 49] ∧ (s.thread 3).process.pc = .done true) ∧
      (s.thread 4).command = [98, 32, 50] ∧ (s.thread 4).process.pc = .done true)
    (by decide +kernel) ?_⟩
  intro s hrun ⟨⟨hfirst, hdone⟩, hsecond, hdone'⟩
  obtain ⟨hruns, -⟩ := process_runs_its_command twoFiles hrun
  obtain ⟨⟨f, hlookup, hfile⟩, -, hargv⟩ := (hruns 3).loaded hdone
  obtain ⟨⟨g, hlookup', hfile'⟩, -, hargv'⟩ := (hruns 4).loaded hdone'
  rw [hfirst] at hlookup hargv
  rw [hsecond] at hlookup' hargv'
  exact ⟨⟨hfirst, hfile.trans hlookup.symm, hargv⟩, hsecond, hfile'.trans hlookup'.symm, hargv'⟩

/-- Threads 3 and 4 call `process_execute` at the same time, for `a 1` and for `b 2`.  The
child of thread 3 starts after thread 4 has cut up its own command line. -/
theorem child_runs_another_command : ∃ labels s, Run (Step twoFiles) boot labels s ∧
    (s.thread 5).command = [97, 32, 49] ∧ (s.thread 5).process.pc = .done true ∧
      (s.thread 5).process.file = twoFiles.lookup 5 [98] ∧
      stackArgv (s.thread 5).process.stack = [[98], [50]] ∧
      ¬ RunsCommand twoFiles 5 (s.thread 5) := by
  refine ⟨[.execute 1 [97]] ++ steps 1 9 ++ steps 3 17 ++ [.execute 3 [97]] ++ steps 3 9 ++
    steps 4 17 ++ steps 3 1 ++ [.execute 3 [97, 32, 49], .execute 4 [98, 32, 50]] ++ steps 3 11 ++
    steps 4 11 ++ steps 5 19, exists_run_of_imp (fun _ _ _ hstep => hstep)
    (fun s => (s.thread 5).command = [97, 32, 49] ∧ (s.thread 5).process.pc = .done true ∧
      (s.thread 5).process.file = twoFiles.lookup 5 [98] ∧
      stackArgv (s.thread 5).process.stack = [[98], [50]]) (by decide +kernel) ?_⟩
  intro s _ ⟨hcommand, hdone, hfile, hargv⟩
  refine ⟨hcommand, hdone, hfile, hargv, fun hruns => ?_⟩
  have hwords := (hruns.loaded hdone).2.2
  rw [hargv, hcommand] at hwords
  exact absurd hwords (by decide)

end Execs

end CS162
