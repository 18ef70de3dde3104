import CS162.Filesys.Handles
import CS162.Threads.Vaddr

/-!
# System calls

A model of `userprog/syscall.c` and of the parts of `thread_create`, `thread_exit`, `load`
and `process_exit` that work on files.

A handler runs in the kernel on behalf of one thread.  A `Kernel` is what it sees: the file
system with its handles, the descriptors and the current directory of the calling process,
and whether the calling thread holds `file_lock`.  A handler ends by going back to user mode,
with or without a new value in `eax`, or by ending the thread: `error` and `k_exit` do not
return.  Then `thread_exit` runs on the state the handler has left.

## What a handler can run into

A `Stop` is a panic or undefined behaviour of the file system, an access through a descriptor
that is not to a live handle of the right kind (`dangling`), or the assertion of
`lock_acquire` that the thread does not hold the lock (`reacquired`).

User memory is given by what the handlers read from it.  `check_arg` looks at one address
only; what happens behind it is not part of this model.
-/

namespace CS162

open Library

abbrev maxFileDescriptors : ℕ := 128

/-- `struct fd_entry`; `ptr` is a `struct file *` or a `struct dir *`. -/
structure FdEntry where
  inUse : Bool
  isDir : Bool
  ptr : Option Ptr
  deriving DecidableEq

/-- An entry of a new `struct thread`, whose bytes are zero. -/
def FdEntry.zero : FdEntry := ⟨false, false, none⟩

/-- The file that an entry is for, if it is in use and not a directory. -/
def FdEntry.filePtr (e : FdEntry) : Option Ptr := if !e.inUse || e.isDir then none else e.ptr

/-- The fields of a `struct thread` that are about files. -/
structure Process where
  fdTable : Fin maxFileDescriptors → FdEntry
  numFds : UInt32
  cwd : Option Dir
  /-- The executable. -/
  file : Option Ptr

/-- `thread_create`, with the current directory that it has opened for the new thread. -/
def Process.new (cwd : Option Dir) : Process := ⟨fun _ => .zero, 0, cwd, none⟩

/-- Handles are given out by opening and taken back by closing. -/
inductive HandleEvent where
  | opened (p : Ptr)
  | closed (p : Ptr)
  deriving DecidableEq

/-- The kernel as a system call of one thread sees it. -/
structure Kernel where
  handles : Handles
  process : Process
  /-- The calling thread holds `file_lock`. -/
  fileLock : Bool
  /-- What has been done through the descriptors of the process. -/
  log : List HandleEvent

/-- Why a handler did not come to its end. -/
inductive Stop where
  | fault (f : Fault)
  | dangling
  | reacquired
  deriving DecidableEq

/-- How a handler ends. -/
inductive SysEnd where
  | back (eax : Option UInt32)
  | exit
  | halt
  deriving DecidableEq

/-- What a system call reads from user memory. -/
structure UserMemory where
  /-- `pagedir_get_page (thread_current ()->pagedir, uaddr) != NULL`. -/
  mapped : ℕ → Bool
  /-- The string at an address. -/
  string : ℕ → CString
  /-- The bytes from an address on. -/
  buffer : ℕ → ℕ → UInt8
  /-- The word at an address. -/
  word : ℕ → UInt32

/-- What a system call gets from other parts of the kernel. -/
structure Surroundings where
  /-- The executable has a valid header, and its segments and the stack fit into memory. -/
  loads : Bool
  /-- The number of the next thread. -/
  tid : UInt32
  /-- What `process_wait` returns. -/
  exitStatus : UInt32

/-- Kernel code on behalf of a thread. -/
abbrev Sys := StateT Kernel (Except Stop)

namespace Syscall

/-! ## Callees -/

/-- A call that works on handles. -/
def onHandles {α : Type} (m : Hs α) : Sys α :=
  zoom Kernel.handles (fun k h => { k with handles := h }) Stop.fault m

/-- A call of the file system. -/
def onFiles {α : Type} (m : Fs α) : Sys α :=
  zoom (fun k => k.handles.fs) (fun k fs => { k with handles := { k.handles with fs := fs } })
    Stop.fault m

/-- `lock_acquire (&file_lock)`. -/
def lockAcquire : Sys Unit := do
  if (← get).fileLock then throw .reacquired
  modify fun k => { k with fileLock := true }

/-- `lock_release (&file_lock)`. -/
def lockRelease : Sys Unit := do
  if !(← get).fileLock then throw (.fault (.panic "lock_held_by_current_thread (lock)"))
  modify fun k => { k with fileLock := false }

/-- The file that an entry of the descriptor table points to. -/
def derefFile (p : Ptr) : Sys File := do
  match (← get).handles.objects.get p with
  | some (.file f) => return f
  | _ => throw .dangling

/-- The directory that an entry of the descriptor table points to. -/
def derefDir (p : Ptr) : Sys Dir := do
  match (← get).handles.objects.get p with
  | some (.dir d) => return d
  | _ => throw .dangling

def record (e : HandleEvent) : Sys Unit := modify fun k => { k with log := k.log ++ [e] }

/-- `file_close`, through an entry of the descriptor table. -/
def fileClose : Option Ptr → Sys Unit
  | none => return ()
  | some p => do
      let _ ← derefFile p
      onHandles (Handles.fileClose (some p))
      record (.closed p)

/-- `dir_close`, through an entry of the descriptor table. -/
def dirClose : Option Ptr → Sys Unit
  | none => return ()
  | some p => do
      let _ ← derefDir p
      onHandles (Handles.dirClose (some p))
      record (.closed p)

/-- `path_resolution`, which follows `thread_current ()->cwd` if the path is relative. -/
def pathResolutionFrom (cwd : Option Dir) (path : CString) :
    Fs (Bool × Option Dir × Option CString) :=
  match cwd with
  | some cwd => FileSys.pathResolution cwd path
  | none =>
    if path.bytes.head? = some 47 then FileSys.pathResolution ⟨FileSys.rootDirSector, 0⟩ path
    else throw (.undefined "cwd")

def pathResolution (path : CString) : Sys (Bool × Option Dir × Option CString) := do
  onFiles (pathResolutionFrom (← get).process.cwd path)

def dirReopen : Option Dir → Sys (Option Dir)
  | some dir => onFiles (FileSys.dirReopen dir)
  | none => throw (.fault (.undefined "dir"))

/-- The handle for what `filesys_open` has opened. -/
def newHandle : FileSys.OpenFile → Sys Ptr
  | .file x => onHandles (Handles.new (.file ⟨x, 0, false⟩))
  | .dir d => onHandles (Handles.new (.dir d))

/-- `filesys_open`: the pointer and `*is_dir`. -/
def filesysOpen (dir : Option Dir) (name : CString) : Sys (Option (Ptr × Bool)) := do
  match ← onFiles (FileSys.filesysOpen dir name) with
  | none => return none
  | some (.file x) => return some (← newHandle (.file x), false)
  | some (.dir d) => return some (← newHandle (.dir d), true)

def filesysRemove (name : CString) (dir : Option Dir) : Fs Bool :=
  match dir with
  | none => return false
  | some dir => FileSys.dirRemove dir name

/-- `file_read`: the number of bytes. -/
def fileRead (p : Ptr) (size : ℤ) : Sys ℤ := do
  let f ← derefFile p
  let bytes ← onFiles do FileSys.inodeReadAt (← FileSys.theInode f.inode) size f.pos
  let pos := wrap32 (f.pos + bytes.length)
  onHandles (Handles.store p (some (.file { f with pos := pos })))
  return bytes.length

/-- `file_write`: the number of bytes. -/
def fileWrite (p : Ptr) (buffer : ℕ → UInt8) (size : ℤ) : Sys ℤ := do
  let f ← derefFile p
  let written ← onFiles do FileSys.inodeWriteAt (← FileSys.theInode f.inode) buffer size f.pos
  let pos := wrap32 (f.pos + written)
  onHandles (Handles.store p (some (.file { f with pos := pos })))
  return written

def fileLength (p : Ptr) : Sys ℤ := do
  let f ← derefFile p
  onFiles do FileSys.inodeLength (← FileSys.theInode f.inode)

def fileSeek (p : Ptr) (newPos : ℤ) : Sys Unit := do
  if ¬ 0 ≤ newPos then throw (.fault (.panic "new_pos >= 0"))
  let f ← derefFile p
  onHandles (Handles.store p (some (.file { f with pos := newPos })))

def fileTell (p : Ptr) : Sys ℤ := do
  return (← derefFile p).pos

/-- `dir_readdir`: whether there was an entry. -/
def dirReaddir (p : Ptr) : Sys Bool := do
  let (name, dir) ← onFiles (FileSys.dirReaddir (← derefDir p))
  onHandles (Handles.store p (some (.dir dir)))
  return name.isSome

/-! ## Checks -/

def checkEsp (user : UserMemory) (args : UInt32) : Bool :=
  args ≠ 0 && isUserVaddr args.toNat && user.mapped args.toNat

def checkArg (user : UserMemory) (arg : UInt32) : Bool := arg ≠ 0 && checkEsp user arg

def checkFd (fd : UInt32) : Bool := 2 ≤ intOfWord fd && intOfWord fd < maxFileDescriptors

def checkFdReadWrite (fd : UInt32) : Bool := 0 ≤ intOfWord fd && intOfWord fd < maxFileDescriptors

/-- `get_next_fd`; `none` is -1. -/
def getNextFd (fdTable : Fin maxFileDescriptors → FdEntry) : Option (Fin maxFileDescriptors) :=
  (List.finRange maxFileDescriptors).find? fun i => 2 ≤ i.val && !(fdTable i).inUse

/-- `thread_current ()->fd_table[fd]`. -/
def fdEntry (fd : UInt32) : Sys FdEntry := do
  if h : fd.toNat < maxFileDescriptors then return (← get).process.fdTable ⟨fd.toNat, h⟩
  else throw (.fault (.undefined "fd_table"))

/-! ## Handlers -/

/-- What `success` is as the value of `eax`. -/
def boolWord (b : Bool) : UInt32 := if b then 1 else 0

/-- -1 as the value of `eax`. -/
def minusOne : UInt32 := 4294967295

/-- The new handle is put into the descriptor table. -/
def install (ptr : Ptr) (isDir : Bool) : Sys SysEnd := do
  match getNextFd (← get).process.fdTable with
  | none => throw (.fault (.undefined "fd_table"))
  | some fd =>
    modify fun k => { k with
      process := { k.process with
        fdTable := Function.update k.process.fdTable fd ⟨true, isDir, some ptr⟩
        numFds := k.process.numFds + 1 }
      log := k.log ++ [.opened ptr] }
    return .back (some fd.val.toUInt32)

def kOpen (user : UserMemory) (arg : UInt32) : Sys SysEnd := do
  if checkArg user arg then
    lockAcquire
    let (success, dir, _) ← pathResolution (user.string arg.toNat)
    if !success then return .back (some minusOne)
    let ptr ← filesysOpen dir (user.string arg.toNat)
    onFiles (FileSys.dirClose dir)
    let result ←
      match ptr with
      | some (ptr, isDir) => install ptr isDir
      | none => pure (.back (some minusOne))
    lockRelease
    return result
  else return .exit

def kWrite (user : UserMemory) (fd buffer size : UInt32) : Sys SysEnd := do
  if checkFdReadWrite fd then
    if size = 0 then return .back (some 0)
    else if 0 < fd && checkArg user buffer then
      lockAcquire
      if fd = 1 then
        lockRelease
        return .back none
      else
        match (← fdEntry fd).filePtr with
        | none => return .exit
        | some fl =>
          let written ← fileWrite fl (user.buffer buffer.toNat) (intOfWord size)
          lockRelease
          return .back (some (wordOfInt written))
    else return .exit
  else return .exit

def kRead (user : UserMemory) (fd buffer size : UInt32) : Sys SysEnd := do
  if checkFdReadWrite fd then
    if size = 0 then return .back (some 0)
    else if checkArg user buffer then
      lockAcquire
      if fd = 0 then
        lockRelease
        return .back (some (wordOfInt (max 0 (intOfWord size))))
      else
        match (← fdEntry fd).filePtr with
        | none => return .exit
        | some fl =>
          let read ← fileRead fl (intOfWord size)
          lockRelease
          return .back (some (wordOfInt read))
    else return .exit
  else return .exit

def kCreate (user : UserMemory) (arg initialSize : UInt32) : Sys SysEnd := do
  if checkArg user arg then
    lockAcquire
    let (success, dir, name) ← pathResolution (user.string arg.toNat)
    let created ←
      if success then onFiles (FileSys.filesysCreate name (intOfWord initialSize) dir false)
      else pure false
    onFiles (FileSys.dirClose dir)
    lockRelease
    return .back (some (boolWord created))
  else return .exit

def kRemove (user : UserMemory) (arg : UInt32) : Sys SysEnd := do
  if checkArg user arg then
    lockAcquire
    let dir ← dirReopen (← get).process.cwd
    let removed ← onFiles (filesysRemove (user.string arg.toNat) dir)
    onFiles (FileSys.dirClose dir)
    lockRelease
    return .back (some (boolWord removed))
  else return .exit

/-- The body of `k_filesize`, `k_seek`, `k_tell` and `k_close`, which differ in what they do
with the file under `file_lock`. -/
def withFile (fd : UInt32) (body : Ptr → Sys (Option UInt32)) : Sys SysEnd := do
  if checkFd fd then
    match (← fdEntry fd).filePtr with
    | none => return .exit
    | some fl =>
      lockAcquire
      let eax ← body fl
      lockRelease
      return .back eax
  else return .exit

def kFilesize (fd : UInt32) : Sys SysEnd :=
  withFile fd fun fl => do return some (wordOfInt (← fileLength fl))

def kSeek (fd position : UInt32) : Sys SysEnd :=
  withFile fd fun fl => do
    fileSeek fl (intOfWord position)
    return none

def kTell (fd : UInt32) : Sys SysEnd :=
  withFile fd fun fl => do return some (wordOfInt (← fileTell fl))

/-- `e->in_use = false; thread_current ()->num_fds -= 1;` -/
def release (fd : UInt32) : Sys Unit :=
  modify fun k => { k with
    process := { k.process with
      fdTable := fun i =>
        if i.val = fd.toNat then { k.process.fdTable i with inUse := false }
        else k.process.fdTable i
      numFds := k.process.numFds - 1 } }

def kClose (fd : UInt32) : Sys SysEnd :=
  withFile fd fun fl => do
    fileClose (some fl)
    release fd
    return none

def kChdir (user : UserMemory) (arg : UInt32) : Sys SysEnd := do
  if checkArg user arg then
    let (success, dir, _) ← pathResolution (user.string arg.toNat)
    if success then
      onFiles (FileSys.dirClose (← get).process.cwd)
      let cwd ← dirReopen dir
      modify fun k => { k with process := { k.process with cwd := cwd } }
    onFiles (FileSys.dirClose dir)
    return .back (some (boolWord success))
  else return .exit

/-- The dot entries of the directory that `k_mkdir` has created. -/
def initNewDir (dir : Option Dir) (name : Option CString) : Fs Unit := do
  match dir, name with
  | some parent, some name =>
    match ← FileSys.filesysOpen dir name with
    | some (.dir child) =>
      FileSys.initDir parent child
      FileSys.dirClose (some child)
    | _ => throw (.undefined "new_dir")
  | _, _ => throw (.undefined "name")

def kMkdir (user : UserMemory) (arg : UInt32) : Sys SysEnd := do
  lockAcquire
  if checkArg user arg then
    let (success, dir, name) ← pathResolution (user.string arg.toNat)
    let eax ←
      if success then do
        let created ← onFiles (FileSys.filesysCreate name 16 dir true)
        if created then onFiles (initNewDir dir name)
        pure (some (boolWord created))
      else pure none
    onFiles (FileSys.dirClose dir)
    lockRelease
    return .back eax
  else
    lockRelease
    return .exit

def kReaddir (fd : UInt32) : Sys SysEnd := do
  if !checkFd fd then return .exit
  let e ← fdEntry fd
  if e.isDir && e.inUse then
    match e.ptr with
    | none => throw .dangling
    | some dir => return .back (some (boolWord (← dirReaddir dir)))
  else return .back (some (boolWord false))

def kIsdir (fd : UInt32) : Sys SysEnd := do
  if !checkFd fd then return .exit
  return .back (some (boolWord (← fdEntry fd).isDir))

def kInumber (fd : UInt32) : Sys SysEnd := do
  if !checkFd fd then return .exit
  let e ← fdEntry fd
  match e.ptr with
  | none => throw .dangling
  | some p =>
    if e.isDir then return .back (some (← derefDir p).inode)
    else return .back (some (← derefFile p).inode)

/-- `tokenize` on a page that has been filled with `strlcpy`: `argv[0]`, which is empty if it
is null. -/
def firstArg (cmdLine : CString) : CString :=
  let page : CString := ⟨cmdLine.bytes.take 4095, fun h => cmdLine.nonzero (List.mem_of_mem_take h)⟩
  (page.dropWhile (· = 32)).takeWhile (· ≠ 32)

/-- `load`, in a new thread whose current directory is `cwd`: the executable.  A file that
turns out not to be loadable stays open. -/
def load (cwd : Option Dir) (fileName : CString) (loads : Bool) : Sys (Option Ptr) := do
  if !(← onFiles FileSys.malloc) then return none
  let dir ← dirReopen cwd
  let file ← filesysOpen dir fileName
  onFiles (FileSys.dirClose dir)
  match file with
  | some (file, false) =>
    if loads then
      onHandles (Handles.fileDenyWrite file)
      return some file
    else return none
  | _ => return none

/-- `process_execute` and what the new thread does until it has tried to load the executable:
the new process.  A thread that could not load it exits; it has no open files. -/
def processExecute (cmdLine : CString) (loads : Bool) : Sys (Option Process) := do
  -- the page for the command line, the `struct wait_status` and the page of the thread
  if !(← onFiles FileSys.malloc) then return none
  if !(← onFiles FileSys.malloc) then return none
  if !(← onFiles FileSys.malloc) then return none
  if (firstArg cmdLine).bytes = [] then throw (.fault (.panic "name != NULL"))
  let cwd ←
    match (← get).process.cwd with
    | none => pure none
    | some cwd => onFiles (FileSys.dirReopen cwd)
  match ← load cwd (firstArg cmdLine) loads with
  | none => return none
  | some file => return some { Process.new cwd with file := some file }

/-- `k_exec`, with the process it has started. -/
def kExec (user : UserMemory) (env : Surroundings) (arg : UInt32) :
    Sys (SysEnd × Option Process) := do
  if !checkArg user arg then return (.exit, none)
  if !(← onFiles FileSys.malloc) then return (.back (some minusOne), none)
  match ← processExecute (user.string arg.toNat) env.loads with
  | none => return (.back (some minusOne), none)
  | some child => return (.back (some env.tid), some child)

/-! ## Ending a thread -/

/-- A round of the loop in `thread_exit`. -/
def closeFd (i : ℕ) : Sys Unit := do
  if h : i < maxFileDescriptors then
    let e := (← get).process.fdTable ⟨i, h⟩
    if e.isDir then dirClose e.ptr else fileClose e.ptr
  else throw (.fault (.undefined "fd_table"))

/-- The loop of `thread_exit`. -/
def closeFds : Sys Unit := do
  forUpto closeFd ((← get).process.numFds.toNat - 2) 2

/-- What `process_exit` does with the executable. -/
def processExit : Sys Unit := do
  match (← get).process.file with
  | none => return ()
  | some file =>
    onHandles (Handles.fileAllowWrite file)
    onHandles (Handles.fileClose (some file))

def threadExit : Sys Unit := do
  closeFds
  processExit

/-! ## Dispatch -/

/-- The `switch` of `syscall_handler`. -/
def dispatch (user : UserMemory) (env : Surroundings) (number a b c : UInt32) :
    Sys (SysEnd × Option Process) :=
  let alone (m : Sys SysEnd) : Sys (SysEnd × Option Process) := do return (← m, none)
  match number.toNat with
  | 0 => alone (return .halt)
  | 1 => alone (return .exit)
  | 2 => kExec user env a
  | 3 => alone (return .back (some env.exitStatus))
  | 4 => alone (kCreate user a b)
  | 5 => alone (kRemove user a)
  | 6 => alone (kOpen user a)
  | 7 => alone (kFilesize a)
  | 8 => alone (kRead user a b c)
  | 9 => alone (kWrite user a b c)
  | 10 => alone (kSeek a b)
  | 11 => alone (kTell a)
  | 12 => alone (kClose a)
  | 13 => alone (return .back (some (a + 1)))
  | 16 => alone (kChdir user a)
  | 17 => alone (kMkdir user a)
  | 18 => alone (kReaddir a)
  | 19 => alone (kIsdir a)
  | 20 => alone (kInumber a)
  | _ => alone (return .exit)

/-- `syscall_handler` until it goes back to user mode or calls `thread_exit`. -/
def handler (user : UserMemory) (env : Surroundings) (esp : UInt32) :
    Sys (SysEnd × Option Process) :=
  let valid := checkEsp user esp && !isKernelVaddr (esp + 16).toNat
  let arg (i : UInt32) : UInt32 := user.word (esp + 4 * i).toNat
  if valid then dispatch user env (arg 0) (arg 1) (arg 2) (arg 3) else return (.exit, none)

def syscallHandler (user : UserMemory) (env : Surroundings) (esp : UInt32) :
    Sys (SysEnd × Option Process) := do
  let result ← handler user env esp
  if result.1 = .exit then threadExit
  return result

/-! ## Rules -/

section Rules

variable {α : Type} {k : Kernel} {E : Stop → Prop}

theorem onFiles_rule {m : Fs α} {Q : α → Kernel → Prop}
    (h : Spec (fun e => E (.fault e)) m k.handles.fs fun a t =>
      Q a { k with handles := { k.handles with fs := t } }) : Spec E (onFiles m) k Q := .zoom h

theorem lockAcquire_rule {Q : Unit → Kernel → Prop} (hfree : k.fileLock = false)
    (h : Q () { k with fileLock := true }) : Spec E lockAcquire k Q := by
  apply Spec.get_bind
  rwa [hfree]

theorem lockRelease_rule {Q : Unit → Kernel → Prop} (hheld : k.fileLock = true)
    (h : Q () { k with fileLock := false }) : Spec E lockRelease k Q := by
  apply Spec.get_bind
  rwa [hheld]

end Rules

end Syscall

end CS162
