import Mathlib.Data.List.TakeWhile
import CS162.Filesys.Inode

/-!
# Directories

A model of `filesys/directory.c` and of the calls of `filesys/filesys.c` that create and
open files by name.

A directory is a file of 24-byte slots.  Each slot is a `struct dir_entry`; a slot that is
not in use is free for the next entry.  The functions walk over the slots with
`inode_read_at` until a read comes back short, which is how they notice the end of the
file.  The model bounds these walks by the number of slots that the largest file has.

## Pointers

A `struct inode *` is the sector of an open inode, as in `inodeClose`.  A `struct dir *`
is a `Dir`, or `none` if it is null.  `dir_remove` and `dir_readdir` compare the name they
work on with the addresses of the arrays `dot` and `dot_dot`; a caller's buffer is never
one of these, so the comparisons are false and the model leaves them out.
-/

namespace CS162

open Library

/-! ## Strings -/

/-- A C string: the bytes before the terminating zero. -/
@[ext]
structure CString where
  bytes : List UInt8
  nonzero : 0 ∉ bytes
  deriving DecidableEq

namespace CString

def takeWhile (s : CString) (p : UInt8 → Bool) : CString :=
  ⟨s.bytes.takeWhile p, fun h => s.nonzero ((List.takeWhile_sublist p).subset h)⟩

def dropWhile (s : CString) (p : UInt8 → Bool) : CString :=
  ⟨s.bytes.dropWhile p, fun h => s.nonzero ((List.dropWhile_sublist p).subset h)⟩

/-- The byte at offset `i`; what is behind the terminator is not to be read. -/
def read (s : CString) (i : ℕ) (site : String) : Except Fault UInt8 :=
  if i ≤ s.bytes.length then .ok (s.bytes.getD i 0) else .error (.undefined site)

theorem read_eq {s : CString} {i : ℕ} {site : String} (hi : i ≤ s.bytes.length) :
    s.read i site = .ok ((s.bytes.drop i).headD 0) := by
  rw [read, if_pos hi, List.headD_eq_head?_getD, List.head?_drop, List.getD_eq_getElem?_getD]

end CString

def nameMax : ℕ := 14

def dot : CString := ⟨[46], by decide⟩

def dotDot : CString := ⟨[46, 46], by decide⟩

/-! ## Directory entries -/

/-- `struct dir_entry`, with the bytes the compiler adds at its end. -/
structure DirEntry where
  inodeSector : BlockSector
  name : Fin (nameMax + 1) → UInt8
  inUse : Bool
  isDir : Bool
  padding : Fin 3 → UInt8

namespace DirEntry

/-- Bytes read as a `struct dir_entry`. -/
def decode (f : ℕ → UInt8) : DirEntry where
  inodeSector := wordAt f 0
  name i := f (4 + i)
  inUse := f 19 != 0
  isDir := f 20 != 0
  padding i := f (21 + i)

/-- The bytes of a `struct dir_entry`. -/
def encode (e : DirEntry) (k : ℕ) : UInt8 :=
  if k < 4 then byteOf e.inodeSector k
  else if k < 19 then entry e.name (k - 4)
  else if k = 19 then e.inUse.toUInt8
  else if k = 20 then e.isDir.toUInt8
  else entry e.padding (k - 21)

/-- The entry after a read of the given bytes into it. -/
def overwrite (e : DirEntry) (bytes : List UInt8) : DirEntry :=
  decode fun k => bytes.getD k (e.encode k)

/-- What a `struct dir_entry` on the stack holds before anything is read into it; C leaves
it open. -/
def uninitialised : DirEntry := ⟨0, fun _ => 0, false, false, fun _ => 0⟩

def strlcpy (e : DirEntry) (name : CString) : DirEntry :=
  let len := min name.bytes.length nameMax
  { e with name := fun i =>
      if i.val < len then name.bytes.getD i 0 else if i.val = len then 0 else e.name i }

end DirEntry

/-- `struct dir`. -/
structure Dir where
  inode : BlockSector
  pos : ℤ
  deriving DecidableEq

namespace FileSys

/-! ## Opening and closing directories -/

def dirOpen (inode : Option Inode) : Fs (Option Dir) := do
  let dir ← malloc
  match inode with
  | none => return none
  | some inode =>
    if dir then return some ⟨inode.sector, 0⟩
    else
      inodeClose inode.sector
      return none

def dirOpenRoot : Fs (Option Dir) := do
  dirOpen (← inodeOpen rootDirSector)

def dirReopen (dir : Dir) : Fs (Option Dir) := do
  dirOpen (← inodeReopen dir.inode)

def dirClose : Option Dir → Fs Unit
  | none => return ()
  | some dir => inodeClose dir.inode

/-- The open inode a pointer points to. -/
def theInode (sector : BlockSector) : Fs Inode := do
  match findInode sector (← get).openInodes with
  | none => throw (.undefined "inode")
  | some inode => return inode

/-! ## Looking up -/

/-- `strcmp (name, e.name) == 0`, from byte `i` on. -/
def sameName (name : Fin (nameMax + 1) → UInt8) : ℕ → List UInt8 → Fs Bool
  | i, [] => do
      if h : i < nameMax + 1 then return name ⟨i, h⟩ == 0 else throw (.undefined "e.name")
  | i, b :: rest => do
      if h : i < nameMax + 1 then
        if name ⟨i, h⟩ = b then sameName name (i + 1) rest else return false
      else throw (.undefined "e.name")

/-- A bound on the number of slots of a directory. -/
def maxSlots : ℕ := 349526

def lookupLoop (inode : Inode) (name : CString) : ℕ → ℤ → Fs (Option (DirEntry × ℤ))
  | 0, _ => throw .outOfFuel
  | fuel + 1, ofs => do
      let bytes ← inodeReadAt inode dirEntrySize ofs
      if bytes.length ≠ dirEntrySize then return none
      let e := DirEntry.decode fun k => bytes.getD k 0
      if e.inUse then
        if ← sameName e.name 0 name.bytes then return some (e, ofs)
      lookupLoop inode name fuel (ofs + dirEntrySize)

/-- `lookup`: the entry and its offset. -/
def lookup (dir : Dir) (name : CString) : Fs (Option (DirEntry × ℤ)) := do
  lookupLoop (← theInode dir.inode) name (maxSlots + 1) 0

/-- `dir_lookup`: the inode and `is_dir`.  If the name is not found, `*is_dir` is set from
an uninitialised variable; no caller uses it. -/
def dirLookup (dir : Dir) (name : CString) : Fs (Option (Inode × Bool)) := do
  match ← lookup dir name with
  | none => return none
  | some (e, _) =>
    match ← inodeOpen e.inodeSector with
    | none => return none
    | some inode => return some (inode, e.isDir)

/-! ## Adding and removing -/

/-- The loop of `dir_add` that looks for a free slot; `e` is what the last read left. -/
def freeSlotLoop (inode : Inode) : ℕ → ℤ → DirEntry → Fs (DirEntry × ℤ)
  | 0, _, _ => throw .outOfFuel
  | fuel + 1, ofs, e => do
      let bytes ← inodeReadAt inode dirEntrySize ofs
      let e := e.overwrite bytes
      if bytes.length ≠ dirEntrySize then return (e, ofs)
      if !e.inUse then return (e, ofs)
      freeSlotLoop inode fuel (ofs + dirEntrySize) e

def dirAdd (dir : Dir) (name : CString) (inodeSector : BlockSector) (isDir : Bool) : Fs Bool := do
  if name.bytes = [] ∨ nameMax < name.bytes.length then return false
  if (← lookup dir name).isSome then return false
  let inode ← theInode dir.inode
  let (e, ofs) ← freeSlotLoop inode (maxSlots + 1) 0 .uninitialised
  let e := { e.strlcpy name with inUse := true, inodeSector := inodeSector, isDir := isDir }
  return (← inodeWriteAt inode e.encode dirEntrySize ofs) == dirEntrySize

/-- `strlcpy (name, e.name, NAME_MAX + 1)`: the string in the entry. -/
def entryName (name : Fin (nameMax + 1) → UInt8) : Fs CString := do
  let bytes := List.ofFn name
  if 0 ∈ bytes then
    return ⟨bytes.takeWhile (· ≠ 0), fun h => by simpa using List.mem_takeWhile_imp h⟩
  else throw (.undefined "e.name")

/-- The loop of `dir_readdir` from `pos` on. -/
def readdirLoop (inode : Inode) : ℕ → ℤ → Fs (Option CString × ℤ)
  | 0, _ => throw .outOfFuel
  | fuel + 1, pos => do
      let bytes ← inodeReadAt inode dirEntrySize pos
      if bytes.length ≠ dirEntrySize then return (none, pos)
      let e := DirEntry.decode fun k => bytes.getD k 0
      if e.inUse then return (some (← entryName e.name), pos + dirEntrySize)
      readdirLoop inode fuel (pos + dirEntrySize)

/-- `dir_readdir`: the name, and the directory with its new position. -/
def dirReaddir (dir : Dir) : Fs (Option CString × Dir) := do
  let (name, pos) ← readdirLoop (← theInode dir.inode) (maxSlots + 1) dir.pos
  return (name, { dir with pos := pos })

/-- The test of `dir_remove` for an entry that is a directory.  It reads the directory the
entry is in, not the one it names. -/
def checkEmpty (dir : Dir) : Fs Bool := do
  match ← dirReopen dir with
  | none => throw (.undefined "dir_copy")
  | some copy =>
    if (← dirReaddir copy).1.isNone then return false
    dirClose copy
    return true

def dirRemove (dir : Dir) (name : CString) : Fs Bool := do
  match ← lookup dir name with
  | none => return false
  | some (e, ofs) =>
    match ← inodeOpen e.inodeSector with
    | none => return false
    | some inode =>
      if e.isDir then
        if !(← checkEmpty dir) then
          inodeClose inode.sector
          return false
      let e := { e with inUse := false }
      if (← inodeWriteAt (← theInode dir.inode) e.encode dirEntrySize ofs) ≠ dirEntrySize then
        inodeClose inode.sector
        return false
      inodeRemove inode.sector
      inodeClose inode.sector
      return true

def initDir (parent child : Dir) : Fs Unit := do
  let _ ← dirAdd child dotDot parent.inode true
  let _ ← dirAdd child dot child.inode true

/-! ## Paths -/

/-- The results of `get_next_part`: 0, -1, or 1 with the part and the rest of the path. -/
inductive NextPart where
  | done
  | tooLong
  | part (name path : CString)

def getNextPart (path : CString) : NextPart :=
  let src := path.dropWhile (· = 47)
  if src.bytes = [] then .done
  else if nameMax < (src.takeWhile (· ≠ 47)).bytes.length then .tooLong
  else .part (src.takeWhile (· ≠ 47)) (src.dropWhile (· ≠ 47))

/-- The loop of `path_resolution`.  It returns whether the path is valid, the directory,
and what `name` holds, if anything has been stored there. -/
def resolveLoop : ℕ → Option Dir → Option CString → CString →
    Fs (Bool × Option Dir × Option CString)
  | 0, _, _, _ => throw .outOfFuel
  | fuel + 1, dir, name, path => do
      match getNextPart path with
      | .done => return (true, dir, name)
      | .tooLong => return (false, dir, name)
      | .part name path =>
        match dir with
        | none => throw (.panic "dir != NULL")
        | some current =>
          match ← dirLookup current name with
          | none => return (path.bytes = [], dir, some name)
          | some (inode, isDir) =>
            if isDir then
              dirClose dir
              resolveLoop fuel (← dirOpen (some inode)) (some name) path
            else return (path.bytes = [], dir, some name)

/-- `path_resolution`, from the current directory of the thread. -/
def pathResolution (cwd : Dir) (path : CString) : Fs (Bool × Option Dir × Option CString) := do
  let dir ← if path.bytes.head? = some 47 then dirOpenRoot else dirReopen cwd
  resolveLoop (path.bytes.length + 1) dir none path

/-! ## Creating and opening by name -/

/-- `filesys_create`; `dir_create` takes the size as a `size_t`. -/
def filesysCreate (name : Option CString) (initialSize : ℤ) (dir : Option Dir) (isDir : Bool) :
    Fs Bool := do
  match dir with
  | none => return false
  | some dir =>
    match ← freeMapAllocate 1 with
    | none => return false
    | some inodeSector =>
      let created ←
        if isDir then dirCreate inodeSector (initialSize % 4294967296).toNat
        else inodeCreate inodeSector initialSize
      let success ←
        if created then
          match name with
          | none => throw (.undefined "name")
          | some name => dirAdd dir name inodeSector isDir
        else pure false
      if !success ∧ inodeSector ≠ 0 then freeMapRelease inodeSector 1
      return success

/-- What `filesys_open` returns: a `struct file *` or a `struct dir *`. -/
inductive OpenFile where
  | file (inode : BlockSector)
  | dir (dir : Dir)
  deriving DecidableEq

def fileOpen (inode : Option Inode) : Fs (Option BlockSector) := do
  let file ← malloc
  match inode with
  | none => return none
  | some inode =>
    if file then return some inode.sector
    else
      inodeClose inode.sector
      return none

/-- `filesys_open`.  If nothing is found, `dir_open` and `file_open` do the same. -/
def filesysOpen (dir : Option Dir) (name : CString) : Fs (Option OpenFile) := do
  let found ←
    match dir with
    | none => pure none
    | some dir => dirLookup dir name
  match found with
  | some (inode, true) => return (← dirOpen (some inode)).map .dir
  | some (inode, false) => return (← fileOpen (some inode)).map .file
  | none => return (← fileOpen none).map .file

end FileSys

end CS162
