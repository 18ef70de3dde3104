import Mathlib.Data.List.GetD
import Mathlib.Logic.Relation
import CS162.Library.Words
import CS162.Userprog.Tokenize

/-!
# load and setup_stack

`load` of `process.c` from the point where its static variable `file` has been assigned.
It runs in small steps: each step makes one access to `file`, `argv` or `argc`, which other
threads may have written in the meantime, or one allocation.  A step sees these variables
as a `LoadEnv`, so that the same function describes `load` among other threads and `load`
running alone.

`Alone` is `load` with a `file`, an `argv` and an `argc` of its own.  It never does anything
undefined (`Alone.next_ne_undefined`), and if it succeeds the process has opened that file and
finds exactly those arguments on its stack (`Alone.loaded`).

The kernel stack, which holds the array `argv_addr` of `setup_stack`, is not modelled.
-/

namespace CS162

open Library List

/-! ## The executable -/

abbrev FileId := ℕ

/-- The part of the file system `load` sees; a name is looked up in the current directory
of the thread. -/
structure Disk where
  lookup : ℕ → Bytes → Option FileId
  content : FileId → Bytes

/-- `struct file`. -/
structure Handle where
  file : FileId
  pos : ℕ
  deriving DecidableEq

def fileRead (d : Disk) (h : Handle) (size : ℕ) : Bytes × Handle :=
  let bytes := ((d.content h.file).drop h.pos).take size
  (bytes, { h with pos := h.pos + bytes.length })

def fileLength (d : Disk) (h : Handle) : ℕ := (d.content h.file).length

/-- A 16-bit field. -/
def halfField (b : Bytes) (i : ℕ) : ℕ := (b.getD i 0).toNat + 256 * (b.getD (i + 1) 0).toNat

/-- A 32-bit field. -/
def wordField (b : Bytes) (i : ℕ) : UInt32 :=
  word (b.getD i 0) (b.getD (i + 1) 0) (b.getD (i + 2) 0) (b.getD (i + 3) 0)

/-- The fields of `struct Elf32_Ehdr` that are used after the checks. -/
structure Ehdr where
  entry : UInt32
  phoff : UInt32
  phnum : ℕ
  deriving DecidableEq

def ehdrSize : ℕ := 52

def phdrSize : ℕ := 32

/-- The checks `load` makes of the executable header. -/
def ehdrValid (b : Bytes) : Bool :=
  b.length = ehdrSize ∧ b.take 7 = [0x7f, 0x45, 0x4c, 0x46, 1, 1, 1] ∧ halfField b 16 = 2 ∧
    halfField b 18 = 3 ∧ wordField b 20 = 1 ∧ halfField b 42 = phdrSize ∧ halfField b 44 ≤ 1024

def readEhdr (b : Bytes) : Ehdr := ⟨wordField b 24, wordField b 28, halfField b 44⟩

/-- The fields of `struct Elf32_Phdr` that `load` uses. -/
structure Phdr where
  type : UInt32
  offset : UInt32
  vaddr : UInt32
  filesz : UInt32
  memsz : UInt32
  flags : UInt32
  deriving DecidableEq

def readPhdr (b : Bytes) : Phdr :=
  ⟨wordField b 0, wordField b 4, wordField b 8, wordField b 16, wordField b 20, wordField b 24⟩

def pgMask : UInt32 := 4095

/-- `validate_segment`, given the length of the file. -/
def validateSegment (ph : Phdr) (length : ℕ) : Bool :=
  ph.offset &&& pgMask = ph.vaddr &&& pgMask ∧ ph.offset.toNat ≤ length ∧ ph.filesz ≤ ph.memsz ∧
    ph.memsz ≠ 0 ∧ ph.vaddr.toNat < physBase ∧ (ph.vaddr + ph.memsz).toNat < physBase ∧
    ph.vaddr ≤ ph.vaddr + ph.memsz ∧ pgSize ≤ ph.vaddr.toNat

/-- The arguments of `load_segment`. -/
structure Segment where
  ofs : UInt32
  upage : UInt32
  readBytes : UInt32
  zeroBytes : UInt32
  writable : Bool
  deriving DecidableEq

/-- `ROUND_UP (x, PGSIZE)`. -/
def roundUp (x : UInt32) : UInt32 := (x + 4095) / 4096 * 4096

def segmentOf (ph : Phdr) : Segment :=
  let pageOffset := ph.vaddr &&& pgMask
  let readBytes := if 0 < ph.filesz then pageOffset + ph.filesz else 0
  { ofs := ph.offset &&& ~~~pgMask
    upage := ph.vaddr &&& ~~~pgMask
    readBytes := readBytes
    zeroBytes := roundUp (pageOffset + ph.memsz) - readBytes
    writable := ph.flags &&& 2 ≠ 0 }

/-- The assertions of `load_segment`. -/
def Segment.aligned (seg : Segment) : Bool :=
  (seg.readBytes + seg.zeroBytes) % 4096 = 0 ∧ seg.upage &&& pgMask = 0 ∧ seg.ofs % 4096 = 0

/-- What is read into the next page of a segment. -/
def Segment.pageRead (seg : Segment) : UInt32 :=
  if seg.readBytes < 4096 then seg.readBytes else 4096

/-- The segment after a page of it has been loaded. -/
def Segment.advance (seg : Segment) : Segment :=
  { seg with
    readBytes := seg.readBytes - seg.pageRead
    zeroBytes := seg.zeroBytes - (4096 - seg.pageRead)
    upage := seg.upage + 4096 }

/-- A page of the new process. -/
structure UserPage where
  upage : UInt32
  content : Bytes
  writable : Bool
  deriving DecidableEq

/-! ## The steps of load -/

/-- Where `load` is, with its local variables `i` and `file_ofs`. -/
inductive LoadPc where
  /-- `if (file == NULL)` -/
  | testFile
  | readEhdr
  /-- The head of the loop over the program headers. -/
  | phdr (i : ℕ) (ofs : ℤ)
  | seekPhdr (i : ℕ) (ofs : ℤ)
  | readPhdr (i : ℕ) (ofs : ℤ)
  | validate (i : ℕ) (ofs : ℤ) (ph : Phdr)
  /-- The call of `load_segment`, up to `file_seek`. -/
  | segSeek (i : ℕ) (ofs : ℤ) (seg : Segment)
  /-- The head of the loop of `load_segment`. -/
  | segPage (i : ℕ) (ofs : ℤ) (seg : Segment)
  | segRead (i : ℕ) (ofs : ℤ) (seg : Segment)
  | segInstall (i : ℕ) (ofs : ℤ) (seg : Segment) (content : Bytes)
  /-- `setup_stack` gets its page. -/
  | stackPage
  | stackArgs
  /-- `n` arguments are still to be pushed; `addrs` is the filled part of `argv_addr`. -/
  | pushArg (n : ℕ) (addrs : List ℕ)
  /-- The length of argument `k` with its NUL is known. -/
  | copyArg (k len : ℕ) (addrs : List ℕ)
  /-- `setup_stack` pushes everything between the arguments and `argc`. -/
  | pushTable (addrs : List ℕ)
  /-- `argc` and the return address. -/
  | pushArgc
  /-- `file_deny_write (file); t->file = file` -/
  | denyWrite
  | done (success : Bool)
  deriving DecidableEq

/-- In the loop of `load_segment`, where `file` is its parameter. -/
def LoadPc.inSegment : LoadPc → Bool
  | .segPage .. | .segRead .. | .segInstall .. => true
  | _ => false

/-- A process that is being loaded; the stack is what lies between `esp` and `PHYS_BASE`. -/
structure Loader where
  pc : LoadPc
  ehdr : Ehdr
  pages : List UserPage
  stack : Bytes
  entry : UInt32
  file : Option FileId

def Loader.start : Loader := ⟨.testFile, ⟨0, 0, 0⟩, [], [], 0, none⟩

/-- What a step of `load` reads of the variables it shares with other threads: what `file`
points to, the strings `argv` points to, and `argc`. -/
structure LoadEnv where
  file : Option Handle
  argv : ℕ → Option Bytes
  argc : ℕ

/-- The little-endian bytes of a word. -/
def le32 (n : ℕ) : Bytes :=
  let w := UInt32.ofNat n
  [byteOf w 0, byteOf w 1, byteOf w 2, byteOf w 3]

/-- `strlcpy (*esp, arg, len)` on a part of the stack that is still zero. -/
def copyArg (arg : Bytes) (len : ℕ) : Bytes :=
  arg.take (len - 1) ++ List.replicate (len - (arg.take (len - 1)).length) 0

/-- What `setup_stack` pushes after the arguments: the alignment, the null pointer, the
addresses of the arguments, and where these start. -/
def pushTable (stack : Bytes) (addrs : List ℕ) : Bytes :=
  let aligned := List.replicate ((physBase - stack.length) % 4) 0 ++ stack
  let table := addrs.flatMap le32 ++ (le32 0 ++ aligned)
  le32 (physBase - table.length) ++ table

/-- `argc` and the return address. -/
def pushArgc (stack : Bytes) (argc : ℕ) : Bytes := le32 0 ++ (le32 argc ++ stack)

/-- The page may be added to the address space. -/
def Loader.unmapped (l : Loader) (upage : UInt32) : Bool :=
  !(l.pages.any fun pg => pg.upage = upage)

/-- The page of the stack. -/
def stackUpage : UInt32 := 0xbffff000

/-- One step of `load`; `memory` tells whether an allocation succeeds.  The second result is
what `file` points to after the step. -/
def loadStep (d : Disk) (env : LoadEnv) (memory : Bool) (l : Loader) :
    Except Fault (Loader × Option Handle) :=
  let goto (pc : LoadPc) : Except Fault (Loader × Option Handle) :=
    .ok ({ l with pc := pc }, env.file)
  let access (k : Handle → Except Fault (Loader × Option Handle)) :
      Except Fault (Loader × Option Handle) :=
    match env.file with
    | none => .error (.undefined "file")
    | some h => k h
  match l.pc with
  | .testFile => goto (if env.file.isNone then .done false else .readEhdr)
  | .readEhdr => access fun h =>
    let (b, h') := fileRead d h ehdrSize
    if ehdrValid b then
      .ok ({ l with pc := .phdr 0 (intOfWord (readEhdr b).phoff), ehdr := readEhdr b }, some h')
    else .ok ({ l with pc := .done false }, some h')
  | .phdr i ofs =>
    if i < l.ehdr.phnum then access fun h =>
      goto (if ofs < 0 ∨ fileLength d h < ofs then .done false else .seekPhdr i ofs)
    else goto .stackPage
  | .seekPhdr i ofs => access fun h =>
    .ok ({ l with pc := .readPhdr i ofs }, some { h with pos := ofs.toNat })
  | .readPhdr i ofs => access fun h =>
    let (b, h') := fileRead d h phdrSize
    let ph := readPhdr b
    let pc : LoadPc :=
      if b.length ≠ phdrSize then .done false
      else if ph.type = 2 ∨ ph.type = 3 ∨ ph.type = 5 then .done false
      else if ph.type = 1 then .validate i (ofs + phdrSize) ph
      else .phdr (i + 1) (ofs + phdrSize)
    .ok ({ l with pc := pc }, some h')
  | .validate i ofs ph => access fun h =>
    goto (if validateSegment ph (fileLength d h) then .segSeek i ofs (segmentOf ph)
      else .done false)
  | .segSeek i ofs seg => access fun h =>
    if seg.aligned then
      .ok ({ l with pc := .segPage i ofs seg }, some { h with pos := seg.ofs.toNat })
    else .error (.panic "load_segment")
  | .segPage i ofs seg =>
    goto (if seg.readBytes = 0 ∧ seg.zeroBytes = 0 then .phdr (i + 1) ofs
      else if memory then .segRead i ofs seg else .done false)
  | .segRead i ofs seg => access fun h =>
    let (b, h') := fileRead d h seg.pageRead.toNat
    let content := b ++ List.replicate (pgSize - seg.pageRead.toNat) 0
    let pc : LoadPc :=
      if b.length ≠ seg.pageRead.toNat then .done false else .segInstall i ofs seg content
    .ok ({ l with pc := pc }, some h')
  | .segInstall i ofs seg content =>
    if l.unmapped seg.upage ∧ memory then
      .ok ({ l with
        pc := .segPage i ofs seg.advance
        pages := l.pages ++ [⟨seg.upage, content, seg.writable⟩] }, env.file)
    else goto (.done false)
  | .stackPage => goto (if memory ∧ l.unmapped stackUpage then .stackArgs else .done false)
  | .stackArgs => goto (.pushArg env.argc [])
  | .pushArg 0 addrs => goto (.pushTable addrs)
  | .pushArg (k + 1) addrs =>
    match env.argv k with
    | none => .error (.undefined "argv")
    | some arg => goto (.copyArg k (arg.length + 1) addrs)
  | .copyArg k len addrs =>
    match env.argv k with
    | none => .error (.undefined "argv")
    | some arg =>
      let stack := copyArg arg len ++ l.stack
      if pgSize < stack.length then .error (.undefined "stack")
      else .ok ({ l with
        pc := .pushArg k ((physBase - stack.length) :: addrs)
        stack := stack }, env.file)
  | .pushTable addrs =>
    let stack := pushTable l.stack (addrs.take env.argc)
    if addrs.length < env.argc then .error (.undefined "argv_addr")
    else if pgSize < stack.length then .error (.undefined "stack")
    else .ok ({ l with pc := .pushArgc, stack := stack }, env.file)
  | .pushArgc =>
    let stack := pushArgc l.stack env.argc
    if pgSize < stack.length then .error (.undefined "stack")
    else .ok ({ l with pc := .denyWrite, stack := stack, entry := l.ehdr.entry }, env.file)
  | .denyWrite => access fun h =>
    .ok ({ l with pc := .done true, file := some h.file }, env.file)
  | .done success => goto (.done success)

/-! ## What a program finds on its stack -/

def userWord (stack : Bytes) (addr : ℕ) : ℕ :=
  (wordField stack (addr - (physBase - stack.length))).toNat

def userString (stack : Bytes) (addr : ℕ) : Bytes :=
  stringAt stack (addr - (physBase - stack.length))

/-- `argc` of the new process. -/
def stackArgc (stack : Bytes) : ℕ := userWord stack (physBase - stack.length + 4)

/-- The strings of `argv` of the new process. -/
def stackArgv (stack : Bytes) : List Bytes :=
  (List.range (stackArgc stack)).map fun i =>
    userString stack (userWord stack (userWord stack (physBase - stack.length + 8) + 4 * i))

/-- The argument stands on the stack at the address. -/
def OnStack (stack : Bytes) (addr : ℕ) (arg : Bytes) : Prop :=
  0 ∉ arg ∧ ∃ above, (arg ++ 0 :: above) <:+ stack ∧ addr = physBase - (arg ++ 0 :: above).length

variable {stack arg : Bytes}

theorem OnStack.mono {stack' : Bytes} {addr : ℕ} (h : OnStack stack addr arg)
    (hsuffix : stack <:+ stack') : OnStack stack' addr arg := by
  obtain ⟨hnul, above, habove, haddr⟩ := h
  exact ⟨hnul, above, habove.trans hsuffix, haddr⟩

theorem OnStack.userString_eq {addr : ℕ} (h : OnStack stack addr arg)
    (hfits : stack.length ≤ physBase) : userString stack addr = arg := by
  obtain ⟨hnul, above, ⟨below, hstack⟩, haddr⟩ := h
  have hlength : stack.length = below.length + (arg ++ 0 :: above).length := by
    rw [← hstack, length_append]
  have hoffset : addr - (physBase - stack.length) = below.length := by omega
  rw [userString, hoffset, stringAt, ← hstack, drop_left, takeWhile_string hnul]

theorem OnStack.addr_lt {addr : ℕ} (h : OnStack stack addr arg) : addr < 4294967296 := by
  obtain ⟨_, above, _, haddr⟩ := h
  calc addr ≤ physBase := haddr ▸ Nat.sub_le _ _
    _ < 4294967296 := by decide

theorem wordField_le32 {n : ℕ} (hn : n < 4294967296) (below above : Bytes) :
    (wordField (below ++ (le32 n ++ above)) below.length).toNat = n := by
  have hget : ∀ k < 4, (below ++ (le32 n ++ above)).getD (below.length + k) 0 =
      byteOf (UInt32.ofNat n) k := by
    intro k hk
    rw [getD_append_right _ _ _ _ (by omega), Nat.add_sub_cancel_left]
    have hk' : k = 0 ∨ k = 1 ∨ k = 2 ∨ k = 3 := by omega
    rcases hk' with rfl | rfl | rfl | rfl <;> rfl
  have h0 := hget 0 (by omega)
  rw [add_zero] at h0
  rw [wordField, h0, hget 1 (by omega), hget 2 (by omega), hget 3 (by omega), word_byteOf]
  rw [UInt32.toNat_ofNat']
  omega

theorem length_flatMap_le32 (addrs : List ℕ) : (addrs.flatMap le32).length = 4 * addrs.length := by
  induction addrs with
  | nil => rfl
  | cons a addrs ih =>
    rw [flatMap_cons, length_append, length_cons]
    simp only [le32, length_cons, length_nil]
    omega

theorem wordField_table {addrs : List ℕ} (h : ∀ a ∈ addrs, a < 4294967296) {i : ℕ}
    (hi : i < addrs.length) (below above : Bytes) :
    (wordField (below ++ (addrs.flatMap le32 ++ above)) (below.length + 4 * i)).toNat =
      addrs[i] := by
  have hsplit : addrs.flatMap le32 =
      (addrs.take i).flatMap le32 ++ (le32 addrs[i] ++ (addrs.drop (i + 1)).flatMap le32) := by
    conv_lhs => rw [← take_append_drop i addrs, drop_eq_getElem_cons hi]
    rw [flatMap_append, flatMap_cons]
  have hlength : (below ++ (addrs.take i).flatMap le32).length = below.length + 4 * i := by
    rw [length_append, length_flatMap_le32, length_take, min_eq_left (by omega)]
  have hword := wordField_le32 (h _ (getElem_mem hi))
    (below ++ (addrs.take i).flatMap le32) ((addrs.drop (i + 1)).flatMap le32 ++ above)
  rw [hlength] at hword
  rw [hsplit]
  simpa only [append_assoc] using hword

/-- What stands above the addresses of the arguments. -/
def alignedStack (stack : Bytes) : Bytes :=
  le32 0 ++ (List.replicate ((physBase - stack.length) % 4) 0 ++ stack)

theorem suffix_pushArgc (stack : Bytes) (addrs : List ℕ) (argc : ℕ) :
    stack <:+ pushArgc (pushTable stack addrs) argc := by
  iterate 5 apply List.IsSuffix.trans ?_ (suffix_append _ _)
  exact suffix_append _ _

theorem length_le32 (n : ℕ) : (le32 n).length = 4 := rfl

theorem userWord_offset (stack : Bytes) (offset : ℕ) :
    userWord stack (physBase - stack.length + offset) = (wordField stack offset).toNat := by
  rw [userWord, Nat.add_sub_cancel_left]

/-- **The words on the stack.** -/
theorem words_pushArgc {addrs : List ℕ} {argc : ℕ} (hbelow : ∀ a ∈ addrs, a < 4294967296)
    (hargc : argc < 4294967296) {final : Bytes} {esp : ℕ}
    (hfinal : final = pushArgc (pushTable stack addrs) argc) (hesp : esp = physBase - final.length)
    (hfits : final.length ≤ physBase) :
    userWord final esp = 0 ∧ userWord final (esp + 4) = argc ∧ userWord final (esp + 8) = esp + 12 ∧
      (∀ i (hi : i < addrs.length), userWord final (esp + 12 + 4 * i) = addrs[i]) ∧
      userWord final (esp + 12 + 4 * addrs.length) = 0 := by
  set table := addrs.flatMap le32 ++ alignedStack stack with htable
  have hlayout : final = le32 0 ++ (le32 argc ++ (le32 (physBase - table.length) ++ table)) :=
    hfinal
  have hsize : final.length = 12 + table.length := by
    rw [hlayout]
    simp only [length_append, length_le32]
    omega
  have hword : ∀ offset, userWord final (esp + offset) = (wordField final offset).toNat := by
    intro offset
    rw [hesp, userWord_offset]
  refine ⟨?_, ?_, ?_, fun i hi => ?_, ?_⟩
  · rw [← add_zero esp, hword, hlayout]
    exact wordField_le32 (by decide) [] _
  · rw [hword, hlayout]
    exact wordField_le32 hargc (le32 0) _
  · rw [hword, hlayout]
    refine (wordField_le32 (by simp only [physBase]; omega) (le32 0 ++ le32 argc) table).trans ?_
    omega
  · rw [add_assoc, hword, hlayout]
    have htableWord := wordField_table hbelow hi
      (le32 0 ++ (le32 argc ++ le32 (physBase - table.length))) (alignedStack stack)
    exact htableWord
  · rw [add_assoc, hword, hlayout]
    set below := le32 0 ++ (le32 argc ++ (le32 (physBase - table.length) ++ addrs.flatMap le32))
      with hbelow
    have hlength : below.length = 12 + 4 * addrs.length := by
      simp only [hbelow, length_append, length_le32, length_flatMap_le32]
      omega
    have hnull := @wordField_le32 0 (by decide) below
      (replicate ((physBase - stack.length) % 4) 0 ++ stack)
    rw [hlength] at hnull
    exact hnull

/-- **The arguments arrive.**  A program that is started with this stack finds the arguments
that `setup_stack` has pushed. -/
theorem stackArgv_pushArgc {addrs : List ℕ} {args : List Bytes}
    (honstack : List.Forall₂ (OnStack stack) addrs args)
    (hfits : (pushArgc (pushTable stack addrs) args.length).length ≤ physBase) :
    stackArgc (pushArgc (pushTable stack addrs) args.length) = args.length ∧
      stackArgv (pushArgc (pushTable stack addrs) args.length) = args := by
  have hlen : addrs.length = args.length := honstack.length_eq
  have hbelow : ∀ a ∈ addrs, a < 4294967296 := by
    intro a ha
    obtain ⟨j, hj, rfl⟩ := getElem_of_mem ha
    exact (honstack.get hj (hlen ▸ hj)).addr_lt
  have hargc : args.length < 4294967296 := by
    simp only [pushArgc, pushTable, length_append, length_flatMap_le32, physBase] at hfits
    omega
  obtain ⟨-, hargc, hargv, haddr, -⟩ := words_pushArgc hbelow hargc rfl rfl hfits
  refine ⟨hargc, ?_⟩
  apply ext_getElem
  · rw [stackArgv, stackArgc, hargc, length_map, length_range]
  · intro i hi hi'
    simp only [stackArgv, getElem_map, getElem_range, hargv]
    rw [haddr i (by omega)]
    have hget : OnStack stack addrs[i] args[i] := honstack.get (by omega) (by omega)
    exact (hget.mono (suffix_pushArgc stack addrs args.length)).userString_eq hfits

/-! ## load alone -/

/-- A step of `load` when no other thread uses its variables. -/
def AloneStep (d : Disk) (args : List Bytes) (l l' : Loader × Option Handle) : Prop :=
  ∃ memory, loadStep d ⟨l.2, fun k => args[k]?, args.length⟩ memory l.1 = .ok l'

/-- `load`, working alone on the file and the arguments, can get here. -/
def Alone (d : Disk) (file : Option FileId) (args : List Bytes) (l : Loader)
    (h : Option Handle) : Prop :=
  Relation.ReflTransGen (AloneStep d args) (Loader.start, file.map fun f => ⟨f, 0⟩) (l, h)

/-- What the arguments take on the stack. -/
def argBytes (args : List Bytes) : ℕ := (args.map fun arg => arg.length + 1).sum

def stackSize (args : List Bytes) : ℕ := (argBytes args + 3) / 4 * 4 + 4 * args.length + 16

/-- The steps before `setup_stack` has its page. -/
def LoadPc.early : LoadPc → Bool
  | .pushArg .. | .copyArg .. | .pushTable .. | .pushArgc | .denyWrite | .done _ => false
  | _ => true

/-- What the stack holds when `load` has got so far. -/
def stackFits (args : List Bytes) (stack : Bytes) : LoadPc → Prop
  | .pushArg n addrs => n ≤ args.length ∧ List.Forall₂ (OnStack stack) addrs (args.drop n) ∧
      stack.length = argBytes (args.drop n)
  | .copyArg k len addrs => (∃ arg, args[k]? = some arg ∧ len = arg.length + 1) ∧
      List.Forall₂ (OnStack stack) addrs (args.drop (k + 1)) ∧
      stack.length = argBytes (args.drop (k + 1))
  | .pushTable addrs =>
    List.Forall₂ (OnStack stack) addrs args ∧ stack.length = argBytes args
  | .pushArgc => ∃ above addrs, stack = pushTable above addrs ∧
      List.Forall₂ (OnStack above) addrs args ∧ above.length = argBytes args
  | .denyWrite | .done true => stackArgc stack = args.length ∧ stackArgv stack = args
  | .done false => True
  | _ => stack = []

/-- The invariant of `load` alone. -/
structure Loading (file : Option FileId) (args : List Bytes) (l : Loader) (h : Option Handle) :
    Prop where
  handle : h.map Handle.file = file
  present : l.pc ≠ .testFile → l.pc ≠ .done false → h.isSome
  stack : stackFits args l.stack l.pc
  opened : l.pc = .done true → l.file = file

theorem loading_start (file : Option FileId) (args : List Bytes) :
    Loading file args Loader.start (file.map fun f => ⟨f, 0⟩) where
  handle := by cases file <;> rfl
  present h := absurd rfl h
  stack := rfl
  opened h := nomatch h

theorem stackFits_early {args : List Bytes} {pc : LoadPc} (h : pc.early = true) :
    stackFits args stack pc ↔ stack = [] := by
  cases pc <;> first | rfl | exact absurd h (by simp [LoadPc.early])

/-- Before `setup_stack` has its page the stack stays empty. -/
theorem loadStep_early {d : Disk} {env : LoadEnv} {memory : Bool} {l l' : Loader}
    {h' : Option Handle} (hearly : l.pc.early = true)
    (hstep : loadStep d env memory l = .ok (l', h')) :
    h'.map Handle.file = env.file.map Handle.file ∧ l'.stack = l.stack ∧
      (l'.pc = .done false ∨ (l.pc = .testFile → env.file.isSome) ∧
        (l'.pc = .pushArg env.argc [] ∨ l'.pc.early = true ∧ l'.pc ≠ .testFile)) := by
  obtain ⟨file, argv, argc⟩ := env
  obtain ⟨pc, ehdr, pages, stack, entry, opened⟩ := l
  cases file <;> cases pc <;>
    simp only [reduceCtorEq, loadStep] at hearly hstep <;>
    (repeat' split at hstep) <;> simp_all <;> grind [LoadPc.early, fileRead]

theorem loadStep_early_ne_undefined {d : Disk} {env : LoadEnv} {memory : Bool} {l : Loader}
    (hearly : l.pc.early = true) (hpresent : l.pc ≠ .testFile → env.file.isSome) (site : String) :
    loadStep d env memory l ≠ .error (.undefined site) := by
  obtain ⟨file, argv, argc⟩ := env
  obtain ⟨pc, ehdr, pages, stack, entry, opened⟩ := l
  cases file <;> cases pc <;> simp_all [LoadPc.early, loadStep] <;> grind

theorem copyArg_self (arg : Bytes) : copyArg arg (arg.length + 1) = arg ++ [0] := by
  simp [copyArg]

theorem argBytes_cons (arg : Bytes) (args : List Bytes) :
    argBytes (arg :: args) = arg.length + 1 + argBytes args := by
  simp [argBytes]

theorem argBytes_drop_le (args : List Bytes) (k : ℕ) : argBytes (args.drop k) ≤ argBytes args := by
  induction args generalizing k with
  | nil => simp
  | cons arg args ih =>
    cases k with
    | zero => rfl
    | succ k =>
      exact (ih k).trans (Nat.le_add_left _ _)

theorem length_pushTable (stack : Bytes) (addrs : List ℕ) (hfits : stack.length ≤ physBase) :
    (pushTable stack addrs).length = (stack.length + 3) / 4 * 4 + 4 * addrs.length + 8 := by
  simp only [pushTable, length_append, length_le32, length_flatMap_le32, length_replicate]
  simp only [physBase] at hfits ⊢
  omega

theorem length_push {args : List Bytes} {k : ℕ}
    (hget : args[k]? = some arg) (hlength : stack.length = argBytes (args.drop (k + 1))) :
    (copyArg arg (arg.length + 1) ++ stack).length = argBytes (args.drop k) := by
  obtain ⟨hk, harg⟩ := List.getElem?_eq_some_iff.mp hget
  rw [drop_eq_getElem_cons hk, harg, argBytes_cons, copyArg_self]
  simp only [length_append, length_cons, length_nil]
  rw [hlength]

theorem onStack_push {args : List Bytes} {k : ℕ} {addrs : List ℕ} (hget : args[k]? = some arg)
    (hnul : 0 ∉ arg) (hrest : List.Forall₂ (OnStack stack) addrs (args.drop (k + 1))) :
    List.Forall₂ (OnStack (copyArg arg (arg.length + 1) ++ stack))
      ((physBase - (copyArg arg (arg.length + 1) ++ stack).length) :: addrs) (args.drop k) := by
  obtain ⟨hk, harg⟩ := List.getElem?_eq_some_iff.mp hget
  have hdrop : args.drop k = arg :: args.drop (k + 1) := by rw [drop_eq_getElem_cons hk, harg]
  have hstack : copyArg arg (arg.length + 1) ++ stack = arg ++ 0 :: stack := by
    rw [copyArg_self, append_assoc]
    rfl
  rw [hdrop, hstack]
  constructor
  · exact ⟨hnul, stack, suffix_refl _, rfl⟩
  · exact hrest.imp fun addr arg' h => h.mono (hstack ▸ suffix_append _ _)

section Alone

variable {d : Disk} {file : Option FileId} {args : List Bytes} {l : Loader}
  {h : Option Handle} {memory : Bool}

/-- What a step of `load` may lead to.  It is undefined only if the arguments do not fit on the
page of the stack. -/
def StepFits (file : Option FileId) (args : List Bytes) :
    Except Fault (Loader × Option Handle) → Prop
  | .ok r => Loading file args r.1 r.2
  | .error (.undefined _) => pgSize < stackSize args
  | .error _ => True

theorem Loading.step_early (hload : Loading file args l h) (hearly : l.pc.early = true)
    (d : Disk) (memory : Bool) :
    StepFits file args (loadStep d ⟨h, fun k => args[k]?, args.length⟩ memory l) := by
  have hpresent : l.pc ≠ .testFile → h.isSome := by
    intro hpc
    exact hload.present hpc (by rintro heq; rw [heq] at hearly; cases hearly)
  cases hstep : loadStep d ⟨h, fun k => args[k]?, args.length⟩ memory l with
  | error e =>
    cases e with
    | undefined site => exact absurd hstep (loadStep_early_ne_undefined hearly hpresent site)
    | _ => trivial
  | ok r =>
    obtain ⟨hfile, hstack, hpc⟩ := loadStep_early hearly hstep
    have hempty : r.1.stack = [] := hstack.trans ((stackFits_early hearly).mp hload.stack)
    have hhandle : r.2.map Handle.file = file := hfile.trans hload.handle
    rcases hpc with hdone | ⟨htest, hpc⟩
    · exact ⟨hhandle, fun _ hne => absurd hdone hne, by rw [hdone]; trivial,
        fun heq => by rw [hdone] at heq; cases heq⟩
    have hsome : r.2.isSome := by
      rw [← Option.isSome_map, hfile, Option.isSome_map]
      by_cases hpc : l.pc = .testFile
      · exact htest hpc
      · exact hpresent hpc
    rcases hpc with hpush | ⟨hearly', -⟩
    · refine ⟨hhandle, fun _ _ => hsome, ?_, fun heq => by rw [hpush] at heq; cases heq⟩
      rw [hpush, hempty]
      exact ⟨le_refl _, by simp, by simp [argBytes]⟩
    · exact ⟨hhandle, fun _ _ => hsome, (stackFits_early hearly').mpr hempty,
        fun heq => by rw [heq] at hearly'; cases hearly'⟩

theorem Loading.step (hnul : ∀ arg ∈ args, 0 ∉ arg) (hload : Loading file args l h) (d : Disk)
    (memory : Bool) :
    StepFits file args (loadStep d ⟨h, fun k => args[k]?, args.length⟩ memory l) := by
  by_cases hearly : l.pc.early = true
  · exact hload.step_early hearly d memory
  obtain ⟨hhandle, hpresent, hstack, hopened⟩ := hload
  obtain ⟨pc, ehdr, pages, stack, entry, opened⟩ := l
  have hsome : pc ≠ .done false → h.isSome := hpresent (by rintro rfl; exact hearly rfl)
  have hlater : pc ≠ .done false → ∀ l' : Loader, l'.pc ≠ .done true →
      stackFits args l'.stack l'.pc → Loading file args l' h :=
    fun hne l' hpc hfits => ⟨hhandle, fun _ _ => hsome hne, hfits, fun heq => absurd heq hpc⟩
  have hbelow : stackSize args ≤ pgSize → argBytes args ≤ physBase := by
    simp only [stackSize, pgSize, physBase]
    omega
  cases pc with
  | pushArg n addrs =>
    obtain ⟨hn, hforall, hlength⟩ := hstack
    cases n with
    | zero => exact hlater nofun _ nofun ⟨hforall, hlength⟩
    | succ k =>
      have hget : args[k]? = some args[k] := getElem?_eq_getElem hn
      simp only [loadStep, hget]
      exact hlater nofun _ nofun ⟨⟨_, hget, rfl⟩, hforall, hlength⟩
  | copyArg k len addrs =>
    obtain ⟨⟨arg, hget, rfl⟩, hforall, hlength⟩ := hstack
    simp only [loadStep, hget]
    split
    · next hover =>
      rw [length_push hget hlength] at hover
      refine hover.trans_le ((argBytes_drop_le args k).trans ?_)
      rw [stackSize]
      omega
    obtain ⟨hk, -⟩ := List.getElem?_eq_some_iff.mp hget
    exact hlater nofun _ nofun ⟨hk.le, onStack_push hget (hnul arg (mem_of_getElem? hget)) hforall,
      length_push hget hlength⟩
  | pushTable addrs =>
    obtain ⟨hforall, hlength⟩ := hstack
    have hlen := hforall.length_eq
    simp only [loadStep, hlen, lt_irrefl, if_false, take_of_length_le hlen.le]
    split
    · next hover =>
      refine lt_of_not_ge fun hsize => ?_
      rw [length_pushTable _ _ (hlength ▸ hbelow hsize), hlength] at hover
      rw [stackSize] at hsize
      omega
    exact hlater nofun _ nofun ⟨stack, addrs, rfl, hforall, hlength⟩
  | pushArgc =>
    obtain ⟨above, addrs, rfl, hforall, hlength⟩ := hstack
    simp only [loadStep]
    split
    · next hover =>
      refine lt_of_not_ge fun hsize => ?_
      simp only [pushArgc, length_append, length_le32] at hover
      rw [length_pushTable _ _ (hlength ▸ hbelow hsize), hforall.length_eq] at hover
      rw [stackSize] at hsize
      omega
    next hfits =>
    exact hlater nofun _ nofun (stackArgv_pushArgc hforall ((not_lt.mp hfits).trans (by decide)))
  | denyWrite =>
    obtain ⟨f, rfl⟩ := Option.isSome_iff_exists.mp (hsome nofun)
    exact ⟨hhandle, fun _ _ => rfl, hstack, fun _ => hhandle⟩
  | done success => exact ⟨hhandle, hpresent, hstack, hopened⟩
  | _ => exact absurd rfl hearly

/-- A step of `load` reads no more of `argv` than the arguments. -/
theorem Loading.loadStep_eq (hload : Loading file args l h) {env : LoadEnv} (hfile : env.file = h)
    (hargv : ∀ k arg, args[k]? = some arg → env.argv k = some arg)
    (hargc : env.argc = args.length) :
    loadStep d env memory l = loadStep d ⟨h, fun k => args[k]?, args.length⟩ memory l := by
  obtain ⟨efile, argv, argc⟩ := env
  subst hfile hargc
  dsimp only at hargv
  have hstack := hload.stack
  obtain ⟨pc, ehdr, pages, stack, entry, opened⟩ := l
  cases pc with
  | pushArg n addrs =>
    obtain ⟨hn, -⟩ := hstack
    cases n with
    | zero => rfl
    | succ k =>
      have hget : args[k]? = some args[k] := getElem?_eq_getElem hn
      simp only [loadStep, hget, hargv k _ hget]
  | copyArg k len addrs =>
    obtain ⟨⟨arg, hget, rfl⟩, -⟩ := hstack
    simp only [loadStep, hget, hargv k _ hget]
  | _ => rfl

theorem Alone.loading (hnul : ∀ arg ∈ args, 0 ∉ arg) (halone : Alone d file args l h) :
    Loading file args l h := by
  suffices hall : ∀ s, Relation.ReflTransGen (AloneStep d args)
      (Loader.start, file.map fun f => ⟨f, 0⟩) s → Loading file args s.1 s.2 from hall _ halone
  intro s hs
  induction hs with
  | refl => exact loading_start file args
  | tail _ hstep ih =>
    obtain ⟨memory, hstep⟩ := hstep
    have hfits := ih.step hnul d memory
    rwa [hstep] at hfits

/-- **A load that nobody disturbs is right.**  The process runs the file and finds the
arguments. -/
theorem Alone.loaded (hnul : ∀ arg ∈ args, 0 ∉ arg) (halone : Alone d file args l h)
    (hdone : l.pc = .done true) :
    file.isSome ∧ l.file = file ∧ stackArgc l.stack = args.length ∧ stackArgv l.stack = args := by
  have hload := halone.loading hnul
  have hsome : h.isSome := hload.present (by simp [hdone]) (by simp [hdone])
  have hstack := hload.stack
  rw [hdone] at hstack
  exact ⟨by rw [← hload.handle, Option.isSome_map]; exact hsome, hload.opened hdone, hstack⟩

/-- **A load that nobody disturbs is well behaved.** -/
theorem Alone.next_ne_undefined (hnul : ∀ arg ∈ args, 0 ∉ arg) (hsize : stackSize args ≤ pgSize)
    (halone : Alone d file args l h) (memory : Bool) (site : String) :
    loadStep d ⟨h, fun k => args[k]?, args.length⟩ memory l ≠ .error (.undefined site) := by
  intro herror
  have hfits := (halone.loading hnul).step hnul d memory
  rw [herror] at hfits
  exact absurd hsize (not_le.mpr hfits)

end Alone

end CS162
