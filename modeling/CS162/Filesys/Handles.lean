import CS162.Library.Heap
import CS162.Library.Run
import CS162.Filesys.FileIo
import CS162.Filesys.OpenInodes

/-!
# Handles on inodes

`inode_open`, `file_open` and `dir_open` hand out pointers; `filesys/file.c` keeps a flag in
each `struct file` that says whether this file denies writes to its inode, and `inode.c`
keeps a number of deniers in each open inode.

A `Handles` is the file system with the objects that have been handed out.  An inode that
has been opened and not been given to a `struct file` or a `struct dir` is an object as
well, so that every reference to an open inode is one object.  `Exact` says that the counts
in the table of open inodes are the numbers of these objects.  Every call on live handles
keeps it and returns (`Sound.call`), unless a count would pass `INT_MAX`.
-/

namespace CS162

open Library List

/-! ## Denying writes -/

namespace FileSys

def inodeDenyWrite (sector : BlockSector) : Fs Unit := do
  updateInode sector fun inode => { inode with denyWriteCnt := inode.denyWriteCnt + 1 }
  let inode ← theInode sector
  if ¬ inode.denyWriteCnt ≤ inode.openCnt then throw (.panic "inode_deny_write")

def inodeAllowWrite (sector : BlockSector) : Fs Unit := do
  let inode ← theInode sector
  if ¬ 0 < inode.denyWriteCnt then throw (.panic "inode_allow_write")
  if ¬ inode.denyWriteCnt ≤ inode.openCnt then throw (.panic "inode_allow_write")
  updateInode sector fun inode => { inode with denyWriteCnt := inode.denyWriteCnt - 1 }

end FileSys

/-- `struct file`. -/
structure File where
  inode : BlockSector
  pos : ℤ
  denyWrite : Bool
  deriving DecidableEq

/-- What a pointer points to. -/
inductive Object where
  | inode (sector : BlockSector)
  | file (file : File)
  | dir (dir : Dir)
  deriving DecidableEq

namespace Object

/-- The inode that the object keeps open. -/
def sector : Object → BlockSector
  | inode x => x
  | file f => f.inode
  | dir d => d.inode

/-- The object denies writes to its inode. -/
def denies : Object → Bool
  | file f => f.denyWrite
  | _ => false

def inode? : Object → Option BlockSector
  | inode x => some x
  | _ => none

def file? : Object → Option File
  | file f => some f
  | _ => none

def dir? : Object → Option Dir
  | dir d => some d
  | _ => none

def on (x : BlockSector) (o : Object) : Bool := o.sector = x

def deniesOn (x : BlockSector) (o : Object) : Bool := o.denies && o.on x

end Object

open Object (inode? file? dir? on deniesOn)

abbrev Ptr := ℕ

/-- The file system and the objects that have been handed out. -/
structure Handles where
  fs : FileSys
  objects : Heap Object

/-- Kernel code that uses handles. -/
abbrev Hs := StateT Handles (Except Fault)

namespace Handles

/-! ## The calls -/

/-- A call that uses no handles. -/
def lift {α : Type} (m : Fs α) : Hs α := zoom fs (fun s fs => { s with fs := fs }) id m

def new (o : Object) : Hs Ptr := do
  let s ← get
  set { s with objects := s.objects.alloc o }
  return s.objects.next

/-- The pointer to a new object, if one is to be made. -/
def handOut (o : Option Object) : Hs (Option Ptr) := do
  match o with
  | none => return none
  | some o => return some (← new o)

/-- Frees an object, or changes it. -/
def store (p : Ptr) (o : Option Object) : Hs Unit :=
  modify fun s => { s with objects := s.objects.put p o }

/-- What a pointer to an object of some kind points to. -/
def deref {α : Type} (kind : Object → Option α) (p : Ptr) : Hs α := do
  match ((← get).objects.get p).bind kind with
  | some a => return a
  | none => throw (.undefined "pointer")

/-- The fault of a count that passes `INT_MAX`. -/
abbrev overflow : Fault := .undefined "int overflow"

/-- `open_cnt` and `deny_write_cnt` are `int`s, and the next statement increments one of them. -/
def checkCount (count : Inode → ℤ) (x : BlockSector) : Hs Unit := do
  match FileSys.findInode x (← get).fs.openInodes with
  | none => return ()
  | some i => if 2 ^ 31 - 1 ≤ count i then throw overflow

def inodeOpen (x : BlockSector) : Hs (Option Ptr) := do
  checkCount Inode.openCnt x
  handOut ((← lift (FileSys.inodeOpen x)).map fun inode => .inode inode.sector)

def inodeReopen (p : Option Ptr) : Hs (Option Ptr) := do
  match p with
  | none => return none
  | some p =>
    let x ← deref inode? p
    checkCount Inode.openCnt x
    handOut ((← lift (FileSys.inodeReopen x)).map fun inode => .inode inode.sector)

def inodeClose (p : Option Ptr) : Hs Unit := do
  match p with
  | none => return ()
  | some p =>
    let x ← deref inode? p
    lift (FileSys.inodeClose x)
    store p none

/-- `file_open` and `dir_open`, which take over the reference. -/
def openWith {β : Type} (openIt : Option Inode → Fs (Option β)) (make : β → Object)
    (p : Option Ptr) : Hs (Option Ptr) := do
  match p with
  | none =>
    let _ ← lift (openIt none)
    return none
  | some p =>
    let inode ← lift (FileSys.theInode (← deref inode? p))
    let r ← lift (openIt (some inode))
    store p none
    handOut (r.map make)

def fileOpen : Option Ptr → Hs (Option Ptr) :=
  openWith FileSys.fileOpen fun x => .file ⟨x, 0, false⟩

def fileReopen (p : Ptr) : Hs (Option Ptr) := do
  let f ← deref file? p
  checkCount Inode.openCnt f.inode
  let r ← lift (do FileSys.fileOpen (← FileSys.inodeReopen f.inode))
  handOut (r.map fun x => .file ⟨x, 0, false⟩)

def fileDenyWrite (p : Ptr) : Hs Unit := do
  let f ← deref file? p
  if !f.denyWrite then
    store p (some (.file { f with denyWrite := true }))
    checkCount Inode.denyWriteCnt f.inode
    lift (FileSys.inodeDenyWrite f.inode)

def fileAllowWrite (p : Ptr) : Hs Unit := do
  let f ← deref file? p
  if f.denyWrite then
    store p (some (.file { f with denyWrite := false }))
    lift (FileSys.inodeAllowWrite f.inode)

def fileClose (p : Option Ptr) : Hs Unit := do
  match p with
  | none => return ()
  | some p =>
    fileAllowWrite p
    let f ← deref file? p
    lift (FileSys.inodeClose f.inode)
    store p none

def dirOpen : Option Ptr → Hs (Option Ptr) := openWith FileSys.dirOpen .dir

def dirReopen (p : Ptr) : Hs (Option Ptr) := do
  let d ← deref dir? p
  checkCount Inode.openCnt d.inode
  handOut ((← lift (FileSys.dirReopen d)).map .dir)

def dirClose (p : Option Ptr) : Hs Unit := do
  match p with
  | none => return ()
  | some p =>
    let d ← deref dir? p
    lift (FileSys.dirClose (some d))
    store p none

end Handles

/-! ## Exact counts -/

open FileSys

/-- What the table says of a sector with `on` objects, `deny` of which deny writes. -/
def Tally (on deny : ℕ) : Option Inode → Prop
  | none => on = 0
  | some i => i.openCnt = on ∧ 1 ≤ i.openCnt ∧ i.denyWriteCnt = deny ∧ i.removed = false

/-- The counts of the open inodes are the numbers of objects. -/
structure Exact (l : List Inode) (h : Heap Object) : Prop where
  nodup : (l.map Inode.sector).Nodup
  entry : ∀ x, Tally (h.count (on x)) (h.count (deniesOn x)) (findInode x l)

theorem deny_le_open (h : Heap Object) (x : BlockSector) : h.count (deniesOn x) ≤ h.count (on x) :=
  Heap.count_le_count fun _ ho => ((Bool.and_eq_true _ _).mp ho).2

namespace Exact

variable {l l' : List Inode} {h h' : Heap Object} {x : BlockSector} {p : Ptr} {o : Object}
  {i : Inode} (hs : Exact l h)
include hs

theorem of_find (hi : findInode x l = some i) :
    Tally (h.count (on x)) (h.count (deniesOn x)) (some i) :=
  hi ▸ hs.entry x

theorem of_mem (hi : i ∈ l) :
    Tally (h.count (on i.sector)) (h.count (deniesOn i.sector)) (some i) := by
  obtain ⟨j, hj⟩ : ∃ j, findInode i.sector l = some j :=
    Option.isSome_iff_exists.mp (find?_isSome.mpr ⟨i, hi, by simp⟩)
  obtain rfl : j = i :=
    inj_on_of_nodup_map hs.nodup (mem_of_find?_eq_some hj) hi (sector_of_findInode hj)
  exact hs.of_find hj

/-- An object that is alive keeps its inode open. -/
theorem held (hget : h.get p = some o) : ∃ i, findInode o.sector l = some i ∧
    Tally (h.count (on o.sector)) (h.count (deniesOn o.sector)) (some i) := by
  have hentry := hs.entry o.sector
  cases hi : findInode o.sector l with
  | none =>
    rw [hi] at hentry
    exact absurd hentry (Heap.count_pos hget (by simp [on])).ne'
  | some i => exact ⟨i, rfl, hs.of_find hi⟩

/-- Only the inode in sector `x` and its objects change. -/
theorem change (hnodup : (l'.map Inode.sector).Nodup)
    (hother : ∀ y ≠ x, findInode y l' = findInode y l ∧
      h'.count (on y) = h.count (on y) ∧
      h'.count (deniesOn y) = h.count (deniesOn y))
    (hself : Tally (h'.count (on x)) (h'.count (deniesOn x)) (findInode x l')) :
    Exact l' h' := by
  refine ⟨hnodup, fun y => ?_⟩
  by_cases hy : y = x
  · rwa [hy]
  · obtain ⟨hfind, hon, hdeny⟩ := hother y hy
    rw [hfind, hon, hdeny]
    exact hs.entry y

theorem opened (hdenies : o.denies = false) : Exact (opened l o.sector) (h.alloc o) := by
  have hon : (h.alloc o).count (on o.sector) = h.count (on o.sector) + 1 := by
    simp [Heap.count_alloc, on]
  have hdeny : ∀ y, (h.alloc o).count (deniesOn y) = h.count (deniesOn y) := by
    simp [Heap.count_alloc, deniesOn, hdenies]
  refine hs.change (x := o.sector) ?_ (fun y hy => ⟨findInode_opened_of_ne hy, ?_, hdeny y⟩) ?_
  · cases hopen : findInode o.sector l with
    | none =>
      rw [opened_of_none hopen, map_cons, nodup_cons]
      refine ⟨fun hmem => ?_, hs.nodup⟩
      obtain ⟨i, hi, hx⟩ := mem_map.mp hmem
      exact absurd hx (by simpa using find?_eq_none.mp hopen i hi)
    | some i =>
      rw [opened_of_some hopen, map_sector_map (sector_bump _ _)]
      exact hs.nodup
  · simp [Heap.count_alloc, on, hy.symm]
  · have hentry := hs.entry o.sector
    have hle := deny_le_open h o.sector
    rw [findInode_opened, hon, hdeny]
    cases hopen : findInode o.sector l with
    | none =>
      rw [hopen] at hentry
      have hzero : h.count (on o.sector) = 0 := hentry
      refine ⟨by simp [hzero], le_refl _, ?_, rfl⟩
      show (0 : ℤ) = _
      omega
    | some i =>
      rw [hopen] at hentry
      obtain ⟨hcnt, hpos, hdenied, hkept⟩ := hentry
      refine ⟨?_, ?_, hdenied, hkept⟩
      · show i.openCnt + 1 = _
        omega
      · show 1 ≤ i.openCnt + 1
        omega

theorem closed (hget : h.get p = some o) (hdenies : o.denies = false) :
    Exact (closed l o.sector) (h.put p none) := by
  obtain ⟨i, hi, hcnt, hpos, hdenied, hkept⟩ := hs.held hget
  have hon := fun y => @Heap.count_put _ h p o (on y) none hget
  have hdeny : ∀ y, (h.put p none).count (deniesOn y) = h.count (deniesOn y) := by
    intro y
    simpa [deniesOn, hdenies] using @Heap.count_put _ h p o (deniesOn y) none hget
  refine hs.change (x := o.sector) ?_ (fun y hy => ⟨findInode_closed_of_ne hy, ?_, hdeny y⟩) ?_
  · unfold CS162.closed
    split
    · exact hs.nodup.sublist (filter_sublist.map _)
    · rw [map_sector_map (sector_bump _ _)]
      exact hs.nodup
  · simpa [on, hy.symm] using hon y
  have hself : (h.put p none).count (on o.sector) + 1 = h.count (on o.sector) := by
    simpa [on] using hon o.sector
  rw [hdeny]
  by_cases hlast : i.openCnt = 1
  · -- the last object on the inode
    have hnone : findInode o.sector (CS162.closed l o.sector) = none := by
      rw [closed_of_last hi hlast]
      exact find?_eq_none.mpr fun j hj => by simpa using (mem_filter.mp hj).2
    rw [hnone]
    show _ = 0
    omega
  rw [closed_of_more hi (by omega), findInode_bump (-1) hi]
  refine ⟨?_, ?_, hdenied, hkept⟩
  · show i.openCnt + -1 = _
    omega
  · show 1 ≤ i.openCnt + -1
    omega

theorem move (hget : h.get p = some o) {o' : Object} (hsector : o'.sector = o.sector)
    (hdenies : o'.denies = o.denies) : Exact l ((h.put p none).alloc o') := by
  refine ⟨hs.nodup, fun y => ?_⟩
  have hon := @Heap.count_put _ h p o (on y) none hget
  have hdeny := @Heap.count_put _ h p o (deniesOn y) none hget
  have hon' : on y o' = on y o := by rw [on, on, hsector]
  rw [Heap.count_alloc, Heap.count_alloc, hon', deniesOn, hdenies, hon', hon]
  exact hdeny ▸ hs.entry y

theorem setDeny {f : File} (hget : h.get p = some (.file f)) (deny : Bool) {d : ℤ}
    (hd : d + (if f.denyWrite then 1 else 0) = if deny then 1 else 0) :
    Exact (l.map (atSector f.inode fun i => { i with denyWriteCnt := i.denyWriteCnt + d }))
      (h.put p (some (.file { f with denyWrite := deny }))) := by
  have hcount := fun q => @Heap.count_put _ h p _ q (some (.file { f with denyWrite := deny })) hget
  have hon := fun y => Nat.add_right_cancel (hcount (on y))
  obtain ⟨i, hi, -⟩ := hs.held hget
  obtain ⟨hcnt, hpos, hdenied, hkept⟩ := hs.of_find (x := f.inode) hi
  have hsector : ∀ i : Inode, { i with denyWriteCnt := i.denyWriteCnt + d }.sector = i.sector :=
    fun _ => rfl
  refine hs.change (x := f.inode) ?_
    (fun y hy => ⟨findInode_atSector_of_ne hsector hy, hon y, ?_⟩) ?_
  · rw [map_sector_map (sector_atSector hsector)]
    exact hs.nodup
  · simpa [deniesOn, on, Object.sector, hy.symm] using hcount (deniesOn y)
  have hself := hcount (deniesOn f.inode)
  simp [deniesOn, Object.denies, on, Object.sector] at hself
  rw [findInode_atSector (x := f.inode) hsector hi, hon]
  refine ⟨hcnt, hpos, ?_, hkept⟩
  show i.denyWriteCnt + d = _
  split_ifs at hd hself <;> omega

end Exact

/-! ## Every call keeps the counts exact -/

section Calls

variable {s : FileSys} {x : BlockSector} {E : Fault → Prop} {i : Inode}

theorem theInode_counts (hi : findInode x s.openInodes = some i) :
    Spec E (theInode x) s fun r t => t = s ∧ r = i := by
  apply Spec.get_bind
  rw [hi]
  exact .pure ⟨rfl, rfl⟩

/-- `inode_deny_write` passes its assertion if there is an opener for each denier. -/
theorem inodeDenyWrite_counts (hi : findInode x s.openInodes = some i)
    (hle : i.denyWriteCnt + 1 ≤ i.openCnt) :
    Spec E (inodeDenyWrite x) s fun _ t => t.openInodes = s.openInodes.map
      (atSector x fun inode => { inode with denyWriteCnt := inode.denyWriteCnt + 1 }) := by
  apply Spec.modify_bind
  have hfind := findInode_atSector
    (f := fun inode => { inode with denyWriteCnt := inode.denyWriteCnt + 1 }) (fun _ => rfl) hi
  apply Spec.seq (@theInode_counts { s with openInodes := _ } x E _ hfind)
  rintro r t ⟨rfl, rfl⟩
  rw [if_neg (not_not.mpr hle)]
  exact .pure rfl

theorem inodeAllowWrite_counts (hi : findInode x s.openInodes = some i)
    (hpos : 0 < i.denyWriteCnt) (hle : i.denyWriteCnt ≤ i.openCnt) :
    Spec E (inodeAllowWrite x) s fun _ t => t.openInodes = s.openInodes.map
      (atSector x fun inode => { inode with denyWriteCnt := inode.denyWriteCnt + -1 }) := by
  apply Spec.seq (theInode_counts hi)
  rintro r t ⟨rfl, rfl⟩
  rw [if_neg (not_not.mpr hpos), if_neg (not_not.mpr hle)]
  exact .modify rfl

/-- `openIt` is `file_open` or `dir_open`: it keeps the inode, or without memory closes it. -/
structure Opens {β : Type} (openIt : Option Inode → Fs (Option β)) (make : β → Object)
    (g : BlockSector → β) : Prop where
  null : openIt none = do let _ ← malloc; return none
  eq : ∀ i, openIt (some i) = do
    if ← malloc then return some (g i.sector)
    else
      inodeClose i.sector
      return none
  sector : ∀ x, (make (g x)).sector = x
  denies : ∀ x, (make (g x)).denies = false

theorem opens_file : Opens fileOpen (fun x => .file ⟨x, 0, false⟩) id :=
  ⟨rfl, fun _ => rfl, fun _ => rfl, fun _ => rfl⟩

theorem opens_dir : Opens dirOpen .dir fun x => ⟨x, 0⟩ :=
  ⟨rfl, fun _ => rfl, fun _ => rfl, fun _ => rfl⟩

variable {β : Type} {openIt : Option Inode → Fs (Option β)} {make : β → Object}
  {g : BlockSector → β} (h : Opens openIt make g)
include h

theorem Opens.counts (hi : findInode i.sector s.openInodes = some i) (hkept : i.removed = false) :
    Spec E (openIt (some i)) s fun r t =>
      (r = none ∧ t.openInodes = closed s.openInodes i.sector) ∨
        r = some (g i.sector) ∧ t.openInodes = s.openInodes := by
  rw [h.eq]
  apply Spec.bind
  apply malloc_spec
  refine .ite (fun _ => .pure (.inr ⟨rfl, rfl⟩)) fun _ => ?_
  refine .seq (@inodeClose_spec { s with heap := fun n => s.heap (n + 1) } _ E i hi
    fun _ => hkept) ?_
  rintro _ t rfl
  exact .pure (.inl ⟨rfl, rfl⟩)

/-- `file_reopen` and `dir_reopen`: a new reference is taken, or none. -/
theorem Opens.reopen_counts {objects : Heap Object} (hs : Exact s.openInodes objects)
    (hi : findInode x s.openInodes = some i) :
    Spec E (do openIt (← inodeReopen x)) s fun r t =>
      (r = none ∧ t.openInodes = s.openInodes) ∨
        r = some (g x) ∧ t.openInodes = opened s.openInodes x := by
  apply Spec.seq (inodeReopen_spec hi)
  rintro _ t ⟨rfl, rfl⟩
  obtain rfl := sector_of_findInode hi
  have hfind := findInode_opened s.openInodes i.sector
  rw [hi] at hfind
  refine Spec.post (h.counts ?_ (hs.of_find hi).2.2.2) ?_
  · exact hfind
  rintro r u (⟨rfl, hclosed⟩ | ⟨rfl, hsame⟩)
  · have hcounted : Counted s.openInodes := fun j hj => (hs.of_mem hj).2.1
    exact .inl ⟨rfl, hclosed.trans (closed_opened hcounted _)⟩
  · exact .inr ⟨rfl, hsame⟩

end Calls

namespace Handles

section Rules

variable {s : Handles} {E : Fault → Prop} {α : Type}

theorem lift_rule {m : Fs α} {Q : α → Handles → Prop}
    (h : Spec E m s.fs fun a fs => Q a { s with fs := fs }) : Spec E (lift m) s Q := .zoom h

theorem store_rule {p : Ptr} {o : Option Object} {Q : Unit → Handles → Prop}
    (h : Q () { s with objects := s.objects.put p o }) : Spec E (store p o) s Q := h

theorem deref_rule {kind : Object → Option α} {p : Ptr} {o : Object} {a : α}
    {Q : α → Handles → Prop} (hget : s.objects.get p = some o) (ho : kind o = some a) (h : Q a s) :
    Spec E (deref kind p) s Q := by
  apply Spec.get_bind
  rw [hget, Option.bind_some, ho]
  exact .pure h

theorem checkCount_rule {count : Inode → ℤ} {x : BlockSector} {Q : Unit → Handles → Prop}
    (hover : ∀ i, findInode x s.fs.openInodes = some i → 2 ^ 31 - 1 ≤ count i → E overflow)
    (h : Q () s) : Spec E (checkCount count x) s Q := by
  apply Spec.get_bind
  cases hi : findInode x s.fs.openInodes with
  | none => exact .pure h
  | some i => exact .ite (fun hle => .throw (hover i hi hle)) fun _ => .pure h

end Rules

/-- The counts of the table are exact. -/
def Sound (s : Handles) : Prop := Exact s.fs.openInodes s.objects

/-- The call overflows a count, and some inode has `INT_MAX` references. -/
def Overflows (s : Handles) (f : Fault) : Prop :=
  f = overflow ∧ ∃ i ∈ s.fs.openInodes, 2 ^ 31 - 1 ≤ i.openCnt

/-- The program returns and keeps the counts exact, or it overflows one. -/
def Keeps {α : Type} (s : Handles) (m : Hs α) : Prop :=
  Spec (Overflows s) m s fun _ t => Sound t

/-- The object is alive and of the right kind. -/
def alive {α : Type} (s : Handles) (kind : Object → Option α) (p : Ptr) : Bool :=
  ((s.objects.get p).bind kind).isSome

theorem exists_of_alive {α : Type} {s : Handles} {kind : Object → Option α} {p : Ptr}
    (h : s.alive kind p = true) : ∃ o a, s.objects.get p = some o ∧ kind o = some a := by
  obtain ⟨a, ha⟩ := Option.isSome_iff_exists.mp h
  obtain ⟨o, hget, ho⟩ := Option.bind_eq_some_iff.mp ha
  exact ⟨o, a, hget, ho⟩

section Sound

variable {s : Handles} {p : Ptr} {x : BlockSector} {f : File} {E : Fault → Prop}

theorem checkOpenCnt_rule {Q : Unit → Handles → Prop} (h : Q () s) :
    Spec (Overflows s) (checkCount Inode.openCnt x) s Q :=
  checkCount_rule (fun i hi hle => ⟨rfl, i, mem_of_find?_eq_some hi, hle⟩) h

variable (hs : Sound s)
include hs

/-- A new reference is handed out. -/
theorem Sound.handOut {o : Object} {fs : FileSys} (hdenies : o.denies = false)
    (hopened : fs.openInodes = opened s.fs.openInodes o.sector) :
    Spec E (handOut (some o)) { s with fs := fs } fun _ t => Sound t := by
  show Exact fs.openInodes _
  rw [hopened]
  exact hs.opened hdenies

theorem Sound.inodeOpen : Keeps s (inodeOpen x) := by
  apply Spec.bind
  apply checkOpenCnt_rule
  apply Spec.bind
  apply lift_rule
  apply Spec.post inodeOpen_cases
  rintro r fs ⟨heap, -, ⟨rfl, rfl⟩ | ⟨inode, rfl, rfl, rfl⟩⟩
  · exact .pure hs
  · exact hs.handOut rfl rfl

/-- The end of a call that closes an object. -/
theorem Sound.close {o : Object} (hget : s.objects.get p = some o) (hdenies : o.denies = false) :
    Spec E (lift (FileSys.inodeClose o.sector) >>= fun _ => store p none) s fun _ t => Sound t := by
  obtain ⟨i, hi, -, -, -, hkept⟩ := hs.held hget
  apply Spec.bind
  apply lift_rule
  apply Spec.post (inodeClose_spec hi fun _ => hkept)
  rintro _ fs rfl
  apply store_rule
  exact hs.closed hget hdenies

section

variable {β : Type} {openIt : Option Inode → Fs (Option β)} {make : β → Object}
  {g : BlockSector → β} (h : Opens openIt make g)
include h

/-- The end of `file_reopen` and `dir_reopen`. -/
theorem Sound.reopen {o : Object} (hget : s.objects.get p = some o) :
    Keeps s (do
      checkCount Inode.openCnt o.sector
      let r ← lift (do openIt (← FileSys.inodeReopen o.sector))
      Handles.handOut (r.map make)) := by
  obtain ⟨i, hi, -⟩ := hs.held hget
  apply Spec.bind
  apply checkOpenCnt_rule
  apply Spec.bind
  apply lift_rule
  apply Spec.post (h.reopen_counts hs hi)
  rintro r fs (⟨rfl, hsame⟩ | ⟨rfl, hopened⟩)
  · exact .pure ((congrArg (Exact · s.objects) hsame).mpr hs)
  · exact hs.handOut (h.denies _) ((h.sector _).symm ▸ hopened)

/-- The file or directory that a reference is given to, or the reference closed. -/
theorem Sound.openWith {p : Option Ptr} (hlive : p.all (s.alive inode?) = true) :
    Keeps s (openWith openIt make p) := by
  cases p with
  | none =>
    apply Spec.bind
    apply lift_rule
    rw [h.null]
    exact .bind (malloc_spec (Spec.pure (Spec.pure hs)))
  | some p =>
    obtain ⟨x | _ | _, _, hget, ⟨⟩⟩ := exists_of_alive hlive
    obtain ⟨i, hi, -, -, -, hkept⟩ := hs.held hget
    obtain rfl : i.sector = x := sector_of_findInode hi
    apply Spec.bind
    refine deref_rule hget rfl ?_
    apply Spec.bind
    apply lift_rule
    apply Spec.post (theInode_counts hi)
    rintro r fs ⟨rfl, rfl⟩
    apply Spec.bind
    apply lift_rule
    apply Spec.post (h.counts hi hkept)
    intro res fs hres
    apply Spec.bind
    apply store_rule
    rcases hres with ⟨rfl, hclosed⟩ | ⟨rfl, hsame⟩
    · show Exact fs.openInodes _
      rw [hclosed]
      exact hs.closed hget rfl
    · show Exact fs.openInodes _
      rw [hsame]
      exact hs.move hget (h.sector _) (h.denies _)

end

theorem Sound.inodeReopen {p : Option Ptr} (hlive : p.all (s.alive inode?) = true) :
    Keeps s (inodeReopen p) := by
  cases p with
  | none => exact .pure hs
  | some p =>
    obtain ⟨x | _ | _, _, hget, ⟨⟩⟩ := exists_of_alive hlive
    obtain ⟨i, hi, -⟩ := hs.held hget
    obtain rfl : i.sector = x := sector_of_findInode hi
    apply Spec.bind
    refine deref_rule hget rfl ?_
    apply Spec.bind
    apply checkOpenCnt_rule
    apply Spec.bind
    apply lift_rule
    apply Spec.post (inodeReopen_spec hi)
    rintro r fs ⟨rfl, rfl⟩
    exact hs.handOut rfl rfl

theorem Sound.inodeClose {p : Option Ptr} (hlive : p.all (s.alive inode?) = true) :
    Keeps s (inodeClose p) := by
  cases p with
  | none => exact .pure hs
  | some p =>
    obtain ⟨x | _ | _, _, hget, ⟨⟩⟩ := exists_of_alive hlive
    exact .bind (deref_rule hget rfl (hs.close (o := .inode x) hget rfl))

theorem Sound.fileReopen (hlive : s.alive file? p = true) : Keeps s (fileReopen p) := by
  obtain ⟨_ | f | _, _, hget, ⟨⟩⟩ := exists_of_alive hlive
  exact .bind (deref_rule hget rfl (hs.reopen (o := .file f) opens_file hget))

theorem Sound.dirReopen (hlive : s.alive dir? p = true) : Keeps s (dirReopen p) := by
  obtain ⟨_ | _ | d, _, hget, ⟨⟩⟩ := exists_of_alive hlive
  exact .bind (deref_rule hget rfl (hs.reopen (o := .dir d) opens_dir hget))

theorem Sound.dirClose {p : Option Ptr} (hlive : p.all (s.alive dir?) = true) :
    Keeps s (dirClose p) := by
  cases p with
  | none => exact .pure hs
  | some p =>
    obtain ⟨_ | _ | d, _, hget, ⟨⟩⟩ := exists_of_alive hlive
    exact .bind (deref_rule hget rfl (hs.close (o := .dir d) hget rfl))

theorem Sound.fileDenyWrite (hlive : s.alive file? p = true) : Keeps s (fileDenyWrite p) := by
  obtain ⟨_ | f | _, _, hget, ⟨⟩⟩ := exists_of_alive hlive
  apply Spec.bind
  refine deref_rule hget rfl ?_
  refine .ite (fun hallowed => ?_) fun _ => .pure hs
  have hdeny : f.denyWrite = false := by simpa using hallowed
  obtain ⟨i, hi, -⟩ := hs.held hget
  have hexact := hs.setDeny hget true (d := 1) (by rw [hdeny]; rfl)
  -- after the call there is an opener for each denier, so there is one more opener before it
  have hle : i.denyWriteCnt + 1 ≤ i.openCnt := by
    obtain ⟨hopen, -, hdenied, -⟩ :=
      hexact.of_find (x := f.inode) (findInode_atSector (fun _ => rfl) hi)
    have hcount := deny_le_open
      (s.objects.put p (some (.file { f with denyWrite := true }))) f.inode
    dsimp only at hopen hdenied
    omega
  apply Spec.bind
  apply store_rule
  apply Spec.bind
  refine checkCount_rule (fun j hj hfull => ⟨rfl, i, mem_of_find?_eq_some hi, ?_⟩) ?_
  · cases hj.symm.trans hi
    omega
  apply lift_rule
  apply Spec.post (inodeDenyWrite_counts hi hle)
  intro _ fs hfs
  show Exact fs.openInodes _
  rwa [hfs]

theorem Sound.fileAllowWrite (hget : s.objects.get p = some (.file f)) :
    Spec E (fileAllowWrite p) s fun _ t => Sound t ∧
      t.objects.get p = some (.file { f with denyWrite := false }) := by
  apply Spec.bind
  refine deref_rule hget rfl ?_
  refine .ite (fun hdeny => ?_) fun hallowed => .pure ⟨hs, ?_⟩
  · obtain ⟨i, hi, -⟩ := hs.held hget
    obtain ⟨hopen, -, hcnt, -⟩ := hs.of_find (x := f.inode) hi
    have hexact := hs.setDeny hget false (d := -1) (by rw [if_pos hdeny]; rfl)
    have hpos : 0 < s.objects.count (deniesOn f.inode) :=
      Heap.count_pos hget (by
        simp [deniesOn, Object.denies, on, Object.sector, hdeny])
    have hle := deny_le_open s.objects f.inode
    apply Spec.bind
    apply store_rule
    apply lift_rule
    apply Spec.post (inodeAllowWrite_counts hi (by omega) (by omega))
    intro _ fs hfs
    refine ⟨?_, Heap.get_put_self (Heap.lt_next hget)⟩
    show Exact fs.openInodes _
    rwa [hfs]
  · have hsame : { f with denyWrite := false } = f := by
      cases f
      simpa using hallowed
    rwa [hsame]

theorem Sound.fileClose {p : Option Ptr} (hlive : p.all (s.alive file?) = true) :
    Keeps s (fileClose p) := by
  cases p with
  | none => exact .pure hs
  | some p =>
    obtain ⟨_ | f | _, _, hget, ⟨⟩⟩ := exists_of_alive hlive
    apply Spec.seq (hs.fileAllowWrite hget)
    rintro _ t ⟨ht, hget'⟩
    exact .bind (deref_rule hget' rfl (ht.close (o := .file _) hget' rfl))

end Sound

/-! ## Runs -/

/-- The calls, with the handles they are given. -/
inductive Call where
  | inodeOpen (x : BlockSector)
  | inodeReopen (p : Option Ptr)
  | inodeClose (p : Option Ptr)
  | fileOpen (p : Option Ptr)
  | fileReopen (p : Ptr)
  | fileClose (p : Option Ptr)
  | fileDenyWrite (p : Ptr)
  | fileAllowWrite (p : Ptr)
  | dirOpen (p : Option Ptr)
  | dirReopen (p : Ptr)
  | dirClose (p : Option Ptr)

/-- The call; the pointer it returns is the address of the newest object, if it made one. -/
def Call.run : Call → Hs Unit
  | inodeOpen x => do let _ ← Handles.inodeOpen x
  | inodeReopen p => do let _ ← Handles.inodeReopen p
  | inodeClose p => Handles.inodeClose p
  | fileOpen p => do let _ ← Handles.fileOpen p
  | fileReopen p => do let _ ← Handles.fileReopen p
  | fileClose p => Handles.fileClose p
  | fileDenyWrite p => Handles.fileDenyWrite p
  | fileAllowWrite p => Handles.fileAllowWrite p
  | dirOpen p => do let _ ← Handles.dirOpen p
  | dirReopen p => do let _ ← Handles.dirReopen p
  | dirClose p => Handles.dirClose p

/-- The handle is null, or it has been opened and not been closed. -/
def Live (s : Handles) : Call → Bool
  | .inodeOpen _ => true
  | .inodeReopen p | .inodeClose p | .fileOpen p | .dirOpen p => p.all (s.alive inode?)
  | .fileClose p => p.all (s.alive file?)
  | .fileReopen p | .fileDenyWrite p | .fileAllowWrite p => s.alive file? p
  | .dirReopen p => s.alive dir? p
  | .dirClose p => p.all (s.alive dir?)

/-- A call on live handles. -/
def Step (s : Handles) (c : Call) (t : Handles) : Prop :=
  Live s c = true ∧ c.run.run s = .ok ((), t)

theorem Keeps.unit {s : Handles} {α : Type} {m : Hs α} (h : Keeps s m) :
    Keeps s (do let _ ← m) :=
  Spec.bind (Spec.post h fun _ _ ht => .pure ht)

/-- Every call on live handles keeps the counts exact. -/
theorem Sound.call {s : Handles} (hs : Sound s) {c : Call} (hlive : Live s c = true) :
    Keeps s c.run := by
  cases c with
  | inodeOpen x => exact hs.inodeOpen.unit
  | inodeReopen p => exact (hs.inodeReopen hlive).unit
  | inodeClose p => exact hs.inodeClose hlive
  | fileOpen p => exact (hs.openWith opens_file hlive).unit
  | fileReopen p => exact (hs.fileReopen hlive).unit
  | fileClose p => exact hs.fileClose hlive
  | fileDenyWrite p => exact hs.fileDenyWrite hlive
  | fileAllowWrite p =>
    obtain ⟨_ | f | _, _, hget, ⟨⟩⟩ := exists_of_alive hlive
    exact (hs.fileAllowWrite hget).post fun _ _ h => h.1
  | dirOpen p => exact (hs.openWith opens_dir hlive).unit
  | dirReopen p => exact (hs.dirReopen hlive).unit
  | dirClose p => exact hs.dirClose hlive

def Nothing (s : Handles) : Prop := s.fs.openInodes = [] ∧ s.objects = Heap.empty

theorem Nothing.sound {s : Handles} (h : Nothing s) : Sound s := by
  obtain ⟨hopen, hobjects⟩ := h
  unfold Sound
  rw [hopen, hobjects]
  exact ⟨nodup_nil, fun _ => rfl⟩

/-- Some open file denies writes to the inode in sector `x`. -/
def Denied (s : Handles) (x : BlockSector) : Prop :=
  ∃ p f, s.objects.get p = some (.file f) ∧ f.inode = x ∧ f.denyWrite = true

theorem denied_iff {s : Handles} {x : BlockSector} :
    Denied s x ↔ 0 < s.objects.count (deniesOn x) := by
  constructor
  · rintro ⟨p, f, hget, hx, hdeny⟩
    apply Heap.count_pos hget
    simp [deniesOn, Object.denies, on, Object.sector, hx, hdeny]
  intro hpos
  obtain ⟨p, o, hget, ho⟩ := Heap.exists_of_count_pos hpos
  obtain ⟨hdenies, hon⟩ := (Bool.and_eq_true _ _).mp ho
  cases o with
  | file f => exact ⟨p, f, hget, of_decide_eq_true hon, hdenies⟩
  | _ => cases hdenies

/-- What the table of open inodes says about the handles, in one state. -/
structure Accounted (s : Handles) : Prop where
  distinct : (s.fs.openInodes.map Inode.sector).Nodup
  opened : ∀ i ∈ s.fs.openInodes, 1 ≤ i.openCnt
  deniers : ∀ i ∈ s.fs.openInodes, i.denyWriteCnt = s.objects.count (deniesOn i.sector) ∧
    i.denyWriteCnt ≤ i.openCnt
  /-- Every call returns, so no assertion fails; only a count may overflow. -/
  calls : ∀ c, Live s c = true → (∃ t, Step s c t) ∨ ∃ f, c.run.run s = .error f ∧ Overflows s f
  /-- While a file denies writes, every write returns 0 and changes nothing. -/
  denied : ∀ i ∈ s.fs.openInodes, Denied s i.sector → s.fs.Has i.sector →
    ∀ buffer size offset, (inodeWriteAt i buffer size offset).run s.fs = .ok (0, s.fs)
  /-- While none does, a write within the file returns the number of bytes to write. -/
  allowed : ∀ i ∈ s.fs.openInodes, ¬ Denied s i.sector → Stored s.fs i.sector → s.fs.MemAvailable →
    ∀ (buffer : ℕ → UInt8) (size offset : ℕ),
      ((offset + size : ℕ) : ℤ) ≤ (inodeAt s.fs.content i.sector).length →
      Returns (inodeWriteAt i buffer size offset) s.fs fun r _ => r = size

theorem inodeWriteAt_denied {fs : FileSys} {i : Inode} (hdeny : i.denyWriteCnt ≠ 0)
    (hhas : fs.Has i.sector) (buffer : ℕ → UInt8) (size offset : ℤ) :
    (inodeWriteAt i buffer size offset).run fs = .ok (0, fs) := by
  have hspec : Returns (inodeWriteAt i buffer size offset) fs fun r t => r = 0 ∧ t = fs := by
    apply Spec.get_bind
    apply Spec.bind
    apply cacheRead_spec hhas
    rw [if_pos hdeny]
    exact .pure ⟨rfl, rfl⟩
  obtain ⟨r, t, hrun, rfl, rfl⟩ := returns_iff.mp hspec
  exact hrun

theorem Sound.accounted {s : Handles} (hs : Sound s) : Accounted s where
  distinct := hs.nodup
  opened i hi := (hs.of_mem hi).2.1
  deniers i hi := by
    have hcount := deny_le_open s.objects i.sector
    obtain ⟨hopen, -, hdeny, -⟩ := hs.of_mem hi
    exact ⟨hdeny, by omega⟩
  calls c hlive := by
    have hspec := hs.call hlive
    cases hrun : c.run.run s with
    | error f =>
      rw [Keeps, Spec, hrun] at hspec
      exact .inr ⟨f, rfl, hspec⟩
    | ok r => exact .inl ⟨r.2, hlive, hrun⟩
  denied i hi hdenied hhas := by
    have hpos := denied_iff.mp hdenied
    have hdeny := (hs.of_mem hi).2.2.1
    exact inodeWriteAt_denied (by omega) hhas
  allowed i hi hallowed hstored hmem buffer size offset hend := by
    have hzero : i.denyWriteCnt = 0 := by
      have hdeny := (hs.of_mem hi).2.2.1
      have hcount : ¬ 0 < s.objects.count (deniesOn i.sector) := fun h =>
        hallowed (denied_iff.mpr h)
      omega
    apply Spec.post (hstored.inodeWriteAt_spec hzero hend)
    rintro r t ⟨c, h, rfl, -, ⟨hr, -⟩ | ⟨-, -, -, hnone⟩⟩
    · omega
    · exact absurd hnone (by rw [hmem]; simp)

/-- **The table of open inodes is exact.**  After any sequence of calls on live handles the
open inodes are in different sectors, each has an opener, and its number of deniers is the
number of open files that deny writes; so no assertion about these numbers fails, and
`inode_write_at` refuses exactly the writes to inodes that some open file denies.  The next call
returns as long as no inode has `INT_MAX` references. -/
theorem openInodes_accounted {init s : Handles} {calls : List Call} (hinit : Nothing init)
    (hrun : Run Step init calls s) : Accounted s := by
  have hs : Sound s := by
    apply hrun.invariant hinit.sound
    intro s c t hs hstep
    exact (hs.call hstep.1).of_run_eq hstep.2
  exact hs.accounted

/-! ## A running executable -/

/-- A step as a function. -/
def next (s : Handles) (c : Call) : Option Handles :=
  if Live s c then
    match c.run.run s with
    | .ok (_, t) => some t
    | .error _ => none
  else none

theorem step_of_next {s t : Handles} {c : Call} (h : s.next c = some t) : Step s c t := by
  obtain ⟨hlive, h⟩ := Option.ite_none_right_eq_some.mp h
  refine ⟨hlive, ?_⟩
  split at h
  · next heq =>
    cases h
    exact heq
  · cases h

/-- The small disk before anything has been opened. -/
def nothingOpen : Handles := ⟨{ smallDisk with openInodes := [] }, Heap.empty⟩

/-- The file in sector 2 is opened and denies writes: a write to it returns 0. -/
theorem openInodes_accounted_executable : ∃ s,
    Run Step nothingOpen [.inodeOpen 2, .fileOpen (some 0), .fileDenyWrite 1] s ∧
      Accounted s ∧ ∃ i ∈ s.fs.openInodes, i.denyWriteCnt = 1 ∧
        (inodeWriteAt i (fun _ => 7) 2 1).run s.fs = .ok (0, s.fs) := by
  refine exists_run_of_imp (fun _ _ _ => step_of_next)
    (fun s => s.fs.openInodes = [⟨2, 1, false, 1⟩] ∧ 2 < s.fs.size ∧
      s.objects.get 1 = some (.file ⟨2, 0, true⟩)) (by decide +kernel) ?_
  intro s hrun ⟨hopen, hsize, hfile⟩
  have haccounted := openInodes_accounted ⟨rfl, rfl⟩ hrun
  have hmem : (⟨2, 1, false, 1⟩ : Inode) ∈ s.fs.openInodes := by simp [hopen]
  exact ⟨haccounted, _, hmem, rfl, haccounted.denied _ hmem ⟨1, _, hfile, rfl, rfl⟩ hsize _ _ _⟩

/-- The same inode is opened again and again: `open_cnt` gets to any value of an `int`. -/
theorem exists_run_openCnt {n : ℕ} (hn : n < 2 ^ 31 - 1) :
    ∃ calls s i, Run Step nothingOpen calls s ∧ findInode 2 s.fs.openInodes = some i ∧
      i.openCnt = n + 1 ∧ s.objects.get 0 = some (.inode 2) := by
  induction n with
  | zero =>
    obtain ⟨s, hrun, hopen, hget⟩ : ∃ s, Run Step nothingOpen [.inodeOpen 2] s ∧
        s.fs.openInodes = [⟨2, 1, false, 0⟩] ∧ s.objects.get 0 = some (.inode 2) :=
      exists_run_of_execute (fun _ _ _ => step_of_next) (by decide +kernel)
    exact ⟨_, s, ⟨2, 1, false, 0⟩, hrun, by simp [hopen, findInode], rfl, hget⟩
  | succ n ih =>
    obtain ⟨calls, s, i, hrun, hi, hcnt, hget⟩ := ih (by omega)
    have hreopen : Returns (Call.run (.inodeReopen (some 0))) s fun _ t =>
        t.fs.openInodes = opened s.fs.openInodes 2 ∧ t.objects = s.objects.alloc (.inode 2) := by
      refine Spec.bind (Spec.bind (deref_rule hget rfl (Spec.bind ?_)))
      refine checkCount_rule (fun j hj hfull => ?_) (Spec.bind (lift_rule ?_))
      · cases hj.symm.trans hi
        omega
      · refine (inodeReopen_spec hi).post ?_
        rintro _ _ ⟨rfl, rfl⟩
        show _ ∧ _
        exact ⟨rfl, by rw [← sector_of_findInode hi]⟩
    obtain ⟨_, t, ht, hopen, hobjects⟩ := returns_iff.mp hreopen
    have hlive : Live s (.inodeReopen (some 0)) = true := by simp [Live, alive, hget, inode?]
    refine ⟨_, t, { i with openCnt := i.openCnt + 1 }, hrun.snoc ⟨hlive, ht⟩, ?_, ?_, ?_⟩
    · rw [hopen, findInode_opened, hi]
    · push_cast
      omega
    · rw [hobjects, Heap.get_alloc_of_ne (Heap.lt_next hget).ne, hget]

/-- With `INT_MAX` references, one more `inode_reopen` overflows `open_cnt`. -/
theorem inodeReopen_overflows : ∃ calls s, Run Step nothingOpen calls s ∧
    Live s (.inodeReopen (some 0)) = true ∧
      (Call.run (.inodeReopen (some 0))).run s = .error overflow := by
  obtain ⟨calls, s, i, hrun, hi, hcnt, hget⟩ := @exists_run_openCnt (2 ^ 31 - 2) (by decide)
  refine ⟨calls, s, hrun, by simp [Live, alive, hget, inode?], ?_⟩
  have hfull : 2147483647 ≤ i.openCnt := by
    rw [hcnt]
    decide
  simp only [Call.run, inodeReopen, deref, checkCount, StateT.run_bind]
  simp [hget, inode?, hi, hfull]
  rfl

end Handles

end CS162
