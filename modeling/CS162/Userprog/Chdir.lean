import CS162.Filesys.PathResolution
import CS162.Userprog.Syscall

/-!
# Changing the current directory

`k_chdir` makes the directory that `path_resolution` has found the current directory.  For a
path to an existing directory this is the directory itself.  If the last component is missing
or is a file, `path_resolution` also reports success, with the directory the item would be in,
and `k_chdir` goes there (`kChdir_correct_iff`).
-/

namespace CS162

open Library FileSys Syscall List

/-! ## Paths to directories -/

section Paths

variable {find : NameLookup} {slash : Bool} {cwd : Dir} {path : CString}

theorem walk_append (a b : List CString) (x : BlockSector) :
    walk find x (a ++ b) = (walk find x a).bind fun y => walk find y b := by
  induction a generalizing x with
  | nil => rfl
  | cons name a ih =>
    rw [cons_append, walk, walk]
    cases find x name with
    | none => rfl
    | some target =>
      obtain ⟨y, isDir⟩ := target
      cases isDir with
      | false => rfl
      | true => exact ih y

theorem short_of_walk {dirs : Set BlockSector}
    (hclosed : ∀ x ∈ dirs, ∀ name y, find x name = some (y, true) → y ∈ dirs)
    (hfind : ∀ x ∈ dirs, ∀ name y, find x name = some (y, true) → name.bytes.length ≤ nameMax)
    (parts : List CString) : ∀ {x y : BlockSector}, x ∈ dirs → walk find x parts = some y →
      ∀ part ∈ parts, part.bytes.length ≤ nameMax := by
  induction parts with
  | nil => exact fun _ _ _ hpart => absurd hpart not_mem_nil
  | cons name parts ih =>
    intro x y hx hwalk
    unfold walk at hwalk
    split at hwalk
    next z hentry =>
      refine forall_mem_cons.mpr ⟨hfind x hx name z hentry, ?_⟩
      exact ih (hclosed x hx name z hentry) hwalk
    next => cases hwalk

/-- The path leads to a directory: every component, also the last one, is a directory. -/
def leadsTo (find : NameLookup) (cwd : Dir) (path : CString) : Option BlockSector :=
  walk find (startOf cwd path) (components path)

/-- A path that does not lead to a directory is still taken as valid if only its last component
is not a directory and no slash follows it. -/
theorem valid_iff_of_leadsTo_none (hnone : leadsTo find cwd path = none) :
    (resolution find cwd path).valid = true ↔
      Resolvable find cwd path ∧ path.bytes.getLast? ≠ some 47 := by
  have hpath : components path ≠ [] := by
    intro hnil
    rw [leadsTo, hnil] at hnone
    cases hnone
  have hparts := dropLast_append_getLast hpath
  by_cases hres : Resolvable find cwd path
  · obtain ⟨parent, hparent⟩ := Option.isSome_iff_exists.mp hres.2
    rw [leadsTo, ← hparts, walk_append, hparent, Option.bind_some] at hnone
    rw [resolution_eq hres hparent hparts]
    generalize (components path).getLast hpath = last at hnone
    unfold walk at hnone
    unfold resolveLast
    cases hfind : find parent last with
    | none => simp [hres]
    | some target =>
      obtain ⟨y, isDir⟩ := target
      cases isDir with
      | false => simp [hres]
      | true =>
        rw [hfind] at hnone
        cases hnone
  · exact iff_of_false (fun hvalid => hres (resolveFrom_valid _ hvalid)) fun h => hres h.1

/-- The result is the directory the path leads to, if it leads to one. -/
def Resolved.Follows (r : Resolved) (find : NameLookup) (cwd : Dir) (path : CString) : Prop :=
  match leadsTo find cwd path with
  | some y => r.valid = true ∧ r.dir = y
  | none => r.valid = false

theorem follows_iff (hshort : ∀ y, leadsTo find cwd path = some y →
    ∀ part ∈ components path, part.bytes.length ≤ nameMax) :
    (resolution find cwd path).Follows find cwd path ↔
      (Resolvable find cwd path → (leadsTo find cwd path).isSome ∨
        path.bytes.getLast? = some 47) := by
  unfold Resolved.Follows
  cases hleads : leadsTo find cwd path with
  | some y =>
    refine iff_of_true ?_ fun _ => .inl rfl
    obtain ⟨name, hrest⟩ := resolveFrom_append [] (components path) (hshort y hleads) hleads
    rw [append_nil] at hrest
    rw [resolution, hrest]
    exact ⟨rfl, rfl⟩
  | none =>
    have hvalid := valid_iff_of_leadsTo_none hleads
    rw [← Bool.not_eq_true, hvalid]
    simp

end Paths

/-! ## The system call -/

variable {k : Kernel} {dirs : Set BlockSector} {user : UserMemory} {arg : UInt32} {cwd : Dir}
  {E : Stop → Prop}

theorem Tree.short_of_entryIn {s : FileSys} (h : Tree s dirs) {x : BlockSector} (hx : x ∈ dirs)
    {name : CString} {target : BlockSector × Bool}
    (hentry : entryIn s.content x name = some target) : name.bytes.length ≤ nameMax := by
  cases hslot : findSlot s.content x (slotCount s.content x) name with
  | none =>
    rw [entryIn_of_none hslot] at hentry
    cases hentry
  | some i =>
    obtain ⟨hi, hkey⟩ := SlotTable.find_some hslot
    have huse := (inUse_iff_key _).mpr (by rw [hkey]; exact nofun)
    have hterm := (h.directory x hx).terminated i hi huse
    rw [DirEntry.key, if_pos huse] at hkey
    rw [← Option.some.inj hkey]
    exact DirEntry.length_string_le hterm

/-- The table of open inodes when the directory has been closed again. -/
def Resolved.leaves (r : Resolved) (l : List Inode) : List Inode :=
  match r.leak with
  | none => l
  | some z => opened l z

/-- The table of open inodes when the current directory has been closed, the new one opened
again and its first reference closed. -/
def Resolved.enters (r : Resolved) (l : List Inode) (cwd : BlockSector) : List Inode :=
  closed (opened (closed (r.opens l) cwd) r.dir) r.dir

section Openers

variable {r : Resolved} {l : List Inode} {x : BlockSector}

theorem hasOpeners_opens (hl : Counted l) : HasOpeners (r.opens l) r.dir 1 := by
  have hself : HasOpeners (opened l r.dir) r.dir 1 :=
    (hl.opened r.dir).hasOpeners (isSome_opened (.inr rfl))
  unfold Resolved.opens
  split
  · exact hself
  · exact hself.opened _

theorem HasOpeners.opens_self (h : HasOpeners l r.dir 1) : HasOpeners (r.opens l) r.dir 2 := by
  unfold Resolved.opens
  split
  · exact h.opened_self
  · exact h.opened_self.opened _

theorem inodeClose_opens (hl : Counted l) {s : FileSys} {F : Fault → Prop}
    (hs : s.openInodes = r.opens l) : Spec F (inodeClose r.dir) s fun _ t =>
      t = { s with openInodes := r.leaves l } := by
  rcases hleak : r.leak with _ | z <;> simp only [Resolved.opens, Resolved.leaves, hleak] at hs ⊢
  · exact inodeClose_opened hl hs
  · exact inodeClose_opened_opened hl hs

/-- The current directory is closed before the new one is opened again, which may be the same. -/
theorem hasOpeners_after_close (hl : Counted l) (h : HasOpeners l x 1) :
    HasOpeners (closed (r.opens l) x) r.dir 1 := by
  by_cases hx : r.dir = x
  · subst hx
    exact h.opens_self.closed_self (le_refl _)
  · exact (hasOpeners_opens hl).closed_of_ne hx

theorem findInode_opens_removed {i : Inode} (hi : findInode x l = some i)
    (hkept : i.removed = false) : ∃ j, findInode x (r.opens l) = some j ∧ j.removed = false := by
  have hone : ∀ {l : List Inode} (y : BlockSector) {i : Inode}, findInode x l = some i →
      i.removed = false → ∃ j, findInode x (opened l y) = some j ∧ j.removed = false := by
    intro l y i hi hkept
    by_cases hxy : x = y
    · subst hxy
      exact ⟨{ i with openCnt := i.openCnt + 1 }, by rw [findInode_opened, hi], hkept⟩
    · exact ⟨i, (findInode_opened_of_ne hxy).trans hi, hkept⟩
  obtain ⟨j, hj, hremoved⟩ := hone r.dir hi hkept
  unfold Resolved.opens
  split
  · exact ⟨j, hj, hremoved⟩
  · exact hone _ hj hremoved

end Openers

/-- **What `k_chdir` does** on a tree: it follows the path resolution. -/
theorem Tree.kChdir_spec (htree : Tree k.handles.fs dirs) (hmem : k.handles.fs.MemAvailable)
    (hl : Counted k.handles.fs.openInodes) (hcwd : k.process.cwd = some cwd)
    (hdir : cwd.inode ∈ dirs) {i : Inode}
    (hopen : findInode cwd.inode k.handles.fs.openInodes = some i) (hkept : i.removed = false)
    (harg : checkArg user arg = true) {res : Resolved}
    (hres : resolution (entryIn k.handles.fs.content) cwd (user.string arg.toNat) = res) :
    Spec E (kChdir user arg) k fun r t =>
      r = .back (some (boolWord res.valid)) ∧
        t.process = { k.process with cwd := if res.valid then some ⟨res.dir, 0⟩ else some cwd } ∧
        t.handles = { k.handles with fs := { k.handles.fs with
          openInodes := if res.valid then res.enters k.handles.fs.openInodes cwd.inode
            else res.leaves k.handles.fs.openInodes } } := by
  have hfirst : HasOpeners k.handles.fs.openInodes cwd.inode 1 := hl.hasOpeners (by rw [hopen]; rfl)
  have hresolve := htree.pathResolution_spec (E := fun e => E (.fault e)) hmem hl hdir
    hfirst.isSome (user.string arg.toNat)
  rw [hres] at hresolve
  unfold kChdir
  rw [harg]
  apply Spec.bind
  apply Spec.get_bind
  apply onFiles_rule
  rw [hcwd]
  refine hresolve.post ?_
  rintro r fs ⟨rfl, rfl⟩
  dsimp only
  cases hvalid : res.valid with
  | false =>
    apply Spec.bind
    apply onFiles_rule
    refine (inodeClose_opens hl rfl).post ?_
    rintro _ fs rfl
    refine .pure ⟨rfl, ?_, rfl⟩
    rw [← hcwd]
    rfl
  | true =>
    apply Spec.get_bind
    -- the current directory is closed
    obtain ⟨j, hj, hremoved⟩ := findInode_opens_removed (r := res) hopen hkept
    apply Spec.bind
    rw [hcwd]
    apply onFiles_rule
    refine (inodeClose_spec hj fun _ => hremoved).post ?_
    rintro _ fs rfl
    -- the new one is opened again
    have hagain := hasOpeners_after_close (r := res) hl hfirst
    apply Spec.bind
    apply onFiles_rule
    refine .post (dirReopen_spec ?_ hagain.isSome) ?_
    · exact hmem.congr rfl
    rintro _ fs ⟨rfl, rfl⟩
    apply Spec.modify_bind
    -- and its first reference is closed
    apply Spec.bind
    apply onFiles_rule
    refine .post (inodeClose_shared hagain.opened_self) ?_
    rintro _ fs rfl
    exact .pure ⟨rfl, rfl, rfl⟩

/-! ## The specification -/

theorem startOf_mem {s : FileSys} (h : Tree s dirs) (hdir : cwd.inode ∈ dirs) (path : CString) :
    startOf cwd path ∈ dirs := by
  unfold startOf
  split
  · exact h.root
  · exact hdir

/-- `k_chdir` reports success exactly for a path to a directory, which is the current directory
then; otherwise the current directory stays as it was. -/
def ChangesDirectory (k : Kernel) (user : UserMemory) (arg : UInt32) (cwd : Dir) : Prop :=
  Returns (kChdir user arg) k fun r t =>
    match leadsTo (entryIn k.handles.fs.content) cwd (user.string arg.toNat) with
    | some y => r = .back (some (boolWord true)) ∧ t.process.cwd.map Dir.inode = some y
    | none => r = .back (some (boolWord false)) ∧ t.process.cwd = some cwd

/-- **`k_chdir`** meets its specification if and only if the path leads to a
directory, or it is not resolvable, or a slash follows its last component. -/
theorem kChdir_correct_iff (k : Kernel) (dirs : Set BlockSector) (user : UserMemory) (arg : UInt32)
    (cwd : Dir) (i : Inode) (htree : Tree k.handles.fs dirs) (hmem : k.handles.fs.MemAvailable)
    (hl : Counted k.handles.fs.openInodes) (hcwd : k.process.cwd = some cwd)
    (hdir : cwd.inode ∈ dirs) (hopen : findInode cwd.inode k.handles.fs.openInodes = some i)
    (hkept : i.removed = false) (harg : checkArg user arg = true) :
    ChangesDirectory k user arg cwd ↔
      (Resolvable (entryIn k.handles.fs.content) cwd (user.string arg.toNat) →
        (leadsTo (entryIn k.handles.fs.content) cwd (user.string arg.toNat)).isSome ∨
          (user.string arg.toNat).bytes.getLast? = some 47) := by
  have hspec := htree.kChdir_spec (E := fun _ => False) hmem hl hcwd hdir hopen hkept harg rfl
  obtain ⟨r, t, hrun, rfl, hprocess, -⟩ := returns_iff.mp hspec
  have hshort : ∀ y, leadsTo (entryIn k.handles.fs.content) cwd (user.string arg.toNat) = some y →
      ∀ part ∈ components (user.string arg.toNat), part.bytes.length ≤ nameMax := by
    intro y hleads
    exact short_of_walk htree.closed (fun x hx name y hentry => htree.short_of_entryIn hx hentry) _
      (startOf_mem htree hdir _) hleads
  rw [← follows_iff hshort, show ChangesDirectory k user arg cwd ↔ _ from
    ⟨fun h => h.of_run_eq hrun, fun h => returns_iff.mpr ⟨_, _, hrun, h⟩⟩, hprocess]
  unfold Resolved.Follows
  generalize resolution _ cwd _ = res
  cases leadsTo (entryIn k.handles.fs.content) cwd (user.string arg.toNat) with
  | none | some y => cases res.valid <;> simp [boolWord]

/-- A process in the root directory that passes the string `path`. -/
def inRoot (fs : FileSys) : Kernel := ⟨⟨fs, Heap.empty⟩, Process.new (some ⟨1, 0⟩), false, []⟩

def userOf (path : CString) : UserMemory := ⟨fun _ => true, fun _ => path, fun _ _ => 0, fun _ => 0⟩

/-- `D` is a directory, and becomes the current directory. -/
theorem kChdir_correct_iff_diskD : ChangesDirectory (inRoot diskD) (userOf nameD) 4096 ⟨1, 0⟩ := by
  refine (kChdir_correct_iff (inRoot diskD) {1, 3} (userOf nameD) 4096 ⟨1, 0⟩ ⟨1, 1, false, 0⟩
    tree_diskD rfl ?_ rfl (.inl rfl) rfl rfl rfl).mpr fun _ => .inl ?_
  · intro i hi
    obtain rfl := mem_singleton.mp hi
    decide
  have hentry : entryIn diskD.content 1 nameD = some (3, true) :=
    (entryIn_entryDisk nameD).trans (by decide)
  show (leadsTo (entryIn diskD.content) ⟨1, 0⟩ nameD).isSome
  rw [leadsTo, show components nameD = [nameD] by decide, walk,
    show startOf ⟨1, 0⟩ nameD = 1 from rfl, hentry]
  rfl

/-- There is no `D` in the root directory, but `k_chdir` reports success. -/
theorem kChdir_accepts_missing : Returns (kChdir (userOf nameD) 4096) (inRoot diskA) (fun r _ =>
    r = .back (some 1)) ∧ ¬ ChangesDirectory (inRoot diskA) (userOf nameD) 4096 ⟨1, 0⟩ := by
  have hentry : entryIn diskA.content 1 nameD = none := (entryIn_entryDisk nameD).trans (by decide)
  have hresolution : resolution (entryIn diskA.content) ⟨1, 0⟩ nameD =
      ⟨true, 1, some nameD, none⟩ := by
    rw [resolution, show components nameD = [nameD] by decide, resolveFrom,
      if_neg (by decide), show startOf ⟨1, 0⟩ nameD = 1 from rfl, hentry]
    rfl
  have hleads : leadsTo (entryIn diskA.content) ⟨1, 0⟩ nameD = none := by
    rw [leadsTo, show components nameD = [nameD] by decide, walk,
      show startOf ⟨1, 0⟩ nameD = 1 from rfl, hentry]
  have htree : Tree (inRoot diskA).handles.fs {1} := tree_diskA
  have harg : checkArg (userOf nameD) 4096 = true := rfl
  have hspec := htree.kChdir_spec (E := fun _ => False) rfl
    (by intro i hi; obtain rfl := mem_singleton.mp hi; decide) rfl rfl rfl rfl harg hresolution
  obtain ⟨r, t, hrun, rfl, -⟩ := returns_iff.mp hspec
  refine ⟨returns_iff.mpr ⟨_, t, hrun, rfl⟩, fun hcorrect => ?_⟩
  have hbad := hcorrect.of_run_eq hrun
  rw [show leadsTo (entryIn (inRoot diskA).handles.fs.content) ⟨1, 0⟩
    ((userOf nameD).string (4096 : UInt32).toNat) = none from hleads] at hbad
  exact absurd hbad.1 (by decide)

end CS162
