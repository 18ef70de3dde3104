import Mathlib.Data.Set.Basic
import CS162.Filesys.PathParts
import CS162.Filesys.Listing
import CS162.Filesys.DirectoryLaws

/-!
# Path resolution

`path_resolution` splits a path into a directory and a last name.  The comment above it
promises the directory that the last item would be in.  The loop looks up one component after
another and moves on whenever it finds a directory, also for the last component, so for a path
to an existing directory it returns that directory itself.  It notices the end of the path by
the byte behind the component, so a slash behind a last component that is missing or a file
makes the path invalid.

## Strategy

* **The tree.**  `walk` follows names from one directory to the next; `Tree` says that every
  directory reached this way is in order.
* **The loop.**  `resolveFrom` is what the loop computes on the list of components.
  `resolveLoop_spec` relates the two; a directory that has been left is closed again, so the
  table of open inodes is the one at the start with the last directory open.
* **The specification.**  `resolveFrom` is compared with `walk` (`resolution_eq`).
-/

namespace CS162

open Library FileSys List

/-! ## Walking along names -/

/-- What the names in each directory stand for: the sector of an inode and `is_dir`. -/
abbrev NameLookup := BlockSector → CString → Option (BlockSector × Bool)

/-- What a name in a directory on the disk stands for. -/
def entryIn (c : BlockSector → Sector) : NameLookup := fun x name =>
  (findSlot c x (slotCount c x) name).map fun k => (slotAt c x k).target

/-- The directory that is reached by one name after another. -/
def walk (find : NameLookup) : BlockSector → List CString → Option BlockSector
  | x, [] => some x
  | x, name :: names =>
    match find x name with
    | some (y, true) => walk find y names
    | _ => none

/-- The directories in `dirs` are in order, and lead to each other. -/
structure Tree (s : FileSys) (dirs : Set BlockSector) : Prop where
  root : rootDirSector ∈ dirs
  directory : ∀ x ∈ dirs, Directory s x (slotCount s.content x)
  closed : ∀ x ∈ dirs, ∀ name y, entryIn s.content x name = some (y, true) → y ∈ dirs

/-- Where the resolution of a path starts. -/
def startOf (cwd : Dir) (path : CString) : BlockSector :=
  if path.bytes.head? = some 47 then rootDirSector else cwd.inode

/-! ## The loop -/

/-- What `path_resolution` has computed: the return value, the directory, what is in `name`, and
the inode of a file that it has opened and left open. -/
structure Resolved where
  valid : Bool
  dir : BlockSector
  name : Option CString
  leak : Option BlockSector

/-- The loop on a list of components; `slash` says that the path ends with a slash. -/
def resolveFrom (find : NameLookup) (slash : Bool) :
    BlockSector → Option CString → List CString → Resolved
  | x, name, [] => ⟨true, x, name, none⟩
  | x, name, part :: parts =>
    if nameMax < part.bytes.length then ⟨false, x, name, none⟩
    else
      match find x part with
      | none => ⟨parts = [] ∧ slash = false, x, some part, none⟩
      | some (y, false) => ⟨parts = [] ∧ slash = false, x, some part, some y⟩
      | some (y, true) => resolveFrom find slash y (some part) parts

/-- What the loop computes for a path. -/
def resolution (find : NameLookup) (cwd : Dir) (path : CString) : Resolved :=
  resolveFrom find (decide (path.bytes.getLast? = some 47)) (startOf cwd path) none
    (components path)

/-- The table of open inodes with the last directory open. -/
def Resolved.opens (r : Resolved) (l : List Inode) : List Inode :=
  match r.leak with
  | none => opened l r.dir
  | some z => opened (opened l r.dir) z

variable {s : FileSys} {dirs : Set BlockSector} {x : BlockSector} {l : List Inode}
  {path : CString} {E : Fault → Prop}

theorem entryIn_of_none {c : BlockSector → Sector} {name : CString}
    (h : findSlot c x (slotCount c x) name = none) : entryIn c x name = none := by
  rw [entryIn, h, Option.map_none]

theorem entryIn_of_some {c : BlockSector → Sector} {name : CString} {k : ℕ}
    (h : findSlot c x (slotCount c x) name = some k) :
    entryIn c x name = some ((slotAt c x k).inodeSector, (slotAt c x k).isDir) := by
  rw [entryIn, h, Option.map_some, DirEntry.target]

theorem Tree.dirLookup_spec (h : Tree s dirs) (hmem : s.MemAvailable) (hx : x ∈ dirs)
    (name : CString) :
    Spec E (dirLookup ⟨x, 0⟩ name) { s with openInodes := opened l x } fun r t =>
      match entryIn s.content x name with
      | none => t = { s with openInodes := opened l x } ∧ r = none
      | some (y, isDir) => t = { s with openInodes := opened (opened l x) y } ∧
          ∃ inode, r = some (inode, isDir) ∧ inode.sector = y := by
  have hdir := (h.directory x hx).of_openInodes (opened l x)
  refine (hdir.dirLookup_spec (hmem.congr rfl) (isSome_opened (.inr rfl)) 0 name).post ?_
  intro r t ht
  split at ht
  next hslot =>
    rwa [entryIn_of_none hslot]
  next k hslot =>
    rwa [entryIn_of_some hslot]

/-- The byte behind a component is the end of the path exactly if it is the last component and
the path does not end with a slash. -/
theorem rest_nil_iff {name rest : CString} {gap : List UInt8}
    (hnext : NextPartOf path.bytes gap name.bytes rest.bytes) (hname : name.bytes ≠ []) :
    rest.bytes = [] ↔ components rest = [] ∧ path.bytes.getLast? ≠ some 47 := by
  constructor
  · intro hrest
    refine ⟨components_eq (by rw [hrest]; rfl), ?_⟩
    rw [hnext.split, hrest, append_nil, getLast?_append_of_ne_nil _ hname]
    exact fun hlast => hnext.noSlash 47 (mem_of_getLast? hlast) rfl
  rintro ⟨hcomponents, hlast⟩
  by_contra hrest
  obtain ⟨c, hc⟩ := Option.isSome_iff_exists.mp (getLast?_isSome.mpr hrest)
  obtain rfl := eq_slash_of_components_nil hcomponents c (mem_of_getLast? hc)
  rw [hnext.split, ← append_assoc, getLast?_append_of_ne_nil _ hrest] at hlast
  exact hlast hc

/-- The slash at the end of a path is a slash at the end of what is left of it. -/
theorem slash_rest {name rest : CString} {gap : List UInt8} {slash : Bool}
    (hnext : NextPartOf path.bytes gap name.bytes rest.bytes)
    (hslash : slash = decide (path.bytes.getLast? = some 47)) (hrest : rest.bytes ≠ []) :
    slash = decide (rest.bytes.getLast? = some 47) := by
  rw [hslash, hnext.split, ← append_assoc, getLast?_append_of_ne_nil _ hrest]

/-- The loop computes `resolveFrom`.  The path gets shorter in every round. -/
theorem Tree.resolveLoop_spec (h : Tree s dirs) (hmem : s.MemAvailable) (hl : Counted l)
    {slash : Bool} (fuel : ℕ) : ∀ {x : BlockSector} {name : Option CString} {path : CString},
    x ∈ dirs → path.bytes.length < fuel →
    (path.bytes ≠ [] → slash = decide (path.bytes.getLast? = some 47)) →
    Spec E (resolveLoop fuel (some ⟨x, 0⟩) name path) { s with openInodes := opened l x } fun r t =>
      r = ((resolveFrom (entryIn s.content) slash x name (components path)).valid,
        some ⟨(resolveFrom (entryIn s.content) slash x name (components path)).dir, 0⟩,
        (resolveFrom (entryIn s.content) slash x name (components path)).name) ∧
      t = { s with
        openInodes :=
          (resolveFrom (entryIn s.content) slash x name (components path)).opens l } := by
  induction fuel with
  | zero => exact fun _ hlen => absurd hlen (Nat.not_lt_zero _)
  | succ fuel ih =>
    intro x name path hx hlen hslash
    unfold resolveLoop
    cases hpart : getNextPart path with
    | done =>
      rw [components_of_done hpart]
      exact .pure ⟨rfl, rfl⟩
    | tooLong =>
      obtain ⟨long, names, hcomponents, hlong⟩ := components_of_tooLong hpart
      rw [hcomponents, resolveFrom, if_pos hlong]
      exact .pure ⟨rfl, rfl⟩
    | part part rest =>
      obtain ⟨hcomponents, hshort, hne, gap, hnext⟩ := components_of_part hpart
      have hsplit := congrArg length hnext.split
      have hpos := length_pos_iff.mpr hne
      rw [length_append, length_append] at hsplit
      have hpath : path.bytes ≠ [] := length_pos_iff.mp (by omega)
      have hend : (rest.bytes = []) = (components rest = [] ∧ slash = false) := by
        rw [hslash hpath, decide_eq_false_iff_not]
        exact propext (rest_nil_iff hnext hne)
      rw [hcomponents, resolveFrom, if_neg (by omega)]
      refine .seq (h.dirLookup_spec hmem hx part) ?_
      intro r t ht
      cases hentry : entryIn s.content x part with
      | none =>
        rw [hentry] at ht
        obtain ⟨rfl, rfl⟩ := ht
        refine .pure ⟨?_, rfl⟩
        simp only [hend]
      | some target =>
        obtain ⟨y, isDir⟩ := target
        rw [hentry] at ht
        obtain ⟨rfl, inode, rfl, hsector⟩ := ht
        dsimp only
        cases isDir with
        | false =>
          refine .pure ⟨?_, rfl⟩
          simp only [hend]
        | true =>
          refine .seq (inodeClose_opened_opened hl rfl) ?_
          rintro _ t rfl
          refine .seq (dirOpen_spec ?_ inode) ?_
          · exact hmem.congr rfl
          rintro r t ⟨rfl, rfl⟩
          rw [hsector]
          refine ih (h.closed x hx part y hentry) (by omega) fun hrest => ?_
          exact slash_rest hnext (hslash hpath) hrest

/-- **What `path_resolution` does** on a tree: the loop on the components of the path, from the
root for a path that starts with a slash and from the current directory otherwise. -/
theorem Tree.pathResolution_spec (h : Tree s dirs) (hmem : s.MemAvailable)
    (hl : Counted s.openInodes) {cwd : Dir} (hcwd : cwd.inode ∈ dirs)
    (hopen : (findInode cwd.inode s.openInodes).isSome) (path : CString) :
    Spec E (pathResolution cwd path) s fun r t =>
      r = ((resolution (entryIn s.content) cwd path).valid,
        some ⟨(resolution (entryIn s.content) cwd path).dir, 0⟩,
        (resolution (entryIn s.content) cwd path).name) ∧
      t = { s with
        openInodes := (resolution (entryIn s.content) cwd path).opens s.openInodes } := by
  unfold pathResolution resolution startOf
  split
  · refine .seq (dirOpenRoot_spec hmem) ?_
    rintro r t ⟨rfl, rfl⟩
    exact h.resolveLoop_spec hmem hl _ h.root (Nat.lt_succ_self _) fun _ => rfl
  · refine .seq (dirReopen_spec hmem hopen) ?_
    rintro r t ⟨rfl, rfl⟩
    exact h.resolveLoop_spec hmem hl _ hcwd (Nat.lt_succ_self _) fun _ => rfl

/-! ## The specification -/

section Specification

variable {find : NameLookup} {slash : Bool} {name : Option CString} {parts : List CString}

/-- A path is valid only if its components are short and all but the last are directories. -/
theorem resolveFrom_valid (parts : List CString) : ∀ {x : BlockSector} {name : Option CString},
    (resolveFrom find slash x name parts).valid = true →
      (∀ part ∈ parts, part.bytes.length ≤ nameMax) ∧ (walk find x parts.dropLast).isSome := by
  induction parts with
  | nil => exact fun _ => ⟨fun _ hpart => absurd hpart not_mem_nil, rfl⟩
  | cons part parts ih =>
    intro x name hvalid
    unfold resolveFrom at hvalid
    split at hvalid
    next => cases hvalid
    next hshort =>
      have hlast : parts = [] → (∀ p ∈ part :: parts, p.bytes.length ≤ nameMax) ∧
          (walk find x (part :: parts).dropLast).isSome := by
        rintro rfl
        exact ⟨(by simpa using hshort), rfl⟩
      cases hfind : find x part with
      | none =>
        rw [hfind] at hvalid
        exact hlast (of_decide_eq_true hvalid).1
      | some target =>
        obtain ⟨y, isDir⟩ := target
        rw [hfind] at hvalid
        cases isDir with
        | false => exact hlast (of_decide_eq_true hvalid).1
        | true =>
          by_cases hnil : parts = []
          · exact hlast hnil
          · obtain ⟨hall, hwalk⟩ := ih hvalid
            refine ⟨forall_mem_cons.mpr ⟨Nat.le_of_not_lt hshort, hall⟩, ?_⟩
            rwa [dropLast_cons_of_ne_nil hnil, walk, hfind]

/-- What becomes of the last component. -/
def resolveLast (find : NameLookup) (slash : Bool) (parent : BlockSector) (last : CString) :
    Resolved :=
  match find parent last with
  | none => ⟨slash = false, parent, some last, none⟩
  | some (y, false) => ⟨slash = false, parent, some last, some y⟩
  | some (y, true) => ⟨true, y, some last, none⟩

/-- Directories that lead to each other are passed over. -/
theorem resolveFrom_append {y : BlockSector} (rest parts : List CString) :
    ∀ {x : BlockSector} {name : Option CString}, (∀ part ∈ parts, part.bytes.length ≤ nameMax) →
      walk find x parts = some y → ∃ name', resolveFrom find slash x name (parts ++ rest) =
        resolveFrom find slash y name' rest := by
  induction parts with
  | nil =>
    intro x name _ hwalk
    obtain rfl := Option.some.inj hwalk
    exact ⟨name, rfl⟩
  | cons part parts ih =>
    intro x name hshort hwalk
    have hpart := hshort part mem_cons_self
    rw [cons_append, resolveFrom, if_neg (by omega)]
    unfold walk at hwalk
    split at hwalk
    next z hfind =>
      rw [hfind]
      exact ih (fun p hp => hshort p (mem_cons_of_mem _ hp)) hwalk
    next => cases hwalk

/-- No component of the path is too long, and all but the last are directories. -/
def Resolvable (find : NameLookup) (cwd : Dir) (path : CString) : Prop :=
  (∀ part ∈ components path, part.bytes.length ≤ nameMax) ∧
    (walk find (startOf cwd path) (components path).dropLast).isSome

/-- The result is valid exactly for a resolvable path, and then it is the directory that all
components but the last lead to, and the last component. -/
def Resolved.Correct (r : Resolved) (find : NameLookup) (cwd : Dir) (path : CString) : Prop :=
  (r.valid = true ↔ Resolvable find cwd path) ∧ (r.valid = true →
      some r.dir = walk find (startOf cwd path) (components path).dropLast ∧
        r.name = (components path).getLast?)

/-- The last component is not a directory other than the one it is in, and no slash follows it
if it is not a directory. -/
def LastInPlace (find : NameLookup) (path : CString) (parent : BlockSector) (last : CString) :
    Prop :=
  match find parent last with
  | some (y, true) => y = parent
  | _ => path.bytes.getLast? ≠ some 47

theorem resolution_eq {cwd : Dir} {path : CString} {parent : BlockSector} {last : CString}
    (hres : Resolvable find cwd path)
    (hparent : walk find (startOf cwd path) (components path).dropLast = some parent)
    (hparts : (components path).dropLast ++ [last] = components path) :
    resolution find cwd path =
      resolveLast find (decide (path.bytes.getLast? = some 47)) parent last := by
  have hshort := hres.1
  rw [← hparts] at hshort
  rw [resolution, ← hparts]
  obtain ⟨name, hrest⟩ := resolveFrom_append [last] _ (fun part hp => hshort part (by simp [hp]))
    hparent
  have hlast := hshort last (by simp)
  rw [hrest, resolveFrom, if_neg (by omega), resolveLast]
  cases find parent last with
  | none => simp
  | some target =>
    obtain ⟨y, isDir⟩ := target
    cases isDir <;> simp [resolveFrom]

theorem resolution_correct_iff (find : NameLookup) (cwd : Dir) {path : CString}
    (hpath : components path ≠ []) :
    (resolution find cwd path).Correct find cwd path ↔ (Resolvable find cwd path → ∀ parent,
        walk find (startOf cwd path) (components path).dropLast = some parent →
        LastInPlace find path parent ((components path).getLast hpath)) := by
  by_cases hres : Resolvable find cwd path
  · obtain ⟨parent, hparent⟩ := Option.isSome_iff_exists.mp hres.2
    -- the components are the way to the parent and the last one
    have hparts := dropLast_append_getLast hpath
    have hlast := getLast?_eq_some_getLast hpath
    unfold Resolved.Correct
    rw [resolution_eq hres hparent hparts, hparent, hlast]
    generalize (components path).getLast hpath = last
    simp only [hres, true_implies, Option.some.injEq, forall_eq']
    unfold LastInPlace resolveLast
    cases find parent last with
    | none => simp
    | some target =>
      obtain ⟨y, isDir⟩ := target
      cases isDir <;> simp
  · have hvalid : (resolution find cwd path).valid = false :=
      Bool.eq_false_iff.mpr fun hvalid => hres (resolveFrom_valid _ hvalid)
    refine iff_of_true ⟨?_, ?_⟩ fun h => absurd h hres
    · rw [hvalid]
      exact iff_of_false Bool.false_ne_true hres
    · intro htrue
      rw [hvalid] at htrue
      cases htrue

end Specification

/-- `path_resolution` returns true exactly for a resolvable path, and then with the directory
that all components but the last lead to and with the last component. -/
def ResolvesCorrectly (s : FileSys) (cwd : Dir) (path : CString) : Prop :=
  Returns (pathResolution cwd path) s fun r _ =>
    (r.1 = true ↔ Resolvable (entryIn s.content) cwd path) ∧ (r.1 = true → r.2.1.map Dir.inode =
          walk (entryIn s.content) (startOf cwd path) (components path).dropLast ∧
        r.2.2 = (components path).getLast?)

/-- **Path resolution** meets its specification on a path with components if and only if the
path is not resolvable, or its last component does not name a directory (other than the one it
is in) and is not followed by a slash. -/
theorem pathResolution_correct_iff (s : FileSys) (dirs : Set BlockSector) (cwd : Dir)
    (path : CString) (htree : Tree s dirs) (hmem : s.MemAvailable) (hl : Counted s.openInodes)
    (hcwd : cwd.inode ∈ dirs) (hopen : (findInode cwd.inode s.openInodes).isSome)
    (hpath : components path ≠ []) :
    ResolvesCorrectly s cwd path ↔ (Resolvable (entryIn s.content) cwd path → ∀ parent,
      walk (entryIn s.content) (startOf cwd path) (components path).dropLast = some parent →
      LastInPlace (entryIn s.content) path parent ((components path).getLast hpath)) := by
  have hspec := htree.pathResolution_spec (E := fun _ => False) hmem hl hcwd hopen path
  rw [← resolution_correct_iff]
  exact Returns.iff_of_eq hspec _

/-! ## Small trees -/

theorem entryIn_oneSlot {c : BlockSector → Sector} {x : BlockSector} (hcount : slotCount c x = 1)
    (name : CString) :
    entryIn c x name =
      if (slotAt c x 0).key = some name then some (slotAt c x 0).target else none := by
  unfold entryIn findSlot SlotTable.find
  rw [hcount, range_one]
  by_cases hkey : (slotAt c x 0).key = some name
  · rw [find?_cons_of_pos (by simpa using hkey), if_pos hkey]
    rfl
  · rw [find?_cons_of_neg (by simpa using hkey), if_neg hkey]
    rfl

theorem slotCount_entryDisk {e : DirEntry} {length : ℤ} {data : Sector} :
    slotCount (entryDisk e length data).content 1 = 1 := by
  rw [slotCount, inodeAt_entryDisk_root]
  rfl

theorem entryIn_entryDisk {e : DirEntry} {length : ℤ} {data : Sector} (name : CString) :
    entryIn (entryDisk e length data).content 1 name =
      if e.key = some name then some e.target else none := by
  rw [entryIn_oneSlot slotCount_entryDisk, slotAt_entryDisk]

theorem tree_diskA : Tree diskA {1} := by
  have hdir : Directory diskA 1 1 := directory_entryDisk (show 0 ∈ ofFn entryA.name by decide)
  refine ⟨rfl, ?_, ?_⟩
  · rintro x rfl
    rwa [show slotCount diskA.content 1 = 1 from slotCount_entryDisk]
  · rintro x rfl name y hentry
    rw [show entryIn diskA.content 1 name = _ from entryIn_entryDisk name] at hentry
    split at hentry <;> cases hentry

/-- `A` is found in the root directory. -/
theorem pathResolution_correct_iff_diskA : ResolvesCorrectly diskA ⟨1, 0⟩ nameA := by
  refine (pathResolution_correct_iff diskA {1} ⟨1, 0⟩ nameA tree_diskA rfl
    (by intro i hi; obtain rfl := mem_singleton.mp hi; decide) rfl rfl (by decide)).mpr ?_
  intro _ parent hparent
  obtain rfl : 1 = parent := Option.some.inj hparent
  have hentry : entryIn diskA.content 1 nameA = some (3, false) :=
    (entryIn_entryDisk nameA).trans (by decide)
  unfold LastInPlace
  rw [show (components nameA).getLast (by decide) = nameA by decide, hentry]
  decide

/-- The entry of a directory `D` in sector 3. -/
def entryD : DirEntry :=
  ⟨3, fun i => if i.val = 0 then 68 else 0, true, true, fun _ => 0⟩

def nameD : CString := ⟨[68], by decide⟩

/-- A root directory with an empty directory `D`. -/
def diskD : FileSys := entryDisk entryD 24 fun i => DirEntry.uninitialised.encode i

theorem slotAt_diskD : slotAt diskD.content 3 0 = .uninitialised :=
  slotAt_oneBlock (inodeAt_entryDisk_file (by decide) (by decide)) fun _ _ => rfl

theorem tree_diskD : Tree diskD {1, 3} := by
  have hroot : Directory diskD 1 1 := directory_entryDisk (show 0 ∈ ofFn entryD.name by decide)
  have hinode : inodeAt diskD.content 3 = oneBlockInode 4 24 :=
    inodeAt_entryDisk_file (by decide) (by decide)
  have hcount : slotCount diskD.content 3 = 1 := by
    rw [slotCount, hinode]
    rfl
  have hsub : Directory diskD 3 1 := by
    refine ⟨⟨stored_oneBlock hinode (by decide) (by decide) (by decide) (by decide) (by decide),
      by rw [hinode]; rfl, fun k hk huse => ?_⟩, fun i hi j hj _ _ => by omega⟩
    obtain rfl : k = 0 := by omega
    rw [slotAt_diskD] at huse
    cases huse
  refine ⟨.inl rfl, ?_, ?_⟩
  · rintro x (rfl | rfl)
    · rwa [show slotCount diskD.content 1 = 1 from slotCount_entryDisk]
    · rwa [hcount]
  rintro x (rfl | rfl) name y hentry
  · rw [show entryIn diskD.content 1 name = _ from entryIn_entryDisk name] at hentry
    split at hentry
    · cases hentry
      exact .inr rfl
    · cases hentry
  · rw [entryIn_oneSlot hcount] at hentry
    cases hentry

/-- For the path `D` the directory `D` itself is returned, not the root directory it is in. -/
theorem pathResolution_enters_last : Returns (pathResolution ⟨1, 0⟩ nameD) diskD (fun r _ =>
    r = (true, some ⟨3, 0⟩, some nameD)) ∧ ¬ ResolvesCorrectly diskD ⟨1, 0⟩ nameD := by
  have hroot : (⟨1, 0⟩ : Dir).inode ∈ ({1, 3} : Set BlockSector) := Or.inl rfl
  have hspec := tree_diskD.pathResolution_spec (E := fun _ => False) rfl
    (by intro i hi; obtain rfl := mem_singleton.mp hi; decide) hroot rfl nameD
  have hentry : entryIn diskD.content 1 nameD = some (3, true) :=
    (entryIn_entryDisk nameD).trans (by decide)
  have hresolution : resolution (entryIn diskD.content) ⟨1, 0⟩ nameD =
      ⟨true, 3, some nameD, none⟩ := by
    rw [resolution, show components nameD = [nameD] by decide, resolveFrom,
      if_neg (by decide), show startOf ⟨1, 0⟩ nameD = 1 from rfl, hentry]
    rfl
  rw [hresolution] at hspec
  refine ⟨hspec.post fun r t hr => hr.1, fun hcorrect => ?_⟩
  have hdir := ((Returns.iff_of_eq hspec _).mp hcorrect).2 rfl
  exact absurd hdir.1 (by decide)

end CS162
