import CS162.Filesys.Format
import CS162.Library.Run

/-!
# Runs of a file system

A volume is a mounted file system together with the inodes that are alive: those that
`inode_create` has made and that have not been removed and closed by their last opener.
Five calls work on it, in any order: creating an inode in a sector taken from the free
map, opening, writing, removing and closing one.

What a consistent volume promises is `OwnedOnce`: no two references of live inodes are
to the same sector, and every sector referred to is marked in the free map.  A write that
has to grow the file breaks it, because `resize_inode` gives the blocks of the file back
and allocates others without storing the new map in the inode
(`write_frees_live_sector`).  It holds along every run whose writes fit the blocks their
file has (`ownedOnce_of_contained`).

## Strategy

`Owning` is the invariant.  Formatting establishes it (`format_owning`), and each call
keeps it by the lemma of `Ownership` for that call (`Volume.step_owning`).
-/

namespace CS162

open Library FileSys

/-! ## Volumes and calls -/

/-- A call on the file system. -/
inductive FsOp where
  | create (length : ℤ)
  | openInode (sector : BlockSector)
  | write (sector : BlockSector) (buffer : ℕ → UInt8) (size offset : ℤ)
  | remove (sector : BlockSector)
  | close (sector : BlockSector)

/-- A mounted file system and its live inodes. -/
structure Volume where
  fs : FileSys
  live : List BlockSector

namespace Volume

/-- The last opener of a removed inode closes it. -/
def Frees (v : Volume) (sector : BlockSector) : Prop :=
  ∃ inode ∈ findInode sector v.fs.openInodes, inode.openCnt - 1 = 0 ∧ inode.removed = true

instance (v : Volume) (sector : BlockSector) : Decidable (v.Frees sector) :=
  inferInstanceAs (Decidable (∃ inode ∈ findInode sector v.fs.openInodes, _))

/-- What the callers of a call see to: lengths, sizes and offsets are not negative and fit
their type, only live inodes are opened, the other calls get an inode that is open, and
nobody removes or closes the free map, which stays open while the volume is mounted. -/
def Legal (v : Volume) : FsOp → Prop
  | .create length => 0 ≤ length ∧ length < 2147483648
  | .openInode sector => sector ∈ v.live
  | .write sector _ size offset =>
    (findInode sector v.fs.openInodes).isSome ∧ 0 ≤ size ∧ 0 ≤ offset
  | .remove sector | .close sector =>
    (findInode sector v.fs.openInodes).isSome ∧ sector ≠ freeMapSector

instance (v : Volume) : (op : FsOp) → Decidable (v.Legal op)
  | .create _ => inferInstanceAs (Decidable (_ ∧ _))
  | .openInode _ => inferInstanceAs (Decidable (_ ∈ _))
  | .write .. => inferInstanceAs (Decidable (_ ∧ _ ∧ _))
  | .remove _ | .close _ => inferInstanceAs (Decidable (_ ∧ _))

/-- The call itself; it returns the inodes that are alive afterwards. -/
def call (v : Volume) : FsOp → Fs (List BlockSector)
  | .create length => do
      match ← createFile length with
      | none => return v.live
      | some sector => return sector :: v.live
  | .openInode sector => do
      let _ ← inodeOpen sector
      return v.live
  | .write sector buffer size offset => do
      match findInode sector (← get).openInodes with
      | none => throw (.undefined "inode")
      | some inode =>
        let _ ← inodeWriteAt inode buffer size offset
        return v.live
  | .remove sector => do
      inodeRemove sector
      return v.live
  | .close sector => do
      inodeClose sector
      return if v.Frees sector then v.live.filter (· ≠ sector) else v.live

/-- One legal call; nothing follows a call that panics or whose behaviour is undefined. -/
def next (v : Volume) (op : FsOp) : Option Volume :=
  if v.Legal op then
    match (v.call op).run v.fs with
    | .ok (live, fs) => some ⟨fs, live⟩
    | .error _ => none
  else none

/-- A volume that has just been formatted, with memory for the formatting.  What `malloc`
answers afterwards is arbitrary. -/
def Formatted (v : Volume) : Prop :=
  ∃ (blank : FileSys) (unused : ℕ → Bool) (heap : ℕ → Bool) (fs : FileSys),
    blank.freeMapFile = none ∧ blank.openInodes = [] ∧ blank.MemAvailable ∧
      (format unused).run blank = .ok ((), fs) ∧
      v = ⟨{ fs with heap := heap }, [rootDirSector, freeMapSector]⟩

/-- The references of all live inodes: the inode sectors, the index blocks and the blocks
that the lengths cover. -/
def allReferences (v : Volume) : List BlockSector :=
  v.live.flatMap fun x => references v.fs.content x (blockCount (inodeAt v.fs.content x).length)

/-- Every sector that a live inode refers to is marked in the free map and referred to
once. -/
def OwnedOnce (v : Volume) : Prop :=
  v.allReferences.Nodup ∧ ∀ y ∈ v.allReferences, v.fs.freeMap y.toNat = true

instance (v : Volume) : Decidable v.OwnedOnce := inferInstanceAs (Decidable (_ ∧ _))

/-- The condition under which a call keeps to the blocks of its inode: a write fits, a new
file has its blocks cleared by initialised code, and an inode that goes has no doubly
indirect block. -/
def Contained (v : Volume) : FsOp → Prop
  | .create length => Zeroable (bytesToSectors length)
  | .write sector _ size offset =>
    ∀ inode ∈ findInode sector v.fs.openInodes, Fits v.fs inode size offset
  | .close sector => v.Frees sector → blockCount (inodeAt v.fs.content sector).length ≤ 140
  | .openInode _ | .remove _ => True

instance (v : Volume) : (op : FsOp) → Decidable (v.Contained op)
  | .create _ => inferInstanceAs (Decidable (Zeroable _))
  | .openInode _ | .remove _ => inferInstanceAs (Decidable True)
  | .write sector _ size _ =>
    inferInstanceAs (Decidable (∀ inode ∈ findInode sector _, _ ∨ _ ∧ (0 < size → _)))
  | .close _ => inferInstanceAs (Decidable (_ → _))

variable {v w : Volume} {op : FsOp}

/-! ## The invariant along runs -/

theorem Formatted.owning (h : v.Formatted) : Owning v.fs v.live := by
  obtain ⟨blank, unused, heap, fs, hfile, hopened, hmem, hrun, rfl⟩ := h
  have hown := (format_owning hfile hopened hmem).of_run_eq hrun
  exact hown.of_openInodes hown.opened

/-- A legal call that keeps to the blocks of its inode returns and keeps the invariant. -/
theorem call_owning (h : Owning v.fs v.live) (hlegal : v.Legal op) (hcontained : v.Contained op) :
    Returns (v.call op) v.fs fun live fs => Owning fs live := by
  cases op with
  | create length =>
    obtain ⟨hlow, hhigh⟩ := hlegal
    apply Spec.bind
    apply (h.createFile hlow hhigh hcontained).post
    rintro r fs ⟨hnone, hsome⟩
    cases r with
    | none => exact .pure (hnone rfl)
    | some x => exact .pure (hsome x rfl)
  | openInode sector =>
    apply Spec.bind
    apply (h.inodeOpen hlegal).post
    intro r fs hfs
    exact .pure hfs.1
  | write sector buffer size offset =>
    obtain ⟨hopen, hsize, hoffset⟩ := hlegal
    obtain ⟨inode, hinode⟩ := Option.isSome_iff_exists.mp hopen
    apply Spec.get_bind
    rw [hinode]
    apply Spec.bind
    apply (h.inodeWriteAt (h.opened inode (List.mem_of_find?_eq_some hinode)) hsize hoffset
      (hcontained inode hinode)).post
    intro r fs hfs
    exact .pure hfs
  | remove sector =>
    apply Spec.bind
    apply h.inodeRemove.post
    intro r fs hfs
    exact .pure hfs
  | close sector =>
    obtain ⟨hopen, hne⟩ := hlegal
    obtain ⟨inode, hinode⟩ := Option.isSome_iff_exists.mp hopen
    have hfrees : v.Frees sector ↔ inode.openCnt - 1 = 0 ∧ inode.removed = true := by
      simp [Frees, hinode]
    apply Spec.bind
    apply (h.inodeClose hinode hne fun hlast hremoved =>
      hcontained (hfrees.mpr ⟨hlast, hremoved⟩)).post
    intro r fs hfs
    apply Spec.pure
    rwa [if_congr hfrees rfl rfl]

theorem next_owning (h : Owning v.fs v.live) (hcontained : v.Contained op)
    (hnext : v.next op = some w) : Owning w.fs w.live := by
  unfold next at hnext
  split at hnext
  case isFalse => simp at hnext
  case isTrue hlegal =>
      obtain ⟨live, fs, hrun, hown⟩ := returns_iff.mp (call_owning h hlegal hcontained)
      rw [hrun] at hnext
      cases hnext
      exact hown

theorem run_owning {init : Volume} {ops : List FsOp} (hinit : init.Formatted)
    (hrun : Run (Guarded Contained fun v op w => v.next op = some w) init ops v) :
    Owning v.fs v.live := by
  apply Run.invariant (I := fun v => Owning v.fs v.live) hinit.owning _ hrun
  intro v op w h hstep
  exact next_owning h hstep.1 hstep.2

/-- The blocks that the length covers are among the allocated ones. -/
theorem references_sublist (c : BlockSector → Sector) (x : BlockSector) :
    (references c x (blockCount (inodeAt c x).length)).Sublist (ownReferences c x) := by
  unfold ownReferences capacity
  rcases Nat.eq_zero_or_pos (blockCount (inodeAt c x).length) with hzero | hpos
  · rw [hzero]
    exact (List.nil_sublist _).cons_cons x
  · rw [max_eq_right hpos]

theorem ownedOnce_of_owning (h : Owning v.fs v.live) : v.OwnedOnce := by
  obtain ⟨hnodup, hdisjoint⟩ := List.nodup_flatMap.mp h.nodup
  refine ⟨List.nodup_flatMap.mpr ⟨fun x hx => (hnodup x hx).sublist (references_sublist _ x), ?_⟩,
    fun y hy => ?_⟩
  · apply hdisjoint.imp
    intro x z hxz y hyx hyz
    exact hxz ((references_sublist _ x).subset hyx) ((references_sublist _ z).subset hyz)
  · obtain ⟨x, hx, hyx⟩ := List.mem_flatMap.mp hy
    exact h.marked x hx y ((references_sublist _ x).subset hyx)

/-! ## The main result -/

/-- **Every referenced sector is marked and referenced once**, in every state that is
reached from a formatted volume by calls that keep to the blocks of their inodes. -/
theorem ownedOnce_of_contained {init : Volume} {ops : List FsOp} (hinit : init.Formatted)
    (hrun : Run (Guarded Contained fun v op w => v.next op = some w) init ops v) : v.OwnedOnce :=
  ownedOnce_of_owning (run_owning hinit hrun)

/-! ## A small volume -/

/-- A blank disk of 40 sectors. -/
def blankDisk : FileSys where
  size := 40
  size_lt := by decide
  content _ := Sector.zeros
  freeMap _ := false
  freeMapFile := none
  openInodes := []
  heap _ := true

theorem exists_run_of_format {step : Volume → FsOp → Volume → Prop}
    {next : Volume → FsOp → Option Volume} {ops : List FsOp} {Q : Volume → Prop}
    (hnext : ∀ v op w, next v op = some w → step v op w) (P : Volume → Prop)
    (h : Returns (format fun _ => false) blankDisk fun _ fs => ∃ v ∈
      execute next ⟨{ fs with heap := fun _ => true }, [rootDirSector, freeMapSector]⟩ ops, P v)
    (hQ : ∀ init v, init.Formatted → Run step init ops v → P v → Q v) :
    ∃ init v : Volume, init.Formatted ∧ Run step init ops v ∧ Q v := by
  obtain ⟨⟨⟩, fs, hformat, hexec⟩ := returns_iff.mp h
  obtain ⟨v, hrun, hv⟩ := exists_run_of_execute hnext hexec
  have hinit : Formatted ⟨{ fs with heap := fun _ => true }, [rootDirSector, freeMapSector]⟩ :=
    ⟨blankDisk, _, _, fs, rfl, rfl, rfl, hformat, rfl⟩
  exact ⟨_, v, hinit, hrun, hQ _ v hinit hrun hv⟩

theorem guarded_contained (v : Volume) (op : FsOp) (w : Volume)
    (h : (if ¬ v.Contained op then none else v.next op) = some w) :
    Guarded Contained (fun v op w => v.next op = some w) v op w :=
  guarded_of_ite (fun _ _ _ hstep => hstep) (fun _ _ => Decidable.not_not.mp) v op w h

/-- A file is created, opened, written, removed and closed. -/
theorem ownedOnce_of_contained_one_file : ∃ init v : Volume, init.Formatted ∧
    Run (Guarded Contained fun v op w => v.next op = some w) init
      [.create 5, .openInode 4, .write 4 (fun _ => 1) 2 1, .remove 4, .close 4] v ∧
    v.live = [rootDirSector, freeMapSector] ∧ v.OwnedOnce := by
  refine exists_run_of_format guarded_contained
    (fun v => v.live = [rootDirSector, freeMapSector]) (by decide +kernel) ?_
  exact fun _ _ hinit hrun hlive => ⟨hlive, ownedOnce_of_contained hinit hrun⟩

/-- Two files of five bytes, the first of which is removed.  One byte written to the second
one at offset 600 moves its data from sector 7 to lower sectors, but the inode still refers
to sector 7, which is now free. -/
theorem write_frees_live_sector : ∃ init v : Volume, init.Formatted ∧
    Run (fun v op w => v.next op = some w) init
      [.create 5, .create 5, .openInode 4, .openInode 6, .remove 4, .close 4,
        .write 6 (fun _ => 1) 1 600] v ∧
    v.live = [6, rootDirSector, freeMapSector] ∧ 7 ∈ v.allReferences ∧ v.fs.freeMap 7 = false ∧
    ¬ v.OwnedOnce := by
  refine exists_run_of_format (fun _ _ _ hstep => hstep)
    (fun v => v.live = [6, rootDirSector, freeMapSector] ∧ 7 ∈ v.allReferences ∧
      v.fs.freeMap 7 = false) (by decide +kernel) ?_
  intro init v _ _ ⟨hlive, hmem, hfree⟩
  refine ⟨hlive, hmem, hfree, fun howned => ?_⟩
  exact Bool.noConfusion (hfree.symm.trans (howned.2 7 hmem))

end Volume

end CS162
