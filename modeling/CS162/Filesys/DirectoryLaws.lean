import CS162.Filesys.DirectoryMap

/-!
# Directories are finite maps

`dir_add` looks for a free slot only up to the end of the file.  In a directory without a
free slot it writes behind the end, `inode_write_at` does not make the file longer, and the
entry is never seen again, although `dir_add` has returned true (`dirAdd_loses_entry`).  With
a free slot for every new name the directory is a finite map from names to inodes, along
every run of `dir_add` and `dir_remove` (`directory_isMap`).

## Strategy

`OpenDir` says that a directory is open in a consistent file system.  Each call keeps it and
changes the table of slots as the laws of `SlotTable` want it (`OpenDir.add`,
`OpenDir.remove`); what `dir_lookup` finds is read off this table (`OpenDir.found`).
`dir_remove` may be the last opener of the inode it removes and then gives its sectors back.
The slots are in sectors of the directory itself, so they stay as they are as long as the
inode is a live one (`Owning.inodeClose_removed`).
-/

namespace CS162

open Library FileSys Function List

/-! ## The directory between two calls -/

/-- A directory with `cnt` slots that is open in a consistent file system. -/
structure OpenDir (v : Volume) (x : BlockSector) (cnt : ℕ) : Prop where
  owning : Owning v.fs v.live
  mem : v.fs.MemAvailable
  counted : Counted v.fs.openInodes
  not_map : x ≠ freeMapSector
  writable : ∃ inode, findInode x v.fs.openInodes = some inode ∧ inode.denyWriteCnt = 0
  directory : Directory v.fs x cnt

/-- What `dir_lookup` finds: the sector of the inode and `is_dir`. -/
def found (fs : FileSys) (dir : Dir) (name : CString) :
    Except Fault (Option (BlockSector × Bool)) :=
  ((dirLookup dir name).run fs).map fun r => r.1.map fun e => (e.1.sector, e.2)

/-- What `dir_lookup` returns for an entry. -/
def DirEntry.target (e : DirEntry) : BlockSector × Bool := (e.inodeSector, e.isDir)

variable {v : Volume} {x : BlockSector} {cnt k : ℕ} {name : CString} {s : FileSys}
  {c : BlockSector → Sector} {e : DirEntry}

/-- A write to the directory changes data of one live inode only. -/
theorem Owning.slot_frame {live : List BlockSector} {y z : BlockSector} (h : Owning s live)
    (hx : x ∈ live) (hw : SlotWritten s.content c x cnt k e) (hz : z ∈ live)
    (hy : y = z ∨ ∃ j < capacity (inodeAt s.content z).length, y ∈ pathTo s.content z j) :
    c y = s.content y := by
  apply hw.frame
  rintro ⟨j, hj, heq⟩
  exact h.not_dataOf hz hx hy ⟨j, hj.trans_le (le_max_right _ _), heq⟩

theorem Owning.slotWritten {live : List BlockSector} (h : Owning s live) (hx : x ∈ live)
    (hw : SlotWritten s.content c x cnt k e) : Owning { s with content := c } live :=
  h.keep (List.Sublist.refl _) h.map_live rfl rfl (fun _ hz => ⟨h.slot_frame hx hw hz (.inl rfl),
    fun j hj _ hy => h.slot_frame hx hw hz (.inr ⟨j, hj, hy⟩)⟩) h.marked h.opened

namespace OpenDir

variable (h : OpenDir v x cnt)
include h

theorem isSome : (findInode x v.fs.openInodes).isSome := by
  obtain ⟨inode, hopen, -⟩ := h.writable
  simp [hopen]

theorem live : x ∈ v.live := by
  obtain ⟨inode, hopen, -⟩ := h.writable
  rw [← sector_of_findInode hopen]
  exact h.owning.opened inode (mem_of_find?_eq_some hopen)

theorem found (pos : ℤ) (name : CString) : found v.fs ⟨x, pos⟩ name =
    .ok ((SlotTable.lookup DirEntry.key (slotAt v.fs.content x) cnt name).map DirEntry.target) := by
  have hspec := h.directory.dirLookup_spec (E := fun _ => False) h.mem h.isSome pos name
  obtain ⟨r, t, hrun, hr⟩ := returns_iff.mp hspec
  rw [CS162.found, hrun]
  change _ = Except.ok (((findSlot v.fs.content x cnt name).map _).map _)
  cases hfind : findSlot v.fs.content x cnt name with
  | none =>
    rw [hfind] at hr
    rw [hr.2]
    rfl
  | some k =>
    rw [hfind] at hr
    obtain ⟨-, inode, rfl, hsector⟩ := hr
    show Except.ok (some (inode.sector, _)) = _
    rw [hsector]
    rfl

theorem add_of_found (pos : ℤ) (sector : BlockSector) (isDir : Bool)
    (hfound : (findSlot v.fs.content x cnt name).isSome) :
    Returns (dirAdd ⟨x, pos⟩ name sector isDir) v.fs fun r t => r = false ∧ t = v.fs := by
  refine (h.directory.dirAdd_of_found h.mem h.isSome hfound).post ?_
  exact fun r t ht => ⟨ht.2, ht.1⟩

theorem add_of_free (pos : ℤ) (sector : BlockSector) (isDir : Bool) (hnonempty : name.bytes ≠ [])
    (hshort : name.bytes.length ≤ nameMax) (habsent : findSlot v.fs.content x cnt name = none)
    (hfree : freeSlot v.fs.content x cnt = some k) :
    Returns (dirAdd ⟨x, pos⟩ name sector isDir) v.fs fun r t => r = true ∧
      OpenDir ⟨t, v.live⟩ x cnt ∧ ∃ e, e.target = (sector, isDir) ∧
        SlotTable.lookup DirEntry.key (slotAt t.content x) cnt =
          update (SlotTable.lookup DirEntry.key (slotAt v.fs.content x) cnt) name (some e) := by
  obtain ⟨inode, hopen, hdeny⟩ := h.writable
  refine (h.directory.dirAdd_of_free h.mem hopen hdeny hnonempty hshort habsent hfree).post ?_
  rintro r t ⟨rfl, c, e, rfl, hw, hkey, hterm, rfl, rfl⟩
  obtain ⟨hk, hslot⟩ := SlotTable.free_some hfree
  have hdistinct := h.directory.distinct.fill hw.slots hkey habsent
  refine ⟨rfl, ⟨h.owning.slotWritten h.live hw, h.mem.congr rfl, h.counted, h.not_map,
    ⟨inode, hopen, hdeny⟩, h.directory.written hw (fun _ => hterm) hdistinct⟩, e, rfl, ?_⟩
  exact SlotTable.lookup_fill h.directory.distinct hk hw.slots hslot hkey habsent

/-- `dir_remove` of a name that is there, if its inode is alive and can be freed. -/
theorem remove (pos : ℤ) {z : BlockSector} (hfound : findSlot v.fs.content x cnt name = some k)
    (hz : (slotAt v.fs.content x k).inodeSector = z) (hlive : z ∈ v.live) (hne : z ≠ freeMapSector)
    (hsmall : findInode z v.fs.openInodes = none →
      blockCount (inodeAt v.fs.content z).length ≤ 140) :
    Returns (dirRemove ⟨x, pos⟩ name) v.fs fun r t => r = true ∧
      OpenDir ⟨t, if (findInode z v.fs.openInodes).isSome then v.live
        else v.live.filter (· ≠ z)⟩ x cnt ∧
      SlotTable.lookup DirEntry.key (slotAt t.content x) cnt =
        update (SlotTable.lookup DirEntry.key (slotAt v.fs.content x) cnt) name none := by
  obtain ⟨inode, hopen, hdeny⟩ := h.writable
  obtain ⟨hk, hkey⟩ := SlotTable.find_some hfound
  apply h.directory.dirRemove_of_found h.mem h.counted hopen hdeny hfound
  intro c hw
  rw [hz]
  have hdistinct := h.directory.distinct.clear hw.slots rfl
  have hdir := h.directory.written hw (fun huse => Bool.noConfusion huse) hdistinct
  have hlookup := SlotTable.lookup_clear h.directory.distinct hk hw.slots hkey rfl
  have hown := h.owning.slotWritten h.live hw
  apply Spec.modify_bind
  change Spec _ _ { v.fs with
    content := c, openInodes := (opened v.fs.openInodes z).map (markRemoved z) } _
  apply Spec.bind
  cases hzopen : findInode z v.fs.openInodes with
  | some i =>
    -- somebody else has the inode open
    have hpos := h.counted.of_some hzopen
    have hfind : findInode z ((opened v.fs.openInodes z).map (markRemoved z)) =
        some (markRemoved z { i with openCnt := i.openCnt + 1 }) := by
      rw [findInode_map (sector_markRemoved z), findInode_opened, hzopen]
      rfl
    refine (inodeClose_spec hfind fun hone => ?_).post ?_
    · rw [openCnt_markRemoved] at hone
      have : i.openCnt + 1 = 1 := hone
      omega
    rintro _ t rfl
    have hlist := closed_markRemoved_opened h.counted hzopen
    refine .pure ⟨rfl, ⟨?_, h.mem.congr rfl, ?_, h.not_map, ?_, ?_⟩, hlookup⟩
    · refine hown.of_openInodes fun j hj => ?_
      rw [hlist] at hj
      obtain ⟨j', hj', rfl⟩ := mem_map.mp hj
      rw [sector_markRemoved]
      exact h.owning.opened j' hj'
    · rw [hlist]
      exact h.counted.markRemoved z
    · refine ⟨markRemoved z inode, ?_, (denyWriteCnt_markRemoved z inode).trans hdeny⟩
      rw [hlist, findInode_map (sector_markRemoved z), hopen]
      rfl
    · exact hdir.of_openInodes _
  | none =>
    -- the inode goes, with its sectors
    have hlist : (opened v.fs.openInodes z).map (markRemoved z) =
        ⟨z, 1, true, 0⟩ :: v.fs.openInodes := by
      rw [opened_of_none hzopen, map_cons, map_markRemoved_of_none hzopen]
      simp [markRemoved, atSector]
    rw [hlist]
    have hown' : Owning { v.fs with
        content := c, openInodes := ⟨z, 1, true, 0⟩ :: v.fs.openInodes } v.live :=
      hown.of_openInodes (forall_mem_cons.mpr ⟨hlive, h.owning.opened⟩)
    have hfind : findInode z (⟨z, 1, true, 0⟩ :: v.fs.openInodes) = some ⟨z, 1, true, 0⟩ := by
      simp [findInode]
    refine (hown'.inodeClose_removed hfind hne rfl rfl ?_).post ?_
    · show blockCount (inodeAt c z).length ≤ 140
      rw [inodeAt, h.owning.slot_frame h.live hw hlive (.inl rfl)]
      exact hsmall hzopen
    rintro _ t ⟨hown'', hmem, hopened, hsize, hframe⟩
    have hrest : t.openInodes = v.fs.openInodes := by
      rw [hopened, filter_cons_of_neg (by simp)]
      exact filter_of_none hzopen
    -- the sectors of the directory are not those of the free map
    obtain ⟨hdir', hslots⟩ := hdir.of_owned (t := t) hsize fun y hy => hframe y fun hdata => by
      refine hown'.apart h.live h.not_map ?_ hdata.mapOwned
      refine mem_references.mpr (hy.imp id ?_)
      rintro ⟨j, hj, hy⟩
      exact ⟨j, lt_of_lt_of_le hj (le_max_right _ _), hy⟩
    refine .pure ⟨rfl, ⟨hown'', hmem (h.mem.congr rfl), hrest ▸ h.counted, h.not_map,
      ⟨inode, hrest ▸ hopen, hdeny⟩, hdir'⟩, ?_⟩
    rw [← hlookup]
    exact SlotTable.lookup_congr hslots

end OpenDir

/-! ## Runs of calls -/

/-- A call that changes the directory. -/
inductive DirOp where
  | add (name : CString) (sector : BlockSector) (isDir : Bool)
  | remove (name : CString)

/-- The call on a directory. -/
def DirOp.run (dir : Dir) : DirOp → Fs Bool
  | .add name sector isDir => dirAdd dir name sector isDir
  | .remove name => dirRemove dir name

/-- A name that can be the name of an entry. -/
def ValidName (name : CString) : Prop := name.bytes ≠ [] ∧ name.bytes.length ≤ nameMax

instance (name : CString) : Decidable (ValidName name) := inferInstanceAs (Decidable (_ ∧ _))

def slotCount (c : BlockSector → Sector) (x : BlockSector) : ℕ := (inodeAt c x).length.toNat / 24

/-- The inodes that are alive after a call.  A removed inode that nobody has open is gone. -/
def liveAfter (dir : Dir) (v : Volume) : DirOp → Bool → List BlockSector
  | .remove name, true =>
    match found v.fs dir name with
    | .ok (some (z, _)) =>
      if (findInode z v.fs.openInodes).isSome then v.live else v.live.filter (· ≠ z)
    | _ => v.live
  | _, _ => v.live

/-- A call returns `r` and leads from one volume to the next. -/
def DirStep (dir : Dir) (v : Volume) (op : DirOp) (r : Bool) (w : Volume) : Prop :=
  (op.run dir).run v.fs = .ok (r, w.fs) ∧ w.live = liveAfter dir v op r

/-- The condition under which a directory behaves as a map.  A new name finds a free slot,
and the inode of a name to be removed is alive and, if nobody has it open, has no doubly
indirect block. -/
def Usable (dir : Dir) (v : Volume) : DirOp → Prop
  | .add name _ _ => ValidName name ∧ (found v.fs dir name ≠ .ok none ∨
        (freeSlot v.fs.content dir.inode (slotCount v.fs.content dir.inode)).isSome)
  | .remove name => ValidName name ∧
      ∀ z isDir, found v.fs dir name = .ok (some (z, isDir)) → z ∈ v.live ∧ z ≠ freeMapSector ∧
        (findInode z v.fs.openInodes = none → blockCount (inodeAt v.fs.content z).length ≤ 140)

/-- A directory none of whose slots is in use, opened in a consistent file system with
memory available. -/
def EmptyDirectory (dir : Dir) (v : Volume) : Prop :=
  ∃ cnt, OpenDir v dir.inode cnt ∧ ∀ k < cnt, (slotAt v.fs.content dir.inode k).inUse = false

/-- What a call on a finite map does. -/
def MapLaw (dir : Dir) (v : Volume) : DirOp → Bool → Volume → Prop
  | .add name sector isDir, r, w =>
    (r = true ↔ found v.fs dir name = .ok none) ∧
    (r = true → found w.fs dir name = .ok (some (sector, isDir)) ∧
      ∀ other ≠ name, found w.fs dir other = found v.fs dir other) ∧
    (r = false → ∀ other, found w.fs dir other = found v.fs dir other)
  | .remove name, r, w =>
    (r = true → found w.fs dir name = .ok none ∧
      ∀ other ≠ name, found w.fs dir other = found v.fs dir other) ∧
    (r = false → ∀ other, found w.fs dir other = found v.fs dir other)

variable {dir : Dir} {op : DirOp} {w : Volume}

theorem OpenDir.slotCount (h : OpenDir v x cnt) : slotCount v.fs.content x = cnt := by
  unfold CS162.slotCount
  rw [h.directory.length]
  omega

theorem OpenDir.found_update (h : OpenDir v x cnt) (h' : OpenDir w x cnt) (pos : ℤ)
    {e : Option DirEntry}
    (hlookup : SlotTable.lookup DirEntry.key (slotAt w.fs.content x) cnt =
      update (SlotTable.lookup DirEntry.key (slotAt v.fs.content x) cnt) name e) :
    CS162.found w.fs ⟨x, pos⟩ name = .ok (e.map DirEntry.target) ∧
      ∀ other ≠ name, CS162.found w.fs ⟨x, pos⟩ other = CS162.found v.fs ⟨x, pos⟩ other := by
  refine ⟨?_, fun other hne => ?_⟩
  · rw [h'.found, hlookup, update_self]
  · rw [h'.found, h.found, hlookup, update_of_ne hne]

theorem OpenDir.found_none_iff (h : OpenDir v x cnt) (pos : ℤ) :
    CS162.found v.fs ⟨x, pos⟩ name = .ok none ↔ findSlot v.fs.content x cnt name = none := by
  rw [h.found]
  change Except.ok (((findSlot v.fs.content x cnt name).map _).map _) = _ ↔ _
  simp

/-- One call obeys the law of a map and keeps the directory in order. -/
theorem OpenDir.call (h : OpenDir v dir.inode cnt) (husable : Usable dir v op) :
    ∃ r w, DirStep dir v op r w ∧ MapLaw dir v op r w ∧ OpenDir w dir.inode cnt := by
  obtain ⟨x, pos⟩ := dir
  cases op with
  | add name sector isDir =>
    obtain ⟨⟨hnonempty, hshort⟩, hroom⟩ := husable
    cases hfind : findSlot v.fs.content x cnt name with
    | some k =>
      have hsome : (findSlot v.fs.content x cnt name).isSome := by simp [hfind]
      obtain ⟨r, t, hrun, rfl, rfl⟩ := returns_iff.mp (h.add_of_found pos sector isDir hsome)
      have hnot : ¬ CS162.found v.fs ⟨x, pos⟩ name = .ok none := fun hnone => by
        rw [(h.found_none_iff pos).mp hnone] at hfind
        simp at hfind
      exact ⟨false, v, ⟨hrun, rfl⟩, ⟨by simp [hnot], by simp, fun _ _ => rfl⟩, h⟩
    | none =>
      have hnone := (h.found_none_iff pos).mpr hfind
      have hfree := hroom.resolve_left (not_not.mpr hnone)
      rw [show CS162.slotCount v.fs.content (Dir.mk x pos).inode = cnt from h.slotCount] at hfree
      obtain ⟨k, hk⟩ := Option.isSome_iff_exists.mp hfree
      obtain ⟨r, t, hrun, rfl, hopen, e, htarget, hlookup⟩ := returns_iff.mp
        (h.add_of_free pos sector isDir hnonempty hshort hfind hk)
      obtain ⟨hself, hother⟩ := h.found_update hopen pos hlookup
      rw [Option.map_some, htarget] at hself
      exact ⟨true, ⟨t, v.live⟩, ⟨hrun, rfl⟩, ⟨by simp [hnone], fun _ => ⟨hself, hother⟩, by simp⟩,
        hopen⟩
  | remove name =>
    obtain ⟨-, hinode⟩ := husable
    cases hfind : findSlot v.fs.content x cnt name with
    | none =>
      have hspec := h.directory.dirRemove_of_absent (E := fun _ => False) h.mem h.isSome pos hfind
      obtain ⟨r, t, hrun, rfl, rfl⟩ := returns_iff.mp hspec
      exact ⟨false, v, ⟨hrun, rfl⟩, ⟨by simp, fun _ _ => rfl⟩, h⟩
    | some k =>
      have hfound : CS162.found v.fs ⟨x, pos⟩ name =
          .ok (some (slotAt v.fs.content x k).target) := by
        rw [h.found, SlotTable.lookup,
          show SlotTable.find DirEntry.key (slotAt v.fs.content x) cnt name = some k from hfind]
        rfl
      obtain ⟨hlive, hne, hsmall⟩ := hinode _ _ hfound
      obtain ⟨r, t, hrun, rfl, hopen, hlookup⟩ := returns_iff.mp
        (h.remove pos hfind rfl hlive hne hsmall)
      obtain ⟨hself, hother⟩ := h.found_update hopen pos hlookup
      refine ⟨true, ⟨t, _⟩, ⟨hrun, ?_⟩, ⟨fun _ => ⟨hself, hother⟩, by simp⟩, hopen⟩
      rw [liveAfter, hfound]
      rfl

/-- **A directory is a finite map.**  In every state that is reached from an empty directory
by calls that find a free slot for each new name and remove only live inodes, the next such
call returns what the law of a map says and changes what `dir_lookup` finds accordingly. -/
theorem directory_isMap {init : Volume} {ops : List DirOp} (hinit : EmptyDirectory dir init)
    (hrun : Run (Guarded (Usable dir) fun v op w => ∃ r, DirStep dir v op r w) init ops v) :
    ∀ op, Usable dir v op → ∃ r w, DirStep dir v op r w ∧ MapLaw dir v op r w := by
  obtain ⟨cnt, hopen, -⟩ := hinit
  have hinv : OpenDir v dir.inode cnt := by
    apply Run.invariant (I := fun v => OpenDir v dir.inode cnt) hopen _ hrun
    rintro v op w h ⟨husable, r, hstep, hlive⟩
    obtain ⟨r', w', ⟨hstep', hlive'⟩, -, hnext⟩ := h.call husable
    rw [hstep] at hstep'
    cases w
    cases w'
    cases hstep'
    cases hlive
    cases hlive'
    exact hnext
  intro op husable
  obtain ⟨r, w, hstep, hlaw, -⟩ := hinv.call husable
  exact ⟨r, w, hstep, hlaw⟩

/-! ## A directory with one slot -/

/-- The call as a function, to compute runs. -/
def nextCall (dir : Dir) (v : Volume) (op : DirOp) : Option Volume :=
  match (op.run dir).run v.fs with
  | .ok (r, fs) => some ⟨fs, liveAfter dir v op r⟩
  | .error _ => none

theorem dirStep_of_nextCall (h : nextCall dir v op = some w) : ∃ r, DirStep dir v op r w := by
  unfold nextCall at h
  split at h
  next r fs hrun =>
    cases h
    exact ⟨r, hrun, rfl⟩
  next => simp at h

/-- A volume with memory available. -/
def Volume.withMemory (v : Volume) : Volume := ⟨{ v.fs with heap := fun _ => true }, v.live⟩

/-- The open inode in sector 4 is that of a directory with one slot, which is free. -/
def HasOneSlot (v : Volume) : Prop :=
  (∀ i ∈ v.fs.openInodes, 1 ≤ i.openCnt) ∧
    (findInode 4 v.fs.openInodes).map (·.denyWriteCnt) = some 0 ∧
    (inodeAt v.fs.content 4).length = 24 ∧ (slotAt v.fs.content 4 0).inUse = false

instance (v : Volume) : Decidable (HasOneSlot v) := inferInstanceAs (Decidable (_ ∧ _ ∧ _ ∧ _))

theorem emptyDirectory_of_hasOneSlot (hown : Owning v.fs v.live) (h : HasOneSlot v) :
    EmptyDirectory ⟨4, 0⟩ v.withMemory := by
  obtain ⟨hcounted, hinode, hlength, hfree⟩ := h
  obtain ⟨inode, hopen, hdeny⟩ := Option.map_eq_some_iff.mp hinode
  have hlive : (4 : BlockSector) ∈ v.live := by
    rw [← sector_of_findInode hopen]
    exact hown.opened inode (mem_of_find?_eq_some hopen)
  have hown' : Owning v.withMemory.fs v.live := hown.of_openInodes hown.opened
  have hslot : ∀ k < 1, (slotAt v.fs.content 4 k).inUse = false := by
    intro k hk
    obtain rfl : k = 0 := by omega
    exact hfree
  refine ⟨1, ⟨hown', rfl, hcounted, by decide, ⟨inode, hopen, hdeny⟩,
    ⟨hown'.stored hlive, hlength, fun k hk huse => ?_⟩, fun i hi j hj _ _ => by omega⟩, hslot⟩
  rw [show (slotAt v.withMemory.fs.content 4 k).inUse = false from hslot k hk] at huse
  exact Bool.noConfusion huse

/-- A directory with one slot, made on the formatted disk, that passes a test. -/
theorem exists_oneSlot (P : Volume → Prop) [DecidablePred P]
    (h : Returns (format fun _ => false) Volume.blankDisk fun _ fs =>
      ∃ v ∈ execute (fun v op => if ¬ v.Contained op then none else v.next op)
        ⟨{ fs with heap := fun _ => true }, [rootDirSector, freeMapSector]⟩
        [.create 24, .openInode 4], HasOneSlot v ∧ decide (P v.withMemory)) :
    ∃ v, EmptyDirectory ⟨4, 0⟩ v ∧ P v := by
  obtain ⟨init, v, hinit, hrun, hslot, hv⟩ :=
    Volume.exists_run_of_format Volume.guarded_contained _ h fun _ _ _ _ hv => hv
  exact ⟨_, emptyDirectory_of_hasOneSlot (Volume.run_owning hinit hrun) hslot, of_decide_eq_true hv⟩

def nameA : CString := ⟨[65], by decide⟩

def nameB : CString := ⟨[66], by decide⟩

/-- `dir_lookup` returns false. -/
def notFound (fs : FileSys) (dir : Dir) (name : CString) : Bool :=
  match found fs dir name with
  | .ok none => true
  | _ => false

theorem found_of_notFound {fs : FileSys} (h : notFound fs dir name = true) :
    found fs dir name = .ok none := by
  unfold notFound at h
  split at h
  next hfound => exact hfound
  next => simp at h

/-- The directory is entered in itself under a name, and the name is removed again. -/
theorem directory_isMap_oneSlot : ∃ init v, EmptyDirectory ⟨4, 0⟩ init ∧
    Run (Guarded (Usable ⟨4, 0⟩) fun v op w => ∃ r, DirStep ⟨4, 0⟩ v op r w) init
      [.add nameA 4 true] v ∧
    ∃ r w, DirStep ⟨4, 0⟩ v (.remove nameA) r w ∧ MapLaw ⟨4, 0⟩ v (.remove nameA) r w := by
  obtain ⟨init, hinit, habsent, hfree⟩ := exists_oneSlot (fun v => notFound v.fs ⟨4, 0⟩ nameA ∧
    (freeSlot v.fs.content 4 (slotCount v.fs.content 4)).isSome) (by decide +kernel)
  obtain ⟨cnt, hopen, hslots⟩ := hinit
  have husable : Usable ⟨4, 0⟩ init (.add nameA 4 true) := ⟨by decide, .inr hfree⟩
  obtain ⟨r, v, hstep, ⟨hresult, hadded, -⟩, hopen'⟩ := hopen.call husable
  have hfound := (hadded (hresult.mpr (found_of_notFound habsent))).1
  have hrun : Run (Guarded (Usable ⟨4, 0⟩) fun v op w => ∃ r, DirStep ⟨4, 0⟩ v op r w) init
      [.add nameA 4 true] v := Run.nil.snoc ⟨husable, r, hstep⟩
  refine ⟨init, v, ⟨cnt, hopen, hslots⟩, hrun, directory_isMap ⟨cnt, hopen, hslots⟩ hrun _ ?_⟩
  refine ⟨by decide, fun z isDir hz => ?_⟩
  rw [hfound] at hz
  cases hz
  exact ⟨hopen'.live, hopen'.not_map, fun hnone => by simpa [hnone] using hopen'.isSome⟩

/-- A second name is added to a directory with one slot.  The call returns true, but the name
is not found. -/
theorem dirAdd_loses_entry : ∃ init v w, EmptyDirectory ⟨4, 0⟩ init ∧
    Run (fun v op w => ∃ r, DirStep ⟨4, 0⟩ v op r w) init [.add nameA 4 true] v ∧
    DirStep ⟨4, 0⟩ v (.add nameB 4 true) true w ∧ found w.fs ⟨4, 0⟩ nameB = .ok none ∧
    ¬ MapLaw ⟨4, 0⟩ v (.add nameB 4 true) true w := by
  obtain ⟨init, hinit, v, hv, hreturns⟩ := exists_oneSlot (fun v =>
    ∃ w ∈ nextCall ⟨4, 0⟩ v (.add nameA 4 true), Returns (dirAdd ⟨4, 0⟩ nameB 4 true) w.fs
      fun r fs => r = true ∧ notFound fs ⟨4, 0⟩ nameB) (by decide +kernel)
  obtain ⟨r, fs, hrun, rfl, hnotFound⟩ := returns_iff.mp hreturns
  have hfound := found_of_notFound hnotFound
  refine ⟨init, v, ⟨fs, v.live⟩, hinit, Run.nil.snoc (dirStep_of_nextCall hv), ⟨hrun, rfl⟩,
    hfound, ?_⟩
  rintro ⟨-, hadded, -⟩
  have := (hadded rfl).1
  rw [hfound] at this
  simp at this

end CS162
