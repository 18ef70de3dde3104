import CS162.Library.Tape
import CS162.Lib.Ustar
import CS162.Filesys.Listing
import CS162.Filesys.DirectoryLaws

/-!
# Archives on the scratch device

A model of `fsutil_append`, which copies a file to the scratch device in ustar format, and
of the way `fsutil_extract` reads such an archive.

The end of an archive is marked by two sectors of zeros.  `fsutil_append` writes its zeros
twice to the same sector, the second time from one byte behind the start of its buffer, so
the second sector of the marker is whatever the device held there.  The byte behind the
buffer is a parameter of the model.

## Strategy

* **Writing.**  A call writes the header, the blocks of the file and one sector of marker
  from `sector` on (`fsutilAppend_spec`).  The next call starts at that marker, so a whole
  sequence leaves one list of sectors behind (`appendAll_spec`).
* **Reading.**  The loop of `fsutil_extract` takes these sectors apart into the files they
  were made from and arrives at the marker (`extractLoop_blocks`).
-/

namespace CS162

open Library FileSys Ustar List

/-- What `fsutil_append` works on. -/
structure Fsutil where
  fs : FileSys
  /-- `block_get_role (BLOCK_SCRATCH)`. -/
  scratch : Option Device
  /-- The static variable `sector`. -/
  sector : BlockSector

/-- Actions on files that use the scratch device. -/
abbrev Util := StateT Fsutil (Except Fault)

namespace Fsutil

/-! ## Appending -/

/-- A call of the file system. -/
def onFs {α : Type} (m : Fs α) : Util α := fun s =>
  (m.run s.fs).map fun r => (r.1, { s with fs := r.2 })

/-- `block_size (dst)`. -/
def scratchSize : Util ℕ := do
  match (← get).scratch with
  | none => throw (.undefined "dst")
  | some device => return device.size

/-- `block_write (dst, sector, buffer)`. -/
def writeScratch (sector : BlockSector) (buffer : Sector) : Util Unit := do
  let s ← get
  match s.scratch with
  | none => throw (.undefined "dst")
  | some device =>
    let device ← device.blockWrite sector buffer
    set { s with scratch := some device }

/-- `block_write (dst, sector++, buffer)`. -/
def appendSector (buffer : Sector) : Util Unit := do
  writeScratch (← get).sector buffer
  modify fun s => { s with sector := s.sector + 1 }

/-- The buffer after a read of these bytes, its end filled with zeros. -/
def padded (bytes : List UInt8) : Sector := fun i => bytes.getD i 0

/-- `buffer + 1`, where the buffer is all zeros and `stray` is the byte behind it. -/
def shiftedZeros (stray : UInt8) : Sector := fun i => if i.val = 511 then stray else 0

/-- The loop of `fsutil_append`; `pos` is the position of the file. -/
def copyLoop (src : BlockSector) : ℕ → ℤ → ℤ → Util Unit
  | 0, _, _ => throw .outOfFuel
  | fuel + 1, size, pos => do
      if size ≤ 0 then return ()
      let chunkSize := if 512 < size then 512 else size
      if (← scratchSize) ≤ (← get).sector.toNat then
        throw (.panic "%s: out of space on scratch device")
      let bytes ← onFs (do inodeReadAt (← theInode src) chunkSize pos)
      if (bytes.length : ℤ) ≠ chunkSize then throw (.panic "%s: read failed with %d bytes unread")
      appendSector (padded bytes)
      copyLoop src fuel (size - chunkSize) (pos + bytes.length)

/-- The inode of a `struct file *`, or of a `struct dir *` that is taken for one. -/
def inodeOf : OpenFile → BlockSector
  | .file inode => inode
  | .dir dir => dir.inode

/-- `file_close` of a file that does not deny writes.  A `struct dir` ends before the field
`deny_write` of a `struct file`. -/
def fileClose : OpenFile → Fs Unit
  | .file inode => inodeClose inode
  | .dir _ => throw (.undefined "file->deny_write")

/-- `fsutil_append` once the source file is open. -/
def appendOpened (stray : UInt8) (fileName : CString) (src : OpenFile) : Util Unit := do
  let size ← onFs (do inodeLength (← theInode (inodeOf src)))
  if (← get).scratch.isNone then throw (.panic "couldn't open scratch device")
  match ← ustarMakeHeader fileName .regular size with
  | .tooLong _ => throw (.panic "%s: name too long for ustar format")
  | .made header =>
    appendSector header
    copyLoop (inodeOf src) (size.toNat + 1) size 0
    let sector := (← get).sector
    writeScratch sector Sector.zeros
    writeScratch sector (shiftedZeros stray)
    onFs (fileClose src)

/-- `fsutil_append`; `stray` is the byte behind the buffer that `malloc` returns. -/
def fsutilAppend (stray : UInt8) (fileName : CString) : Util Unit := do
  if !(← onFs malloc) then throw (.panic "couldn't allocate buffer")
  let dir ← onFs dirOpenRoot
  let src ← onFs (filesysOpen dir fileName)
  onFs (dirClose dir)
  match src with
  | none => throw (.panic "%s: open failed")
  | some src => appendOpened stray fileName src

/-- A call of `fsutil_append`. -/
structure AppendCall where
  stray : UInt8
  fileName : CString

/-- Calls of `fsutil_append`, one after another. -/
def appendAll : List AppendCall → Util Unit
  | [] => return ()
  | call :: calls => do
      fsutilAppend call.stray call.fileName
      appendAll calls

/-! ## Extracting -/

/-- The loop of `fsutil_extract` that copies a file: its bytes and the next sector. -/
def readData (src : Device) : ℕ → ℤ → BlockSector → Except Fault (List UInt8 × BlockSector)
  | 0, _, _ => throw .outOfFuel
  | fuel + 1, size, sector => do
      if size ≤ 0 then return ([], sector)
      let chunkSize := if 512 < size then 512 else size
      let data ← src.blockRead sector
      let (rest, next) ← readData src fuel (size - chunkSize) (sector + 1)
      return ((List.ofFn data).take chunkSize.toNat ++ rest, next)

/-- The header in a sector, parsed. -/
def readHeader (src : Device) (sector : BlockSector) : Except Fault Entry := do
  match ustarParseHeader (← src.blockRead sector) with
  | .error _ => throw (.panic "bad ustar header in sector %u (%s)")
  | .ok e => return e

/-- The loop of `fsutil_extract`: the files it would put into the file system, and the
sector behind the last one it has read. -/
def extractLoop (src : Device) :
    ℕ → BlockSector → Except Fault (List (CString × List UInt8) × BlockSector)
  | 0, _ => throw .outOfFuel
  | fuel + 1, sector => do
      match ← readHeader src sector with
      | ⟨_, .eof, _⟩ => return ([], sector + 1)
      | ⟨_, .directory, _⟩ => extractLoop src fuel (sector + 1)
      | ⟨none, .regular, _⟩ => throw (.undefined "file_name")
      | ⟨some fileName, .regular, size⟩ =>
        let (data, sector) ← readData src (size.toNat + 1) size (sector + 1)
        let (files, next) ← extractLoop src fuel sector
        return ((fileName, data) :: files, next)

/-- The device holds an archive of exactly these files, with a complete end marker.  The
loop reads a new sector in every round, so it makes at most `size + 1` rounds. -/
def Archive (d : Device) (files : List (CString × List UInt8)) : Prop :=
  ∃ next, extractLoop d (d.size + 1) 0 = .ok (files, next + 1) ∧
    d.blockRead next = .ok Sector.zeros ∧ d.blockRead (next + 1) = .ok Sector.zeros

/-! ## The sectors of a file -/

/-- Block `k` of a file, padded with zeros. -/
def dataBlock (data : List UInt8) (k : ℕ) : Sector := fun i => data.getD (512 * k + i) 0

def blocksOf (data : List UInt8) : ℕ := (data.length + 511) / 512

/-- The sectors that stand for a file in an archive. -/
def fileBlocks (file : CString × List UInt8) : List Sector :=
  headerOf file.1 .regular file.2.length :: (List.range (blocksOf file.2)).map (dataBlock file.2)

theorem length_fileBlocks (file : CString × List UInt8) :
    (fileBlocks file).length = blocksOf file.2 + 1 := by
  rw [fileBlocks, length_cons, length_map, length_range]

theorem padded_fileBytes {c : BlockSector → Sector} {x : BlockSector} {len k chunk : ℕ}
    (hchunk : chunk = min 512 (len - 512 * k)) :
    padded (fileBytes c x (512 * k) chunk) = dataBlock (fileBytes c x 0 len) k := by
  funext i
  have hi : i.val < 512 := i.isLt
  unfold padded dataBlock fileBytes
  rw [getD_eq_getElem?_getD, getD_eq_getElem?_getD, getElem?_map, getElem?_map]
  by_cases hin : i.val < chunk
  · rw [getElem?_range hin, getElem?_range (by omega), Option.map_some, Option.map_some, zero_add]
  · rw [getElem?_eq_none (by rw [length_range]; omega),
      getElem?_eq_none (by rw [length_range]; omega), Option.map_none, Option.map_none]

/-! ## What a call of `fsutil_append` does -/

variable {s : Fsutil} {d : Device} {E : Fault → Prop} {p : ℕ} {L : List Sector} {x : BlockSector}

theorem onFs_spec {α : Type} {m : Fs α} {Q : α → Fsutil → Prop}
    (h : Spec E m s.fs fun a t => Q a { s with fs := t }) : Spec E (onFs m) s Q := by
  have hrun : (onFs m).run s = (m.run s.fs).map fun r => (r.1, { s with fs := r.2 }) := rfl
  unfold Spec at h ⊢
  rw [hrun]
  cases hm : m.run s.fs with
  | error e | ok r =>
    rwa [hm] at h

variable {sector : BlockSector}

theorem writeScratch_spec (hscratch : s.scratch = some d)
    (hlt : sector.toNat < d.size) (buffer : Sector) :
    Spec E (writeScratch sector buffer) s fun _ t => t = { s with
      scratch := some { d with content := Function.update d.content sector buffer } } := by
  apply Spec.get_bind
  rw [hscratch]
  dsimp only
  rw [Device.blockWrite_eq hlt]
  rfl

/-- The sectors `L` have been written from sector `p` on. -/
def writing (s : Fsutil) (d : Device) (p : ℕ) (L : List Sector) : Fsutil :=
  { s with
    scratch := some { d with content := tape d.content p L }
    sector := UInt32.ofNat (p + L.length) }

theorem toNat_position {n : ℕ} (hlt : n < d.size) (hd : d.size ≤ 4294967295) :
    (UInt32.ofNat n).toNat = n := by
  rw [UInt32.toNat_ofNat', Nat.mod_eq_of_lt (by omega)]

theorem appendSector_spec (hlt : p + L.length < d.size) (hd : d.size ≤ 4294967295) (b : Sector) :
    Spec E (appendSector b) (s.writing d p L) fun _ t => t = s.writing d p (L ++ [b]) := by
  have hnat := toNat_position hlt hd
  apply Spec.get_bind
  refine .seq (writeScratch_spec (s := s.writing d p L) rfl
    (show (UInt32.ofNat (p + L.length)).toNat < d.size by rwa [hnat]) b) ?_
  rintro _ t rfl
  apply Spec.modify
  unfold writing
  rw [update_tape _ _ _ (by omega), length_append, length_singleton, ← add_assoc,
    UInt32.ofNat_add (p + L.length) 1]
  rfl

theorem copyLoop_spec {len : ℕ} (hstored : Stored s.fs x) (hmem : s.fs.MemAvailable)
    (hopen : (findInode x s.fs.openInodes).isSome)
    (hlen : (inodeAt s.fs.content x).length = len) (hd : d.size ≤ 4294967295) (n : ℕ) :
    ∀ k fuel (L : List Sector) (pos : ℤ), k + n = (len + 511) / 512 → n < fuel →
      (0 < n → pos = ((512 * k : ℕ) : ℤ)) → p + L.length + n ≤ d.size →
      Spec E (copyLoop x fuel ((len - 512 * k : ℕ) : ℤ) pos) (s.writing d p L) fun _ t =>
        t = s.writing d p
          (L ++ (range' k n).map (dataBlock (fileBytes s.fs.content x 0 len))) := by
  induction n with
  | zero =>
    intro k fuel L pos hk hfuel _ _
    obtain _ | fuel := fuel
    · omega
    unfold copyLoop
    rw [if_pos (by omega)]
    exact .pure (by rw [range'_zero, map_nil, append_nil])
  | succ n ih =>
    intro k fuel L pos hk hfuel hpos hroom
    obtain _ | fuel := fuel
    · omega
    obtain rfl := hpos (by omega)
    have hnat := toNat_position (show p + L.length < d.size by omega) hd
    obtain ⟨chunk, hchunk⟩ : ∃ m, m = min 512 (len - 512 * k) := ⟨_, rfl⟩
    have hchunkSize : (if 512 < ((len - 512 * k : ℕ) : ℤ) then 512
        else ((len - 512 * k : ℕ) : ℤ)) = (chunk : ℤ) := by
      split <;> omega
    have hfit : 512 * k + chunk ≤ len := by omega
    have hnext : ((len - 512 * (k + 1) : ℕ) : ℤ) = ((len - 512 * k : ℕ) : ℤ) - chunk := by omega
    have hpos' : 0 < n → ((512 * k : ℕ) : ℤ) + chunk = ((512 * (k + 1) : ℕ) : ℤ) := by omega
    unfold copyLoop
    rw [if_neg (by omega), hchunkSize]
    apply Spec.bind
    apply Spec.get_bind
    apply Spec.pure
    apply Spec.get_bind
    refine .ite (fun hfull => ?_) fun hspace => ?_
    · exact absurd (show d.size ≤ (UInt32.ofNat (p + L.length)).toNat from hfull) (by omega)
    apply Spec.bind
    apply onFs_spec
    refine .seq (theInode_spec hopen) ?_
    rintro inode t ⟨ht, rfl, -⟩
    rw [ht]
    refine (@inodeReadAt_spec _ (512 * k) chunk E inode hstored fun hlt => ?_).post ?_
    · rw [hlen] at hlt
      exact absurd (lt_of_lt_of_le hlt (add_le_add_right (min_le_right _ _) _))
        (not_lt.mpr (by exact_mod_cast hfit))
    rintro bytes t ⟨heap, m, rfl, hbytes, hall⟩
    obtain ⟨rfl, rfl⟩ := hall (.inl hmem)
    obtain rfl : bytes = fileBytes s.fs.content inode.sector (512 * k) chunk := by
      rw [hbytes, hlen, nil_append, Int.toNat_natCast, min_eq_left (Nat.le_sub_of_add_le' hfit)]
    rw [length_fileBytes, if_neg (not_not.mpr rfl), padded_fileBytes hchunk]
    refine .seq (appendSector_spec (by omega) hd _) ?_
    rintro _ t rfl
    have hrest := ih (k + 1) fuel (L ++ [dataBlock (fileBytes s.fs.content inode.sector 0 len) k])
      (((512 * k : ℕ) : ℤ) + (chunk : ℤ)) (by omega) (by omega) hpos'
      (by rw [length_append, length_singleton]; omega)
    rwa [hnext, append_assoc, singleton_append, ← map_cons] at hrest

/-- The file system between two calls: memory is available and the root directory, with
`cnt` slots, is in order. -/
structure Ready (fs : FileSys) (cnt : ℕ) : Prop where
  mem : fs.MemAvailable
  counted : Counted fs.openInodes
  root : Directory fs rootDirSector cnt

/-- The root directory has a regular file of this name. -/
def Existing (fs : FileSys) (cnt : ℕ) (name : CString) : Prop :=
  ∃ k, findSlot fs.content rootDirSector cnt name = some k ∧
    (slotAt fs.content rootDirSector k).isDir = false ∧
    Stored fs (slotAt fs.content rootDirSector k).inodeSector

/-- The contents of a file in the root directory. -/
def fileData (fs : FileSys) (cnt : ℕ) (name : CString) : List UInt8 :=
  match findSlot fs.content rootDirSector cnt name with
  | none => []
  | some k =>
    let inode := (slotAt fs.content rootDirSector k).inodeSector
    fileBytes fs.content inode 0 (inodeAt fs.content inode).length.toNat

section Append

variable {fs : FileSys} {cnt k : ℕ} {name : CString}

theorem filesysOpen_spec (h : Ready fs cnt) (hopen : (findInode rootDirSector fs.openInodes).isSome)
    (hfound : findSlot fs.content rootDirSector cnt name = some k)
    (hfile : (slotAt fs.content rootDirSector k).isDir = false) :
    Spec E (filesysOpen (some ⟨rootDirSector, 0⟩) name) fs fun r t =>
      t = { fs with
        openInodes := opened fs.openInodes (slotAt fs.content rootDirSector k).inodeSector } ∧
        r = some (.file (slotAt fs.content rootDirSector k).inodeSector) := by
  refine .seq (h.root.dirLookup_spec h.mem hopen 0 name) ?_
  rw [hfound]
  rintro r t ⟨rfl, inode, rfl, hsector⟩
  rw [hfile]
  apply Spec.bind
  apply Spec.bind
  apply malloc_of_memAvailable
  · exact h.mem.congr rfl
  · exact .pure ⟨rfl, by rw [← hsector]; rfl⟩

theorem blocksOf_fileBytes (c : BlockSector → Sector) (x : BlockSector) (len : ℕ) :
    blocksOf (fileBytes c x 0 len) = (len + 511) / 512 := by
  rw [blocksOf, length_fileBytes]

/-- The header, the file and one sector of the end marker are written. -/
theorem appendOpened_spec {l : List Inode} {len : ℕ} (hmem : s.fs.MemAvailable) (hl : Counted l)
    (hopen : s.fs.openInodes = opened l x) (hstored : Stored s.fs x)
    (hlen : (inodeAt s.fs.content x).length = len)
    (hname : (stripAntisocialPrefixes name).bytes.length ≤ 99) (hd : d.size ≤ 4294967295)
    (hroom : p + (fileBlocks (name, fileBytes s.fs.content x 0 len)).length < d.size)
    (stray : UInt8) :
    Spec E (appendOpened stray name (.file x)) (s.writing d p []) fun _ t =>
      t = { s with
        fs := { s.fs with openInodes := l },
        scratch := some { d with
          content := tape d.content p (fileBlocks (name, fileBytes s.fs.content x 0 len) ++
            [shiftedZeros stray]) },
        sector := UInt32.ofNat
          (p + (fileBlocks (name, fileBytes s.fs.content x 0 len)).length) } := by
  have hisSome : (findInode x s.fs.openInodes).isSome := by
    rw [hopen]
    exact isSome_opened (.inr rfl)
  have hlength : (fileBlocks (name, fileBytes s.fs.content x 0 len)).length =
      (len + 511) / 512 + 1 := by
    rw [length_fileBlocks, blocksOf_fileBytes]
  apply Spec.bind
  apply onFs_spec
  refine .seq (theInode_spec hisSome) ?_
  rintro inode t ⟨ht, rfl, -⟩
  rw [ht]
  apply inodeLength_spec hstored.mapped.has_inode
  rw [hlen]
  apply Spec.get_bind
  rw [if_neg (by simp [writing]), ustarMakeHeader_eq name (.inl rfl), if_neg (by omega)]
  apply Spec.bind
  apply Spec.pure
  refine .seq (appendSector_spec (by rw [length_nil]; omega) hd _) ?_
  rintro _ t rfl
  apply Spec.bind
  have hcopy := copyLoop_spec (E := E) (p := p) hstored hmem hisSome hlen hd ((len + 511) / 512) 0
    (len + 1) [headerOf name .regular len] 0 (by omega) (by omega) (fun _ => by omega)
    (by rw [length_singleton]; omega)
  rw [← range_eq_range', Nat.sub_zero] at hcopy
  have hblocks : [headerOf name .regular len] ++ (range ((len + 511) / 512)).map
      (dataBlock (fileBytes s.fs.content inode.sector 0 len)) =
      fileBlocks (name, fileBytes s.fs.content inode.sector 0 len) := by
    rw [fileBlocks, blocksOf_fileBytes, length_fileBytes, singleton_append]
  rw [hblocks] at hcopy
  refine hcopy.post ?_
  rintro _ t rfl
  generalize fileBlocks (name, fileBytes s.fs.content inode.sector 0 len) = blocks at hroom hlength
  -- the end marker is written twice to the same sector
  have hnat := toNat_position hroom hd
  apply Spec.get_bind
  refine .seq (writeScratch_spec (s := s.writing d p blocks) rfl
    (show (UInt32.ofNat (p + blocks.length)).toNat < d.size by rwa [hnat]) _) ?_
  rintro _ t rfl
  refine .seq (writeScratch_spec rfl ?_ _) ?_
  · show (UInt32.ofNat (p + blocks.length)).toNat < d.size
    rwa [hnat]
  rintro _ t rfl
  apply onFs_spec
  refine (inodeClose_opened hl hopen).post ?_
  rintro _ t rfl
  unfold writing
  dsimp only
  rw [Function.update_idem, update_tape _ _ _ (by omega)]

/-- **A call of `fsutil_append`** writes the file and one sector of the end marker, and leaves
the file system as it was. -/
theorem fsutilAppend_spec (h : Ready s.fs cnt) (hfile : Existing s.fs cnt name)
    (hname : (stripAntisocialPrefixes name).bytes.length ≤ 99) (hscratch : s.scratch = some d)
    (hsector : s.sector = UInt32.ofNat p) (hd : d.size ≤ 4294967295)
    (hroom : p + (fileBlocks (name, fileData s.fs cnt name)).length < d.size) (stray : UInt8) :
    Spec E (fsutilAppend stray name) s fun _ t => t = { s with
      scratch := some { d with
        content := tape d.content p (fileBlocks (name, fileData s.fs cnt name) ++
          [shiftedZeros stray]) },
      sector := UInt32.ofNat (p + (fileBlocks (name, fileData s.fs cnt name)).length) } := by
  obtain ⟨k, hfound, hregular, hstored⟩ := hfile
  generalize hx : (slotAt s.fs.content rootDirSector k).inodeSector = x at hstored
  obtain ⟨len, hlen⟩ := Int.eq_ofNat_of_zero_le hstored.length_nonneg
  have hdata : fileData s.fs cnt name = fileBytes s.fs.content x 0 len := by
    unfold fileData
    rw [hfound]
    dsimp only
    rw [hx, hlen, Int.toNat_natCast]
  rw [hdata] at hroom ⊢
  apply Spec.bind
  apply onFs_spec
  apply malloc_of_memAvailable h.mem
  apply Spec.bind
  apply onFs_spec
  refine (dirOpenRoot_spec h.mem).post ?_
  rintro r t ⟨rfl, rfl⟩
  apply Spec.bind
  apply onFs_spec
  have hready : Ready { s.fs with openInodes := opened s.fs.openInodes rootDirSector } cnt :=
    ⟨h.mem.congr rfl, h.counted.opened _, h.root.of_openInodes _⟩
  refine (filesysOpen_spec hready (isSome_opened (.inr rfl)) hfound hregular).post ?_
  rintro r t ⟨rfl, rfl⟩
  rw [hx]
  apply Spec.bind
  apply onFs_spec
  refine (inodeClose_opened_opened (x := rootDirSector) (y := x) h.counted rfl).post ?_
  rintro _ t rfl
  -- nothing has been written yet
  have hstart : ({ s with fs := { s.fs with openInodes := opened s.fs.openInodes x } } : Fsutil) =
      Fsutil.writing { s with fs := { s.fs with openInodes := opened s.fs.openInodes x } }
        d p [] := by
    unfold writing
    rw [tape_nil, length_nil, add_zero, ← hsector, ← hscratch]
  refine Eq.mp (congrArg (fun t => Spec E (appendOpened stray name (.file x)) t _) hstart.symm) ?_
  exact appendOpened_spec (s := { s with fs := { s.fs with
    openInodes := opened s.fs.openInodes x } }) (h.mem.congr rfl) h.counted rfl
    (hstored.of_sameMap rfl ⟨rfl, fun _ _ _ _ => rfl⟩) hlen hname hd hroom stray

/-- The files that these calls copy. -/
def filesOf (fs : FileSys) (cnt : ℕ) (calls : List AppendCall) : List (CString × List UInt8) :=
  calls.map fun call => (call.fileName, fileData fs cnt call.fileName)

/-- What these calls leave behind the files: the last sector that was written. -/
def marker (calls : List AppendCall) : List Sector :=
  (calls.getLast?.map fun call => shiftedZeros call.stray).toList

theorem marker_cons (call : AppendCall) {calls : List AppendCall} (h : calls ≠ []) :
    marker (call :: calls) = marker calls := by
  unfold marker
  rw [getLast?_cons_of_ne_nil h]

theorem marker_ne_nil {calls : List AppendCall} (h : calls ≠ []) : marker calls ≠ [] := by
  unfold marker
  rw [getLast?_eq_some_getLast h]
  exact cons_ne_nil _ _

/-- A sequence of calls writes one list of sectors.  Each call starts at the marker of the
one before it. -/
theorem appendAll_spec (calls : List AppendCall) : ∀ {s : Fsutil} {d : Device} {p : ℕ},
    Ready s.fs cnt → (∀ call ∈ calls, Existing s.fs cnt call.fileName ∧
      (stripAntisocialPrefixes call.fileName).bytes.length ≤ 99) →
    s.scratch = some d → s.sector = UInt32.ofNat p → d.size ≤ 4294967295 →
    p + ((filesOf s.fs cnt calls).flatMap fileBlocks).length < d.size →
    Spec E (appendAll calls) s fun _ t => t.scratch = some { d with
      content :=
        tape d.content p ((filesOf s.fs cnt calls).flatMap fileBlocks ++ marker calls) } := by
  induction calls with
  | nil =>
    intro s d p _ _ hscratch _ _ _
    refine .pure ?_
    rw [hscratch]
    exact congrArg some (by rw [show marker [] = [] from rfl]; simp [filesOf])
  | cons call calls ih =>
    intro s d p hready hcalls hscratch hsector hd hroom
    obtain ⟨hfile, hname⟩ := hcalls call (by simp)
    have hfiles : (filesOf s.fs cnt (call :: calls)).flatMap fileBlocks =
        fileBlocks (call.fileName, fileData s.fs cnt call.fileName) ++
          (filesOf s.fs cnt calls).flatMap fileBlocks := rfl
    rw [hfiles] at hroom ⊢
    generalize hblocks : fileBlocks (call.fileName, fileData s.fs cnt call.fileName) = blocks
      at hroom
    rw [length_append] at hroom
    refine .seq (fsutilAppend_spec hready hfile hname hscratch hsector hd
      (by rw [hblocks]; omega) call.stray) ?_
    rintro _ t rfl
    rw [hblocks]
    refine .post (ih hready (fun c hc => hcalls c (by simp [hc])) rfl rfl hd ?_) ?_
    · show p + blocks.length + ((filesOf s.fs cnt calls).flatMap fileBlocks).length < d.size
      omega
    rintro _ t ht
    rw [ht]
    congr 2
    by_cases hnil : calls = []
    · subst hnil
      show tape (tape d.content p (blocks ++ _)) _ [] = tape d.content p (blocks ++ [] ++ _)
      rw [tape_nil, append_nil]
      rfl
    · dsimp only
      rw [tape_tape _ _ _ _ (by simp [marker_ne_nil hnil]), marker_cons call hnil, append_assoc]

end Append

/-! ## Reading an archive -/

/-- The sectors of the device from `p` on. -/
def Holds (d : Device) (p : ℕ) (L : List Sector) : Prop :=
  ∀ k b, L[k]? = some b → d.blockRead (UInt32.ofNat (p + k)) = .ok b

theorem Holds.append {L' : List Sector} (h : Holds d p (L ++ L')) :
    Holds d p L ∧ Holds d (p + L.length) L' := by
  refine ⟨fun k b hk => h k b ?_, fun k b hk => ?_⟩
  · obtain ⟨hlt, -⟩ := List.getElem?_eq_some_iff.mp hk
    rw [getElem?_append_left hlt, hk]
  · rw [add_assoc]
    refine h _ b ?_
    rw [getElem?_append_right (by omega), Nat.add_sub_cancel_left, hk]

theorem Holds.cons {b : Sector} (h : Holds d p (b :: L)) :
    d.blockRead (UInt32.ofNat p) = .ok b ∧ Holds d (p + 1) L :=
  ⟨h 0 b rfl, (h.append (L := [b])).2⟩

theorem take_dataBlock (data : List UInt8) (k : ℕ) {chunk : ℕ}
    (hchunk : chunk = min 512 (data.length - 512 * k)) :
    (ofFn (dataBlock data k)).take chunk = (data.drop (512 * k)).take chunk := by
  refine ext_getElem ?_ fun i hi hi' => ?_
  · rw [length_take, length_take, length_ofFn, length_drop]
    show min chunk 512 = _
    omega
  · rw [length_take] at hi'
    rw [getElem_take, getElem_take, List.getElem_ofFn, getElem_drop]
    show data.getD (512 * k + i) 0 = _
    rw [getD_eq_getElem?_getD, getElem?_eq_getElem (by omega), Option.getD_some]

theorem readData_spec {data : List UInt8}
    (h : Holds d p ((List.range (blocksOf data)).map (dataBlock data))) (n : ℕ) :
    ∀ k fuel, k + n = blocksOf data → n < fuel →
      readData d fuel ((data.length - 512 * k : ℕ) : ℤ) (UInt32.ofNat (p + k)) =
        .ok (data.drop (512 * k), UInt32.ofNat (p + blocksOf data)) := by
  induction n with
  | zero =>
    intro k fuel hk hfuel
    obtain _ | fuel := fuel
    · omega
    have hend : data.length ≤ 512 * k := by
      unfold blocksOf at hk
      omega
    rw [readData, if_pos (by omega), drop_eq_nil_of_le hend, ← hk]
    rfl
  | succ n ih =>
    intro k fuel hk hfuel
    obtain _ | fuel := fuel
    · omega
    have hlt : 512 * k < data.length := by
      unfold blocksOf at hk
      omega
    obtain ⟨chunk, hchunk⟩ : ∃ m, m = min 512 (data.length - 512 * k) := ⟨_, rfl⟩
    have hchunkSize : (if 512 < ((data.length - 512 * k : ℕ) : ℤ) then 512
        else ((data.length - 512 * k : ℕ) : ℤ)) = (chunk : ℤ) := by
      split <;> omega
    have hread : d.blockRead (UInt32.ofNat (p + k)) = .ok (dataBlock data k) :=
      h k _ (by rw [getElem?_map, getElem?_range (by omega)]; rfl)
    have hrest := ih (k + 1) fuel (by omega) (by omega)
    rw [show ((data.length - 512 * (k + 1) : ℕ) : ℤ) = ((data.length - 512 * k : ℕ) : ℤ) - chunk by
      omega, ← add_assoc, UInt32.ofNat_add (p + k) 1] at hrest
    have hjoin : (data.drop (512 * k)).take chunk ++ data.drop (512 * (k + 1)) =
        data.drop (512 * k) := by
      by_cases hfull : chunk = 512
      · rw [hfull, Nat.mul_succ, ← drop_drop, take_append_drop]
      · have hnil : data.drop (512 * (k + 1)) = [] := drop_eq_nil_of_le (by omega)
        rw [take_of_length_le (by rw [length_drop]; omega), hnil, append_nil]
    rw [readData, if_neg (by omega), hchunkSize, hread]
    dsimp only [ok_bind]
    rw [show UInt32.ofNat 1 = 1 from rfl] at hrest
    rw [hrest, Int.toNat_natCast]
    dsimp only [ok_bind]
    rw [take_dataBlock data k hchunk, hjoin]
    rfl

/-- The header of the file can be parsed. -/
def Parsable (file : CString × List UInt8) : Prop :=
  ustarParseHeader (headerOf file.1 .regular file.2.length) =
    .ok ⟨some (stripAntisocialPrefixes file.1), .regular, file.2.length⟩

theorem extractLoop_regular {next : BlockSector} {header : Sector} {name : CString}
    {data : List UInt8} {size : ℤ} (hread : d.blockRead sector = .ok header)
    (hparse : ustarParseHeader header = .ok ⟨some name, .regular, size⟩)
    (hdata : readData d (size.toNat + 1) size (sector + 1) = .ok (data, next)) (fuel : ℕ) :
    extractLoop d (fuel + 1) sector =
      (extractLoop d fuel next).map fun r => ((name, data) :: r.1, r.2) := by
  have hheader : readHeader d sector = .ok ⟨some name, .regular, size⟩ := by
    rw [readHeader, hread, ok_bind, hparse]
    rfl
  rw [extractLoop, hheader, ok_bind]
  dsimp only
  rw [hdata, ok_bind]
  cases extractLoop d fuel next <;> rfl

/-- An archive is taken apart into the files it was made from. -/
theorem extractLoop_blocks (files : List (CString × List UInt8)) : ∀ {p : ℕ} (fuel : ℕ),
    Holds d p (files.flatMap fileBlocks) →
    (∀ file ∈ files, Parsable file) →
    extractLoop d (files.length + fuel) (UInt32.ofNat p) =
      (extractLoop d fuel (UInt32.ofNat (p + (files.flatMap fileBlocks).length))).map fun r =>
        (files.map (fun file => (stripAntisocialPrefixes file.1, file.2)) ++ r.1, r.2) := by
  induction files with
  | nil =>
    intro p fuel _ _
    rw [length_nil, zero_add, flatMap_nil, length_nil]
    cases extractLoop d fuel (UInt32.ofNat p) <;> rfl
  | cons file files ih =>
    intro p fuel hholds hfiles
    rw [flatMap_cons] at hholds
    obtain ⟨hfile, hrest⟩ := hholds.append
    have hparse : Parsable file := hfiles file (by simp)
    unfold Parsable at hparse
    rw [fileBlocks] at hfile
    generalize headerOf file.1 .regular file.2.length = header at hfile hparse
    obtain ⟨hheader, hblocks⟩ := hfile.cons
    have hdata := readData_spec hblocks (blocksOf file.2) 0 (file.2.length + 1) (zero_add _)
      (by unfold blocksOf; omega)
    rw [Nat.mul_zero, Nat.sub_zero, drop_zero, add_zero, UInt32.ofNat_add p 1,
      show UInt32.ofNat 1 = 1 from rfl, add_assoc, add_comm 1,
      ← length_fileBlocks] at hdata
    rw [show (file :: files).length + fuel = files.length + fuel + 1 by
      rw [length_cons]; omega, extractLoop_regular hheader hparse hdata,
      ih fuel hrest fun f hf => hfiles f (by simp [hf]), flatMap_cons, length_append,
      add_assoc]
    cases extractLoop d fuel _ <;> rfl

theorem extractLoop_zeros (hread : d.blockRead sector = .ok Sector.zeros)
    (fuel : ℕ) : extractLoop d (fuel + 1) sector = .ok ([], sector + 1) := by
  have hparse : ustarParseHeader Sector.zeros = .ok ⟨none, .eof, 0⟩ := if_pos fun _ => rfl
  have hheader : readHeader d sector = .ok ⟨none, .eof, 0⟩ := by
    rw [readHeader, hread, ok_bind, hparse]
    rfl
  rw [extractLoop, hheader]
  rfl

theorem shiftedZeros_zero : shiftedZeros 0 = Sector.zeros := by
  funext i
  exact ite_self 0

theorem extractLoop_stray {stray : UInt8} (hstray : stray ≠ 0)
    (hread : d.blockRead sector = .ok (shiftedZeros stray)) (fuel : ℕ) :
    extractLoop d (fuel + 1) sector = .error (.panic "bad ustar header in sector %u (%s)") := by
  have hnonzero : ¬ ∀ i, shiftedZeros stray i = 0 := fun h => hstray (h ⟨511, by decide⟩)
  have hmagic : Header.magic.read (shiftedZeros stray) ≠ [117, 115, 116, 97, 114, 0] := by
    intro heq
    have hentry : entry (shiftedZeros stray) (Header.magic.offset + 0) =
        (Header.magic.read (shiftedZeros stray)).getD 0 0 :=
      Field.entry_eq_getD_read (by decide)
    rw [heq] at hentry
    exact absurd hentry (show (0 : UInt8) ≠ 117 by decide)
  have hparse : ustarParseHeader (shiftedZeros stray) = .error "not a ustar archive" := by
    rw [ustarParseHeader, if_neg hnonzero, if_pos hmagic]
  have hheader : readHeader d sector = .error (.panic "bad ustar header in sector %u (%s)") := by
    rw [readHeader, hread, ok_bind, hparse]
    rfl
  rw [extractLoop, hheader]
  rfl

theorem length_le_flatMap (files : List (CString × List UInt8)) :
    files.length ≤ (files.flatMap fileBlocks).length := by
  induction files with
  | nil => exact le_rfl
  | cons file files ih =>
    rw [length_cons, flatMap_cons, length_append, length_fileBlocks]
    omega

theorem Existing.parsable {fs : FileSys} {cnt : ℕ} {name : CString} (h : Existing fs cnt name)
    (hname : (stripAntisocialPrefixes name).bytes.length ≤ 99) :
    Parsable (name, fileData fs cnt name) := by
  obtain ⟨k, hfound, -, hstored⟩ := h
  have hle := hstored.length_le
  unfold maxInodeSize at hle
  refine ustarParseHeader_headerOf name (.inl rfl) ?_ hname
  unfold fileData
  rw [hfound]
  rw [length_fileBytes]
  omega

theorem parsable_filesOf {fs : FileSys} {cnt : ℕ} {calls : List AppendCall}
    (hcalls : ∀ call ∈ calls, Existing fs cnt call.fileName ∧
      (stripAntisocialPrefixes call.fileName).bytes.length ≤ 99) :
    ∀ file ∈ filesOf fs cnt calls, Parsable file := by
  intro file hfile
  obtain ⟨call, hcall, rfl⟩ := mem_map.mp hfile
  exact (hcalls call hcall).1.parsable (hcalls call hcall).2

theorem holds_tape (d : Device) {L : List Sector} (hroom : L.length ≤ d.size)
    (hd : d.size ≤ 4294967295) : Holds { d with content := tape d.content 0 L } 0 L := by
  intro k b hk
  obtain ⟨hlt, -⟩ := List.getElem?_eq_some_iff.mp hk
  have hnat := toNat_position (show 0 + k < d.size by omega) hd
  rw [Device.blockRead_eq]
  · have hread : tape d.content 0 L (UInt32.ofNat (0 + k)) = b := tape_getElem? hk (by omega)
    exact congrArg Except.ok hread
  · show (UInt32.ofNat (0 + k)).toNat < d.size
    omega

/-- The archive that a sequence of calls leaves, up to the marker of the last one. -/
theorem archive_iff {files : List (CString × List UInt8)}
    (hparsable : ∀ file ∈ files, Parsable file) (hd : d.size ≤ 4294967295)
    (hroom : (files.flatMap fileBlocks).length + 2 ≤ d.size) (stray : UInt8) :
    Archive { d with
      content := tape d.content 0 (files.flatMap fileBlocks ++ [shiftedZeros stray]) }
        (files.map fun file => (stripAntisocialPrefixes file.1, file.2)) ↔
      stray = 0 ∧
        d.content (UInt32.ofNat ((files.flatMap fileBlocks).length + 1)) = Sector.zeros := by
  have hcount := length_le_flatMap files
  set blocks := files.flatMap fileBlocks
  obtain ⟨hholds, hmarker⟩ := (holds_tape d (L := blocks ++ [shiftedZeros stray])
    (by rw [length_append, length_singleton]; omega) hd).append
  -- the sector behind the marker has not been written
  have hbehind : Device.blockRead
      { d with content := tape d.content 0 (blocks ++ [shiftedZeros stray]) }
      (UInt32.ofNat blocks.length + 1) = .ok (d.content (UInt32.ofNat (blocks.length + 1))) := by
    have hnat := toNat_position (show blocks.length + 1 < d.size by omega) hd
    rw [show UInt32.ofNat blocks.length + 1 =
        UInt32.ofNat (blocks.length + 1) from (UInt32.ofNat_add _ 1).symm,
      Device.blockRead_eq]
    · dsimp only
      rw [tape_of_ge]
      rw [length_append, length_singleton]
      omega
    · show (UInt32.ofNat (blocks.length + 1)).toNat < d.size
      omega
  generalize hdev : ({ d with
    content := tape d.content 0 (blocks ++ [shiftedZeros stray]) } : Device) = dev
    at hholds hmarker hbehind
  have hsize : dev.size = d.size := by rw [← hdev]
  obtain ⟨fuel, hfuel⟩ : ∃ m, dev.size + 1 = files.length + (m + 1) :=
    ⟨d.size - files.length, by omega⟩
  have hread := hmarker.cons.1
  rw [zero_add] at hread
  have hloop := extractLoop_blocks files (fuel + 1) hholds hparsable
  rw [← hfuel, zero_add] at hloop
  unfold Archive
  rw [show extractLoop dev (dev.size + 1) 0 = _ from hloop]
  by_cases hstray : stray = 0
  · rw [hstray, shiftedZeros_zero] at hread
    rw [extractLoop_zeros hread]
    refine ⟨fun ⟨next, heq, _, hnext⟩ => ⟨hstray, ?_⟩, fun ⟨_, hzeros⟩ => ⟨_, ?_, hread, ?_⟩⟩
    · obtain ⟨-, hnext'⟩ := Prod.mk.inj (Except.ok.inj heq)
      rw [← hnext', hbehind] at hnext
      exact Except.ok.inj hnext
    · exact congrArg Except.ok (Prod.ext (append_nil _) rfl)
    · rw [hbehind, hzeros]
  · rw [extractLoop_stray hstray hread]
    exact ⟨fun ⟨next, heq, _⟩ => (nomatch heq), fun h => absurd h.1 hstray⟩

/-- What the device must hold for the end marker to be complete.  Only the last call leaves
its marker, and nothing is written behind it. -/
def MarkerComplete (d : Device) (files : List (CString × List UInt8)) (calls : List AppendCall) :
    Prop :=
  match calls.getLast? with
  | none => Archive d []
  | some call => call.stray = 0 ∧
      d.content (UInt32.ofNat ((files.flatMap fileBlocks).length + 1)) = Sector.zeros

/-- **Archives.**  Calls of `fsutil_append` on existing files with acceptable names return, and
leave an archive of exactly these files, with both sectors of the end marker, if and only if the
byte behind the buffer of the last call was zero and the sector behind its marker was zeros
before. -/
theorem fsutilAppend_archive_iff (s : Fsutil) (d : Device) (cnt : ℕ) (calls : List AppendCall)
    (hready : Ready s.fs cnt)
    (hcalls : ∀ call ∈ calls, Existing s.fs cnt call.fileName ∧
      (stripAntisocialPrefixes call.fileName).bytes.length ≤ 99)
    (hscratch : s.scratch = some d) (hsector : s.sector = 0) (hd : d.size ≤ 4294967295)
    (hroom : ((filesOf s.fs cnt calls).flatMap fileBlocks).length + 2 ≤ d.size) :
    Returns (appendAll calls) s fun _ t => ∃ d', t.scratch = some d' ∧
      (Archive d' ((filesOf s.fs cnt calls).map fun file =>
          (stripAntisocialPrefixes file.1, file.2)) ↔
        MarkerComplete d (filesOf s.fs cnt calls) calls) := by
  refine (appendAll_spec calls hready hcalls hscratch hsector hd (p := 0) (by omega)).post ?_
  rintro _ t ht
  refine ⟨_, ht, ?_⟩
  unfold MarkerComplete
  cases hlast : calls.getLast? with
  | none =>
    obtain rfl := getLast?_eq_none_iff.mp hlast
    rfl
  | some call =>
    rw [show marker calls = [shiftedZeros call.stray] by rw [marker, hlast]; rfl]
    exact archive_iff (parsable_filesOf hcalls) hd hroom call.stray

/-! ## A root directory with one file -/

def fileA : CString := nameA

/-- A disk with the file in its root directory; nothing is open. -/
def fileDisk : FileSys := { diskA with openInodes := [] }

theorem ready_fileDisk : Ready fileDisk 1 := by
  have hroot : Directory diskA 1 1 := directory_entryDisk (show 0 ∈ ofFn entryA.name by decide)
  exact ⟨rfl, fun i hi => absurd hi not_mem_nil, hroot.of_openInodes []⟩

theorem findSlot_fileDisk : findSlot fileDisk.content rootDirSector 1 fileA = some 0 := by
  have hkey : (slotAt fileDisk.content rootDirSector 0).key = some fileA := by
    decide
  exact (SlotTable.find_eq_some_iff ready_fileDisk.root.distinct).mpr ⟨by omega, hkey⟩

theorem existing_fileDisk : Existing fileDisk 1 fileA := by
  have hslot : slotAt fileDisk.content rootDirSector 0 = entryA := slotAt_entryDisk
  refine ⟨0, findSlot_fileDisk, ?_, ?_⟩ <;> rw [hslot]
  · rfl
  · exact @stored_oneBlock fileDisk _ _ _ (inodeAt_entryDisk_file (by decide) (by decide))
      (by decide) (by decide) (by decide) (by decide) (by decide)

theorem fileData_fileDisk : fileData fileDisk 1 fileA = [7, 7, 7, 7, 7] := by
  have hslot : slotAt fileDisk.content rootDirSector 0 = entryA := slotAt_entryDisk
  have hfile : inodeAt fileDisk.content 3 = oneBlockInode 4 5 :=
    inodeAt_entryDisk_file (by decide) (by decide)
  rw [fileData]
  dsimp only
  decide +kernel

/-- The file is appended to a scratch device whose bytes are all `b`. -/
def appendTo (b : UInt8) : Fsutil := ⟨fileDisk, some ⟨4, fun _ _ => b⟩, 0⟩

theorem filesOf_fileDisk (strays : List UInt8) :
    filesOf fileDisk 1 (strays.map fun stray => ⟨stray, fileA⟩) =
      strays.map fun _ => (fileA, [7, 7, 7, 7, 7]) := by
  rw [filesOf, map_map]
  exact map_congr_left fun _ _ => congrArg (Prod.mk fileA) fileData_fileDisk

theorem appendTo_calls (strays : List UInt8) :
    ∀ call ∈ strays.map fun stray => (⟨stray, fileA⟩ : AppendCall),
      Existing fileDisk 1 call.fileName ∧
      (stripAntisocialPrefixes call.fileName).bytes.length ≤ 99 := by
  intro call hcall
  obtain ⟨stray, -, rfl⟩ := mem_map.mp hcall
  exact ⟨existing_fileDisk, show (stripAntisocialPrefixes fileA).bytes.length ≤ 99 by decide⟩

/-- On an empty device the archive of two calls is complete.  The byte behind the buffer of the
first call does not matter. -/
theorem fsutilAppend_archive_iff_twice :
    Returns (appendAll [⟨5, fileA⟩, ⟨0, fileA⟩]) ⟨fileDisk, some ⟨6, fun _ _ => 0⟩, 0⟩ fun _ t =>
      ∃ d', t.scratch = some d' ∧
        Archive d' [(fileA, [7, 7, 7, 7, 7]), (fileA, [7, 7, 7, 7, 7])] := by
  have hfiles : filesOf fileDisk 1 [⟨5, fileA⟩, ⟨0, fileA⟩] =
      [(fileA, [7, 7, 7, 7, 7]), (fileA, [7, 7, 7, 7, 7])] := filesOf_fileDisk [5, 0]
  refine (fsutilAppend_archive_iff ⟨fileDisk, some ⟨6, fun _ _ => 0⟩, 0⟩ ⟨6, fun _ _ => 0⟩ 1
    [⟨5, fileA⟩, ⟨0, fileA⟩] ready_fileDisk (appendTo_calls [5, 0]) rfl rfl
    (show 6 ≤ 4294967295 by omega) ?_).post ?_
  · rw [hfiles]
    exact le_of_eq rfl
  rintro _ t ⟨d', ht, hiff⟩
  refine ⟨d', ht, ?_⟩
  have harchive := hiff.mpr ⟨rfl, rfl⟩
  rwa [hfiles] at harchive

/-- On a device that held something else the second sector of the marker is missing. -/
theorem fsutilAppend_leaves_stale : Returns (appendAll [⟨0, fileA⟩]) (appendTo 1) fun _ t =>
    ∃ d', t.scratch = some d' ∧ ¬ Archive d' [(fileA, [7, 7, 7, 7, 7])] := by
  have hfiles : filesOf (appendTo 1).fs 1 [⟨0, fileA⟩] = [(fileA, [7, 7, 7, 7, 7])] :=
    filesOf_fileDisk [0]
  have hroom : ((filesOf (appendTo 1).fs 1 [⟨0, fileA⟩]).flatMap fileBlocks).length + 2 ≤ 4 := by
    rw [hfiles]
    exact le_of_eq rfl
  let d : Device := ⟨4, fun _ _ => 1⟩
  have hd : d.size ≤ 4294967295 := show 4 ≤ 4294967295 by omega
  refine (appendAll_spec [⟨0, fileA⟩] (s := appendTo 1) (d := d) (p := 0) ready_fileDisk
    (appendTo_calls [0]) rfl rfl hd (by dsimp only [d]; omega)).post ?_
  rintro _ t ht
  refine ⟨_, ht, fun harchive => ?_⟩
  have hparsable : ∀ file ∈ filesOf (appendTo 1).fs 1 [⟨0, fileA⟩], Parsable file :=
    parsable_filesOf (appendTo_calls [0])
  rw [hfiles] at hroom hparsable harchive
  have hzeros := ((archive_iff hparsable hd hroom 0).mp harchive).2
  exact absurd (congrFun hzeros 0) (show (1 : UInt8) ≠ 0 by decide)

end Fsutil

end CS162
