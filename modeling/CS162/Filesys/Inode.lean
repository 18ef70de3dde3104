import CS162.Filesys.State

/-!
# Inodes and the free map

A model of `filesys/inode.c` and `filesys/free-map.c`.  The two files call each
other: a write that grows a file allocates sectors, and every change of the free map
is written to the free-map file, which is an inode itself.

## How the recursion is cut

`free_map_allocate` and `free_map_release` write the free-map file while they hold
`free_map_lock`.  Would this write have to grow the free-map file, it would allocate
sectors and acquire the lock again, which `lock_acquire` refuses.  The functions of
`inode.c` therefore take the free-map calls they make as an argument `MapOps`:
`MapOps.held` inside the lock, `freeMapOps` outside.

`resize_inode` calls `inode_write_at` to put the old bytes back.  That call finds the
inode as it was on disk and does not resize again unless the inode sector itself has
been overwritten meanwhile; `inodeWriteAtFuel` bounds the depth.

## Stack copies

`inode_write_at` and `resize_inode` work on a copy of the on-disk inode and never
write it back.  In the model the copy is a local value.
-/

namespace CS162

open Library

/-! ## Index blocks and on-disk inodes -/

namespace Sector

/-- A sector as an array of 128 words, `block_sector_t buffer[128]`. -/
def words (sector : Sector) : ℕ → UInt32 := wordAt (entry sector)

def ofWords (w : ℕ → UInt32) : Sector := fun k => Library.ofWords w k.val

def zeros : Sector := fun _ => 0

end Sector

def inodeMagic : UInt32 := 0x494e4f44

def maxInodeSize : ℤ := 0x800000

/-- `struct inode_disk`. -/
structure InodeDisk where
  direct : Fin 12 → BlockSector
  indirect : BlockSector
  doublyIndirect : BlockSector
  length : ℤ
  magic : UInt32
  unused : Fin 112 → UInt32

namespace InodeDisk

/-- A sector read as a `struct inode_disk`. -/
def decode (sector : Sector) : InodeDisk where
  direct i := sector.words i
  indirect := sector.words 12
  doublyIndirect := sector.words 13
  length := intOfWord (sector.words 14)
  magic := sector.words 15
  unused i := sector.words (16 + i)

def toWords (data : InodeDisk) (i : ℕ) : UInt32 :=
  if h : i < 12 then data.direct ⟨i, h⟩
  else if i = 12 then data.indirect
  else if i = 13 then data.doublyIndirect
  else if i = 14 then wordOfInt data.length
  else if i = 15 then data.magic
  else entry data.unused (i - 16)

def encode (data : InodeDisk) : Sector := Sector.ofWords data.toWords

end InodeDisk

/-- `bytes_to_sectors`: `DIV_ROUND_UP` in `int`, converted to `size_t`. -/
def bytesToSectors (size : ℤ) : ℕ := ((wrap32 (size + 511)).tdiv 512 % 4294967296).toNat

namespace FileSys

/-! ## Reading -/

/-- `byte_to_sector`.  The second range test shifts `pos` below the third range, so at
most one of the three applies. -/
def byteToSector (inode : Inode) (pos : ℤ) : Fs BlockSector := do
  let data := InodeDisk.decode (← cacheRead inode.sector)
  if pos ≤ data.length then
    if h : 0 ≤ pos ∧ pos < 12 * 512 then
      return data.direct ⟨(pos / 512).toNat, by omega⟩
    else if 12 * 512 ≤ pos ∧ pos < (12 + 128) * 512 then do
      let buffer := (← cacheRead data.indirect).words
      return buffer ((pos - 12 * 512) / 512).toNat
    else if (12 + 128) * 512 ≤ pos ∧ pos < maxInodeSize then do
      let pos := pos - (12 + 128) * 512
      let buffer := (← cacheRead data.doublyIndirect).words
      let sector := buffer (pos / (128 * 512)).toNat
      let buffer := (← cacheRead sector).words
      return buffer (pos / 512 % (128 * 512) % 128).toNat
    else
      return 0
  else
    return 1

def inodeLength (inode : Inode) : Fs ℤ := do
  return (InodeDisk.decode (← cacheRead inode.sector)).length

/-- The bounce buffer is allocated when it is first needed. -/
def bounceBuffer (bounce : Bool) : Fs Bool := if bounce then pure true else malloc

/-- The bytes of a sector that are copied out of the bounce buffer. -/
def readBounce (sectorIdx : BlockSector) (sectorOfs chunkSize : ℤ) : Fs (List UInt8) := do
  if sectorOfs < 0 then throw (.undefined "bounce + sector_ofs")
  return slice (← cacheRead sectorIdx) sectorOfs.toNat chunkSize.toNat

/-- `chunk_size` in `inode_read_at`. -/
def readChunkSize (length size offset : ℤ) : ℤ :=
  let inodeLeft := length - offset
  let sectorLeft := 512 - offset.tmod 512
  let minLeft := if inodeLeft < sectorLeft then inodeLeft else sectorLeft
  if size < minLeft then size else minLeft

/-- The loop of `inode_read_at`; `bounce` says whether the bounce buffer is allocated,
`read` is what the caller's buffer holds so far. -/
def readLoop (inode : Inode) : ℕ → ℤ → ℤ → Bool → List UInt8 → Fs (List UInt8)
  | 0, _, _, _, _ => throw .outOfFuel
  | fuel + 1, size, offset, bounce, read => do
      if size ≤ 0 then return read
      let sectorIdx ← byteToSector inode offset
      let chunkSize := readChunkSize (← inodeLength inode) size offset
      if chunkSize ≤ 0 then return read
      if offset.tmod 512 = 0 ∧ chunkSize = 512 then
        let buffer ← cacheRead sectorIdx
        readLoop inode fuel (size - chunkSize) (offset + chunkSize) bounce
          (read ++ slice buffer 0 512)
      else
        let bounce ← bounceBuffer bounce
        if !bounce then return read
        let bytes ← readBounce sectorIdx (offset.tmod 512) chunkSize
        readLoop inode fuel (size - chunkSize) (offset + chunkSize) bounce (read ++ bytes)

/-- `inode_read_at`; the bytes it stores in the caller's buffer. -/
def inodeReadAt (inode : Inode) (size offset : ℤ) : Fs (List UInt8) := do
  let data := InodeDisk.decode (← cacheRead inode.sector)
  if data.length ≤ offset then return []
  let size := if data.length < size then data.length else size
  readLoop inode (size.toNat + 1) size offset false []

/-! ## Writing -/

/-- The bounce buffer is filled with the sector, or with zeros if the chunk covers the
sector. -/
def fillBounce (sectorIdx : BlockSector) (sectorOfs chunkSize : ℤ) : Fs Sector :=
  if sectorOfs < 0 then throw (.undefined "bounce + sector_ofs")
  else if 0 < sectorOfs ∨ chunkSize < 512 - sectorOfs then cacheRead sectorIdx
  else pure Sector.zeros

/-- `chunk_size` in `inode_write_at`. -/
def writeChunkSize (size offset : ℤ) : ℤ :=
  let sectorLeft := 512 - offset.tmod 512
  let chunkSize := if size.tmod 512 = 0 then 512 else size
  if sectorLeft < chunkSize then sectorLeft else chunkSize

def writeLoop (inode : Inode) (buffer : ℕ → UInt8) : ℕ → ℤ → ℤ → ℕ → Bool → Fs ℕ
  | 0, _, _, _, _ => throw .outOfFuel
  | fuel + 1, size, offset, written, bounce => do
      if size ≤ 0 then return written
      let sectorIdx ← byteToSector inode offset
      let chunkSize := writeChunkSize size offset
      let bounce ← bounceBuffer bounce
      if !bounce then return written
      let base ← fillBounce sectorIdx (offset.tmod 512) chunkSize
      cacheWrite sectorIdx
        (overlay base (offset.tmod 512).toNat chunkSize.toNat fun k => buffer (written + k))
      writeLoop inode buffer fuel (size - chunkSize) (wrap32 (offset + chunkSize))
        (written + chunkSize.toNat) bounce

/-- `bytes_to_sectors (n) == 0 ? 1 : bytes_to_sectors (n)`, as an `int`. -/
def sectorsOrOne (n : ℤ) : ℤ := if bytesToSectors n = 0 then 1 else wrap32 (bytesToSectors n)

/-- `inode_write_at`, given the `resize_inode` it calls.  Its final update of
`data->length` changes only the copy of the inode on its stack. -/
def inodeWriteAtWith (resizeInode : ℤ → Bool → Fs Bool) (inode : Inode) (buffer : ℕ → UInt8)
    (size offset : ℤ) : Fs ℕ := do
  let data := InodeDisk.decode (← cacheRead inode.sector)
  if inode.denyWriteCnt ≠ 0 then return 0
  let last := wrap32 (offset + size)
  if sectorsOrOne data.length < sectorsOrOne last then
    let _ ← resizeInode last (decide (0 < data.length))
  writeLoop inode buffer (size.toNat + 1) size offset 0 false

/-! ## Allocating -/

/-- The calls of the free map that `inode.c` makes. -/
structure MapOps where
  /-- `free_map_allocate`: the first of the sectors, or `none` if it returns false. -/
  allocate : ℕ → Fs (Option BlockSector)
  /-- `free_map_release`. -/
  release : BlockSector → ℕ → Fs Unit

/-- The calls while `free_map_lock` is held: `lock_acquire` refuses to acquire a lock
the thread already holds. -/
def MapOps.held : MapOps where
  allocate _ := throw (.panic "!lock_held_by_current_thread (lock)")
  release _ _ := throw (.panic "!lock_held_by_current_thread (lock)")

/-- `free_map_release_array` on an array of `bound` entries. -/
def freeMapReleaseArray (ops : MapOps) (bound : ℕ) (sectorp : ℕ → BlockSector) (cnt : ℕ) :
    Fs Unit :=
  forUpto (fun i =>
    if i < bound then ops.release (sectorp i) 1 else throw (.undefined "sectorp[i]")) cnt 0

/-- `free_map_allocate_array`, with `n` entries to go from entry `i` on. -/
def allocateArrayFrom (ops : MapOps) (bound upto : ℕ) :
    ℕ → ℕ → (ℕ → BlockSector) → Fs (Bool × (ℕ → BlockSector))
  | 0, _, sectorp => return (true, sectorp)
  | n + 1, i, sectorp => do
      if upto ≤ i then
        allocateArrayFrom ops bound upto n (i + 1) (Function.update sectorp i 0)
      else
        match ← ops.allocate 1 with
        | some sector =>
          allocateArrayFrom ops bound upto n (i + 1) (Function.update sectorp i sector)
        | none =>
          freeMapReleaseArray ops bound sectorp i
          return (false, sectorp)

/-- `free_map_allocate_array`; every caller passes the length of the array as `cnt`. -/
def freeMapAllocateArray (ops : MapOps) (cnt upto : ℕ) (sectorp : ℕ → BlockSector) :
    Fs (Bool × (ℕ → BlockSector)) :=
  allocateArrayFrom ops cnt upto cnt 0 sectorp

/-- `zero_out` on an array of `bound` entries. -/
def zeroOut (bound size : ℕ) (sectors : ℕ → BlockSector) : Fs Unit :=
  forUpto (fun i =>
    if i < bound then cacheWrite (sectors i) Sector.zeros
    else throw (.undefined "sectors[i]")) size 0

section Allocate

variable (ops : MapOps) (zeroOut : ℕ → ℕ → (ℕ → BlockSector) → Fs Unit)

def allocateDirectBlocks (sectors : ℕ) (diskInode : InodeDisk) : Fs (ℕ × InodeDisk) := do
  let upto := if sectors < 12 then sectors else 12
  let (success, direct) ← freeMapAllocateArray ops 12 upto (entry diskInode.direct)
  let diskInode := { diskInode with direct := fun i => direct i }
  if success then
    zeroOut 12 upto direct
    return (upto, diskInode)
  else
    return (0, diskInode)

def allocateIndirectBlocks (sectors : ℕ) (diskInode : InodeDisk) : Fs (ℕ × InodeDisk) := do
  match ← ops.allocate 1 with
  | none => return (0, diskInode)
  | some indirect =>
    let upto := if sectors < 128 then sectors else 128
    let (success, buffer) ← freeMapAllocateArray ops 128 upto fun _ => 0
    if success then zeroOut 128 upto buffer
    cacheWrite indirect (Sector.ofWords buffer)
    return (if success then upto else 0, { diskInode with indirect := indirect })

/-- The loop of `allocate_doubly_indirect_blocks`; `none` is its `return 0`. -/
def allocateDoublyLoop (sectors : ℕ) :
    ℕ → ℕ → ℕ → ℕ → (ℕ → BlockSector) → Fs (Option (ℕ × (ℕ → BlockSector)))
  | 0, _, _, _, _ => throw .outOfFuel
  | fuel + 1, left, allocated, i, buffer => do
      if left = 0 then return some (allocated, buffer)
      let upto := if left < 128 then left else 128
      let (success, doublyBuffer) ← freeMapAllocateArray ops 128 upto fun _ => 0
      if !success then return none
      zeroOut 128 (if left < 128 then sectors else 128) doublyBuffer
      match ← ops.allocate 1 with
      | none => return none
      | some sector =>
        cacheWrite sector (Sector.ofWords doublyBuffer)
        allocateDoublyLoop sectors fuel (left - upto) (allocated + upto) (i + 1)
          (Function.update buffer i sector)

def allocateDoublyIndirectBlocks (sectors : ℕ) (diskInode : InodeDisk) : Fs (ℕ × InodeDisk) := do
  if ¬ sectors < 128 * 127 then throw (.panic "sectors < 128 * 127")
  match ← ops.allocate 1 with
  | none => return (0, diskInode)
  | some doublyIndirect =>
    let diskInode := { diskInode with doublyIndirect := doublyIndirect }
    match ← allocateDoublyLoop ops zeroOut sectors (sectors + 1) sectors 0 0 fun _ => 0 with
    | none => return (0, diskInode)
    | some (allocated, buffer) =>
      cacheWrite doublyIndirect (Sector.ofWords buffer)
      return (allocated, diskInode)

def allocateBlocksWith (sectors : ℕ) (diskInode : InodeDisk) : Fs (Bool × InodeDisk) := do
  if 128 * 128 < sectors then return (false, diskInode)
  let remaining := if 0 < sectors then sectors else 1
  let (allocated, diskInode) ← allocateDirectBlocks ops zeroOut remaining diskInode
  if allocated = 0 then return (false, diskInode)
  let soFar := allocated
  let remaining := remaining - allocated
  if ¬ (soFar = 12 ∧ 0 < remaining) then return (true, diskInode)
  let (allocated, diskInode) ← allocateIndirectBlocks ops zeroOut remaining diskInode
  if allocated = 0 then return (false, diskInode)
  let soFar := soFar + allocated
  let remaining := remaining - allocated
  if ¬ (soFar = 128 + 12 ∧ 0 < remaining) then return (true, diskInode)
  let (allocated, diskInode) ← allocateDoublyIndirectBlocks ops zeroOut remaining diskInode
  return (decide (0 < allocated), diskInode)

end Allocate

/-- `allocate_blocks` as `inode.c` has it. -/
def allocateBlocks (ops : MapOps) : ℕ → InodeDisk → Fs (Bool × InodeDisk) :=
  allocateBlocksWith ops zeroOut

/-! ## Freeing -/

def freeDirect (ops : MapOps) (inode : Inode) (sectors : ℕ) : Fs Unit := do
  let data := InodeDisk.decode (← cacheRead inode.sector)
  freeMapReleaseArray ops 12 (entry data.direct) sectors

def freeIndirect (ops : MapOps) (inode : Inode) (sectors : ℕ) : Fs Unit := do
  let data := InodeDisk.decode (← cacheRead inode.sector)
  let buffer := (← cacheRead data.indirect).words
  freeMapReleaseArray ops 128 buffer sectors

/-- The loop of `free_doubly_indirect`. -/
def freeDoublyLoop (ops : MapOps) (buffer : ℕ → BlockSector) : ℕ → ℕ → ℕ → Fs Unit
  | 0, _, _ => throw .outOfFuel
  | fuel + 1, freeLeft, i => do
      if freeLeft = 0 then return
      if ¬ i < 128 then throw (.undefined "buffer[i]")
      let doublyBuffer := (← cacheRead (buffer i)).words
      let cnt := if freeLeft < 128 then freeLeft else 128
      freeMapReleaseArray ops 128 doublyBuffer cnt
      freeDoublyLoop ops buffer fuel (freeLeft - cnt) (i + 1)

def freeDoublyIndirect (ops : MapOps) (inode : Inode) (sectors : ℕ) : Fs Unit := do
  let data := InodeDisk.decode (← cacheRead inode.sector)
  let buffer := (← cacheRead data.doublyIndirect).words
  freeDoublyLoop ops buffer (sectors + 1) sectors 0

/-- `free_all_sectors`.  The last branch passes `sectors - 12` to `free_indirect`, not
128, so `free_indirect` runs past the end of its buffer. -/
def freeAllSectors (ops : MapOps) (inode : Inode) (sectors : ℕ) : Fs Unit := do
  if ¬ sectors ≤ 128 * 128 then throw (.panic "sectors <= 128 * 128")
  if sectors ≤ 12 then
    freeDirect ops inode sectors
  else if sectors ≤ 12 + 128 then
    freeDirect ops inode 12
    freeIndirect ops inode (sectors - 12)
  else
    freeDirect ops inode 12
    freeIndirect ops inode (sectors - 12)
    freeDoublyIndirect ops inode (sectors - (12 + 128))

/-! ## Resizing -/

/-- `resize_inode`, given the `inode_write_at` it calls to put the old bytes back.  The
result of `malloc` is not checked: without memory the old bytes are read to address 0. -/
def resizeInodeWith (ops : MapOps) (inodeWriteAt : (ℕ → UInt8) → ℤ → ℤ → Fs ℕ) (inode : Inode)
    (resize : ℤ) (copyBack : Bool) : Fs Bool := do
  let sectors := bytesToSectors resize
  let data := InodeDisk.decode (← cacheRead inode.sector)
  if !copyBack then
    return (← allocateBlocks ops sectors data).1
  let oldSize := data.length
  let oldBuffer ← malloc
  let bytes ← inodeReadAt inode oldSize 0
  if !oldBuffer && !bytes.isEmpty then throw (.undefined "old_buffer")
  if (bytes.length : ℤ) ≠ oldSize then return false
  freeAllSectors ops inode (bytesToSectors oldSize)
  if !(← allocateBlocks ops sectors data).1 then return false
  let written ← inodeWriteAt (fun k => bytes.getD k 0) oldSize 0
  return decide ((written : ℤ) = oldSize)

/-! ## The free map -/

def byteCnt (bitCnt : ℕ) : ℕ := 4 * ((bitCnt + 31) / 32)

def bitmapScan (bits : ℕ → Bool) (bitCnt cnt : ℕ) : Option ℕ :=
  if cnt ≤ bitCnt then
    (List.range (bitCnt - cnt + 1)).find? fun i => (List.range cnt).all fun j => !bits (i + j)
  else none

def bitmapSetMultiple (bits : ℕ → Bool) (start cnt : ℕ) (value : Bool) : ℕ → Bool := fun i =>
  if start ≤ i ∧ i < start + cnt then value else bits i

/-- `inode_write_at` while `free_map_lock` is held.  `resize_inode` would have to
allocate before it puts the old bytes back. -/
def inodeWriteAtHeld (inode : Inode) (buffer : ℕ → UInt8) (size offset : ℤ) : Fs ℕ :=
  inodeWriteAtWith (resizeInodeWith .held (fun _ _ _ => throw .outOfFuel) inode) inode buffer
    size offset

/-- `bitmap_write (free_map, free_map_file)`. -/
def bitmapWrite : Fs Bool := do
  let s ← get
  match s.freeMapFile with
  | none => throw (.undefined "free_map_file")
  | some inode =>
    let written ← inodeWriteAtHeld inode (bitsByte s.freeMap) (byteCnt s.size) 0
    return written = byteCnt s.size

def freeMapAllocate (cnt : ℕ) : Fs (Option BlockSector) := do
  let s ← get
  match bitmapScan s.freeMap s.size cnt with
  | none => return none
  | some sector =>
    set { s with freeMap := bitmapSetMultiple s.freeMap sector cnt true }
    if s.freeMapFile.isSome then
      if !(← bitmapWrite) then
        modify fun s => { s with freeMap := bitmapSetMultiple s.freeMap sector cnt false }
        return none
    return some (UInt32.ofNat sector)

def freeMapRelease (sector : BlockSector) (cnt : ℕ) : Fs Unit := do
  let s ← get
  if ¬ sector.toNat + cnt ≤ s.size then throw (.panic "start + cnt <= b->bit_cnt")
  if ¬ (List.range cnt).all fun j => s.freeMap (sector.toNat + j) then
    throw (.panic "bitmap_all (free_map, sector, cnt)")
  set { s with freeMap := bitmapSetMultiple s.freeMap sector.toNat cnt false }
  let _ ← bitmapWrite

/-- The free-map calls of `inode.c` outside `free_map_lock`. -/
def freeMapOps : MapOps := ⟨freeMapAllocate, freeMapRelease⟩

/-- `inode_write_at`, down to a given depth of recursion. -/
def inodeWriteAtFuel : ℕ → Inode → (ℕ → UInt8) → ℤ → ℤ → Fs ℕ
  | 0, _, _, _, _ => throw .outOfFuel
  | depth + 1, inode, buffer, size, offset =>
    inodeWriteAtWith (resizeInodeWith freeMapOps (inodeWriteAtFuel depth inode) inode)
      inode buffer size offset

def inodeWriteAt (inode : Inode) (buffer : ℕ → UInt8) (size offset : ℤ) : Fs ℕ := do
  let s ← get
  inodeWriteAtFuel (s.size + 2) inode buffer size offset

/-! ## Creating, opening, removing and closing -/

def inodeCreate (sector : BlockSector) (length : ℤ) : Fs Bool := do
  if length < 0 then throw (.panic "length >= 0")
  if !(← malloc) then return false
  let diskInode : InodeDisk := ⟨fun _ => 0, 0, 0, length, inodeMagic, fun _ => 0⟩
  let (success, diskInode) ← allocateBlocks freeMapOps (bytesToSectors length) diskInode
  if success then cacheWrite sector diskInode.encode
  return success

/-- Changes the open inode of a sector. -/
def updateInode (sector : BlockSector) (f : Inode → Inode) : Fs Unit :=
  modify fun s => { s with
    openInodes := s.openInodes.map fun inode => if inode.sector = sector then f inode else inode }

def findInode (sector : BlockSector) (openInodes : List Inode) : Option Inode :=
  openInodes.find? fun inode => inode.sector = sector

def inodeReopen (sector : BlockSector) : Fs (Option Inode) := do
  updateInode sector fun inode => { inode with openCnt := inode.openCnt + 1 }
  return findInode sector (← get).openInodes

def inodeOpen (sector : BlockSector) : Fs (Option Inode) := do
  if (findInode sector (← get).openInodes).isSome then
    inodeReopen sector
  else if ← malloc then
    let inode : Inode := ⟨sector, 1, false, 0⟩
    modify fun s => { s with openInodes := inode :: s.openInodes }
    return some inode
  else
    return none

def inodeRemove (sector : BlockSector) : Fs Unit :=
  updateInode sector fun inode => { inode with removed := true }

/-- `inode_close` of an open inode. -/
def inodeClose (sector : BlockSector) : Fs Unit := do
  match findInode sector (← get).openInodes with
  | none => throw (.undefined "inode")
  | some inode =>
    if inode.openCnt - 1 = 0 then
      modify fun s => { s with openInodes := s.openInodes.filter fun i => i.sector ≠ sector }
      if inode.removed then
        let data := InodeDisk.decode (← cacheRead inode.sector)
        freeMapRelease inode.sector 1
        freeAllSectors freeMapOps inode (bytesToSectors data.length)
    else
      updateInode sector fun inode => { inode with openCnt := inode.openCnt - 1 }

/-! ## Formatting -/

def freeMapSector : BlockSector := 0

def rootDirSector : BlockSector := 1

/-- `sizeof (struct dir_entry)`. -/
def dirEntrySize : ℕ := 24

/-- `dir_create`; the size in bytes is computed in `size_t` and passed on as an `off_t`. -/
def dirCreate (sector : BlockSector) (entryCnt : ℕ) : Fs Bool :=
  inodeCreate sector (wrap32 (entryCnt * dirEntrySize))

/-- `free_map_init`; `unused` is what the end of the last word of the bitmap holds. -/
def freeMapInit (unused : ℕ → Bool) : Fs Unit := do
  let s ← get
  if !(← malloc) || !(← malloc) then
    throw (.panic "bitmap creation failed--file system device is too large")
  if s.size ≤ 1 then throw (.panic "idx < b->bit_cnt")
  modify fun s => { s with
    freeMap := fun i => if i < s.size then i == 0 || i == 1 else unused i }

/-- `file_open (inode_open (FREE_MAP_SECTOR))`. -/
def openFreeMapFile : Fs Unit := do
  match ← inodeOpen freeMapSector with
  | none => throw (.panic "can't open free map")
  | some inode =>
    if !(← malloc) then throw (.panic "can't open free map")
    modify fun s => { s with freeMapFile := some inode }

def freeMapCreate : Fs Unit := do
  let s ← get
  if !(← inodeCreate freeMapSector (byteCnt s.size)) then throw (.panic "free map creation failed")
  openFreeMapFile
  if !(← bitmapWrite) then throw (.panic "can't write free map")

/-- `free_map_open`; `bitmap_read` clears the end of the last word. -/
def freeMapOpen : Fs Unit := do
  openFreeMapFile
  let s ← get
  match s.freeMapFile with
  | none => throw (.panic "can't open free map")
  | some inode =>
    let bytes ← inodeReadAt inode (byteCnt s.size) 0
    if bytes.length ≠ byteCnt s.size then throw (.panic "can't read free map")
    modify fun s => { s with
      freeMap := fun i => decide (i < s.size) && byteBit (fun k => bytes.getD k 0) i }

/-- `do_format`, between the two calls of `filesys_init` around it: the file system is
formatted and its free map opened. -/
def format (unused : ℕ → Bool) : Fs Unit := do
  freeMapInit unused
  freeMapCreate
  if !(← dirCreate rootDirSector 16) then throw (.panic "root directory creation failed")
  inodeClose freeMapSector
  freeMapOpen

end FileSys

end CS162
