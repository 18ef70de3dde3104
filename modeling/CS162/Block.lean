import Mathlib.Data.UInt
import CS162.Library.Outcome

/-!
# Block devices

The types every layer of the file system shares: sector numbers
(`block_sector_t`, an unsigned 32-bit integer), the 512 bytes of a sector, and
the ways a kernel call can stop without returning.  `devices/block.c` refuses an
access past the end of the device with `PANIC`, so `blockRead` and `blockWrite`
check the sector number against the size of the device.
-/

namespace CS162

/-- `BLOCK_SECTOR_SIZE` of `devices/block.h`. -/
abbrev blockSectorSize : ℕ := 512

abbrev BlockSector := UInt32

/-- The contents of one sector, `char sector[BLOCK_SECTOR_SIZE]`. -/
abbrev Sector := Fin blockSectorSize → UInt8

/-- Ways a call into the kernel ends without returning to its caller. -/
inductive Fault where
  /-- A failed `ASSERT` or an explicit `PANIC`. -/
  | panic (site : String)
  /-- Behaviour C leaves undefined: an access outside an array, a null pointer,
  an uninitialised variable. -/
  | undefined (site : String)
  /-- A recursion of the model was cut off. -/
  | outOfFuel
  deriving DecidableEq, Repr

/-- A block device: its size in sectors and what each sector holds. -/
structure Device where
  size : ℕ
  content : BlockSector → Sector

namespace Device

def checkSector (device : Device) (sector : BlockSector) : Except Fault Unit :=
  if sector.toNat < device.size then .ok () else .error (.panic "Access past end of device")

def blockRead (device : Device) (sector : BlockSector) : Except Fault Sector := do
  device.checkSector sector
  return device.content sector

def blockWrite (device : Device) (sector : BlockSector) (buffer : Sector) :
    Except Fault Device := do
  device.checkSector sector
  return { device with content := Function.update device.content sector buffer }

variable {device : Device} {sector : BlockSector}

theorem blockRead_eq (h : sector.toNat < device.size) :
    device.blockRead sector = .ok (device.content sector) := by
  simp [blockRead, checkSector, h]

theorem blockWrite_eq (h : sector.toNat < device.size) (buffer : Sector) :
    device.blockWrite sector buffer =
      .ok { device with content := Function.update device.content sector buffer } := by
  simp [blockWrite, checkSector, h]

end Device

end CS162
