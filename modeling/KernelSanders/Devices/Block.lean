import KernelSanders.Lib.Exec
import KernelSanders.Lib.Bytes

namespace KernelSanders

open Lib Lib.Exec

/-!
# `devices/block.c` — the file system's block device

A device of `size` sectors of 512 bytes.  The driver's transfer functions are exact copies of a
sector, so the device is its contents; the transfer counters are left out.
-/

/-- The contents of one sector, `BLOCK_SECTOR_SIZE` bytes. -/
abbrev Sector : Type := Bytes 512

/-- `enum block_type`. -/
inductive BlockType where
  | kernel | filesys | scratch | swap | raw | foreign
  deriving DecidableEq, Repr

/-- The device in the file system role: its size is a `block_sector_t`, and it is none of the
    devices that belong to another operating system. -/
structure Device where
  type : BlockType
  size : Nat
  sectors : Nat → Sector
  size_lt : size < 2 ^ 32
  owned : type ≠ .foreign

theorem BlockType.filesys_owned : BlockType.filesys ≠ .foreign := nofun

namespace Device

/-- Replace the contents of one sector. -/
def put (d : Device) (s : Nat) (buf : Sector) : Device :=
  { d with sectors := Function.update d.sectors s buf }

@[simp] theorem put_sectors (d : Device) (s : Nat) (buf : Sector) :
    (d.put s buf).sectors = Function.update d.sectors s buf := rfl

end Device

/-- `check_sector`: panics past the end of the device. -/
def checkSector (sector : Nat) : Exec Device Unit := do
  let size ← read Device.size
  assert (sector < size) "Access past end of device"

/-- `block_read`. -/
def blockRead (sector : Nat) : Exec Device Sector := do
  checkSector sector
  read (fun d => d.sectors sector)

/-- `block_write`. -/
def blockWrite (sector : Nat) (buf : Sector) : Exec Device Unit := do
  checkSector sector
  let type ← read Device.type
  assert (type ≠ .foreign) "block->type != BLOCK_FOREIGN"
  update (·.put sector buf)

/-- `block_clear`: a sector of zeros, written to the device itself. -/
def blockClear (sector : Nat) : Exec Device Unit :=
  blockWrite sector Bytes.zero

variable {d : Device} {sector : Nat}

section

variable (h : sector < d.size)
include h

theorem checkSector_ok : (checkSector sector).run d = .ok ((), d) := by
  rw [checkSector, read_bind]
  exact assert_pos h _ _

theorem blockRead_ok : (blockRead sector).run d = .ok (d.sectors sector, d) := by
  rw [blockRead, bind_ok (checkSector_ok h)]
  rfl

theorem blockWrite_ok (buf : Sector) :
    (blockWrite sector buf).run d = .ok ((), d.put sector buf) := by
  rw [blockWrite, bind_ok (checkSector_ok h), read_bind, bind_ok (assert_pos d.owned _ _)]
  rfl

theorem blockClear_ok : (blockClear sector).run d = .ok ((), d.put sector Bytes.zero) :=
  blockWrite_ok h _

end

/-- An access past the end of the device takes the kernel down. -/
theorem checkSector_past_end (h : d.size ≤ sector) :
    (checkSector sector).run d = .error (.panic "Access past end of device") := by
  rw [checkSector, read_bind]
  exact assert_neg (by omega) _ _

theorem blockRead_past_end (h : d.size ≤ sector) :
    (blockRead sector).run d = .error (.panic "Access past end of device") := by
  rw [blockRead, bind_error (checkSector_past_end h)]

theorem blockWrite_past_end (h : d.size ≤ sector) (buf : Sector) :
    (blockWrite sector buf).run d = .error (.panic "Access past end of device") := by
  rw [blockWrite, bind_error (checkSector_past_end h)]

end KernelSanders
