import KernelSanders.Filesys.Inode

namespace KernelSanders

open Lib Lib.Exec

namespace Fs

open BlockStore

/-!
# The file of the free map

`file_open`, and `free_map_create` on top of the allocation in `Inode.lean`.
-/

variable {σ κ : Type} [BlockStore σ κ]

def freeMapSector : Nat := 1

/-! ### `file.c` -/

/-- `*file = …`, or `free (file)`. -/
def setFile (f : Nat) (o : Option File) : Exec (Fs σ) Unit :=
  update (fun fs => { fs with files := Function.update fs.files f o })

/-- `file_open`, for an inode that may be null. -/
def fileOpen (depth : Nat) (inode : Option Nat) (isDir : Bool) : Exec (Fs σ) (Option Nat) := do
  let o ← allocate
  match inode, o with
  | some a, some f =>
    setFile f (some { inode := a, pos := 0, denyWrite := false, isDir := isDir })
    pure (some f)
  | inode, _ =>
    inodeClose depth inode
    pure none

/-! ### `free-map.c` -/

/-- Open the file of the free map. -/
def openFreeMapFile (depth : Nat) : Exec (Fs σ) Nat := do
  let a ← inodeOpen freeMapSector
  let f ← fileOpen depth a false
  update (fun fs => { fs with freeMapFile := f })
  match f with
  | none => stop (.panic "can't open free map")
  | some f => pure f

/-- `free_map_create`. -/
def freeMapCreate (depth : Nat) : Exec (Fs σ) Unit := do
  let b ← read Fs.freeMap
  if ← inodeCreate (freeMapAllocate depth) freeMapSector (wrap (Bitmap.byteCnt b.bitCnt)) then
    let f ← openFreeMapFile depth
    if ← bitmapWrite (freeMapAllocate depth) (some f) then pure ()
    else stop (.panic "can't write free map")
  else stop (.panic "free map creation failed")

end Fs

end KernelSanders
