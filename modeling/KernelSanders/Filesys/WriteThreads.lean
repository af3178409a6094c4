import KernelSanders.Lib.Threads
import KernelSanders.Filesys.FileBytes

namespace KernelSanders

open Lib Lib.Exec

/-!
# `inode_write_at` under concurrency

`inode_write_at` once more, now as code of a thread: every look at the recorded length, every
operation on the extension lock, a whole `inode_extend`, the writing of one chunk and
`inode_set_length` is an action of its own.  The functions themselves are those of the sequential
model; `writeLoop_succ` ties a round of its loop to the action that writes a chunk.

Every thread makes one call, and there are as many threads as there are numbers, so a thread that
writes several times is several threads here.  It keeps nothing from one call to the next.
-/

/-- A call of `inode_write_at`.  `size` and `offset` are values of type `off_t`. -/
structure Write where
  buffer : Nat → UInt8
  size : Int
  offset : Int
  size_range : -2 ^ 31 ≤ size ∧ size < 2 ^ 31
  offset_range : -2 ^ 31 ≤ offset ∧ offset < 2 ^ 31

namespace Write

/-- `off_t newlen = size + offset;` -/
def newlen (w : Write) : Int := wrap (w.size + w.offset)

/-- `size + offset` is a value of type `off_t` as well. -/
def Fits (w : Write) : Prop := -2 ^ 31 ≤ w.size + w.offset ∧ w.size + w.offset < 2 ^ 31

instance (w : Write) : Decidable w.Fits := inferInstanceAs (Decidable (_ ∧ _))

theorem Fits.newlen_eq {w : Write} (h : w.Fits) : w.newlen = w.size + w.offset :=
  wrap_of_range h.1 h.2

end Write

/-- A thread that has not called yet, that has returned from its write with a number of bytes, or
    that has returned because `inode_extend` failed. -/
inductive WriterRole where
  | fresh
  | returned (w : Write) (n : Int)
  | refused (w : Write)

/-- The file system that the writers share.  `entered` is history: the disks on which
    `inode_extend` was called, the last one first. -/
structure SharedFs where
  fs : Fs SectorStore
  entered : List Disk

namespace SharedFs

variable {α : Type} (depth t a : Nat)

/-- What thread `t` runs, it runs as the current thread. -/
def asThread (x : Exec (Fs SectorStore) α) : Exec SharedFs α :=
  zoom SharedFs.fs (fun fs s => { s with fs := fs }) (do
    update (fun fs => { fs with current := t })
    x)

/-- One action of thread `t`. -/
def act (x : Exec (Fs SectorStore) α) : Prog SharedFs α := Prog.atomic (asThread t x)

/-- `inode_extend`. -/
def inodeExtend (num : Nat) : Prog SharedFs Bool :=
  Prog.atomic (do
    update (fun s => { s with entered := s.fs.image.disk :: s.entered })
    asThread t (Fs.inodeExtend (Fs.freeMapAllocate (depth + 1)) a num))

/-- The start of `inode_write_at`.  The length is read without the lock, with the lock, and once
    more for the number of blocks. -/
def makeRoom (newlen : Int) : Prog SharedFs (Option Bool) := do
  let length ← act t (Fs.inodeLength a)
  if newlen ≥ length then do
    act t (Fs.lockAcquire a)
    let length ← act t (Fs.inodeLength a)
    if newlen ≥ length then do
      let length ← act t (Fs.inodeLength a)
      let blocksNeeded := wrap (ceil newlen 512 - ceil length 512)
      let success ← inodeExtend depth t a (toUnsigned blocksNeeded)
      if success then pure (some true) else pure none
    else do
      act t (Fs.lockRelease a)
      pure (some false)
  else pure (some false)

/-- The loop of `inode_write_at`. -/
def writeChunks (buffer : Nat → UInt8) : Nat → Int → Int → Int → Prog SharedFs Int
  | 0, size, _, bytesWritten =>
    if size > 0 then act t (stop .fuel) else pure bytesWritten
  | fuel + 1, size, offset, bytesWritten =>
    if size > 0 then do
      let chunkSize ← act t (Fs.writeChunk a buffer size offset bytesWritten)
      if chunkSize ≤ 0 then pure bytesWritten
      else
        writeChunks buffer fuel (size - chunkSize) (wrap (offset + chunkSize))
          (bytesWritten + chunkSize)
    else pure bytesWritten

/-- The end of `inode_write_at`: an extended file gets its new length. -/
def finishWrite (newlen : Int) (locked : Bool) : Prog SharedFs Unit :=
  if locked then do
    act t (Fs.inodeSetLength a newlen)
    act t (Fs.lockRelease a)
  else pure ()

/-- `inode_write_at`. -/
def inodeWriteAt (w : Write) : Prog SharedFs WriterRole := do
  let inode ← act t (Fs.getInode a)
  if inode.denyWriteCnt ≠ 0 then pure (.returned w 0)
  else do
    let room ← makeRoom depth t a w.newlen
    match room with
    | none => pure (.refused w)
    | some locked => do
      let n ← writeChunks t a w.buffer w.size.toNat w.size w.offset 0
      finishWrite t a w.newlen locked
      pure (.returned w n)

end SharedFs

/-- Any threads that write to the inode at address `a`. -/
def writerSystem (depth a : Nat) : System Nat SharedFs Write WriterRole where
  code t w := SharedFs.inodeWriteAt depth t a w
  allowed r _ := match r with
    | .fresh => true
    | _ => false

/-- Nobody has called yet. -/
def writerPool (fs : Fs SectorStore) : Pool Nat SharedFs Write WriterRole where
  shared := { fs := fs, entered := [] }
  thread _ := .idle .fresh

/-- The thread that moves is not inside a write whose end is out of range. -/
def EndsFit (t : Nat) (q : Nat → Place Write WriterRole) : Prop :=
  match q t with
  | .idle _ => True
  | .inside w => w.Fits

instance (t : Nat) (q : Nat → Place Write WriterRole) : Decidable (EndsFit t q) := by
  unfold EndsFit
  split <;> infer_instance

end KernelSanders
