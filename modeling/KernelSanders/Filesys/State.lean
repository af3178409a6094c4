import KernelSanders.Filesys.Store
import KernelSanders.Kernel.Arith
import KernelSanders.Kernel.Bitmap

namespace KernelSanders

open Lib Lib.Exec

/-!
# The state of the file system

The store under it, the free map, and the heap objects of `inode.c`, `file.c` and `directory.c`.
A pointer to a heap object is the number of the allocation that made it, so an address is never
used twice; a freed object is gone, and an access to it is a `fault`.  `malloc n` tells whether
allocation number `n` succeeds.
-/

/-- `struct inode`.  The extension lock is held by a thread or free. -/
structure Inode where
  sector : Nat
  openCnt : Int
  removed : Bool
  denyWriteCnt : Int
  extensionLock : Option Nat

/-- `struct file`. -/
structure File where
  inode : Nat
  pos : Int
  denyWrite : Bool
  isDir : Bool

/-- `struct dir`. -/
structure Dir where
  inode : Nat
  pos : Int

/-- The state of the file system over a store `σ`, as the thread `current` sees it. -/
structure Fs (σ : Type) where
  store : σ
  freeMap : Bitmap
  freeMapFile : Option Nat
  openInodes : List Nat
  inodes : Nat → Option Inode
  files : Nat → Option File
  dirs : Nat → Option Dir
  brk : Nat
  malloc : Nat → Bool
  current : Nat
  workingDir : Nat

namespace Fs

variable {σ κ : Type}

/-! ### The parts of the state -/

def onStore {α : Type} (x : Exec σ α) : Exec (Fs σ) α :=
  zoom Fs.store (fun s fs => { fs with store := s }) x

def onFreeMap {α : Type} (x : Exec Bitmap α) : Exec (Fs σ) α :=
  zoom Fs.freeMap (fun b fs => { fs with freeMap := b }) x

/-- `*inode`. -/
def getInode (a : Nat) : Exec (Fs σ) Inode := do
  let o ← read (fun fs => fs.inodes a)
  match o with
  | some inode => pure inode
  | none => stop .fault

theorem getInode_run {fs : Fs σ} {a : Nat} {inode : Inode} (h : fs.inodes a = some inode) :
    (getInode a).run fs = .ok (inode, fs) := by
  rw [getInode, read_bind, h]
  rfl

/-- `*inode = …`, at an address that was just read. -/
def setInode (a : Nat) (inode : Inode) : Exec (Fs σ) Unit :=
  update (fun fs => { fs with inodes := Function.update fs.inodes a (some inode) })

/-- `lock_acquire (&inode->extension_lock)`. -/
def lockAcquire (a : Nat) : Exec (Fs σ) Unit := do
  let inode ← getInode a
  let cur ← read Fs.current
  assert (inode.extensionLock ≠ some cur) "!lock_held_by_current_thread(lock)"
  if inode.extensionLock = none then setInode a { inode with extensionLock := some cur }
  else stop .blocked

/-- `lock_release (&inode->extension_lock)`. -/
def lockRelease (a : Nat) : Exec (Fs σ) Unit := do
  let inode ← getInode a
  let cur ← read Fs.current
  assert (inode.extensionLock = some cur) "lock_held_by_current_thread(lock)"
  setInode a { inode with extensionLock := none }

/-- The next address, if `malloc` has memory left. -/
def allocate : Exec (Fs σ) (Option Nat) := do
  let fs ← read id
  update (fun fs => { fs with brk := fs.brk + 1 })
  if fs.malloc fs.brk then pure (some fs.brk) else pure none

/-- A `block_sector_t *` into the data of a cache block. -/
structure Ptr (κ : Type) where
  block : κ
  index : Nat

variable [BlockStore σ κ]

open BlockStore

/-- `cache_block->data`. -/
def dataOf (b : κ) : Exec (Fs σ) Sector := read (fun fs => getData b fs.store)

/-- Change `cache_block->data`. -/
def modifyData (b : κ) (f : Sector → Sector) : Exec (Fs σ) Unit :=
  update (fun fs => { fs with store := setData b (f (getData b fs.store)) fs.store })

/-- `*sector`. -/
def load (p : Ptr κ) : Exec (Fs σ) Nat := do
  let d ← dataOf p.block
  pure (d.word p.index)

/-- `*sector = v`. -/
def assign (p : Ptr κ) (v : Nat) : Exec (Fs σ) Unit := modifyData p.block (·.setWord p.index v)

end Fs

end KernelSanders
