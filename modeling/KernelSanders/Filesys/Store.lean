import KernelSanders.Filesys.Cache

namespace KernelSanders

open Lib Lib.Exec

/-!
# What the file system asks of the disk and the cache

`inode.c` and `free-map.c` reach the disk through `block_clear` and the five functions of
`cache.h`.  `BlockStore` is that interface; the code of the file system is written once over it
and has two instances:

* `Cache` — the cache of `cache.c` over its device, where `block_clear` goes past the slots;
* `SectorStore` — a coherent store, where every access to a sector sees the last change of it,
  `block_clear` included.  It records the sectors it was asked for, newest first, so that one can
  speak about the sectors a call touches.
-/

/-- The operations on sectors.  `κ` is the type of a `struct cache_block *`. -/
class BlockStore (σ : Type) (κ : outParam Type) where
  /-- `block_size (fs_device)`. -/
  blockSize : σ → Nat
  blockClear : Nat → Exec σ Unit
  cacheReadBlock : Nat → Exec σ κ
  cacheReadEnd : κ → Exec σ Unit
  cacheWriteBlock : Nat → Exec σ κ
  cacheWriteEnd : κ → Exec σ Unit
  /-- The bytes `cache_block->data`. -/
  getData : κ → σ → Sector
  setData : κ → Sector → σ → σ

instance : BlockStore Cache Slot where
  blockSize c := c.device.size
  blockClear s := Cache.onDevice (KernelSanders.blockClear s)
  cacheReadBlock := Cache.cacheReadBlock
  cacheReadEnd := Cache.cacheReadEnd
  cacheWriteBlock := Cache.cacheWriteBlock
  cacheWriteEnd := Cache.cacheWriteEnd
  getData i c := (c.buffer i).data
  setData i d := Cache.setSlot i (fun blk => { blk with data := d })

/-- A coherent store of `size` sectors, each with the lock of its cache block. -/
structure SectorStore where
  size : Nat
  data : Nat → Sector
  lock : Nat → RwLock
  touched : List Nat

namespace SectorStore

/-- Record an access to sector `s`. -/
def visit (s : Nat) (st : SectorStore) : SectorStore := { st with touched := s :: st.touched }

/-- Replace the contents of sector `s`. -/
def put (s : Nat) (d : Sector) (st : SectorStore) : SectorStore :=
  { st with data := Function.update st.data s d }

/-- Change the lock of sector `s`, if that does not wait. -/
def onLock (s : Nat) (f : RwLock → Except Stop RwLock) : Exec SectorStore Unit := do
  let l ← read (fun st => st.lock s)
  match f l with
  | .ok l' => update (fun st => { st with lock := Function.update st.lock s l' })
  | .error e => stop e

/-- `block_clear`, visible to every later access. -/
def blockClear (s : Nat) : Exec SectorStore Unit := do
  let st ← read id
  assert (s < st.size) "Access past end of device"
  update (fun st => (st.put s Bytes.zero).visit s)

def cacheReadBlock (s : Nat) : Exec SectorStore Nat := do
  let st ← read id
  assert (s < st.size) "sector < block_size(fs_device)"
  update (visit s)
  onLock s RwLock.readBegin
  pure s

def cacheReadEnd (s : Nat) : Exec SectorStore Unit := onLock s (fun l => .ok l.readEnd)

def cacheWriteBlock (s : Nat) : Exec SectorStore Nat := do
  let s ← cacheReadBlock s
  onLock s RwLock.upgrade
  pure s

def cacheWriteEnd (s : Nat) : Exec SectorStore Unit := onLock s (fun l => .ok l.writeEnd)

end SectorStore

instance : BlockStore SectorStore Nat where
  blockSize st := st.size
  blockClear := SectorStore.blockClear
  cacheReadBlock := SectorStore.cacheReadBlock
  cacheReadEnd := SectorStore.cacheReadEnd
  cacheWriteBlock := SectorStore.cacheWriteBlock
  cacheWriteEnd := SectorStore.cacheWriteEnd
  getData s st := st.data s
  setData s d := SectorStore.put s d

end KernelSanders
