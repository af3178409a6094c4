import KernelSanders.Devices.Block
import KernelSanders.Filesys.RwLock

namespace KernelSanders

open Lib Lib.Exec

/-!
# `filesys/cache.c` — the buffer cache, run sequentially

The 64 slots of `buffer` over the file system's device, with every branch of the lookup, the
scan for an invalid slot, the choice of a victim, and the write-back.  A pointer to a cache block
is the number of its slot.  The loops of the source run over the slots in order; each is a
recursion over the list of the slots still to be visited.
-/

/-- `CACHE_BLOCKS`. -/
def cacheBlocks : Nat := 64

/-- A cache slot, i.e. a `struct cache_block *`. -/
abbrev Slot : Type := Fin cacheBlocks

/-- `struct cache_block`. -/
structure CacheBlock where
  valid : Bool
  data : Sector
  sector : Nat
  recentAccesses : BitVec 64
  dirty : Bool
  accessed : Bool
  lock : RwLock

/-- The device, the cache over it, and the request to the read-ahead thread. -/
structure Cache where
  device : Device
  buffer : Slot → CacheBlock
  readAhead : Bool
  nextBlock : Nat

namespace Cache

/-- Change one slot. -/
def setSlot (i : Slot) (f : CacheBlock → CacheBlock) (c : Cache) : Cache :=
  { c with buffer := Function.update c.buffer i (f (c.buffer i)) }

/-- Change the lock of one slot, if that does not wait. -/
def onLock (i : Slot) (f : RwLock → Except Stop RwLock) : Exec Cache Unit := do
  let l ← read (fun c => (c.buffer i).lock)
  match f l with
  | .ok l' => update (setSlot i (fun blk => { blk with lock := l' }))
  | .error e => stop e

/-- Change the lock of one slot by an operation that may be refused. -/
def tryLock (i : Slot) (f : RwLock → Bool × RwLock) : Exec Cache Bool := do
  let l ← read (fun c => (c.buffer i).lock)
  update (setSlot i (fun blk => { blk with lock := (f l).2 }))
  pure (f l).1

/-- Run a device operation. -/
def onDevice {α : Type} (x : Exec Device α) : Exec Cache α :=
  zoom Cache.device (fun d c => { c with device := d }) x

/-- The state `cache_init` leaves behind; it does not touch the other fields of the slots. -/
def cacheInit (device : Device) (buffer : Slot → CacheBlock) (nextBlock : Nat) : Cache where
  device := device
  buffer := fun i => { buffer i with valid := false, sector := 0, lock := RwLock.free }
  readAhead := false
  nextBlock := nextBlock

/-! ### Locking a slot -/

def cacheReadBegin (i : Slot) : Exec Cache Unit := onLock i RwLock.readBegin

def cacheReadTry (i : Slot) : Exec Cache Bool := tryLock i RwLock.readTry

def cacheReadEnd (i : Slot) : Exec Cache Unit := onLock i (fun l => .ok l.readEnd)

def cacheWriteTry (i : Slot) : Exec Cache Bool := tryLock i RwLock.writeTry

def cacheUpgrade (i : Slot) : Exec Cache Unit := onLock i RwLock.upgrade

def cacheDowngrade (i : Slot) : Exec Cache Unit := onLock i RwLock.downgrade

/-- Releases the write lock *and* marks the block dirty, whoever the caller is. -/
def cacheWriteEnd (i : Slot) : Exec Cache Unit := do
  onLock i (fun l => .ok l.writeEnd)
  update (setSlot i (fun blk => { blk with dirty := true }))

/-! ### Finding a block -/

/-- `if (victim) cache_write_end(victim);` -/
def letGo : Option Slot → Exec Cache Unit
  | some v => cacheWriteEnd v
  | none => pure ()

/-- The loop of `cache_evict`: `victim` stays write-locked, everybody else is let go. -/
def evictEach : List Slot → Option Slot → BitVec 64 → Exec Cache (Option Slot)
  | [], victim, _ => pure victim
  | i :: is, victim, oldest => do
    if ← cacheWriteTry i then
      let temp ← read (fun c => c.buffer i)
      assert (temp.valid = true) "temp->valid"
      if temp.recentAccesses ≤ oldest then
        letGo victim
        evictEach is (some i) temp.recentAccesses
      else
        cacheWriteEnd i
        evictEach is victim oldest
    else evictEach is victim oldest

/-- `if (blk->dirty) block_write(fs_device, blk->sector, blk->data);` -/
def writeBack (i : Slot) : Exec Cache Unit := do
  let blk ← read (fun c => c.buffer i)
  if blk.dirty then onDevice (blockWrite blk.sector blk.data) else pure ()

/-- `cache_evict`. -/
def cacheEvict : Exec Cache Slot := do
  let victim ← evictEach (List.finRange cacheBlocks) none (BitVec.allOnes 64)
  match victim with
  | some v =>
    writeBack v
    pure v
  | none => stop (.panic "Cache is full and completely locked down!\n")

/-- The first loop of `find_block`: the slot whose sector number matches, read-locked.  The
    `valid` flag is not looked at. -/
def hitEach (sector : Nat) : List Slot → Exec Cache (Option Slot)
  | [] => pure none
  | i :: is => do
    let blk ← read (fun c => c.buffer i)
    if blk.sector = sector then
      cacheReadBegin i
      let blk ← read (fun c => c.buffer i)
      assert (blk.sector = sector) "buffer[i].sector == sector"
      pure (some i)
    else hitEach sector is

/-- The second loop of `find_block`: the first invalid slot, write-locked.  A valid slot that is
    passed over is unlocked with `cache_write_end`, which marks it dirty. -/
def freeEach : List Slot → Exec Cache (Option Slot)
  | [] => pure none
  | i :: is => do
    if ← cacheWriteTry i then
      let blk ← read (fun c => c.buffer i)
      if blk.valid then
        cacheWriteEnd i
        freeEach is
      else
        update (setSlot i (fun blk => { blk with valid := true }))
        pure (some i)
    else freeEach is

/-- A slot for a new block: an invalid one if there is one, else the victim's. -/
def takeSlot : Exec Cache Slot := do
  let free ← freeEach (List.finRange cacheBlocks)
  match free with
  | some i => pure i
  | none => cacheEvict

/-- The part of `find_block` that brings the sector into a slot. -/
def importBlock (sector : Nat) : Exec Cache Slot := do
  let i ← takeSlot
  let data ← onDevice (blockRead sector)
  update (setSlot i (fun blk =>
    { blk with data := data, sector := sector, dirty := false, recentAccesses := 0 }))
  cacheDowngrade i
  pure i

/-- The slot that holds the sector, read-locked, after a hit or an import. -/
def locateBlock (sector : Nat) : Exec Cache Slot := do
  let hit ← hitEach sector (List.finRange cacheBlocks)
  match hit with
  | some i => pure i
  | none => importBlock sector

/-- `find_block`. -/
def findBlock (sector : Nat) : Exec Cache Slot := do
  let size ← read (fun c => c.device.size)
  assert (sector < size) "sector < block_size(fs_device)"
  let i ← locateBlock sector
  update (fun c => { c with nextBlock := (sector + 1) % 2 ^ 32, readAhead := true })
  update (setSlot i (fun blk =>
    { blk with accessed := true, recentAccesses := blk.recentAccesses ||| (1#64 <<< 63) }))
  pure i

def cacheReadBlock (sector : Nat) : Exec Cache Slot := findBlock sector

def cacheWriteBlock (sector : Nat) : Exec Cache Slot := do
  let i ← findBlock sector
  cacheUpgrade i
  pure i

/-! ### The background threads -/

/-- Write a dirty block to the disk and mark it clean. -/
def cleanSlot (i : Slot) : Exec Cache Unit := do
  let blk ← read (fun c => c.buffer i)
  if blk.dirty then
    onDevice (blockWrite blk.sector blk.data)
    update (setSlot i (fun blk => { blk with dirty := false }))
  else pure ()

/-- The body of the loop of `refresh_cache`. -/
def refreshSlot (i : Slot) : Exec Cache Unit := do
  let blk ← read (fun c => c.buffer i)
  if blk.valid then
    if ← cacheReadTry i then
      cleanSlot i
      cacheReadEnd i
    else pure ()
  else pure ()

/-- The loop of `refresh_cache`. -/
def refreshEach : List Slot → Exec Cache Unit
  | [] => pure ()
  | i :: is => do
    refreshSlot i
    refreshEach is

/-- `refresh_cache`. -/
def refreshCache : Exec Cache Unit := refreshEach (List.finRange cacheBlocks)

/-- Clear the accessed bit, but only of a block that somebody accesses. -/
def clearAccessed (i : Slot) : Exec Cache Unit := do
  let l ← read (fun c => (c.buffer i).lock)
  if l.b > 0 then update (setSlot i (fun blk => { blk with accessed := false })) else pure ()

/-- The body of the loop of `update_accesses`. -/
def updateSlot (i : Slot) : Exec Cache Unit := do
  let blk ← read (fun c => c.buffer i)
  if blk.valid then
    if ← cacheReadTry i then
      update (setSlot i (fun blk => { blk with
        recentAccesses := (blk.recentAccesses >>> 1) |||
          ((if blk.accessed then 1#64 else 0#64) <<< 63) }))
      clearAccessed i
      cacheReadEnd i
    else pure ()
  else pure ()

/-- The loop of one pass of `update_accesses`. -/
def updateEach : List Slot → Exec Cache Unit
  | [] => pure ()
  | i :: is => do
    updateSlot i
    updateEach is

/-- One pass of `update_accesses`. -/
def updateAccesses : Exec Cache Unit := updateEach (List.finRange cacheBlocks)

/-- One iteration of `cache_read_ahead`.  The block found is never released. -/
def cacheReadAhead : Exec Cache Unit := do
  let c ← read id
  if c.readAhead then
    let _ ← findBlock c.nextBlock
    update (fun c => { c with readAhead := false })
  else pure ()

end Cache

end KernelSanders
