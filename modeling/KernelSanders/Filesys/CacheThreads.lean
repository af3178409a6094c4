import KernelSanders.Filesys.CacheInvariant
import KernelSanders.Filesys.RwLockExclusion

namespace KernelSanders

open Lib Lib.Exec

/-!
# `filesys/cache.c` — the buffer cache under concurrency

The functions of `cache.c` once more, now as code of a thread: every operation on the lock of a
slot, every test and assignment of a field of a slot and every transfer to or from the device is
an action of its own.  The import of a sector, the `block_read` and the assignment of the sector
number together, is one action.  There is no lock over the cache as a whole.

A thread has at most one section at a time; one that has several in the kernel is as many threads
here, because between its calls it holds neither `r` nor `extra` of any slot.
-/

variable {ι : Type}

/-- The cache with the holders of the locks `r` and `extra` of every slot. -/
structure SharedCache (ι : Type) where
  cache : Cache
  r : Slot → Option ι
  extra : Slot → Option ι

namespace SharedCache

/-- The whole lock of a slot. -/
def latch (i : Slot) (s : SharedCache ι) : Latch ι := ⟨s.r i, s.extra i, (s.cache.buffer i).lock⟩

def putLatch (i : Slot) (l : Latch ι) (s : SharedCache ι) : SharedCache ι where
  cache := Cache.setSlot i (fun blk => { blk with lock := l.lock }) s.cache
  r := Function.update s.r i l.r
  extra := Function.update s.extra i l.extra

/-- A function on the lock of a slot. -/
def onLatch {α : Type} (i : Slot) (x : Prog (Latch ι) α) : Prog (SharedCache ι) α :=
  x.zoom (latch i) (putLatch i)

/-- One action on the slots and the device. -/
def onCache {α : Type} (x : Exec Cache α) : Prog (SharedCache ι) α :=
  Prog.atomic (zoom SharedCache.cache (fun c s => { s with cache := c }) x)

/-- A look at a slot. -/
def look {α : Type} (i : Slot) (f : CacheBlock → α) : Prog (SharedCache ι) α :=
  onCache (read (fun c => f (c.buffer i)))

/-- An assignment to fields of a slot. -/
def setBlock (i : Slot) (f : CacheBlock → CacheBlock) : Prog (SharedCache ι) Unit :=
  onCache (update (Cache.setSlot i f))

/-- `block_write(fs_device, blk->sector, blk->data);` -/
def writeOut (i : Slot) : Prog (SharedCache ι) Unit :=
  onCache (do
    let blk ← read (fun c => c.buffer i)
    Cache.onDevice (blockWrite blk.sector blk.data))

/-- `block_read(fs_device, sector, cache_block->data); cache_block->sector = sector;` -/
def readIn (sector : Nat) (i : Slot) : Prog (SharedCache ι) Unit :=
  onCache (do
    let data ← Cache.onDevice (blockRead sector)
    update (Cache.setSlot i (fun blk => { blk with data := data, sector := sector })))

/-- `cache_write_end`: the semaphore first, the dirty bit afterwards. -/
def cacheWriteEnd (i : Slot) : Prog (SharedCache ι) Unit := do
  onLatch i Latch.cacheWriteEnd
  setBlock i (fun blk => { blk with dirty := true })

section Code

variable [DecidableEq ι] (t : ι)

/-- `ASSERT(buffer[i].sector == sector);` -/
def assertSector (sector : Nat) (i : Slot) : Prog (SharedCache ι) Unit :=
  onCache (do
    let blk ← read (fun c => c.buffer i)
    assert (blk.sector = sector) "buffer[i].sector == sector")

/-- The first loop of `find_block`. -/
def hitEach (sector : Nat) : List Slot → Prog (SharedCache ι) (Option Slot)
  | [] => pure none
  | i :: is => do
    let number ← look i (fun blk => blk.sector)
    if number = sector then do
      onLatch i (Latch.cacheReadBegin t)
      assertSector sector i
      pure (some i)
    else hitEach sector is

/-- The second loop of `find_block`. -/
def freeEach : List Slot → Prog (SharedCache ι) (Option Slot)
  | [] => pure none
  | i :: is => do
    let granted ← onLatch i Latch.cacheWriteTry
    if granted then do
      let valid ← look i (fun blk => blk.valid)
      if valid then do
        cacheWriteEnd i
        freeEach is
      else do
        setBlock i (fun blk => { blk with valid := true })
        pure (some i)
    else freeEach is

/-- `if (victim) cache_write_end(victim);` -/
def letGo : Option Slot → Prog (SharedCache ι) Unit
  | some v => cacheWriteEnd v
  | none => pure ()

/-- `ASSERT(temp->valid);` -/
def assertValid (i : Slot) : Prog (SharedCache ι) Unit :=
  onCache (do
    let blk ← read (fun c => c.buffer i)
    assert (blk.valid = true) "temp->valid")

/-- The loop of `cache_evict`. -/
def evictEach : List Slot → Option Slot → BitVec 64 → Prog (SharedCache ι) (Option Slot)
  | [], victim, _ => pure victim
  | i :: is, victim, oldest => do
    let granted ← onLatch i Latch.cacheWriteTry
    if granted then do
      assertValid i
      let accesses ← look i (fun blk => blk.recentAccesses)
      if accesses ≤ oldest then do
        letGo victim
        evictEach is (some i) accesses
      else do
        cacheWriteEnd i
        evictEach is victim oldest
    else evictEach is victim oldest

/-- `if (blk->dirty) block_write(fs_device, blk->sector, blk->data);` -/
def writeBack (i : Slot) : Prog (SharedCache ι) Unit := do
  let dirty ← look i (fun blk => blk.dirty)
  if dirty then writeOut i else pure ()

/-- What `cache_evict` does with the victim it found. -/
def evictVictim : Option Slot → Prog (SharedCache ι) Slot
  | some v => do
    writeBack v
    pure v
  | none => onCache (stop (.panic "Cache is full and completely locked down!\n"))

/-- `cache_evict`. -/
def cacheEvict : Prog (SharedCache ι) Slot := do
  let victim ← evictEach (List.finRange cacheBlocks) none (BitVec.allOnes 64)
  evictVictim victim

/-- A slot for a new block. -/
def takeSlot : Prog (SharedCache ι) Slot := do
  let free ← freeEach (List.finRange cacheBlocks)
  match free with
  | some i => pure i
  | none => cacheEvict

/-- The part of `find_block` that brings the sector into a slot. -/
def importBlock (sector : Nat) : Prog (SharedCache ι) Slot := do
  let i ← takeSlot
  readIn sector i
  setBlock i (fun blk => { blk with dirty := false })
  setBlock i (fun blk => { blk with recentAccesses := 0 })
  onLatch i (Latch.cacheDowngrade t)
  pure i

/-- The slot that holds the sector, after a hit or an import. -/
def locateBlock (sector : Nat) : Prog (SharedCache ι) Slot := do
  let hit ← hitEach t sector (List.finRange cacheBlocks)
  match hit with
  | some i => pure i
  | none => importBlock t sector

/-- `ASSERT(sector < block_size(fs_device));` -/
def assertInside (sector : Nat) : Prog (SharedCache ι) Unit :=
  onCache (do
    let size ← read (fun c => c.device.size)
    assert (sector < size) "sector < block_size(fs_device)")

/-- `find_block`. -/
def findBlock (sector : Nat) : Prog (SharedCache ι) Slot := do
  assertInside sector
  let i ← locateBlock t sector
  onCache (update (fun c => { c with nextBlock := (sector + 1) % 2 ^ 32, readAhead := true }))
  setBlock i (fun blk =>
    { blk with accessed := true, recentAccesses := blk.recentAccesses ||| (1#64 <<< 63) })
  pure i

/-- Write a dirty block to the disk and mark it clean. -/
def cleanSlot (i : Slot) : Prog (SharedCache ι) Unit := do
  let dirty ← look i (fun blk => blk.dirty)
  if dirty then do
    writeOut i
    setBlock i (fun blk => { blk with dirty := false })
  else pure ()

/-- The body of the loop of `refresh_cache`. -/
def refreshSlot (i : Slot) : Prog (SharedCache ι) Unit := do
  let valid ← look i (fun blk => blk.valid)
  if valid then do
    let granted ← onLatch i (Latch.cacheReadTry t)
    if granted then do
      cleanSlot i
      onLatch i (Latch.cacheReadEnd t)
    else pure ()
  else pure ()

/-- The loop of `refresh_cache`. -/
def refreshEach : List Slot → Prog (SharedCache ι) Unit
  | [] => pure ()
  | i :: is => do
    refreshSlot t i
    refreshEach is

end Code

end SharedCache

/-! ### The calls of the threads -/

/-- What a thread does next: find a block, end its read section, upgrade to a write section, put
    new contents into the block, end its write section, or a pass of `refresh_cache`.  The slot,
    the sector and the contents written last are those of its section. -/
inductive CacheCall where
  | find (sector : Nat)
  | readEnd (i : Slot) (sector : Nat)
  | upgrade (i : Slot) (sector : Nat)
  | change (i : Slot) (sector : Nat) (data : Sector)
  | writeEnd (i : Slot) (sector : Nat) (data : Sector)
  | refresh
  deriving DecidableEq

/-- The section a thread is in: the slot it got, the sector it asked for, and what it has
    written. -/
inductive CacheRole where
  | out
  | reading (i : Slot) (sector : Nat)
  | writing (i : Slot) (sector : Nat)
  | wrote (i : Slot) (sector : Nat) (data : Sector)
  deriving DecidableEq

namespace CacheCall

/-- A read section is `find`, `readEnd`; a write section is `find`, `upgrade`, one or more
    `change`, `writeEnd`. -/
def code [DecidableEq ι] (t : ι) : CacheCall → Prog (SharedCache ι) CacheRole
  | find sector => do
    let i ← SharedCache.findBlock t sector
    pure (.reading i sector)
  | readEnd i _ => do
    SharedCache.onLatch i (Latch.cacheReadEnd t)
    pure .out
  | upgrade i sector => do
    SharedCache.onLatch i (Latch.cacheUpgrade t)
    pure (.writing i sector)
  | change i sector data => do
    SharedCache.setBlock i (fun blk => { blk with data := data })
    pure (.wrote i sector data)
  | writeEnd i _ _ => do
    SharedCache.cacheWriteEnd i
    pure .out
  | refresh => do
    SharedCache.refreshEach t (List.finRange cacheBlocks)
    pure .out

end CacheCall

/-- A section goes on with its own slot and sector. -/
def CacheRole.mayCall : CacheRole → CacheCall → Bool
  | .out, .find _ => true
  | .out, .refresh => true
  | .reading i s, .readEnd i' s' => i = i' && s = s'
  | .reading i s, .upgrade i' s' => i = i' && s = s'
  | .writing i s, .change i' s' _ => i = i' && s = s'
  | .wrote i s _, .change i' s' _ => i = i' && s = s'
  | .wrote i s d, .writeEnd i' s' d' => i = i' && s = s' && d = d'
  | _, _ => false

/-- Any threads on one cache. -/
def cacheSystem [DecidableEq ι] : System ι (SharedCache ι) CacheCall CacheRole where
  code := CacheCall.code
  allowed := CacheRole.mayCall

/-- Nobody is in a section. -/
def cachePool (c : Cache) : Pool ι (SharedCache ι) CacheCall CacheRole where
  shared := { cache := c, r := fun _ => none, extra := fun _ => none }
  thread _ := .idle .out

end KernelSanders
