import KernelSanders.Filesys.State

namespace KernelSanders

open Lib Lib.Exec
open Bitmap

namespace Fs

open BlockStore

/-!
# `filesys/inode.c` and `filesys/free-map.c`

The two files call each other: an inode grows by sectors of the free map, and every change of the
free map is written to a file.  Everything that may allocate is therefore written over the
`freeMapAllocate` it uses, and `freeMapAllocate` itself is defined at the end by recursion on the
depth of the nesting.  The write of the free map never extends its file, so a nesting depth of one
is enough; running deeper than the given depth is the `fuel` stop.

`struct inode_disk` overlays the words of its sector: `direct` is words `0 … 59`,
`single_indirect` words `60 … 99`, `double_indirect` word `100`, then `length` and `magic`.
-/

def inodeMagic : Nat := 0x494e4f44
def numDirect : Nat := 60
def numSingleIndirect : Nat := 40
def entriesPerSector : Nat := 128

/-- Word number of `double_indirect`. -/
def doubleIndirect : Nat := 100
/-- Word number of `length`. -/
def lengthWord : Nat := 101
/-- Word number of `magic`. -/
def magicWord : Nat := 102

/-- `inode_disk->length`. -/
def diskLength (d : Sector) : Int := wrap (d.word lengthWord)

/-- `is_valid_inode`. -/
def isValidInode (d : Sector) : Prop := d.word magicWord = inodeMagic

instance (d : Sector) : Decidable (isValidInode d) :=
  inferInstanceAs (Decidable (d.word magicWord = inodeMagic))

variable {σ κ : Type} [BlockStore σ κ]

/-! ### Lookup and length -/

/-- The part of `byte_to_sector` behind the direct blocks; `blocks` no longer counts those. -/
def indirectSector (cacheBlock : κ) (data : Sector) (blocks : Nat) : Exec (Fs σ) Nat := do
  let single := blocks / entriesPerSector
  let blocks := blocks % entriesPerSector
  if single < numSingleIndirect then
    let indirectBlock ← onStore (cacheReadBlock (data.word (numDirect + single)))
    let singleData ← dataOf indirectBlock
    onStore (cacheReadEnd indirectBlock)
    onStore (cacheReadEnd cacheBlock)
    pure (singleData.word blocks)
  else
    let single := single - numSingleIndirect
    assert (single < entriesPerSector) "single < ENTRIES_PER_SECTOR"
    let indirectBlock ← onStore (cacheReadBlock (data.word doubleIndirect))
    let doubleData ← dataOf indirectBlock
    let indirectBlock2 ← onStore (cacheReadBlock (doubleData.word single))
    let singleData ← dataOf indirectBlock2
    onStore (cacheReadEnd indirectBlock2)
    onStore (cacheReadEnd indirectBlock)
    onStore (cacheReadEnd cacheBlock)
    pure (singleData.word blocks)

/-- `byte_to_sector`. -/
def byteToSector (a : Nat) (pos : Int) : Exec (Fs σ) Nat := do
  let inode ← getInode a
  let blocks := toUnsigned (pos.tdiv 512)
  let cacheBlock ← onStore (cacheReadBlock inode.sector)
  let data ← dataOf cacheBlock
  if isValidInode data then
    if blocks < numDirect then
      onStore (cacheReadEnd cacheBlock)
      pure (data.word blocks)
    else indirectSector cacheBlock data (blocks - numDirect)
  else stop (.panic "nooo")

/-- `inode_length`. -/
def inodeLength (a : Nat) : Exec (Fs σ) Int := do
  let inode ← getInode a
  let cacheBlock ← onStore (cacheReadBlock inode.sector)
  let data ← dataOf cacheBlock
  onStore (cacheReadEnd cacheBlock)
  pure (diskLength data)

/-- `inode_set_length`. -/
def inodeSetLength (a : Nat) (length : Int) : Exec (Fs σ) Unit := do
  let inode ← getInode a
  let cacheBlock ← onStore (cacheWriteBlock inode.sector)
  modifyData cacheBlock (·.setWord lengthWord (toUnsigned length))
  onStore (cacheWriteEnd cacheBlock)

/-! ### Reading and writing the data -/

/-- One round of the loop of `inode_read_at`: how many bytes of the sector to copy, and the
    sector and the offset to copy them from. -/
def readChunk (a : Nat) (size offset : Int) : Exec (Fs σ) (Nat × Int × Int) := do
  let sectorIdx ← byteToSector a offset
  let sectorOfs := offset.tmod 512
  let length ← inodeLength a
  let inodeLeft := wrap (length - offset)
  let sectorLeft := 512 - sectorOfs
  let minLeft := if inodeLeft < sectorLeft then inodeLeft else sectorLeft
  pure (sectorIdx, sectorOfs, if size < minLeft then size else minLeft)

/-- The loop of `inode_read_at`.  A `memcpy` from in front of the block is a `fault`. -/
def readLoop (a : Nat) : Nat → (Nat → UInt8) → Int → Int → Int → Exec (Fs σ) (Int × (Nat → UInt8))
  | 0, buffer, size, _, bytesRead =>
    if size > 0 then stop .fuel else pure (bytesRead, buffer)
  | fuel + 1, buffer, size, offset, bytesRead =>
    if size > 0 then do
      let (sectorIdx, sectorOfs, chunkSize) ← readChunk a size offset
      if chunkSize ≤ 0 then pure (bytesRead, buffer)
      else
        let cacheBlock ← onStore (cacheReadBlock sectorIdx)
        let data ← dataOf cacheBlock
        if sectorOfs < 0 then stop .fault
        else
          onStore (cacheReadEnd cacheBlock)
          readLoop a fuel
            (fun j => if bytesRead ≤ j ∧ j < bytesRead + chunkSize
              then data.byte (sectorOfs + (j - bytesRead)).toNat else buffer j)
            (size - chunkSize) (wrap (offset + chunkSize)) (bytesRead + chunkSize)
    else pure (bytesRead, buffer)

/-- `inode_read_at`: the number of bytes read and the caller's buffer afterwards. -/
def inodeReadAt (a : Nat) (buffer : Nat → UInt8) (size offset : Int) :
    Exec (Fs σ) (Int × (Nat → UInt8)) :=
  readLoop a size.toNat buffer size offset 0

/-- The loop of `inode_write_at`.  A `memcpy` to in front of the block is a `fault`. -/
def writeLoop (a : Nat) (buffer : Nat → UInt8) : Nat → Int → Int → Int → Exec (Fs σ) Int
  | 0, size, _, bytesWritten => if size > 0 then stop .fuel else pure bytesWritten
  | fuel + 1, size, offset, bytesWritten =>
    if size > 0 then do
      let sectorIdx ← byteToSector a offset
      let sectorOfs := offset.tmod 512
      let minLeft := 512 - sectorOfs
      let chunkSize := if size < minLeft then size else minLeft
      if chunkSize ≤ 0 then pure bytesWritten
      else
        let cacheBlock ← onStore (cacheWriteBlock sectorIdx)
        if sectorOfs < 0 then stop .fault
        else
          modifyData cacheBlock (·.copyIn sectorOfs.toNat chunkSize.toNat
            (fun j => buffer (bytesWritten.toNat + j)))
          onStore (cacheWriteEnd cacheBlock)
          writeLoop a buffer fuel (size - chunkSize) (wrap (offset + chunkSize))
            (bytesWritten + chunkSize)
    else pure bytesWritten

/-- One round of the loop of `inode_write_at`, as a function: the size of the chunk, which is not
    positive if the loop ends here. -/
def writeChunk (a : Nat) (buffer : Nat → UInt8) (size offset bytesWritten : Int) :
    Exec (Fs σ) Int := do
  let sectorIdx ← byteToSector a offset
  let sectorOfs := offset.tmod 512
  let minLeft := 512 - sectorOfs
  let chunkSize := if size < minLeft then size else minLeft
  if chunkSize ≤ 0 then pure chunkSize
  else
    let cacheBlock ← onStore (cacheWriteBlock sectorIdx)
    if sectorOfs < 0 then stop .fault
    else
      modifyData cacheBlock (·.copyIn sectorOfs.toNat chunkSize.toNat
        (fun j => buffer (bytesWritten.toNat + j)))
      onStore (cacheWriteEnd cacheBlock)
      pure chunkSize

/-- The loop does one round after the other. -/
theorem writeLoop_succ (a : Nat) (buffer : Nat → UInt8) (fuel : Nat)
    (size offset bytesWritten : Int) :
    (writeLoop a buffer (fuel + 1) size offset bytesWritten : Exec (Fs σ) Int) =
      if size > 0 then
        writeChunk a buffer size offset bytesWritten >>= fun chunkSize =>
          if chunkSize ≤ 0 then pure bytesWritten
          else writeLoop a buffer fuel (size - chunkSize) (wrap (offset + chunkSize))
            (bytesWritten + chunkSize)
      else pure bytesWritten := by
  rw [writeLoop]
  simp only [writeChunk, bind_assoc]
  split
  · congr 1
    funext sectorIdx
    generalize (if size < 512 - offset.tmod 512 then size else 512 - offset.tmod 512) = chunkSize
    by_cases hc : chunkSize ≤ 0
    · simp only [if_pos hc, LawfulMonad.pure_bind]
    · simp only [if_neg hc, bind_assoc]
      congr 1
      funext cacheBlock
      by_cases hofs : offset.tmod 512 < 0
      · rw [if_pos hofs, if_pos hofs]
        rfl
      · simp only [if_neg hofs, bind_assoc, LawfulMonad.pure_bind, if_neg hc]
  · rfl

/-! ### Growing and creating, over the allocator -/

section Allocator

variable (freeMapAllocate : Exec (Fs σ) (Option Nat))

/-- `free_map_allocate (sector)` followed by `block_clear` of what it stored. -/
def allocateCleared (p : Ptr κ) : Exec (Fs σ) Bool := do
  let o ← freeMapAllocate
  match o with
  | none => pure false
  | some s =>
    assign p s
    onStore (BlockStore.blockClear s)
    pure true

/-- `grow_direct`. -/
def growDirect (sector : Ptr κ) : Exec (Fs σ) Bool := do
  let s ← load sector
  assert (s = 0) "*sector == 0"
  allocateCleared freeMapAllocate sector

/-- `if (index == 0) { if (!grow_direct (sector)) return false; }` -/
def growFirst (sector : Ptr κ) (index : Nat) : Exec (Fs σ) Bool :=
  if index = 0 then growDirect freeMapAllocate sector else pure true

/-- `grow_indirect`.  The early return keeps the write lock of the index block. -/
def growIndirect (sector : Ptr κ) (index : Nat) : Exec (Fs σ) Bool := do
  if ← growFirst freeMapAllocate sector index then
    let s ← load sector
    let cacheBlock ← onStore (cacheWriteBlock s)
    assert (index < entriesPerSector) "index < ENTRIES_PER_SECTOR"
    if ← growDirect freeMapAllocate ⟨cacheBlock, index⟩ then
      onStore (cacheWriteEnd cacheBlock)
      pure true
    else pure false
  else pure false

/-- `grow_double_indirect`.  Note the guard: the double indirect block is allocated whenever
    `index1` is `0`, whatever `index2` is. -/
def growDoubleIndirect (sector : Ptr κ) (index1 index2 : Nat) : Exec (Fs σ) Bool := do
  if ← growFirst freeMapAllocate sector index1 then
    let s ← load sector
    let cacheBlock ← onStore (cacheWriteBlock s)
    assert (index1 < entriesPerSector) "index1 < ENTRIES_PER_SECTOR"
    if ← growIndirect freeMapAllocate ⟨cacheBlock, index1⟩ index2 then
      onStore (cacheWriteEnd cacheBlock)
      pure true
    else pure false
  else pure false

/-- The body of the loop of `inode_extend`: add block number `blocks`. -/
def growBlock (cacheBlock : κ) (blocks : Nat) : Exec (Fs σ) Bool :=
  if blocks < numDirect then growDirect freeMapAllocate ⟨cacheBlock, blocks⟩
  else
    let blocks := blocks - numDirect
    let single := blocks / entriesPerSector
    let blocks := blocks % entriesPerSector
    if single < numSingleIndirect then
      growIndirect freeMapAllocate ⟨cacheBlock, numDirect + single⟩ blocks
    else
      growDoubleIndirect freeMapAllocate ⟨cacheBlock, doubleIndirect⟩
        (single - numSingleIndirect) blocks

/-- The loop of `inode_extend`. -/
def extendLoop (cacheBlock : κ) : Nat → Nat → Exec (Fs σ) Bool
  | 0, _ => pure true
  | num + 1, numBlocks => do
    let blocks := (numBlocks + 1) % 2 ^ 32
    if ← growBlock freeMapAllocate cacheBlock blocks then extendLoop cacheBlock num blocks
    else pure false

/-- `inode_extend`. -/
def inodeExtend (a : Nat) (num : Nat) : Exec (Fs σ) Bool := do
  let inode ← getInode a
  let cacheBlock ← onStore (cacheWriteBlock inode.sector)
  let data ← dataOf cacheBlock
  assert (isValidInode data) "is_valid_inode(data)"
  let numBlocks := toUnsigned (ceil (diskLength data) 512 - 1)
  let success ← extendLoop freeMapAllocate cacheBlock num numBlocks
  onStore (cacheWriteEnd cacheBlock)
  pure success

/-- `allocate_direct`: the length left to allocate, or `none` for `false`. -/
def allocateDirect (sector : Ptr κ) (length : Int) : Exec (Fs σ) (Option Int) := do
  assert (length > 0) "*length > 0"
  let s ← load sector
  assert (s = 0) "*sector == 0"
  if ← allocateCleared freeMapAllocate sector then pure (some (length - 512)) else pure none

/-- The loop of the two index allocators over the entries of the block: it stops after the entry
    that used up the length. -/
def allocateEach (step : Ptr κ → Int → Exec (Fs σ) (Option Int)) (cacheBlock : κ) :
    List Nat → Int → Exec (Fs σ) (Option Int)
  | [], length => pure (some length)
  | i :: is, length => do
    let o ← step ⟨cacheBlock, i⟩ length
    match o with
    | none => pure none
    | some length =>
      if length ≤ 0 then pure (some length) else allocateEach step cacheBlock is length

/-- The body of `allocate_indirect` and `allocate_double_indirect`, which differ in what an entry
    is.  The early return keeps the write lock of the index block. -/
def allocateIndex (step : Ptr κ → Int → Exec (Fs σ) (Option Int)) (sector : Ptr κ)
    (length : Int) : Exec (Fs σ) (Option Int) := do
  assert (length > 0) "*length > 0"
  if ← allocateCleared freeMapAllocate sector then
    let s ← load sector
    let cacheBlock ← onStore (cacheWriteBlock s)
    let o ← allocateEach step cacheBlock (List.range entriesPerSector) length
    match o with
    | none => pure none
    | some length =>
      onStore (cacheWriteEnd cacheBlock)
      pure (some length)
  else pure none

def allocateIndirect : Ptr κ → Int → Exec (Fs σ) (Option Int) :=
  allocateIndex freeMapAllocate (allocateDirect freeMapAllocate)

def allocateDoubleIndirect : Ptr κ → Int → Exec (Fs σ) (Option Int) :=
  allocateIndex freeMapAllocate (allocateIndirect freeMapAllocate)

/-- The first two loops of `inode_create`: they look at the length before each entry. -/
def createEach (step : Ptr κ → Int → Exec (Fs σ) (Option Int)) (cacheBlock : κ) :
    List Nat → Int → Exec (Fs σ) (Option Int)
  | [], length => pure (some length)
  | i :: is, length =>
    if length ≤ 0 then pure (some length)
    else do
      let o ← step ⟨cacheBlock, i⟩ length
      match o with
      | none => pure none
      | some length => createEach step cacheBlock is length

/-- `if (length > 0 && !allocate_double_indirect (…)) return false;` -/
def createDouble (cacheBlock : κ) (length : Int) : Exec (Fs σ) (Option Int) :=
  if length > 0 then allocateDoubleIndirect freeMapAllocate ⟨cacheBlock, doubleIndirect⟩ length
  else pure (some length)

/-- The three tiers of `inode_create`. -/
def createBlocks (cacheBlock : κ) (length : Int) : Exec (Fs σ) (Option Int) := do
  let o ← createEach (allocateDirect freeMapAllocate) cacheBlock (List.range numDirect) length
  match o with
  | none => pure none
  | some length =>
    let o ← createEach (allocateIndirect freeMapAllocate) cacheBlock
      (List.range' numDirect numSingleIndirect) length
    match o with
    | none => pure none
    | some length => createDouble freeMapAllocate cacheBlock length

/-- `inode_create`.  The early returns keep the write lock of the inode's block. -/
def inodeCreate (sector : Nat) (length : Int) : Exec (Fs σ) Bool := do
  assert (length ≥ 0) "length >= 0"
  onStore (BlockStore.blockClear sector)
  let cacheBlock ← onStore (cacheWriteBlock sector)
  modifyData cacheBlock (fun d =>
    (d.setWord lengthWord (toUnsigned length)).setWord magicWord inodeMagic)
  let o ← createBlocks freeMapAllocate cacheBlock length
  match o with
  | none => pure false
  | some _ =>
    onStore (cacheWriteEnd cacheBlock)
    pure true

/-- The start of `inode_write_at`: take the extension lock and make room if the write reaches
    the end of the file.  `none` is the early `return 0`, with the lock still held. -/
def makeRoom (a : Nat) (newlen : Int) : Exec (Fs σ) (Option Bool) := do
  let length ← inodeLength a
  if newlen ≥ length then
    lockAcquire a
    let length ← inodeLength a
    if newlen ≥ length then
      let length ← inodeLength a
      let blocksNeeded := wrap (ceil newlen 512 - ceil length 512)
      if ← inodeExtend freeMapAllocate a (toUnsigned blocksNeeded) then pure (some true)
      else pure none
    else
      lockRelease a
      pure (some false)
  else pure (some false)

/-- `inode_write_at`. -/
def inodeWriteAt (a : Nat) (buffer : Nat → UInt8) (size offset : Int) : Exec (Fs σ) Int := do
  let inode ← getInode a
  let newlen := wrap (size + offset)
  if inode.denyWriteCnt ≠ 0 then pure 0
  else
    let o ← makeRoom freeMapAllocate a newlen
    match o with
    | none => pure 0
    | some locked =>
      let bytesWritten ← writeLoop a buffer size.toNat size offset 0
      if locked then
        inodeSetLength a newlen
        lockRelease a
        pure bytesWritten
      else pure bytesWritten

/-! ### The file of the free map -/

/-- `*file`. -/
def getFile (f : Nat) : Exec (Fs σ) File := do
  let o ← read (fun fs => fs.files f)
  match o with
  | some file => pure file
  | none => stop .fault

/-- `bitmap_write (free_map, file)`, where `file` may be null. -/
def bitmapWrite (file : Option Nat) : Exec (Fs σ) Bool := do
  let b ← read Fs.freeMap
  match file with
  | none => stop .fault
  | some f =>
    let file ← getFile f
    let size := wrap (byteCnt b.bitCnt)
    let written ← inodeWriteAt freeMapAllocate file.inode b.bytes size 0
    pure (written = size)

/-- The part of `free_map_allocate` that saves the map: the sector, or `BITMAP_ERROR`. -/
def saveFreeMap (sector : Nat) : Exec (Fs σ) Nat := do
  let file ← read Fs.freeMapFile
  if sector ≠ bitmapError ∧ file ≠ none then
    if ← bitmapWrite freeMapAllocate file then pure sector
    else
      onFreeMap (bitmapSetMultiple sector 1 false)
      pure bitmapError
  else pure sector

/-- The body of `free_map_allocate`: the sector stored, or `none`. -/
def allocateSector : Exec (Fs σ) (Option Nat) := do
  let sector ← onFreeMap (bitmapScanAndFlip 0 1 false)
  let sector ← saveFreeMap freeMapAllocate sector
  if sector ≠ bitmapError then pure (some sector) else pure none

end Allocator

/-- `free_map_allocate`, with saves nested at most `depth` deep. -/
def freeMapAllocate : Nat → Exec (Fs σ) (Option Nat)
  | 0 => stop .fuel
  | depth + 1 => allocateSector (freeMapAllocate depth)

/-- `free_map_release`. -/
def freeMapRelease (depth : Nat) (sector : Nat) : Exec (Fs σ) Unit := do
  let all ← onFreeMap (bitmapAll sector 1)
  assert (all = true) "bitmap_all(free_map, sector, 1)"
  onFreeMap (bitmapSetMultiple sector 1 false)
  let file ← read Fs.freeMapFile
  let _ ← bitmapWrite (freeMapAllocate depth) file
  pure ()

/-! ### Freeing -/

/-- `free_direct`: the length left to free. -/
def freeDirect (depth : Nat) (sector : Nat) (length : Int) : Exec (Fs σ) Int := do
  assert (length > 0) "*length > 0"
  freeMapRelease depth sector
  pure (length - 512)

/-- The loop of the two index functions over the entries of the block.  The entry is read from
    the block each time, and the loop stops after the entry that used up the length. -/
def freeEach (step : Nat → Int → Exec (Fs σ) Int) (cacheBlock : κ) :
    List Nat → Int → Exec (Fs σ) Int
  | [], length => pure length
  | i :: is, length => do
    let s ← load ⟨cacheBlock, i⟩
    let length ← step s length
    if length ≤ 0 then pure length else freeEach step cacheBlock is length

/-- The body of `free_indirect` and `free_double_indirect`, which differ in what an entry is. -/
def freeIndex (depth : Nat) (step : Nat → Int → Exec (Fs σ) Int) (sector : Nat) (length : Int) :
    Exec (Fs σ) Int := do
  assert (length > 0) "*length > 0"
  let cacheBlock ← onStore (cacheReadBlock sector)
  let length ← freeEach step cacheBlock (List.range entriesPerSector) length
  onStore (cacheReadEnd cacheBlock)
  freeMapRelease depth sector
  pure length

def freeIndirect (depth : Nat) : Nat → Int → Exec (Fs σ) Int :=
  freeIndex depth (freeDirect depth)

def freeDoubleIndirect (depth : Nat) : Nat → Int → Exec (Fs σ) Int :=
  freeIndex depth (freeIndirect depth)

/-- The first two loops of the deallocation in `inode_close`: they look at the length before each
    entry. -/
def closeEach (step : Nat → Int → Exec (Fs σ) Int) (cacheBlock : κ) :
    List Nat → Int → Exec (Fs σ) Int
  | [], length => pure length
  | i :: is, length =>
    if length ≤ 0 then pure length
    else do
      let s ← load ⟨cacheBlock, i⟩
      let length ← step s length
      closeEach step cacheBlock is length

/-- `if (length > 0) free_double_indirect (…);` -/
def closeDouble (depth : Nat) (cacheBlock : κ) (length : Int) : Exec (Fs σ) Int :=
  if length > 0 then do
    let s ← load ⟨cacheBlock, doubleIndirect⟩
    freeDoubleIndirect depth s length
  else pure length

/-- The deallocation of the blocks of a removed inode in `inode_close`. -/
def freeBlocks (depth : Nat) (sector : Nat) : Exec (Fs σ) Unit := do
  let cacheBlock ← onStore (cacheReadBlock sector)
  let data ← dataOf cacheBlock
  let length ← closeEach (freeDirect depth) cacheBlock (List.range numDirect) (diskLength data)
  let length ← closeEach (freeIndirect depth) cacheBlock
    (List.range' numDirect numSingleIndirect) length
  let _ ← closeDouble depth cacheBlock length
  onStore (cacheReadEnd cacheBlock)
  freeMapRelease depth sector

/-! ### Opening, closing, removing -/

/-- `inode_reopen`. -/
def inodeReopen (a : Nat) : Exec (Fs σ) Nat := do
  let inode ← getInode a
  setInode a { inode with openCnt := wrap (inode.openCnt + 1) }
  pure a

/-- The search of `inode_open` in the list of open inodes. -/
def findOpen (sector : Nat) : List Nat → Exec (Fs σ) (Option Nat)
  | [] => pure none
  | a :: as => do
    let inode ← getInode a
    if inode.sector = sector then pure (some a) else findOpen sector as

/-- A new in-memory inode at the front of the list. -/
def newInode (sector : Nat) : Exec (Fs σ) (Option Nat) := do
  let o ← allocate
  match o with
  | none => pure none
  | some a =>
    update (fun fs => { fs with openInodes := a :: fs.openInodes })
    setInode a { sector := sector, openCnt := 1, removed := false, denyWriteCnt := 0,
                 extensionLock := none }
    pure (some a)

/-- `inode_open`. -/
def inodeOpen (sector : Nat) : Exec (Fs σ) (Option Nat) := do
  let l ← read Fs.openInodes
  let o ← findOpen sector l
  match o with
  | some a => do
    let a ← inodeReopen a
    pure (some a)
  | none => newInode sector

/-- `inode_remove`. -/
def inodeRemove (a : Nat) : Exec (Fs σ) Unit := do
  let inode ← getInode a
  setInode a { inode with removed := true }

/-- `if (inode->removed) …`: the blocks and the sector of the inode are given back. -/
def freeIfRemoved (depth : Nat) (inode : Inode) : Exec (Fs σ) Unit :=
  if inode.removed then freeBlocks depth inode.sector else pure ()

/-- `inode_close`, for a pointer that may be null. -/
def inodeClose (depth : Nat) : Option Nat → Exec (Fs σ) Unit
  | none => pure ()
  | some a => do
    let inode ← getInode a
    let cnt := wrap (inode.openCnt - 1)
    setInode a { inode with openCnt := cnt }
    if cnt = 0 then
      update (fun fs => { fs with openInodes := fs.openInodes.erase a })
      freeIfRemoved depth inode
      update (fun fs => { fs with inodes := Function.update fs.inodes a none })
    else pure ()

end Fs

end KernelSanders
