import KernelSanders.Vm.State

namespace KernelSanders

open Lib Lib.Exec

namespace Vm

variable {π : Type}

/-!
# `vm/swap.c`, `vm/frame.c` and `vm/page.c`

The functions as the code has them.  A call is one step here, so `frame_lock` is free before and
after it and does not appear.
-/

/-! ### `swap.c` -/

/-- `block_sector_num`. -/
def blockSectorNum (swapIndex : Nat) : Nat := 8 * swapIndex

/-- The number of slots: `block_size (swap_table) * BLOCK_SECTOR_SIZE / PGSIZE`. -/
def numSlots (d : Device) : Nat := d.size * 512 % 2 ^ 32 / 4096

def onSwap {α : Type} (x : Exec Device α) : Exec (Vm π) α :=
  zoom Vm.swapTable (fun d k => { k with swapTable := d }) x

/-- `swap_find_empty`. -/
def swapFindEmpty : Exec (Vm π) (Option Nat) := do
  let o ← read (fun k => firstFree k.inUse (numSlots k.swapTable))
  match o with
  | some s => do
    update (fun k => { k with inUse := Function.update k.inUse s true })
    pure (some s)
  | none => pure none

/-- `swap_remove_page`. -/
def swapRemovePage (swap : Option Nat) : Exec (Vm π) Unit := do
  assert (swap ≠ none) "swap != NULL"
  let s ← deref swap
  update (fun k => { k with inUse := Function.update k.inUse s false })

/-- Sector `i` of a page. -/
def sectorOf (d : PageData) (i : Nat) : Sector := fun j => d.byte (512 * i + j)

/-- `block_read` of sector `i` of a slot. -/
def readSector (kpage s i : Nat) : Exec (Vm π) Unit := do
  let sector ← onSwap (blockRead (blockSectorNum s + i))
  update (fun k => { k with
    mem := Function.update k.mem kpage ((k.mem kpage).copyIn (512 * i) 512 sector.byte) })

/-- `block_write` of sector `i` of a slot. -/
def writeSector (kpage s i : Nat) : Exec (Vm π) Unit := do
  let d ← read (fun k => k.mem kpage)
  onSwap (blockWrite (blockSectorNum s + i) (sectorOf d i))

/-- `for (i = 0; i < PGSIZE / BLOCK_SECTOR_SIZE; i++)`, from the given values of `i` on. -/
def eachSector (step : Nat → Exec (Vm π) Unit) : List Nat → Exec (Vm π) Unit
  | [] => pure ()
  | i :: is => do
    step i
    eachSector step is

/-- `swap_retrieve_page`. -/
def swapRetrievePage (kpage : Nat) (swap : Option Nat) : Exec (Vm π) Unit := do
  assert (swap ≠ none) "swap != NULL"
  let s ← deref swap
  eachSector (readSector kpage s) (List.range 8)
  swapRemovePage swap

/-- `swap_put_page`. -/
def swapPutPage (kpage : Nat) : Exec (Vm π) Nat := do
  let o ← swapFindEmpty
  assert (o ≠ none) "swap_page"
  let s ← deref o
  eachSector (writeSector kpage s) (List.range 8)
  pure s

/-! ### `frame.c` -/

section Frames

variable [DecidableEq π]

/-- `frame_free`, with its result. -/
def frameFree : Option Nat → Exec (Vm π) Int
  | none => pure 1
  | some f => do
    let fr ← getFrame f
    update (fun k => { k with frameTable := k.frameTable.erase f })
    let a ← deref fr.page
    let spg ← getPage a
    pagedirClearPage spg.pd spg.vaddr
    pallocFreePage fr.physAddr
    dropFrame f
    pure 0

/-- The second chance of a frame: it has been accessed, or it is not to be evicted. -/
def spared (k : Vm π) (fr : Frame) (spg : SuppPage π) : Bool :=
  k.kaccessed fr.physAddr || (k.pte spg.pd spg.vaddr).accessed || fr.evicting ||
    decide (fr.pinned ≠ 0)

/-- The loop of `frame_choose_victim`. -/
def chooseVictim : Nat → Exec (Vm π) Nat
  | 0 => stop .fuel
  | fuel + 1 => do
    let l ← read Vm.frameTable
    match l with
    | [] => stop (.panic "!list_empty (list)")
    | f :: rest => do
      update (fun k => { k with frameTable := rest })
      let fr ← getFrame f
      let a ← deref fr.page
      let spg ← getPage a
      let again ← read (fun k => k.spared fr spg)
      if again then
        update (fun k => { k with kaccessed := Function.update k.kaccessed fr.physAddr false })
        pagedirUnaccess spg.pd spg.vaddr
        update (fun k => { k with frameTable := k.frameTable ++ [f] })
        chooseVictim fuel
      else pure f

/-- `frame_choose_victim`.  After the first round no frame counts as accessed, so if the second does
    not end the loop it never ends. -/
def frameChooseVictim : Exec (Vm π) Nat := do
  let l ← read Vm.frameTable
  chooseVictim (2 * l.length + 1)

/-- The `switch` of `frame_evict`. -/
def writeOut (f a : Nat) (spg : SuppPage π) : Exec (Vm π) Unit := do
  let fr ← getFrame f
  match spg.type with
  | .filesys => do
    let dirty ← read (fun k => (k.pte spg.pd spg.vaddr).dirty)
    if dirty then
      let fil ← deref spg.fil
      let _ ← fileWriteAt fil fr.physAddr spg.bytes spg.offset
      pagedirClean spg.pd spg.vaddr
    else pure ()
  | .swapslot => do
    let s ← swapPutPage fr.physAddr
    setPage a { spg with swap := some s }

/-- `frame_evict`. -/
def frameEvict (f : Nat) : Exec (Vm π) Unit := do
  let fr ← getFrame f
  setFrame f { fr with evicting := true }
  let a ← deref fr.page
  let spg ← getPage a
  assert (spg.fr = some f) "spg->fr == fr"
  let fr ← getFrame f
  assert (fr.evicting = true) "fr->evicting"
  writeOut f a spg
  let code ← frameFree (some f)
  assert (code = 0) "!frame_free(spg->fr)"
  let spg ← getPage a
  setPage a { spg with fr := none }

/-- `frame_evict (frame_choose_victim ())` and another `palloc_get_page`, if the first gave
    nothing. -/
def evictFor : Option Nat → Exec (Vm π) (Option Nat)
  | some kpage => pure (some kpage)
  | none => do
    let f ← frameChooseVictim
    frameEvict f
    pallocGetPage

/-- `frame_create (PAL_USER | PAL_ZERO, pinned)`. -/
def frameCreate (pinned : Bool) : Exec (Vm π) Nat := do
  let kpage ← pallocGetPage
  let kpage ← evictFor kpage
  match kpage with
  | none => stop (.panic "Page eviction failed.")
  | some kpage => do
    let o ← allocate
    let f ← deref o
    setFrame f ⟨kpage, none, if pinned then 1 else 0, false⟩
    update (fun k => { k with frameTable := k.frameTable ++ [f] })
    pure f

end Frames

/-! ### `page.c` -/

section Pages

variable [DecidableEq π]

/-- `hash_find` by an address. -/
def lookup (k : Vm π) (p : π) (vaddr : Nat) : Option Nat :=
  (k.table p).find? (fun a => (k.pages a).any (fun spg => decide (spg.vaddr = vaddr)))

/-- `get_supp_page`. -/
def getSuppPage (p : π) (vaddr : Nat) : Exec (Vm π) (Option Nat) := do
  assert (isUserVaddr vaddr) "is_user_vaddr(vaddr)"
  assert (pgOfs vaddr = 0) "pg_ofs(vaddr) == 0"
  read (fun k => k.lookup p vaddr)

/-- The read of a `filesys` page.  A writable page of the executable is a page of swap from now
    on. -/
def populateFile (p : π) (a : Nat) (spg : SuppPage π) (kpage : Nat) : Exec (Vm π) Unit := do
  let fil ← deref spg.fil
  let n ← fileReadAt fil kpage spg.bytes spg.offset
  if n ≠ spg.bytes then stop (.panic "Error with page fault\n")
  else
    let exe ← read (fun k => k.exe p)
    if spg.wr = true ∧ spg.fil = exe then
      setPage a { spg with type := .swapslot, fil := none, offset := 0, bytes := 0, swap := none }
    else pure ()

/-- The `switch` of `page_to_new_frame`, in the process `p`. -/
def populate (p : π) (a : Nat) (spg : SuppPage π) (kpage : Nat) : Exec (Vm π) Unit :=
  match spg.type with
  | .filesys => populateFile p a spg kpage
  | .swapslot => swapRetrievePage kpage spg.swap

/-- `!spg->fr || spg->fr->evicting`. -/
def notResident : Option Nat → Exec (Vm π) Bool
  | none => pure true
  | some f => do
    let fr ← getFrame f
    pure fr.evicting

/-- `page_to_new_frame`, in the process `p`. -/
def pageToNewFrame (p : π) (a : Nat) (pinned : Bool) : Exec (Vm π) Nat := do
  let spg ← getPage a
  let absent ← notResident spg.fr
  assert (absent = true) "!spg->fr || spg->fr->evicting"
  let f ← frameCreate pinned
  let fr ← getFrame f
  setFrame f { fr with page := some a }
  let spg ← getPage a
  setPage a { spg with fr := some f }
  populate p a { spg with fr := some f } fr.physAddr
  pagedirSetPage spg.pd spg.vaddr fr.physAddr spg.wr
  pure f

/-- `allocate_supp_page`: the page is made for the fields the caller gives it. -/
def allocateSuppPage (p : π) (vaddr : Nat) (spg : SuppPage π) : Exec (Vm π) Nat := do
  assert (isUserVaddr vaddr) "is_user_vaddr(vaddr)"
  assert (pgOfs vaddr = 0) "pg_ofs(vaddr) == 0"
  let old ← getSuppPage p vaddr
  assert (old = none) "get_supp_page(table, vaddr) == NULL"
  let o ← allocate
  let a ← deref o
  pagedirClean p vaddr
  update (fun k => { k with
    pages := Function.update k.pages a (some spg)
    table := Function.update k.table p (a :: k.table p) })
  pure a

/-- `create_filesys_page`, for a file that is not null. -/
def createFilesysPage (p : π) (vaddr : Nat) (fr : Option Nat) (fil : Nat) (offset bytes : Int)
    (wr : Bool) : Exec (Vm π) Nat :=
  allocateSuppPage p vaddr ⟨fr, p, vaddr, .filesys, wr, some fil, offset, bytes, none⟩

/-- `create_swapslot_page`. -/
def createSwapslotPage (p : π) (vaddr : Nat) (fr : Option Nat) (wr : Bool) : Exec (Vm π) Nat :=
  allocateSuppPage p vaddr ⟨fr, p, vaddr, .swapslot, wr, none, 0, 0, none⟩

/-- `grow_stack`, and the same statements in `setup_stack`: a page of zeros at `upage`, with the
    result of `install_page`. -/
def growStack (p : π) (upage : Nat) : Exec (Vm π) Bool := do
  let f ← frameCreate false
  let a ← createSwapslotPage p upage (some f) true
  let fr ← getFrame f
  setFrame f { fr with page := some a }
  assert (pgOfs upage = 0) "pg_ofs(upage) == 0"
  assert (isUserVaddr upage) "is_user_vaddr(uaddr)"
  let e ← read (fun k => k.pte p upage)
  if e.present = true then pure false
  else
    pagedirSetPage p upage fr.physAddr true
    pure true

/-- `free_supp_page`: `hash_delete` takes the entry out that has the address of the page. -/
def freeSuppPage (p : π) (a : Nat) : Exec (Vm π) Unit := do
  let spg ← getPage a
  let found ← getSuppPage p spg.vaddr
  assert (found ≠ none) "get_supp_page(table, spg->vaddr) != NULL"
  let b ← deref found
  update (fun k => { k with table := Function.update k.table p ((k.table p).erase b) })
  dropPage a

/-- The first statement of `free_action_func`: the frame of a page of a file is evicted, another one
    is freed. -/
def vacate (spg : SuppPage π) : Exec (Vm π) Unit :=
  match spg.fr, spg.type with
  | some f, .filesys => frameEvict f
  | some f, .swapslot => do
    let _ ← frameFree (some f)
    pure ()
  | none, _ => pure ()

/-- `if (page->type == swapslot && page->swap) swap_remove_page (page->swap);` -/
def removeSwap (spg : SuppPage π) : Exec (Vm π) Unit :=
  if spg.type = .swapslot ∧ spg.swap ≠ none then swapRemovePage spg.swap else pure ()

/-- `free_action_func`, in the process `p`. -/
def freeActionFunc (p : π) (a : Nat) : Exec (Vm π) Unit := do
  let spg ← getPage a
  vacate spg
  let spg ← getPage a
  removeSwap spg
  pagedirClearPage p spg.vaddr
  dropPage a

/-- `hash_apply` over the pages of a table, in some order. -/
def freeEach (p : π) : List Nat → Exec (Vm π) Unit
  | [] => pure ()
  | a :: as => do
    freeActionFunc p a
    freeEach p as

/-- `free_supp_page_table`, where `order` is the order of the table's buckets. -/
def freeSuppPageTable (p : π) (order : List Nat) : Exec (Vm π) Unit := do
  freeEach p order
  update (fun k => { k with table := Function.update k.table p [] })

end Pages

end Vm

end KernelSanders
