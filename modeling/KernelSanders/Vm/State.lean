import KernelSanders.Devices.Block
import KernelSanders.Lib.FirstFree
import KernelSanders.Lib.Splice

namespace KernelSanders

open Lib Lib.Exec

/-!
# The state of virtual memory

The heap objects of `vm/page.c` and `vm/frame.c`, the page directories, the user pool of pages, the
swap device with its table of slots, and the files behind the pages.  A pointer to a heap object is
the number of the allocation that made it; a freed object is gone, and an access to it is a `fault`.
A page of the user pool is its index in the pool.

A page directory belongs to a process (`π`), and a process without a page table for an address has
the entry of zeros there.  An open file is on an inode, and an inode is a string of bytes: that is
what `inode_read_at` and `inode_write_at` make of it.
-/

/-- `PGSIZE`. -/
def pgSize : Nat := 4096

/-- `PHYS_BASE`. -/
def physBase : Nat := 0xc0000000

/-- `is_user_vaddr`. -/
def isUserVaddr (vaddr : Nat) : Prop := vaddr < physBase

instance (vaddr : Nat) : Decidable (isUserVaddr vaddr) := inferInstanceAs (Decidable (_ < _))

/-- `pg_ofs`. -/
def pgOfs (vaddr : Nat) : Nat := vaddr % pgSize

/-- `pg_round_down`. -/
def pgRoundDown (vaddr : Nat) : Nat := vaddr - pgOfs vaddr

/-- The contents of a page. -/
abbrev PageData : Type := Bytes 4096

/-- `enum page_location_type`. -/
inductive PageLocationType where
  | filesys
  | swapslot
  deriving DecidableEq, Repr

/-- `struct supp_page`. -/
structure SuppPage (π : Type) where
  fr : Option Nat
  pd : π
  vaddr : Nat
  type : PageLocationType
  wr : Bool
  fil : Option Nat
  offset : Int
  bytes : Int
  swap : Option Nat
  deriving DecidableEq

/-- `struct frame`. -/
structure Frame where
  physAddr : Nat
  page : Option Nat
  pinned : Int
  evicting : Bool
  deriving DecidableEq

/-- A page table entry: `PTE_P`, the page, `PTE_W`, `PTE_D` and `PTE_A`. -/
structure Pte where
  present : Bool
  kpage : Nat
  writable : Bool
  dirty : Bool
  accessed : Bool
  deriving DecidableEq

/-- The entry of zeros. -/
def Pte.zero : Pte := ⟨false, 0, false, false, false⟩

/-! ### Files -/

/-- The open files, with the inode of each, and the contents and `deny_write_cnt` of the inodes. -/
structure Files where
  inode : Nat → Nat
  bytes : Nat → List UInt8
  denyWriteCnt : Nat → Int

namespace Files

/-- The contents of an open file. -/
def content (fs : Files) (fil : Nat) : List UInt8 := fs.bytes (fs.inode fil)

/-- `file_read_at` into a page.  A position in front of the file and a read past the end of the page
    are `fault`s. -/
def readAt (fs : Files) (fil : Nat) (buffer : PageData) (size offset : Int) :
    Except Stop (Int × PageData) :=
  if size ≤ 0 then .ok (0, buffer)
  else if offset < 0 ∨ size > pgSize then .error .fault
  else
    let count := min size.toNat ((fs.content fil).length - offset.toNat)
    .ok (count, buffer.copyIn 0 count (fun j => (fs.content fil).getD (offset.toNat + j) 0))

/-- The first bytes of a page. -/
def taken (buffer : PageData) (size : Nat) : List UInt8 := (List.range size).map buffer.byte

/-- `file_write_at` from a page: nothing is written to an inode that denies writes. -/
def writeAt (fs : Files) (fil : Nat) (buffer : PageData) (size offset : Int) :
    Except Stop (Int × Files) :=
  if fs.denyWriteCnt (fs.inode fil) ≠ 0 then .ok (0, fs)
  else if offset < 0 ∨ size < 0 ∨ size > pgSize then .error .fault
  else
    let written := splice 0 (fs.content fil) offset.toNat (taken buffer size.toNat)
    .ok (size, { fs with bytes := Function.update fs.bytes (fs.inode fil) written })

end Files

/-! ### The state -/

/-- The state of virtual memory, for processes `π`. -/
structure Vm (π : Type) where
  pages : Nat → Option (SuppPage π)
  table : π → List Nat
  frames : Nat → Option Frame
  frameTable : List Nat
  poolSize : Nat
  used : Nat → Bool
  mem : Nat → PageData
  pte : π → Nat → Pte
  kaccessed : Nat → Bool
  swapTable : Device
  inUse : Nat → Bool
  files : Files
  exe : π → Option Nat
  brk : Nat
  malloc : Nat → Bool

namespace Vm

variable {π : Type}

/-- A swap device of one slot. -/
def oneSlot : Device := ⟨.swap, 8, fun _ => Bytes.zero, by decide, by decide⟩

/-- Nothing is mapped, and no slot of the swap device is in use. -/
def booted (poolSize : Nat) (mem : Nat → PageData) (swapTable : Device) (files : Files)
    (exe : π → Option Nat) (malloc : Nat → Bool) : Vm π where
  pages _ := none
  table _ := []
  frames _ := none
  frameTable := []
  poolSize := poolSize
  used _ := false
  mem := mem
  pte _ _ := Pte.zero
  kaccessed _ := false
  swapTable := swapTable
  inUse _ := false
  files := files
  exe := exe
  brk := 0
  malloc := malloc

/-! ### Heap objects -/

/-- `*spg`. -/
def getPage (a : Nat) : Exec (Vm π) (SuppPage π) := do
  let o ← read (fun k => k.pages a)
  match o with
  | some spg => pure spg
  | none => stop .fault

/-- `*spg = …`, at an address that was just read. -/
def setPage (a : Nat) (spg : SuppPage π) : Exec (Vm π) Unit :=
  update (fun k => { k with pages := Function.update k.pages a (some spg) })

/-- `free (spg)`. -/
def dropPage (a : Nat) : Exec (Vm π) Unit :=
  update (fun k => { k with pages := Function.update k.pages a none })

/-- `*fr`. -/
def getFrame (f : Nat) : Exec (Vm π) Frame := do
  let o ← read (fun k => k.frames f)
  match o with
  | some fr => pure fr
  | none => stop .fault

/-- `*fr = …`, at an address that was just read. -/
def setFrame (f : Nat) (fr : Frame) : Exec (Vm π) Unit :=
  update (fun k => { k with frames := Function.update k.frames f (some fr) })

/-- `free (fr)`. -/
def dropFrame (f : Nat) : Exec (Vm π) Unit :=
  update (fun k => { k with frames := Function.update k.frames f none })

/-- A pointer that is used: a null pointer is a `fault`. -/
def deref {α : Type} : Option α → Exec (Vm π) α
  | some x => pure x
  | none => stop .fault

/-- `malloc` and `calloc` of a structure: its address. -/
def allocate : Exec (Vm π) (Option Nat) := do
  let k ← read id
  update (fun k => { k with brk := k.brk + 1 })
  if k.malloc k.brk then pure (some k.brk) else pure none

/-! ### The user pool -/

/-- `palloc_get_page (PAL_USER | PAL_ZERO)`. -/
def pallocGetPage : Exec (Vm π) (Option Nat) := do
  let o ← read (fun k => firstFree k.used k.poolSize)
  match o with
  | some kpage => do
    update (fun k => { k with
      used := Function.update k.used kpage true
      mem := Function.update k.mem kpage Bytes.zero })
    pure (some kpage)
  | none => pure none

/-- `palloc_free_page`: a page that is free again is filled with `0xcc`. -/
def pallocFreePage (kpage : Nat) : Exec (Vm π) Unit := do
  update (fun k => { k with mem := Function.update k.mem kpage (fun _ => 0xcc) })
  let used ← read (fun k => k.used kpage)
  assert (used = true) "bitmap_all(pool->used_map, page_idx, page_cnt)"
  update (fun k => { k with used := Function.update k.used kpage false })

/-! ### Page directories -/

section PageDirectories

variable [DecidableEq π]

/-- Replace the entry of a page. -/
def setPte (k : Vm π) (p : π) (vaddr : Nat) (e : Pte) : Vm π :=
  { k with pte := fun q v => if q = p ∧ v = vaddr then e else k.pte q v }

/-- `pagedir_set_page`, with memory for a page table. -/
def pagedirSetPage (p : π) (upage kpage : Nat) (writable : Bool) : Exec (Vm π) Unit := do
  assert (pgOfs upage = 0) "pg_ofs(upage) == 0"
  assert (isUserVaddr upage) "is_user_vaddr(upage)"
  let e ← read (fun k => k.pte p upage)
  assert (e.present = false) "(*pte & PTE_P) == 0"
  update (fun k => k.setPte p upage ⟨true, kpage, writable, false, false⟩)

/-- `pagedir_clear_page`. -/
def pagedirClearPage (p : π) (upage : Nat) : Exec (Vm π) Unit := do
  assert (pgOfs upage = 0) "pg_ofs(upage) == 0"
  assert (isUserVaddr upage) "is_user_vaddr(upage)"
  update (fun k => k.setPte p upage { k.pte p upage with present := false })

/-- `pagedir_set_dirty (pd, vpage, false)`. -/
def pagedirClean (p : π) (vpage : Nat) : Exec (Vm π) Unit :=
  update (fun k => k.setPte p vpage { k.pte p vpage with dirty := false })

/-- `pagedir_set_accessed (pd, vpage, false)`. -/
def pagedirUnaccess (p : π) (vpage : Nat) : Exec (Vm π) Unit :=
  update (fun k => k.setPte p vpage { k.pte p vpage with accessed := false })

end PageDirectories

/-! ### Files -/

/-- `file_read_at` into a page of the pool. -/
def fileReadAt (fil kpage : Nat) (size offset : Int) : Exec (Vm π) Int := ⟨fun k =>
  match k.files.readAt fil (k.mem kpage) size offset with
  | .ok (n, d) => .ok (n, { k with mem := Function.update k.mem kpage d })
  | .error e => .error e⟩

/-- `file_write_at` from a page of the pool. -/
def fileWriteAt (fil kpage : Nat) (size offset : Int) : Exec (Vm π) Int := ⟨fun k =>
  match k.files.writeAt fil (k.mem kpage) size offset with
  | .ok (n, fs) => .ok (n, { k with files := fs })
  | .error e => .error e⟩

end Vm

end KernelSanders
