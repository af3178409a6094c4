import KernelSanders.Vm.Mapping
import KernelSanders.Lib.Machine

namespace KernelSanders

open Lib Lib.Exec

/-!
# Runs of virtual memory

Any number of processes enter pages in their tables, bring them in, use them and exit, and frames
are evicted, one step after the other in any order.  `VmOp.Did` says what each step does, and the
mapping is sound in every state that is reached.
-/

/-- A step of virtual memory. -/
inductive VmOp (π : Type) where
  /-- `create_filesys_page`, for a page that is not in a frame yet. -/
  | createFilesysPage (p : π) (vaddr fil : Nat) (offset bytes : Int) (wr : Bool)
  /-- `grow_stack`, which `setup_stack` does as well. -/
  | growStack (p : π) (upage : Nat)
  /-- `page_to_new_frame`. -/
  | pageToNewFrame (p : π) (a : Nat) (pinned : Bool)
  /-- `frame_evict`. -/
  | frameEvict (f : Nat)
  /-- `free_supp_page_table`. -/
  | freeSuppPageTable (p : π) (order : List Nat)
  /-- The program of `p` stores a byte. -/
  | store (p : π) (upage ofs : Nat) (byte : UInt8)
  /-- The program of `p` reads from a page. -/
  | load (p : π) (upage : Nat)
  /-- The kernel uses a page of the pool by its own address. -/
  | touch (kpage : Nat)
  /-- Files on an inode deny writes, or allow them again. -/
  | setDenyWrite (inode : Nat) (cnt : Int)
  deriving DecidableEq

namespace Vm

variable {π : Type} [DecidableEq π]

/-- The byte is in the page, and the page counts as dirty and accessed. -/
def stored (k : Vm π) (p : π) (upage ofs : Nat) (byte : UInt8) : Vm π :=
  let e := k.pte p upage
  { k.setPte p upage { e with dirty := true, accessed := true } with
    mem := Function.update k.mem e.kpage ((k.mem e.kpage).copyIn ofs 1 (fun _ => byte)) }

/-- Another `deny_write_cnt`. -/
def denyWrite (k : Vm π) (inode : Nat) (cnt : Int) : Vm π :=
  { k with files := { k.files with
    denyWriteCnt := Function.update k.files.denyWriteCnt inode cnt } }

end Vm

namespace VmOp

variable {π : Type} [DecidableEq π]

open Vm

def code : VmOp π → Exec (Vm π) Unit
  | .createFilesysPage p vaddr fil offset bytes wr => do
    let _ ← Vm.createFilesysPage p vaddr none fil offset bytes wr
    pure ()
  | .growStack p upage => do
    let _ ← Vm.growStack p upage
    pure ()
  | .pageToNewFrame p a pinned => do
    let _ ← Vm.pageToNewFrame p a pinned
    pure ()
  | .frameEvict f => Vm.frameEvict f
  | .freeSuppPageTable p order => Vm.freeSuppPageTable p order
  | .store p upage ofs byte => update (·.stored p upage ofs byte)
  | .load p upage =>
    update (fun k => k.setPte p upage { k.pte p upage with accessed := true })
  | .touch kpage => update (fun k => { k with kaccessed := Function.update k.kaccessed kpage true })
  | .setDenyWrite inode cnt => update (·.denyWrite inode cnt)

/-- A page is brought in by the process in whose table it is; a table is freed in some order; and a
    program stores to a page that is present and writable. -/
def ready (k : Vm π) : VmOp π → Bool
  | .pageToNewFrame p a _ => decide (a ∈ k.table p)
  | .freeSuppPageTable p order => decide (order.Perm (k.table p))
  | .store p upage ofs _ =>
    (k.pte p upage).present && (k.pte p upage).writable && decide (ofs < pgSize)
  | .load p upage => (k.pte p upage).present
  | _ => true

end VmOp

/-- Virtual memory. -/
def vm (π : Type) [DecidableEq π] : Machine (Vm π) (VmOp π) where
  ready := VmOp.ready
  code := VmOp.code

namespace Vm

variable {π : Type} [DecidableEq π] {k k' : Vm π} {o : VmOp π}

/-- What a step does. -/
inductive Did (k : Vm π) : VmOp π → Vm π → Prop where
  | createFilesysPage {p : π} {vaddr fil : Nat} {offset bytes : Int} {wr : Bool} {a : Nat}
    {k' : Vm π} (registers : Registers k p vaddr
      ⟨none, p, vaddr, .filesys, wr, some fil, offset, bytes, none⟩ a k') :
    Did k (.createFilesysPage p vaddr fil offset bytes wr) k'
  | growStack {p : π} {upage : Nat} {k₀ : Vm π} {kpage f : Nat} {k₁ : Vm π} {a : Nat} {k₂ : Vm π}
    {ok : Bool} {k' : Vm π} (grows : Grows k p upage k₀ kpage f k₁ a k₂ ok k') :
    Did k (.growStack p upage) k'
  | pageToNewFrame {p : π} {a : Nat} {pinned : Bool} {k₀ : Vm π} {kpage f : Nat} {k₁ : Vm π}
    {spg : SuppPage π} {k₂ k' : Vm π} (mem : a ∈ k.table p)
    (pagesIn : PagesIn k p a pinned k₀ kpage f k₁ spg k₂ k') :
    Did k (.pageToNewFrame p a pinned) k'
  | frameEvict {f : Nat} {fr : Frame} {a : Nat} {spg : SuppPage π} {k₁ : Vm π} {spg₁ : SuppPage π}
    {k' : Vm π} (evicts : Evicts k f fr a spg k₁ spg₁ k') : Did k (.frameEvict f) k'
  | freeSuppPageTable {p : π} {order : List Nat} {k₁ : Vm π} (perm : order.Perm (k.table p))
    (freed : AllFreed k p order k₁) :
    Did k (.freeSuppPageTable p order) { k₁ with table := Function.update k₁.table p [] }
  | store {p : π} {upage ofs : Nat} {byte : UInt8} (present : (k.pte p upage).present = true)
    (writable : (k.pte p upage).writable = true) (inside : ofs < pgSize) :
    Did k (.store p upage ofs byte) (k.stored p upage ofs byte)
  | load {p : π} {upage : Nat} (present : (k.pte p upage).present = true) :
    Did k (.load p upage) (k.setPte p upage { k.pte p upage with accessed := true })
  | touch {kpage : Nat} :
    Did k (.touch kpage) { k with kaccessed := Function.update k.kaccessed kpage true }
  | setDenyWrite {inode : Nat} {cnt : Int} :
    Did k (.setDenyWrite inode cnt) (k.denyWrite inode cnt)

theorem sound_retabled {p : π} {order : List Nat} (hk : k.mapping.Sound)
    (h : order.Perm (k.table p)) : (k.mappingLeft p order).Sound :=
  hk.retable h

/-- The steps are what they are said to be. -/
theorem did_of_steps (hk : k.mapping.Sound) (h : (vm π).Steps o k k') : Did k o k' := by
  have hready := h.ready
  have hrun := h.run
  suffices hensures : Ensures (VmOp.code o) k (fun _ k' => Did k o k') from hensures _ _ hrun
  cases o with
  | createFilesysPage p vaddr fil offset bytes wr =>
    simp only [VmOp.code, ensures_bind, ensures_pure]
    exact allocateSuppPage_ensures.mono (fun _ _ hk' => .createFilesysPage hk')
  | growStack p upage =>
    simp only [VmOp.code, ensures_bind, ensures_pure]
    refine growStack_ensures.mono (fun _ _ hk' => ?_)
    obtain ⟨k₀, kpage, f, k₁, a, k₂, hgrows⟩ := hk'
    exact .growStack hgrows
  | pageToNewFrame p a pinned =>
    simp only [VmOp.code, ensures_bind, ensures_pure]
    refine pageToNewFrame_ensures.mono (fun _ _ hk' => ?_)
    obtain ⟨k₀, kpage, k₁, spg, k₂, hin⟩ := hk'
    exact .pageToNewFrame (by simpa [vm, VmOp.ready] using hready) hin
  | frameEvict f =>
    refine frameEvict_ensures.mono (fun _ _ hk' => ?_)
    obtain ⟨fr, a, spg, k₁, spg₁, hevicts⟩ := hk'
    exact .frameEvict hevicts
  | freeSuppPageTable p order =>
    have hperm : order.Perm (k.table p) := by simpa [vm, VmOp.ready] using hready
    simp only [VmOp.code, Vm.freeSuppPageTable, ensures_bind, ensures_update]
    exact (freeEach_ensures order (sound_retabled hk hperm)).mono
      (fun _ _ hk₁ => .freeSuppPageTable hperm hk₁)
  | store p upage ofs byte =>
    simp only [vm, VmOp.ready, Bool.and_eq_true, decide_eq_true_eq] at hready
    simp only [VmOp.code, ensures_update]
    exact .store hready.1.1 hready.1.2 hready.2
  | load p upage =>
    simp only [VmOp.code, ensures_update]
    exact .load hready
  | touch kpage =>
    simp only [VmOp.code, ensures_update]
    exact .touch
  | setDenyWrite inode cnt =>
    simp only [VmOp.code, ensures_update]
    exact .setDenyWrite

theorem Did.sound (h : Did k o k') (hk : k.mapping.Sound) : k'.mapping.Sound := by
  cases h with
  | createFilesysPage registers => exact registers.sound rfl rfl rfl hk
  | growStack grows => exact grows.sound hk
  | pageToNewFrame mem pagesIn => exact pagesIn.sound hk
  | frameEvict evicts => exact evicts.sound hk
  | freeSuppPageTable perm freed => exact freed.sound
  | store present writable inside | load present =>
    refine cast (congrArg Mapping.Sound ?_) hk
    ext1
    case entry => exact (entry_setPte (by rfl)).symm
    all_goals rfl
  | touch => exact hk
  | setDenyWrite => exact hk

end Vm

end KernelSanders
