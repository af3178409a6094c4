import KernelSanders.Kernel.Arith
import KernelSanders.Vm.Regions

namespace KernelSanders

open Lib Lib.Exec

/-!
# Memory-mapped files

`mmap` and `munmap` of `userprog/syscall.c`.  Both go over the pages of the region in a loop that
counts with an `off_t`, from the address of the region to that address plus the size of the file
(`eachPage`).
-/

/-- `MAX_FILES`. -/
def maxFiles : Nat := 16

/-- `MAX_MMAPPINGS`. -/
def maxMmappings : Nat := 16

/-- `MAX_GLOBAL_FILES`, which is `MAX_PROCESSES * 2`. -/
def maxGlobalFiles : Nat := 1024

/-- `MAX_GLOBAL_MAPPINGS`, which is `MAX_PROCESSES * 2`. -/
def maxGlobalMappings : Nat := 1024

/-- `MAP_FAILED`. -/
def mapFailed : Int := -1

/-- `struct mmapping`.  The address of a free slot is null. -/
structure Mmapping where
  addr : Nat
  file : Option Nat
  length : Int
  deriving DecidableEq

/-- Virtual memory, the descriptors and mappings of the processes, the tables of open files and of
    mappings, and the holder of `mmap_lock`. -/
structure Maps (π : Type) where
  vm : Vm π
  files : π → Nat → Int
  openFiles : Nat → Option Nat
  mmappings : π → Nat → Int
  allMmappings : Nat → Mmapping
  mmapLock : Option π

/-- A bound on the number of user pages from an address on. -/
def pagesFrom (addr : Nat) : Nat := 2 + (physBase - addr) / 4096

/-- `for (it = …; it < bound; it += PGSIZE)`, with a body that says whether to return.  The bodies
    of the loops stop at an address that is not a user address, so `pagesFrom` is enough. -/
def eachPage {σ : Type} (bound : Int) (body : Int → Exec σ Bool) : Nat → Int → Exec σ Bool
  | 0, _ => stop .fuel
  | fuel + 1, it =>
    if it < bound then do
      let done ← body it
      if done then pure true else eachPage bound body fuel (wrap (it + 4096))
    else pure false

namespace Maps

variable {π σ : Type} [DecidableEq π] {n fuel : Nat} {it : Int}

def onVm {α : Type} (x : Exec (Vm π) α) : Exec (Maps π) α :=
  zoom Maps.vm (fun k m => { m with vm := k }) x

/-- `open_files[index]`. -/
def openFile (index : Int) : Exec (Maps π) (Option Nat) :=
  if 0 ≤ index ∧ index < maxGlobalFiles then read (fun m => m.openFiles index.toNat)
  else stop .fault

/-- `file_length`. -/
def fileLength (file : Option Nat) : Exec (Maps π) Int := do
  assert (file ≠ none) "file != NULL"
  let fil ← onVm (Vm.deref file)
  read (fun m => ((m.vm.files.content fil).length : Int))

/-- `file_reopen`: another file on the same inode. -/
def fileReopen (file : Option Nat) : Exec (Maps π) (Option Nat) := onVm do
  let fil ← Vm.deref file
  let o ← Vm.allocate
  match o with
  | some h => do
    update (fun k => { k with files := { k.files with
      inode := Function.update k.files.inode h (k.files.inode fil) } })
    pure (some h)
  | none => pure none

/-- `lock_acquire (&mmap_lock)`. -/
def lockMmap (p : π) : Exec (Maps π) Unit := do
  let holder ← read Maps.mmapLock
  assert (holder ≠ some p) "!lock_held_by_current_thread(lock)"
  if holder = none then update (fun m => { m with mmapLock := some p }) else stop .blocked

/-- `lock_release (&mmap_lock)`. -/
def unlockMmap (p : π) : Exec (Maps π) Unit := do
  let holder ← read Maps.mmapLock
  assert (holder = some p) "lock_held_by_current_thread(lock)"
  update (fun m => { m with mmapLock := none })

/-- The body of the first loop of `mmap`: there is a page already. -/
def occupied (p : π) (it : Int) : Exec (Maps π) Bool := onVm do
  let o ← Vm.getSuppPage p (toUnsigned it)
  pure o.isSome

/-- `create_filesys_page` of the page `index` of the region. -/
def createPage (p : π) (addr : Nat) (handle : Option Nat) (bytes : Int) (index : Nat) :
    Exec (Maps π) Unit := do
  assert (handle ≠ none) "file != NULL"
  let fil ← onVm (Vm.deref handle)
  let _ ← onVm (Vm.createFilesysPage p (toUnsigned (wrap (wrap addr + wrap (4096 * index)))) none
    fil (wrap (index * 4096)) bytes true)
  pure ()

/-- `for (index = 0; index < num_whole_pages; index++)`, from the given values of `index` on. -/
def createPages (p : π) (addr : Nat) (handle : Option Nat) : List Nat → Exec (Maps π) Unit
  | [] => pure ()
  | index :: rest => do
    createPage p addr handle pgSize index
    createPages p addr handle rest

/-- The pages of the region are created, the last one with what is left of the file. -/
def createRegion (p : π) (addr : Nat) (handle : Option Nat) (fileSize : Int) :
    Exec (Maps π) Unit := do
  let numWholePages := fileSize.tdiv 4096
  let lastPageBytes := fileSize.tmod 4096
  createPages p addr handle (List.range numWholePages.toNat)
  if lastPageBytes ≠ 0 then createPage p addr handle lastPageBytes numWholePages.toNat
  else pure ()

/-- The rest of `mmap`, when no page of the region is there. -/
def enterMapping (p : π) (mapping : Nat) (addr : Nat) (handle : Option Nat) (fileSize : Int) :
    Exec (Maps π) Int := do
  lockMmap p
  let slot ← read (fun m =>
    firstFree (fun i => decide ((m.allMmappings i).addr ≠ 0)) maxGlobalMappings)
  match slot with
  | none => pure mapFailed
  | some slot => do
    let handle ← fileReopen handle
    update (fun m => { m with
      allMmappings := Function.update m.allMmappings slot ⟨addr, handle, fileSize⟩ })
    unlockMmap p
    createRegion p addr handle fileSize
    update (fun m => { m with
      mmappings := Function.update m.mmappings p
        (Function.update (m.mmappings p) mapping slot) })
    pure mapping

/-- `mmap`, when the slot of the process and the size of the file are known. -/
def mapFile (p : π) (mapping : Nat) (addr : Nat) (handle : Option Nat) (fileSize : Int) :
    Exec (Maps π) Int := do
  let found ← eachPage (wrap (wrap addr + fileSize)) (occupied p) (pagesFrom addr) (wrap addr)
  if found then pure mapFailed
  else enterMapping p mapping addr handle fileSize

/-- `mmap`, in the process `p`. -/
def mmap (p : π) (fd : Int) (addr : Nat) : Exec (Maps π) Int := do
  if pgOfs addr ≠ 0 ∨ fd < 2 ∨ fd ≥ maxFiles ∨ addr = 0 ∨ ¬ isUserVaddr addr then pure mapFailed
  else
    let free ← read (fun m => firstFree (fun i => decide (m.mmappings p i ≠ -1)) maxMmappings)
    match free with
    | none => pure mapFailed
    | some mapping => do
      let index ← read (fun m => m.files p fd.toNat)
      if index = -1 then pure mapFailed
      else
        let handle ← openFile index
        let fileSize ← fileLength handle
        if fileSize = 0 then pure mapFailed
        else mapFile p mapping addr handle fileSize

/-- The body of the loop of `munmap`. -/
def unmapPage (p : π) (vaddr : Nat) : Exec (Vm π) Unit := do
  assert (isUserVaddr vaddr) "is_user_vaddr((void*)i)"
  let o ← Vm.getSuppPage p vaddr
  let a ← Vm.deref o
  let spg ← Vm.getPage a
  match spg.fr with
  | some f => Vm.frameEvict f
  | none => pure ()
  Vm.freeSuppPage p a

/-- The loop of `munmap`. -/
def unmapPages (p : π) (mm : Mmapping) : Exec (Maps π) Unit := do
  let _ ← eachPage (wrap (wrap mm.addr + mm.length))
    (fun i => onVm (do unmapPage p (toUnsigned i); pure false)) (pagesFrom mm.addr)
    (wrap mm.addr)
  pure ()

/-- `munmap`, in the process `p`.  What `file_close` does to the inode changes neither pages nor
    tables, and is left out. -/
def munmap (p : π) (mapping : Int) : Exec (Maps π) Unit :=
  if 0 ≤ mapping ∧ mapping < maxMmappings then do
    let index ← read (fun m => m.mmappings p mapping.toNat)
    if index ≠ -1 then
      let mm ← read (fun m => m.allMmappings index.toNat)
      update (fun m => { m with
        allMmappings := Function.update m.allMmappings index.toNat ⟨0, none, 0⟩
        mmappings := Function.update m.mmappings p
          (Function.update (m.mmappings p) mapping.toNat (-1)) })
      unmapPages p mm
    else pure ()
  else pure ()

/-- `for (i = 0; i < MAX_MMAPPINGS; i++)`, from the given values of `i` on. -/
def munmapEach (p : π) : List Nat → Exec (Maps π) Unit
  | [] => pure ()
  | i :: rest => do
    munmap p i
    munmapEach p rest

/-- `free_mmappings`, in the process `p`. -/
def freeMmappings (p : π) : Exec (Maps π) Unit := munmapEach p (List.range maxMmappings)

/-! ### The loops -/

theorem next_page (x : Int) (i : Nat) : x + 4096 + 4096 * i = x + 4096 * (i + 1 : Nat) := by
  push_cast
  omega

/-- The loop goes over `n` pages, and `I i` holds when it comes to the page `i`. -/
theorem eachPage_returns {bound x : Int} {body : Int → Exec σ Bool} {I : Nat → σ → Prop} {s : σ}
    {Q : Bool → σ → Prop} (hbound : ∀ i < n, wrap (x + 4096 * i) < bound)
    (hbody : ∀ i < n, ∀ s, I i s → Returns (body (wrap (x + 4096 * i))) s (fun done s' => done =
      false ∧ I (i + 1) s'))
    (hrest : ∀ s, I n s → Returns (eachPage bound body fuel (wrap (x + 4096 * n))) s Q)
    (hs : I 0 s) : Returns (eachPage bound body (n + fuel) (wrap x)) s Q := by
  induction n generalizing x I s with
  | zero => simpa using hrest s hs
  | succ n ih =>
    have hfirst := hbody 0 (Nat.succ_pos n) s hs
    have hbelow := hbound 0 (Nat.succ_pos n)
    simp only [Nat.cast_zero, mul_zero, add_zero] at hfirst hbelow
    rw [show n + 1 + fuel = n + fuel + 1 by omega, eachPage, if_pos hbelow]
    refine hfirst.bind (fun done s₁ hs₁ => ?_)
    obtain ⟨rfl, hs₁⟩ := hs₁
    rw [if_neg Bool.false_ne_true, wrap_wrap_add]
    -- the rest of the loop starts at the next page
    refine ih (I := fun i => I (i + 1)) ?_ ?_ ?_ hs₁
    · intro i hi
      rw [next_page]
      exact hbound (i + 1) (by omega)
    · intro i hi s hs
      rw [next_page]
      exact hbody (i + 1) (by omega) s hs
    · intro s hs
      rw [next_page]
      exact hrest s hs

/-- The loop does not start. -/
theorem eachPage_empty {bound : Int} {body : Int → Exec σ Bool} {s : σ} (h : bound ≤ it) :
    (eachPage bound body (fuel + 1) it).run s = .ok (false, s) := by
  rw [eachPage, if_neg (not_lt.mpr h)]
  rfl

omit [DecidableEq π] in
theorem occupied_run {m : Maps π} {p : π} {v : Nat} (hv : toUnsigned it = v)
    (huser : isUserVaddr v) (haligned : pgOfs v = 0) :
    (occupied p it).run m = .ok ((m.vm.lookup p v).isSome, m) := by
  have hrun : (Vm.getSuppPage p v).run m.vm = .ok (m.vm.lookup p v, m.vm) := by
    rw [Vm.getSuppPage, bind_ok (assert_pos huser _ _), bind_ok (assert_pos haligned _ _)]
    rfl
  subst hv
  exact zoom_ok (bind_ok hrun)

section Checks

variable {m m' : Maps π} {p : π} {fd size bound x : Int} {addr mapping fil : Nat}

/-- The loop over the pages of the region comes to its end: its counter is below the end for `n`
    pages, at which there is nothing, and not below it then. -/
def ScanClear (m : Maps π) (p : π) (addr : Nat) (size : Int) : Prop :=
  ∃ n : Nat, (∀ i < n, wrap ((addr : Int) + 4096 * i) < wrap (wrap addr + size) ∧
      isUserVaddr (toUnsigned ((addr : Int) + 4096 * i)) ∧
      m.vm.lookup p (toUnsigned ((addr : Int) + 4096 * i)) = none) ∧
    wrap (wrap addr + size) ≤ wrap ((addr : Int) + 4096 * n)

section

omit [DecidableEq π]

theorem occupied_ensures : Ensures (occupied p it) m (fun done m' => m' = m ∧
    (done = false → isUserVaddr (toUnsigned it) ∧ m.vm.lookup p (toUnsigned it) = none)) := by
  rw [occupied, onVm, ensures_zoom]
  simp only [Vm.getSuppPage, ensures_bind, ensures_assert, ensures_read, ensures_pure]
  intro huser _
  exact ⟨trivial, fun hnone => ⟨huser, by simpa using hnone⟩⟩

/-- The loop changes nothing, and what it has seen if it comes to its end. -/
theorem scan_ensures (fuel : Nat) :
    Ensures (eachPage bound (occupied p) fuel (wrap x)) m (fun found m' => m' = m ∧
      (found = false → ∃ n : Nat, (∀ i < n, wrap (x + 4096 * i) < bound ∧
        isUserVaddr (toUnsigned (x + 4096 * i)) ∧
        m.vm.lookup p (toUnsigned (x + 4096 * i)) = none) ∧ bound ≤ wrap (x + 4096 * n))) := by
  induction fuel generalizing x with
  | zero => exact ensures_stop
  | succ fuel ih =>
    rw [eachPage]
    split_ifs with hbelow
    · refine occupied_ensures.bind (fun done m₁ hm₁ => ?_)
      obtain ⟨rfl, hclear⟩ := hm₁
      split_ifs with hdone
      · exact ensures_pure.mpr ⟨rfl, fun hfalse => absurd hfalse (by simp)⟩
      · obtain ⟨huser, hnone⟩ := hclear (by simpa using hdone)
        rw [toUnsigned_wrap] at huser hnone
        rw [wrap_wrap_add]
        refine ih.mono (fun found m' hm' => ⟨hm'.1, fun hfalse => ?_⟩)
        obtain ⟨n, hn, hend⟩ := hm'.2 hfalse
        -- the page seen first comes before the `n` others
        refine ⟨n + 1, fun i hi => ?_, by rwa [← next_page]⟩
        cases i with
        | zero => simpa using ⟨hbelow, huser, hnone⟩
        | succ i =>
          rw [← next_page]
          exact hn i (by omega)
    · refine ensures_pure.mpr ⟨rfl, fun _ => ⟨0, by simp, ?_⟩⟩
      simpa using hbelow

/-- The loop goes over pages at which there is nothing. -/
theorem scan_passes {found : Bool} (haddr : pgOfs addr = 0)
    (hn : ∀ i < n, wrap ((addr : Int) + 4096 * i) < bound ∧
      isUserVaddr (toUnsigned ((addr : Int) + 4096 * i)) ∧
      m.vm.lookup p (toUnsigned ((addr : Int) + 4096 * i)) = none)
    (hrest : (eachPage bound (occupied p) fuel (wrap ((addr : Int) + 4096 * n))).run m =
      .ok (found, m)) :
    (eachPage bound (occupied p) (n + fuel) (wrap addr)).run m = .ok (found, m) := by
  have hloop : Returns (eachPage bound (occupied p) (n + fuel) (wrap addr)) m
      (fun r m' => r = found ∧ m' = m) := by
    refine eachPage_returns (I := fun _ s => s = m) (fun i hi => (hn i hi).1) ?_ ?_ rfl
    · rintro i hi s rfl
      obtain ⟨-, huser, hnone⟩ := hn i hi
      have haligned : pgOfs (toUnsigned ((addr : Int) + 4096 * i)) = 0 := by
        unfold pgOfs pgSize toUnsigned at *
        omega
      refine ⟨false, s, ?_, rfl, rfl⟩
      rw [occupied_run (toUnsigned_wrap _) huser haligned, hnone]
      rfl
    · rintro s rfl
      exact ⟨found, s, hrest, rfl, rfl⟩
  obtain ⟨_, _, hrun, rfl, rfl⟩ := hloop
  exact hrun

/-- The loop does not go on beyond `PHYS_BASE`. -/
theorem scan_le (haddr : pgOfs addr = 0) (huser : isUserVaddr addr)
    (hn : ∀ i < n, isUserVaddr (toUnsigned ((addr : Int) + 4096 * i))) :
    n ≤ (physBase - addr) / 4096 := by
  by_contra hlt
  have hlast := hn ((physBase - addr) / 4096) (by omega)
  unfold isUserVaddr pgOfs pgSize physBase at *
  rw [show (addr : Int) + 4096 * ((0xc0000000 - addr) / 4096 : Nat) = (0xc0000000 : Nat) by omega,
    toUnsigned_natCast (by omega)] at hlast
  omega

/-- The fuel of the loop is enough. -/
theorem scan_run (haddr : pgOfs addr = 0) (huser : isUserVaddr addr) (h : m.ScanClear p addr size) :
    (eachPage (wrap (wrap addr + size)) (occupied p) (pagesFrom addr) (wrap addr)).run m =
      .ok (false, m) := by
  obtain ⟨n, hn, hend⟩ := h
  have hle := scan_le haddr huser (fun i hi => (hn i hi).2.1)
  rw [show pagesFrom addr = n + ((physBase - addr) / 4096 + 1 - n + 1) by
    unfold pagesFrom
    omega]
  exact scan_passes haddr hn (eachPage_empty hend)

end

/-- `mmap (fd, addr)` by `p` gets as far as the loop over the pages, with a slot for the mapping and
    the open file. -/
structure Checked (m : Maps π) (p : π) (fd : Int) (addr mapping fil : Nat) : Prop where
  args : pgOfs addr = 0 ∧ 2 ≤ fd ∧ fd < maxFiles ∧ addr ≠ 0 ∧ isUserVaddr addr
  free : firstFree (fun i => decide (m.mmappings p i ≠ -1)) maxMmappings = some mapping
  index : 0 ≤ m.files p fd.toNat ∧ m.files p fd.toNat < maxGlobalFiles
  file : m.openFiles (m.files p fd.toNat).toNat = some fil
  length : (m.vm.files.content fil).length ≠ 0

theorem mmap_run (h : Checked m p fd addr mapping fil) : (mmap p fd addr).run m =
    (mapFile p mapping addr (some fil) (m.vm.files.content fil).length).run m := by
  have hargs : ¬ (pgOfs addr ≠ 0 ∨ fd < 2 ∨ fd ≥ maxFiles ∨ addr = 0 ∨ ¬ isUserVaddr addr) := by
    simp only [not_or, not_not, not_lt, ge_iff_le, not_le]
    exact h.args
  have hindex : m.files p fd.toNat ≠ -1 := by
    have := h.index.1
    omega
  have hopen : (openFile (m.files p fd.toNat)).run m = .ok (some fil, m) := by
    rw [openFile, if_pos h.index, run_read, h.file]
  have hlength : (fileLength (some fil)).run m =
      .ok (((m.vm.files.content fil).length : Int), m) := by
    have hderef : (onVm (Vm.deref (some fil))).run m = .ok (fil, m) := zoom_ok rfl
    rw [fileLength, bind_ok (assert_pos (by simp) _ _), bind_ok hderef]
    rfl
  rw [mmap, if_neg hargs, read_bind, h.free]
  dsimp only
  rw [read_bind, if_neg hindex, bind_ok hopen, bind_ok hlength, if_neg (by exact_mod_cast h.length)]

/-- A call that returns has failed before the loop or in it, or it has passed all checks. -/
theorem mmap_ensures : Ensures (mmap p fd addr) m (fun r m' => r = mapFailed ∧ m' = m ∨
    ∃ mapping fil, Checked m p fd addr mapping fil ∧
      m.ScanClear p addr ((m.vm.files.content fil).length : Int) ∧
      (enterMapping p mapping addr (some fil) (m.vm.files.content fil).length).run m =
        .ok (r, m')) := by
  rw [mmap]
  split_ifs with hargs
  · exact ensures_pure.mpr (.inl ⟨rfl, rfl⟩)
  simp only [not_or, not_not, not_lt, ge_iff_le, not_le] at hargs
  rw [ensures_get]
  cases hfree : firstFree (fun i => decide (m.mmappings p i ≠ -1)) maxMmappings with
  | none => exact ensures_pure.mpr (.inl ⟨rfl, rfl⟩)
  | some mapping =>
    simp only [ensures_bind, ensures_read]
    split_ifs with hindex
    · exact ensures_pure.mpr (.inl ⟨rfl, rfl⟩)
    simp only [ensures_bind, openFile]
    split_ifs with hrange
    · simp only [ensures_read, fileLength, ensures_bind, ensures_assert, onVm, ensures_zoom,
        Vm.deref_ensures]
      intro _ fil hfil
      split_ifs with hsize
      · exact ensures_pure.mpr (.inl ⟨rfl, rfl⟩)
      rw [mapFile]
      refine (scan_ensures _).bind (fun found m₁ hm₁ => ?_)
      obtain ⟨rfl, hclear⟩ := hm₁
      split_ifs with hfound
      · exact ensures_pure.mpr (.inl ⟨rfl, rfl⟩)
      intro r m' hrun
      rw [hfil] at hrun
      exact .inr ⟨mapping, fil, ⟨hargs, hfree, hrange, hfil, by simpa using hsize⟩,
        hclear (by simpa using hfound), hrun⟩
    · exact ensures_stop

end Checks

end Maps

end KernelSanders
