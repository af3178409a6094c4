import KernelSanders.Userprog.Mmap

namespace KernelSanders

open Lib
open Lib.Exec hiding update
open Function List

namespace Maps

variable {π : Type} [DecidableEq π]

/-!
# Which regions can be mapped

The user address space goes up to `PHYS_BASE`, which is not an `off_t`, and the loops of `mmap` and
`munmap` count with an `off_t`:

* a region in the upper half of the address space has negative addresses, and the loops work;
* a region that ends at the middle or goes over it has a negative end, and the loops do not start:
  `mmap` does not see the pages that are there, and `munmap` leaves the pages of the region;
* the last page of a region may end at the middle though its last byte does not: the counter then
  goes on with the upper half, up to the page of the stack, and `mmap` fails.

`mmap_exact` says that these are the only regions that go wrong, as long as there is memory and
`mmap_lock` is free.
-/

/-! ### The region -/

/-- The pages that a file of the given size takes up. -/
def pageCount (size : Nat) : Nat := (size + 4095) / 4096

/-- A page of the region is in the table of `p`. -/
def Overlapping (m : Maps π) (p : π) (addr size : Nat) : Prop :=
  ∃ i < pageCount size, m.vm.lookup p (addr + 4096 * i) ≠ none

/-- The page of the region with the given number, for the open file `h`. -/
def regionPage (p : π) (addr size h i : Nat) : SuppPage π :=
  ⟨none, p, addr + 4096 * i, .filesys, true, some h, (4096 * i : Nat),
    (min 4096 (size - 4096 * i) : Nat), none⟩

/-- The pages of the region. -/
def regionPages (p : π) (addr size h : Nat) : List (SuppPage π) :=
  (range (pageCount size)).map (regionPage p addr size h)

/-- The pages of the region are user pages. -/
structure UserRegion (addr size : Nat) : Prop where
  fits : 0 < size ∧ size < 2 ^ 31
  aligned : pgOfs addr = 0
  user : ∀ i < pageCount size, isUserVaddr (addr + 4096 * i)

namespace UserRegion

variable {addr size : Nat}

theorem last (h : UserRegion addr size) : isUserVaddr (addr + 4096 * (pageCount size - 1)) := by
  have hsize := h.fits.1
  exact h.user _ (by unfold pageCount; omega)

/-- The loops have enough fuel for the region. -/
theorem pagesFrom_eq (h : UserRegion addr size) :
    pagesFrom addr = pageCount size + ((physBase - addr) / 4096 + 1 - pageCount size + 1) := by
  have hlast := h.last
  unfold isUserVaddr at hlast
  unfold pagesFrom
  omega

end UserRegion

/-- `mmap (fd, addr)` with a file of the given size that is open in `p`, for a user page `addr`,
    when the page of the stack is in the table and there is a slot for the mapping. -/
structure Request (m : Maps π) (p : π) (fd : Int) (addr fil size mapping slot : Nat) : Prop where
  sound : m.vm.mapping.Sound
  exe : ∀ e, m.vm.exe p = some e → e < m.vm.brk
  descriptor : 2 ≤ fd ∧ fd < maxFiles
  index : 0 ≤ m.files p fd.toNat ∧ m.files p fd.toNat < maxGlobalFiles
  file : m.openFiles (m.files p fd.toNat).toNat = some fil
  length : (m.vm.files.content fil).length = size
  size : 0 < size ∧ size < 2 ^ 31
  addr : addr ≠ 0 ∧ pgOfs addr = 0 ∧ isUserVaddr addr
  stack : m.vm.lookup p 0xbffff000 ≠ none
  free : firstFree (fun i => decide (m.mmappings p i ≠ -1)) maxMmappings = some mapping
  slot : firstFree (fun i => decide ((m.allMmappings i).addr ≠ 0)) maxGlobalMappings = some slot

variable {m m' : Maps π} {p : π} {fd : Int} {addr fil size mapping slot : Nat} {spg : SuppPage π}
  {rest : List Nat}

omit [DecidableEq π] in
theorem pgOfs_add (h : pgOfs addr = 0) (i : Nat) : pgOfs (addr + 4096 * i) = 0 := by
  unfold pgOfs pgSize at *
  omega

omit [DecidableEq π] in
theorem mem_regionPages {h : Nat} : spg ∈ regionPages p addr size h ↔
    ∃ i < pageCount size, regionPage p addr size h i = spg := by
  simp [regionPages]

omit [DecidableEq π] in
theorem regionPages_new {h : Nat} :
    ∀ spg ∈ regionPages p addr size h, spg.fr = none ∧ spg.pd = p := by
  intro spg hspg
  obtain ⟨i, -, rfl⟩ := mem_regionPages.mp hspg
  exact ⟨rfl, rfl⟩

omit [DecidableEq π] in
/-- The counter at a page of the region, as an address. -/
theorem toUnsigned_page {i : Nat} (huser : isUserVaddr (addr + 4096 * i)) :
    toUnsigned ((addr : Int) + 4096 * i) = addr + 4096 * i := by
  unfold isUserVaddr physBase at huser
  exact toUnsigned_natCast (n := addr + 4096 * i) (by omega)

namespace Request

omit [DecidableEq π]

variable (h : Request m p fd addr fil size mapping slot)
include h

theorem checked : m.Checked p fd addr mapping fil where
  args := ⟨h.addr.2.1, h.descriptor.1, h.descriptor.2, h.addr.1, h.addr.2.2⟩
  free := h.free
  index := h.index
  file := h.file
  length := by
    rw [h.length]
    exact h.size.1.ne'

/-- The page of the stack, counted from the first page of the region. -/
theorem stack_page : m.vm.lookup p (addr + 4096 * ((0xbffff000 - addr) / 4096)) ≠ none := by
  obtain ⟨-, haligned, huser⟩ := h.addr
  unfold isUserVaddr physBase pgOfs pgSize at *
  rw [show addr + 4096 * ((0xbffff000 - addr) / 4096) = 0xbffff000 by omega]
  exact h.stack

/-- A region that is free ends in the user address space: the page of the stack comes before its
    end. -/
theorem region (hover : ¬ m.Overlapping p addr size) : UserRegion addr size := by
  refine ⟨h.size, h.addr.2.1, fun i hi => ?_⟩
  by_contra hnot
  refine hover ⟨(0xbffff000 - addr) / 4096, ?_, h.stack_page⟩
  unfold isUserVaddr physBase at hnot
  omega

end Request

omit [DecidableEq π] in
/-- The loop comes to a page of the region that is in the table. -/
theorem scan_found (haddr : pgOfs addr = 0) {bound : Int} {j : Nat}
    (hfound : m.vm.lookup p (addr + 4096 * j) ≠ none)
    (huser : ∀ i ≤ j, isUserVaddr (addr + 4096 * i))
    (hbound : ∀ i ≤ j, wrap ((addr : Int) + 4096 * i) < bound) :
    (eachPage bound (occupied p) (pagesFrom addr) (wrap addr)).run m = .ok (true, m) := by
  -- the loop ends at the first of these pages
  have hex : ∃ i, m.vm.lookup p (addr + 4096 * i) ≠ none := ⟨j, hfound⟩
  classical
  have hle : Nat.find hex ≤ j := Nat.find_le hfound
  have hlimit := huser j le_rfl
  unfold isUserVaddr at hlimit
  rw [show pagesFrom addr = Nat.find hex + ((physBase - addr) / 4096 + 1 - Nat.find hex + 1) by
    unfold pagesFrom
    omega]
  refine scan_passes haddr (fun i hi => ?_) ?_
  · have hnone := Nat.find_min hex hi
    rw [not_not] at hnone
    rw [toUnsigned_page (huser i (by omega))]
    exact ⟨hbound i (by omega), huser i (by omega), hnone⟩
  · have hhere := (toUnsigned_wrap _).trans (toUnsigned_page (huser _ hle))
    rw [eachPage, if_pos (hbound _ hle),
      bind_ok (occupied_run hhere (huser _ hle) (pgOfs_add haddr _)),
      Option.isSome_iff_ne_none.mpr (Nat.find_spec hex), if_pos rfl]
    rfl

/-! ### The pages are created -/

/-- The file is open once more. -/
def reopened (k : Vm π) (fil : Nat) : Vm π :=
  { k with
    brk := k.brk + 1
    files := { k.files with
      inode := update k.files.inode k.brk (k.files.inode fil) } }

/-- The state when the mapping has been entered. -/
def entered (m : Maps π) (p : π) (addr fil size mapping slot : Nat) : Maps π :=
  { m with
    vm := (reopened m.vm fil).registeredAll p (regionPages p addr size m.vm.brk)
    mmappings := update m.mmappings p (update (m.mmappings p) mapping slot)
    allMmappings := update m.allMmappings slot ⟨addr, some m.vm.brk, size⟩ }

section

omit [DecidableEq π]

theorem onVm_bind {α β : Type} {x : Exec (Vm π) α} {f : α → Exec (Vm π) β} :
    (onVm (x >>= f)).run m = (onVm x >>= fun a => onVm (f a)).run m :=
  zoom_bind (fun _ _ => rfl) (fun _ _ _ => rfl)

theorem onVm_eq_ok {α : Type} {x : Exec (Vm π) α} {a : α} : (onVm x).run m = .ok (a, m') ↔
    ∃ k, x.run m.vm = .ok (a, k) ∧ m' = { m with vm := k } := by
  constructor
  · intro h
    cases hx : x.run m.vm with
    | error e => cases (zoom_error hx).symm.trans h
    | ok r =>
      cases (zoom_ok hx).symm.trans h
      exact ⟨r.2, rfl, rfl⟩
  · rintro ⟨k, hx, rfl⟩
    exact zoom_ok hx

end

/-- `create_filesys_page` makes the page of the region. -/
theorem createPage_eq (hsize : size < 2 ^ 31) (haddr : addr + size < 2 ^ 32) {h i : Nat}
    (hi : 4096 * i < size) {bytes : Int} (hbytes : bytes = (min 4096 (size - 4096 * i) : Nat)) :
    (createPage p addr (some h) bytes i).run m =
      (onVm (Vm.registerPages p [regionPage p addr size h i])).run m := by
  have hvaddr : toUnsigned (wrap (wrap addr + wrap (4096 * i))) = addr + 4096 * i := by
    rw [toUnsigned_wrap, ← toUnsigned_wrap, wrap_wrap_add, wrap_add_wrap, toUnsigned_wrap]
    exact toUnsigned_natCast (n := addr + 4096 * i) (by omega)
  have hoffset : wrap ((i : Int) * 4096) = (4096 * i : Nat) := by
    rw [wrap_of_range] <;> omega
  have hderef : (onVm (Vm.deref (some h))).run m = .ok (h, m) := zoom_ok rfl
  rw [createPage, bind_ok (assert_pos (by simp) _ _), bind_ok hderef, hvaddr, hoffset, hbytes,
    Vm.registerPages, onVm_bind]
  rfl

theorem createPages_eq (hsize : size < 2 ^ 31) (haddr : addr + size < 2 ^ 32) {h : Nat}
    (l : List Nat) (hl : ∀ i ∈ l, 4096 * (i + 1) ≤ size) (m : Maps π) :
    (createPages p addr (some h) l).run m =
      (onVm (Vm.registerPages p (l.map (regionPage p addr size h)))).run m := by
  induction l generalizing m with
  | nil => rfl
  | cons i l ih =>
    have hi := hl i (by simp)
    have hfirst : (createPage p addr (some h) pgSize i).run m =
        (onVm (Vm.registerPages p [regionPage p addr size h i])).run m := by
      refine createPage_eq hsize haddr (by omega) ?_
      unfold pgSize
      omega
    rw [createPages, map_cons, ← singleton_append, Vm.registerPages_append, onVm_bind]
    exact run_bind_congr hfirst (fun _ m' _ => ih (fun j hj => hl j (by simp [hj])) m')

/-- The loop and the last page are the pages of the region, one after the other. -/
theorem createRegion_eq (hsize : size < 2 ^ 31) (haddr : addr + size < 2 ^ 32) {h : Nat} :
    (createRegion p addr (some h) size).run m =
      (onVm (Vm.registerPages p (regionPages p addr size h))).run m := by
  have hdiv : ((size : Int).tdiv 4096).toNat = size / 4096 := rfl
  have hmod : (size : Int).tmod 4096 = (size % 4096 : Nat) := rfl
  have hwhole := createPages_eq hsize haddr (p := p) (h := h) (range (size / 4096)) (by
    intro i hi
    rw [mem_range] at hi
    omega)
  rw [createRegion, hdiv, hmod, regionPages]
  by_cases hlast : size % 4096 = 0
  · have hcount : pageCount size = size / 4096 := by
      unfold pageCount
      omega
    rw [hcount, ← hwhole m]
    simp only [hlast, Nat.cast_zero, ne_eq, not_true_eq_false, if_false]
    rw [bind_pure_unit]
  · have hcount : pageCount size = size / 4096 + 1 := by
      unfold pageCount
      omega
    rw [hcount, range_succ, map_append, Vm.registerPages_append, onVm_bind, if_pos (by omega)]
    exact run_bind_congr (hwhole m)
      (fun _ _ _ => createPage_eq hsize haddr (by omega) (by omega))

/-- Without memory for the file the first page is not created. -/
theorem createRegion_null (hsize : 0 < size) :
    (createRegion p addr none size).run m = .error (.panic "file != NULL") := by
  have hpage : ∀ bytes i, (createPage p addr none bytes i).run m =
      .error (.panic "file != NULL") := by
    intro bytes i
    exact bind_error (assert_neg (by simp) _ _)
  have hdiv : ((size : Int).tdiv 4096).toNat = size / 4096 := rfl
  have hmod : (size : Int).tmod 4096 = (size % 4096 : Nat) := rfl
  rw [createRegion, hdiv, hmod]
  cases hwhole : size / 4096 with
  | zero =>
    rw [show range 0 = [] from rfl, createPages, pure_bind, if_pos (by omega)]
    exact hpage _ _
  | succ n =>
    rw [range_succ_eq_map, createPages]
    exact bind_error (bind_error (hpage _ _))

/-- `mmap_lock` is taken, unless a process that found no slot has kept it. -/
theorem lockMmap_ok {u : Unit} : (lockMmap p).run m = .ok (u, m') ↔
    m.mmapLock = none ∧ m' = { m with mmapLock := some p } := by
  rw [lockMmap, read_bind]
  by_cases hheld : m.mmapLock = some p
  · rw [bind_error (assert_neg (by simpa using hheld) _ _), hheld]
    simp
  · rw [bind_ok (assert_pos hheld _ _)]
    split_ifs with hfree
    · simp [hfree, eq_comm]
    · simp [hfree]

omit [DecidableEq π] in
theorem fileReopen_run : (fileReopen (some fil)).run m =
    if m.vm.malloc m.vm.brk then .ok (some m.vm.brk, { m with vm := reopened m.vm fil })
    else .ok (none, { m with vm := { m.vm with brk := m.vm.brk + 1 } }) := by
  have halloc : (Vm.allocate : Exec (Vm π) (Option Nat)).run m.vm =
      if m.vm.malloc m.vm.brk then .ok (some m.vm.brk, { m.vm with brk := m.vm.brk + 1 })
      else .ok (none, { m.vm with brk := m.vm.brk + 1 }) := by
    rw [Vm.allocate, read_bind, update_bind]
    simp only [id]
    split <;> rfl
  split_ifs at halloc ⊢ with hmalloc
  · exact zoom_ok ((bind_ok (Vm.deref_run rfl)).trans (bind_ok halloc))
  · exact zoom_ok ((bind_ok (Vm.deref_run rfl)).trans (bind_ok halloc))

/-- The state when the slot of the mapping is filled in. -/
def claimed (m : Maps π) (addr fil size slot : Nat) : Maps π :=
  { m with
    vm := reopened m.vm fil
    allMmappings := update m.allMmappings slot ⟨addr, some m.vm.brk, size⟩ }

/-- The rest of `mmap` when it has taken the lock. -/
theorem enterMapping_run (hpos : 0 < size)
    (hslot : firstFree (fun i => decide ((m.allMmappings i).addr ≠ 0)) maxGlobalMappings =
      some slot) (hlock : m.mmapLock = none) : (enterMapping p mapping addr (some fil) size).run m =
      if m.vm.malloc m.vm.brk then
        (createRegion p addr (some m.vm.brk) size >>= fun _ => do
          Exec.update (fun m => { m with
            mmappings := update m.mmappings p
              (update (m.mmappings p) mapping (slot : Int)) })
          pure (mapping : Int)).run (m.claimed addr fil size slot)
      else .error (.panic "file != NULL") := by
  have hrestore : ∀ m₁ : Maps π, m₁.mmapLock = some p →
      (unlockMmap p).run m₁ = .ok ((), { m₁ with mmapLock := none }) := by
    intro m₁ hm₁
    rw [unlockMmap, read_bind, bind_ok (assert_pos hm₁ _ _)]
    rfl
  have htake : (lockMmap p).run m = .ok ((), { m with mmapLock := some p }) :=
    lockMmap_ok.mpr ⟨hlock, rfl⟩
  rw [enterMapping, bind_ok htake, read_bind]
  simp only [hslot]
  have hreopen : (fileReopen (some fil)).run { m with mmapLock := some p } = _ := fileReopen_run
  split_ifs at hreopen ⊢ with hmalloc
  · rw [bind_ok hreopen, update_bind, bind_ok (hrestore _ rfl)]
    simp only [claimed, hlock]
  · rw [bind_ok hreopen, update_bind, bind_ok (hrestore _ rfl)]
    exact bind_error (createRegion_null hpos)

/-- When the mapping is entered, and the state then. -/
theorem enterMapping_iff (hm : m.vm.mapping.Sound) (hfits : 0 < size ∧ size < 2 ^ 31)
    (haddr : addr + size < 2 ^ 32)
    (hslot : firstFree (fun i => decide ((m.allMmappings i).addr ≠ 0)) maxGlobalMappings =
      some slot) {r : Int} :
    (enterMapping p mapping addr (some fil) size).run m = .ok (r, m') ↔
      (m.mmapLock = none ∧ m.vm.malloc m.vm.brk = true ∧
        Vm.Registrable (reopened m.vm fil) p (regionPages p addr size m.vm.brk)) ∧
      r = mapping ∧ m' = m.entered p addr fil size mapping slot := by
  by_cases hlock : m.mmapLock = none
  swap
  · constructor
    · intro hrun
      rw [enterMapping, bind_eq_ok] at hrun
      obtain ⟨_, m₁, hfirst, -⟩ := hrun
      exact absurd (lockMmap_ok.mp hfirst).1 hlock
    · rintro ⟨⟨hfree, -⟩, -⟩
      exact absurd hfree hlock
  rw [enterMapping_run hfits.1 hslot hlock]
  split_ifs with hmalloc
  swap
  · simp [hmalloc]
  have hsound : (reopened m.vm fil).mapping.Sound := hm.bump (Nat.le_succ _)
  simp only [bind_eq_ok, createRegion_eq hfits.2 haddr, onVm_eq_ok, hlock, hmalloc, true_and]
  constructor
  · rintro ⟨_, m₁, ⟨k, hregister, rfl⟩, _, m₂, hupdate, hpure⟩
    obtain ⟨hreg, rfl⟩ := (Vm.registerPages_iff hsound regionPages_new).mp hregister
    cases hupdate
    cases hpure
    exact ⟨hreg, rfl, rfl⟩
  · rintro ⟨hreg, rfl, rfl⟩
    exact ⟨(), _, ⟨_, (Vm.registerPages_iff hsound regionPages_new).mpr ⟨hreg, rfl⟩, rfl⟩, (), _,
      rfl, rfl⟩

section

omit [DecidableEq π]

theorem length_regionPages (h : Nat) : (regionPages p addr size h).length = pageCount size := by
  simp [regionPages]

/-- The region can be entered if it is free and there is memory for its pages. -/
theorem registrable_region (h : Request m p fd addr fil size mapping slot) :
    Vm.Registrable (reopened m.vm fil) p (regionPages p addr size m.vm.brk) ↔
      ¬ m.Overlapping p addr size ∧
        ∀ i < pageCount size, m.vm.malloc (m.vm.brk + 1 + i) = true := by
  constructor
  · intro hreg
    refine ⟨?_, fun i hi => hreg.malloc i (by rw [length_regionPages]; exact hi)⟩
    rintro ⟨i, hi, hfound⟩
    exact hfound (hreg.new _ (mem_regionPages.mpr ⟨i, hi, rfl⟩))
  · rintro ⟨hover, hmalloc⟩
    refine ⟨?_, ?_, ?_, ?_⟩
    · intro spg hspg
      obtain ⟨i, hi, rfl⟩ := mem_regionPages.mp hspg
      exact ⟨(h.region hover).user i hi, pgOfs_add h.addr.2.1 i⟩
    · intro spg hspg
      obtain ⟨i, hi, rfl⟩ := mem_regionPages.mp hspg
      exact not_not.mp (fun hfound => hover ⟨i, hi, hfound⟩)
    · rw [regionPages, map_map]
      refine List.Nodup.map (fun i j hij => ?_) nodup_range
      have : addr + 4096 * i = addr + 4096 * j := hij
      omega
    · intro i hi
      rw [length_regionPages] at hi
      exact hmalloc i hi

end

/-! ### The pages are removed -/

/-- The page `a` has been taken out of its frame, if it was in one, and of the table. -/
structure TakenOut (k : Vm π) (p : π) (a : Nat) (spg : SuppPage π) (k₁ k' : Vm π) : Prop where
  evicted : spg.fr = none ∧ k₁ = k ∨ ∃ f fr k₂ spg₂, Vm.Evicts k f fr a spg k₂ spg₂ k₁
  entry : k₁.pages = update k.pages a (some { spg with fr := none })
  table : k₁.table = k.table
  sound : k₁.mapping.Sound
  result : k' = k₁.unlisted p a

theorem TakenOut.pages {k k₁ k' : Vm π} {a : Nat} (h : TakenOut k p a spg k₁ k') :
    k'.pages = update k.pages a none := by
  rw [h.result, Vm.unlisted]
  dsimp only
  rw [h.entry, update_idem]

/-- The body of the loop of `munmap` takes a page of a file out of its frame and of the table. -/
theorem unmapPage_returns {k : Vm π} {a : Nat} (hk : k.mapping.Sound)
    (hspg : k.pages a = some spg) (hfile : Vm.FilePage spg) (hpd : spg.pd = p) :
    Returns (unmapPage p spg.vaddr) k (fun _ k' => k'.mapping.Sound ∧
      ∃ k₁, TakenOut k p a spg k₁ k') := by
  have hfound : (Vm.getSuppPage p spg.vaddr).run k = .ok (some a, k) := by
    rw [Vm.getSuppPage, bind_ok (assert_pos hfile.user _ _),
      bind_ok (assert_pos hfile.aligned _ _), ← Vm.lookup_of_page hk hspg, hpd]
    rfl
  rw [unmapPage, returns_step (assert_pos hfile.user _ _), returns_step hfound,
    returns_step (Vm.deref_run rfl), returns_step (Vm.getPage_run hspg)]
  cases hfr : spg.fr with
  | none =>
    have hout : Vm.Admissible p spg := ⟨hfile.user, hfile.aligned, hfr, hpd⟩
    refine ⟨(), _, Vm.freeSuppPage_run hk hspg hout, Vm.sound_unlisted hk hspg hout, k,
      .inl ⟨hfr, rfl⟩, ?_, rfl, hk, rfl⟩
    rw [← hfr, ← hspg, update_eq_self]
  | some f =>
    show Returns (Vm.frameEvict f >>= fun _ => Vm.freeSuppPage p a) k _
    refine (Vm.frameEvict_returns hk hspg hfr hfile).bind (fun _ k₁ hk₁ => ?_)
    obtain ⟨⟨fr, k₂, spg₂, hev⟩, htable, hpages⟩ := hk₁
    have hspg₁ : k₁.pages a = some { spg with fr := none } := by
      rw [hpages, update_self]
    have hsound := hev.sound hk
    have hout : Vm.Admissible p { spg with fr := none } := ⟨hfile.user, hfile.aligned, rfl, hpd⟩
    exact ⟨(), _, Vm.freeSuppPage_run hsound hspg₁ hout, Vm.sound_unlisted hsound hspg₁ hout, k₁,
      .inr ⟨f, fr, k₂, spg₂, hev⟩, hpages, htable, hsound, rfl⟩

/-- The pages from the given one on are still to be removed, and the others are as they were. -/
structure Removing (p : π) (v : Vm π) (b n : Nat) (rest : List Nat) (i : Nat) (k : Vm π) :
    Prop where
  sound : k.mapping.Sound
  table : k.table p = (range' (b + i) (n - i)).reverse ++ rest
  gone : ∀ j < i, k.pages (b + j) = none
  kept : ∀ a, (a < b ∨ b + i ≤ a) → k.pages a = v.pages a

theorem Removing.next {v k k₁ k' : Vm π} {b n i : Nat} (h : Removing p v b n rest i k)
    (hi : i < n) (hk' : k'.mapping.Sound) (hout : TakenOut k p (b + i) spg k₁ k') :
    Removing p v b n rest (i + 1) k' := by
  have hpages := hout.pages
  have htable : k'.table = update k.table p ((k.table p).erase (b + i)) := by
    rw [hout.result, Vm.unlisted, hout.table]
  refine ⟨hk', ?_, fun j hj => ?_, fun a ha => ?_⟩
  · -- the page is the last of the new ones in the table
    have hsplit : range' (b + i) (n - i) =
        (b + i) :: range' (b + (i + 1)) (n - (i + 1)) := by
      rw [show n - i = n - (i + 1) + 1 by omega, range'_succ]
      rfl
    have hnot : b + i ∉ (range' (b + (i + 1)) (n - (i + 1))).reverse := by
      rw [mem_reverse, mem_range'_1]
      omega
    rw [htable, update_self, h.table, hsplit, reverse_cons, append_assoc,
      erase_append_right _ hnot, singleton_append, erase_cons_head]
  · rw [hpages]
    rcases Nat.lt_succ_iff_lt_or_eq.mp hj with hj | rfl
    · rw [update_of_ne (by omega), h.gone j hj]
    · rw [update_self]
  · rw [hpages, update_of_ne (by omega), h.kept a (by omega)]

/-! ### Where the region is -/

/-- The region is in the upper half of the address space, or ends before the middle. -/
def Clear (addr length : Nat) : Prop := 2 ^ 31 ≤ addr ∨ addr + length < 2 ^ 31

instance (addr length : Nat) : Decidable (Clear addr length) := inferInstanceAs (Decidable (_ ∨ _))

section

omit [DecidableEq π]

theorem wrap_low {x : Nat} (h : x < 2 ^ 31) : wrap (x : Int) = x :=
  wrap_of_range (by omega) (by omega)

theorem wrap_high {x : Nat} (h : 2 ^ 31 ≤ x) (h' : x < 2 ^ 32 + 2 ^ 31) :
    wrap (x : Int) = x - 2 ^ 32 := by
  have hsame : wrap (x : Int) = wrap ((x : Int) - 2 ^ 32) := by
    unfold wrap
    rw [show (x : Int) = ((x : Int) - 2 ^ 32) + (2 ^ 32 : Nat) by omega, Int.add_bmod_right]
    congr 1
    omega
  rw [hsame]
  exact wrap_of_range (by omega) (by omega)

end

/-- The counter at the page `i` of the region, as `off_t`. -/
theorem natCast_page (addr i : Nat) :
    ((addr : Int) + 4096 * i) = ((addr + 4096 * i : Nat) : Int) := by
  push_cast
  rfl

theorem natCast_end : wrap (wrap (addr : Int) + size) = wrap ((addr + size : Nat) : Int) := by
  rw [wrap_wrap_add]
  push_cast
  rfl

/-- The end of a region that does not go over the middle, as `off_t`. -/
theorem UserRegion.counter (h : UserRegion addr size)
    (hclear : Clear addr (4096 * pageCount size)) :
    (∀ i < pageCount size, wrap ((addr : Int) + 4096 * i) < wrap (wrap (addr : Int) + size)) ∧
      wrap (wrap (addr : Int) + size) ≤ wrap ((addr : Int) + 4096 * pageCount size) := by
  obtain ⟨hpos, hsize⟩ := h.fits
  have haligned := h.aligned
  have hlast := h.last
  simp only [natCast_page, natCast_end]
  unfold Clear pageCount isUserVaddr physBase pgOfs pgSize at *
  rcases hclear with hhigh | hlow
  · refine ⟨fun i hi => ?_, ?_⟩
    · rw [wrap_high (by omega) (by omega), wrap_high (by omega) (by omega)]
      omega
    · rw [wrap_high (by omega) (by omega), wrap_high (by omega) (by omega)]
      omega
  · refine ⟨fun i hi => ?_, ?_⟩
    · rw [wrap_low (by omega), wrap_low (by omega)]
      omega
    · rw [wrap_low (by omega), wrap_low (by omega)]
      omega

namespace Request

omit [DecidableEq π]

variable (h : Request m p fd addr fil size mapping slot)
include h

/-- `mmap` finds that a page of the region is there. -/
theorem scan_overlapping (hover : m.Overlapping p addr size) (hclear : Clear addr size) :
    (eachPage (wrap (wrap addr + size)) (occupied p) (pagesFrom addr) (wrap addr)).run m =
      .ok (true, m) := by
  obtain ⟨hpos, hsize⟩ := h.size
  have huser := h.addr.2.2
  -- a page of the region in the table that is below `PHYS_BASE`
  obtain ⟨j, hj, hfound, hbelow⟩ : ∃ j < pageCount size, m.vm.lookup p (addr + 4096 * j) ≠ none ∧
      addr + 4096 * j < physBase := by
    obtain ⟨j, hj, hfound⟩ := hover
    by_cases hbelow : addr + 4096 * j < physBase
    · exact ⟨j, hj, hfound, hbelow⟩
    · unfold isUserVaddr physBase at *
      exact ⟨(0xbffff000 - addr) / 4096, by omega, h.stack_page, by omega⟩
  unfold physBase at hbelow
  unfold pageCount at hj
  refine scan_found h.addr.2.1 hfound (fun i hi => ?_) (fun i hi => ?_)
  · unfold isUserVaddr physBase
    omega
  · rw [natCast_page, natCast_end]
    rcases hclear with hhigh | hlow
    · rw [wrap_high (by omega) (by omega), wrap_high (by omega) (by omega)]
      omega
    · rw [wrap_low (by omega), wrap_low (by omega)]
      omega

/-- The counter goes past the middle, and comes to the page of the stack. -/
theorem scan_past_middle (hlow : addr + size < 2 ^ 31)
    (hhigh : 2 ^ 31 ≤ addr + 4096 * pageCount size) :
    (eachPage (wrap (wrap addr + size)) (occupied p) (pagesFrom addr) (wrap addr)).run m =
      .ok (true, m) := by
  have haligned := h.addr.2.1
  unfold pageCount at hhigh
  refine scan_found haligned h.stack_page (fun i hi => ?_) (fun i hi => ?_)
  · unfold isUserVaddr physBase
    omega
  · rw [natCast_page, natCast_end, wrap_low hlow]
    by_cases hmiddle : addr + 4096 * i < 2 ^ 31
    · rw [wrap_low hmiddle]
      unfold pgOfs pgSize at haligned
      omega
    · rw [wrap_high (by omega) (by omega)]
      omega

/-- The loop goes over all pages of a free region that does not go over the middle. -/
theorem scanClear (hover : ¬ m.Overlapping p addr size)
    (hclear : Clear addr (4096 * pageCount size)) : m.ScanClear p addr size := by
  have hregion := h.region hover
  obtain ⟨hbound, hend⟩ := hregion.counter hclear
  refine ⟨pageCount size, fun i hi => ?_, hend⟩
  rw [toUnsigned_page (hregion.user i hi)]
  exact ⟨hbound i hi, hregion.user i hi, not_not.mp (fun hfound => hover ⟨i, hi, hfound⟩)⟩

end Request

/-! ### The whole call -/

/-- `m'` has the pages of the region besides those of `m`, for the open file `h`. -/
structure MapsRegion (m m' : Maps π) (p : π) (addr fil size h : Nat) : Prop where
  content : m'.vm.files.content h = m.vm.files.content fil
  mapped : ∀ i < pageCount size,
    m'.vm.pageAt p (addr + 4096 * i) = some (regionPage p addr size h i)
  others : ∀ q w, ¬ (q = p ∧ ∃ i < pageCount size, addr + 4096 * i = w) →
    m'.vm.pageAt q w = m.vm.pageAt q w

/-- Whatever else has been done with the memory since, `munmap` takes the pages of the region out of
    the table of `p`, which is then that of `m` again, and leaves all other pages as they are. -/
def UnmapsRegion (m m' : Maps π) (p : π) (addr size : Nat) (mapping : Int) : Prop :=
  ∀ v, (KernelSanders.vm π).Run (fun _ o => Vm.LeavesTable p o) m'.vm v →
    Returns (munmap p mapping) { m' with vm := v } (fun _ m'' =>
      m''.vm.table p = m.vm.table p ∧
      (∀ i < pageCount size, m''.vm.pageAt p (addr + 4096 * i) = none) ∧
      ∀ q w, ¬ (q = p ∧ ∃ i < pageCount size, addr + 4096 * i = w) →
        m''.vm.pageAt q w = v.pageAt q w)

/-- `mmap` returns, it fails if and only if a page of the region is in the table, and otherwise it
    maps the region and `munmap` undoes that. -/
def MapsExactly (m : Maps π) (p : π) (fd : Int) (addr fil size : Nat) : Prop :=
  Returns (mmap p fd addr) m (fun r m' => (r = mapFailed ↔ m.Overlapping p addr size) ∧
    (r ≠ mapFailed → (∃ h, MapsRegion m m' p addr fil size h) ∧ UnmapsRegion m m' p addr size r))

section Entered

/-- The pages of the region come after the file. -/
theorem entered_pages {i : Nat} (hi : i < pageCount size) :
    (m.entered p addr fil size mapping slot).vm.pages (m.vm.brk + 1 + i) =
      some (regionPage p addr size m.vm.brk i) := by
  have hnew : ¬ m.vm.brk + 1 + i < (reopened m.vm fil).brk := Nat.not_lt.mpr (Nat.le_add_right _ _)
  show ((reopened m.vm fil).registeredAll p _).pages _ = _
  rw [Vm.pages_registeredAll, if_neg hnew]
  simp [reopened, regionPages, hi]

omit [DecidableEq π] in
/-- A page of the region can be written back. -/
theorem UserRegion.filePage (h : UserRegion addr size) {i b : Nat} (hi : i < pageCount size)
    (fr : Option Nat) : Vm.FilePage { regionPage p addr size b i with fr := fr } where
  user := h.user i hi
  aligned := pgOfs_add h.aligned i
  type := rfl
  fil := by simp [regionPage]
  offset := by simp [regionPage]
  bytes := by
    simp only [regionPage, pgSize]
    omega

variable {s : Maps π}

/-- The loop of `munmap` over a region that does not go over the middle: `I i` holds when it comes
    to the page `i`. -/
theorem unmapPages_each (h : UserRegion addr size) (hclear : Clear addr (4096 * pageCount size))
    {I : Nat → Maps π → Prop} {file : Option Nat}
    (hpage : ∀ i < pageCount size, ∀ t, I i t → Returns (unmapPage p (addr + 4096 * i)) t.vm
      (fun _ k => I (i + 1) { t with vm := k }))
    (hs : I 0 s) :
    Returns (unmapPages p ⟨addr, file, size⟩) s (fun _ t => I (pageCount size) t) := by
  obtain ⟨hbound, hend⟩ := h.counter hclear
  have hloop : unmapPages p ⟨addr, file, size⟩ =
      eachPage (wrap (wrap addr + size)) (fun i => onVm (do unmapPage p (toUnsigned i); pure false))
        (pagesFrom addr) (wrap addr) >>= fun _ => pure () := rfl
  rw [hloop]
  refine Returns.bind (Q := fun _ t => I (pageCount size) t) ?_
    (fun _ _ ht => returns_pure.mpr ht)
  rw [h.pagesFrom_eq]
  refine eachPage_returns hbound ?_ ?_ hs
  · intro i hi t ht
    rw [toUnsigned_wrap, toUnsigned_page (h.user i hi), onVm, returns_zoom]
    exact (hpage i hi t ht).bind (fun _ k hk => returns_pure.mpr ⟨rfl, hk⟩)
  · intro t ht
    exact ⟨false, t, eachPage_empty hend, ht⟩

omit [DecidableEq π] in
/-- What is left when all pages of the region have been removed. -/
theorem Removing.done {v k : Vm π} {b : Nat} (hv : v.mapping.Sound)
    (hpages : ∀ i < pageCount size, ∃ fr, v.pages (b + i) =
      some { regionPage p addr size fil i with fr := fr })
    (h : Removing p v b (pageCount size) rest (pageCount size) k) :
    k.table p = rest ∧ (∀ i < pageCount size, k.pageAt p (addr + 4096 * i) = none) ∧
      ∀ q w, ¬ (q = p ∧ ∃ i < pageCount size, addr + 4096 * i = w) →
        k.pageAt q w = v.pageAt q w := by
  -- a page that is there is not one of those that were removed
  have hcases : ∀ a spg, k.pages a = some spg →
      v.pages a = some spg ∧ ∀ i < pageCount size, a ≠ b + i := by
    intro a spg hspg
    have hne : ∀ i < pageCount size, a ≠ b + i := by
      rintro i hi rfl
      rw [h.gone i hi] at hspg
      cases hspg
    refine ⟨?_, hne⟩
    rw [← h.kept a ?_]
    · exact hspg
    · by_contra hnot
      exact hne (a - b) (by omega) (by omega)
  refine ⟨?_, fun i hi => ?_, fun q w hnot => ?_⟩
  · rw [h.table, Nat.sub_self]
    rfl
  · cases hfound : k.pageAt p (addr + 4096 * i) with
    | none => rfl
    | some spg =>
      obtain ⟨a, ha, hpd, hvaddr⟩ := (Vm.pageAt_eq_some h.sound).mp hfound
      obtain ⟨hva, hne⟩ := hcases a spg ha
      obtain ⟨fr, hvi⟩ := hpages i hi
      exact absurd (hv.keys a (b + i) _ _ (Vm.mapping_page hva) (Vm.mapping_page hvi) hpd hvaddr)
        (hne i hi)
  · refine Option.ext (fun spg => ?_)
    rw [Vm.pageAt_eq_some h.sound, Vm.pageAt_eq_some hv]
    constructor
    · rintro ⟨a, ha, hpd, hvaddr⟩
      exact ⟨a, (hcases a spg ha).1, hpd, hvaddr⟩
    · rintro ⟨a, ha, rfl, rfl⟩
      refine ⟨a, ?_, rfl, rfl⟩
      rw [h.kept a ?_]
      · exact ha
      · by_contra hin
        obtain ⟨i, rfl⟩ := Nat.exists_eq_add_of_le (show b ≤ a by omega)
        obtain ⟨fr, hvi⟩ := hpages i (by omega)
        cases ha.symm.trans hvi
        exact hnot ⟨rfl, i, by omega, rfl⟩

/-- The mapping and its slot are given up. -/
def released (m : Maps π) (p : π) (mapping slot : Nat) : Maps π :=
  { m with
    allMmappings := update m.allMmappings slot ⟨0, none, 0⟩
    mmappings := update m.mmappings p (update (m.mmappings p) mapping (-1)) }

theorem munmap_run (hmapping : mapping < maxMmappings) (hslot : m.mmappings p mapping = slot) :
    (munmap p mapping).run m =
      (unmapPages p (m.allMmappings slot)).run (m.released p mapping slot) := by
  rw [munmap, if_pos ⟨by omega, by omega⟩, read_bind]
  simp only [Int.toNat_natCast, hslot]
  rw [if_pos (by omega), read_bind, update_bind, released]

section

/-- The state when the mapping of the request has been entered. -/
abbrev Request.entered (_ : Request m p fd addr fil size mapping slot) : Maps π :=
  m.entered p addr fil size mapping slot

variable (h : Request m p fd addr fil size mapping slot)
include h

/-- The mapping that has been entered. -/
theorem entered_mapsRegion
    (hreg : Vm.Registrable (reopened m.vm fil) p (regionPages p addr size m.vm.brk)) :
    h.entered.vm.mapping.Sound ∧ MapsRegion m h.entered p addr fil size m.vm.brk := by
  have hsound : (reopened m.vm fil).mapping.Sound := h.sound.bump (Nat.le_succ _)
  obtain ⟨hs, hthese, hothers⟩ := Vm.pageAt_registeredAll hsound regionPages_new hreg
  refine ⟨hs, ⟨?_, fun i hi => ?_, fun q w hnot => ?_⟩⟩
  · show ((reopened m.vm fil).registeredAll p _).files.content m.vm.brk = _
    rw [Vm.files_registeredAll]
    simp [reopened, Files.content]
  · exact hthese _ (mem_regionPages.mpr ⟨i, hi, rfl⟩)
  · refine hothers q w ?_
    rintro ⟨rfl, spg, hspg, rfl⟩
    obtain ⟨i, hi, rfl⟩ := mem_regionPages.mp hspg
    exact hnot ⟨rfl, i, hi, rfl⟩

/-- The pages of the region after any other steps. -/
theorem entered_remains (hsound : h.entered.vm.mapping.Sound) {v : Vm π}
    (hrun : (KernelSanders.vm π).Run (fun _ o => Vm.LeavesTable p o) h.entered.vm v) :
    v.mapping.Sound ∧
      v.table p = (range' (m.vm.brk + 1) (pageCount size)).reverse ++ m.vm.table p ∧
      ∀ i < pageCount size, ∃ fr, v.pages (m.vm.brk + 1 + i) =
        some { regionPage p addr size m.vm.brk i with fr := fr } := by
  obtain ⟨hv, hremains⟩ := Vm.run_remains hrun hsound
  have htable : h.entered.vm.table p =
      (range' (m.vm.brk + 1) (pageCount size)).reverse ++ m.vm.table p := by
    show ((reopened m.vm fil).registeredAll p _).table p = _
    rw [Vm.table_registeredAll, length_regionPages]
    rfl
  refine ⟨hv, hremains.table.trans htable, fun i hi => ?_⟩
  refine hremains.pages _ ?_ _ (entered_pages hi) rfl ?_
  · rw [htable, mem_append, mem_reverse, mem_range'_1]
    left
    omega
  · -- the file is new, and the executable is not
    intro hexe
    have hold : m.vm.exe p = some m.vm.brk := by
      rw [show some m.vm.brk = (regionPage p addr size m.vm.brk i).fil from rfl, hexe]
      show _ = ((reopened m.vm fil).registeredAll p _).exe p
      rw [Vm.exe_registeredAll]
      rfl
    exact absurd (h.exe _ hold) (lt_irrefl _)

theorem munmap_entered (v : Vm π) :
    (munmap p mapping).run { h.entered with vm := v } =
      (unmapPages p ⟨addr, some m.vm.brk, size⟩).run
        ({ h.entered with vm := v }.released p mapping slot) := by
  have hslot : ({ h.entered with vm := v } : Maps π).mmappings p
      mapping = slot := by
    simp [entered]
  rw [munmap_run (firstFree_eq_some.mp h.free).1 hslot]
  simp [entered]

/-- The loop of `munmap` removes the pages of a region that does not go over the middle. -/
theorem unmapPages_returns (hover : ¬ m.Overlapping p addr size)
    (hclear : Clear addr (4096 * pageCount size)) (hs : s.vm.mapping.Sound)
    (htable : s.vm.table p = (range' (m.vm.brk + 1) (pageCount size)).reverse ++ m.vm.table p)
    (hpages : ∀ i < pageCount size, ∃ fr, s.vm.pages (m.vm.brk + 1 + i) =
      some { regionPage p addr size m.vm.brk i with fr := fr }) :
    Returns (unmapPages p ⟨addr, some m.vm.brk, size⟩) s (fun _ m'' =>
      Removing p s.vm (m.vm.brk + 1) (pageCount size) (m.vm.table p) (pageCount size) m''.vm) := by
  have hregion := h.region hover
  refine unmapPages_each hregion hclear (I := fun i t =>
    Removing p s.vm (m.vm.brk + 1) (pageCount size) (m.vm.table p) i t.vm) (fun i hi t ht => ?_)
    ⟨hs, htable, by simp, fun _ _ => rfl⟩
  obtain ⟨fr, hsi⟩ := hpages i hi
  have hspg : t.vm.pages (m.vm.brk + 1 + i) = _ := (ht.kept _ (by omega)).trans hsi
  refine (unmapPage_returns ht.sound hspg (hregion.filePage hi fr) rfl).mono ?_
  rintro _ k ⟨hk, k₁, hout⟩
  exact ht.next hi hk hout

theorem entered_unmaps (hsound : h.entered.vm.mapping.Sound)
    (hover : ¬ m.Overlapping p addr size) (hclear : Clear addr (4096 * pageCount size)) :
    UnmapsRegion m h.entered p addr size mapping := by
  intro v hrun
  obtain ⟨hv, htable, hpages⟩ := entered_remains h hsound hrun
  obtain ⟨u, m'', hrun', hremoved⟩ := unmapPages_returns h hover hclear
    (s := { h.entered with vm := v }.released p mapping slot)
    hv htable hpages
  exact ⟨u, m'', (munmap_entered h v).trans hrun', hremoved.done hv hpages⟩

end

end Entered

/-- The regions with which `mmap` and `munmap` deal as they should: a region with pages that are in
    the table, unless the last byte or the end is at the middle of the address space or beyond, and
    a free one, unless the last page is, when nobody has kept the lock and there is memory. -/
def MapsRight (m : Maps π) (p : π) (addr size : Nat) : Prop :=
  m.Overlapping p addr size ∧ Clear addr size ∨
    ¬ m.Overlapping p addr size ∧ Clear addr (4096 * pageCount size) ∧ m.mmapLock = none ∧
      ∀ i ≤ pageCount size, m.vm.malloc (m.vm.brk + i) = true

section

omit [DecidableEq π]

/-- A loop over a region that starts before the middle and ends there or beyond does not start. -/
theorem eachPage_past (haddr : addr < 2 ^ 31) (hend : 2 ^ 31 ≤ addr + size) (hsize : size < 2 ^ 31)
    (body : Int → Exec (Maps π) Bool) :
    (eachPage (wrap (wrap addr + size)) body (pagesFrom addr) (wrap addr)).run m =
      .ok (false, m) := by
  have hfuel : pagesFrom addr = (physBase - addr) / 4096 + 1 + 1 := by
    unfold pagesFrom
    omega
  rw [hfuel]
  refine eachPage_empty ?_
  rw [natCast_end, wrap_high hend (by omega), wrap_low haddr]
  omega

end

section

variable (h : Request m p fd addr fil size mapping slot)
include h

/-- `mmap` when the first loop has ended. -/
theorem mmap_of_scan {found : Bool}
    (hscan : (eachPage (wrap (wrap addr + size)) (occupied p) (pagesFrom addr) (wrap addr)).run m =
      .ok (found, m)) :
    (mmap p fd addr).run m =
      if found then .ok (mapFailed, m)
      else (enterMapping p mapping addr (some fil) size).run m := by
  rw [mmap_run h.checked, h.length, mapFile, bind_ok hscan]
  split_ifs <;> rfl

/-- `munmap` does not take the pages of such a region out. -/
theorem entered_not_unmaps (haddr : addr < 2 ^ 31) (hend : 2 ^ 31 ≤ addr + size)
    (hsound : h.entered.vm.mapping.Sound) :
    ¬ UnmapsRegion m h.entered p addr size mapping := by
  intro hunmaps
  obtain ⟨hpos, hsize⟩ := h.size
  obtain ⟨-, htable, -⟩ := entered_remains h hsound .refl
  obtain ⟨u, m'', hrun, hsame, -⟩ := hunmaps _ .refl
  have hempty : (unmapPages p ⟨addr, some m.vm.brk, size⟩).run
      (h.entered.released p mapping slot) =
        .ok ((), h.entered.released p mapping slot) :=
    bind_ok (eachPage_past haddr hend hsize _)
  cases (munmap_entered h _).symm.trans hrun |>.symm.trans hempty
  have hlength := congrArg length (htable.symm.trans hsame)
  simp only [length_append, length_reverse, length_range', pageCount] at hlength
  omega

/-- `mmap` when it returns a mapping. -/
theorem mapsExactly_entered (hover : ¬ m.Overlapping p addr size)
    (hrun : (mmap p fd addr).run m = (enterMapping p mapping addr (some fil) size).run m)
    (haddr : addr + size < 2 ^ 32) :
    m.MapsExactly p fd addr fil size ↔
      (m.mmapLock = none ∧ ∀ i ≤ pageCount size, m.vm.malloc (m.vm.brk + i) = true) ∧
        UnmapsRegion m h.entered p addr size mapping := by
  have hmalloc : (m.vm.malloc m.vm.brk = true ∧
      ∀ i < pageCount size, m.vm.malloc (m.vm.brk + 1 + i) = true) ↔
      ∀ i ≤ pageCount size, m.vm.malloc (m.vm.brk + i) = true := by
    constructor
    · rintro ⟨hfirst, hrest⟩ i hi
      cases i with
      | zero => exact hfirst
      | succ i =>
        rw [show m.vm.brk + (i + 1) = m.vm.brk + 1 + i by omega]
        exact hrest i (by omega)
    · intro hall
      refine ⟨hall 0 (by omega), fun i hi => ?_⟩
      rw [show m.vm.brk + 1 + i = m.vm.brk + (i + 1) by omega]
      exact hall (i + 1) (by omega)
  have hmapping : ((mapping : Nat) : Int) ≠ mapFailed := by
    unfold mapFailed
    omega
  constructor
  · rintro ⟨r, m', hm', -, hmapped⟩
    obtain ⟨⟨hlock, hfirst, hreg⟩, rfl, rfl⟩ :=
      (enterMapping_iff h.sound h.size haddr h.slot).mp (hrun.symm.trans hm')
    refine ⟨⟨hlock, hmalloc.mp ⟨hfirst, ((registrable_region h).mp hreg).2⟩⟩, ?_⟩
    exact (hmapped hmapping).2
  · rintro ⟨⟨hlock, hall⟩, hunmaps⟩
    obtain ⟨hfirst, hrest⟩ := hmalloc.mpr hall
    have hreg := (registrable_region h).mpr ⟨hover, hrest⟩
    have hentered : (enterMapping p mapping addr (some fil) size).run m = .ok _ :=
      (enterMapping_iff h.sound h.size haddr h.slot).mpr ⟨⟨hlock, hfirst, hreg⟩, rfl, rfl⟩
    refine ⟨mapping, _, hrun.trans hentered, iff_of_false hmapping hover, fun _ => ?_⟩
    exact ⟨⟨_, (entered_mapsRegion h hreg).2⟩, hunmaps⟩

theorem entered_sound (hover : ¬ m.Overlapping p addr size)
    (hmalloc : ∀ i ≤ pageCount size, m.vm.malloc (m.vm.brk + i) = true) :
    h.entered.vm.mapping.Sound := by
  refine (entered_mapsRegion h ((registrable_region h).mpr ⟨hover, fun i hi => ?_⟩)).1
  rw [show m.vm.brk + 1 + i = m.vm.brk + (i + 1) by omega]
  exact hmalloc (i + 1) (by omega)

/-- A region with pages that are in the table. -/
theorem mapsExactly_overlapping (hover : m.Overlapping p addr size) :
    m.MapsExactly p fd addr fil size ↔ Clear addr size := by
  constructor
  · rintro ⟨r, m', hrun, -, -⟩
    by_contra hclear
    unfold Clear at hclear
    have hlow : addr < 2 ^ 31 := by omega
    have hend : 2 ^ 31 ≤ addr + size := by omega
    have hsize := h.size.2
    have hmmap := mmap_of_scan h (eachPage_past hlow hend hsize _)
    rw [hmmap, if_neg Bool.false_ne_true, enterMapping_iff h.sound h.size (by omega) h.slot] at hrun
    exact ((registrable_region h).mp hrun.1.2.2).1 hover
  · intro hclear
    have hmmap := mmap_of_scan h (h.scan_overlapping hover hclear)
    refine ⟨mapFailed, m, hmmap.trans (if_pos rfl), iff_of_true rfl hover, ?_⟩
    exact fun hne => absurd rfl hne

/-- A region that is free. -/
theorem mapsExactly_free (hover : ¬ m.Overlapping p addr size) :
    m.MapsExactly p fd addr fil size ↔ Clear addr (4096 * pageCount size) ∧ m.mmapLock = none ∧
      ∀ i ≤ pageCount size, m.vm.malloc (m.vm.brk + i) = true := by
  obtain ⟨hpos, hsize⟩ := h.size
  by_cases hclear : Clear addr (4096 * pageCount size)
  · have hmmap := mmap_of_scan h (scan_run h.addr.2.1 h.addr.2.2 (h.scanClear hover hclear))
    have hlast := (h.region hover).last
    have haddr : addr + size < 2 ^ 32 := by
      unfold isUserVaddr physBase pageCount at hlast
      omega
    rw [mapsExactly_entered h hover hmmap haddr, and_iff_left_of_imp]
    · exact (and_iff_right hclear).symm
    · rintro ⟨-, hmalloc⟩
      exact entered_unmaps h (entered_sound h hover hmalloc) hover hclear
  · refine iff_of_false (fun hexact => ?_) (fun hright => hclear hright.1)
    unfold Clear at hclear
    have hlow : addr < 2 ^ 31 := by omega
    by_cases hend : addr + size < 2 ^ 31
    · -- the last page ends at the middle
      have hmmap := mmap_of_scan h (h.scan_past_middle hend (by omega))
      obtain ⟨r, m', hrun, hfailed, -⟩ := hexact
      cases hmmap.symm.trans hrun
      exact hover (hfailed.mp rfl)
    · -- the last byte is at the middle or beyond
      rw [not_lt] at hend
      have hmmap := mmap_of_scan h (eachPage_past hlow hend hsize _)
      rw [mapsExactly_entered h hover hmmap (by omega)] at hexact
      obtain ⟨⟨-, hmalloc⟩, hunmaps⟩ := hexact
      exact entered_not_unmaps h hlow hend (entered_sound h hover hmalloc) hunmaps

end

/-- `mmap` and `munmap` do what they should for these regions and no others. -/
theorem mmap_exact (h : Request m p fd addr fil size mapping slot) :
    m.MapsExactly p fd addr fil size ↔ m.MapsRight p addr size := by
  by_cases hover : m.Overlapping p addr size
  · rw [mapsExactly_overlapping h hover]
    simp [MapsRight, hover]
  · rw [mapsExactly_free h hover]
    simp [MapsRight, hover]

/-! ### A process with a stack -/

/-- The process has nothing but its stack, and a file of one page open as 2. -/
def stackOnly : Maps Unit where
  vm := { Evicting.oneStack with
    files := ⟨fun _ => 0, fun _ => replicate 4096 1, fun _ => 0⟩ }
  files _ fd := if fd = 2 then 0 else -1
  openFiles index := if index = 0 then some 0 else none
  mmappings _ _ := -1
  allMmappings _ := ⟨0, none, 0⟩
  mmapLock := none

theorem stackOnly_request (addr : Nat) (haddr : addr ≠ 0 ∧ pgOfs addr = 0 ∧ isUserVaddr addr) :
    Request stackOnly () 2 addr 0 4096 0 0 where
  sound := Evicting.kept_oneStack.sound
  exe e he := by cases he
  descriptor := by decide
  index := by decide
  file := rfl
  length := length_replicate
  size := by decide
  addr := haddr
  stack := by decide +kernel
  free := by decide +kernel
  slot := by decide +kernel

theorem stackOnly_free (h : stackOnly.vm.lookup () addr = none) :
    ¬ stackOnly.Overlapping () addr 4096 := by
  rintro ⟨i, hi, hfound⟩
  cases i with
  | zero => exact hfound h
  | succ i => exact absurd hi (by unfold pageCount; omega)

theorem mmap_exact_low : stackOnly.MapsExactly () 2 0x10000000 0 4096 :=
  (mmap_exact (stackOnly_request 0x10000000 (by decide))).mpr
    (.inr ⟨stackOnly_free (by decide +kernel), by decide, rfl, fun _ _ => rfl⟩)

/-- The page below the middle of the address space is mapped, and stays when it is unmapped. -/
theorem mmap_middle_stays :
    Request stackOnly () 2 0x7ffff000 0 4096 0 0 ∧
    ¬ stackOnly.Overlapping () 0x7ffff000 4096 ∧
    outcome (mmap () 2 0x7ffff000) stackOnly = .ok 0 ∧
    outcome (munmap () 0) (final (mmap () 2 0x7ffff000) stackOnly) = .ok () ∧
    (final (munmap () 0) (final (mmap () 2 0x7ffff000) stackOnly)).vm.lookup () 0x7ffff000 =
      some 3 ∧
    ¬ stackOnly.MapsExactly () 2 0x7ffff000 0 4096 := by
  have hfree : ¬ stackOnly.Overlapping () 0x7ffff000 4096 := stackOnly_free (by decide +kernel)
  have hrequest := stackOnly_request 0x7ffff000 (by decide)
  refine ⟨hrequest, hfree, by decide +kernel, by decide +kernel, by decide +kernel, ?_⟩
  rw [mapsExactly_free hrequest hfree]
  exact fun h => absurd h.1 (by decide)

end Maps

end KernelSanders
