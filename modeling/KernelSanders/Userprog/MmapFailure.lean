import KernelSanders.Userprog.MmapExact

namespace KernelSanders

open Lib Lib.Exec

namespace Maps

variable {π : Type} [DecidableEq π]

/-!
# When `mmap` fails

`mmap` returns `MAP_FAILED` at seven places.  At six of them nothing has been done yet.  The seventh
is the search for a slot in `all_mmappings`, which comes after `lock_acquire (&mmap_lock)`: if the
table is full the function returns with the lock (`mmap_fails`).  So a failing `mmap` leaves no
trace exactly if it does not get as far as a full table (`mmap_failure`).
-/

/-- `mmap (fd, addr)` by `p` passes all its checks and takes the lock, and the table of mappings is
    full. -/
structure FindsTableFull (m : Maps π) (p : π) (fd : Int) (addr : Nat) : Prop where
  args : pgOfs addr = 0 ∧ 2 ≤ fd ∧ fd < maxFiles ∧ addr ≠ 0 ∧ isUserVaddr addr
  mapping : ∃ i < maxMmappings, m.mmappings p i = -1
  index : 0 ≤ m.files p fd.toNat ∧ m.files p fd.toNat < maxGlobalFiles
  file : ∃ fil, m.openFiles (m.files p fd.toNat).toNat = some fil ∧
    (m.vm.files.content fil).length ≠ 0 ∧
    m.ScanClear p addr ((m.vm.files.content fil).length : Int)
  lock : m.mmapLock = none
  full : ∀ i < maxGlobalMappings, (m.allMmappings i).addr ≠ 0

/-- If `mmap (fd, addr)` by `p` fails then `p` does not have the lock, whoever could take it before
    can take it now, and the tables, the pages and the open files are as they were. -/
def LeavesNoTrace (m : Maps π) (p : π) (fd : Int) (addr : Nat) : Prop :=
  Ensures (mmap p fd addr) m (fun r m' => r = mapFailed →
    m'.mmapLock ≠ some p ∧ m'.mmapLock = m.mmapLock ∧ m'.allMmappings = m.allMmappings ∧
      m'.mmappings = m.mmappings ∧ m'.files = m.files ∧ m'.openFiles = m.openFiles ∧ m'.vm = m.vm)

variable {m : Maps π} {p : π} {fd size : Int} {addr : Nat}

/-! ### The ways to fail -/

/-- The last part fails only if the table is full, and keeps the lock then. -/
theorem enterMapping_ensures {mapping : Nat} {handle : Option Nat} :
    Ensures (enterMapping p mapping addr handle size) m (fun r m' => r = mapFailed →
      m.mmapLock = none ∧ (∀ i < maxGlobalMappings, (m.allMmappings i).addr ≠ 0) ∧
        m' = { m with mmapLock := some p }) := by
  rw [enterMapping, ensures_bind]
  intro _ m₁ hlock
  obtain ⟨hfree, rfl⟩ := lockMmap_ok.mp hlock
  rw [ensures_get]
  cases hslot : firstFree (fun i => decide ((m.allMmappings i).addr ≠ 0)) maxGlobalMappings with
  | none =>
    have hfull := firstFree_eq_none.mp hslot
    refine ensures_pure.mpr (fun _ => ⟨hfree, fun i hi => ?_, rfl⟩)
    simpa using hfull i hi
  | some slot =>
    -- the function returns the number of the mapping
    have hnumber : (mapping : Int) ≠ mapFailed := by
      unfold mapFailed
      omega
    refine ensures_skip (fun _ _ => ensures_skip (fun _ _ => ensures_skip (fun _ _ =>
      ensures_skip (fun _ _ => ensures_skip (fun _ _ => ensures_pure.mpr ?_)))))
    exact fun hfailed => absurd hfailed hnumber

/-- A failing call changes nothing, or it keeps the lock. -/
theorem mmap_fails : Ensures (mmap p fd addr) m (fun r m' => r = mapFailed →
    m' = m ∨ (m.FindsTableFull p fd addr ∧ m' = { m with mmapLock := some p })) := by
  refine mmap_ensures.mono ?_
  rintro r m' (⟨-, rfl⟩ | ⟨mapping, fil, hchecked, hclear, hrun⟩) hfailed
  · exact .inl rfl
  · obtain ⟨hlock, hfull, hresult⟩ := enterMapping_ensures _ _ hrun hfailed
    obtain ⟨hlt, hunused, -⟩ := firstFree_eq_some.mp hchecked.free
    exact .inr ⟨⟨hchecked.args, ⟨mapping, hlt, by simpa using hunused⟩, hchecked.index,
      ⟨fil, hchecked.file, hchecked.length, hclear⟩, hlock, hfull⟩, hresult⟩

/-- The lock is not given back. -/
theorem mmap_tableFull (h : m.FindsTableFull p fd addr) :
    (mmap p fd addr).run m = .ok (mapFailed, { m with mmapLock := some p }) := by
  obtain ⟨fil, hfil, hsize, hclear⟩ := h.file
  obtain ⟨mapping, hmapping⟩ :
      ∃ i, firstFree (fun i => decide (m.mmappings p i ≠ -1)) maxMmappings = some i := by
    obtain ⟨i, hi, hunused⟩ := h.mapping
    rw [← Option.ne_none_iff_exists', Ne, firstFree_eq_none]
    intro hall
    simpa [hunused] using hall i hi
  have hfull : firstFree (fun i => decide ((m.allMmappings i).addr ≠ 0)) maxGlobalMappings
      = none := firstFree_eq_none.mpr (fun i hi => by simpa using h.full i hi)
  have htake : (lockMmap p).run m = .ok ((), { m with mmapLock := some p }) :=
    lockMmap_ok.mpr ⟨h.lock, rfl⟩
  rw [mmap_run ⟨h.args, hmapping, h.index, hfil, hsize⟩, mapFile,
    bind_ok (scan_run h.args.1 h.args.2.2.2.2 hclear), if_neg Bool.false_ne_true, enterMapping,
    bind_ok htake, read_bind]
  simp only [hfull]
  rfl

/-- A failing `mmap` leaves no trace exactly if it does not get to a full table of mappings. -/
theorem mmap_failure (hlock : m.mmapLock ≠ some p) :
    m.LeavesNoTrace p fd addr ↔ ¬ m.FindsTableFull p fd addr := by
  constructor
  · intro h hfull
    exact (h _ _ (mmap_tableFull hfull) rfl).1 rfl
  · intro hnot
    refine mmap_fails.mono (fun r m' hm' hfailed => ?_)
    rcases hm' hfailed with rfl | ⟨hfull, -⟩
    · exact ⟨hlock, rfl, rfl, rfl, rfl, rfl, rfl⟩
    · exact absurd hfull hnot

/-- Two processes, each with a file of one byte as its descriptor 2, and no slot is free. -/
def sharing : Maps Bool where
  vm := Vm.booted 1 (fun _ => Bytes.zero) Vm.oneSlot ⟨fun _ => 0, fun _ => [7], fun _ => 0⟩
    (fun _ => none) (fun _ => true)
  files _ _ := 0
  openFiles _ := some 0
  mmappings _ _ := -1
  allMmappings _ := ⟨4096, some 0, 1⟩
  mmapLock := none

/-- An address that is not that of a page is refused before the lock is taken. -/
theorem mmap_failure_sharing : sharing.mmapLock ≠ some false ∧
    outcome (mmap false 2 0x10000001) sharing = .ok mapFailed ∧
    sharing.LeavesNoTrace false 2 0x10000001 := by
  have hlock : sharing.mmapLock ≠ some false := by decide
  refine ⟨hlock, by decide +kernel, (mmap_failure hlock).mpr (fun h => ?_)⟩
  exact absurd h.args.1 (by decide)

/-- The first process has the lock when its call has failed, and the other one waits for it. -/
theorem mmap_keeps_lock :
    outcome (mmap false 2 0x10000000) sharing = .ok mapFailed ∧
      (final (mmap false 2 0x10000000) sharing).mmapLock = some false ∧
      outcome (mmap true 2 0x10000000) (final (mmap false 2 0x10000000) sharing) =
        .error .blocked ∧
      ¬ sharing.LeavesNoTrace false 2 0x10000000 := by
  have hfailed : outcome (mmap false 2 0x10000000) sharing = .ok mapFailed := by decide +kernel
  have hheld : (final (mmap false 2 0x10000000) sharing).mmapLock = some false := by decide +kernel
  refine ⟨hfailed, hheld, by decide +kernel, fun h => ?_⟩
  exact (h _ _ (run_of_outcome hfailed) rfl).1 hheld

end Maps

end KernelSanders
