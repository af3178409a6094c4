import KernelSanders.Filesys.CacheSteps
import KernelSanders.Filesys.FreeMap

namespace KernelSanders

open Lib Lib.Exec
open Function hiding update
open RwLock Fs
open Bytes

namespace Cache

/-!
# Reusing a sector that is still in the cache

`block_clear` writes zeros to the device and goes past the cache.  A sector that is handed out
again while a slot still holds its old block therefore reads as the old block, not as zeros.

`Reachable` are the states of the cache under all its users: the calls of `cache.h`, each ending
only a section that is in progress, changes of a block under its write lock, `block_clear`, and
the three background threads, read-ahead included.  `readsZero_iff` says in which of them a sector
that `block_clear` has cleared reads as zeros, and `allocated_reads_zero_iff` says it of the
sectors that `grow_direct` and `allocate_direct` allocate.
-/

variable {c c' : Cache}

/-! ### Reachable states -/

/-- One call of a user of the cache that returned. -/
inductive Step : Cache → Cache → Prop where
  | readBlock {c c' : Cache} (s : Nat) (i : Slot) :
      (cacheReadBlock s).run c = .ok (i, c') → Step c c'
  | readEnd {c c' : Cache} (i : Slot) :
      1 ≤ (locks c i).b → (cacheReadEnd i).run c = .ok ((), c') → Step c c'
  | writeBlock {c c' : Cache} (s : Nat) (i : Slot) :
      (cacheWriteBlock s).run c = .ok (i, c') → Step c c'
  | change {c : Cache} (i : Slot) (d : Sector) :
      locks c i = writing → Step c (setSlot i (fun blk => { blk with data := d }) c)
  | writeEnd {c c' : Cache} (i : Slot) :
      locks c i = writing → (cacheWriteEnd i).run c = .ok ((), c') → Step c c'
  | blockClear {c c' : Cache} (s : Nat) :
      (onDevice (KernelSanders.blockClear s)).run c = .ok ((), c') → Step c c'
  | refreshCache {c c' : Cache} : Cache.refreshCache.run c = .ok ((), c') → Step c c'
  | updateAccesses {c c' : Cache} : Cache.updateAccesses.run c = .ok ((), c') → Step c c'
  | readAhead {c c' : Cache} : cacheReadAhead.run c = .ok ((), c') → Step c c'

/-- The states after `cache_init` over any device. -/
inductive Reachable : Cache → Prop where
  | init (device : Device) (buffer : Slot → CacheBlock) (nextBlock : Nat) :
      Reachable (cacheInit device buffer nextBlock)
  | step {c c' : Cache} : Reachable c → Step c c' → Reachable c'

/-- What all users keep: sane locks, blocks of the device, and no sector in two slots. -/
structure WellFormed (c : Cache) : Prop where
  sane : Sane c
  inRange : InRange c
  distinct : ∀ i j, (c.buffer i).sector = (c.buffer j).sector → (c.buffer i).sector ≠ 0 → i = j

/-- The blocks are in the slots they were in. -/
structure SameBlocks (c c' : Cache) : Prop where
  valid : ∀ i, (c'.buffer i).valid = (c.buffer i).valid
  sector : ∀ i, (c'.buffer i).sector = (c.buffer i).sector
  size : c'.device.size = c.device.size

theorem Keeps.sameBlocks (h : Keeps c c') : SameBlocks c c' :=
  ⟨h.valid, h.sector, by rw [h.device]⟩

theorem Cleaned.sameBlocks (h : Cleaned c c') : SameBlocks c c' :=
  ⟨h.field CacheBlock.valid (fun _ => rfl), h.field CacheBlock.sector (fun _ => rfl), h.size⟩

theorem sameBlocks_setSlot (i : Slot) (f : CacheBlock → CacheBlock) (c : Cache)
    (hv : (f (c.buffer i)).valid = (c.buffer i).valid)
    (hs : (f (c.buffer i)).sector = (c.buffer i).sector) : SameBlocks c (setSlot i f c) := by
  refine ⟨fun j => ?_, fun j => ?_, rfl⟩ <;> by_cases hj : j = i
  · subst hj; rw [setSlot_same, hv]
  · rw [setSlot_ne hj]
  · subst hj; rw [setSlot_same, hs]
  · rw [setSlot_ne hj]

/-- The invariant only depends on the locks and on where the blocks are. -/
theorem WellFormed.move (h : WellFormed c) (hb : SameBlocks c c') (hs : Sane c') :
    WellFormed c' := by
  refine ⟨hs, fun i hi => ?_, fun i j he hne => ?_⟩
  · rw [hb.sector, hb.size]
    exact h.inRange i (by rw [← hb.valid]; exact hi)
  · rw [hb.sector, hb.sector] at he
    rw [hb.sector] at hne
    exact h.distinct i j he hne

/-! ### The invariant -/

theorem wellFormed_cacheInit (device : Device) (buffer : Slot → CacheBlock) (nextBlock : Nat) :
    WellFormed (cacheInit device buffer nextBlock) := by
  refine ⟨fun i => sane_free, fun i hi => ?_, fun i j _ hne => absurd rfl hne⟩
  cases hi

variable {s : Nat} {i : Slot}

/-- A block that `find_block` brings in goes to one slot, and no other slot has its sector. -/
theorem WellFormed.filled (h : WellFormed c) (hs : s < c.device.size) (hf : Filled c s i c') :
    WellFormed c' := by
  obtain ⟨hmiss, hlocks, c₁, ht, hk⟩ := hf
  have hsector : ∀ j, (c'.buffer j).sector = if j = i then s else (c.buffer j).sector := by
    intro j
    rw [hk.sector, fillSlot, setSlot_buffer]
    split
    · rfl
    · exact ht.sector j
  refine ⟨fun j => ?_, fun j hj => ?_, fun j k he hne => ?_⟩
  · rw [hlocks]
    exact h.sane.update sane_reading j
  · rw [hsector, hk.device, fillSlot, setSlot_device, ht.size]
    split
    · exact hs
    · rename_i hji
      refine h.inRange j ?_
      rw [← ht.valid_ne j hji, ← hj, hk.valid, fillSlot, setSlot_ne hji]
  · rw [hsector, hsector] at he
    rw [hsector] at hne
    by_cases hji : j = i <;> by_cases hki : k = i
    · rw [hji, hki]
    · rw [if_pos hji, if_neg hki] at he
      exact absurd he.symm (hmiss k)
    · rw [if_neg hji, if_pos hki] at he
      exact absurd he (hmiss j)
    · rw [if_neg hji, if_neg hki] at he
      rw [if_neg hji] at hne
      exact h.distinct j k he hne

theorem WellFormed.findBlock (h : WellFormed c) (s : Nat) :
    Ensures (findBlock s) c (fun i c' => WellFormed c' ∧ (locks c' i).g = 0) := by
  refine (findBlock_spec h.sane).ensures.mono ?_
  rintro i c' ⟨hs, hhit | hfill, -⟩
  · obtain ⟨-, ⟨l, hl, hlocks⟩, hk⟩ := hhit
    obtain ⟨hsane, hg, -⟩ := readBegin_sane (h.sane i) hl
    refine ⟨h.move hk.sameBlocks (fun j => ?_), by rw [hlocks, update_self]; exact hg⟩
    rw [hlocks]
    exact h.sane.update hsane j
  · refine ⟨h.filled hs hfill, ?_⟩
    rw [hfill.locks, update_self]
    rfl

/-- A write to the device leaves the slots. -/
theorem ensures_blockWrite (s : Nat) (d : Sector) :
    Ensures (onDevice (blockWrite s d)) c (fun _ c' =>
      c'.buffer = c.buffer ∧ c'.device.size = c.device.size) := by
  refine ensures_zoom.mpr ?_
  intro _ d' hrun
  by_cases hs : s < c.device.size
  · rw [blockWrite_ok hs] at hrun
    cases hrun
    exact ⟨rfl, rfl⟩
  · have hcheck : (checkSector s).run c.device = .error (.panic "Access past end of device") := by
      rw [checkSector, read_bind]
      exact assert_neg hs _ _
    rw [blockWrite, bind_error hcheck] at hrun
    cases hrun

/-- Every step keeps the invariant. -/
theorem WellFormed.step (h : WellFormed c) (hstep : Step c c') : WellFormed c' := by
  cases hstep with
  | readBlock s i hrun => exact (h.findBlock s i c' hrun).1
  | readEnd i hb hrun =>
    rw [cacheReadEnd_ok] at hrun
    cases hrun
    refine h.move (keeps_lock i _ c).sameBlocks (fun j => ?_)
    rw [locks_setSlot]
    exact h.sane.update (readEnd_sane (h.sane i) hb) j
  | writeBlock s i hrun =>
    obtain ⟨j, c₁, hfind, hrest⟩ := bind_eq_ok.mp hrun
    obtain ⟨h₁, hg⟩ := h.findBlock s j c₁ hfind
    obtain ⟨_, c₂, hup, hpure⟩ := bind_eq_ok.mp hrest
    cases hpure
    cases hl : (locks c₁ i).upgrade with
    | error e => cases (onLock_error hl).symm.trans hup
    | ok l =>
      rw [cacheUpgrade_ok hl] at hup
      cases hup
      refine h₁.move (keeps_lock i l c₁).sameBlocks (fun k => ?_)
      rw [locks_setSlot, (upgrade_sane hg hl).2]
      exact h₁.sane.update sane_writing k
  | change i d hw =>
    refine h.move (sameBlocks_setSlot i _ c rfl rfl) (fun j => ?_)
    rw [locks_setSlot]
    exact h.sane.update (h.sane i) j
  | writeEnd i hw hrun =>
    rw [cacheWriteEnd_ok hw] at hrun
    cases hrun
    refine h.move (keeps_writeEnd i _ c).sameBlocks (fun j => ?_)
    rw [locks_setSlot]
    exact h.sane.update sane_free j
  | blockClear s hrun =>
    obtain ⟨hbuf, hsize⟩ := ensures_blockWrite s zero _ _ hrun
    refine h.move ⟨fun j => by rw [hbuf], fun j => by rw [hbuf], hsize⟩ (fun j => ?_)
    rw [locks, hbuf]
    exact h.sane j
  | refreshCache hrun =>
    obtain ⟨hclean, -⟩ := (refreshEach_spec _ h.sane h.inRange).ensures _ _ hrun
    exact h.move hclean.sameBlocks (fun i => by rw [hclean.locks]; exact h.sane i)
  | updateAccesses hrun =>
    cases (updateEach_run _ (List.nodup_finRange _) h.sane).symm.trans hrun
    obtain ⟨hk, hlocks⟩ := quiet_shiftEach (List.finRange cacheBlocks) c
    exact h.move hk.sameBlocks (fun i => by rw [hlocks]; exact h.sane i)
  | readAhead hrun =>
    rw [cacheReadAhead, read_bind] at hrun
    by_cases hr : (id c).readAhead = true
    · rw [if_pos hr] at hrun
      obtain ⟨i, c₁, hfind, hlast⟩ := bind_eq_ok.mp hrun
      cases hlast
      obtain ⟨h₁, -⟩ := h.findBlock _ i c₁ hfind
      exact h₁.move ⟨fun _ => rfl, fun _ => rfl, rfl⟩ h₁.sane
    · rw [if_neg hr] at hrun
      cases hrun
      exact h

/-- **Invariant.** Every reachable state is well formed. -/
theorem Reachable.wellFormed (h : Reachable c) : WellFormed c := by
  induction h with
  | init device buffer nextBlock => exact wellFormed_cacheInit device buffer nextBlock
  | step _ hstep ih => exact ih.step hstep

/-! ### When a cleared sector reads as zeros -/

/-- Both ways to get at the sector return, with a slot full of zeros. -/
def ReadsZero (s : Nat) (c : Cache) : Prop :=
  Returns (cacheReadBlock s) c (fun i c' => (c'.buffer i).data = zero) ∧
    Returns (cacheWriteBlock s) c (fun i c' => (c'.buffer i).data = zero)

/-- No slot has the sector and there is a slot to be had, or the slot that has it is free and
    full of zeros. -/
def Vacant (s : Nat) (c : Cache) : Prop :=
  ((∀ i, (c.buffer i).sector ≠ s) ∧ ∃ i, locks c i = free) ∨
    ∃ i, (c.buffer i).sector = s ∧ locks c i = free ∧ (c.buffer i).data = zero

/-- The state after `block_clear (fs_device, s)`. -/
def cleared (s : Nat) (c : Cache) : Cache := { c with device := c.device.put s zero }

theorem WellFormed.cleared (h : WellFormed c) (s : Nat) : WellFormed (cleared s c) :=
  h.move ⟨fun _ => rfl, fun _ => rfl, rfl⟩ h.sane

/-- A reader that could become a writer at once found the lock free. -/
theorem free_of_upgrade {l l₁ l₂ : RwLock} (hs : l.Sane) (h₁ : l.readBegin = .ok l₁)
    (h₂ : l₁.upgrade = .ok l₂) : l = free := by
  obtain ⟨-, hg, hb⟩ := readBegin_sane hs h₁
  obtain ⟨rfl, -⟩ := upgrade_sane hg h₂
  rcases hs with rfl | ⟨hg₀, -⟩
  · rfl
  · -- with nobody reading and the semaphore down there is a writer, and readers wait
    have hb₀ : l.b + 1 = 1 := hb.symm
    unfold readBegin at h₁
    simp only [hb₀, if_true, down, hg₀] at h₁
    cases h₁

/-- A sector that goes through an import right after it was cleared comes back as zeros. -/
theorem Filled.zero (h : Filled (Cache.cleared s c) s i c') : (c'.buffer i).data = zero := by
  obtain ⟨hmiss, -, c₁, ht, hk⟩ := h
  rw [hk.data, fillSlot, setSlot_same]
  show c₁.device.sectors s = Bytes.zero
  have hclear : (Cache.cleared s c).device.sectors s = Bytes.zero := update_self ..
  rw [ht.device]
  split
  · -- the victim's block goes to its own sector, which is another one
    rw [Device.put_sectors, update_of_ne (Ne.symm (hmiss i)), hclear]
  · exact hclear

/-- In a vacant state the sector comes back, in a slot full of zeros and with one reader. -/
theorem Vacant.findBlock (h : WellFormed c) (hs : 1 ≤ s ∧ s < c.device.size) (hv : Vacant s c) :
    Returns (Cache.findBlock s) (Cache.cleared s c) (fun i c' =>
      (c'.buffer i).data = zero ∧ locks c' i = reading) := by
  have hw := h.cleared s
  refine ((findBlock_spec hw.sane).returns ?_).mono ?_
  · -- neither kind of vacancy is refused
    rintro - (hsize | ⟨i, e, hi, he⟩ | ⟨hmiss, hout | hheld⟩)
    · exact hsize hs.2
    · rcases hv with ⟨hmiss, -⟩ | ⟨j, hj, hfree, -⟩
      · exact hmiss i hi
      · have hi' : (c.buffer i).sector = s := hi
        have hij : i = j := h.distinct i j (hi'.trans hj.symm) (by rw [hi']; omega)
        subst hij
        have he' : (locks c i).readBegin = .error e := he
        rw [hfree] at he'
        cases he'
    · exact hout hw.inRange
    · rcases hv with ⟨-, i, hi⟩ | ⟨i, hi, -⟩
      · exact hheld i hi
      · exact hmiss i hi
  · rintro i c' ⟨-, hhit | hfill, -⟩
    · obtain ⟨hsec, ⟨l, hl, hlocks⟩, hk⟩ := hhit
      rcases hv with ⟨hmiss, -⟩ | ⟨j, hj, hfree, hdata⟩
      · exact absurd hsec (hmiss i)
      · have hsec' : (c.buffer i).sector = s := hsec
        have hij : i = j := h.distinct i j (hsec'.trans hj.symm) (by rw [hsec']; omega)
        subst hij
        have hl' : (locks c i).readBegin = .ok l := hl
        rw [hfree] at hl'
        cases hl'
        exact ⟨(hk.data i).trans hdata, by rw [hlocks, update_self]; rfl⟩
    · exact ⟨hfill.zero, by rw [hfill.locks, update_self]⟩

/-- **When a cleared sector reads as zeros.** Exactly when the cache has not kept another block
    of it, and the block can be had at all. -/
theorem readsZero_iff (h : WellFormed c) (hs : 1 ≤ s ∧ s < c.device.size) :
    ReadsZero s (Cache.cleared s c) ↔ Vacant s c := by
  have hw := h.cleared s
  have hspec := (findBlock_spec (s := s) hw.sane).ensures
  refine ⟨?_, ?_⟩
  · rintro ⟨hread, hwrite⟩
    obtain ⟨i, c₁, -, hzero, -, hhit | hfill, -⟩ := hread.and_ensures hspec
    · -- the old block is still there: it has to be zeros, and the lock free for the writer
      refine .inr ⟨i, hhit.sector, ?_, (hhit.keeps.data i).symm.trans hzero⟩
      obtain ⟨_, _, hrun, -⟩ := hwrite
      obtain ⟨j, c₂, hfind, hrest⟩ := bind_eq_ok.mp hrun
      obtain ⟨-, hhit₂ | hfill₂, -⟩ := hspec j c₂ hfind
      · have hi : (c.buffer i).sector = s := hhit.sector
        have hj : (c.buffer j).sector = s := hhit₂.sector
        have hij : j = i := h.distinct j i (hj.trans hi.symm) (by rw [hj]; omega)
        subst hij
        obtain ⟨l, hl, hlocks⟩ := hhit₂.locks
        obtain ⟨_, _, hup, -⟩ := bind_eq_ok.mp hrest
        cases hu : (locks c₂ j).upgrade with
        | error e => cases (onLock_error hu).symm.trans hup
        | ok l₂ =>
          rw [hlocks, update_self] at hu
          exact free_of_upgrade (h.sane j) hl hu
      · exact absurd hhit.sector (hfill₂.miss i)
    · obtain ⟨hmiss, -, c₂, ht, -⟩ := hfill
      exact .inl ⟨hmiss, i, ht.free⟩
  · intro hv
    have hfind := hv.findBlock h hs
    refine ⟨hfind.mono (fun _ _ h => h.1), Returns.bind hfind ?_⟩
    rintro i c₁ ⟨hzero, hlock⟩
    have hup : (locks c₁ i).upgrade = .ok writing := by
      rw [hlock, upgrade_reading]
    rw [returns_step (cacheUpgrade_ok hup), returns_pure, setSlot_same]
    exact hzero

/-! ### The blocks that a file grows by -/

/-- A pointer that is being written into a held block does not matter for vacancy. -/
theorem vacant_change (d : Sector) (hheld : locks c i = writing) :
    Vacant s (setSlot i (fun blk => { blk with data := d }) c) ↔ Vacant s c := by
  have hlocks : locks (setSlot i (fun blk => { blk with data := d }) c) = locks c := by
    rw [locks_setSlot]
    exact update_eq_self i _
  have hsector : ∀ j, ((setSlot i (fun blk => { blk with data := d }) c).buffer j).sector =
      (c.buffer j).sector := (sameBlocks_setSlot i _ c rfl rfl).sector
  have hfree : ∀ j, locks c j = free → j ≠ i := by
    intro j hj hji
    rw [hji, hheld] at hj
    cases hj
  unfold Vacant
  rw [hlocks]
  simp only [hsector]
  refine or_congr Iff.rfl (exists_congr fun j => and_congr_right fun _ => and_congr_right ?_)
  intro hj
  rw [setSlot_ne (hfree j hj)]

/-- **A new block reads as zeros exactly when the cache has no other block of its sector.**
    `free_map_allocate` has handed out `s` and left the state `fs₁`; the pointer goes into a block
    that the caller holds for writing.  Then `grow_direct` and `allocate_direct` both succeed, and
    the next access to `s` sees zeros if and only if `s` was vacant in `fs₁`. -/
theorem allocated_reads_zero_iff (depth : Nat) (p : Fs.Ptr Slot) (length : Int) (fs fs₁ : Fs Cache)
    (s : Nat) (hlength : length > 0) (hptr : (fs.store.buffer p.block).data.word p.index = 0)
    (halloc : (freeMapAllocate depth).run fs = .ok (some s, fs₁)) (hreach : Reachable fs₁.store)
    (hheld : locks fs₁.store p.block = writing) (hs : 1 ≤ s ∧ s < fs₁.store.device.size) :
    ∃ fs₂, (growDirect (freeMapAllocate depth) p).run fs = .ok (true, fs₂) ∧
      (allocateDirect (freeMapAllocate depth) p length).run fs
        = .ok (some (length - 512), fs₂) ∧
      (ReadsZero s fs₂.store ↔ Vacant s fs₁.store) := by
  -- the state in which `block_clear` is called: the pointer is in place
  have hstep := Step.change p.block ((fs₁.store.buffer p.block).data.setWord p.index s) hheld
  have hw := (hreach.step hstep).wellFormed
  obtain ⟨fs₂, hstore, hclear⟩ : ∃ fs₂ : Fs Cache,
      fs₂.store = Cache.cleared s (setSlot p.block (fun blk => { blk with
        data := (fs₁.store.buffer p.block).data.setWord p.index s }) fs₁.store) ∧
      (allocateCleared (freeMapAllocate depth) p).run fs = .ok (true, fs₂) := by
    refine ⟨{ fs₁ with store := Cache.cleared s (setSlot p.block (fun blk => { blk with
      data := (fs₁.store.buffer p.block).data.setWord p.index s }) fs₁.store) }, rfl, ?_⟩
    rw [allocateCleared, bind_ok halloc]
    show (assign p s >>= fun _ => onStore (BlockStore.blockClear s) >>= fun _ =>
      pure true).run fs₁ = _
    rw [assign, modifyData, update_bind]
    exact bind_ok (zoom_ok (onDevice_ok (blockClear_ok hs.2)))
  have hload : (load p).run fs = .ok (0, fs) := by
    rw [load, dataOf, read_bind]
    exact congrArg (fun w => Except.ok (w, fs)) hptr
  refine ⟨fs₂, ?_, ?_, ?_⟩
  · rw [growDirect, bind_ok hload, bind_ok (assert_pos rfl _ _)]
    exact hclear
  · rw [allocateDirect, bind_ok (assert_pos hlength _ _), bind_ok hload,
      bind_ok (assert_pos rfl _ _), bind_ok hclear]
    rfl
  · rw [hstore]
    exact (readsZero_iff hw hs).trans (vacant_change _ hheld)

/-- The cache over a file system device of 16 blank sectors, right after `cache_init`. -/
def bootCache : Cache := cacheInit
  { type := .filesys, size := 16, sectors := fun _ => zero, size_lt := by decide,
    owned := BlockType.filesys_owned }
  (fun _ => { valid := false, data := zero, sector := 0, recentAccesses := 0, dirty := false,
              accessed := false, lock := free }) 0

/-- The file system over that cache, right after `free_map_init`. -/
def bootFs : Fs Cache where
  store := bootCache
  freeMap := ((Bitmap.mk 64 (fun _ => 0)).mark 0 |>.mark 1).mark 2
  freeMapFile := none
  openInodes := []
  inodes := fun _ => none
  files := fun _ => none
  dirs := fun _ => none
  brk := 0
  malloc := fun _ => true
  current := 0
  workingDir := 0

/-- `cache_write_block (1)`, as at the start of the creation of the free map's file. -/
def holdFreeMapInode : Exec (Fs Cache) Slot :=
  onStore (cacheWriteBlock freeMapSector)

/-- In the first slot, the block of the free map's inode is held, and sector 3 is handed out. -/
theorem allocated_reads_zero_iff_first :
    ∃ fs₂, (growDirect (freeMapAllocate 1) ⟨⟨0, by decide⟩, 0⟩).run
        (final holdFreeMapInode bootFs) = .ok (true, fs₂) ∧
      (allocateDirect (freeMapAllocate 1) ⟨⟨0, by decide⟩, 0⟩ 512).run
        (final holdFreeMapInode bootFs) = .ok (some (512 - 512), fs₂) ∧
      (ReadsZero 3 fs₂.store ↔
        Vacant 3 (final (freeMapAllocate 1) (final holdFreeMapInode bootFs)).store) := by
  have hinit : Reachable bootCache := Reachable.init _ _ _
  have hrun : (cacheWriteBlock 1).run bootCache
      = .ok (⟨0, by decide⟩, final (cacheWriteBlock 1) bootCache) :=
    run_of_outcome (by decide +kernel)
  exact allocated_reads_zero_iff 1 ⟨⟨0, by decide⟩, 0⟩ 512 _ _ 3 (by decide) (by decide +kernel)
    (run_of_outcome (by decide +kernel)) (hinit.step (Step.writeBlock 1 _ hrun))
    (by decide +kernel) (by decide +kernel)

/-- Format the free map, create a file of one block and an empty one, remove the first, and grow
    the second by a block: the sector of the new block. -/
def removeAndGrow : Exec (Fs Cache) Nat := do
  freeMapCreate 1
  let s₁ ← freeMapAllocate 1
  let _ ← inodeCreate (freeMapAllocate 1) (s₁.getD 0) 512
  let s₂ ← freeMapAllocate 1
  let _ ← inodeCreate (freeMapAllocate 1) (s₂.getD 0) 0
  let a ← inodeOpen (s₁.getD 0)
  inodeRemove (a.getD 0)
  inodeClose 1 a
  let b ← inodeOpen (s₂.getD 0)
  let _ ← inodeExtend (freeMapAllocate 1) (b.getD 0) 1
  byteToSector (b.getD 0) 0

/-- The new block of the second file is sector 4, which was the inode of the first, and it reads
    as that inode: its word 102 is the magic number. -/
theorem removed_inode_reappears :
    ∃ fs, removeAndGrow.run bootFs = .ok (4, fs) ∧
      Returns (cacheReadBlock 4) fs.store (fun i c' =>
        (c'.buffer i).data.word magicWord = inodeMagic) ∧ ¬ ReadsZero 4 fs.store := by
  have hread : outcome (do
      let i ← cacheReadBlock 4
      read (fun c => (c.buffer i).data.word magicWord)) (final removeAndGrow bootFs).store
        = .ok inodeMagic := by decide +kernel
  obtain ⟨i, c', hrun, hword⟩ := bind_eq_ok.mp (run_of_outcome hread)
  have hmagic : (c'.buffer i).data.word magicWord = inodeMagic :=
    congrArg Prod.fst (Except.ok.inj hword)
  refine ⟨_, run_of_outcome (by decide +kernel), ⟨i, c', hrun, hmagic⟩, fun hzero => ?_⟩
  obtain ⟨j, c'', hrun', hz⟩ := hzero.1
  rw [hrun] at hrun'
  cases hrun'
  rw [hz, word_zero] at hmagic
  exact absurd hmagic (by decide)

end Cache

end KernelSanders
