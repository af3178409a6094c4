import KernelSanders.Filesys.CacheSteps
import KernelSanders.Lib.Simulation

namespace KernelSanders

open Lib Lib.Exec
open Function hiding update
open RwLock

namespace Cache

/-!
# The buffer cache is transparent

The specification of the cache is a plain map from sectors to contents (`specOp`).  The steps of
`CacheSteps.lean` keep the cache coherent with the map (`Taken.coherent`, `Coherent.fill`,
`Coherent.store`, `Cleaned`), `stepOp_simulates` says that one operation of a sequential run
agrees with the map, and the library's simulation rule carries that over whole runs.
-/

variable {c c' : Cache} {L : Nat → Sector} {i v : Slot} {s : Nat}

/-! ### Coherence through the steps -/

/-- After a slot was taken the disk has what it held. -/
theorem Taken.coherent (ht : Taken c v c') (hc : Coherent none c L) : Coherent (some v) c' L := by
  -- the only sector written is the victim's, with its logical contents
  have hdev : ∀ s, c'.device.sectors s = c.device.sectors s ∨
      ((c.buffer v).valid = true ∧ s = (c.buffer v).sector ∧ c'.device.sectors s = L s) := by
    intro s
    rw [ht.device]
    split
    · rename_i h
      by_cases hs : s = (c.buffer v).sector
      · refine .inr ⟨h.1, hs, ?_⟩
        rw [hs, Device.put_sectors, update_self, hc.data v (by simp) h.1]
      · exact .inl (by rw [Device.put_sectors, update_of_ne hs])
    · exact .inl rfl
  have hvalid : ∀ i, some i ≠ some v → (c'.buffer i).valid = (c.buffer i).valid :=
    fun i hi => ht.valid_ne i (by simpa using hi)
  refine ⟨fun i j hi hj hvi hvj he => ?_, fun i hi hvi => ?_, fun i hi hvi hd => ?_,
    fun s hs => ?_, fun i hi hvi => ?_, fun i hi hvi => ?_⟩
  · rw [hvalid i hi] at hvi
    rw [hvalid j hj] at hvj
    rw [ht.sector, ht.sector] at he
    exact hc.inj i j (by simp) (by simp) hvi hvj he
  · rw [hvalid i hi] at hvi
    rw [ht.data, ht.sector]
    exact hc.data i (by simp) hvi
  · rw [hvalid i hi] at hvi
    rw [ht.sector]
    rcases hdev (c.buffer i).sector with h | ⟨-, -, h⟩
    · rw [h]
      rcases ht.dirty i with hd' | hd'
      · rw [hd'] at hd; cases hd
      · exact hc.clean i (by simp) hvi (by rw [← hd', hd])
    · exact h
  · rcases hdev s with h | ⟨-, -, h⟩
    · rw [h]
      -- a sector only the victim held is on the disk: it was written now, or it was clean
      by_cases hv : (c.buffer v).valid = true ∧ (c.buffer v).sector = s
      · obtain ⟨hv, rfl⟩ := hv
        cases hd : (c'.buffer v).dirty with
        | true =>
          have hput : c'.device.sectors (c.buffer v).sector = (c.buffer v).data := by
            rw [ht.device, if_pos ⟨hv, hd⟩, Device.put_sectors, update_self]
          rw [← h, hput, hc.data v (by simp) hv]
        | false =>
          rcases ht.dirty v with hd' | hd'
          · rw [hd'] at hd; cases hd
          · exact hc.clean v (by simp) hv (by rw [← hd', hd])
      · refine hc.disk s (fun i _ hvi hi => ?_)
        by_cases hiv : i = v
        · subst hiv; exact hv ⟨hvi, hi⟩
        · have := hs i (by simpa using hiv)
          rw [ht.valid_ne i hiv, ht.sector] at this
          exact this hvi hi
    · exact h
  · rw [hvalid i hi] at hvi
    rw [ht.sector]
    exact hc.invalid i (by simp) hvi
  · rw [hvalid i hi] at hvi
    rw [ht.sector, ht.size]
    exact hc.range i (by simp) hvi

/-- Filling the exempt slot with a sector that the other slots do not hold. -/
theorem Coherent.fill (hc : Coherent (some v) c L) (hv : (c.buffer v).valid = true)
    (hs : 1 ≤ s ∧ s < c.device.size)
    (hmiss : ∀ i, i ≠ v → (c.buffer i).valid = true → (c.buffer i).sector ≠ s) :
    Coherent none (fillSlot v s c) L := by
  rw [fillSlot]
  have hdisk : c.device.sectors s = L s :=
    hc.disk s (fun i hi hvi => hmiss i (by simpa using hi) hvi)
  have hne : ∀ i, i ≠ v → (setSlot v (fun blk => { blk with
      data := c.device.sectors s, sector := s, dirty := false, recentAccesses := 0 }) c).buffer i
        = c.buffer i := fun i hi => setSlot_ne hi _ _
  refine ⟨fun i j _ _ hvi hvj he => ?_, fun i _ hvi => ?_, fun i _ hvi hd => ?_, fun s' hs' => ?_,
    fun i _ hvi => ?_, fun i _ hvi => ?_⟩
  · by_cases hi : i = v <;> by_cases hj : j = v
    · rw [hi, hj]
    · subst hi
      rw [hne j hj] at hvj he
      rw [setSlot_same] at he
      exact absurd he.symm (hmiss j hj hvj)
    · subst hj
      rw [hne i hi] at hvi he
      rw [setSlot_same] at he
      exact absurd he (hmiss i hi hvi)
    · rw [hne i hi] at hvi he
      rw [hne j hj] at hvj he
      exact hc.inj i j (by simpa using hi) (by simpa using hj) hvi hvj he
  · by_cases hi : i = v
    · subst hi; rw [setSlot_same]; exact hdisk
    · rw [hne i hi] at hvi ⊢
      exact hc.data i (by simpa using hi) hvi
  · rw [setSlot_device]
    by_cases hi : i = v
    · subst hi; rw [setSlot_same]; exact hdisk
    · rw [hne i hi] at hvi hd ⊢
      exact hc.clean i (by simpa using hi) hvi hd
  · rw [setSlot_device]
    refine hc.disk s' (fun i hi hvi => ?_)
    have h := hs' i (by simp)
    rw [hne i (by simpa using hi)] at h
    exact h hvi
  · by_cases hi : i = v
    · subst hi
      rw [setSlot_same] at hvi
      rw [show (c.buffer i).valid = false from hvi] at hv
      cases hv
    · rw [hne i hi] at hvi ⊢
      exact hc.invalid i (by simpa using hi) hvi
  · rw [setSlot_device]
    by_cases hi : i = v
    · subst hi; rw [setSlot_same]; exact hs
    · rw [hne i hi] at hvi ⊢
      exact hc.range i (by simpa using hi) hvi

/-- A located block: slot `i` is read-locked and holds the logical contents of sector `s`. -/
structure Located (s : Nat) (L : Nat → Sector) (i : Slot) (c c' : Cache) : Prop where
  coherent : Coherent none c' L
  locks : locks c' = Function.update (locks c) i reading
  valid : (c'.buffer i).valid = true
  sector : (c'.buffer i).sector = s
  size : c'.device.size = c.device.size

theorem Coherent.inRange (hc : Coherent none c L) : InRange c :=
  fun i hi => (hc.range i (by simp) hi).2

/-- On an idle cache any sector `1 ≤ s < size` comes back in a read-locked slot that holds its
    logical contents. -/
theorem findBlock_located (hc : Coherent none c L) (hidle : Idle c)
    (hs : 1 ≤ s ∧ s < c.device.size) :
    Returns (findBlock s) c (fun i c' => Located s L i c c') := by
  refine ((findBlock_spec hidle.sane).returns ?_).mono ?_
  · -- nothing is refused: the sector exists and no slot is held
    rintro - (h | ⟨i, e, -, h⟩ | ⟨-, h⟩)
    · exact h hs.2
    · rw [hidle.apply i] at h; cases h
    · rcases h with hout | h
      · exact hout hc.inRange
      · exact h ⟨0, by decide⟩ (hidle.apply _)
  · rintro i c' ⟨-, hhit | hfill, -⟩
    · obtain ⟨hsec, ⟨l, hl, hlocks⟩, hk⟩ := hhit
      rw [hidle.apply i] at hl
      cases hl
      -- an invalid slot carries sector number `0`, so the slot that matches is a valid one
      have hv : (c.buffer i).valid = true := by
        by_contra hv
        have h0 := hc.invalid i (by simp) (by simpa using hv)
        omega
      exact ⟨hc.keeps hk, hlocks, by rw [hk.valid]; exact hv, by rw [hk.sector]; exact hsec,
        by rw [hk.device]⟩
    · obtain ⟨hmiss, hlocks, c₁, ht, hk⟩ := hfill
      have hfilled := (ht.coherent hc).fill ht.valid ⟨hs.1, by rw [ht.size]; exact hs.2⟩
        (fun j _ _ => by rw [ht.sector]; exact hmiss j)
      refine ⟨hfilled.keeps hk, hlocks, ?_, ?_, ?_⟩
      · rw [hk.valid, fillSlot, setSlot_same]; exact ht.valid
      · rw [hk.sector, fillSlot, setSlot_same]
      · rw [hk.device, fillSlot, setSlot_device, ht.size]

/-- The one slot held by a reader is let go. -/
theorem Idle.release {l : RwLock} (hidle : Idle c)
    (hlocks : locks c' = Function.update (locks c) i l) (f : CacheBlock → CacheBlock)
    (hf : (f (c'.buffer i)).lock = free) : Idle (setSlot i f c') := by
  show locks (setSlot i f c') = fun _ => free
  rw [locks_setSlot, hlocks, hf, update_idem, ← hidle.apply i, update_eq_self]
  exact hidle.trans (by rw [hidle.apply i])

/-! ### Sections -/

/-- A read section: `cache_read_block`, a look at the data, `cache_read_end`. -/
def readSection (sector : Nat) : Exec Cache Sector := do
  let i ← cacheReadBlock sector
  let blk ← read (fun c => c.buffer i)
  cacheReadEnd i
  pure blk.data

/-- A write section: `cache_write_block`, any change of the data, `cache_write_end`. -/
def writeSection (sector : Nat) (change : Sector → Sector) : Exec Cache Unit := do
  let i ← cacheWriteBlock sector
  update (setSlot i (fun blk => { blk with data := change blk.data }))
  cacheWriteEnd i

theorem readSection_spec (hc : Coherent none c L) (hidle : Idle c)
    (hs : 1 ≤ s ∧ s < c.device.size) :
    Returns (readSection s) c (fun d c' =>
      d = L s ∧ Coherent none c' L ∧ Idle c' ∧ c'.device.size = c.device.size) := by
  refine Returns.bind (findBlock_located hc hidle hs) ?_
  rintro i c₁ ⟨hc₁, hlocks, hv, hsec, hsize⟩
  have hself : locks c₁ i = reading := by rw [hlocks, update_self]
  rw [returns_get, returns_step cacheReadEnd_ok, returns_pure]
  refine ⟨?_, hc₁.keeps (keeps_lock i _ c₁), hidle.release hlocks _ ?_, hsize⟩
  · rw [hc₁.data i (by simp) hv, hsec]
  · show (locks c₁ i).readEnd = free
    rw [hself, readEnd_reading]

/-- Storing new contents in a valid slot and marking it dirty is one update of the map. -/
theorem Coherent.store {f : CacheBlock → CacheBlock} (hc : Coherent none c L)
    (hv : (c.buffer i).valid = true) (hfv : (f (c.buffer i)).valid = (c.buffer i).valid)
    (hfs : (f (c.buffer i)).sector = (c.buffer i).sector) (hfd : (f (c.buffer i)).dirty = true) :
    Coherent none (setSlot i f c)
      (Function.update L (c.buffer i).sector (f (c.buffer i)).data) := by
  have hne : ∀ j, j ≠ i → (c.buffer j).valid = true →
      (c.buffer j).sector ≠ (c.buffer i).sector := by
    intro j hj hvj h
    exact hj (hc.inj j i (by simp) (by simp) hvj hv h)
  -- no slot changes its sector or its `valid` flag
  have hvalid := setSlot_field rfl CacheBlock.valid hfv
  have hsector := setSlot_field rfl CacheBlock.sector hfs
  refine ⟨fun j k _ _ hvj hvk he => ?_, fun j _ hvj => ?_, fun j _ hvj hd => ?_, fun s hs => ?_,
    fun j _ hvj => ?_, fun j _ hvj => ?_⟩
  · rw [hvalid] at hvj hvk
    rw [hsector, hsector] at he
    exact hc.inj j k (by simp) (by simp) hvj hvk he
  · rw [hvalid] at hvj
    rw [hsector]
    by_cases hj : j = i
    · subst hj; rw [setSlot_same, update_self]
    · rw [setSlot_ne hj, update_of_ne (hne j hj hvj)]
      exact hc.data j (by simp) hvj
  · rw [hvalid] at hvj
    by_cases hj : j = i
    · subst hj; rw [setSlot_same, hfd] at hd; cases hd
    · rw [setSlot_ne hj] at hd
      rw [hsector, setSlot_device, update_of_ne (hne j hj hvj)]
      exact hc.clean j (by simp) hvj hd
  · -- a sector that no slot holds is not the one written
    have hmiss : ∀ j, (c.buffer j).valid = true → (c.buffer j).sector ≠ s := by
      intro j hvj
      rw [← hsector]
      exact hs j (by simp) (by rw [hvalid]; exact hvj)
    rw [setSlot_device, update_of_ne (Ne.symm (hmiss i hv))]
    exact hc.disk s (fun j _ => hmiss j)
  · rw [hvalid] at hvj
    rw [hsector]
    exact hc.invalid j (by simp) hvj
  · rw [hvalid] at hvj
    rw [hsector, setSlot_device]
    exact hc.range j (by simp) hvj

theorem writeSection_spec (change : Sector → Sector) (hc : Coherent none c L) (hidle : Idle c)
    (hs : 1 ≤ s ∧ s < c.device.size) :
    Returns (writeSection s change) c (fun _ c' =>
      Coherent none c' (Function.update L s (change (L s))) ∧ Idle c' ∧
        c'.device.size = c.device.size) := by
  rw [writeSection, cacheWriteBlock, returns_bind, returns_bind]
  refine (findBlock_located hc hidle hs).mono ?_
  rintro i c₁ ⟨hc₁, hlocks, hv, hsec, hsize⟩
  have hup : (locks c₁ i).upgrade = .ok writing := by
    rw [hlocks, update_self, upgrade_reading]
  rw [returns_step (cacheUpgrade_ok hup), returns_pure, returns_put, setSlot_setSlot]
  have hdata : (c₁.buffer i).data = L s := by rw [hc₁.data i (by simp) hv, hsec]
  -- the upgrade, the change and `cache_write_end` all update the one slot
  refine ⟨_, _, cacheWriteEnd_ok (by rw [locks_setSlot, update_self]), ?_⟩
  rw [setSlot_setSlot, ← hdata, ← hsec]
  exact ⟨hc₁.store hv rfl rfl rfl, hidle.release hlocks _ rfl, hsize⟩

/-- **`refresh_cache`.** Afterwards the disk holds the logical contents of every sector. -/
theorem refreshCache_spec (hc : Coherent none c L) (hidle : Idle c) :
    Returns refreshCache c (fun _ c' => Coherent none c' L ∧ Idle c' ∧
      c'.device.size = c.device.size ∧ c'.device.sectors = L) := by
  refine (refreshEach_spec (List.finRange cacheBlocks) hidle.sane hc.inRange).mono ?_
  rintro - c' ⟨hclean, hall⟩
  have hc' := hclean.coherent L hc
  refine ⟨hc', hclean.locks.trans hidle, hclean.size, funext fun s => ?_⟩
  -- a sector is on the disk, or in a valid slot, which is clean by now
  by_cases hs : ∃ i, (c'.buffer i).valid = true ∧ (c'.buffer i).sector = s
  · obtain ⟨i, hv, rfl⟩ := hs
    exact hc'.clean i (by simp) hv (hall i (List.mem_finRange i) (by rw [hidle.apply i]; rfl) hv)
  · exact hc'.disk s (fun i _ hv h => hs ⟨i, hv, h⟩)

/-! ### Sequential runs -/

/-- The operations of a sequential run. -/
inductive CacheOp where
  | readSection (sector : Nat)
  | writeSection (sector : Nat) (change : Sector → Sector)
  | refreshCache
  | updateAccesses

/-- The operation is on a sector of a device of `size` sectors, and not on sector `0`. -/
def CacheOp.InRange (size : Nat) : CacheOp → Prop
  | .readSection s => 1 ≤ s ∧ s < size
  | .writeSection s _ => 1 ≤ s ∧ s < size
  | .refreshCache => True
  | .updateAccesses => True

/-- An operation of the cache; a read section reports the bytes it saw. -/
def stepOp : CacheOp → Exec Cache (Option Sector)
  | .readSection s => do
    let data ← Cache.readSection s
    pure (some data)
  | .writeSection s change => do
    Cache.writeSection s change
    pure none
  | .refreshCache => do
    Cache.refreshCache
    pure none
  | .updateAccesses => do
    Cache.updateAccesses
    pure none

/-- What the operations mean: the cache and the disk together are a map from sectors to
    contents, and only write sections change it. -/
def specOp : CacheOp → (Nat → Sector) → Option Sector × (Nat → Sector)
  | .readSection s, L => (some (L s), L)
  | .writeSection s change, L => (none, Function.update L s (change (L s)))
  | .refreshCache, L => (none, L)
  | .updateAccesses, L => (none, L)

/-- Between two operations: no section is in progress and the slots are coherent. -/
structure Represents (size : Nat) (c : Cache) (L : Nat → Sector) : Prop where
  coherent : Coherent none c L
  idle : Idle c
  size : c.device.size = size

/-- `cache_init` represents the disk as it is. -/
theorem represents_cacheInit (device : Device) (buffer : Slot → CacheBlock) (nextBlock : Nat) :
    Represents device.size (cacheInit device buffer nextBlock) device.sectors := by
  refine ⟨⟨fun i j _ _ hv => ?_, fun i _ hv => ?_, fun i _ hv => ?_, fun _ _ => rfl,
    fun _ _ _ => rfl, fun i _ hv => ?_⟩, rfl, rfl⟩ <;> cases hv

/-- **One operation.** The cache does what the map does. -/
theorem stepOp_simulates {size : Nat} (op : CacheOp) (c : Cache) (L : Nat → Sector)
    (hop : op.InRange size) (hR : Represents size c L) :
    Returns (stepOp op) c (fun o c' =>
      o = (specOp op L).1 ∧ Represents size c' (specOp op L).2) := by
  obtain ⟨hc, hidle, rfl⟩ := hR
  cases op with
  | readSection s =>
    refine Returns.bind (readSection_spec hc hidle hop) ?_
    rintro d c' ⟨rfl, hc', hidle', hsize⟩
    exact returns_pure.mpr ⟨rfl, hc', hidle', hsize⟩
  | writeSection s change =>
    refine Returns.bind (writeSection_spec change hc hidle hop) ?_
    rintro - c' ⟨hc', hidle', hsize⟩
    exact returns_pure.mpr ⟨rfl, hc', hidle', hsize⟩
  | refreshCache =>
    refine Returns.bind (refreshCache_spec hc hidle) ?_
    rintro - c' ⟨hc', hidle', hsize, -⟩
    exact returns_pure.mpr ⟨rfl, hc', hidle', hsize⟩
  | updateAccesses =>
    obtain ⟨hk, hlocks⟩ := quiet_shiftEach (List.finRange cacheBlocks) c
    rw [stepOp, updateAccesses, returns_step (updateEach_run _ (List.nodup_finRange _) hidle.sane)]
    exact returns_pure.mpr ⟨rfl, hc.keeps hk, hlocks.trans hidle, by rw [hk.device]⟩

/-- **Transparency.** From `cache_init` over any device and any leftover slots, every sequential
    run returns; its read sections see what the map of contents holds, whatever was hit, filled
    and evicted; and a `refresh_cache` after it leaves that map on the device. -/
theorem cache_transparent (device : Device) (buffer : Slot → CacheBlock) (nextBlock : Nat)
    (ops : List CacheOp) (hops : ∀ op ∈ ops, op.InRange device.size) :
    Returns (runAll stepOp ops) (cacheInit device buffer nextBlock) (fun seen c =>
      seen = (specRun specOp ops device.sectors).1 ∧
        Returns Cache.refreshCache c (fun _ c' =>
          c'.device.sectors = (specRun specOp ops device.sectors).2)) := by
  refine (runAll_returns stepOp_simulates ops _ _ hops
    (represents_cacheInit device buffer nextBlock)).mono ?_
  rintro seen c ⟨hseen, hc, hidle, -⟩
  refine ⟨hseen, (refreshCache_spec hc hidle).mono ?_⟩
  rintro - c' ⟨-, -, -, hdev⟩
  exact hdev

/-- A file system device of 100 blank sectors. -/
def blankDevice : Device where
  type := .filesys
  size := 100
  sectors := fun _ => Bytes.zero
  size_lt := by decide
  owned := BlockType.filesys_owned

/-- A slot before `cache_init`. -/
def blankBlock : CacheBlock where
  valid := false
  data := Bytes.zero
  sector := 0
  recentAccesses := 0
  dirty := false
  accessed := false
  lock := free

/-- Write sections on the sectors `1 … 80`, more than there are slots, and a look at the first. -/
def sweep : List CacheOp :=
  (List.range 80).map (fun s => .writeSection (s + 1) (fun _ _ => UInt8.ofNat (s + 1))) ++
    [.updateAccesses, .readSection 1]

theorem cache_transparent_sweep :
    (∀ op ∈ sweep, op.InRange 100) ∧
      Returns (runAll stepOp sweep) (cacheInit blankDevice (fun _ => blankBlock) 0) (fun seen c =>
        seen = (specRun specOp sweep blankDevice.sectors).1 ∧
          Returns Cache.refreshCache c (fun _ c' =>
            c'.device.sectors = (specRun specOp sweep blankDevice.sectors).2)) := by
  have hrange : ∀ op ∈ sweep, op.InRange 100 := by
    intro op hop
    rcases List.mem_append.mp hop with h | h
    · obtain ⟨s, hs, rfl⟩ := List.mem_map.mp h
      have := List.mem_range.mp hs
      exact ⟨by omega, by omega⟩
    · rcases List.mem_pair.mp h with rfl | rfl
      · trivial
      · exact ⟨by decide, by decide⟩
  exact ⟨hrange, cache_transparent blankDevice _ 0 sweep hrange⟩

end Cache

end KernelSanders
