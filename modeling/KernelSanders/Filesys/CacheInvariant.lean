import KernelSanders.Filesys.Cache

namespace KernelSanders

open Lib Lib.Exec
open Function hiding update
open RwLock

namespace Cache

/-!
# The invariant of the buffer cache

`Coherent off c L` relates the 64 slots and the disk to the logical contents `L` of the sectors:
a valid slot holds the logical contents of its sector, a clean one agrees with the disk, no two
valid slots hold the same sector, and a sector that no valid slot holds is up to date on the
disk.  `off` names at most one slot that is exempt because its block is being replaced.

Every step of the cache either moves locks, access bits and dirty bits upwards, which is
`Keeps` and leaves the invariant alone (`Coherent.keeps`), or is one of the transfers: the
write-back of a victim, the import of a sector, the write-back of `refresh_cache`.  The locks are
followed separately, as the function `locks c` from slots to locks.
-/

/-- The logical contents `L`, spread over the disk and the slots; `off` is exempt. -/
structure Coherent (off : Option Slot) (c : Cache) (L : Nat → Sector) : Prop where
  inj : ∀ i j, some i ≠ off → some j ≠ off → (c.buffer i).valid = true →
    (c.buffer j).valid = true → (c.buffer i).sector = (c.buffer j).sector → i = j
  data : ∀ i, some i ≠ off → (c.buffer i).valid = true →
    (c.buffer i).data = L (c.buffer i).sector
  clean : ∀ i, some i ≠ off → (c.buffer i).valid = true → (c.buffer i).dirty = false →
    c.device.sectors (c.buffer i).sector = L (c.buffer i).sector
  disk : ∀ s, (∀ i, some i ≠ off → (c.buffer i).valid = true → (c.buffer i).sector ≠ s) →
    c.device.sectors s = L s
  invalid : ∀ i, some i ≠ off → (c.buffer i).valid = false → (c.buffer i).sector = 0
  range : ∀ i, some i ≠ off → (c.buffer i).valid = true →
    1 ≤ (c.buffer i).sector ∧ (c.buffer i).sector < c.device.size

/-- The locks of the slots. -/
def locks (c : Cache) : Slot → RwLock := fun i => (c.buffer i).lock

/-- No section is in progress. -/
def Idle (c : Cache) : Prop := locks c = fun _ => free

/-- Every lock is in one of the states the lock operations keep it in. -/
def Sane (c : Cache) : Prop := ∀ i, (locks c i).Sane

/-- Only locks and access bits moved, and dirty bits were at most raised. -/
structure Keeps (c c' : Cache) : Prop where
  device : c'.device = c.device
  valid : ∀ i, (c'.buffer i).valid = (c.buffer i).valid
  data : ∀ i, (c'.buffer i).data = (c.buffer i).data
  sector : ∀ i, (c'.buffer i).sector = (c.buffer i).sector
  dirty : ∀ i, (c'.buffer i).dirty = true ∨ (c'.buffer i).dirty = (c.buffer i).dirty

/-! ### Slot updates -/

@[simp] theorem setSlot_device (i : Slot) (f : CacheBlock → CacheBlock) (c : Cache) :
    (setSlot i f c).device = c.device := rfl

theorem setSlot_buffer (i j : Slot) (f : CacheBlock → CacheBlock) (c : Cache) :
    (setSlot i f c).buffer j = if j = i then f (c.buffer i) else c.buffer j := by
  rw [setSlot]
  exact update_apply c.buffer i (f (c.buffer i)) j

@[simp] theorem setSlot_same (i : Slot) (f : CacheBlock → CacheBlock) (c : Cache) :
    (setSlot i f c).buffer i = f (c.buffer i) := by
  rw [setSlot_buffer, if_pos rfl]

theorem setSlot_ne {i j : Slot} (h : j ≠ i) (f : CacheBlock → CacheBlock) (c : Cache) :
    (setSlot i f c).buffer j = c.buffer j := by
  rw [setSlot_buffer, if_neg h]

/-- What the update of a slot leaves alone is as it was in every slot. -/
theorem setSlot_field {α : Type} {i : Slot} {f : CacheBlock → CacheBlock} {c c' : Cache}
    (hc : c' = setSlot i f c) (field : CacheBlock → α)
    (h : field (f (c.buffer i)) = field (c.buffer i)) (j : Slot) :
    field (c'.buffer j) = field (c.buffer j) := by
  rw [hc, setSlot_buffer]
  split_ifs with hj
  · rw [h, hj]
  · rfl

theorem setSlot_setSlot (i : Slot) (f g : CacheBlock → CacheBlock) (c : Cache) :
    setSlot i f (setSlot i g c) = setSlot i (fun blk => f (g blk)) c := by
  simp only [setSlot, update_self, update_idem]

/-- A slot update moves the lock of its slot only. -/
theorem locks_setSlot (i : Slot) (f : CacheBlock → CacheBlock) (c : Cache) :
    locks (setSlot i f c) = Function.update (locks c) i (f (c.buffer i)).lock := by
  funext j
  by_cases hj : j = i
  · subst hj
    rw [update_self, locks, setSlot_same]
  · rw [update_of_ne hj, locks, locks, setSlot_ne hj]

/-- Storing what is there changes nothing. -/
theorem setSlot_self {i : Slot} {f : CacheBlock → CacheBlock} {c : Cache}
    (h : f (c.buffer i) = c.buffer i) : setSlot i f c = c := by
  rw [setSlot, h, update_eq_self]

theorem Keeps.refl (c : Cache) : Keeps c c :=
  ⟨rfl, fun _ => rfl, fun _ => rfl, fun _ => rfl, fun _ => .inr rfl⟩

theorem Keeps.trans {c c' c'' : Cache} (h : Keeps c c') (h' : Keeps c' c'') : Keeps c c'' where
  device := h'.device.trans h.device
  valid i := (h'.valid i).trans (h.valid i)
  data i := (h'.data i).trans (h.data i)
  sector i := (h'.sector i).trans (h.sector i)
  dirty i := by
    rcases h'.dirty i with hd | hd
    · exact .inl hd
    · rw [hd]; exact h.dirty i

/-- A slot update that only moves locks, access bits, or raises the dirty bit. -/
theorem keeps_setSlot (i : Slot) (f : CacheBlock → CacheBlock) (c : Cache)
    (hv : (f (c.buffer i)).valid = (c.buffer i).valid)
    (hd : (f (c.buffer i)).data = (c.buffer i).data)
    (hs : (f (c.buffer i)).sector = (c.buffer i).sector)
    (hdirty : (f (c.buffer i)).dirty = true ∨ (f (c.buffer i)).dirty = (c.buffer i).dirty) :
    Keeps c (setSlot i f c) := by
  refine ⟨rfl, fun j => ?_, fun j => ?_, fun j => ?_, fun j => ?_⟩ <;>
    by_cases h : j = i
  · subst h; simpa using hv
  · rw [setSlot_ne h]
  · subst h; simpa using hd
  · rw [setSlot_ne h]
  · subst h; simpa using hs
  · rw [setSlot_ne h]
  · subst h; simpa using hdirty
  · rw [setSlot_ne h]; exact .inr rfl

/-- The invariant does not see locks, access bits, or a dirty bit that is raised. -/
theorem Coherent.keeps {off : Option Slot} {c c' : Cache} {L : Nat → Sector}
    (h : Coherent off c L) (hk : Keeps c c') : Coherent off c' L where
  inj i j hi hj hvi hvj hs := by
    rw [hk.valid] at hvi hvj
    rw [hk.sector, hk.sector] at hs
    exact h.inj i j hi hj hvi hvj hs
  data i hi hv := by
    rw [hk.valid] at hv
    rw [hk.data, hk.sector]
    exact h.data i hi hv
  clean i hi hv hd := by
    rw [hk.valid] at hv
    rw [hk.sector, hk.device]
    rcases hk.dirty i with hd' | hd'
    · rw [hd'] at hd; cases hd
    · exact h.clean i hi hv (by rw [← hd', hd])
  disk s hs := by
    rw [hk.device]
    refine h.disk s (fun i hi hv => ?_)
    rw [← hk.sector]
    exact hs i hi (by rw [hk.valid]; exact hv)
  invalid i hi hv := by
    rw [hk.valid] at hv
    rw [hk.sector]
    exact h.invalid i hi hv
  range i hi hv := by
    rw [hk.valid] at hv
    rw [hk.sector, hk.device]
    exact h.range i hi hv

/-! ### The lock operations -/

variable {c : Cache} {i : Slot} {f : RwLock → Except Stop RwLock} {l l' : RwLock}

/-- A slot that is taken and given back has the lock it had. -/
theorem locks_restore {ℓ : Slot → RwLock} (l : RwLock) :
    Function.update (Function.update ℓ i l) i (ℓ i) = ℓ := by
  rw [update_idem, update_eq_self]

theorem Sane.update (h : Sane c) (hl : l.Sane) (j : Slot) :
    (Function.update (locks c) i l j).Sane := by
  by_cases hj : j = i
  · subst hj; rw [update_self]; exact hl
  · rw [update_of_ne hj]; exact h j

theorem Idle.apply (h : Idle c) (i : Slot) : locks c i = free := by
  rw [h]

theorem Idle.sane (h : Idle c) : Sane c := fun i => by
  rw [h.apply i]; exact sane_free

theorem onLock_ok (hf : f (locks c i) = .ok l') :
    (onLock i f).run c = .ok ((), setSlot i (fun blk => { blk with lock := l' }) c) := by
  rw [onLock, read_bind, show (c.buffer i).lock = locks c i from rfl, hf]
  rfl

theorem onLock_error {e : Stop} (hf : f (locks c i) = .error e) :
    (onLock i f).run c = .error e := by
  rw [onLock, read_bind, show (c.buffer i).lock = locks c i from rfl, hf]
  rfl

theorem tryLock_ok {f : RwLock → Bool × RwLock} {r : Bool} (hf : f (locks c i) = (r, l')) :
    (tryLock i f).run c = .ok (r, setSlot i (fun blk => { blk with lock := l' }) c) := by
  rw [tryLock, read_bind, update_bind, show (c.buffer i).lock = locks c i from rfl, hf]
  rfl

theorem cacheReadBegin_ok (h : (locks c i).readBegin = .ok l) :
    (cacheReadBegin i).run c = .ok ((), setSlot i (fun blk => { blk with lock := l }) c) :=
  onLock_ok h

theorem cacheReadEnd_ok :
    (cacheReadEnd i).run c =
      .ok ((), setSlot i (fun blk => { blk with lock := (locks c i).readEnd }) c) :=
  onLock_ok (f := fun l => .ok l.readEnd) rfl

theorem cacheUpgrade_ok (h : (locks c i).upgrade = .ok l) :
    (cacheUpgrade i).run c = .ok ((), setSlot i (fun blk => { blk with lock := l }) c) :=
  onLock_ok h

theorem cacheDowngrade_ok (h : locks c i = writing) :
    (cacheDowngrade i).run c =
      .ok ((), setSlot i (fun blk => { blk with lock := reading }) c) :=
  onLock_ok (f := downgrade) (by rw [h]; rfl)

/-- A free slot is granted to a writer. -/
theorem cacheWriteTry_free (h : locks c i = free) :
    (cacheWriteTry i).run c =
      .ok (true, setSlot i (fun blk => { blk with lock := writing }) c) :=
  tryLock_ok (f := writeTry) (by rw [h]; rfl)

/-- A slot that is held is refused, and nothing changes. -/
theorem cacheWriteTry_held (hs : Sane c) (h : locks c i ≠ free) :
    (cacheWriteTry i).run c = .ok (false, c) := by
  rw [cacheWriteTry, tryLock_ok (writeTry_held (hs i) h), setSlot_self rfl]

/-- What `cache_write_end` leaves: the lock free and the block marked dirty. -/
theorem cacheWriteEnd_ok (h : locks c i = writing) :
    (cacheWriteEnd i).run c =
      .ok ((), setSlot i (fun blk => { blk with lock := free, dirty := true }) c) := by
  rw [cacheWriteEnd, bind_ok (onLock_ok (f := fun l => .ok l.writeEnd) rfl), run_update,
    setSlot_setSlot, h, writeEnd_writing]

theorem keeps_lock (i : Slot) (l : RwLock) (c : Cache) :
    Keeps c (setSlot i (fun blk => { blk with lock := l }) c) :=
  keeps_setSlot i _ c rfl rfl rfl (.inr rfl)

theorem keeps_writeEnd (i : Slot) (l : RwLock) (c : Cache) :
    Keeps c (setSlot i (fun blk => { blk with lock := l, dirty := true }) c) :=
  keeps_setSlot i _ c rfl rfl rfl (.inl rfl)

end Cache

end KernelSanders
