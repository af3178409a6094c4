import KernelSanders.Filesys.CacheReuse
import KernelSanders.Filesys.CacheTransparency
import KernelSanders.Lib.Machine

namespace KernelSanders

open Lib Lib.Exec
open List

namespace Cache

/-!
# Which block is evicted

`recent_accesses` is shifted to the right by every pass of `update_accesses`, which puts the
accessed flag in front; an access sets the front bit at once.  A block that was accessed in the
interval before the last pass therefore has two bits in front, and a block that has been accessed
since then has the one bit that the access set.

* `evicts_one_slot` — the slot that `cache_evict` takes;
* `steps_effect` — what the code does to the access bits;
* `Recency` — the cache with the number of passes and the interval of each block's last access;
* `Aged` — where the leading bit of each block is, in every state (`Aged.steps`);
* `evicts_in_order` — accesses while no other block was last accessed in the interval before the
  last pass (`Favours`) leave the blocks in the order of their last accesses.
-/

variable {c c' : Cache} {off : Option Slot}

/-! ### The access bits under each function -/

theorem onLock_recency (i : Slot) (f : RwLock → Except Stop RwLock) :
    Ensures (onLock i f) c (fun _ c' => SameRecency none c c') := by
  rw [onLock, ensures_get]
  split
  · exact ensures_update.mpr (sameRecency_lock i _ c)
  · exact ensures_stop

theorem onDevice_recency {α : Type} (x : Exec Device α) :
    Ensures (onDevice x) c (fun _ c' => SameRecency none c c') :=
  ensures_zoom.mpr (fun _ _ _ => SameRecency.of_buffer rfl)

/-- **Victim selection.**  `cache_evict` keeps one lock, that of a slot which was unlocked and has
    been accessed least recently among those, and writes the block back; it panics if and only if
    there is no such slot. -/
theorem evicts_one_slot (hsane : Sane c) (hvalid : ∀ i, (c.buffer i).valid = true)
    (hrange : ∀ i, (c.buffer i).sector < c.device.size) :
    ((∀ i, locks c i ≠ RwLock.free) →
      cacheEvict.run c = .error (.panic "Cache is full and completely locked down!\n")) ∧
    ((∃ i, locks c i = RwLock.free) → Returns cacheEvict c (fun v c' =>
      locks c v = RwLock.free ∧
      (∀ i, locks c i = RwLock.free →
        (c.buffer v).recentAccesses ≤ (c.buffer i).recentAccesses) ∧
      (locks c' v).g = 0 ∧
      ((c.buffer v).dirty = true →
        c'.device = c.device.put (c.buffer v).sector (c.buffer v).data) ∧
      ∀ i, i ≠ v → locks c' i = locks c i ∧ (c'.buffer i).sector = (c.buffer i).sector ∧
        (c'.buffer i).data = (c.buffer i).data)) := by
  refine ⟨fun hall => ?_, fun ⟨j, hj⟩ => ?_⟩
  · have hloop : Meets (evictEach (finRange cacheBlocks) none (BitVec.allOnes 64)) c _ _ :=
      evictEach_spec _ _ (nodup_finRange _) (by simp) hsane rfl (by simp)
    obtain ⟨r, c₁, hrun, -, -, -, hr, -⟩ := hloop.returns (fun _ ⟨i, _, hi⟩ => by
      rw [hvalid i] at hi
      cases hi)
    cases r with
    | none => rw [cacheEvict, bind_ok hrun]; rfl
    | some v => exact absurd (hr v rfl) (hall v)
  · refine ((cacheEvict_spec hsane).returns ?_).mono ?_
    · rintro - ((hout | hall) | ⟨i, -, hi⟩)
      · exact hout (fun i _ => hrange i)
      · exact hall j hj
      · rw [hvalid i] at hi
        cases hi
    rintro v c' ⟨ht, -, -, holdest⟩
    refine ⟨ht.free, fun i hi => (holdest i (unlocked_free hi)).2, ?_, fun hd => ?_,
      fun i hi => ⟨?_, ht.sector i, ht.data i⟩⟩
    · rw [ht.locks, Function.update_self]
      rfl
    · have hdirty : (c'.buffer v).dirty = true := by
        rcases ht.dirty v with h | h
        · exact h
        · rw [h, hd]
      rw [ht.device, if_pos ⟨hvalid v, hdirty⟩]
    · rw [ht.locks, Function.update_of_ne hi]

/-- A full cache in which every slot but the sixth is held by a writer. -/
def oneUnlocked : Cache where
  device := blankDevice
  buffer i := { blankBlock with
    valid := true, dirty := true, lock := if i.val = 5 then RwLock.free else RwLock.writing }
  readAhead := false
  nextBlock := 0

theorem evicts_one_slot_sixth :
    Returns cacheEvict oneUnlocked (fun v c' => v.val = 5 ∧ (locks c' v).g = 0) := by
  have hfree : ∀ i, locks oneUnlocked i = RwLock.free → i.val = 5 := by decide +kernel
  have hsane : Sane oneUnlocked := fun i => show _ ∨ _ by revert i; decide +kernel
  refine ((evicts_one_slot hsane (fun _ => rfl) (by decide +kernel)).2
    ⟨⟨5, by decide⟩, rfl⟩).mono ?_
  rintro v c' ⟨hv, -, hg, -⟩
  exact ⟨hfree v hv, hg⟩

/-- A pass over a valid block. -/
structure Shifted (b b' : CacheBlock) : Prop where
  valid : b'.valid = b.valid
  recentAccesses : b.valid = true → b'.recentAccesses =
    (b.recentAccesses >>> 1) ||| ((if b.accessed then 1#64 else 0#64) <<< 63)
  accessed : b.valid = true → b'.accessed = false

theorem shifted_shiftAccesses {b : CacheBlock}
    (hreach : b.valid = true → b.lock.readTry.1 = true) : Shifted b (shiftAccesses b) := by
  rw [shiftAccesses]
  by_cases h : reached b = true
  · rw [if_pos h]
    exact ⟨rfl, fun _ => rfl, fun _ => rfl⟩
  · have hno : ¬ b.valid = true := fun hv => h (Bool.and_eq_true_iff.mpr ⟨hv, hreach hv⟩)
    rw [if_neg h]
    exact ⟨rfl, fun hv => absurd hv hno, fun hv => absurd hv hno⟩

end Cache

/-! ### Runs -/

/-- The cache, with the number of passes of `update_accesses` so far and, for each slot, their
    number at the last access of its block. -/
structure Recency where
  cache : Cache
  passes : Nat
  last : Slot → Nat

/-- What the users and the threads of the cache do. -/
inductive CacheAct where
  | findBlock (s : Nat)
  | readEnd (i : Slot)
  | upgrade (i : Slot)
  | change (i : Slot) (d : Sector)
  | writeEnd (i : Slot)
  | blockClear (s : Nat)
  | refreshCache
  | updateAccesses
  | readAheadDone

namespace Recency

open Cache

def onCache {α : Type} (x : Exec Cache α) : Exec Recency α :=
  zoom Recency.cache (fun c r => { r with cache := c }) x

/-- A section is ended only while it is in progress, a block changes under its write lock, and a
    pass reaches every valid block. -/
def ready (r : Recency) : CacheAct → Bool
  | .readEnd i => decide (1 ≤ (locks r.cache i).b)
  | .upgrade i => decide (1 ≤ (locks r.cache i).b)
  | .change i _ => decide (locks r.cache i = RwLock.writing)
  | .writeEnd i => decide (locks r.cache i = RwLock.writing)
  | .updateAccesses =>
    decide (∀ i, (r.cache.buffer i).valid = true → (locks r.cache i).readTry.1 = true)
  | _ => true

def code : CacheAct → Exec Recency Unit
  | .findBlock s => do
    let i ← onCache (findBlock s)
    update (fun r => { r with last := Function.update r.last i r.passes })
  | .readEnd i => onCache (cacheReadEnd i)
  | .upgrade i => onCache (cacheUpgrade i)
  | .change i d => onCache (update (setSlot i (fun blk => { blk with data := d })))
  | .writeEnd i => onCache (cacheWriteEnd i)
  | .blockClear s => onCache (onDevice (KernelSanders.blockClear s))
  | .refreshCache => onCache refreshCache
  | .updateAccesses => do
    onCache updateAccesses
    update (fun r => { r with passes := r.passes + 1 })
  | .readAheadDone => onCache (update (fun c => { c with readAhead := false }))

def machine : Machine Recency CacheAct := ⟨ready, code⟩

variable {r r' : Recency} {o : CacheAct} {b b' : CacheBlock} {passes last : Nat}

theorem onCache_eq_ok {α : Type} {x : Exec Cache α} {a : α} (h : (onCache x).run r = .ok (a, r')) :
    ∃ c', x.run r.cache = .ok (a, c') ∧ r' = ⟨c', r.passes, r.last⟩ :=
  (ensures_zoom (Q := fun a r' => ∃ c', x.run r.cache = .ok (a, c') ∧
    r' = ⟨c', r.passes, r.last⟩)).mpr (fun _ c' hrun => ⟨c', hrun, rfl⟩) a r' h

/-- What a step does to the access bits. -/
inductive Effect (r : Recency) : CacheAct → Recency → Prop where
  | access {s : Nat} {i : Slot} {c' : Cache} : Accessed r.cache s i c' →
      Effect r (.findBlock s) ⟨c', r.passes, Function.update r.last i r.passes⟩
  | pass {c' : Cache} : (∀ i, Shifted (r.cache.buffer i) (c'.buffer i)) →
      Effect r .updateAccesses ⟨c', r.passes + 1, r.last⟩
  | other {o : CacheAct} {c' : Cache} : SameRecency none r.cache c' →
      Effect r o ⟨c', r.passes, r.last⟩

/-- A call that leaves the access bits alone. -/
theorem effect_other {x : Exec Cache Unit} (h : Ensures x r.cache (fun _ c' =>
    WellFormed c' ∧ SameRecency none r.cache c')) :
    Ensures (onCache x) r (fun _ r' => WellFormed r'.cache ∧ Effect r o r') :=
  ensures_zoom.mpr (h.mono (fun _ _ hc' => ⟨hc'.1, .other hc'.2⟩))

theorem steps_effect (h : WellFormed r.cache) (hsteps : machine.Steps o r r') :
    WellFormed r'.cache ∧ Effect r o r' := by
  obtain ⟨hready, hrun⟩ := hsteps
  dsimp only [machine] at hready hrun
  cases o with
  | findBlock s =>
    obtain ⟨i, r₁, hrun₁, hlast⟩ := bind_eq_ok.mp hrun
    obtain ⟨c', hfind, rfl⟩ := onCache_eq_ok hrun₁
    cases hlast
    exact ⟨(h.findBlock s i c' hfind).1, .access ((findBlock_spec h.sane).ensures i c' hfind).2.2⟩
  | readEnd i =>
    exact effect_other (fun _ c' hend => ⟨h.step (.readEnd i (of_decide_eq_true hready) hend),
      onLock_recency i _ _ c' hend⟩) _ _ hrun
  | upgrade i =>
    have hb : 1 ≤ (locks r.cache i).b := of_decide_eq_true hready
    refine effect_other (fun _ c' hup => ⟨?_, onLock_recency i _ _ c' hup⟩) _ _ hrun
    cases hl : (locks r.cache i).upgrade with
    | error e => cases (onLock_error hl).symm.trans hup
    | ok l =>
      cases (cacheUpgrade_ok hl).symm.trans hup
      have hg : (locks r.cache i).g = 0 := by
        rcases h.sane i with hfree | ⟨hg, -⟩
        · rw [hfree] at hb
          exact absurd hb (by decide)
        · exact hg
      refine h.move (keeps_lock i l r.cache).sameBlocks (fun k => ?_)
      rw [locks_setSlot, (RwLock.upgrade_sane hg hl).2]
      exact h.sane.update RwLock.sane_writing k
  | change i d =>
    exact effect_other (ensures_update.mpr ⟨h.step (.change i d (of_decide_eq_true hready)),
      sameRecency_setSlot i _ _ (fun _ => ⟨rfl, rfl, rfl⟩)⟩) _ _ hrun
  | writeEnd i =>
    have hwriting := of_decide_eq_true hready
    refine effect_other (fun _ c' hend => ⟨h.step (.writeEnd i hwriting hend), ?_⟩) _ _ hrun
    cases (cacheWriteEnd_ok hwriting).symm.trans hend
    exact sameRecency_setSlot i _ _ (fun _ => ⟨rfl, rfl, rfl⟩)
  | blockClear s =>
    exact effect_other (fun _ c' hclear => ⟨h.step (.blockClear s hclear),
      onDevice_recency _ _ c' hclear⟩) _ _ hrun
  | refreshCache =>
    refine effect_other (fun _ c' hrefresh => ⟨h.step (.refreshCache hrefresh), fun i _ => ?_⟩) _ _
      hrun
    obtain ⟨hclean, -⟩ := (refreshEach_spec _ h.sane h.inRange).ensures _ c' hrefresh
    rcases hclean.buffer i with hi | hi <;> rw [hi] <;> exact ⟨rfl, rfl, rfl⟩
  | updateAccesses =>
    obtain ⟨_, r₁, hrun₁, hlast⟩ := bind_eq_ok.mp hrun
    obtain ⟨c', hpass, rfl⟩ := onCache_eq_ok hrun₁
    cases hlast
    refine ⟨h.step (.updateAccesses hpass), .pass (fun i => ?_)⟩
    cases (updateEach_run _ (nodup_finRange _) h.sane).symm.trans hpass
    show Shifted _ (if i ∈ finRange cacheBlocks then _ else _)
    rw [if_pos (mem_finRange i)]
    exact shifted_shiftAccesses (of_decide_eq_true hready i)
  | readAheadDone =>
    exact effect_other (ensures_update.mpr ⟨h.move ⟨fun _ => rfl, fun _ => rfl, rfl⟩ h.sane,
      SameRecency.of_buffer rfl⟩) _ _ hrun

/-! ### The leading bit -/

/-- The front bit of `recent_accesses`. -/
theorem front_le_or (x : BitVec 64) : 2 ^ 63 ≤ (x ||| (1#64 <<< 63)).toNat := by
  rw [BitVec.toNat_or]
  exact Nat.right_le_or

/-- The bits of a block whose last access was `last` passes after the start: the front bit until
    the next pass and after it, and then one place further to the right with every pass. -/
structure AgedBlock (b : CacheBlock) (passes last : Nat) : Prop where
  le : last ≤ passes
  accessed : b.accessed = true ↔ last = passes
  front : last = passes → 2 ^ 63 ≤ b.recentAccesses.toNat
  low : last < passes → passes ≤ last + 64 →
    2 ^ (last + 64 - passes) ≤ b.recentAccesses.toNat
  high : last < passes → b.recentAccesses.toNat < 2 ^ (last + 65 - passes)

theorem AgedBlock.shift (h : AgedBlock b passes last) (hvalid : b.valid = true)
    (hb : Shifted b b') : AgedBlock b' (passes + 1) last := by
  have hle := h.le
  have hrecent := hb.recentAccesses hvalid
  have hclear := hb.accessed hvalid
  have hlt := b'.recentAccesses.isLt
  have hhalf : last ≠ passes → b'.recentAccesses.toNat = b.recentAccesses.toNat / 2 := by
    intro hnow
    rw [hrecent, Bool.eq_false_iff.mpr (fun ha => hnow (h.accessed.mp ha))]
    simp only [Bool.false_eq_true, if_false, BitVec.zero_shiftLeft, BitVec.or_zero,
      BitVec.toNat_ushiftRight, Nat.shiftRight_one]
  refine ⟨by omega, by rw [hclear]; exact ⟨nofun, by omega⟩, by omega, fun _ hnear => ?_,
    fun _ => ?_⟩
  · by_cases hnow : last = passes
    · -- the pass puts the accessed flag in front
      rw [hrecent, if_pos (h.accessed.mpr hnow), show last + 64 - (passes + 1) = 63 by omega]
      exact front_le_or _
    · have hlow := h.low (by omega) (by omega)
      rw [show last + 64 - passes = last + 64 - (passes + 1) + 1 by omega, Nat.pow_succ] at hlow
      rw [hhalf hnow]
      omega
  · by_cases hnow : last = passes
    · rw [show last + 65 - (passes + 1) = 64 by omega]
      exact hlt
    · have hhigh := h.high (by omega)
      rw [hhalf hnow]
      by_cases hgone : last + 65 ≤ passes
      · rw [show last + 65 - passes = 0 by omega] at hhigh
        rw [show last + 65 - (passes + 1) = 0 by omega]
        omega
      · rw [show last + 65 - passes = last + 65 - (passes + 1) + 1 by omega, Nat.pow_succ] at hhigh
        omega

theorem AgedBlock.congr (h : AgedBlock b passes last) (hb : SameBits b b') :
    AgedBlock b' passes last where
  le := h.le
  accessed := by rw [hb.accessed]; exact h.accessed
  front := by rw [hb.recentAccesses]; exact h.front
  low := by rw [hb.recentAccesses]; exact h.low
  high := by rw [hb.recentAccesses]; exact h.high

/-- Every valid block has the bits of its last access. -/
structure Aged (r : Recency) : Prop where
  wellFormed : WellFormed r.cache
  blocks : ∀ i, (r.cache.buffer i).valid = true →
    AgedBlock (r.cache.buffer i) r.passes (r.last i)

theorem agedBlock_accessed {c' : Cache} {s : Nat} {i : Slot} (h : Accessed r.cache s i c') :
    AgedBlock (c'.buffer i) r.passes r.passes where
  le := le_rfl
  accessed := by simp [h.accessed]
  front _ := by
    rcases h.recentAccesses with ⟨-, -, hrecent⟩ | ⟨-, hrecent⟩
    · rw [hrecent]
      exact front_le_or _
    · rw [hrecent]
      decide
  low hlt := absurd hlt (lt_irrefl _)
  high hlt := absurd hlt (lt_irrefl _)

theorem Aged.steps (h : Aged r) (hsteps : machine.Steps o r r') : Aged r' := by
  obtain ⟨hwf, heffect⟩ := steps_effect h.wellFormed hsteps
  refine ⟨hwf, fun j hvalid => ?_⟩
  cases heffect with
  | @access s i c' haccess =>
    show AgedBlock (c'.buffer j) r.passes (Function.update r.last i r.passes j)
    by_cases hj : j = i
    · subst hj
      rw [Function.update_self]
      exact agedBlock_accessed haccess
    · have hsame := haccess.same j (fun h => hj (Option.some.inj h))
      rw [Function.update_of_ne hj]
      exact (h.blocks j (hsame.valid.symm.trans hvalid)).congr hsame
  | pass hshift =>
    have hvalid' := (hshift j).valid.symm.trans hvalid
    exact (h.blocks j hvalid').shift hvalid' (hshift j)
  | other hsame =>
    exact (h.blocks j ((hsame j nofun).valid.symm.trans hvalid)).congr (hsame j nofun)

/-! ### The order of the blocks -/

/-- The block accessed in the later interval has the larger bits, if that was within the last sixty
    passes. -/
def Ordered (r : Recency) : Prop :=
  ∀ x y, (r.cache.buffer x).valid = true → (r.cache.buffer y).valid = true →
    r.last y < r.last x → r.passes ≤ r.last x + 60 →
      (r.cache.buffer y).recentAccesses < (r.cache.buffer x).recentAccesses

/-- `cache_evict`, also after the search of `find_block` for an invalid slot, takes no block while
    it could get one that was last accessed in an earlier interval. -/
def EvictsOldest (r : Recency) : Prop :=
  ∀ c₁ v c', c₁ = r.cache ∨ (freeEach (finRange cacheBlocks)).run r.cache = .ok (none, c₁) →
    cacheEvict.run c₁ = .ok (v, c') →
      ∀ y, y ≠ v → Unlocked r.cache y → r.passes ≤ r.last v + 60 → ¬ r.last y < r.last v

/-- The blocks of the interval before the last pass are behind those that have been accessed since
    then. -/
def Fresh (r : Recency) : Prop :=
  ∀ x y, (r.cache.buffer x).valid = true → (r.cache.buffer x).accessed = true →
    (r.cache.buffer y).valid = true → (r.cache.buffer y).accessed = false →
      (r.cache.buffer y).recentAccesses < (r.cache.buffer x).recentAccesses

/-- No block but that of the sector has the front bit of an access before the last pass and none
    since.  The block of sector `0` is not excepted: every empty slot has that number. -/
def Favours (c : Cache) (s : Nat) : Prop :=
  ∀ y, (c.buffer y).valid = true → (c.buffer y).accessed = false →
    ((c.buffer y).sector = s → s = 0) → (c.buffer y).recentAccesses < 1#64 <<< 63

def Favoured (r : Recency) : CacheAct → Prop
  | .findBlock s => Favours r.cache s
  | _ => True

theorem Aged.ordered (h : Aged r) (hfresh : Fresh r) : Ordered r := by
  intro x y hx hy hlt hnear
  have hbx := h.blocks x hx
  have hby := h.blocks y hy
  have hlex := hbx.le
  have hhigh := hby.high (by omega)
  by_cases hnow : r.last x = r.passes
  · exact hfresh x y hx (hbx.accessed.mpr hnow) hy
      (Bool.eq_false_iff.mpr (fun ha => by have := hby.accessed.mp ha; omega))
  · -- the leading bit of `x` is to the left of that of `y`
    have hlow := hbx.low (by omega) (by omega)
    have hpow : 2 ^ (r.last y + 65 - r.passes) ≤ 2 ^ (r.last x + 64 - r.passes) :=
      Nat.pow_le_pow_right (by decide) (by omega)
    exact BitVec.lt_def.mpr (by omega)

theorem Fresh.steps (h : Fresh r) (hwf : WellFormed r.cache) (hsteps : machine.Steps o r r')
    (hfav : Favoured r o) : Fresh r' := by
  intro x y hx hax hy hay
  obtain ⟨-, heffect⟩ := steps_effect hwf hsteps
  cases heffect with
  | @access s i c' haccess =>
    show (c'.buffer y).recentAccesses < (c'.buffer x).recentAccesses
    have hyi : y ≠ i := by
      rintro rfl
      exact absurd (haccess.accessed.symm.trans hay) (by decide)
    have hsy := haccess.same y (fun h => hyi (Option.some.inj h))
    have hy' := hsy.valid.symm.trans hy
    have hay' := hsy.accessed.symm.trans hay
    rw [hsy.recentAccesses]
    by_cases hxi : x = i
    · subst hxi
      rcases haccess.recentAccesses with ⟨hsector, -, hrecent⟩ | ⟨hnone, hrecent⟩
      · have hclear := hfav y hy' hay' (fun hs => by_contra (fun hne =>
          hyi (hwf.distinct y x (hs.trans hsector.symm) (hs ▸ hne))))
        rw [hrecent]
        exact BitVec.lt_def.mpr ((BitVec.lt_def.mp hclear).trans_le (front_le_or _))
      · rw [hrecent]
        exact hfav y hy' hay' (fun hs => absurd hs (hnone y))
    · have hsx := haccess.same x (fun h => hxi (Option.some.inj h))
      rw [hsx.recentAccesses]
      exact h x y (hsx.valid.symm.trans hx) (hsx.accessed.symm.trans hax) hy' hay'
  | pass hshift =>
    have := (hshift x).accessed ((hshift x).valid.symm.trans hx)
    exact absurd (this.symm.trans hax) (by decide)
  | other hsame =>
    rename_i c'
    show (c'.buffer y).recentAccesses < (c'.buffer x).recentAccesses
    have hsx := hsame x nofun
    have hsy := hsame y nofun
    rw [hsx.recentAccesses, hsy.recentAccesses]
    exact h x y (hsx.valid.symm.trans hx) (hsx.accessed.symm.trans hax)
      (hsy.valid.symm.trans hy) (hsy.accessed.symm.trans hay)

theorem Ordered.evictsOldest (h : Ordered r) (hsane : Sane r.cache) : EvictsOldest r := by
  intro c₁ v c' hc₁ hevict y _ hy hnear hlt
  -- the search for an invalid slot leaves the access bits and the locks
  have hsame : SameRecency none r.cache c₁ ∧ locks c₁ = locks r.cache := by
    rcases hc₁ with rfl | hfree
    · exact ⟨SameRecency.refl _ _, rfl⟩
    · obtain ⟨hbits, hquiet, -⟩ := (freeEach_spec hsane _).ensures _ _ hfree
      exact ⟨hbits, hquiet.locks⟩
  obtain ⟨hbits, hlocks⟩ := hsame
  have hsane₁ : Sane c₁ := fun i => by rw [hlocks]; exact hsane i
  obtain ⟨-, -, hv, holdest⟩ := (cacheEvict_spec hsane₁).ensures v c' hevict
  obtain ⟨hyvalid, hle⟩ := holdest y (by rw [Unlocked, hlocks]; exact hy)
  have hsy := hbits y (by simp)
  have hsv := hbits v (by simp)
  have hgt := h v y (hsv.valid.symm.trans hv) (hsy.valid.symm.trans hyvalid) hlt hnear
  rw [hsy.recentAccesses, hsv.recentAccesses] at hle
  exact BitVec.not_le.mpr hgt hle

/-- The state after `cache_init`. -/
def start (device : Device) (buffer : Slot → CacheBlock) (nextBlock : Nat) : Recency :=
  ⟨cacheInit device buffer nextBlock, 0, fun _ => 0⟩

/-- In every run all of whose accesses are favoured, the blocks are in the order of their last
    accesses, and the one that is evicted was accessed first. -/
theorem evicts_in_order (device : Device) (buffer : Slot → CacheBlock) (nextBlock : Nat)
    (hrun : machine.Run Favoured (start device buffer nextBlock) r) :
    Ordered r ∧ EvictsOldest r := by
  obtain ⟨haged, hfresh⟩ := Machine.Run.invariant (I := fun r => Aged r ∧ Fresh r)
    (fun o s s' h hsteps hP => ⟨h.1.steps hsteps, h.2.steps h.1.wellFormed hsteps hP⟩) hrun
    ⟨⟨wellFormed_cacheInit device buffer nextBlock, fun _ => nofun⟩, fun _ _ => nofun⟩
  have hordered := haged.ordered hfresh
  exact ⟨hordered, hordered.evictsOldest haged.wellFormed.sane⟩

instance (c : Cache) (s : Nat) : Decidable (Favours c s) :=
  inferInstanceAs (Decidable (∀ _, _))

instance (r : Recency) : (o : CacheAct) → Decidable (Favoured r o)
  | .findBlock s => inferInstanceAs (Decidable (Favours r.cache s))
  | .readEnd _ | .upgrade _ | .change _ _ | .writeEnd _ | .blockClear _ | .refreshCache
  | .updateAccesses | .readAheadDone => inferInstanceAs (Decidable True)

/-- The state after some actions on an empty cache. -/
def afterActs (acts : List CacheAct) : Recency :=
  machine.after acts (start blankDevice (fun _ => blankBlock) 0)

/-- A second block is accessed two passes after the first one. -/
theorem evicts_in_order_apart :
    machine.Run Favoured (afterActs [])
      (afterActs [.findBlock 1, .updateAccesses, .updateAccesses, .findBlock 2]) ∧
    Ordered (afterActs [.findBlock 1, .updateAccesses, .updateAccesses, .findBlock 2]) ∧
    EvictsOldest (afterActs [.findBlock 1, .updateAccesses, .updateAccesses, .findBlock 2]) := by
  have hrun : machine.Run Favoured (start blankDevice (fun _ => blankBlock) 0)
      (afterActs [.findBlock 1, .updateAccesses, .updateAccesses, .findBlock 2]) :=
    Machine.run_of_allows (by decide +kernel)
  exact ⟨hrun, evicts_in_order _ _ _ hrun⟩

/-- One pass after the access to a first block a second one is accessed: it has the front bit, and
    the first block has the two bits in front. -/
theorem accessed_later_behind :
    machine.Run (fun _ _ => True) (afterActs [])
      (afterActs [.findBlock 1, .updateAccesses, .findBlock 2]) ∧
    ¬ Ordered (afterActs [.findBlock 1, .updateAccesses, .findBlock 2]) := by
  refine ⟨Machine.run_of_allows (by decide +kernel), fun h => ?_⟩
  exact absurd (h ⟨1, by decide⟩ ⟨0, by decide⟩ (by decide +kernel) (by decide +kernel)
    (by decide +kernel) (by decide +kernel)) (by decide +kernel)

end Recency

end KernelSanders
