import KernelSanders.Filesys.CacheInvariant

namespace KernelSanders

open Lib
open Lib.Exec hiding update
open Function RwLock
open List

namespace Cache

/-!
# What the steps of the cache do to the slots and the disk

One specification for each loop of `cache.c`, for any sane state of the locks and without any
assumption on what the slots contain:

* `hitEach_spec` — the search for a slot with the sector number;
* `takeSlot_spec` — the slot for a new block, invalid or evicted (`Taken`);
* `findBlock_spec` — the whole of `find_block` (`Found`);
* `refreshEach_spec`, `updateEach_run` — the passes of the background threads.

That the cache is coherent, and where it is not, are consequences drawn in the next modules.
-/

variable {c : Cache} {i : Slot}

/-- Dirty bits were raised and access bits moved, with every lock as before. -/
structure Quiet (c c' : Cache) : Prop where
  keeps : Keeps c c'
  locks : locks c' = locks c

theorem Quiet.refl (c : Cache) : Quiet c c := ⟨Keeps.refl c, rfl⟩

theorem Quiet.trans {c' c'' : Cache} (h : Quiet c c') (h' : Quiet c' c'') : Quiet c c'' :=
  ⟨h.keeps.trans h'.keeps, h'.locks.trans h.locks⟩

/-- Every block in a slot is from the device. -/
def InRange (c : Cache) : Prop :=
  ∀ i, (c.buffer i).valid = true → (c.buffer i).sector < c.device.size

/-! ### Access bits -/

section

variable {c' : Cache} {off : Option Slot}

/-- The valid flag and the access bits of a block are as they were. -/
structure SameBits (b b' : CacheBlock) : Prop where
  valid : b'.valid = b.valid
  recentAccesses : b'.recentAccesses = b.recentAccesses
  accessed : b'.accessed = b.accessed

theorem SameBits.refl (b : CacheBlock) : SameBits b b := ⟨rfl, rfl, rfl⟩

theorem SameBits.trans {b b' b'' : CacheBlock} (h : SameBits b b') (h' : SameBits b' b'') :
    SameBits b b'' :=
  ⟨h'.valid.trans h.valid, h'.recentAccesses.trans h.recentAccesses,
    h'.accessed.trans h.accessed⟩

/-- All slots but one have their access bits. -/
def SameRecency (off : Option Slot) (c c' : Cache) : Prop :=
  ∀ j, some j ≠ off → SameBits (c.buffer j) (c'.buffer j)

theorem SameRecency.refl (off : Option Slot) (c : Cache) : SameRecency off c c :=
  fun _ _ => SameBits.refl _

theorem SameRecency.trans {c'' : Cache} (h : SameRecency off c c') (h' : SameRecency off c' c'') :
    SameRecency off c c'' :=
  fun j hj => (h j hj).trans (h' j hj)

theorem SameRecency.weaken (h : SameRecency none c c') : SameRecency off c c' :=
  fun j _ => h j (Option.some_ne_none j)

theorem SameRecency.of_buffer (h : c'.buffer = c.buffer) : SameRecency none c c' :=
  fun j _ => by rw [h]; exact SameBits.refl _

theorem sameRecency_setSlot (i : Slot) (f : CacheBlock → CacheBlock) (c : Cache)
    (hf : some i ≠ off → SameBits (c.buffer i) (f (c.buffer i))) :
    SameRecency off c (setSlot i f c) := by
  intro j hj
  by_cases hji : j = i
  · subst hji
    rw [setSlot_same]
    exact hf hj
  · rw [setSlot_ne hji]
    exact SameBits.refl _

theorem sameRecency_lock (i : Slot) (l : RwLock) (c : Cache) :
    SameRecency none c (setSlot i (fun blk => { blk with lock := l }) c) :=
  sameRecency_setSlot i _ c (fun _ => ⟨rfl, rfl, rfl⟩)

end

/-! ### The search for the sector -/

/-- The first loop: without a matching slot nothing happens, otherwise a matching slot comes
    back read-locked, or the loop waits for its writer. -/
theorem hitEach_spec (s : Nat) (l : List Slot) :
    Meets (hitEach s l) c
      (fun r c' =>
        match r with
        | none => c' = c ∧ ∀ i ∈ l, (c.buffer i).sector ≠ s
        | some i => (c.buffer i).sector = s ∧ ∃ l', (locks c i).readBegin = .ok l' ∧
            c' = setSlot i (fun blk => { blk with lock := l' }) c)
      (fun e => ∃ i, (c.buffer i).sector = s ∧ (locks c i).readBegin = .error e) := by
  induction l with
  | nil => exact ⟨rfl, by simp⟩
  | cons i is ih =>
    rw [hitEach, meets_get]
    by_cases hs : (c.buffer i).sector = s
    · rw [if_pos hs]
      cases hl : (locks c i).readBegin with
      | ok l' =>
        rw [meets_step (cacheReadBegin_ok hl), meets_get, meets_bind]
        refine meets_assert (fun _ => ⟨hs, l', hl, rfl⟩) (fun hne => absurd ?_ hne)
        rw [setSlot_same]
        exact hs
      | error e =>
        have hrun : (cacheReadBegin i).run c = .error e := onLock_error hl
        exact (meets_error (bind_error hrun)).mpr ⟨i, hs, hl⟩
    · rw [if_neg hs]
      refine ih.mono ?_ (fun _ h => h)
      rintro (_ | j) c' h
      · refine ⟨h.1, fun j hj => ?_⟩
        rcases mem_cons.mp hj with rfl | hj
        · exact hs
        · exact h.2 j hj
      · exact h

/-! ### A slot for a new block -/

/-- Taking the write lock of a free slot and letting it go again: only its dirty bit moves. -/
theorem quiet_tryThenEnd (hi : locks c i = free) :
    Quiet c (setSlot i (fun blk => { blk with lock := free, dirty := true })
      (setSlot i (fun blk => { blk with lock := writing }) c)) ∧
    SameRecency none c (setSlot i (fun blk => { blk with lock := free, dirty := true })
      (setSlot i (fun blk => { blk with lock := writing }) c)) := by
  refine ⟨⟨(keeps_lock i _ c).trans (keeps_writeEnd i _ _), ?_⟩,
    (sameRecency_lock i _ c).trans (sameRecency_setSlot i _ _ (fun _ => ⟨rfl, rfl, rfl⟩))⟩
  rw [locks_setSlot, locks_setSlot, ← hi]
  exact locks_restore _

/-- The second loop: either every slot it could lock is valid and only dirty bits were raised,
    or an invalid slot comes back marked valid and write-locked. -/
theorem freeEach_spec (hsane : Sane c) (l : List Slot) :
    Returns (freeEach l) c (fun r c' => SameRecency r c c' ∧
      match r with
      | none => Quiet c c' ∧ ∀ i ∈ l, locks c i = free → (c.buffer i).valid = true
      | some i => locks c i = free ∧ (c.buffer i).valid = false ∧ ∃ c₁, Quiet c c₁ ∧
          c' = setSlot i (fun blk => { blk with valid := true, lock := writing }) c₁) := by
  induction l generalizing c with
  | nil => exact returns_pure.mpr ⟨.refl _ c, Quiet.refl c, by simp⟩
  | cons i is ih =>
    rw [freeEach]
    by_cases hi : locks c i = free
    · rw [returns_step (cacheWriteTry_free hi), if_pos rfl, returns_get]
      cases hv : (c.buffer i).valid with
      | true =>
        obtain ⟨hq, hsame⟩ := quiet_tryThenEnd hi
        rw [if_pos (by rw [setSlot_same]; exact hv), returns_step (cacheWriteEnd_ok
          (by rw [locks_setSlot, update_self]))]
        refine (ih (fun j => by rw [hq.locks]; exact hsane j)).mono ?_
        rintro (_ | j) c' ⟨hsame', h⟩ <;> refine ⟨hsame.weaken.trans hsame', ?_⟩
        · refine ⟨hq.trans h.1, fun j hj hfree => ?_⟩
          rcases mem_cons.mp hj with rfl | hj
          · exact hv
          · rw [← hq.keeps.valid]
            exact h.2 j hj (by rw [hq.locks]; exact hfree)
        · obtain ⟨hfree, hinv, c₁, hq₁, rfl⟩ := h
          rw [hq.locks] at hfree
          rw [hq.keeps.valid] at hinv
          exact ⟨hfree, hinv, c₁, hq.trans hq₁, rfl⟩
      | false =>
        rw [if_neg (by rw [setSlot_same]; simp [hv]), returns_put, returns_pure,
          setSlot_setSlot]
        exact ⟨sameRecency_setSlot i _ c (fun h => absurd rfl h), hi, hv, c, Quiet.refl c, rfl⟩
    · rw [returns_step (cacheWriteTry_held hsane hi), if_neg (by simp)]
      refine (ih hsane).mono ?_
      rintro (_ | j) c' ⟨hsame, h⟩ <;> refine ⟨hsame, ?_⟩
      · refine ⟨h.1, fun j hj hfree => ?_⟩
        rcases mem_cons.mp hj with rfl | hj
        · exact absurd hfree hi
        · exact h.2 j hj hfree
      · exact h

/-- The locks `ℓ` with the victim, if there is one, held by a writer. -/
def hold (ℓ : Slot → RwLock) : Option Slot → Slot → RwLock
  | none => ℓ
  | some v => update ℓ v writing

variable {ℓ : Slot → RwLock} {victim : Option Slot}

theorem hold_ne (h : some i ≠ victim) : hold ℓ victim i = ℓ i := by
  cases victim with
  | none => rfl
  | some v => exact update_of_ne (fun hi => h (by rw [hi])) _ _

/-- A new candidate is kept locked and the previous one, if any, is let go. -/
theorem letGo_spec (hlocks : locks c = hold ℓ victim) (hv : ∀ v, victim = some v → ℓ v = free)
    (hi : some i ≠ victim) :
    Returns (letGo victim) (setSlot i (fun blk => { blk with lock := writing }) c)
      (fun _ c' => Keeps c c' ∧ SameRecency none c c' ∧ locks c' = hold ℓ (some i)) := by
  have hset : locks (setSlot i (fun blk => { blk with lock := writing }) c) =
      update (hold ℓ victim) i writing := by rw [locks_setSlot, hlocks]
  cases victim with
  | none => exact returns_pure.mpr ⟨keeps_lock i _ c, sameRecency_lock i _ c, hset⟩
  | some v =>
    have hvi : v ≠ i := fun h => hi (by rw [h])
    have hheld : locks (setSlot i (fun blk => { blk with lock := writing }) c) v =
        writing := by
      rw [hset, update_of_ne hvi]
      exact update_self ..
    refine ⟨_, _, cacheWriteEnd_ok hheld, (keeps_lock i _ c).trans (keeps_writeEnd v _ _),
      (sameRecency_lock i _ c).trans (sameRecency_setSlot v _ _ (fun _ => ⟨rfl, rfl, rfl⟩)), ?_⟩
    rw [locks_setSlot, hset]
    show update (update (update ℓ v writing) i writing) v
      free = update ℓ i writing
    rw [update_comm hvi.symm, update_idem, ← hv v rfl, update_eq_self]

/-- `cache_write_try` gets the slot. -/
def Unlocked (c : Cache) (i : Slot) : Prop := (locks c i).writeTry.1 = true

theorem unlocked_free (h : locks c i = free) : Unlocked c i := by
  rw [Unlocked, h]
  rfl

/-- `r` comes out of the loop of `cache_evict` over the slots `l`, which are valid as far as it gets
    them: the candidate it started with if each of them has been accessed more recently, and
    otherwise one of those that have been accessed least recently. -/
def Oldest (c : Cache) (l : List Slot) (victim : Option Slot) (oldest : BitVec 64)
    (r : Option Slot) : Prop :=
  (r = victim ∧ ∀ i ∈ l, Unlocked c i →
      (c.buffer i).valid = true ∧ oldest < (c.buffer i).recentAccesses) ∨
    ∃ v, r = some v ∧ (c.buffer v).valid = true ∧ (c.buffer v).recentAccesses ≤ oldest ∧
      ∀ i ∈ l, Unlocked c i → (c.buffer i).valid = true ∧
        (c.buffer v).recentAccesses ≤ (c.buffer i).recentAccesses

namespace Oldest

variable {c' : Cache} {is l : List Slot} {r : Option Slot} {oldest : BitVec 64}

/-- It depends on the access bits and the locks of the slots that are visited. -/
theorem congr (hsame : SameRecency none c c') (hlocks : ∀ j ∈ l, locks c' j = locks c j)
    (h : Oldest c' l victim oldest r) : Oldest c l victim oldest r := by
  have hfree : ∀ j ∈ l, Unlocked c j → Unlocked c' j := by
    intro j hj hfree
    rw [Unlocked, hlocks j hj]
    exact hfree
  have hvalid := fun j => (hsame j nofun).valid
  have hbits := fun j => (hsame j nofun).recentAccesses
  rcases h with ⟨hr, hnewer⟩ | ⟨v, hr, hv, hle, holdest⟩
  · refine .inl ⟨hr, fun j hj hjfree => ?_⟩
    rw [← hvalid, ← hbits]
    exact hnewer j hj (hfree j hj hjfree)
  · rw [hbits] at hle holdest
    refine .inr ⟨v, hr, (hvalid v).symm.trans hv, hle, fun j hj hjfree => ?_⟩
    rw [← hvalid, ← hbits j]
    exact holdest j hj (hfree j hj hjfree)

/-- A slot that the loop does not get, or that has been accessed more recently. -/
theorem pass (hi : Unlocked c i → (c.buffer i).valid = true ∧
      oldest < (c.buffer i).recentAccesses)
    (h : Oldest c is victim oldest r) : Oldest c (i :: is) victim oldest r := by
  rcases h with ⟨hr, hnewer⟩ | ⟨v, hr, hvalid, hv, holdest⟩
  · exact .inl ⟨hr, forall_mem_cons.mpr ⟨hi, hnewer⟩⟩
  · refine .inr ⟨v, hr, hvalid, hv, forall_mem_cons.mpr ⟨fun hfree => ?_, holdest⟩⟩
    exact ⟨(hi hfree).1, BitVec.le_trans hv (BitVec.le_of_lt (hi hfree).2)⟩

/-- A new candidate. -/
theorem take (hvalid : (c.buffer i).valid = true) (hi : (c.buffer i).recentAccesses ≤ oldest)
    (h : Oldest c is (some i) (c.buffer i).recentAccesses r) :
    Oldest c (i :: is) victim oldest r := by
  rcases h with ⟨hr, hnewer⟩ | ⟨v, hr, hv, hle, holdest⟩
  · refine .inr ⟨i, hr, hvalid, hi, forall_mem_cons.mpr
      ⟨fun _ => ⟨hvalid, BitVec.le_refl _⟩, fun j hj hfree => ?_⟩⟩
    exact ⟨(hnewer j hj hfree).1, BitVec.le_of_lt (hnewer j hj hfree).2⟩
  · exact .inr ⟨v, hr, hv, BitVec.le_trans hle hi,
      forall_mem_cons.mpr ⟨fun _ => ⟨hvalid, hle⟩, holdest⟩⟩

end Oldest

/-- The loop of `cache_evict`: only dirty bits are raised, and the slot returned is the only lock
    taken.  It stops at an invalid slot that it can lock. -/
theorem evictEach_spec (oldest : BitVec 64) (l : List Slot) (hl : l.Nodup)
    (hvl : ∀ i ∈ l, some i ≠ victim) (hℓ : ∀ i, (ℓ i).Sane) (hlocks : locks c = hold ℓ victim)
    (hv : ∀ v, victim = some v → ℓ v = free) :
    Meets (evictEach l victim oldest) c
      (fun r c' => Keeps c c' ∧ SameRecency none c c' ∧ locks c' = hold ℓ r ∧
        (∀ v, r = some v → ℓ v = free) ∧ Oldest c l victim oldest r)
      (fun _ => ∃ i, ℓ i = free ∧ (c.buffer i).valid = false) := by
  induction l generalizing c victim oldest with
  | nil =>
    exact meets_pure.mpr ⟨Keeps.refl c, .refl _ c, hlocks, hv, .inl ⟨rfl, nofun⟩⟩
  | cons i is ih =>
    rw [forall_mem_cons] at hvl
    have hnd := nodup_cons.mp hl
    have hli : locks c i = ℓ i := by rw [hlocks, hold_ne hvl.1]
    -- the other slots have their locks, whoever is the candidate
    have hrest : ∀ (c₂ : Cache) (r : Option Slot), locks c₂ = hold ℓ r →
        (∀ j ∈ is, some j ≠ r) → ∀ j ∈ is, locks c₂ j = locks c j := by
      intro c₂ r h hr j hj
      rw [h, hlocks, hold_ne (hr j hj), hold_ne (hvl.2 j hj)]
    rw [evictEach]
    by_cases hfree : ℓ i = free
    · rw [meets_step (cacheWriteTry_free (hli.trans hfree)), if_pos rfl, meets_get, meets_bind,
        setSlot_same]
      refine meets_assert (fun hvalid => ?_) (fun hno => ⟨i, hfree, by simpa using hno⟩)
      by_cases hle : (c.buffer i).recentAccesses ≤ oldest
      · have hne : ∀ j ∈ is, some j ≠ some i := fun j hj h => hnd.1 (Option.some.inj h ▸ hj)
        rw [if_pos hle]
        refine (letGo_spec hlocks hv hvl.1).meets.bind ?_ (fun _ h => h)
        rintro - c₂ ⟨hk, hsame, hlocks₂⟩
        refine (ih _ hnd.2 hne hlocks₂ (fun v h => ?_)).mono ?_ ?_
        · cases h
          exact hfree
        · rintro r c' ⟨hk', hsame', hlocks', hr, hold⟩
          exact ⟨hk.trans hk', hsame.trans hsame', hlocks', hr,
            (hold.congr hsame (hrest c₂ _ hlocks₂ hne)).take hvalid hle⟩
        · rintro e ⟨j, hj, hinv⟩
          exact ⟨j, hj, (hk.valid j).symm.trans hinv⟩
      · obtain ⟨hq, hsame⟩ := quiet_tryThenEnd (hli.trans hfree)
        rw [if_neg hle, meets_step (cacheWriteEnd_ok (by rw [locks_setSlot, update_self]))]
        refine (ih oldest hnd.2 hvl.2 (hq.locks.trans hlocks) hv).mono ?_ ?_
        · rintro r c' ⟨hk', hsame', hlocks', hr, hold⟩
          exact ⟨hq.keeps.trans hk', hsame.trans hsame', hlocks', hr,
            (hold.congr hsame (fun j _ => by rw [hq.locks])).pass
              (fun _ => ⟨hvalid, BitVec.not_le.mp hle⟩)⟩
        · rintro e ⟨j, hj, hinv⟩
          exact ⟨j, hj, (hq.keeps.valid j).symm.trans hinv⟩
    · have hheld := writeTry_held (hℓ i) hfree
      rw [← hli] at hheld
      rw [cacheWriteTry, meets_step (tryLock_ok hheld), setSlot_self rfl, if_neg (by simp)]
      refine (ih oldest hnd.2 hvl.2 hlocks hv).mono ?_ (fun _ h => h)
      rintro r c' ⟨hk', hsame', hlocks', hr, hold⟩
      refine ⟨hk', hsame', hlocks', hr, hold.pass (fun h => ?_)⟩
      rw [Unlocked, hheld] at h
      cases h

/-- Slot `v` was free and is taken for a new block: write-locked, valid, its old block written
    to its own sector if it was valid and dirty.  Elsewhere only dirty bits were raised. -/
structure Taken (c : Cache) (v : Slot) (c' : Cache) : Prop where
  free : locks c v = free
  locks : locks c' = update (locks c) v writing
  valid : (c'.buffer v).valid = true
  valid_ne : ∀ i, i ≠ v → (c'.buffer i).valid = (c.buffer i).valid
  data : ∀ i, (c'.buffer i).data = (c.buffer i).data
  sector : ∀ i, (c'.buffer i).sector = (c.buffer i).sector
  dirty : ∀ i, (c'.buffer i).dirty = true ∨ (c'.buffer i).dirty = (c.buffer i).dirty
  device : c'.device = if (c.buffer v).valid = true ∧ (c'.buffer v).dirty = true
    then c.device.put (c.buffer v).sector (c.buffer v).data else c.device

theorem onDevice_ok {α : Type} {x : Exec Device α} {a : α} {d : Device}
    (h : x.run c.device = .ok (a, d)) : (onDevice x).run c = .ok (a, { c with device := d }) :=
  zoom_ok h

/-- A dirty block is written to its own sector, which may not exist. -/
theorem writeBack_spec (v : Slot) :
    Meets (writeBack v) c
      (fun _ c' => c' = { c with device :=
        if (c.buffer v).dirty = true then c.device.put (c.buffer v).sector (c.buffer v).data
        else c.device })
      (fun _ => ¬ (c.buffer v).sector < c.device.size) := by
  rw [writeBack, meets_get]
  by_cases hd : (c.buffer v).dirty = true
  · rw [if_pos hd, if_pos hd, onDevice, meets_zoom]
    by_cases hin : (c.buffer v).sector < c.device.size
    · exact (meets_ok (blockWrite_ok hin _)).mpr rfl
    · exact (meets_error (blockWrite_past_end (by omega) _)).mpr hin
  · rw [if_neg hd, if_neg hd]
    exact meets_pure.mpr rfl

/-- The victim of an eviction has a sector outside the device, or every slot is held. -/
def NoSlot (c : Cache) : Prop := ¬ InRange c ∨ ∀ i, locks c i ≠ free

/-- **`cache_evict`** takes a block that has been accessed least recently among those it gets. -/
theorem cacheEvict_spec (hsane : Sane c) :
    Meets cacheEvict c
      (fun v c' => Taken c v c' ∧ SameRecency none c c' ∧ (c.buffer v).valid = true ∧
        ∀ i, Unlocked c i → (c.buffer i).valid = true ∧
          (c.buffer v).recentAccesses ≤ (c.buffer i).recentAccesses)
      (fun _ => NoSlot c ∨ ∃ i, locks c i = free ∧ (c.buffer i).valid = false) := by
  refine Meets.bind (evictEach_spec (BitVec.allOnes 64) (finRange cacheBlocks)
    (nodup_finRange _) (by simp) hsane rfl (by simp)) ?_ (fun _ h => .inr h)
  rintro (_ | v) c₁ ⟨hk, hsame, hlocks, hr, ⟨h, hnewer⟩ | ⟨_, h, hv, -, holdest⟩⟩ <;> cases h
  · -- nothing is above the initial value of `oldest`
    refine .inl (.inr (fun i hi => ?_))
    exact BitVec.not_allOnes_lt (hnewer i (mem_finRange i) (unlocked_free hi)).2
  · refine (writeBack_spec v).bind ?_ (fun e hout => .inl (.inl (fun hrange => hout ?_)))
    case refine_2 =>
      rw [hk.sector, hk.device]
      exact hrange v hv
    rintro - c₂ rfl
    rw [meets_pure]
    refine ⟨⟨hr v rfl, hlocks, (hk.valid v).trans hv, fun i _ => hk.valid i, hk.data, hk.sector,
      hk.dirty, ?_⟩, hsame, hv, fun i => holdest i (mem_finRange i)⟩
    show (if (c₁.buffer v).dirty = true then c₁.device.put (c₁.buffer v).sector
      (c₁.buffer v).data else c₁.device) = _
    rw [hk.sector, hk.data, hk.device]
    simp only [hv, true_and]

/-- **A slot for a new block.** One is found unless every slot is held. -/
theorem takeSlot_spec (hsane : Sane c) :
    Meets takeSlot c (fun v c' => Taken c v c' ∧ SameRecency (some v) c c')
      (fun _ => NoSlot c) := by
  refine Meets.bind (freeEach_spec hsane (finRange cacheBlocks)).meets ?_ (fun _ h => h)
  rintro (_ | v) c₁ ⟨hsame, h⟩
  · -- every slot within reach is valid: evict
    obtain ⟨⟨hk, hlocks⟩, hvalid⟩ := h
    refine (cacheEvict_spec (fun i => by rw [hlocks]; exact hsane i)).mono ?_ ?_
    · rintro v c₂ ⟨ht, hsame', -⟩
      refine ⟨⟨by rw [← hlocks]; exact ht.free, by rw [ht.locks, hlocks], ht.valid,
        fun i hi => (ht.valid_ne i hi).trans (hk.valid i), fun i => (ht.data i).trans (hk.data i),
        fun i => (ht.sector i).trans (hk.sector i), fun i => ?_, ?_⟩, (hsame.trans hsame').weaken⟩
      · rcases ht.dirty i with h | h
        · exact .inl h
        · rw [h]; exact hk.dirty i
      · rw [ht.device, hk.valid, hk.sector, hk.data, hk.device]
    · rintro e ((hout | he) | ⟨i, hi, hinv⟩)
      · refine .inl (fun hrange => hout (fun i hi => ?_))
        rw [hk.sector, hk.device]
        exact hrange i (by rw [← hk.valid]; exact hi)
      · exact .inr (fun i => by rw [← hlocks]; exact he i)
      · rw [hk.valid, hvalid i (mem_finRange i) (by rw [← hlocks]; exact hi)] at hinv
        cases hinv
  · -- an invalid slot
    obtain ⟨hfree, hinv, c₂, ⟨hk, hlocks⟩, hc₁⟩ := h
    have hdirty := setSlot_field hc₁ CacheBlock.dirty rfl
    refine ⟨⟨hfree, by rw [hc₁, locks_setSlot, hlocks], by rw [hc₁, setSlot_same],
      fun i hi => by rw [hc₁, setSlot_ne hi, hk.valid],
      fun i => (setSlot_field hc₁ CacheBlock.data rfl i).trans (hk.data i),
      fun i => (setSlot_field hc₁ CacheBlock.sector rfl i).trans (hk.sector i),
      fun i => by rw [hdirty]; exact hk.dirty i, ?_⟩, hsame⟩
    rw [hc₁, setSlot_device, hk.device, hinv, if_neg (by simp)]

/-! ### The whole of `find_block` -/

/-- The slot holds the sector's contents on the disk. -/
def fillSlot (i : Slot) (s : Nat) (c : Cache) : Cache :=
  setSlot i (fun blk => { blk with
    data := c.device.sectors s, sector := s, dirty := false, recentAccesses := 0 }) c

/-- A slot had the sector already, and has one reader more. -/
structure Hit (c : Cache) (s : Nat) (i : Slot) (c' : Cache) : Prop where
  sector : (c.buffer i).sector = s
  locks : ∃ l, (locks c i).readBegin = .ok l ∧ locks c' = update (locks c) i l
  keeps : Keeps c c'

/-- No slot had the sector, and a slot was taken and filled from the disk. -/
structure Filled (c : Cache) (s : Nat) (i : Slot) (c' : Cache) : Prop where
  miss : ∀ j, (c.buffer j).sector ≠ s
  locks : locks c' = update (locks c) i reading
  taken : ∃ c₁, Taken c i c₁ ∧ Keeps (fillSlot i s c₁) c'

/-- `find_block` in slot `i`: the access bit in front is set, in the bits of the block that was
    there or in zeros. -/
structure Accessed (c : Cache) (s : Nat) (i : Slot) (c' : Cache) : Prop where
  same : SameRecency (some i) c c'
  accessed : (c'.buffer i).accessed = true
  recentAccesses : ((c.buffer i).sector = s ∧ (c'.buffer i).valid = (c.buffer i).valid ∧
      (c'.buffer i).recentAccesses = (c.buffer i).recentAccesses ||| (1#64 <<< 63)) ∨
    ((∀ j, (c.buffer j).sector ≠ s) ∧ (c'.buffer i).recentAccesses = 1#64 <<< 63)

/-- Why `find_block` does not return: the sector does not exist, its slot has a writer, or it
    needs a slot and there is none to be had. -/
def Refused (c : Cache) (s : Nat) : Prop :=
  ¬ s < c.device.size ∨ (∃ i e, (c.buffer i).sector = s ∧ (locks c i).readBegin = .error e) ∨
    ((∀ i, (c.buffer i).sector ≠ s) ∧ NoSlot c)

theorem Taken.size {v : Slot} {c' : Cache} (h : Taken c v c') : c'.device.size = c.device.size := by
  rw [h.device]
  split
  · rfl
  · rfl

theorem importBlock_spec {s : Nat} (hsane : Sane c) (hs : s < c.device.size)
    (hmiss : ∀ i, (c.buffer i).sector ≠ s) :
    Meets (importBlock s) c (fun i c' => Filled c s i c' ∧ SameRecency (some i) c c' ∧
      (c'.buffer i).recentAccesses = 0) (fun _ => NoSlot c) := by
  refine Meets.bind (takeSlot_spec hsane) ?_ (fun _ h => h)
  rintro v c₁ ⟨ht, hsame⟩
  have hs₁ : s < c₁.device.size := by rw [ht.size]; exact hs
  rw [meets_step (onDevice_ok (blockRead_ok hs₁)), meets_put]
  have hlocks : locks (fillSlot v s c₁) = update (locks c) v writing := by
    rw [fillSlot, locks_setSlot]
    show update (locks c₁) v (locks c₁ v) = _
    rw [update_eq_self, ht.locks]
  have hheld : locks (fillSlot v s c₁) v = writing := by
    rw [hlocks, update_self]
  rw [show setSlot v _ _ = fillSlot v s c₁ from rfl, meets_step (cacheDowngrade_ok hheld),
    meets_pure]
  refine ⟨⟨hmiss, ?_, c₁, ht, keeps_lock v _ _⟩,
    (hsame.trans ?_).trans (sameRecency_lock v _ _).weaken,
    by rw [setSlot_same, fillSlot, setSlot_same]⟩
  · rw [locks_setSlot, hlocks, update_idem]
  · exact sameRecency_setSlot v _ c₁ (fun h => absurd rfl h)

/-- The end of `find_block`: the next sector is asked for, and the access noted. -/
def noteAccess (s : Nat) (i : Slot) (c : Cache) : Cache :=
  setSlot i (fun blk => { blk with
    accessed := true, recentAccesses := blk.recentAccesses ||| (1#64 <<< 63) })
      { c with nextBlock := (s + 1) % 2 ^ 32, readAhead := true }

theorem quiet_noteAccess (s : Nat) (i : Slot) (c : Cache) : Quiet c (noteAccess s i c) := by
  have hk : Keeps c { c with nextBlock := (s + 1) % 2 ^ 32, readAhead := true } :=
    ⟨rfl, fun _ => rfl, fun _ => rfl, fun _ => rfl, fun _ => .inr rfl⟩
  refine ⟨hk.trans (keeps_setSlot i _ _ rfl rfl rfl (.inr rfl)), ?_⟩
  rw [noteAccess, locks_setSlot]
  exact update_eq_self i _

theorem accessed_noteAccess {s : Nat} {c₁ : Cache} (hsame : SameRecency (some i) c c₁)
    (hbits : ((c.buffer i).sector = s ∧ SameBits (c.buffer i) (c₁.buffer i)) ∨
      ((∀ j, (c.buffer j).sector ≠ s) ∧ (c₁.buffer i).recentAccesses = 0)) :
    Accessed c s i (noteAccess s i c₁) := by
  refine ⟨hsame.trans ?_, ?_, ?_⟩
  · exact sameRecency_setSlot i _ { c₁ with nextBlock := _, readAhead := true }
      (fun h => absurd rfl h)
  · rw [noteAccess, setSlot_same]
  · rw [noteAccess, setSlot_same]
    rcases hbits with ⟨hsector, hbits⟩ | ⟨hmiss, hzero⟩
    · exact .inl ⟨hsector, hbits.valid, congrArg (· ||| _) hbits.recentAccesses⟩
    · refine .inr ⟨hmiss, ?_⟩
      show (c₁.buffer i).recentAccesses ||| _ = _
      rw [hzero]
      rfl

/-- **`find_block`.** -/
theorem findBlock_spec {s : Nat} (hsane : Sane c) :
    Meets (findBlock s) c
      (fun i c' => s < c.device.size ∧ (Hit c s i c' ∨ Filled c s i c') ∧ Accessed c s i c')
      (fun _ => Refused c s) := by
  rw [findBlock, meets_get, meets_bind]
  refine meets_assert (fun hs => ?_) (fun hs => .inl hs)
  rw [locateBlock, meets_bind, meets_bind]
  refine (hitEach_spec s (finRange cacheBlocks)).mono ?_ ?_
  · rintro (_ | i) c₁ h
    · obtain ⟨rfl, hmiss⟩ := h
      have hmiss' : ∀ i, (c₁.buffer i).sector ≠ s := fun i => hmiss i (mem_finRange i)
      refine (importBlock_spec hsane hs hmiss').mono ?_ (fun _ h => .inr (.inr ⟨hmiss', h⟩))
      rintro i c₂ ⟨⟨hm, hlocks, c₃, ht, hk⟩, hsame, hzero⟩
      have hq := quiet_noteAccess s i c₂
      exact ⟨hs, .inr ⟨hm, hq.locks.trans hlocks, c₃, ht, hk.trans hq.keeps⟩,
        accessed_noteAccess hsame (.inr ⟨hm, hzero⟩)⟩
    · obtain ⟨hsec, l, hl, rfl⟩ := h
      have hq := quiet_noteAccess s i (setSlot i (fun blk => { blk with lock := l }) c)
      have hsame := sameRecency_lock i l c
      refine ⟨hs, .inl ⟨hsec, ⟨l, hl, ?_⟩, (keeps_lock i l c).trans hq.keeps⟩,
        accessed_noteAccess hsame.weaken (.inl ⟨hsec, hsame i nofun⟩)⟩
      exact hq.locks.trans (locks_setSlot i _ c)
  · rintro e ⟨i, hsec, he⟩
    exact .inr (.inl ⟨i, e, hsec, he⟩)

/-! ### The passes of the background threads -/

/-- A pass reaches the block: it is valid, and no writer has it. -/
def reached (blk : CacheBlock) : Bool := blk.valid && blk.lock.readTry.1

/-- A block after a pass of `update_accesses`. -/
def shiftAccesses (blk : CacheBlock) : CacheBlock :=
  if reached blk then
    { blk with
      recentAccesses := (blk.recentAccesses >>> 1) |||
        ((if blk.accessed then 1#64 else 0#64) <<< 63)
      accessed := false }
  else blk

/-- The slot holds nothing the disk does not have. -/
def Settled (c : Cache) (i : Slot) : Prop :=
  (c.buffer i).valid = true → (c.buffer i).dirty = false

/-- A pass of `update_accesses` over some slots. -/
def shiftEach (l : List Slot) (c : Cache) : Cache :=
  { c with buffer := fun i => if i ∈ l then shiftAccesses (c.buffer i) else c.buffer i }

section Passes

variable {c' : Cache} {L : Nat → Sector}

/-- A round of a pass over a valid slot, under a read lock of its own. -/
theorem underRead_run {body : Exec Cache Unit} (hv : (c.buffer i).valid = true)
    (hs : (locks c i).Sane)
    (hbody : reached (c.buffer i) = true → ∀ l, 0 < l.b →
      body.run (setSlot i (fun blk => { blk with lock := l }) c) =
        .ok ((), setSlot i (fun blk => { blk with lock := l }) c'))
    (hlock : locks c' i = locks c i) (hno : reached (c.buffer i) = false → c' = c) :
    (do
      if ← cacheReadTry i then
        body
        cacheReadEnd i
      else pure () : Exec Cache Unit).run c = .ok ((), c') := by
  have hreached : reached (c.buffer i) = (locks c i).readTry.1 := by
    rw [reached, hv]
    rfl
  rw [hreached] at hbody hno
  rcases readTry_eq (locks c i) with ⟨l, hbegin, htry⟩ | htry
  · have hpos : 0 < l.b := by
      obtain ⟨-, -, hb⟩ := readBegin_sane hs hbegin
      rcases hs with h | ⟨-, h⟩
      · rw [hb, h]
        decide
      · omega
    rw [cacheReadTry, bind_ok (tryLock_ok htry), if_pos rfl,
      bind_ok (hbody (by rw [htry]) l hpos), cacheReadEnd_ok, setSlot_setSlot, locks_setSlot,
      update_self, readEnd_readBegin hbegin, ← hlock, setSlot_self rfl]
  · rw [cacheReadTry, bind_ok (tryLock_ok htry), if_neg (by simp), setSlot_self rfl,
      hno (by rw [htry])]
    rfl

/-- The read lock of the round is one reader, so the accessed flag is always cleared. -/
theorem updateSlot_run (i : Slot) (hs : (locks c i).Sane) :
    (updateSlot i).run c = .ok ((), setSlot i shiftAccesses c) := by
  have hno : reached (c.buffer i) = false → setSlot i shiftAccesses c = c :=
    fun h => setSlot_self (if_neg (by rw [h]; nofun))
  rw [updateSlot, read_bind]
  by_cases hv : (c.buffer i).valid = true
  · -- the shift and the clearing of the accessed bit are the body of the read section
    simp only [if_pos hv, ← bind_assoc (Exec.update _)]
    refine underRead_run hv hs (fun hreached l hl => ?_) ?_ hno
    · rw [update_bind, clearAccessed, read_bind, setSlot_setSlot, setSlot_same, if_pos hl]
      simp only [run_update, setSlot, shiftAccesses, hreached, if_true, update_self, update_idem]
    · rw [locks_setSlot, update_self, shiftAccesses]
      split <;> rfl
  · rw [if_neg hv, hno (by simp [reached, hv])]
    rfl

theorem quiet_shiftEach (l : List Slot) (c : Cache) : Quiet c (shiftEach l c) := by
  refine ⟨⟨rfl, fun i => ?_, fun i => ?_, fun i => ?_, fun i => .inr ?_⟩, funext fun i => ?_⟩ <;>
    dsimp only [locks, shiftEach, shiftAccesses] <;> split_ifs <;> rfl

theorem updateEach_run (l : List Slot) (hl : l.Nodup) (hs : Sane c) :
    (updateEach l).run c = .ok ((), shiftEach l c) := by
  induction l generalizing c with
  | nil => simp [updateEach, shiftEach]
  | cons i is ih =>
    obtain ⟨hnot, hnodup⟩ := nodup_cons.mp hl
    have hfirst : setSlot i shiftAccesses c = shiftEach [i] c := by
      simp only [setSlot, shiftEach, mem_singleton]
      congr 1
      funext j
      rw [update_apply]
      split_ifs with hj
      · rw [hj]
      · rfl
    have hs' : Sane (shiftEach [i] c) := by
      rw [Sane, (quiet_shiftEach [i] c).locks]
      exact hs
    rw [updateEach, bind_ok (updateSlot_run i (hs i)), hfirst, ih hnodup hs']
    simp only [shiftEach]
    congr 3
    funext j
    by_cases hj : j = i
    · simp [hj, hnot]
    · simp [hj]

/-- Writing a valid slot to its own sector makes it clean and leaves the contents alone. -/
theorem Coherent.flush (hc : Coherent none c L) (hv : (c.buffer i).valid = true)
    (hc' : c' = setSlot i (fun blk => { blk with dirty := false })
      { c with device := c.device.put (c.buffer i).sector (c.buffer i).data }) :
    Coherent none c' L := by
  have hvalid : ∀ j, (c'.buffer j).valid = (c.buffer j).valid :=
    setSlot_field hc' CacheBlock.valid rfl
  have hsector : ∀ j, (c'.buffer j).sector = (c.buffer j).sector :=
    setSlot_field hc' CacheBlock.sector rfl
  have hdata : ∀ j, (c'.buffer j).data = (c.buffer j).data :=
    setSlot_field hc' CacheBlock.data rfl
  -- the contents of the one sector written were the logical ones already
  have hput : ∀ s, c'.device.sectors s = L s ∨
      (s ≠ (c.buffer i).sector ∧ c'.device.sectors s = c.device.sectors s) := by
    intro s
    rw [hc', setSlot_device]
    by_cases h : s = (c.buffer i).sector
    · left; rw [h, Device.put_sectors, update_self, hc.data i (by simp) hv]
    · right; exact ⟨h, by rw [Device.put_sectors, update_of_ne h]⟩
  refine ⟨fun j k _ _ => ?_, fun j _ => ?_, fun j _ hvj hd => ?_, fun s hs => ?_, fun j _ => ?_,
    fun j _ => ?_⟩
  · rw [hvalid, hvalid, hsector, hsector]
    exact hc.inj j k (by simp) (by simp)
  · rw [hvalid, hsector, hdata]
    exact hc.data j (by simp)
  · rw [hvalid] at hvj
    rw [hsector]
    rcases hput (c.buffer j).sector with h | ⟨hne, h⟩
    · exact h
    · rw [hc', setSlot_ne (fun h => hne (by rw [h]))] at hd
      exact h.trans (hc.clean j (by simp) hvj hd)
  · rcases hput s with h | ⟨-, h⟩
    · exact h
    · refine h.trans (hc.disk s (fun j _ hvj => ?_))
      rw [← hsector]
      exact hs j (by simp) (by rw [hvalid, hvj])
  · rw [hvalid, hsector]
    exact hc.invalid j (by simp)
  · rw [hvalid, hsector, hc', setSlot_device]
    exact hc.range j (by simp)

/-- Some slots were written to the disk. -/
structure Cleaned (c c' : Cache) : Prop where
  size : c'.device.size = c.device.size
  buffer : ∀ i, c'.buffer i = c.buffer i ∨ c'.buffer i = { c.buffer i with dirty := false }
  coherent : ∀ L, Coherent none c L → Coherent none c' L

theorem Cleaned.refl (c : Cache) : Cleaned c c := ⟨rfl, fun _ => .inl rfl, fun _ => id⟩

theorem Cleaned.trans {c'' : Cache} (h : Cleaned c c') (h' : Cleaned c' c'') : Cleaned c c'' := by
  refine ⟨h'.size.trans h.size, fun i => ?_, fun L hc => h'.coherent L (h.coherent L hc)⟩
  rcases h.buffer i with hi | hi <;> rcases h'.buffer i with hi' | hi' <;> rw [hi', hi]
  · exact .inl rfl
  · exact .inr rfl
  · exact .inr rfl
  · exact .inr rfl

/-- What a write-back leaves alone is as it was in every slot. -/
theorem Cleaned.field {α : Type} (h : Cleaned c c') (field : CacheBlock → α)
    (hfield : ∀ blk : CacheBlock, field { blk with dirty := false } = field blk) (i : Slot) :
    field (c'.buffer i) = field (c.buffer i) := by
  rcases h.buffer i with hi | hi
  · rw [hi]
  · rw [hi, hfield]

theorem Cleaned.locks (h : Cleaned c c') : locks c' = locks c := by
  exact funext (h.field CacheBlock.lock (fun _ => rfl))

/-- A round of `refresh_cache` settles the slot if it reaches it. -/
theorem refreshSlot_spec (i : Slot) (hs : (locks c i).Sane) (hr : InRange c) :
    Returns (refreshSlot i) c (fun _ c' => Cleaned c c' ∧
      ((locks c i).readTry.1 = true → Settled c' i)) := by
  obtain ⟨c', hc'⟩ : ∃ c', c' = if reached (c.buffer i) && (c.buffer i).dirty then
      setSlot i (fun blk => { blk with dirty := false })
        { c with device := c.device.put (c.buffer i).sector (c.buffer i).data } else c := ⟨_, rfl⟩
  have hrun : (refreshSlot i).run c = .ok ((), c') := by
    rw [refreshSlot, read_bind]
    by_cases hv : (c.buffer i).valid = true
    · rw [if_pos hv]
      refine underRead_run hv hs (fun hreached l _ => ?_) ?_ (fun hno => ?_)
      · rw [hc', hreached, cleanSlot, read_bind, setSlot_same]
        cases hd : (c.buffer i).dirty with
        | true =>
          have hwrite := onDevice_ok (c := setSlot i (fun blk => { blk with lock := l }) c)
            (blockWrite_ok (hr i hv) (c.buffer i).data)
          refine (bind_ok hwrite).trans ?_
          simp only [run_update, setSlot, Bool.and_self, if_true, update_self, update_idem]
        | false => rfl
      · rw [hc', locks, locks]
        split
        · rw [setSlot_same]
        · rfl
      · rw [hc', hno]
        rfl
    · rw [if_neg hv, hc', if_neg (by simp [reached, hv])]
      rfl
  refine ⟨(), c', hrun, ?_⟩
  rw [hc']
  split_ifs with h
  · obtain ⟨hreached, -⟩ := Bool.and_eq_true_iff.mp h
    refine ⟨⟨rfl, fun j => ?_, fun L hc => hc.flush (Bool.and_eq_true_iff.mp hreached).1 rfl⟩,
      fun _ _ => by rw [setSlot_same]⟩
    by_cases hj : j = i
    · rw [hj, setSlot_same]
      exact .inr rfl
    · exact .inl (setSlot_ne hj _ _)
  · refine ⟨.refl c, fun htry hv => ?_⟩
    have hreached : reached (c.buffer i) = true := Bool.and_eq_true_iff.mpr ⟨hv, htry⟩
    simpa [hreached] using h

theorem refreshEach_spec (l : List Slot) (hs : Sane c) (hr : InRange c) :
    Returns (refreshEach l) c (fun _ c' => Cleaned c c' ∧
      ∀ i ∈ l, (locks c i).readTry.1 = true → Settled c' i) := by
  induction l generalizing c with
  | nil => exact returns_pure.mpr ⟨.refl c, nofun⟩
  | cons i is ih =>
    refine (refreshSlot_spec i (hs i) hr).bind (fun _ c₁ hc₁ => ?_)
    obtain ⟨h₁, hi⟩ := hc₁
    refine (ih (fun j => by rw [h₁.locks]; exact hs j) (fun j hj => ?_)).mono ?_
    · rw [h₁.field CacheBlock.valid (fun _ => rfl)] at hj
      rw [h₁.field CacheBlock.sector (fun _ => rfl), h₁.size]
      exact hr j hj
    · rintro - c₂ ⟨h₂, his⟩
      rw [h₁.locks] at his
      refine ⟨h₁.trans h₂, forall_mem_cons.mpr ⟨fun htry hv => ?_, his⟩⟩
      rcases h₂.buffer i with h | h
      · rw [h] at hv ⊢
        exact hi htry hv
      · rw [h]

end Passes

end Cache

end KernelSanders
