import KernelSanders.Filesys.CacheThreads

namespace KernelSanders

open Lib
open Lib.Exec hiding update
open Function

/-!
# The proof outline of the concurrent cache

A thread's ghost is its phase at the lock of every slot and its `Task`, what it relies on about
the slots and the disk.  The invariant `CacheInv` has the locks' own invariants, what every task
knows, that no two valid slots have one sector (`Blocks`), and, in a strict run, that every slot
without an open write section is dirty or agrees with the disk (`Backed`).

The invariant assumes that nobody else is inside `find_block` when a thread acts there.  A strict
run also keeps upgrades away from `find_block`, and everybody away from a thread inside
`cache_write_end`.
-/

/-- What a thread relies on. -/
inductive Task where
  | none
  /-- Inside `find_block`: the slots not in `rest` do not have the sector, and those in `known`
      are valid. -/
  | scan (sector : Nat) (rest known : List Slot)
  /-- Inside `find_block`: slot `i` has the sector. -/
  | hit (sector : Nat) (i : Slot)
  /-- Inside `find_block`: no slot has the sector, and slot `v` is not valid. -/
  | blank (sector : Nat) (v : Slot)
  /-- Inside `find_block`: no slot has the sector, and what slot `v` has is on the disk. -/
  | saved (sector : Nat) (v : Slot)
  /-- Inside `find_block`: slot `v` has the sector as it is on the disk. -/
  | filled (sector : Nat) (v : Slot)
  | reading (i : Slot) (sector : Nat)
  | upgrading (i : Slot) (sector : Nat)
  | writing (i : Slot) (sector : Nat)
  | wrote (i : Slot) (sector : Nat) (data : Sector)
  /-- Inside `cache_write_end`, before the dirty bit is set. -/
  | ending (i : Slot) (sector : Nat) (data : Sector)
  /-- Inside `cache_write_end`, with the dirty bit set. -/
  | ended (i : Slot) (sector : Nat) (data : Sector)
  /-- Inside `refresh_cache`: slot `i` is valid. -/
  | seen (i : Slot)
  /-- Inside `refresh_cache`: what slot `i` has is on the disk. -/
  | flushed (i : Slot)

namespace Task

def finds : Task → Bool
  | scan _ _ _ | hit _ _ | blank _ _ | saved _ _ | filled _ _ => true
  | _ => false

def upgrades : Task → Bool
  | upgrading _ _ => true
  | _ => false

def ends : Task → Bool
  | ending _ _ _ | ended _ _ _ => true
  | _ => false

/-- The slot has contents of this thread that nothing points out as changed yet. -/
def opens (i : Slot) : Task → Prop
  | wrote j _ _ | ending j _ _ => j = i
  | _ => False

/-- The slot is being filled for the first time. -/
def fills (i : Slot) : Task → Prop
  | saved _ v => v = i
  | _ => False

/-- The task neither opens nor fills a slot. -/
structure Plain (k : Task) : Prop where
  fills : ∀ {P : Slot → Prop} (i), k.fills i → P i
  opens : ∀ {P : Slot → Prop} (i), k.opens i → P i

/-- The share in the lock of its slot that a task goes with. -/
def Holds (phase : Slot → Phase) : Task → Prop
  | blank _ v | saved _ v => (phase v).owner = 1
  | filled _ v => (phase v).owner + (phase v).admitted = 1
  | reading i _ | flushed i => (phase i).admitted = 1
  | writing i _ | wrote i _ _ => (phase i).owner = 1
  | none | scan _ _ _ | hit _ _ | upgrading _ _ | ending _ _ _ | ended _ _ _ | seen _ => True

/-- What a task knows about the slots and the disk. -/
def Knows (strict : Bool) (c : Cache) : Task → Prop
  | none => True
  | scan s rest known => (∀ i, i ∉ rest → (c.buffer i).sector ≠ s) ∧
      ∀ v ∈ known, (c.buffer v).valid = true
  | hit s i => (c.buffer i).sector = s
  | blank s v => (∀ i, (c.buffer i).sector ≠ s) ∧ (c.buffer v).valid = false
  | saved s v => (∀ i, (c.buffer i).sector ≠ s) ∧ (c.buffer v).valid = true ∧
      (strict = true → (c.buffer v).sector ≠ 0 →
        c.device.sectors (c.buffer v).sector = (c.buffer v).data)
  | filled s v => (c.buffer v).valid = true ∧ (c.buffer v).sector = s ∧
      c.device.sectors s = (c.buffer v).data
  | reading i s => (c.buffer i).sector = s
  | upgrading i s | writing i s => strict = true → (c.buffer i).sector = s
  | wrote i s d | ending i s d =>
      strict = true → (c.buffer i).sector = s ∧ (c.buffer i).data = d
  | ended i s d =>
      strict = true → (c.buffer i).sector = s ∧ (c.buffer i).data = d ∧ (c.buffer i).dirty = true
  | seen i => (c.buffer i).valid = true
  | flushed i => (c.buffer i).valid = true ∧
      c.device.sectors (c.buffer i).sector = (c.buffer i).data

end Task

/-- A thread's ghost. -/
structure CacheGhost where
  phase : Slot → Phase
  task : Task

/-! ### The invariant -/

/-- One slot per sector.  A slot that is not valid has sector number `0`, and as long as there is
    one, a valid slot with that number is in `filling`. -/
structure Blocks (c : Cache) (filling : Slot → Prop) : Prop where
  inj : ∀ i j, (c.buffer i).valid = true → (c.buffer j).valid = true →
    (c.buffer i).sector = (c.buffer j).sector → i = j
  blank : ∀ i, (c.buffer i).valid = false → (c.buffer i).sector = 0
  zero : ∀ i j, (c.buffer i).valid = false → (c.buffer j).valid = true →
    (c.buffer j).sector = 0 → filling j

/-- Nothing but the slots in `open` and those of sector `0` would lose data without a
    write-back. -/
def Backed (c : Cache) (opened : Slot → Prop) : Prop :=
  ∀ i, (c.buffer i).valid = true → (c.buffer i).sector ≠ 0 → ¬ opened i →
    (c.buffer i).dirty = true ∨ c.device.sectors (c.buffer i).sector = (c.buffer i).data

/-- The contents of a sector are safe: in the slot that has it, which is dirty or agrees with the
    disk, or on the disk when no slot has it. -/
def Stored (c : Cache) (n : Nat) (d : Sector) : Prop :=
  (∃ i, (c.buffer i).valid = true ∧ (c.buffer i).sector = n ∧ (c.buffer i).data = d ∧
      ((c.buffer i).dirty = true ∨ c.device.sectors n = d)) ∨
    ((∀ i, (c.buffer i).valid = true → (c.buffer i).sector ≠ n) ∧ c.device.sectors n = d)

variable {ι : Type} [Fintype ι] {v : Slot} {k : Task}

/-- The invariant of the slots, the disk and the locks. -/
structure CacheInv (strict : Bool) (s : SharedCache ι) (G : ι → CacheGhost) : Prop where
  locks : ∀ i, RwInv (s.latch i) (fun t => (G t).phase i)
  holds : ∀ t, (G t).task.Holds (G t).phase
  knows : ∀ t, (G t).task.Knows strict s.cache
  blocks : Blocks s.cache (fun i => ∃ t, (G t).task.fills i)
  backed : strict = true → Backed s.cache (fun i => ∃ t, (G t).task.opens i)

/-- What a thread may assume about the others when it acts. -/
structure Alone (strict : Bool) (t : ι) (G : ι → CacheGhost) : Prop where
  find : (G t).task.finds = true → ∀ u, u ≠ t → (G u).task.finds = false
  upgrade : strict = true → (G t).task.finds = true → ∀ u, u ≠ t → (G u).task.upgrades = false
  ending : strict = true → ∀ u, u ≠ t → (G u).task.ends = false

section Exclusive

variable {strict : Bool} {s : SharedCache ι} {G : ι → CacheGhost} {t u : ι} {i : Slot}

/-- The owner of a slot's semaphore shares the slot with nobody. -/
theorem CacheInv.exclusive (h : CacheInv strict s G) (hne : t ≠ u)
    (ht : ((G t).phase i).owner = 1) : ((G u).phase i).owner + ((G u).phase i).admitted = 0 := by
  classical
  have hg := (h.locks i).g
  have h₁ := add_le_total (f := Phase.owner) (G := fun t => (G t).phase i) hne
  have h₂ := le_total (f := Phase.admitted) (G := fun t => (G t).phase i) u
  omega

end Exclusive

/-! ### Contents that stay -/

section Contents

variable {strict : Bool} {c c' : Cache} {filling opened : Slot → Prop} {n : Nat} {d : Sector}

/-- A task survives what leaves contents and sector numbers alone and raises flags at most. -/
theorem Task.Knows.grow (h : k.Knows strict c) (hdevice : c'.device = c.device)
    (hsector : ∀ i, (c'.buffer i).sector = (c.buffer i).sector)
    (hdata : ∀ i, (c'.buffer i).data = (c.buffer i).data)
    (hdirty : ∀ i, (c.buffer i).dirty = true → (c'.buffer i).dirty = true)
    (hvalid : ∀ i, (c.buffer i).valid = true → (c'.buffer i).valid = true)
    (hblank : ∀ n v, k = .blank n v → (c.buffer v).valid = false → (c'.buffer v).valid = false) :
    k.Knows strict c' := by
  cases k with
  | none => trivial
  | scan n rest known =>
    exact ⟨fun i => by rw [hsector]; exact h.1 i, fun v hv => hvalid v (h.2 v hv)⟩
  | blank n v => exact ⟨fun i => by rw [hsector]; exact h.1 i, hblank n v rfl h.2⟩
  | saved n v =>
    refine ⟨fun i => by rw [hsector]; exact h.1 i, hvalid v h.2.1, ?_⟩
    rw [hsector, hdata, hdevice]
    exact h.2.2
  | filled n v =>
    refine ⟨hvalid v h.1, ?_⟩
    rw [hsector, hdata, hdevice]
    exact h.2
  | ended i n d =>
    intro hs
    obtain ⟨h₁, h₂, h₃⟩ := h hs
    exact ⟨by rw [hsector, h₁], by rw [hdata, h₂], hdirty i h₃⟩
  | seen i => exact hvalid i h
  | flushed i =>
    refine ⟨hvalid i h.1, ?_⟩
    rw [hsector, hdata, hdevice]
    exact h.2
  | _ => simpa only [Task.Knows, hsector, hdata] using h

theorem Task.Knows.keeps (h : k.Knows strict c) (hk : Cache.Keeps c c') : k.Knows strict c' := by
  refine h.grow hk.device hk.sector hk.data (fun i hi => ?_) (fun i hi => by rw [hk.valid, hi])
    (fun n v _ hv => by rw [hk.valid, hv])
  rcases hk.dirty i with hd | hd
  · exact hd
  · rw [hd, hi]

theorem Blocks.same (h : Blocks c filling)
    (hvalid : ∀ i, (c'.buffer i).valid = (c.buffer i).valid)
    (hsector : ∀ i, (c'.buffer i).sector = (c.buffer i).sector) : Blocks c' filling where
  inj i j hi hj he := by
    rw [hvalid] at hi hj
    rw [hsector, hsector] at he
    exact h.inj i j hi hj he
  blank i hi := by
    rw [hvalid] at hi
    rw [hsector]
    exact h.blank i hi
  zero i j hi hj hz := by
    rw [hvalid] at hi hj
    rw [hsector] at hz
    exact h.zero i j hi hj hz

theorem Blocks.mono {filling' : Slot → Prop} (h : Blocks c filling)
    (hf : ∀ i, filling i → filling' i) : Blocks c filling' :=
  ⟨h.inj, h.blank, fun i j hi hj hz => hf j (h.zero i j hi hj hz)⟩

theorem Backed.keeps (h : Backed c opened) (hk : Cache.Keeps c c') : Backed c' opened := by
  intro i hi hs ho
  rw [hk.valid] at hi
  rw [hk.sector] at hs
  rw [hk.sector, hk.data, hk.device]
  rcases hk.dirty i with hd | hd
  · exact .inl hd
  · rw [hd]
    exact h i hi hs ho

theorem Stored.keeps (h : Stored c n d) (hk : Cache.Keeps c c') : Stored c' n d := by
  rcases h with ⟨i, hi, hs, hd, hsafe⟩ | ⟨hno, hd⟩
  · refine .inl ⟨i, by rw [hk.valid, hi], by rw [hk.sector, hs], by rw [hk.data, hd], ?_⟩
    rw [hk.device]
    rcases hk.dirty i with hdirty | hdirty
    · exact .inl hdirty
    · rw [hdirty]
      exact hsafe
  · refine .inr ⟨fun i hi => ?_, by rw [hk.device, hd]⟩
    rw [hk.valid] at hi
    rw [hk.sector]
    exact hno i hi

end Contents

/-! ### Actions on the slots -/

section Acts

variable [DecidableEq ι] {strict : Bool} {s : SharedCache ι} {G : ι → CacheGhost} {t u : ι}
  {g : CacheGhost} {c' : Cache} {i : Slot} {n : Nat}

section

variable (h : CacheInv strict s G)
include h

/-- **One action** on the slots and the disk, by a thread that leaves the locks alone. -/
theorem CacheInv.act (hlocks : Cache.locks c' = Cache.locks s.cache)
    (hphase : g.phase = (G t).phase) (hholds : g.task.Holds g.phase)
    (hknows : g.task.Knows strict c') (hothers : ∀ u, u ≠ t → (G u).task.Knows strict c')
    (hblocks : Blocks c' (fun i => g.task.fills i ∨ ∃ u, u ≠ t ∧ (G u).task.fills i))
    (hbacked : strict = true →
      Backed c' (fun i => g.task.opens i ∨ ∃ u, u ≠ t ∧ (G u).task.opens i)) :
    CacheInv strict { s with cache := c' } (update G t g) := by
  -- whether somebody's task is of a kind is up to the new task and the other threads
  have hsome : ∀ P : Task → Prop, (P g.task ∨ ∃ u, u ≠ t ∧ P (G u).task) →
      ∃ u, P (update G t g u).task := by
    intro P hP
    rcases hP with hP | ⟨u, hu, hP⟩
    · exact ⟨t, by rw [update_self]; exact hP⟩
    · exact ⟨u, by rw [update_of_ne hu]; exact hP⟩
  refine ⟨fun i => ?_, fun u => ?_, fun u => ?_, ?_, fun hs => ?_⟩
  · have hphases : (fun u => (update G t g u).phase i) = fun u => (G u).phase i := by
      funext u
      by_cases hu : u = t
      · subst hu
        rw [update_self, hphase]
      · rw [update_of_ne hu]
    have hlatch : SharedCache.latch i { s with cache := c' } = s.latch i := by
      have hl : (c'.buffer i).lock = (s.cache.buffer i).lock := congrFun hlocks i
      rw [SharedCache.latch, SharedCache.latch, hl]
    rw [hphases, hlatch]
    exact h.locks i
  · exact (forall_update_iff G (fun _ g => g.task.Holds g.phase)).mpr
      ⟨hholds, fun u _ => h.holds u⟩ u
  · exact (forall_update_iff G (fun _ g => g.task.Knows strict c')).mpr
      ⟨hknows, hothers⟩ u
  · exact hblocks.mono (fun i => hsome (Task.fills i))
  · intro i hi hz ho
    exact hbacked hs i hi hz (fun hn => ho (hsome (Task.opens i) hn))

/-- The blocks are as they were, whatever the thread does now. -/
theorem CacheInv.blocks_same (hvalid : ∀ i, (c'.buffer i).valid = (s.cache.buffer i).valid)
    (hsector : ∀ i, (c'.buffer i).sector = (s.cache.buffer i).sector)
    (hfills : ∀ i, (G t).task.fills i → k.fills i) :
    Blocks c' (fun i => k.fills i ∨ ∃ u, u ≠ t ∧ (G u).task.fills i) := by
  refine (h.blocks.same hvalid hsector).mono (fun i ⟨u, hu⟩ => ?_)
  by_cases hut : u = t
  · subst hut
    exact .inl (hfills i hu)
  · exact .inr ⟨u, hut, hu⟩

/-- An action that changes no contents. -/
theorem CacheInv.keep (hk : Cache.Keeps s.cache c') (hlocks : Cache.locks c' = Cache.locks s.cache)
    (hphase : g.phase = (G t).phase) (hholds : g.task.Holds g.phase)
    (hknows : g.task.Knows strict c') (hfills : ∀ i, (G t).task.fills i → g.task.fills i)
    (hopens : ∀ i, (G t).task.opens i → g.task.opens i ∨ (c'.buffer i).dirty = true) :
    CacheInv strict { s with cache := c' } (update G t g) := by
  refine h.act hlocks hphase hholds hknows (fun u _ => (h.knows u).keeps hk)
    (h.blocks_same hk.valid hk.sector hfills) (fun hs i hi hz ho => ?_)
  by_cases hd : (c'.buffer i).dirty = true
  · exact .inl hd
  · refine (h.backed hs).keeps hk i hi hz (fun ⟨u, hu⟩ => ?_)
    by_cases hut : u = t
    · subst hut
      exact ho (.inl ((hopens i hu).resolve_right hd))
    · exact ho (.inr ⟨u, hut, hu⟩)

/-- A slot that neither this thread nor another one has open. -/
theorem CacheInv.backed_at (hs : strict = true) (hi : (s.cache.buffer i).valid = true)
    (hz : (s.cache.buffer i).sector ≠ 0) (ht : ¬ (G t).task.opens i)
    (ho : ¬ ∃ u, u ≠ t ∧ (G u).task.opens i) :
    (s.cache.buffer i).dirty = true ∨
      s.cache.device.sectors (s.cache.buffer i).sector = (s.cache.buffer i).data := by
  refine h.backed hs i hi hz (fun ⟨u, hu⟩ => ?_)
  by_cases hut : u = t
  · subst hut
    exact ht hu
  · exact ho ⟨u, hut, hu⟩

end

section

omit [Fintype ι] [DecidableEq ι]

/-- Nobody else is inside `find_block`. -/
theorem Alone.not_finds (ha : Alone strict t G) (hf : (G t).task.finds = true) (hu : u ≠ t) :
    (G u).task.finds ≠ true := by
  rw [ha.find hf u hu]
  nofun

/-- Nobody else is at the end of a write section. -/
theorem Alone.not_ends (ha : Alone strict t G) (hs : strict = true) (hu : u ≠ t) :
    (G u).task.ends ≠ true := by
  rw [ha.ending hs u hu]
  nofun

end

omit [DecidableEq ι] in
/-- Whoever has a share in a slot has it in another one than the owner's. -/
theorem CacheInv.other_slot (h : CacheInv strict s G) (hu : u ≠ t) {j : Slot}
    (ht : ((G t).phase i).owner = 1)
    (hj : ((G u).phase j).owner = 1 ∨ ((G u).phase j).admitted = 1) : j ≠ i := by
  rintro rfl
  have := h.exclusive (Ne.symm hu) ht
  omega

omit [DecidableEq ι] in
/-- A task of another thread survives a change to a slot that this thread owns, if the sector
    numbers stay or this thread is inside `find_block`. -/
theorem CacheInv.knows_elsewhere (h : CacheInv strict s G) (ha : Alone strict t G) (hu : u ≠ t)
    (how : ((G t).phase i).owner = 1) (hne : ∀ j, j ≠ i → c'.buffer j = s.cache.buffer j)
    (hdevice : c'.device = s.cache.device)
    (hvalid : ∀ j, (c'.buffer j).valid = (s.cache.buffer j).valid)
    (hsector : (∀ j, (c'.buffer j).sector = (s.cache.buffer j).sector) ∨
      (G t).task.finds = true) : (G u).task.Knows strict c' := by
  have hku := h.knows u
  have hhu := h.holds u
  have hshare : ∀ j, ((G u).phase j).owner = 1 ∨ ((G u).phase j).admitted = 1 →
      c'.buffer j = s.cache.buffer j := fun j hj => hne j (h.other_slot hu how hj)
  have hfinds : (G u).task.finds = true → ∀ j, (c'.buffer j).sector = (s.cache.buffer j).sector :=
    fun hf => hsector.resolve_right (fun ht => ha.not_finds ht hu hf)
  cases hk : (G u).task with
  | none => trivial
  | saved m v =>
    rw [hk] at hku hhu hfinds
    refine ⟨fun j => by rw [hfinds rfl]; exact hku.1 j, ?_⟩
    rw [hshare v (.inl hhu), hdevice]
    exact hku.2
  | filled m v =>
    rw [hk] at hku hhu
    have hhu : ((G u).phase v).owner + ((G u).phase v).admitted = 1 := hhu
    simpa only [Task.Knows, hshare v (by omega), hdevice] using hku
  | reading j _ | flushed j =>
    rw [hk] at hku hhu
    simpa only [Task.Knows, hshare j (.inr hhu), hdevice] using hku
  | upgrading j m =>
    intro hs
    rw [hk] at hku
    have hsame := hsector.resolve_right (fun ht => by
      have := ha.upgrade hs ht u hu
      rw [hk] at this
      cases this)
    rw [hsame]
    exact hku hs
  | writing j _ | wrote j _ _ =>
    rw [hk] at hku hhu
    simpa only [Task.Knows, hshare j (.inl hhu)] using hku
  | ending | ended => exact fun hs => absurd (by rw [hk]; rfl) (ha.not_ends hs hu)
  | seen j =>
    rw [hk] at hku
    simpa only [Task.Knows, hvalid] using hku
  | _ =>
    rw [hk] at hku hfinds
    simpa only [Task.Knows, hvalid, hfinds rfl] using hku

/-- An invalid slot is marked valid.  As nobody else fills a slot, no valid slot has its sector
    number `0` as yet. -/
theorem CacheInv.markValid (h : CacheInv strict s G) (ha : Alone strict t G)
    (hG : (G t).task = .blank n v) :
    CacheInv strict
      { s with cache := Cache.setSlot v (fun blk => { blk with valid := true }) s.cache }
      (update G t ⟨(G t).phase, .saved n v⟩) := by
  have hk := h.knows t
  have hh := h.holds t
  rw [hG] at hk hh
  obtain ⟨hmiss, hinvalid⟩ := hk
  have hzero : (s.cache.buffer v).sector = 0 := h.blocks.blank v hinvalid
  have hfind : (G t).task.finds = true := by rw [hG]; rfl
  have hnone : ∀ j, (s.cache.buffer j).valid = true → (s.cache.buffer j).sector ≠ 0 := by
    intro j hj hz
    obtain ⟨u, hu⟩ := h.blocks.zero v j hinvalid hj hz
    by_cases hut : u = t
    · subst hut
      rw [hG] at hu
      exact hu
    · refine ha.not_finds hfind hut ?_
      cases hk : (G u).task <;> rw [hk] at hu <;> first | exact hu.elim | rfl
  generalize hc : Cache.setSlot v (fun blk => { blk with valid := true }) s.cache = c'
  have hne : ∀ j, j ≠ v → c'.buffer j = s.cache.buffer j := by
    subst hc
    exact fun j hj => Cache.setSlot_ne hj _ _
  have hv : c'.buffer v = { s.cache.buffer v with valid := true } := by
    subst hc
    exact Cache.setSlot_same _ _ _
  have hdevice : c'.device = s.cache.device := by
    subst hc
    rfl
  have hsector := Cache.setSlot_field hc.symm CacheBlock.sector rfl
  have hvalid : ∀ j, (c'.buffer j).valid = true → j = v ∨ (s.cache.buffer j).valid = true := by
    intro j hj
    by_cases hjv : j = v
    · exact .inl hjv
    · rw [hne j hjv] at hj
      exact .inr hj
  have hinv : ∀ j, (c'.buffer j).valid = false → (s.cache.buffer j).valid = false := by
    intro j hj
    by_cases hjv : j = v
    · rw [hjv]
      exact hinvalid
    · rwa [hne j hjv] at hj
  refine h.act ?_ rfl hh ?_ (fun u hu => ?_) ⟨fun i j hi hj he => ?_, fun i hi => ?_,
    fun i j hi hj hz => ?_⟩ (fun hs i hi hz ho => ?_)
  · rw [← hc, Cache.locks_setSlot]
    exact update_eq_self v _
  · refine ⟨fun i => by rw [hsector]; exact hmiss i, by rw [hv], fun _ hz => ?_⟩
    rw [hsector] at hz
    exact absurd hzero hz
  · refine (h.knows u).grow hdevice hsector ?_ (fun i hd => ?_) ?_ ?_
    · exact Cache.setSlot_field hc.symm CacheBlock.data rfl
    · rw [Cache.setSlot_field hc.symm CacheBlock.dirty rfl, hd]
    · intro i hi
      by_cases hiv : i = v
      · rw [hiv, hv]
      · rw [hne i hiv]
        exact hi
    · intro n' v' hk
      exact absurd (by rw [hk]; rfl) (ha.not_finds hfind hu)
  · rw [hsector, hsector] at he
    rcases hvalid i hi with rfl | hi <;> rcases hvalid j hj with rfl | hj
    · rfl
    · exact absurd (he ▸ hzero) (hnone j hj)
    · exact absurd (he.trans hzero) (hnone i hi)
    · exact h.blocks.inj i j hi hj he
  · rw [hsector]
    exact h.blocks.blank i (hinv i hi)
  · rw [hsector] at hz
    rcases hvalid j hj with rfl | hj
    · exact .inl rfl
    · exact absurd hz (hnone j hj)
  · rw [hsector] at hz ⊢
    rcases hvalid i hi with rfl | hiv
    · exact absurd hzero hz
    · have hiv' : i ≠ v := fun hn => by rw [hn, hinvalid] at hiv; cases hiv
      rw [hne i hiv', hdevice]
      exact h.backed_at hs hiv hz (by rw [hG]; exact id) (fun hu => ho (.inr hu))

/-- The cache with the contents of a slot on the disk. -/
def onDisk (i : Slot) (c : Cache) : Cache :=
  { c with device := c.device.put (c.buffer i).sector (c.buffer i).data }

section

variable (h : CacheInv strict s G)
include h

/-- The contents of a valid slot are written to its sector, which no other valid slot has. -/
theorem CacheInv.writeOut (hi : (s.cache.buffer i).valid = true) (hc : c' = onDisk i s.cache)
    (hphase : g.phase = (G t).phase) (hholds : g.task.Holds g.phase)
    (hknows : g.task.Knows strict c') (hfills : ∀ j, (G t).task.fills j → g.task.fills j)
    (hopens : ∀ j, (G t).task.opens j → g.task.opens j) :
    CacheInv strict { s with cache := c' } (update G t g) := by
  have hbuf : ∀ j, c'.buffer j = s.cache.buffer j := fun j => by rw [hc]; rfl
  -- what is written is the contents of the slot that has the sector
  have hput : ∀ j, (s.cache.buffer j).valid = true →
      (j = i ∧ c'.device.sectors (s.cache.buffer j).sector = (s.cache.buffer j).data) ∨
        c'.device.sectors (s.cache.buffer j).sector =
          s.cache.device.sectors (s.cache.buffer j).sector := by
    intro j hj
    rw [hc, onDisk]
    by_cases he : (s.cache.buffer j).sector = (s.cache.buffer i).sector
    · have hji := h.blocks.inj j i hj hi he
      subst hji
      exact .inl ⟨rfl, by rw [Device.put_sectors, update_self]⟩
    · exact .inr (by rw [Device.put_sectors, update_of_ne he])
  refine h.act ?_ hphase hholds hknows (fun u hu => ?_)
    (h.blocks_same (fun j => by rw [hbuf]) (fun j => by rw [hbuf]) hfills)
    (fun hs j hj hz ho => ?_)
  · rw [hc]
    rfl
  · have hku := h.knows u
    cases hk : (G u).task with
    | saved n v =>
      rw [hk] at hku
      refine ⟨fun j => by rw [hbuf]; exact hku.1 j, by rw [hbuf]; exact hku.2.1, fun hs hz => ?_⟩
      rw [hbuf] at hz ⊢
      rcases hput v hku.2.1 with ⟨-, hp⟩ | hp
      · exact hp
      · rw [hp]
        exact hku.2.2 hs hz
    | filled n v =>
      rw [hk] at hku
      obtain ⟨hv, rfl, hd⟩ := hku
      refine ⟨by rw [hbuf]; exact hv, by rw [hbuf], ?_⟩
      rw [hbuf]
      rcases hput v hv with ⟨-, hp⟩ | hp
      · exact hp
      · rw [hp, hd]
    | flushed j =>
      rw [hk] at hku
      refine ⟨by rw [hbuf]; exact hku.1, ?_⟩
      rw [hbuf]
      rcases hput j hku.1 with ⟨-, hp⟩ | hp
      · exact hp
      · rw [hp, hku.2]
    | none => trivial
    | _ =>
      rw [hk] at hku
      simpa only [Task.Knows, hbuf] using hku
  · rw [hbuf] at hj hz ⊢
    rcases hput j hj with ⟨-, hp⟩ | hp
    · exact .inr hp
    · rw [hp]
      exact h.backed_at hs hj hz (fun ht => ho (.inl (hopens j ht))) (fun hu => ho (.inr hu))

/-- A slot whose contents are saved gets a sector that no slot has, as it is on the disk.  The slot
    is locked, so nobody else relies on it. -/
theorem CacheInv.readIn (ha : Alone strict t G) (hG : (G t).task = .saved n v)
    (hc : c' = Cache.setSlot v (fun blk => { blk with data := s.cache.device.sectors n, sector :=
      n }) s.cache) :
    CacheInv strict { s with cache := c' } (update G t ⟨(G t).phase, .filled n v⟩) := by
  have hk := h.knows t
  have hh := h.holds t
  rw [hG] at hk hh
  obtain ⟨hmiss, hvalid, -⟩ := hk
  have hfind : (G t).task.finds = true := by rw [hG]; rfl
  have hne : ∀ j, j ≠ v → c'.buffer j = s.cache.buffer j := by
    rw [hc]
    exact fun j hj => Cache.setSlot_ne hj _ _
  have hv : c'.buffer v = { s.cache.buffer v with
      data := s.cache.device.sectors n, sector := n } := by
    rw [hc]
    exact Cache.setSlot_same _ _ _
  have hdevice : c'.device = s.cache.device := by rw [hc]; rfl
  have hvalids := Cache.setSlot_field hc CacheBlock.valid rfl
  have hself : ((G t).phase v).owner + ((G t).phase v).admitted = 1 := by
    have how : ((G t).phase v).owner = 1 := hh
    revert how
    cases (G t).phase v <;> decide
  refine h.act ?_ rfl hself ⟨by rw [hvalids, hvalid], by rw [hv], by rw [hv, hdevice]⟩
    (fun u hu => ?_) ⟨fun i j hi hj he => ?_, fun i hi => ?_, fun i j hi hj hz => ?_⟩
    (fun hs i hi hz ho => ?_)
  · rw [hc, Cache.locks_setSlot]
    exact update_eq_self v _
  · exact h.knows_elsewhere ha hu hh hne hdevice hvalids (.inr hfind)
  · rw [hvalids] at hi hj
    by_cases hiv : i = v <;> by_cases hjv : j = v
    · rw [hiv, hjv]
    · rw [hiv, hv, hne j hjv] at he
      exact absurd he.symm (hmiss j)
    · rw [hjv, hv, hne i hiv] at he
      exact absurd he (hmiss i)
    · rw [hne i hiv, hne j hjv] at he
      exact h.blocks.inj i j hi hj he
  · rw [hvalids] at hi
    have hiv : i ≠ v := fun hn => by rw [hn, hvalid] at hi; cases hi
    rw [hne i hiv]
    exact h.blocks.blank i hi
  · rw [hvalids] at hi hj
    have hiv : i ≠ v := fun hn => by rw [hn, hvalid] at hi; cases hi
    by_cases hjv : j = v
    · -- an invalid slot has sector number `0`, so the sector read is another one
      rw [hjv, hv] at hz
      have hz : n = 0 := hz
      exact absurd (hz ▸ h.blocks.blank i hi) (hmiss i)
    · rw [hne j hjv] at hz
      obtain ⟨u, hu⟩ := h.blocks.zero i j hi hj hz
      by_cases hut : u = t
      · subst hut
        rw [hG] at hu
        exact absurd hu.symm hjv
      · exact .inr ⟨u, hut, hu⟩
  · rw [hvalids] at hi
    by_cases hiv : i = v
    · rw [hiv, hv, hdevice]
      exact .inr rfl
    · rw [hne i hiv] at hz ⊢
      rw [hdevice]
      exact h.backed_at hs hi hz (by rw [hG]; exact id) (fun hu => ho (.inr hu))

/-- The dirty bit of a slot is cleared when the disk has its contents. -/
theorem CacheInv.clearDirty (ha : Alone strict t G)
    (hdisk : s.cache.device.sectors (s.cache.buffer i).sector = (s.cache.buffer i).data)
    (hc : c' = Cache.setSlot i (fun blk => { blk with dirty := false }) s.cache)
    (hphase : g.phase = (G t).phase) (hholds : g.task.Holds g.phase)
    (hknows : g.task.Knows strict c') (hfills : ∀ j, (G t).task.fills j → g.task.fills j)
    (hopens : ∀ j, (G t).task.opens j → g.task.opens j) :
    CacheInv strict { s with cache := c' } (update G t g) := by
  have hvalid := Cache.setSlot_field hc CacheBlock.valid rfl
  have hsector := Cache.setSlot_field hc CacheBlock.sector rfl
  have hdata := Cache.setSlot_field hc CacheBlock.data rfl
  have hdevice : c'.device = s.cache.device := by rw [hc]; rfl
  refine h.act ?_ hphase hholds hknows (fun u hu => ?_) (h.blocks_same hvalid hsector hfills)
    (fun hs j hj hz ho => ?_)
  · rw [hc, Cache.locks_setSlot]
    exact update_eq_self i _
  · have hku := h.knows u
    cases hk : (G u).task with
    | none => trivial
    | ended j m d =>
      exact fun hs => absurd (by rw [hk]; rfl) (ha.not_ends hs hu)
    | _ =>
      rw [hk] at hku
      simpa only [Task.Knows, hvalid, hsector, hdata, hdevice] using hku
  · rw [hvalid] at hj
    rw [hsector] at hz ⊢
    rw [hdata, hdevice]
    by_cases hji : j = i
    · rw [hji]
      exact .inr hdisk
    · rw [hc, Cache.setSlot_ne hji]
      exact h.backed_at hs hj hz (fun ht => ho (.inl (hopens j ht))) (fun hu => ho (.inr hu))

/-- New contents in a slot that is open for writing. -/
theorem CacheInv.change (ha : Alone strict t G) {d : Sector} (how : ((G t).phase i).owner = 1)
    (hn : strict = true → (s.cache.buffer i).sector = n) (hfills : ∀ j, ¬ (G t).task.fills j)
    (hopens : ∀ j, (G t).task.opens j → j = i)
    (hc : c' = Cache.setSlot i (fun blk => { blk with data := d }) s.cache) :
    CacheInv strict { s with cache := c' } (update G t ⟨(G t).phase, .wrote i n d⟩) := by
  have hne : ∀ j, j ≠ i → c'.buffer j = s.cache.buffer j := by
    rw [hc]
    exact fun j hj => Cache.setSlot_ne hj _ _
  have hself : c'.buffer i = { s.cache.buffer i with data := d } := by
    rw [hc]
    exact Cache.setSlot_same _ _ _
  have hdevice : c'.device = s.cache.device := by rw [hc]; rfl
  have hvalid := Cache.setSlot_field hc CacheBlock.valid rfl
  have hsector := Cache.setSlot_field hc CacheBlock.sector rfl
  refine h.act ?_ rfl how (fun hs => ⟨by rw [hself]; exact hn hs, by rw [hself]⟩)
    (fun u hu => ?_) (h.blocks_same hvalid hsector (fun j hj => absurd hj (hfills j)))
    (fun hs j hj hz ho => ?_)
  · rw [hc, Cache.locks_setSlot]
    exact update_eq_self i _
  · exact h.knows_elsewhere ha hu how hne hdevice hvalid (.inl hsector)
  · have hji : j ≠ i := fun hn => ho (.inl hn.symm)
    rw [hne j hji] at hj hz ⊢
    rw [hdevice]
    exact h.backed_at hs hj hz (fun ht => hji (hopens j ht)) (fun hu => ho (.inr hu))

end

end Acts

/-! ### What the actions leave stored -/

section Kept

variable {c c' : Cache} {filling : Slot → Prop} {n : Nat} {d : Sector}

theorem Stored.markValid (h : Stored c n d) (hz : (c.buffer v).sector = 0) (hn : n ≠ 0) :
    Stored (Cache.setSlot v (fun blk => { blk with valid := true }) c) n d := by
  rcases h with ⟨i, hi, hs, hd, hsafe⟩ | ⟨hno, hd⟩
  · refine .inl ⟨i, ?_⟩
    by_cases hiv : i = v
    · subst hiv
      exact absurd (hs.symm.trans hz) hn
    · rw [Cache.setSlot_ne hiv]
      exact ⟨hi, hs, hd, hsafe⟩
  · refine .inr ⟨fun i hi => ?_, hd⟩
    by_cases hiv : i = v
    · subst hiv
      rw [Cache.setSlot_same]
      exact fun hs => hn (hs.symm.trans hz)
    · rw [Cache.setSlot_ne hiv] at hi ⊢
      exact hno i hi

/-- A write-back is of the slot that has the sector, or of another sector. -/
theorem Stored.onDisk (h : Stored c n d) (hb : Blocks c filling) (hv : (c.buffer v).valid = true) :
    Stored (onDisk v c) n d := by
  have hput : (KernelSanders.onDisk v c).device.sectors n =
      if n = (c.buffer v).sector then (c.buffer v).data else c.device.sectors n := by
    show (c.device.put (c.buffer v).sector (c.buffer v).data).sectors n = _
    rw [Device.put_sectors, update_apply]
  rcases h with ⟨i, hi, hs, hd, hsafe⟩ | ⟨hno, hd⟩
  · refine .inl ⟨i, hi, hs, hd, ?_⟩
    rw [hput]
    by_cases hn : n = (c.buffer v).sector
    · have hiv : i = v := hb.inj i v hi hv (hs.trans hn)
      rw [if_pos hn, ← hiv]
      exact .inr hd
    · rw [if_neg hn]
      exact hsafe
  · refine .inr ⟨hno, ?_⟩
    rw [hput, if_neg (Ne.symm (hno v hv)), hd]

/-- What the recycled slot had is on the disk, and what it gets was there before. -/
theorem Stored.readIn (h : Stored c n d) (hb : Blocks c filling) {m : Nat}
    (hv : (c.buffer v).valid = true) (hmiss : ∀ i, (c.buffer i).sector ≠ m)
    (hdisk : (c.buffer v).sector = n → c.device.sectors n = (c.buffer v).data) :
    Stored (Cache.setSlot v (fun blk =>
      { blk with data := c.device.sectors m, sector := m }) c) n d := by
  rcases h with ⟨i, hi, hs, hd, hsafe⟩ | ⟨hno, hd⟩
  · by_cases hiv : i = v
    · subst hiv
      have hmn : m ≠ n := fun hn => hmiss i (hs.trans hn.symm)
      refine .inr ⟨fun j hj => ?_, (hdisk hs).trans hd⟩
      by_cases hji : j = i
      · subst hji
        rw [Cache.setSlot_same]
        exact hmn
      · rw [Cache.setSlot_ne hji] at hj ⊢
        exact fun hjn => hji (hb.inj j i hj hi (hjn.trans hs.symm))
    · exact .inl ⟨i, by rw [Cache.setSlot_ne hiv]; exact ⟨hi, hs, hd, hsafe⟩⟩
  · by_cases hmn : m = n
    · subst hmn
      exact .inl ⟨v, by rw [Cache.setSlot_same]; exact ⟨hv, rfl, hd, .inr hd⟩⟩
    · refine .inr ⟨fun j hj => ?_, hd⟩
      by_cases hjv : j = v
      · subst hjv
        rw [Cache.setSlot_same]
        exact hmn
      · rw [Cache.setSlot_ne hjv] at hj ⊢
        exact hno j hj

/-- A change of one slot leaves the other sectors, and its own if that is on the disk. -/
theorem Stored.setSlot (h : Stored c n d) {f : CacheBlock → CacheBlock}
    (hvalid : (f (c.buffer v)).valid = (c.buffer v).valid)
    (hsector : (f (c.buffer v)).sector = (c.buffer v).sector)
    (hdata : (c.buffer v).sector = n → (f (c.buffer v)).data = (c.buffer v).data ∧
      c.device.sectors n = (c.buffer v).data) :
    Stored (Cache.setSlot v f c) n d := by
  rcases h with ⟨i, hi, hs, hd, hsafe⟩ | ⟨hno, hd⟩
  · refine .inl ⟨i, ?_⟩
    by_cases hiv : i = v
    · subst hiv
      rw [Cache.setSlot_same, hvalid, hsector, (hdata hs).1]
      exact ⟨hi, hs, hd, .inr ((hdata hs).2.trans hd)⟩
    · rw [Cache.setSlot_ne hiv]
      exact ⟨hi, hs, hd, hsafe⟩
  · refine .inr ⟨fun j hj => ?_, hd⟩
    by_cases hjv : j = v
    · subst hjv
      rw [Cache.setSlot_same, hvalid] at hj
      rw [Cache.setSlot_same, hsector]
      exact hno j hj
    · rw [Cache.setSlot_ne hjv] at hj ⊢
      exact hno j hj

end Kept

end KernelSanders
