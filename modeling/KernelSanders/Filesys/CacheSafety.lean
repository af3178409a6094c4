import KernelSanders.Filesys.CacheOutline

namespace KernelSanders

open Lib
open Lib.Exec hiding update
open Function
open List

/-!
# The functions of the cache against their outline

`cacheOutline` puts the invariant to work: one lemma for each loop of `find_block`,
`cache_evict` and `refresh_cache`, each by induction over the slots still to be visited, and one
for each call.  The lock operations are not looked into again: their outline over one lock is
framed by the rest of the cache (`safe_onLatch`).
-/

variable {ι : Type} [Fintype ι] [DecidableEq ι] {g : CacheGhost} {i : Slot} {G : ι → CacheGhost}
  {φ : Slot → Phase} {s : SharedCache ι}

/-- The phases of a thread that has something of one slot's lock at most. -/
def phaseAt (i : Slot) (ph : Phase) : Slot → Phase := update (fun _ => .out) i ph

/-- The phases of a thread that has nothing. -/
def phaseOut : Slot → Phase := fun _ => .out

@[simp] theorem phaseAt_self (i : Slot) (ph : Phase) : phaseAt i ph i = ph :=
  update_self ..

@[simp] theorem update_phaseAt (i : Slot) (ph q : Phase) :
    update (phaseAt i ph) i q = phaseAt i q := update_idem ..

@[simp] theorem update_phaseOut (i : Slot) (ph : Phase) : update phaseOut i ph = phaseAt i ph := rfl

@[simp] theorem phaseAt_out (i : Slot) : phaseAt i .out = phaseOut :=
  update_eq_self i phaseOut

def CacheRole.ghost : CacheRole → CacheGhost
  | .out => ⟨phaseOut, .none⟩
  | .reading i n => ⟨phaseAt i .reader, .reading i n⟩
  | .writing i n => ⟨phaseAt i .writer, .writing i n⟩
  | .wrote i n d => ⟨phaseAt i .writer, .wrote i n d⟩

namespace CacheCall

/-- The tasks a thread can have inside the call. -/
def Suits : CacheCall → Task → Prop
  | find _, k => k.upgrades = false ∧ k.ends = false
  | upgrade _ _, k => k.finds = false ∧ k.ends = false
  | writeEnd _ _ _, k => k.finds = false ∧ k.upgrades = false
  | readEnd _ _, k | change _ _ _, k | refresh, k =>
    k.finds = false ∧ k.upgrades = false ∧ k.ends = false

/-- The call does not change the contents of sector `n`. -/
def Spares (n : Nat) : CacheCall → Prop
  | change _ m _ => m ≠ n
  | find _ | readEnd _ _ | upgrade _ _ | writeEnd _ _ _ | refresh => True

/-- The end of a call. -/
def Done : CacheCall → CacheRole → CacheGhost → Prop
  | find n, r, g => ∃ i, r = .reading i n ∧ g = ⟨phaseAt i .reader, .reading i n⟩
  | readEnd _ _, r, g => r = .out ∧ g = ⟨phaseOut, .none⟩
  | upgrade i n, r, g => r = .writing i n ∧ g = ⟨phaseAt i .writer, .upgrading i n⟩
  | change i n d, r, g => r = .wrote i n d ∧ g = ⟨phaseAt i .writer, .wrote i n d⟩
  | writeEnd i n d, r, g => r = .out ∧ g = ⟨phaseOut, .ended i n d⟩
  | refresh, r, g => r = .out ∧ g.phase = phaseOut ∧ (g.task = .none ∨ ∃ i, g.task = .seen i)

end CacheCall

/-- The text of the assertion in the first loop of `find_block`. -/
def sectorAssertion : String := "buffer[i].sector == sector"

/-- The outline of the concurrent cache. -/
def cacheOutline (strict : Bool) : Outline ι (SharedCache ι) CacheCall CacheRole CacheGhost where
  inv := CacheInv strict
  sched := Alone strict
  home r g := g = r.ghost
  during c g := c.Suits g.task
  done := CacheCall.Done
  changes c s s' := strict = true → ∀ n d, n ≠ 0 → c.Spares n → Stored s.cache n d →
    Stored s'.cache n d
  stops _ _ e _ _ := e ≠ .panic sectorAssertion

section Rules

variable {strict : Bool} {c : CacheCall} {t : ι} {α β : Type} {Q : β → CacheGhost → Prop}

open SharedCache

/-- An action on the slots and the disk. -/
theorem safe_onCache {x : Exec Cache α} {f : α → Prog (SharedCache ι) β} (hd : c.Suits g.task)
    (hx : ∀ s G, CacheInv strict s G → Alone strict t G → G t = g → g.task.Knows strict s.cache →
      Meets x s.cache
        (fun a c' => ∃ g', CacheInv strict { s with cache := c' } (update G t g') ∧
          (strict = true → ∀ n d, n ≠ 0 → c.Spares n → Stored s.cache n d → Stored c' n d) ∧
            Safe (cacheOutline strict) c t Q (f a) g')
        (fun e => e ≠ .panic sectorAssertion)) :
    Safe (cacheOutline strict) c t Q (onCache x >>= f) g := by
  refine safe_step hd (fun s G hinv hs hG => ?_)
  rw [meets_zoom]
  exact hx s G hinv hs hG (hG ▸ hinv.knows t)

variable {k : Unit → Prog (SharedCache ι) β} {w : Task}

/-- A look at a slot, after which the thread may rely on more. -/
theorem safe_look {f : CacheBlock → α} {k : α → Prog (SharedCache ι) β} (hd : c.Suits g.task)
    (hplain : g.task.Plain)
    (h : ∀ (s : SharedCache ι) (G : ι → CacheGhost), CacheInv strict s G → Alone strict t G →
      G t = g → g.task.Knows strict s.cache → ∃ k', k'.Holds g.phase ∧ k'.Knows strict s.cache ∧
        Safe (cacheOutline strict) c t Q (k (f (s.cache.buffer i))) ⟨g.phase, k'⟩) :
    Safe (cacheOutline strict) c t Q (look i f >>= k) g := by
  refine safe_onCache hd (fun s G hinv hs hG hkn => ?_)
  obtain ⟨k', hholds, hknows, hsafe⟩ := h s G hinv hs hG hkn
  rw [meets_read]
  rw [← hG] at hplain
  refine ⟨⟨g.phase, k'⟩, ?_, fun _ _ _ _ _ hsh => hsh, hsafe⟩
  exact hinv.keep (Cache.Keeps.refl _) rfl (by rw [hG]) hholds hknows hplain.fills hplain.opens

/-- An assignment to a slot that leaves its contents, sector number and lock alone. -/
theorem safe_touch {f : CacheBlock → CacheBlock} (hd : c.Suits g.task)
    (hf : ∀ blk, (f blk).valid = blk.valid ∧ (f blk).data = blk.data ∧
      (f blk).sector = blk.sector ∧ (f blk).lock = blk.lock ∧
        ((f blk).dirty = true ∨ (f blk).dirty = blk.dirty))
    (hk : Safe (cacheOutline strict) c t Q (k ()) g) :
    Safe (cacheOutline strict) c t Q (setBlock i f >>= k) g := by
  refine safe_onCache hd (fun s G hinv hs hG hkn => ?_)
  obtain ⟨hv, hdata, hsec, hl, hdirty⟩ := hf (s.cache.buffer i)
  have hkeeps := Cache.keeps_setSlot i f s.cache hv hdata hsec hdirty
  rw [meets_update]
  refine ⟨g, ?_, fun _ _ _ _ _ hsh => hsh.keeps hkeeps, hk⟩
  refine hinv.keep hkeeps ?_ (by rw [hG]) ?_ (hkn.keeps hkeeps) (fun j hj => ?_) (fun j hj => ?_)
  · rw [Cache.locks_setSlot, hl]
    exact update_eq_self i _
  · rw [← hG]
    exact hinv.holds t
  · rw [hG] at hj
    exact hj
  · rw [hG] at hj
    exact .inl hj

/-- A step of a slot's lock keeps the invariant of the cache. -/
theorem CacheInv.latch (h : CacheInv strict s G) {l : Latch ι} {ph q : Phase}
    (hG : G t = ⟨update g.phase i ph, g.task⟩) (hholds : g.task.Holds (update g.phase i q))
    (hl : RwInv l (update (fun u => (G u).phase i) t q)) :
    CacheInv strict (putLatch i l s)
      (update G t ⟨update g.phase i q, g.task⟩) := by
  have hkeeps := Cache.keeps_lock i l.lock s.cache
  have htask : ∀ u, (update G t ⟨update g.phase i q, g.task⟩ u).task
      = (G u).task := by
    intro u
    by_cases hu : u = t
    · subst hu
      rw [update_self, hG]
    · rw [update_of_ne hu]
  refine ⟨fun j => ?_, fun u => ?_, fun u => ?_, ?_, fun hs => ?_⟩
  · by_cases hj : j = i
    · subst hj
      have hlatch : (putLatch j l s).latch j = l := by
        simp only [SharedCache.latch, putLatch, update_self, Cache.setSlot_same]
      have hphase : (fun u => (update G t
          ⟨update g.phase j q, g.task⟩ u).phase j)
            = update (fun u => (G u).phase j) t q := by
        funext u
        by_cases hu : u = t
        · subst hu
          simp only [update_self]
        · simp only [update_of_ne hu]
      rw [hlatch, hphase]
      exact hl
    · have hlatch : (putLatch i l s).latch j = s.latch j := by
        simp only [SharedCache.latch, putLatch, update_of_ne hj, Cache.setSlot_ne hj]
      have hphase : (fun u => (update G t
          ⟨update g.phase i q, g.task⟩ u).phase j) = fun u => (G u).phase j := by
        funext u
        by_cases hu : u = t
        · subst hu
          rw [update_self, hG]
          simp only [update_of_ne hj]
        · rw [update_of_ne hu]
      rw [hlatch, hphase]
      exact h.locks j
  · exact (forall_update_iff G (fun _ g => g.task.Holds g.phase)).mpr
      ⟨hholds, fun u _ => h.holds u⟩ u
  · rw [htask]
    exact (h.knows u).keeps hkeeps
  · simp only [htask]
    exact h.blocks.same hkeeps.valid hkeeps.sector
  · simp only [htask]
    exact (h.backed hs).keeps hkeeps

/-- **A function on the lock of a slot**, with a task that goes with every phase of it. -/
theorem safe_onLatch {l : RwCall} {x : Prog (Latch ι) α} {P : α → Phase → Prop} {ph : Phase}
    {k : Task} (hx : Safe rwOutline l t P x ph) (hi : φ i = ph) (hd : c.Suits k)
    (hholds : ∀ q ∈ l.phases, k.Holds (update φ i q)) :
    Safe (cacheOutline strict) c t (fun a g => ∃ q, P a q ∧ g = ⟨update φ i q, k⟩)
      (onLatch i x) ⟨φ, k⟩ := by
  have hstart : (⟨φ, k⟩ : CacheGhost) = ⟨update φ i ph, k⟩ := by
    rw [← hi, update_eq_self]
  rw [hstart]
  refine Safe.zoom (o := rwOutline) (O := cacheOutline strict) (c := l) (d := ⟨φ, k⟩)
    (fun g : CacheGhost => g.phase i)
    (fun q g => (⟨update g.phase i q, g.task⟩ : CacheGhost))
    (fun q g => update_self ..) (fun s D hD _ => ⟨hD.locks i, trivial⟩) ?_
    (fun _ _ => hd) ?_ hx
  · intro s D s' q q' hD _ hDt hq' hinv
    refine ⟨CacheInv.latch hD hDt (hholds q' hq') hinv, fun _ _ _ _ _ hsh => ?_⟩
    exact hsh.keeps (Cache.keeps_lock i s'.lock s.cache)
  · intro e s D _ ⟨he, _⟩
    rw [he]
    nofun

/-- A test of the slots, after which the thread may rely on more. -/
theorem safe_assert {f : Cache → α} {p : α → Prop} [DecidablePred p] {msg : String}
    (hd : c.Suits g.task) (hplain : g.task.Plain)
    (hmsg : ∀ cache : Cache, g.task.Knows strict cache → ¬ p (f cache) → msg ≠ sectorAssertion)
    (h : ∀ cache : Cache, g.task.Knows strict cache → p (f cache) → ∃ k', k'.Holds g.phase ∧ k'.Knows strict cache ∧
        Safe (cacheOutline strict) c t Q (k ()) ⟨g.phase, k'⟩) :
    Safe (cacheOutline strict) c t Q
      (onCache (do let a ← read f; assert (p a) msg) >>= k) g := by
  refine safe_onCache hd (fun s G hinv _ hG hkn => ?_)
  rw [meets_get]
  refine meets_assert (fun hp => ?_) (fun hp he => ?_)
  · obtain ⟨k', hholds, hknows, hsafe⟩ := h s.cache hkn hp
    rw [← hG] at hplain
    refine ⟨⟨g.phase, k'⟩, ?_, fun _ _ _ _ _ hst => hst, hsafe⟩
    exact hinv.keep (Cache.Keeps.refl _) rfl (by rw [hG]) hholds hknows hplain.fills hplain.opens
  · injection he with he
    exact hmsg s.cache hkn hp he

/-- A write-back of a slot that the thread knows to be valid. -/
theorem safe_writeOut (hd : c.Suits g.task) (hplain : g.task.Plain) (hholds : w.Holds g.phase)
    (hvalid : ∀ cache : Cache, g.task.Knows strict cache → (cache.buffer i).valid = true)
    (hknows : ∀ cache : Cache, g.task.Knows strict cache → w.Knows strict (onDisk i cache))
    (hk : Safe (cacheOutline strict) c t Q (k ()) ⟨g.phase, w⟩) :
    Safe (cacheOutline strict) c t Q (writeOut i >>= k) g := by
  refine safe_onCache hd (fun s G hinv _ hG hkn => ?_)
  have hv := hvalid s.cache hkn
  rw [meets_get, Cache.onDevice, meets_zoom]
  by_cases hin : (s.cache.buffer i).sector < s.cache.device.size
  · rw [meets_ok (blockWrite_ok hin _)]
    refine ⟨⟨g.phase, w⟩, ?_, fun _ n d _ _ hst => hst.onDisk hinv.blocks hv, hk⟩
    rw [← hG] at hplain
    exact hinv.writeOut hv rfl (by rw [hG]) hholds (hknows _ hkn) hplain.fills hplain.opens
  · rw [meets_error (blockWrite_past_end (Nat.le_of_not_lt hin) _)]
    decide

/-- The dirty bit of a slot that the thread knows to be on the disk is cleared. -/
theorem safe_clearDirty (hd : c.Suits g.task) (hplain : g.task.Plain) (hholds : w.Holds g.phase)
    (hdisk : ∀ cache : Cache, g.task.Knows strict cache →
      cache.device.sectors (cache.buffer i).sector = (cache.buffer i).data)
    (hknows : ∀ cache : Cache, g.task.Knows strict cache →
      w.Knows strict (Cache.setSlot i (fun blk => { blk with dirty := false }) cache))
    (hk : Safe (cacheOutline strict) c t Q (k ()) ⟨g.phase, w⟩) :
    Safe (cacheOutline strict) c t Q
      (setBlock i (fun blk => { blk with dirty := false }) >>= k) g := by
  refine safe_onCache hd (fun s G hinv hs hG hkn => ?_)
  rw [meets_update]
  refine ⟨⟨g.phase, w⟩, ?_, fun _ n d _ _ hst => hst.setSlot rfl rfl (fun hn => ?_), hk⟩
  · rw [← hG] at hplain
    exact hinv.clearDirty hs (hdisk _ hkn) rfl (by rw [hG]) hholds (hknows _ hkn) hplain.fills
      hplain.opens
  · rw [← hn]
    exact ⟨rfl, hdisk _ hkn⟩

end Rules

/-! ### The functions -/

namespace SharedCache

section Functions

variable {strict : Bool} {c : CacheCall} {t : ι} {n : Nat}

/-- `cache_write_end` of a slot that the thread has locked without having changed it. -/
theorem cacheWriteEnd_safe {k : Task} (hi : φ i = .writer) (hd : c.Suits k)
    (hholds : ∀ q, k.Holds (update φ i q)) :
    Safe (cacheOutline strict) c t (fun _ g => g = ⟨update φ i .out, k⟩)
      (cacheWriteEnd i) ⟨φ, k⟩ := by
  refine Safe.bind (safe_onLatch (Latch.cacheWriteEnd_safe t) hi hd (fun q _ => hholds q)) ?_
  intro _ g _ ⟨q, hq, hg⟩
  subst hq hg
  exact safe_touch (k := pure) hd (fun _ => ⟨rfl, rfl, rfl, rfl, .inl rfl⟩) ⟨hd, rfl⟩

/-- The first loop of `find_block`, over the slots that may still have the sector. -/
theorem hitEach_safe (slots : List Slot) :
    Safe (cacheOutline strict) (.find n) t
      (fun hit g => g = match hit with
        | some i => ⟨phaseAt i .reader, .reading i n⟩
        | none => ⟨phaseOut, .scan n [] []⟩)
      (hitEach t n slots) ⟨phaseOut, .scan n slots []⟩ := by
  induction slots with
  | nil => exact ⟨⟨rfl, rfl⟩, rfl⟩
  | cons i is ih =>
    refine safe_look ⟨rfl, rfl⟩ ⟨nofun, nofun⟩ (fun s G hinv _ hG hkn => ?_)
    by_cases hn : (s.cache.buffer i).sector = n
    · -- the slot keeps the sector while the thread waits for its lock
      refine ⟨.hit n i, trivial, hn, ?_⟩
      rw [if_pos hn]
      refine Safe.bind (safe_onLatch (Latch.cacheReadBegin_safe t) rfl ⟨rfl, rfl⟩
        (fun _ _ => trivial)) ?_
      intro _ g _ ⟨q, hq, hg⟩
      subst hq hg
      refine safe_assert ⟨rfl, rfl⟩ ⟨nofun, nofun⟩ (fun _ hhit hp => absurd hhit hp)
        (fun _ _ hp => ⟨.reading i n, ?_, hp, ⟨rfl, rfl⟩, rfl⟩)
      simp [Task.Holds, Phase.admitted]
    · refine ⟨.scan n is [], trivial, ⟨fun j hj => ?_, fun _ hv => nomatch hv⟩, ?_⟩
      · by_cases hji : j = i
        · rw [hji]
          exact hn
        · exact hkn.1 j (fun hm => (mem_cons.mp hm).elim hji hj)
      · rw [if_neg hn]
        exact ih

/-- The second loop of `find_block`. -/
theorem freeEach_safe (slots : List Slot) :
    Safe (cacheOutline strict) (.find n) t
      (fun free g => g = match free with
        | some v => ⟨phaseAt v .writer, .saved n v⟩
        | none => ⟨phaseOut, .scan n [] []⟩)
      (freeEach slots) ⟨phaseOut, .scan n [] []⟩ := by
  induction slots with
  | nil => exact ⟨⟨rfl, rfl⟩, rfl⟩
  | cons i is ih =>
    refine Safe.bind (safe_onLatch (Latch.cacheWriteTry_safe t) rfl ⟨rfl, rfl⟩ (fun _ _ => trivial)) ?_
    intro granted g _ ⟨q, hq, hg⟩
    subst hq hg
    cases granted with
    | false => simpa using ih
    | true =>
      refine safe_look ⟨rfl, rfl⟩ ⟨nofun, nofun⟩ (fun s G hinv _ hG hkn => ?_)
      cases hv : (s.cache.buffer i).valid with
      | true =>
        refine ⟨.scan n [] [], trivial, hkn, ?_⟩
        refine Safe.bind (cacheWriteEnd_safe (by simp) ⟨rfl, rfl⟩ (fun _ => trivial)) ?_
        intro _ g _ hg
        subst hg
        simpa using ih
      | false =>
        refine ⟨.blank n i, by simp [Task.Holds, Phase.owner],
          ⟨fun j => hkn.1 j (not_mem_nil), hv⟩, ?_⟩
        -- the slot becomes valid with sector number `0`
        refine safe_onCache ⟨rfl, rfl⟩ (fun s G hinv hs hG hblank => ?_)
        rw [meets_update]
        refine ⟨⟨phaseAt i .writer, .saved n i⟩, ?_, fun _ m d hm _ hst => ?_, ⟨rfl, rfl⟩, rfl⟩
        · have h := hinv.markValid hs (n := n) (v := i) (by rw [hG])
          rw [hG] at h
          exact h
        · exact hst.markValid (hinv.blocks.blank i hblank.2) hm

/-- What the thread has of the slots' locks inside the loop of `cache_evict`. -/
def held : Option Slot → Slot → Phase
  | some v => phaseAt v .writer
  | none => phaseOut

/-- Another slot than the victim is not held. -/
theorem held_ne {victim : Option Slot} (h : ∀ v ∈ victim, v ≠ i) : held victim i = .out := by
  cases victim with
  | none => rfl
  | some v =>
    rw [held, phaseAt, update_of_ne (Ne.symm (h v rfl))]

/-- The old victim is let go for a new one. -/
theorem held_letGo {v : Slot} (h : v ≠ i) :
    update (update (held (some v)) i .writer) v .out = held (some i) := by
  have hback : update phaseOut v .out = phaseOut := update_eq_self v phaseOut
  rw [held, phaseAt, update_comm (Ne.symm h), update_idem]
  exact congrArg (fun φ => update φ i Phase.writer) hback

/-- The loop of `cache_evict`: the victim is held, and known to be valid. -/
theorem evictEach_safe (slots : List Slot) (hnodup : slots.Nodup) (victim : Option Slot)
    (oldest : BitVec 64) (known : List Slot) (hnew : ∀ v ∈ victim, v ∉ slots)
    (hknown : ∀ v ∈ victim, v ∈ known) :
    Safe (cacheOutline strict) (.find n) t
      (fun victim g => ∃ known, (∀ v ∈ victim, v ∈ known) ∧ g = ⟨held victim, .scan n [] known⟩)
      (evictEach slots victim oldest) ⟨held victim, .scan n [] known⟩ := by
  induction slots generalizing victim oldest known with
  | nil => exact ⟨⟨rfl, rfl⟩, known, hknown, rfl⟩
  | cons i is ih =>
    obtain ⟨hi, hnodup⟩ := nodup_cons.mp hnodup
    have hne : ∀ v ∈ victim, v ≠ i := fun v hv hvi =>
      hnew v hv (hvi ▸ mem_cons_self)
    have hrest : ∀ v ∈ victim, v ∉ is := fun v hv hm => hnew v hv (mem_cons_of_mem i hm)
    have hback : update (held victim) i .out = held victim := by
      rw [← held_ne hne, update_eq_self]
    refine Safe.bind (safe_onLatch (Latch.cacheWriteTry_safe t) (held_ne hne) ⟨rfl, rfl⟩
      (fun _ _ => trivial)) ?_
    intro granted g _ ⟨q, hq, hg⟩
    subst hq hg
    cases granted with
    | false =>
      simp only [Bool.false_eq_true, if_false, hback]
      exact ih hnodup victim oldest known hrest hknown
    | true =>
      simp only [if_true]
      refine safe_assert ⟨rfl, rfl⟩ ⟨nofun, nofun⟩ (fun _ _ _ => by decide)
        (fun _ hkn hv => ?_)
      refine ⟨.scan n [] (i :: known), trivial, ⟨hkn.1, fun v hm => ?_⟩, ?_⟩
      · rcases mem_cons.mp hm with rfl | hm
        · exact hv
        · exact hkn.2 v hm
      have hknown' : ∀ v ∈ victim, v ∈ i :: known := fun v hm =>
        mem_cons_of_mem i (hknown v hm)
      refine safe_look ⟨rfl, rfl⟩ ⟨nofun, nofun⟩ (fun s G hinv _ hG hkn => ?_)
      refine ⟨.scan n [] (i :: known), trivial, hkn, ?_⟩
      by_cases hold : (s.cache.buffer i).recentAccesses ≤ oldest
      · rw [if_pos hold]
        have hself : ∀ v ∈ some i, v ∈ i :: known := fun v hm =>
          Option.some.inj hm ▸ mem_cons_self
        have hout : ∀ v ∈ some i, v ∉ is := fun v hm => Option.some.inj hm ▸ hi
        cases victim with
        | none => exact ih hnodup (some i) _ (i :: known) hout hself
        | some v =>
          have hvi : v ≠ i := hne v rfl
          refine Safe.bind (cacheWriteEnd_safe ?_ ⟨rfl, rfl⟩ (fun _ => trivial)) ?_
          · show update (held (some v)) i .writer v = .writer
            rw [update_of_ne hvi, held, phaseAt_self]
          · intro _ g _ hg
            subst hg
            rw [held_letGo hvi]
            exact ih hnodup (some i) _ (i :: known) hout hself
      · rw [if_neg hold]
        refine Safe.bind (cacheWriteEnd_safe (update_self ..) ⟨rfl, rfl⟩
          (fun _ => trivial)) ?_
        intro _ g _ hg
        subst hg
        rw [update_idem, hback]
        exact ih hnodup victim oldest (i :: known) hrest hknown'

omit [DecidableEq ι] in
/-- Nobody else has a slot open that the thread owns, if nobody else is inside
    `cache_write_end`. -/
theorem not_opens (hinv : CacheInv strict s G) (hs : strict = true) (ha : Alone strict t G)
    (how : ((G t).phase i).owner = 1) : ¬ ∃ u, u ≠ t ∧ (G u).task.opens i := by
  intro ⟨u, hu, ho⟩
  have hex := hinv.exclusive (Ne.symm hu) how
  have hh := hinv.holds u
  have hends := ha.ending hs u hu
  cases hk : (G u).task with
  | wrote j m d =>
    rw [hk] at hh ho
    have hji : j = i := ho
    have hown : ((G u).phase j).owner = 1 := hh
    rw [hji] at hown
    omega
  | ending j m d =>
    rw [hk] at hends
    cases hends
  | _ =>
    rw [hk] at ho
    exact ho

/-- What `cache_evict` does with the victim: afterwards its contents are on the disk. -/
theorem evictVictim_safe (victim : Option Slot) (known : List Slot)
    (hknown : ∀ v ∈ victim, v ∈ known) :
    Safe (cacheOutline strict) (.find n) t
      (fun v g => g = ⟨phaseAt v .writer, .saved n v⟩)
      (evictVictim victim) ⟨held victim, .scan n [] known⟩ := by
  cases victim with
  | none =>
    refine safe_onCache (f := pure) ⟨rfl, rfl⟩ (fun _ _ _ _ _ _ => ?_)
    rw [meets_stop]
    decide
  | some v =>
    have hv : v ∈ known := hknown v rfl
    have how : (phaseAt v .writer v).owner = 1 := by simp [Phase.owner]
    refine Safe.bind (Q := fun _ g => g = ⟨phaseAt v .writer, .saved n v⟩) ?_
      (fun _ g hd hg => ⟨hd, hg⟩)
    refine safe_look ⟨rfl, rfl⟩ ⟨nofun, nofun⟩ (fun s G hinv ha hG hkn => ?_)
    cases hdirty : (s.cache.buffer v).dirty with
    | true =>
      refine ⟨.scan n [] known, trivial, hkn, ?_⟩
      refine safe_writeOut (k := pure) (w := .saved n v) ⟨rfl, rfl⟩ ⟨nofun, nofun⟩
        how (fun cache h => h.2 v hv) (fun cache h => ?_) ⟨⟨rfl, rfl⟩, rfl⟩
      refine ⟨fun j => h.1 j not_mem_nil, h.2 v hv, fun _ _ => ?_⟩
      show (cache.device.put _ _).sectors _ = _
      rw [Device.put_sectors]
      exact update_self ..
    | false =>
      refine ⟨.saved n v, how, ⟨fun j => hkn.1 j not_mem_nil, hkn.2 v hv, fun hs hz => ?_⟩,
        ⟨rfl, rfl⟩, rfl⟩
      -- a clean slot that nobody has open agrees with the disk
      have hno := not_opens hinv hs ha (i := v) (by rw [hG]; exact how)
      have hb := hinv.backed_at hs (hkn.2 v hv) hz (t := t) (by rw [hG]; exact id) hno
      rw [hdirty] at hb
      exact hb.resolve_left (by decide)

theorem takeSlot_safe :
    Safe (cacheOutline strict) (.find n) t (fun v g => g = ⟨phaseAt v .writer, .saved n v⟩)
      takeSlot ⟨phaseOut, .scan n [] []⟩ := by
  refine Safe.bind (freeEach_safe _) ?_
  intro free g hd hg
  cases free with
  | some v => exact ⟨hd, hg⟩
  | none =>
    subst hg
    refine Safe.bind (evictEach_safe _ (nodup_finRange _) none _ [] (fun _ hv => nomatch hv)
      (fun _ hv => nomatch hv)) ?_
    intro victim g _ ⟨known, hknown, hg⟩
    subst hg
    exact evictVictim_safe victim known hknown

/-- The sector comes into a slot whose old contents are on the disk. -/
theorem importBlock_safe :
    Safe (cacheOutline strict) (.find n) t (fun v g => g = ⟨phaseAt v .reader, .filled n v⟩)
      (importBlock t n) ⟨phaseOut, .scan n [] []⟩ := by
  refine Safe.bind takeSlot_safe ?_
  intro v g _ hg
  subst hg
  refine safe_onCache ⟨rfl, rfl⟩ (fun s G hinv hs hG hkn => ?_)
  obtain ⟨hmiss, hvalid, hdisk⟩ := hkn
  rw [meets_bind, Cache.onDevice, meets_zoom]
  by_cases hin : n < s.cache.device.size
  · rw [meets_ok (blockRead_ok hin), meets_update]
    refine ⟨⟨phaseAt v .writer, .filled n v⟩, ?_, fun hst m d hm _ hsto => ?_, ?_⟩
    · have h := hinv.readIn hs (n := n) (v := v) (by rw [hG]) rfl
      rw [hG] at h
      exact h
    · refine hsto.readIn hinv.blocks hvalid hmiss (fun hn => ?_)
      rw [← hn]
      exact hdisk hst (hn ▸ hm)
    · refine safe_clearDirty (w := .filled n v) ⟨rfl, rfl⟩
        ⟨by simp [Task.fills], by simp [Task.opens]⟩
        (by simp [Task.Holds, Phase.owner, Phase.admitted])
        (fun cache h => by rw [h.2.1]; exact h.2.2) (fun cache h => ?_) ?_
      · simpa [Task.Knows] using h
      · refine safe_touch ⟨rfl, rfl⟩ (fun _ => ⟨rfl, rfl, rfl, rfl, .inr rfl⟩) ?_
        refine Safe.bind (safe_onLatch (Latch.cacheDowngrade_safe t) (phaseAt_self ..) ⟨rfl, rfl⟩ ?_) ?_
        · -- the writer becomes a reader without letting the slot go
          intro q hq
          simp only [update_phaseAt, Task.Holds, phaseAt_self]
          revert q
          decide
        · rintro _ g hd ⟨q, hq, hg⟩
          subst hq hg
          exact ⟨hd, by rw [update_phaseAt]⟩
  · rw [meets_error (blockRead_past_end (Nat.le_of_not_lt hin))]
    decide

/-- `find_block` ends with a read-locked slot that has the sector. -/
theorem findBlock_safe :
    Safe (cacheOutline strict) (.find n) t (fun i g => g = ⟨phaseAt i .reader, .reading i n⟩)
      (findBlock t n) ⟨phaseOut, .scan n (finRange cacheBlocks) []⟩ := by
  refine safe_assert ⟨rfl, rfl⟩ ⟨nofun, nofun⟩ (fun _ _ _ => by decide) (fun _ hkn _ => ?_)
  refine ⟨.scan n (finRange cacheBlocks) [], trivial, hkn, ?_⟩
  refine Safe.bind (Q := fun i g => ∃ k, (k = .reading i n ∨ k = .filled n i) ∧
    g = ⟨phaseAt i .reader, k⟩) ?_ ?_
  · refine Safe.bind (hitEach_safe _) ?_
    intro hit g hd hg
    cases hit with
    | some i => exact ⟨hd, _, .inl rfl, hg⟩
    | none =>
      subst hg
      exact importBlock_safe.mono (fun i g hg => ⟨_, .inr rfl, hg⟩)
  · intro i g hd ⟨k, hk, hg⟩
    subst hg
    refine safe_onCache hd (fun s G hinv _ hG hkn => ?_)
    have hsector : (s.cache.buffer i).sector = n := by
      rcases hk with rfl | rfl
      · exact hkn
      · exact hkn.2.1
    rw [meets_update]
    refine ⟨⟨phaseAt i .reader, .reading i n⟩, ?_, fun _ _ _ _ _ hst => hst, ?_⟩
    · refine hinv.keep ⟨rfl, fun _ => rfl, fun _ => rfl, fun _ => rfl, fun _ => .inr rfl⟩ rfl
        (by rw [hG]) (by simp [Task.Holds, Phase.admitted]) hsector ?_ ?_ <;>
      rw [hG] <;> rcases hk with rfl | rfl <;> exact fun _ hj => hj.elim
    · exact safe_touch ⟨rfl, rfl⟩ (fun _ => ⟨rfl, rfl, rfl, rfl, .inr rfl⟩) ⟨⟨rfl, rfl⟩, rfl⟩

/-- What a pass of `refresh_cache` has between two slots. -/
def BetweenSlots (g : CacheGhost) : Prop :=
  g.phase = phaseOut ∧ (g.task = .none ∨ ∃ i, g.task = .seen i)

/-- A dirty block goes to the disk before its dirty bit is cleared. -/
theorem cleanSlot_safe (i : Slot) :
    Safe (cacheOutline strict) .refresh t
      (fun _ g => g = ⟨phaseAt i .reader, .seen i⟩) (cleanSlot i) ⟨phaseAt i .reader, .seen i⟩ := by
  refine safe_look ⟨rfl, rfl, rfl⟩ ⟨nofun, nofun⟩ (fun s G hinv _ hG hkn => ?_)
  refine ⟨.seen i, trivial, hkn, ?_⟩
  cases (s.cache.buffer i).dirty with
  | false => exact ⟨⟨rfl, rfl, rfl⟩, rfl⟩
  | true =>
    refine safe_writeOut (w := .flushed i) ⟨rfl, rfl, rfl⟩ ⟨nofun, nofun⟩
      (by simp [Task.Holds, Phase.admitted]) (fun cache h => h) (fun cache h => ⟨h, ?_⟩) ?_
    · show (cache.device.put _ _).sectors _ = _
      rw [Device.put_sectors]
      exact update_self ..
    · -- nobody changes the block while this thread reads it
      exact safe_clearDirty (k := pure) (w := .seen i) ⟨rfl, rfl, rfl⟩
        ⟨nofun, nofun⟩ trivial (fun cache h => h.2)
        (fun cache h => by simpa [Task.Knows] using h.1) ⟨⟨rfl, rfl, rfl⟩, rfl⟩

theorem refreshSlot_safe (i : Slot) (hg : BetweenSlots g) :
    Safe (cacheOutline strict) .refresh t (fun _ => BetweenSlots) (refreshSlot t i) g := by
  obtain ⟨φ, k⟩ := g
  obtain ⟨rfl, hk⟩ : φ = phaseOut ∧ _ := hg
  have hsuits : CacheCall.refresh.Suits k := by
    rcases hk with rfl | ⟨j, rfl⟩ <;> exact ⟨rfl, rfl, rfl⟩
  have hplain : k.Plain := by
    rcases hk with rfl | ⟨j, rfl⟩ <;> exact ⟨nofun, nofun⟩
  refine safe_look hsuits hplain (fun s _ _ _ _ _ => ?_)
  cases hv : (s.cache.buffer i).valid with
  | false => exact ⟨.none, trivial, trivial, ⟨rfl, rfl, rfl⟩, rfl, .inl rfl⟩
  | true =>
    refine ⟨.seen i, trivial, hv, ?_⟩
    refine Safe.bind (safe_onLatch (Latch.cacheReadTry_safe t) rfl ⟨rfl, rfl, rfl⟩
      (fun _ _ => trivial)) ?_
    intro granted g hd ⟨q, hq, hg⟩
    subst hq hg
    cases granted with
    | false => exact ⟨hd, by simp [BetweenSlots]⟩
    | true =>
      refine Safe.bind (cleanSlot_safe i) ?_
      intro _ g _ hg
      subst hg
      refine Safe.mono (safe_onLatch (Latch.cacheReadEnd_safe t) (phaseAt_self ..)
        ⟨rfl, rfl, rfl⟩ (fun _ _ => trivial)) ?_
      intro _ g ⟨q, hq, hg⟩
      subst hq hg
      simp [BetweenSlots]

theorem refreshEach_safe (slots : List Slot) (hg : BetweenSlots g) :
    Safe (cacheOutline strict) .refresh t (fun _ => BetweenSlots) (refreshEach t slots) g := by
  induction slots generalizing g with
  | nil =>
    refine ⟨?_, hg⟩
    rcases hg.2 with hk | ⟨j, hk⟩ <;> simp [cacheOutline, CacheCall.Suits, hk, Task.finds,
      Task.upgrades, Task.ends]
  | cons i is ih => exact Safe.bind (refreshSlot_safe i hg) (fun _ _ _ hg' => ih hg')

/-- `cache_write_end` of a write section: the slot is let go first and marked dirty then. -/
theorem endSection_safe (i : Slot) (d : Sector) :
    Safe (cacheOutline strict) (.writeEnd i n d) t (fun _ g => g = ⟨phaseOut, .ended i n d⟩)
      (cacheWriteEnd i) ⟨phaseAt i .writer, .ending i n d⟩ := by
  refine Safe.bind (safe_onLatch (Latch.cacheWriteEnd_safe t) (phaseAt_self ..) ⟨rfl, rfl⟩
    (fun _ _ => trivial)) ?_
  intro _ g _ ⟨q, hq, hg⟩
  subst hq hg
  refine safe_onCache (f := pure) ⟨rfl, rfl⟩ (fun s G hinv _ hG hkn => ?_)
  have hkeeps : Cache.Keeps s.cache
      (Cache.setSlot i (fun blk => { blk with dirty := true }) s.cache) :=
    Cache.keeps_setSlot i _ s.cache rfl rfl rfl (.inl rfl)
  rw [meets_update]
  refine ⟨⟨phaseOut, .ended i n d⟩, ?_, fun _ _ _ _ _ hst => hst.keeps hkeeps, ⟨rfl, rfl⟩, rfl⟩
  refine hinv.keep hkeeps ?_ ?_ trivial (fun hs => ?_) ?_ ?_
  · rw [Cache.locks_setSlot]
    exact update_eq_self i _
  · rw [hG, update_phaseAt, phaseAt_out]
  · obtain ⟨hsector, hdata⟩ := hkn hs
    simp [hsector, hdata]
  · rw [hG]
    exact fun _ hj => hj.elim
  · rw [hG]
    intro j hj
    have hji : i = j := hj
    rw [← hji, Cache.setSlot_same]
    exact .inr rfl

end Functions

end SharedCache

/-! ### The calls -/

/-- The ghosts with which a call is entered. -/
def CacheCall.Enters : CacheCall → CacheGhost → Prop
  | .find n, g => g = ⟨phaseOut, .scan n (finRange cacheBlocks) []⟩
  | .readEnd i _, g => g = ⟨phaseAt i .reader, .none⟩
  | .upgrade i n, g => g = ⟨phaseAt i .reader, .upgrading i n⟩
  | .change i n _, g => g = ⟨phaseAt i .writer, .writing i n⟩ ∨
      ∃ d, g = ⟨phaseAt i .writer, .wrote i n d⟩
  | .writeEnd i n d, g => g = ⟨phaseAt i .writer, .ending i n d⟩
  | .refresh, g => g = ⟨phaseOut, .none⟩

section Calls

variable {strict : Bool} {t : ι}

/-- New contents for the slot of a write section. -/
theorem change_safe {n : Nat} {d : Sector} (hg : (CacheCall.change i n d).Enters g) :
    Safe (cacheOutline strict) (.change i n d) t (CacheCall.Done (.change i n d))
      (CacheCall.code t (.change i n d)) g := by
  have hphase : g.phase = phaseAt i .writer := by
    rcases hg with rfl | ⟨d', rfl⟩ <;> rfl
  have hsuits : (CacheCall.change i n d).Suits g.task := by
    rcases hg with rfl | ⟨d', rfl⟩ <;> exact ⟨rfl, rfl, rfl⟩
  refine safe_onCache hsuits (fun s G hinv hs hG hkn => ?_)
  have hsector : strict = true → (s.cache.buffer i).sector = n := by
    rcases hg with rfl | ⟨d', rfl⟩
    · exact hkn
    · exact fun hst => (hkn hst).1
  rw [meets_update]
  refine ⟨⟨g.phase, .wrote i n d⟩, ?_, fun hst m d' _ hm hsto => ?_, ⟨rfl, rfl, rfl⟩, rfl, ?_⟩
  · have h := hinv.change hs (i := i) (n := n) (d := d)
      (by rw [hG, hphase]; simp [Phase.owner]) hsector ?_ ?_ rfl
    · rw [hG] at h
      exact h
    · rw [hG]
      rcases hg with rfl | ⟨d', rfl⟩ <;> exact fun _ => id
    · rw [hG]
      rcases hg with rfl | ⟨d', rfl⟩
      · exact fun _ hj => hj.elim
      · exact fun _ hj => Eq.symm hj
  · -- the slot of the section has another sector
    exact hsto.setSlot rfl rfl (fun hn => absurd ((hsector hst).symm.trans hn) hm)
  · rw [hphase]

/-- **Every call** keeps the outline. -/
theorem CacheCall.code_safe (c : CacheCall) (hg : c.Enters g) :
    Safe (cacheOutline strict) c t c.Done (c.code t) g := by
  cases c with
  | find n =>
    subst hg
    refine Safe.bind SharedCache.findBlock_safe ?_
    intro i g hd hg
    exact ⟨hd, i, rfl, hg⟩
  | readEnd i n =>
    subst hg
    refine Safe.bind (safe_onLatch (Latch.cacheReadEnd_safe t) (phaseAt_self ..) ⟨rfl, rfl, rfl⟩
      (fun _ _ => trivial)) ?_
    intro _ g hd ⟨q, hq, hg⟩
    subst hq hg
    exact ⟨hd, rfl, by simp⟩
  | upgrade i n =>
    subst hg
    refine Safe.bind (safe_onLatch (Latch.cacheUpgrade_safe t) (phaseAt_self ..) ⟨rfl, rfl⟩
      (fun _ _ => trivial)) ?_
    intro _ g hd ⟨q, hq, hg⟩
    subst hq hg
    exact ⟨hd, rfl, by simp⟩
  | change i n d => exact change_safe hg
  | writeEnd i n d =>
    subst hg
    exact Safe.bind (SharedCache.endSection_safe i d) (fun _ _ hd hg => ⟨hd, rfl, hg⟩)
  | refresh =>
    subst hg
    exact Safe.bind (SharedCache.refreshEach_safe _ ⟨rfl, .inl rfl⟩)
      (fun _ _ hd hg => ⟨hd, rfl, hg⟩)

end Calls

end KernelSanders
