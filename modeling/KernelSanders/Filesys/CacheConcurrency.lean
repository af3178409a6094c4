import KernelSanders.Filesys.CacheSafety
import KernelSanders.Filesys.ReadAhead

namespace KernelSanders

open Lib Cache
open Lib.Exec hiding update
open Function

/-!
# What concurrent sections of the cache can rely on

Nothing serialises `find_block`, and `cache_write_end` gives the slot away before it marks it
dirty.  Two conditions on the run make up for it:

* `OneFinder` — at most one thread at a time is inside `find_block`.  Then no two valid slots have
  one sector, and `find_block` returns a read-locked slot with the sector asked for
  (`findBlock_one_slot`);
* `Orderly` — besides, `find_block` does not run while somebody upgrades, and nobody else acts
  while a thread is inside `cache_write_end`.  Then no completed write section is lost
  (`writeSection_stored`).

Without them both fail, on schedules of two threads.
-/

variable {ι : Type}

/-! ### Conditions on where the threads stand -/

def finding : Place CacheCall CacheRole → Bool
  | .inside (.find _) => true
  | _ => false

def upgrading : Place CacheCall CacheRole → Bool
  | .inside (.upgrade _ _) => true
  | _ => false

def ending : Place CacheCall CacheRole → Bool
  | .inside (.writeEnd _ _ _) => true
  | _ => false

/-- At most one thread is inside `find_block`. -/
def OneFinder (q : ι → Place CacheCall CacheRole) : Prop :=
  ∀ u v, finding (q u) = true → finding (q v) = true → u = v

/-- Thread `t` may act: it is the only one inside `find_block` and does not overlap an upgrade
    there, and nobody else is inside `cache_write_end`. -/
structure Orderly (t : ι) (q : ι → Place CacheCall CacheRole) : Prop where
  find : OneFinder q
  upgrade : finding (q t) = true → ∀ u, upgrading (q u) = false
  ending : ∀ u, u ≠ t → ending (q u) = false

/-- A cache as it is between sections: no lock is taken, and no two valid slots have a sector. -/
structure AtRest (c : Cache) : Prop where
  idle : Cache.Idle c
  blocks : Blocks c (fun _ => False)

theorem atRest_cacheInit (device : Device) (buffer : Slot → CacheBlock) (nextBlock : Nat) :
    AtRest (Cache.cacheInit device buffer nextBlock) where
  idle := rfl
  blocks := by
    refine ⟨fun i j hi => ?_, fun _ _ => rfl, fun i j _ hj => ?_⟩
    · cases hi
    · cases hj

variable [Fintype ι] [DecidableEq ι] {c : Cache}

/-! ### From places to ghosts -/

section Lift

variable {strict : Bool} {p : Pool ι (SharedCache ι) CacheCall CacheRole} {G : ι → CacheGhost}
  {s : SharedCache ι} {t : ι} {r : CacheRole}

section

variable (hG : Good (cacheOutline strict) p G)
include hG

/-- Where a thread stands says which tasks it can have. -/
theorem place_suits (u : ι) :
    (∃ r : CacheRole, G u = r.ghost) ∨
      ∃ c : CacheCall, p.places u = .inside c ∧ c.Suits (G u).task := by
  have hst := hG.stands u
  cases hplace : p.places u with
  | idle r =>
    rw [Pool.thread_of_idle hplace] at hst
    exact .inl ⟨r, hst⟩
  | inside c =>
    obtain ⟨x, hx⟩ := Pool.thread_of_inside hplace
    rw [hx] at hst
    exact .inr ⟨c, rfl, hst.during⟩

/-- What a thread is about goes with the call that it is inside. -/
theorem place_of_task (u : ι) :
    ((G u).task.finds = true → finding (p.places u) = true) ∧
      ((G u).task.upgrades = true → upgrading (p.places u) = true) ∧
      ((G u).task.ends = true → ending (p.places u) = true) := by
  rcases place_suits hG u with ⟨r, hg⟩ | ⟨c, hplace, hd⟩
  · rw [hg]
    cases r <;> exact ⟨nofun, nofun, nofun⟩
  · rw [hplace]
    cases c <;> simp_all [CacheCall.Suits, finding, upgrading, ending]

/-- The conditions on the run are what the outline assumes. -/
theorem alone_of_places (hfind : OneFinder p.places)
    (hstrict : strict = true → Orderly t p.places) : Alone strict t G where
  find ht u hu := by
    by_contra hn
    have hfinds := (place_of_task hG u).1 (eq_true_of_ne_false hn)
    exact hu (hfind u t hfinds ((place_of_task hG t).1 ht))
  upgrade hs ht u _ := by
    by_contra hn
    have h := (hstrict hs).upgrade ((place_of_task hG t).1 ht) u
    rw [(place_of_task hG u).2.1 (eq_true_of_ne_false hn)] at h
    cases h
  ending hs u hu := by
    by_contra hn
    have h := (hstrict hs).ending u hu
    rw [(place_of_task hG u).2.2 (eq_true_of_ne_false hn)] at h
    cases h

end

/-- A change of task between two actions. -/
theorem CacheInv.retask {g : CacheGhost} {k : Task} (h : CacheInv strict s G) (hg : G t = g)
    (hholds : k.Holds g.phase) (hknows : g.task.Knows strict s.cache → k.Knows strict s.cache)
    (hfills : ∀ j, ¬ g.task.fills j) (hopens : ∀ j, g.task.opens j → k.opens j) :
    CacheInv strict s (update G t ⟨g.phase, k⟩) := by
  subst hg
  exact h.keep (Cache.Keeps.refl _) rfl rfl hholds (hknows (h.knows t))
    (fun j hj => absurd hj (hfills j)) (fun j hj => .inl (hopens j hj))

/-- A thread enters a call that its section allows. -/
theorem enters_of_mayCall {c : CacheCall} (h : CacheInv strict s G) (hg : G t = r.ghost)
    (ha : r.mayCall c = true) : ∃ g, CacheInv strict s (update G t g) ∧ c.Enters g := by
  have hsame : CacheInv strict s (update G t r.ghost) := by
    rw [← hg, update_eq_self]
    exact h
  cases r with
  | out =>
    cases c with
    | find n =>
      refine ⟨_, h.retask hg (k := .scan n (List.finRange cacheBlocks) []) trivial (fun _ => ?_)
        (fun _ => id) (fun _ hj => hj.elim), rfl⟩
      exact ⟨fun i hi => absurd (List.mem_finRange i) hi, fun _ hv => nomatch hv⟩
    | refresh => exact ⟨_, hsame, rfl⟩
    | _ => cases ha
  | reading i n =>
    cases c with
    | readEnd i' n' =>
      obtain ⟨rfl, rfl⟩ : i = i' ∧ n = n' := by simpa [CacheRole.mayCall] using ha
      exact ⟨_, h.retask hg (k := .none) trivial (fun _ => trivial) (fun _ => id)
        (fun _ hj => hj.elim), rfl⟩
    | upgrade i' n' =>
      obtain ⟨rfl, rfl⟩ : i = i' ∧ n = n' := by simpa [CacheRole.mayCall] using ha
      exact ⟨_, h.retask hg (k := .upgrading i n) trivial (fun hk _ => hk) (fun _ => id)
        (fun _ hj => hj.elim), rfl⟩
    | _ => cases ha
  | writing i n =>
    cases c with
    | change i' n' d =>
      obtain ⟨rfl, rfl⟩ : i = i' ∧ n = n' := by simpa [CacheRole.mayCall] using ha
      exact ⟨_, hsame, .inl rfl⟩
    | _ => cases ha
  | wrote i n d =>
    cases c with
    | change i' n' d' =>
      obtain ⟨rfl, rfl⟩ : i = i' ∧ n = n' := by simpa [CacheRole.mayCall] using ha
      exact ⟨_, hsame, .inr ⟨d, rfl⟩⟩
    | writeEnd i' n' d' =>
      obtain ⟨⟨rfl, rfl⟩, rfl⟩ : (i = i' ∧ n = n') ∧ d = d' := by
        simpa [CacheRole.mayCall] using ha
      exact ⟨_, h.retask hg (k := .ending i n d) trivial (fun hk => hk) (fun _ => id)
        (fun _ hj => hj), rfl⟩
    | _ => cases ha

/-- A thread returns from a call. -/
theorem home_of_done {c : CacheCall} (h : CacheInv strict s G) (hd : c.Done r (G t)) :
    ∃ g, CacheInv strict s (update G t g) ∧ g = r.ghost := by
  have hsame : CacheInv strict s (update G t (G t)) := by
    rw [update_eq_self]
    exact h
  cases c with
  | find n =>
    obtain ⟨i, rfl, hg⟩ := hd
    exact ⟨_, hsame, hg⟩
  | readEnd i n | change i n d =>
    obtain ⟨rfl, hg⟩ := hd
    exact ⟨_, hsame, hg⟩
  | upgrade i n =>
    obtain ⟨rfl, hg⟩ := hd
    refine ⟨_, h.retask hg (k := .writing i n) ?_ (fun hk => hk) (fun _ => id)
      (fun _ hj => hj.elim), rfl⟩
    simp [Task.Holds, Phase.owner]
  | writeEnd i n d =>
    obtain ⟨rfl, hg⟩ := hd
    exact ⟨_, h.retask hg (k := .none) trivial (fun _ => trivial) (fun _ => id)
      (fun _ hj => hj.elim), rfl⟩
  | refresh =>
    obtain ⟨rfl, hphase, htask⟩ := hd
    refine ⟨_, h.retask rfl (k := .none) trivial (fun _ => trivial) ?_ ?_, by rw [hphase]; rfl⟩
    · rcases htask with hk | ⟨i, hk⟩ <;> rw [hk] <;> exact fun _ => id
    · rcases htask with hk | ⟨i, hk⟩ <;> rw [hk] <;> exact fun _ hj => hj.elim

theorem cache_lifts {C : ι → (ι → Place CacheCall CacheRole) → Prop}
    (hfind : ∀ t q, C t q → OneFinder q) (hstrict : strict = true → ∀ t q, C t q → Orderly t q) :
    Lifts (cacheOutline strict) cacheSystem C where
  sched _ _ t hG hC := alone_of_places hG (hfind t _ hC) (fun hs => hstrict hs t _ hC)
  call p G t r c hG hth ha _ := by
    have hst := hG.stands t
    rw [hth] at hst
    obtain ⟨g, hinv, hg⟩ := enters_of_mayCall hG.inv hst ha
    exact ⟨g, hinv, CacheCall.code_safe c hg⟩
  ret s G t c r hinv hd := home_of_done hinv hd

theorem good_cachePool (hq : AtRest c) (hb : strict = true → Backed c (fun _ => False)) :
    ∃ G, Good (cacheOutline strict) (cachePool c : Pool ι _ CacheCall CacheRole) G := by
  refine ⟨fun _ => ⟨phaseOut, .none⟩, ⟨fun i => ?_, fun _ => trivial, fun _ => trivial, ?_,
    fun hs i hi hz _ => hb hs i hi hz id⟩, fun _ => rfl⟩
  · have hfree : SharedCache.latch i (cachePool c : Pool ι _ CacheCall CacheRole).shared
        = Latch.free := by
      have hl : (c.buffer i).lock = RwLock.free := congrFun hq.idle i
      rw [SharedCache.latch, Latch.free, ← hl]
      rfl
    rw [hfree]
    exact good_rwPool.inv
  · exact hq.blocks.mono (fun _ hf => hf.elim)

end Lift

/-! ### One slot for a sector -/

omit [Fintype ι] in
/-- The condition on the run holds at its end. -/
theorem oneFinder_of_run {p : Pool ι (SharedCache ι) CacheCall CacheRole}
    (h : Run cacheSystem (fun _ => OneFinder) (cachePool c) p) : OneFinder p.places := by
  rcases Relation.ReflTransGen.cases_tail h with rfl | ⟨_, -, _, -, hc⟩
  · exact fun u v hu => nomatch hu
  · exact hc

/-- **One slot per sector.** In every run in which at most one thread at a time is inside
    `find_block`, no two valid slots have one sector, the assertion in `find_block` does not fail,
    and a thread that `find_block` has returned to has a read-locked slot with its sector. -/
theorem findBlock_one_slot {c : Cache} (hq : AtRest c)
    {p : Pool ι (SharedCache ι) CacheCall CacheRole}
    (h : Run cacheSystem (fun _ => OneFinder) (cachePool c) p) :
    (∀ i j, (p.shared.cache.buffer i).valid = true → (p.shared.cache.buffer j).valid = true →
        (p.shared.cache.buffer i).sector = (p.shared.cache.buffer j).sector → i = j) ∧
      (∀ t, p.next t ≠ .error (.panic "buffer[i].sector == sector")) ∧
        ∀ t i n, p.places t = .idle (.reading i n) → (p.shared.cache.buffer i).sector = n ∧
          1 ≤ (p.shared.cache.buffer i).lock.b ∧ (p.shared.cache.buffer i).lock.g = 0 := by
  have hl : Lifts (cacheOutline false) (cacheSystem : System ι _ _ _) (fun _ => OneFinder) :=
    cache_lifts (fun _ _ hc => hc) nofun
  obtain ⟨G, hG⟩ := run_good hl h (good_cachePool hq nofun)
  refine ⟨hG.inv.blocks.inj, fun t hstop => ?_, fun t i n hplace => ?_⟩
  · have hs := alone_of_places hG (t := t) (oneFinder_of_run h) nofun
    cases hplace : p.places t with
    | idle r =>
      rw [Pool.next, Pool.thread_of_idle hplace] at hstop
      cases hstop
    | inside c' =>
      obtain ⟨x, hx⟩ := Pool.thread_of_inside hplace
      exact hG.stop hs hx hstop rfl
  · have hst := hG.stands t
    rw [Pool.thread_of_idle hplace] at hst
    have hg : G t = ⟨phaseAt i .reader, .reading i n⟩ := hst
    have hkn := hG.inv.knows t
    rw [hg] at hkn
    -- the reader is counted and admitted
    have hlock := hG.inv.locks i
    have hphase : (G t).phase i = .reader := by
      rw [hg]
      exact phaseAt_self i .reader
    have hcounted := le_total (f := Phase.counted) (G := fun u => (G u).phase i) t
    have hadmitted := le_total (f := Phase.admitted) (G := fun u => (G u).phase i) t
    rw [hphase] at hcounted hadmitted
    have hb : (p.shared.cache.buffer i).lock.b = total Phase.counted _ := hlock.b
    have hsem : (p.shared.cache.buffer i).lock.g + total Phase.owner _
      + min 1 (total Phase.admitted _) = 1 := hlock.g
    simp only [Phase.counted, Phase.admitted] at hcounted hadmitted
    exact ⟨hkn, by omega, by omega⟩

instance (q : ι → Place CacheCall CacheRole) : Decidable (OneFinder q) :=
  inferInstanceAs (Decidable (∀ u v, finding (q u) = true → finding (q v) = true → u = v))

/-- Two threads find one sector, one after the other. -/
def sharingMoves : List (Move (Fin 2) CacheCall) :=
  [.call 0 (.find 5), .go 0 999, .call 1 (.find 5), .go 1 999]

theorem findBlock_one_slot_shared :
    ∃ p : Pool (Fin 2) (SharedCache (Fin 2)) CacheCall CacheRole,
      AtRest blankCache ∧ Run cacheSystem (fun _ => OneFinder) (cachePool blankCache) p ∧
        p.places 0 = .idle (.reading ⟨0, by decide⟩ 5) ∧
        p.places 1 = .idle (.reading ⟨0, by decide⟩ 5) ∧
        (p.shared.cache.buffer ⟨0, by decide⟩).sector = 5 ∧
        1 ≤ (p.shared.cache.buffer ⟨0, by decide⟩).lock.b := by
  have hplay : ((cachePool blankCache).play cacheSystem (fun _ => OneFinder) sharingMoves).map
      (fun p => (p.places 0, p.places 1))
        = some (.idle (.reading ⟨0, by decide⟩ 5), .idle (.reading ⟨0, by decide⟩ 5)) := by
    decide +kernel
  obtain ⟨p, hp, hplaces⟩ := Option.map_eq_some_iff.mp hplay
  obtain ⟨h₀, h₁⟩ := Prod.mk.inj hplaces
  have hrest : AtRest blankCache := atRest_cacheInit _ _ _
  have hrun := run_of_play hp
  obtain ⟨hsector, hb, -⟩ := (findBlock_one_slot hrest hrun).2.2 0 _ 5 h₀
  exact ⟨p, hrest, hrun, h₀, h₁, hsector, hb⟩

/-- Both threads have seen that no slot has the sector before one of them brings it in. -/
def twoMisses : List (Move (Fin 2) CacheCall) :=
  [.call 0 (.find 5), .go 0 65, .call 1 (.find 5), .go 1 65, .go 0 999, .go 1 999]

/-- Thread `0` has seen sector number `0` in a slot that thread `1` then fills. -/
def recycledHit : List (Move (Fin 2) CacheCall) :=
  [.call 0 (.find 0), .go 0 2, .call 1 (.find 5), .go 1 999, .go 0 4]

/-- Two calls of `find_block` that overlap can give two slots to one sector, and can fail the
    assertion. -/
theorem findBlock_overlaps :
    (∃ p : Pool (Fin 2) (SharedCache (Fin 2)) CacheCall CacheRole,
      Run cacheSystem (fun _ _ => True) (cachePool blankCache) p ∧
        ∃ i j, i ≠ j ∧ (p.shared.cache.buffer i).valid = true ∧
          (p.shared.cache.buffer j).valid = true ∧
          (p.shared.cache.buffer i).sector = (p.shared.cache.buffer j).sector) ∧
      ∃ p : Pool (Fin 2) (SharedCache (Fin 2)) CacheCall CacheRole,
        Run cacheSystem (fun _ _ => True) (cachePool blankCache) p ∧
          ∃ t, p.next t = .error (.panic "buffer[i].sector == sector") := by
  have h₁ : ((cachePool blankCache).play cacheSystem (fun _ _ => True) twoMisses).map
      (fun p => decide ((p.shared.cache.buffer ⟨0, by decide⟩).valid = true ∧
        (p.shared.cache.buffer ⟨1, by decide⟩).valid = true ∧
        (p.shared.cache.buffer ⟨0, by decide⟩).sector =
          (p.shared.cache.buffer ⟨1, by decide⟩).sector)) = some true := by
    decide +kernel
  have h₂ : ((cachePool blankCache).play cacheSystem (fun _ _ => True) recycledHit).map
      (fun p => match p.next 0 with
        | .error e => some e
        | .ok _ => none) = some (some (.panic "buffer[i].sector == sector")) := by
    decide +kernel
  obtain ⟨p₁, hp₁, hs₁⟩ := Option.map_eq_some_iff.mp h₁
  obtain ⟨p₂, hp₂, hs₂⟩ := Option.map_eq_some_iff.mp h₂
  refine ⟨⟨p₁, run_of_play hp₁, _, _, by decide, of_decide_eq_true hs₁⟩, p₂, run_of_play hp₂, 0,
    ?_⟩
  cases hn : p₂.next 0 with
  | ok p' =>
    rw [hn] at hs₂
    cases hs₂
  | error e =>
    rw [hn] at hs₂
    exact congrArg Except.error (Option.some.inj hs₂)

/-! ### Completed write sections -/

/-- **No completed write section is lost.** In every orderly run, once `cache_write_end` of a write
    section on a sector other than `0` has returned, and as long as nobody puts new contents into a
    block of that sector, what the section wrote is in the slot that has the sector, which is dirty
    or agrees with the disk, or it is on the disk and no slot has the sector. -/
theorem writeSection_stored {c : Cache} (hq : AtRest c) (hb : Backed c (fun _ => False))
    {p₁ p₂ p₃ : Pool ι (SharedCache ι) CacheCall CacheRole} {t : ι} {i : Slot} {s : Nat}
    {d : Sector} (hs : s ≠ 0) (h₁ : Run cacheSystem Orderly (cachePool c) p₁)
    (hin : p₁.places t = .inside (.writeEnd i s d)) (hret : p₁.next t = .ok p₂)
    (hout : p₂.places t = .idle .out) (hC : Orderly t p₂.places)
    (h₃ : Run cacheSystem
      (fun u q => Orderly u q ∧ ∀ v j d', q v ≠ .inside (.change j s d')) p₂ p₃) :
    Stored p₃.shared.cache s d := by
  have hl : Lifts (cacheOutline true) (cacheSystem : System ι _ _ _) Orderly :=
    cache_lifts (fun _ _ hc => hc.find) (fun _ _ _ hc => hc)
  have hl' : Lifts (cacheOutline true) (cacheSystem : System ι _ _ _)
      (fun u q => Orderly u q ∧ ∀ v j d', q v ≠ .inside (.change j s d')) :=
    cache_lifts (fun _ _ hc => hc.1.find) (fun _ _ _ hc => hc.1)
  obtain ⟨G, hG⟩ := run_good hl h₁ (good_cachePool hq (fun _ => hb))
  have hgood := (hG.step hl (.next hret) hC).1
  obtain ⟨x, hx⟩ := Pool.thread_of_inside hin
  rcases Pool.next_ok hret with ⟨c', r, hth, rfl⟩ | ⟨c', β, a, k, b, s', hth, -, rfl⟩
  · -- at its return the section knows what the slot has
    rw [hx] at hth
    cases hth
    have hst := hG.stands t
    rw [hx] at hst
    obtain ⟨-, hg⟩ : _ ∧ G t = ⟨phaseOut, .ended i s d⟩ := hst.2
    have hkn := hG.inv.knows t
    rw [hg] at hkn
    obtain ⟨hsector, hdata, hdirty⟩ := hkn rfl
    have hvalid : (p₁.shared.cache.buffer i).valid = true := by
      by_contra hn
      exact hs (hsector.symm.trans (hG.inv.blocks.blank i (eq_false_of_ne_true hn)))
    refine run_keeps (K := fun s' => Stored s'.cache s d) hl' ?_ h₃ hgood
      (.inl ⟨i, hvalid, hsector, hdata, .inl hdirty⟩)
    intro q u c' s₁ s₂ hcond hinside hch hK
    refine hch rfl s d hs ?_ hK
    cases c' with
    | change j n d' =>
      intro hn
      subst hn
      exact hcond.2 u j d' hinside
    | _ => trivial
  · rw [Pool.places_act s' hth, hin] at hout
    cases hout

instance (t : ι) (q : ι → Place CacheCall CacheRole) : Decidable (Orderly t q) :=
  decidable_of_iff (OneFinder q ∧ (finding (q t) = true → ∀ u, upgrading (q u) = false) ∧
    ∀ u, u ≠ t → ending (q u) = false)
    ⟨fun h => ⟨h.1, h.2.1, h.2.2⟩, fun h => ⟨h.1, h.2, h.3⟩⟩

/-- A sector of ones. -/
def ones : Sector := fun _ => 1

/-- The last slot. -/
def lastSlot : Slot := ⟨63, by decide⟩

/-- A full cache: what read sections on the sectors `1` to `64`, one after the other, leave of a
    new one.  The free scans have marked every slot but the last one dirty. -/
def fullCache : Cache where
  device := blankDevice
  buffer i := { blankBlock with
    valid := true, sector := i.val + 1, dirty := decide (i ≠ lastSlot), accessed := true,
    recentAccesses := 1#64 <<< 63 }
  readAhead := true
  nextBlock := 65

theorem atRest_fullCache : AtRest fullCache where
  idle := rfl
  blocks := by
    refine ⟨fun i j _ _ he => ?_, fun i hi => ?_, fun i j hi => ?_⟩
    · exact Fin.ext (Nat.succ.inj he)
    · cases hi
    · cases hi

theorem backed_fullCache : Backed fullCache (fun _ => False) := fun _ _ _ _ => .inr rfl

/-- A write section on sector `64`, up to the return of `cache_write_end`. -/
def writeMoves : List (Move (Fin 2) CacheCall) :=
  [.call 0 (.find 64), .go 0 999, .call 0 (.upgrade lastSlot 64), .go 0 999,
    .call 0 (.change lastSlot 64 ones), .go 0 999, .call 0 (.writeEnd lastSlot 64 ones), .go 0 2]

/-- Afterwards the slot is recycled, and the cache is refreshed. -/
def laterMoves : List (Move (Fin 2) CacheCall) :=
  [.call 1 (.find 80), .go 1 2000, .call 0 .refresh, .go 0 2000]

/-- Nobody puts new contents into a block of sector `s`. -/
def unchanged (s : Nat) : Place CacheCall CacheRole → Bool
  | .inside (.change _ n _) => n != s
  | _ => true

theorem ne_change_of_unchanged {s : Nat} {q : Place CacheCall CacheRole}
    (h : unchanged s q = true) (j : Slot) (d : Sector) : q ≠ .inside (.change j s d) := by
  intro hq
  rw [hq] at h
  simp [unchanged] at h

theorem writeSection_stored_recycled :
    ∃ p : Pool (Fin 2) (SharedCache (Fin 2)) CacheCall CacheRole,
      AtRest fullCache ∧ Backed fullCache (fun _ => False) ∧
        p.places 1 = .idle (.reading lastSlot 80) ∧ Stored p.shared.cache 64 ones := by
  have hplay : ((cachePool fullCache).play cacheSystem Orderly writeMoves).bind (fun p₁ =>
      (p₁.next 0).toOption.bind (fun p₂ => (p₂.play cacheSystem (fun u q => Orderly u q ∧
        ∀ v, unchanged 64 (q v) = true) laterMoves).map (fun p₃ =>
          (p₁.places 0, p₂.places 0, decide (Orderly 0 p₂.places), p₃.places 1))))
        = some (Place.inside (.writeEnd lastSlot 64 ones), Place.idle .out, true,
          Place.idle (.reading lastSlot 80)) := by
    decide +kernel
  obtain ⟨p₁, hp₁, hplay⟩ := Option.bind_eq_some_iff.mp hplay
  obtain ⟨p₂, hp₂, hplay⟩ := Option.bind_eq_some_iff.mp hplay
  obtain ⟨p₃, hp₃, hobs⟩ := Option.map_eq_some_iff.mp hplay
  obtain ⟨hin, hobs⟩ := Prod.mk.inj hobs
  obtain ⟨hout, hobs⟩ := Prod.mk.inj hobs
  obtain ⟨horderly, hfound⟩ := Prod.mk.inj hobs
  have hlater : Run cacheSystem
      (fun u q => Orderly u q ∧ ∀ v j d, q v ≠ .inside (.change j 64 d)) p₂ p₃ :=
    (run_of_play hp₃).mono (fun _ _ hc => ⟨hc.1, fun v => ne_change_of_unchanged (hc.2 v)⟩)
  exact ⟨p₃, atRest_fullCache, backed_fullCache, hfound,
    writeSection_stored atRest_fullCache backed_fullCache (by decide) (run_of_play hp₁) hin
      (Pool.next_of_toOption hp₂) hout (of_decide_eq_true horderly) hlater⟩

/-- Thread `1` recycles the slot between the two actions of `cache_write_end`. -/
def lostMoves : List (Move (Fin 2) CacheCall) :=
  [.call 0 (.find 64), .go 0 999, .call 0 (.upgrade lastSlot 64), .go 0 999,
    .call 0 (.change lastSlot 64 ones), .go 0 999, .call 1 (.find 80), .go 1 318,
    .call 0 (.writeEnd lastSlot 64 ones), .go 0 1, .go 1 2000, .go 0 1]

/-- An eviction between the release of the semaphore and the assignment of the dirty bit finds
    the slot clean and drops what the section wrote. -/
theorem writeSection_lost :
    ∃ p₁ p₂ : Pool (Fin 2) (SharedCache (Fin 2)) CacheCall CacheRole,
      Run cacheSystem (fun _ _ => True) (cachePool fullCache) p₁ ∧
        p₁.places 0 = .inside (.writeEnd lastSlot 64 ones) ∧ p₁.next 0 = .ok p₂ ∧
        p₂.places 0 = .idle .out ∧ ¬ Stored p₂.shared.cache 64 ones := by
  have hplay : ((cachePool fullCache).play cacheSystem (fun _ _ => True) lostMoves).bind
      (fun p₁ => (p₁.next 0).toOption.map (fun p₂ => (p₁.places 0, p₂.places 0,
        decide (∀ i, (p₂.shared.cache.buffer i).sector ≠ 64),
        (p₂.shared.cache.device.sectors 64).byte 0)))
        = some (Place.inside (.writeEnd lastSlot 64 ones), Place.idle .out, true, 0) := by
    decide +kernel
  obtain ⟨p₁, hp₁, hplay⟩ := Option.bind_eq_some_iff.mp hplay
  obtain ⟨p₂, hp₂, hobs⟩ := Option.map_eq_some_iff.mp hplay
  obtain ⟨hin, hobs⟩ := Prod.mk.inj hobs
  obtain ⟨hout, hobs⟩ := Prod.mk.inj hobs
  obtain ⟨hnone, hdisk⟩ := Prod.mk.inj hobs
  refine ⟨p₁, p₂, run_of_play hp₁, hin, Pool.next_of_toOption hp₂, hout, fun hst => ?_⟩
  rcases hst with ⟨i, -, hi, -⟩ | ⟨-, hd⟩
  · exact of_decide_eq_true hnone i hi
  · rw [hd] at hdisk
    exact absurd hdisk (by decide)

end KernelSanders
