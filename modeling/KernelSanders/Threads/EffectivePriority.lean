import KernelSanders.Lib.Inheritance
import KernelSanders.Threads.DonationEffects

namespace KernelSanders

open Lib Lib.Exec Relation
open Function hiding update
open Kernel LockOp

/-!
# Effective priorities under donation

A thread's priority should be the greatest of its own and those of the threads that wait for a lock
it holds: `Kernel.Effective`.  `LockOp.Fits` says, in terms of the state before an operation, when
the operation leaves it so, and `donation_effective` that this is exact.  What it takes is

* for `lock_acquire` of a held lock by a thread with a higher priority, that the links `lock_needed`
  lead from the holder through the threads that are to be raised and nobody else, none of which has
  a higher priority;
* for taking a lock that is free, that nobody with a higher priority waits for it;
* for `lock_release`, that no thread which still waits for the holder is missing from its list of
  donors, unless it has no more priority than the holder is left with;
* for `thread_set_priority`, that an empty list of donors means that nobody with a higher priority
  waits, and a list that is not empty that somebody with the current priority does.

Nothing in the kernel ensures any of these.
-/

variable {ι κ : Type} {k : Kernel ι κ} {op : LockOp ι κ}

/-- Every thread has the greatest of its own priority and those of the threads that wait for a
    lock it holds. -/
def Kernel.Effective (k : Kernel ι κ) : Prop := Settled k.Waits k.origPriority k.priority

/-- The operation keeps the priorities effective. -/
def LockOp.Fits (k : Kernel ι κ) : LockOp ι κ → Prop
  | acquire t l =>
    (∀ h, k.holder l = some h → k.priority h < k.priority t →
      Raises k.Waits k.priority (k.chain h) h (k.priority t)) ∧
    (k.holder l = none → ∀ u, k.waiting u = some l → k.priority u ≤ k.priority t)
  | resume t => ∀ l, k.waiting t = some l → k.holder l = none →
    ∀ u, k.waiting u = some l → k.priority u ≤ k.priority t
  | release t l => ∀ u m, m ≠ l → k.waiting u = some m → k.holder m = some t →
    u ∉ k.donors t → k.priority u ≤ k.origPriority t ∨
      ∃ d ∈ k.donors t, k.needed d ≠ some l ∧ k.priority u ≤ k.priority d
  | setPriority t p =>
    (k.donors t = [] → ∀ u, k.Waits u t → k.priority u ≤ p) ∧
    (k.donors t ≠ [] → p < k.priority t → ∃ u, k.Waits u t ∧ k.priority u = k.priority t)

/-! ### The invariant -/

namespace Kernel

/-- What holds of the lists and semaphores between operations. -/
structure Sound (k : Kernel ι κ) : Prop where
  value : ∀ l, (k.lock l).value = if k.holder l = none then 1 else 0
  recorded : ∀ t, ∀ d ∈ k.donors t,
    ∃ l, k.waiting d = some l ∧ k.needed d = some l ∧ k.holder l = some t
  nodup : ∀ t, (k.donors t).Nodup
  acyclic : Acyclic k.Waits

theorem Boot.sound (h : k.Boot) : Sound k where
  value l := by
    rw [holder, h.lock l, if_pos rfl]
  recorded t d hd := by
    rw [donors, (h.thread t).2.2] at hd
    cases hd
  nodup t := by
    rw [donors, (h.thread t).2.2]
    exact List.nodup_nil
  acyclic x hx := by
    obtain ⟨y, ⟨l, hl, -⟩, -⟩ := TransGen.head'_iff.mp hx
    rw [h.waiting] at hl
    cases hl

theorem Boot.effective (h : k.Boot) : Effective k := by
  intro x
  refine tops_iff.mpr ⟨⟨le_of_eq (h.thread x).1.symm, fun u ⟨l, hl, _⟩ => ?_⟩,
    .inl (h.thread x).1⟩
  rw [h.waiting] at hl
  cases hl

variable {k' : Kernel ι κ} {t : ι} {l : κ}

/-- A donor is not the thread that runs. -/
theorem Sound.donor_ne (hs : Sound k) (hw : k.waiting t = none) {x : ι} :
    ∀ d ∈ k.donors x, d ≠ t := by
  intro d hd hdt
  obtain ⟨m, hm, -⟩ := hs.recorded x d hd
  rw [hdt, hw] at hm
  cases hm

/-! ### Starting to wait -/

section Waiting

variable [DecidableEq ι] {o : ι} {k₁ : Kernel ι κ}

theorem Parks.waits_iff (h : Parks k k' t l) (hw : k.waiting t = none)
    (hheld : k.holder l = some o) (u x : ι) : k'.Waits u x ↔ k.Waits u x ∨ (u = t ∧ x = o) := by
  have hholder : ∀ m, (k'.lock m).holder = (k.lock m).holder := h.holder
  constructor
  · intro ⟨m, hm, hx⟩
    rw [hholder] at hx
    rw [h.waiting] at hm
    by_cases hu : u = t
    · rw [hu, update_self] at hm
      cases hm
      exact .inr ⟨hu, Option.some.inj (hx.symm.trans hheld)⟩
    · rw [update_of_ne hu] at hm
      exact .inl ⟨m, hm, hx⟩
  · rintro (⟨m, hm, hx⟩ | ⟨rfl, rfl⟩)
    · have hu : u ≠ t := by
        intro hu
        rw [hu, hw] at hm
        cases hm
      exact ⟨m, by rw [h.waiting, update_of_ne hu, hm], by rw [hholder, hx]⟩
    · exact ⟨l, by rw [h.waiting, update_self], by rw [hholder]; exact hheld⟩

/-- The lists and semaphores after a thread has started to wait. -/
theorem Parks.sound (h : Parks k k' t l) (hs : Sound k) (hw : k.waiting t = none)
    (hheld : k.holder l = some o) (hback : ¬ ReflTransGen k.Waits o t) : Sound k' where
  value m := by
    rw [h.value, h.holder]
    exact hs.value m
  recorded x d hd := by
    rw [donors, h.thread] at hd
    obtain ⟨m, hm, hn, hx⟩ := hs.recorded x d hd
    have hdt : d ≠ t := hs.donor_ne hw d hd
    refine ⟨m, by rw [h.waiting, update_of_ne hdt, hm], ?_, by rw [h.holder, hx]⟩
    rw [needed, h.thread]
    exact hn
  nodup x := by
    rw [donors, h.thread]
    exact hs.nodup x
  acyclic := hs.acyclic.add (fun u x hux => (h.waits_iff hw hheld u x).mp hux) hback

/-- A donation, as it is made before the donor starts to wait. -/
theorem Donates.sound_parks (hd : Donates k k₁ t l o) (h : Parks k₁ k' t l) (hs : Sound k)
    (hw : k.waiting t = none) (hheld : k.holder l = some o) (hback : ¬ ReflTransGen k.Waits o t) :
    Sound k' := by
  have hholder : ∀ m, k₁.holder m = k.holder m := fun m => by rw [holder, hd.lock]; rfl
  have hwaits : k₁.Waits = k.Waits := by
    funext u x
    rw [Waits, Waits, hd.lock, hd.waiting]
  have hdonors : ∀ x, k'.donors x = if x = o then k.donors o ++ [t] else k.donors x := by
    intro x
    rw [← hd.donors, Kernel.donors, h.thread]
    rfl
  have hneeded : ∀ x, k'.needed x = if x = t then some l else k.needed x := by
    intro x
    rw [← hd.needed, Kernel.needed, h.thread]
    rfl
  -- an old donor is another thread, and waits as before
  have hold : ∀ x, ∀ d ∈ k.donors x,
      ∃ m, k'.waiting d = some m ∧ k'.needed d = some m ∧ k'.holder m = some x := by
    intro x d hmem
    obtain ⟨m, hm, hn, hx⟩ := hs.recorded x d hmem
    have hdt : d ≠ t := hs.donor_ne hw d hmem
    exact ⟨m, by rw [h.waiting, update_of_ne hdt, hd.waiting, hm],
      by rw [hneeded, if_neg hdt, hn], by rw [h.holder, hholder, hx]⟩
  refine ⟨fun m => ?_, fun x d hmem => ?_, fun x => ?_, ?_⟩
  · rw [h.value, h.holder, hholder, hd.lock]
    exact hs.value m
  · rw [hdonors] at hmem
    split_ifs at hmem with hx
    · rcases List.mem_append.mp hmem with hmem | hmem
      · rw [hx]
        exact hold o d hmem
      · obtain rfl : d = t := List.mem_singleton.mp hmem
        refine ⟨l, by rw [h.waiting, update_self], by rw [hneeded, if_pos rfl], ?_⟩
        rw [h.holder, hholder, hheld, hx]
    · exact hold x d hmem
  · rw [hdonors]
    split_ifs with hx
    · refine List.nodup_append.mpr ⟨hs.nodup o, List.nodup_singleton t, fun d hmem e he => ?_⟩
      rw [List.mem_singleton.mp he]
      exact hs.donor_ne hw d hmem
    · exact hs.nodup x
  · refine hs.acyclic.add (fun u x hux => ?_) hback
    rw [← hwaits]
    exact (h.waits_iff (by rw [hd.waiting, hw]) (by rw [hholder, hheld]) u x).mp hux

theorem Donates.effective_iff [Finite ι] (hd : Donates k k₁ t l o) (h : Parks k₁ k' t l)
    (hs : Sound k) (he : Effective k) (hw : k.waiting t = none) (hheld : k.holder l = some o) :
    Effective k' ↔ Raises k.Waits k.priority (k.chain o) o (k.priority t) := by
  have hwaits : k₁.Waits = k.Waits := by
    funext u x
    rw [Waits, Waits, hd.lock, hd.waiting]
  have horig : k'.origPriority = k.origPriority := by
    rw [← hd.orig]
    funext y
    rw [origPriority, h.thread]
    rfl
  have hpri : ∀ y, k'.priority y = k₁.priority y := fun y => by rw [priority, h.thread]; rfl
  rw [Effective, horig]
  refine settled_raise_iff he hs.acyclic.wellFounded (fun u x => ?_) ReflTransGen.refl
    (fun x hx => ?_) (fun x hx => ?_)
  · rw [← hwaits]
    refine h.waits_iff (by rw [hd.waiting, hw]) ?_ u x
    rw [holder, hd.lock]
    exact hheld
  · rw [hpri, hd.inside x hx]
  · rw [hpri, hd.outside x hx]

end Waiting

section Holding

variable [DecidableEq ι] [DecidableEq κ]

/-! ### Taking a lock -/

omit [DecidableEq ι] [DecidableEq κ] in
/-- A thread that is about to take a free lock waits for nobody. -/
theorem not_waits_of_free (hfree : k.holder l = none)
    (hw : k.waiting t = none ∨ k.waiting t = some l) (y : ι) : ¬ k.Waits t y := by
  intro ⟨m, hm, hy⟩
  rcases hw with hw | hw
  · rw [hw] at hm
    cases hm
  · rw [hw] at hm
    cases hm
    rw [holder, hy] at hfree
    cases hfree

/-- Those who wait for the lock wait for the thread that took it. -/
theorem Takes.waits_iff (h : Takes k k' t l) (hfree : k.holder l = none)
    (hw : k.waiting t = none ∨ k.waiting t = some l) (u x : ι) :
    k'.Waits u x ↔ k.Waits u x ∨ (u ≠ t ∧ k.waiting u = some l ∧ x = t) := by
  have hholder : ∀ m, (k'.lock m).holder = if m = l then some t else k.holder m := h.holder
  constructor
  · intro ⟨m, hm, hx⟩
    rw [h.waiting] at hm
    have hu : u ≠ t := by
      intro hu
      rw [hu, update_self] at hm
      cases hm
    rw [update_of_ne hu] at hm
    rw [hholder] at hx
    split_ifs at hx with hml
    · rw [hml] at hm
      exact .inr ⟨hu, hm, (Option.some.inj hx).symm⟩
    · exact .inl ⟨m, hm, hx⟩
  · rintro (hux | ⟨hu, hm, rfl⟩)
    · have hu : u ≠ t := fun hu => not_waits_of_free hfree hw x (hu ▸ hux)
      obtain ⟨m, hm, hx⟩ := hux
      have hml : m ≠ l := by
        intro hml
        rw [hml] at hx
        rw [Kernel.holder, hx] at hfree
        cases hfree
      exact ⟨m, by rw [h.waiting, update_of_ne hu, hm], by rw [hholder, if_neg hml]; exact hx⟩
    · exact ⟨l, by rw [h.waiting, update_of_ne hu, hm], by rw [hholder, if_pos rfl]⟩

theorem Takes.sound (h : Takes k k' t l) (hs : Sound k) (hfree : k.holder l = none)
    (hw : k.waiting t = none ∨ k.waiting t = some l) : Sound k' where
  value m := by
    rw [h.value, h.holder]
    split_ifs with hm hn hn
    · cases hn
    · rw [hs.value l, if_pos hfree]
    · rw [hs.value m, if_pos hn]
    · rw [hs.value m, if_neg hn]
  recorded x d hd := by
    rw [donors, h.thread] at hd
    obtain ⟨m, hm, hn, hx⟩ := hs.recorded x d hd
    have hdt : d ≠ t := fun hdt => not_waits_of_free hfree hw x (hdt ▸ ⟨m, hm, hx⟩)
    have hml : m ≠ l := by
      intro hml
      rw [hml, hfree] at hx
      cases hx
    refine ⟨m, by rw [h.waiting, update_of_ne hdt, hm], ?_, ?_⟩
    · rw [needed, h.thread]
      exact hn
    · rw [h.holder, if_neg hml, hx]
  nodup x := by
    rw [donors, h.thread]
    exact hs.nodup x
  acyclic := by
    refine hs.acyclic.sink t (fun u x hux => ?_) (fun y hy => ?_)
    · exact ((h.waits_iff hfree hw u x).mp hux).imp id (fun hr => hr.2.2)
    · rcases (h.waits_iff hfree hw t y).mp hy with hy | ⟨ht, -, -⟩
      · exact not_waits_of_free hfree hw y hy
      · exact ht rfl

theorem Takes.effective_iff (h : Takes k k' t l) (he : Effective k) (hfree : k.holder l = none)
    (hw : k.waiting t = none ∨ k.waiting t = some l) :
    Effective k' ↔ ∀ u, k.waiting u = some l → k.priority u ≤ k.priority t := by
  have hpri : k'.priority = k.priority := by
    funext y
    rw [priority, h.thread]
    rfl
  have horig : k'.origPriority = k.origPriority := by
    funext y
    rw [origPriority, h.thread]
    rfl
  rw [Effective, hpri, horig, settled_change_iff t he (fun u x hx => ?_) (fun _ _ => rfl)
    (fun _ _ => rfl) (fun y _ => not_waits_of_free hfree hw y), tops_iff]
  · obtain ⟨⟨hown, hub⟩, hatt⟩ := tops_iff.mp (he t)
    constructor
    · rintro ⟨⟨-, hub'⟩, -⟩ u hu
      by_cases hut : u = t
      · rw [hut]
      · exact hub' u ((h.waits_iff hfree hw u t).mpr (.inr ⟨hut, hu, rfl⟩))
    · intro hle
      refine ⟨⟨hown, fun u hu => ?_⟩, ?_⟩
      · rcases (h.waits_iff hfree hw u t).mp hu with hu | ⟨-, hu, -⟩
        · exact hub u hu
        · exact hle u hu
      · rcases hatt with hatt | ⟨u, hu, hatt⟩
        · exact .inl hatt
        · exact .inr ⟨u, (h.waits_iff hfree hw u t).mpr (.inl hu), hatt⟩
  · rw [h.waits_iff hfree hw u x]
    exact ⟨fun hux => hux.resolve_right (fun hr => hx hr.2.2), .inl⟩

/-! ### Giving a lock back -/

section

omit [DecidableEq ι]

theorem Releases.waits_iff (h : Releases k k' t l) (u x : ι) :
    k'.Waits u x ↔ ∃ m, m ≠ l ∧ k.waiting u = some m ∧ k.holder m = some x := by
  have hholder : ∀ m, (k'.lock m).holder = if m = l then none else k.holder m := h.holder
  constructor
  · intro ⟨m, hm, hx⟩
    rw [h.waiting] at hm
    rw [hholder] at hx
    split_ifs at hx with hml
    exact ⟨m, hml, hm, hx⟩
  · intro ⟨m, hml, hm, hx⟩
    exact ⟨m, by rw [h.waiting, hm], by rw [hholder, if_neg hml, hx]⟩

/-- The other holders have the waiters they had. -/
theorem Releases.waits_ne (h : Releases k k' t l) (hheld : k.holder l = some t) {x : ι}
    (hx : x ≠ t) (u : ι) : k'.Waits u x ↔ k.Waits u x := by
  rw [h.waits_iff]
  constructor
  · intro ⟨m, _, hm, hmx⟩
    exact ⟨m, hm, hmx⟩
  · intro ⟨m, hm, hmx⟩
    refine ⟨m, fun hml => hx ?_, hm, hmx⟩
    rw [hml] at hmx
    exact Option.some.inj (hmx.symm.trans hheld)

end

theorem Releases.sound (h : Releases k k' t l) (hs : Sound k) (hheld : k.holder l = some t)
    (hw : k.waiting t = none) : Sound k' where
  value m := by
    rw [h.value, h.holder]
    split_ifs with hm hn hn
    · rw [hs.value l, hheld, if_neg nofun]
    · exact absurd rfl hn
    · rw [hs.value m, if_pos hn]
    · rw [hs.value m, if_neg hn]
  recorded x d hd := by
    -- the donor is another thread, and the lock it needs another lock
    have hold : d ∈ k.donors x ∧ (x = t → k.needed d ≠ some l) := by
      by_cases hx : x = t
      · rw [hx] at hd ⊢
        exact ⟨(h.donors d hd).1, fun _ => (h.donors d hd).2⟩
      · rw [Kernel.donors, h.others x hx] at hd
        exact ⟨hd, fun hn => absurd hn hx⟩
    obtain ⟨m, hm, hn, hmx⟩ := hs.recorded x d hold.1
    have hml : m ≠ l := by
      intro hml
      rw [hml] at hmx hn
      exact hold.2 (Option.some.inj (hmx.symm.trans hheld)) hn
    refine ⟨m, by rw [h.waiting, hm], ?_, by rw [h.holder, if_neg hml, hmx]⟩
    rw [Kernel.needed, h.others d (hs.donor_ne hw d hold.1)]
    exact hn
  nodup x := by
    by_cases hx : x = t
    · rw [hx]
      exact h.nodup
    · rw [Kernel.donors, h.others x hx]
      exact hs.nodup x
  acyclic := by
    refine hs.acyclic.mono (fun u x hux => ?_)
    obtain ⟨m, -, hm, hx⟩ := (h.waits_iff u x).mp hux
    exact ⟨m, hm, hx⟩

theorem Releases.effective_iff (h : Releases k k' t l) (hs : Sound k) (he : Effective k)
    (hheld : k.holder l = some t) (hw : k.waiting t = none) :
    Effective k' ↔ (release t l).Fits k := by
  have hother : ∀ y, y ≠ t → k'.priority y = k.priority y := fun y hy => by
    rw [Kernel.priority, h.others y hy]
    rfl
  have horig : ∀ y, k'.origPriority y = k.origPriority y := by
    intro y
    by_cases hy : y = t
    · rw [hy, h.orig]
    · rw [origPriority, h.others y hy]
      rfl
  have hut : ∀ u x, k'.Waits u x → u ≠ t := by
    intro u x hux hu
    obtain ⟨m, -, hm, -⟩ := (h.waits_iff u x).mp hux
    rw [hu, hw] at hm
    cases hm
  obtain ⟨hmem, hub⟩ := h.priority
  -- a recorded donor of another lock is what the holder is left with, at least
  have hle : ∀ u, k.priority u ≤ k'.priority t ↔ k.priority u ≤ k.origPriority t ∨
      ∃ d ∈ k.donors t, k.needed d ≠ some l ∧ k.priority u ≤ k.priority d := by
    intro u
    constructor
    · intro hu
      rcases hmem with hmem | ⟨d, hd, hn, hmem⟩
      · exact .inl (hmem ▸ hu)
      · exact .inr ⟨d, hd, hn, hmem ▸ hu⟩
    · rintro (hu | ⟨d, hd, hn, hu⟩)
      · exact hu.trans (hub (.inl rfl))
      · exact hu.trans (hub (.inr ⟨d, hd, hn, rfl⟩))
  rw [Effective, settled_change_iff t he (fun u x hx => h.waits_ne hheld hx u)
    (fun x _ => horig x) hother (fun y _ hy => by
      obtain ⟨m, hm, -⟩ := hy
      rw [hw] at hm
      cases hm), tops_iff]
  constructor
  · rintro ⟨⟨-, hub'⟩, -⟩ u m hml hm hmt -
    have hwait : k'.Waits u t := (h.waits_iff u t).mpr ⟨m, hml, hm, hmt⟩
    have hu := hub' u hwait
    rw [hother u (hut u t hwait)] at hu
    exact (hle u).mp hu
  · intro hfits
    refine ⟨⟨by rw [h.orig]; exact hub (.inl rfl), fun u hu => ?_⟩, ?_⟩
    · obtain ⟨m, hml, hm, hmt⟩ := (h.waits_iff u t).mp hu
      rw [hother u (hut u t hu)]
      by_cases hd : u ∈ k.donors t
      · -- what a recorded donor needs is what it waits for
        obtain ⟨m', hm', hn, -⟩ := hs.recorded t u hd
        rw [hm] at hm'
        cases hm'
        refine hub (.inr ⟨u, hd, ?_, rfl⟩)
        rw [hn]
        exact fun hn => hml (Option.some.inj hn)
      · exact (hle u).mpr (hfits u m hml hm hmt hd)
    · rcases hmem with hmem | ⟨d, hd, hn, hmem⟩
      · exact .inl (by rw [hmem, h.orig])
      · obtain ⟨m, hm, hneed, hmt⟩ := hs.recorded t d hd
        have hml : m ≠ l := fun hml => hn (hml ▸ hneed)
        have hwait : k'.Waits d t := (h.waits_iff d t).mpr ⟨m, hml, hm, hmt⟩
        exact .inr ⟨d, hwait, by rw [hother d (hut d t hwait), hmem]⟩

/-! ### Another priority -/

/-- Thread `t` has set its priority. -/
structure Resets (k k' : Kernel ι κ) (t : ι) (p : Int) : Prop where
  priority : k'.priority t =
    if k.donors t = [] then p else if p > k.priority t then p else k.priority t
  orig : k'.origPriority t = p
  others : ∀ y, y ≠ t → k'.thread y = k.thread y
  donors : ∀ y, k'.donors y = k.donors y
  needed : ∀ y, k'.needed y = k.needed y
  lock : k'.lock = k.lock
  waiting : k'.waiting = k.waiting

omit [DecidableEq κ] in
theorem threadSetPriority_ensures (t : ι) (p : Int) (k : Kernel ι κ) :
    Ensures (threadSetPriority t p) k (fun _ k' => Resets k k' t p) := by
  have hset : ∀ (f : Tcb ι κ → Tcb ι κ) (q : Int),
      f (k.thread t) = { k.thread t with origPriority := p, priority := q } →
      q = (if k.donors t = [] then p else if p > k.priority t then p else k.priority t) →
        Resets k (setThread t f k) t p := by
    intro f q hf hq
    have hself : (setThread t f k).thread t
        = { k.thread t with origPriority := p, priority := q } := by
      rw [setThread_thread, if_pos rfl, hf]
    have hne : ∀ y, y ≠ t → (setThread t f k).thread y = k.thread y := fun y hy => by
      rw [setThread_thread, if_neg hy]
    refine ⟨by rw [priority, hself, ← hq], by rw [origPriority, hself], hne,
      fun y => ?_, fun y => ?_, rfl, rfl⟩
    · by_cases hy : y = t
      · rw [hy, donors, hself]
        rfl
      · rw [donors, hne y hy]
        rfl
    · by_cases hy : y = t
      · rw [hy, needed, hself]
        rfl
      · rw [needed, hne y hy]
        rfl
  rw [threadSetPriority, ensures_put, ensures_get, setThread_thread, if_pos rfl]
  by_cases hd : (k.thread t).priorityDonations = []
  · rw [if_pos hd, ensures_update, setThread_setThread]
    exact hset _ p rfl (by rw [donors, if_pos hd])
  · rw [if_neg hd]
    by_cases hp : p > (k.thread t).priority
    · rw [if_pos hp, ensures_update, setThread_setThread]
      exact hset _ p rfl (by rw [donors, if_neg hd, priority, if_pos hp])
    · rw [if_neg hp, ensures_pure]
      exact hset _ (k.thread t).priority rfl
        (by rw [donors, if_neg hd, priority, if_neg hp])

section

omit [DecidableEq ι] [DecidableEq κ]

theorem Resets.sound {p : Int} (h : Resets k k' t p) (hs : Sound k) : Sound k' where
  value m := by
    rw [holder, h.lock]
    exact hs.value m
  recorded x d hd := by
    rw [h.donors] at hd
    obtain ⟨m, hm, hn, hx⟩ := hs.recorded x d hd
    exact ⟨m, by rw [h.waiting, hm], by rw [h.needed, hn], by rw [holder, h.lock]; exact hx⟩
  nodup x := by
    rw [h.donors]
    exact hs.nodup x
  acyclic := by
    refine hs.acyclic.mono ?_
    rintro u x ⟨m, hm, hx⟩
    refine ⟨m, ?_, ?_⟩
    · rw [← h.waiting, hm]
    · rw [← h.lock, hx]

theorem Resets.effective_iff {p : Int} (h : Resets k k' t p) (he : Effective k)
    (hw : k.waiting t = none) : Effective k' ↔ (setPriority t p).Fits k := by
  have hwaits : k'.Waits = k.Waits := by
    funext u x
    rw [Waits, Waits, h.lock, h.waiting]
  have hother : ∀ y, y ≠ t → k'.priority y = k.priority y := fun y hy => by
    rw [Kernel.priority, h.others y hy]
    rfl
  have hut : ∀ u x, k.Waits u x → u ≠ t := by
    rintro u x ⟨m, hm, -⟩ hu
    rw [hu, hw] at hm
    cases hm
  obtain ⟨⟨hown, hub⟩, hatt⟩ := tops_iff.mp (he t)
  rw [Effective, hwaits, settled_change_iff t he (fun _ _ _ => Iff.rfl)
    (fun x hx => by rw [origPriority, h.others x hx]; rfl) hother
    (fun y _ hy => hut t y hy rfl), tops_iff, h.orig, h.priority]
  -- the waiters are other threads, with the priorities they had
  have hval : ∀ q : Int, ((∀ u, k.Waits u t → k'.priority u ≤ q) ↔
      ∀ u, k.Waits u t → k.priority u ≤ q) ∧ ((∃ u, k.Waits u t ∧ k'.priority u = q) ↔
        ∃ u, k.Waits u t ∧ k.priority u = q) := by
    intro q
    constructor
    · exact forall₂_congr (fun u hu => by rw [hother u (hut u t hu)])
    · exact exists_congr (fun u => and_congr_right (fun hu => by rw [hother u (hut u t hu)]))
  by_cases hd : k.donors t = []
  · rw [if_pos hd, (hval p).1]
    constructor
    · rintro ⟨⟨-, hle⟩, -⟩
      exact ⟨fun _ => hle, fun hn => absurd hd hn⟩
    · intro hfits
      exact ⟨⟨le_rfl, hfits.1 hd⟩, .inl rfl⟩
  · rw [if_neg hd]
    by_cases hp : p > k.priority t
    · rw [if_pos hp, (hval p).1]
      constructor
      · intro _
        exact ⟨fun hn => absurd hn hd, fun _ hlt => absurd hlt (not_lt.mpr (le_of_lt hp))⟩
      · intro _
        exact ⟨⟨le_rfl, fun u hu => (hub u hu).trans (le_of_lt hp)⟩, .inl rfl⟩
    · rw [if_neg hp, (hval _).1, (hval _).2]
      constructor
      · rintro ⟨-, hatt'⟩
        refine ⟨fun hn => absurd hn hd, fun _ hlt => hatt'.resolve_left (fun hn => ?_)⟩
        exact absurd hn (ne_of_gt hlt)
      · intro hfits
        refine ⟨⟨not_lt.mp hp, hub⟩, ?_⟩
        rcases lt_or_eq_of_le (not_lt.mp hp) with hlt | heq
        · exact .inr (hfits.2 hd hlt)
        · exact .inl heq.symm

end

/-! ### Going on to wait -/

section

omit [DecidableEq κ]

/-- Somebody else was faster: a woken thread waits as before. -/
theorem Parks.waits_again (h : Parks k k' t l) (hw : k.waiting t = some l) :
    k'.waiting = k.waiting ∧ k'.Waits = k.Waits := by
  have hwait : k'.waiting = k.waiting := by
    rw [h.waiting, ← hw, update_eq_self]
  have hholder : ∀ m, (k'.lock m).holder = (k.lock m).holder := h.holder
  refine ⟨hwait, ?_⟩
  funext u x
  simp only [Waits, hwait, hholder]

theorem Parks.sound_again (h : Parks k k' t l) (hs : Sound k) (hw : k.waiting t = some l) :
    Sound k' where
  value m := by
    rw [h.value, h.holder]
    exact hs.value m
  recorded x d hd := by
    rw [donors, h.thread] at hd
    obtain ⟨m, hm, hn, hx⟩ := hs.recorded x d hd
    refine ⟨m, by rw [(h.waits_again hw).1, hm], ?_, by rw [h.holder, hx]⟩
    rw [needed, h.thread]
    exact hn
  nodup x := by
    rw [donors, h.thread]
    exact hs.nodup x
  acyclic := by
    rw [(h.waits_again hw).2]
    exact hs.acyclic

/-- Waiting changes no priority. -/
theorem Parks.priorities (h : Parks k k' t l) :
    k'.priority = k.priority ∧ k'.origPriority = k.origPriority := by
  constructor
  · funext y
    rw [priority, h.thread]
    rfl
  · funext y
    rw [origPriority, h.thread]
    rfl

end

/-! ### Steps and runs -/

section Steps

variable [Fintype ι]

section

variable (hs : Sound k)
include hs

/-- `lock_acquire` takes a lock that is free, or waits for one that is held, after a donation if the
    holder has a lower priority. -/
theorem acquire_cases (h : (acquire t l).Steps k k') :
    (k.holder l = none ∧ Takes k k' t l) ∨ ∃ o, k.holder l = some o ∧ t ≠ o ∧
      ((k.priority t ≤ k.priority o ∧ Parks k k' t l) ∨
        (k.priority o < k.priority t ∧ ∃ k₁, Donates k k₁ t l o ∧ Parks k₁ k' t l)) := by
  suffices hrun : Ensures (lockAcquire t l) k (fun _ k' =>
      (k.holder l = none ∧ Takes k k' t l) ∨ ∃ o, k.holder l = some o ∧ t ≠ o ∧
        ((k.priority t ≤ k.priority o ∧ Parks k k' t l) ∨
          (k.priority o < k.priority t ∧ ∃ k₁, Donates k k₁ t l o ∧ Parks k₁ k' t l))) from
    hrun () k' h.run
  rw [lockAcquire, ensures_get, ensures_check]
  intro hne
  rw [ensures_bind]
  cases hheld : (k.lock l).holder with
  | none =>
    have hfree : k.holder l = none := hheld
    refine ensures_pure.mpr ((downThenHold_ensures t l k).mono (fun _ k' hk' => ?_))
    rcases hk' with ⟨hv, -⟩ | ⟨-, htake⟩
    · rw [hs.value l, if_pos hfree] at hv
      cases hv
    · exact .inl ⟨hfree, htake⟩
  | some o =>
    have hto : t ≠ o := fun hto => hne (hto ▸ hheld)
    refine (donateToHolder_ensures hto l k).mono (fun _ k₁ hk₁ => ?_)
    refine (downThenHold_ensures t l k₁).mono (fun _ k' hk' => .inr ⟨o, hheld, hto, ?_⟩)
    have hlock : k₁.lock = k.lock := by
      rcases hk₁ with ⟨-, rfl⟩ | ⟨-, hd⟩
      · rfl
      · exact hd.lock
    -- the semaphore of a lock that is held has no unit left
    have hv : (k₁.lock l).value = 0 := by
      rw [hlock, hs.value l, if_neg (by simp [holder, hheld])]
    rcases hk' with ⟨-, hpark⟩ | ⟨hne, -⟩
    · rcases hk₁ with ⟨hle, rfl⟩ | ⟨hlt, hd⟩
      · exact .inl ⟨hle, hpark⟩
      · exact .inr ⟨hlt, k₁, hd, hpark⟩
    · exact absurd hv hne

/-- A woken thread takes the lock, or finds that somebody else has it. -/
theorem resume_cases (h : (LockOp.resume t : LockOp ι κ).Steps k k') :
    ∃ l, k.waiting t = some l ∧
      ((k.holder l ≠ none ∧ Parks k k' t l) ∨ (k.holder l = none ∧ Takes k k' t l)) := by
  obtain ⟨l, hw, -⟩ := h.ready
  suffices hrun : Ensures (resume t) k (fun _ k' =>
      (k.holder l ≠ none ∧ Parks k k' t l) ∨ (k.holder l = none ∧ Takes k k' t l)) from
    ⟨l, hw, hrun () k' h.run⟩
  rw [resume, ensures_get, hw]
  refine (downThenHold_ensures t l k).mono (fun _ k' hk' => ?_)
  rw [hs.value l] at hk'
  by_cases hfree : k.holder l = none
  · rw [if_pos hfree] at hk'
    exact .inr ⟨hfree, (hk'.resolve_left (fun hn => absurd hn.1 (by decide))).2⟩
  · rw [if_neg hfree] at hk'
    exact .inl ⟨hfree, (hk'.resolve_right (fun hn => hn.1 rfl)).2⟩

theorem release_cases (h : (release t l).Steps k k') : k.holder l = some t ∧ Releases k k' t l :=
  lockRelease_ensures t l k (hs.nodup t) (hs.donor_ne h.ready) () k' h.run

/-- **One operation** keeps the lists and semaphores sound. -/
theorem step_sound (h : op.Steps k k') : Sound k' := by
  cases op with
  | acquire t l =>
    have hw : k.waiting t = none := h.ready
    rcases acquire_cases hs h with ⟨hfree, htake⟩ | ⟨o, hheld, -, ⟨-, hpark⟩ | ⟨-, k₁, hd, hpark⟩⟩
    · exact htake.sound hs hfree (.inl hw)
    · exact hpark.sound hs hw hheld (h.noCycle o hheld)
    · exact hd.sound_parks hpark hs hw hheld (h.noCycle o hheld)
  | resume t =>
    obtain ⟨l, hw, ⟨-, hpark⟩ | ⟨hfree, htake⟩⟩ := resume_cases hs h
    · exact hpark.sound_again hs hw
    · exact htake.sound hs hfree (.inr hw)
  | release t l =>
    obtain ⟨hheld, hrel⟩ := release_cases hs h
    exact hrel.sound hs hheld h.ready
  | setPriority t p => exact (threadSetPriority_ensures t p k () k' h.run).sound hs

theorem acquire_effective_iff (he : Effective k)
    (h : (acquire t l).Steps k k') : Effective k' ↔ (acquire t l).Fits k := by
  have hw : k.waiting t = none := h.ready
  rcases acquire_cases hs h with ⟨hfree, htake⟩ | ⟨o, hheld, -, hcase⟩
  · rw [htake.effective_iff he hfree (.inl hw)]
    refine ⟨fun hle => ⟨fun o ho => ?_, fun _ => hle⟩, fun hfits => hfits.2 hfree⟩
    rw [hfree] at ho
    cases ho
  -- the lock is not free, so half of the condition is about nothing
  have hnot : k.holder l = none → ∀ u, k.waiting u = some l → k.priority u ≤ k.priority t := by
    intro hn
    rw [hheld] at hn
    cases hn
  have hother : ∀ o', k.holder l = some o' → o' = o := by
    intro o' ho'
    rw [hheld] at ho'
    exact (Option.some.inj ho').symm
  rcases hcase with ⟨hle, hpark⟩ | ⟨hlt, k₁, hd, hpark⟩
  · refine ⟨fun _ => ⟨fun o' ho' hlt => ?_, hnot⟩, fun _ => ?_⟩
    · rw [hother o' ho'] at hlt
      exact absurd hlt (not_lt.mpr hle)
    · rw [Effective, hpark.priorities.1, hpark.priorities.2]
      exact he.add_edge (hpark.waits_iff hw hheld) hle
  · rw [hd.effective_iff hpark hs he hw hheld]
    refine ⟨fun hr => ⟨fun o' ho' _ => ?_, hnot⟩, fun hfits => hfits.1 o hheld hlt⟩
    rw [hother o' ho']
    exact hr

theorem resume_effective_iff (he : Effective k) (h : (LockOp.resume t : LockOp ι κ).Steps k k') :
    Effective k' ↔ (LockOp.resume t : LockOp ι κ).Fits k := by
  obtain ⟨l, hw, hcase⟩ := resume_cases hs h
  have hsame : ∀ l', k.waiting t = some l' → l' = l := by
    intro l' hl'
    rw [hw] at hl'
    exact (Option.some.inj hl').symm
  rcases hcase with ⟨hheld, hpark⟩ | ⟨hfree, htake⟩
  · refine ⟨fun _ l' hl' hn => ?_, fun _ => ?_⟩
    · rw [hsame l' hl'] at hn
      exact absurd hn hheld
    · rw [Effective, (hpark.waits_again hw).2, hpark.priorities.1, hpark.priorities.2]
      exact he
  · rw [htake.effective_iff he hfree (.inr hw)]
    refine ⟨fun hle l' hl' _ => ?_, fun hfits => hfits l hw hfree⟩
    rw [hsame l' hl']
    exact hle

/-- **One operation** keeps the priorities effective exactly if it fits. -/
theorem step_iff (he : Effective k) (h : op.Steps k k') : Effective k' ↔ op.Fits k := by
  cases op with
  | acquire t l => exact acquire_effective_iff hs he h
  | resume t => exact resume_effective_iff hs he h
  | release t l =>
    obtain ⟨hheld, hrel⟩ := release_cases hs h
    exact hrel.effective_iff hs he hheld h.ready
  | setPriority t p =>
    exact (threadSetPriority_ensures t p k () k' h.run).effective_iff he h.ready

end

end Steps

end Holding

end Kernel

variable [DecidableEq ι] [DecidableEq κ]

/-- Any number of operations, all of which fit. -/
def FittingRun [Fintype ι] : Kernel ι κ → Kernel ι κ → Prop :=
  ReflTransGen (fun k k' => ∃ op : LockOp ι κ, op.Steps k k' ∧ op.Fits k)

theorem FittingRun.sound [Fintype ι] {k₀ : Kernel ι κ} (hboot : k₀.Boot) (h : FittingRun k₀ k) :
    k.Sound ∧ k.Effective := by
  induction h with
  | refl => exact ⟨hboot.sound, hboot.effective⟩
  | tail _ hstep ih =>
    obtain ⟨op, hstep, hfits⟩ := hstep
    exact ⟨step_sound ih.1 hstep, (step_iff ih.1 ih.2 hstep).mpr hfits⟩

/-- **Effective priorities.** After every run of operations that fit, every thread's priority is the
    greatest of its own and those of the threads that wait for a lock it holds; and the next
    operation leaves it so exactly if it fits. -/
theorem donation_effective [Fintype ι] {k₀ k : Kernel ι κ} (hboot : k₀.Boot) (h : FittingRun k₀ k) :
    (∀ t, IsGreatest (insert (k.origPriority t) {v | ∃ u, k.Waits u t ∧ k.priority u = v})
      (k.priority t)) ∧
      ∀ op k', LockOp.Steps op k k' →
        ((∀ t, IsGreatest (insert (k'.origPriority t)
          {v | ∃ u, k'.Waits u t ∧ k'.priority u = v}) (k'.priority t)) ↔ op.Fits k) := by
  obtain ⟨hs, he⟩ := h.sound hboot
  exact ⟨he, fun op k' hstep => step_iff hs he hstep⟩

/-! ### Runs of a few threads -/

theorem LockOp.steps_of_outcome [Fintype ι] (hready : op.Ready k) (hno : op.NoCycle k)
    (h : outcome op.code k = .ok ()) : op.Steps k (final op.code k) :=
  ⟨hready, hno, run_of_outcome h⟩

section

omit [DecidableEq ι] [DecidableEq κ]

variable {l : κ} {t h : ι}

/-- A holder that does not wait closes no cycle. -/
theorem LockOp.noCycle_of_running (hheld : (k.lock l).holder = some h)
    (hrun : k.waiting h = none) (hne : h ≠ t) : (acquire t l).NoCycle k := by
  intro h' hh' hreach
  rw [hheld] at hh'
  cases hh'
  rcases ReflTransGen.cases_head hreach with heq | ⟨x, ⟨m, hm, -⟩, -⟩
  · exact hne heq
  · rw [hrun] at hm
    cases hm

/-- The lock is free, and nobody waits for it. -/
theorem LockOp.fits_of_unwanted (hfree : k.holder l = none) (hnone : ∀ u, k.waiting u ≠ some l) :
    (acquire t l).Fits k := by
  refine ⟨fun h hh => ?_, fun _ u hu => absurd hu (hnone u)⟩
  rw [hfree] at hh
  cases hh

/-- A holder that runs and has never waited. -/
theorem LockOp.fits_of_running (hheld : k.holder l = some h) (hrun : k.waiting h = none)
    (hneed : k.needed h = none) (hlt : k.priority h < k.priority t) : (acquire t l).Fits k := by
  have hchain : ∀ x ∈ k.chain h, x = h := by
    intro x hx
    rcases ReflTransGen.cases_head hx with heq | ⟨y, ⟨m, hm, -⟩, -⟩
    · exact heq.symm
    · have hneed : (k.thread h).lockNeeded = none := hneed
      rw [hneed] at hm
      cases hm
  refine ⟨fun h' hh' _ => ?_, fun hn => ?_⟩
  · rw [hheld] at hh'
    cases hh'
    refine ⟨fun x hx => ?_, fun x hx => .inl (hchain x hx), fun x hx y ⟨m, hm, _⟩ => ?_⟩
    · rw [hchain x hx]
      exact le_of_lt hlt
    · rw [hchain x hx, hrun] at hm
      cases hm
  · rw [hheld] at hn
    cases hn

end

/-- A thread of priority `10` and one of priority `30`, and one lock. -/
def pairKernel : Kernel (Fin 2) (Fin 1) := fresh (fun t => if t = 0 then 10 else 30)

def pairHeld : Kernel (Fin 2) (Fin 1) := final (acquire 0 0).code pairKernel

def pairDonated : Kernel (Fin 2) (Fin 1) := final (acquire 1 0).code pairHeld

theorem donation_effective_donated :
    pairKernel.Boot ∧ FittingRun pairKernel pairDonated ∧ pairDonated.origPriority 0 = 10 ∧
      pairDonated.priority 0 = 30 ∧ IsGreatest (insert (pairDonated.origPriority 0)
        {v | ∃ u, pairDonated.Waits u 0 ∧ pairDonated.priority u = v})
          (pairDonated.priority 0) := by
  have hboot : pairKernel.Boot := boot_fresh _
  have h₁ : (acquire 0 0).Steps pairKernel pairHeld := by
    refine steps_of_outcome rfl (fun h hh => ?_) (by decide +kernel)
    cases hh
  have hheld : (pairHeld.lock 0).holder = some 0 := by decide +kernel
  have hrun : pairHeld.waiting 0 = none := by decide +kernel
  have h₂ : (acquire 1 0).Steps pairHeld pairDonated :=
    steps_of_outcome (by show pairHeld.waiting 1 = none; decide +kernel)
      (noCycle_of_running hheld hrun (by decide)) (by decide +kernel)
  have hfit₁ : (acquire 0 0).Fits pairKernel :=
    fits_of_unwanted rfl (fun u hu => nomatch hu)
  have hfit₂ : (acquire 1 0).Fits pairHeld :=
    fits_of_running hheld hrun (by decide +kernel) (by decide +kernel)
  have hfitting : FittingRun pairKernel pairDonated :=
    (ReflTransGen.single ⟨_, h₁, hfit₁⟩).tail ⟨_, h₂, hfit₂⟩
  exact ⟨hboot, hfitting, by decide +kernel, by decide +kernel,
    (donation_effective hboot hfitting).1 0⟩

/-- Two threads of one priority. -/
def equalKernel : Kernel (Fin 2) (Fin 1) := fresh (fun _ => 31)

def equalHeld : Kernel (Fin 2) (Fin 1) := final (acquire 0 0).code equalKernel

def equalWaits : Kernel (Fin 2) (Fin 1) := final (acquire 1 0).code equalHeld

def equalLowered : Kernel (Fin 2) (Fin 1) := final (setPriority 0 10).code equalWaits

/-- A thread that waits with the priority of the holder is not recorded, so the holder can lower its
    priority below it. -/
theorem donation_fails :
    ReflTransGen (fun k k' => ∃ op : LockOp (Fin 2) (Fin 1), op.Steps k k') equalKernel
        equalLowered ∧
      ¬ ∀ t, IsGreatest (insert (equalLowered.origPriority t)
        {v | ∃ u, equalLowered.Waits u t ∧ equalLowered.priority u = v})
          (equalLowered.priority t) := by
  refine ⟨?_, fun hall => ?_⟩
  · have h₁ : (acquire 0 0).Steps equalKernel equalHeld := by
      refine steps_of_outcome rfl (fun h hh => ?_) (by decide +kernel)
      cases hh
    have h₂ : (acquire 1 0).Steps equalHeld equalWaits :=
      steps_of_outcome (by show equalHeld.waiting 1 = none; decide +kernel)
        (noCycle_of_running (h := 0) (by decide +kernel) (by decide +kernel) (by decide))
        (by decide +kernel)
    have h₃ : (setPriority 0 10).Steps equalWaits equalLowered :=
      steps_of_outcome (by show equalWaits.waiting 0 = none; decide +kernel) trivial
        (by decide +kernel)
    exact ((ReflTransGen.single ⟨_, h₁⟩).tail ⟨_, h₂⟩).tail ⟨_, h₃⟩
  · -- thread `1` waits for thread `0` with the higher priority
    have hwaits : equalLowered.Waits 1 0 := ⟨0, by decide +kernel, by decide +kernel⟩
    have hle := (hall 0).2 (Set.mem_insert_of_mem _ ⟨1, hwaits, rfl⟩)
    exact absurd hle (by decide +kernel)

end KernelSanders
