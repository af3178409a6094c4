import KernelSanders.Threads.SchedulerQueues

namespace KernelSanders

open Lib Lib.Exec Relation Kernel
open List

/-!
# The ready thread of the highest priority runs

`Top k` says that no ready thread has a higher priority than the running one.  `schedule` brings it
about (`schedule_top`).  What can take it away is a thread that becomes ready and a running thread
that loses priority:

* `thread_unblock` then sets `thread_waiting`, and the next `intr_enable` yields;
* `lock_release` wakes a thread that waits for the lock, if there is one.

So what is kept is `Top`, or a switch that is still to come (`Pending`).  The timer interrupt enables
interrupts without looking at `thread_waiting`, and `lock_release` may restore a low priority and
have nobody to wake.  `SchedOp.InOrder` leaves out these two, and priorities that do not fit the
`int8_t` of `list_highest_priority`.
-/

variable {ι κ : Type} {c c' : Kernel ι κ} {t : ι}

/-- The priorities fit an `int8_t` and are not negative, and no thread donates to itself. -/
structure Kernel.Bounded (c : Kernel ι κ) : Prop where
  priority : ∀ t, 0 ≤ c.priority t ∧ c.priority t ≤ 127
  orig : ∀ t, 0 ≤ c.origPriority t ∧ c.origPriority t ≤ 127
  donors : ∀ t, t ∉ c.donors t

/-- What that says about one thread. -/
def Tcb.Bounded (th : Tcb ι κ) (t : ι) : Prop :=
  (0 ≤ th.priority ∧ th.priority ≤ 127) ∧ (0 ≤ th.origPriority ∧ th.origPriority ≤ 127) ∧
    t ∉ th.priorityDonations

theorem Kernel.bounded_iff : c.Bounded ↔ ∀ t, (c.thread t).Bounded t :=
  ⟨fun h t => ⟨h.priority t, h.orig t, h.donors t⟩,
    fun h => ⟨fun t => (h t).1, fun t => (h t).2.1, fun t => (h t).2.2⟩⟩

theorem Kernel.Bounded.congr (h : c.Bounded) (hc : c'.thread = c.thread) : c'.Bounded := by
  rw [bounded_iff, hc]
  exact bounded_iff.mp h

/-- One thread changes. -/
theorem Kernel.Bounded.replace (h : c.Bounded) (hself : (c'.thread t).Bounded t)
    (hother : ∀ u, u ≠ t → c'.thread u = c.thread u) : c'.Bounded := by
  rw [bounded_iff]
  intro u
  by_cases hu : u = t
  · rw [hu]
    exact hself
  · rw [hother u hu]
    exact bounded_iff.mp h u

theorem Kernel.Bounded.bmod (h : c.Bounded) (t : ι) : (c.priority t).bmod 256 = c.priority t := by
  have ht := h.priority t
  exact Int.bmod_eq_of_le (by omega) (by omega)

namespace Sched

/-- No ready thread has a higher priority than the one that runs. -/
def Top (k : Sched ι κ) : Prop := ∀ u ∈ k.readyList, k.priority u ≤ k.priority k.current

/-- If not, there is going to be a switch: when interrupts are enabled, or when the lock that the
    running thread releases goes to a thread of a higher priority. -/
def Pending (k : Sched ι κ) : Prop :=
  Top k ∨ k.threadWaiting = true ∨
    ∃ l, k.releasing k.current = some l ∧ ∃ w ∈ k.waiters l, k.priority k.current < k.priority w

/-- The invariant: the processor is with a thread of the highest priority, right after a switch and
    whenever interrupts are on outside of `lock_release`. -/
structure Keeps (k : Sched ι κ) : Prop where
  bounded : k.kernel.Bounded
  pending : Pending k
  on : k.releasing k.current = none → k.level = .on → Top k
  switched : k.point k.current ≠ .own → Top k

variable {k : Sched ι κ}

theorem Keeps.of_top (hb : k.kernel.Bounded) (h : Top k) : Keeps k :=
  ⟨hb, .inl h, fun _ _ => h, fun _ => h⟩

theorem Top.congr {k' : Sched ι κ} (h : Top k) (hr : k'.readyList = k.readyList)
    (ht : k'.kernel.thread = k.kernel.thread) (hc : k'.current = k.current) : Top k' := by
  intro u hu
  rw [hr] at hu
  have hle := h u hu
  simp only [priority, Kernel.priority] at hle ⊢
  rw [ht, hc]
  exact hle

/-- Outside of `lock_release` it is the flag that announces the switch. -/
theorem Pending.flag (h : Pending k) (hr : k.releasing k.current = none) :
    Top k ∨ k.threadWaiting = true := by
  rcases h with h | h | ⟨l, hl, -⟩
  · exact .inl h
  · exact .inr h
  · rw [hr] at hl
    cases hl

/-! ### Switching -/

variable [DecidableEq ι]

/-- `schedule` switches to a thread of the highest priority. -/
theorem schedule_top (h : k.kernel.Bounded) : Ensures schedule k (fun _ k' => Keeps k') := by
  apply schedule_ensures
  · intro t _ hnone _
    apply Keeps.of_top
    · rw [switchTo_kernel]
      exact h
    · -- no priority is negative, so there is nobody to choose from
      have hempty : k.readyList = [] := by
        rcases hnone with hempty | hnone
        · exact hempty
        · apply eq_nil_iff_forall_not_mem.mpr
          intro u hu
          have hneg : (k.kernel.priority u).bmod 256 ≤ -1 :=
            listHighestPriority_none hnone u hu
          have hu := h.priority u
          rw [h.bmod] at hneg
          omega
      intro u hu
      rw [switchTo_readyList, hempty] at hu
      cases hu
  · intro t _ hhigh
    obtain ⟨-, -, hall⟩ := listHighestPriority_spec hhigh
    apply Keeps.of_top
    · rw [switchTo_kernel]
      exact h
    · intro u hu
      rw [switchTo_readyList] at hu
      have hle : (k.kernel.priority u).bmod 256 ≤ (k.kernel.priority t).bmod 256 :=
        hall u (mem_of_mem_erase hu)
      rw [h.bmod, h.bmod] at hle
      simp only [priority, switchTo_kernel, switchTo_current]
      exact hle

theorem requeue_kernel (t : ι) : (requeue t k).kernel = k.kernel := by
  rw [requeue]
  split_ifs <;> rfl

theorem threadYield_top {p : Level → Point κ} (h : k.kernel.Bounded) :
    Ensures (threadYield p) k (fun _ k' => Keeps k') := by
  rw [ensures_threadYield]
  apply schedule_top
  show (requeue k.current (setLevel .off k)).kernel.Bounded
  rw [requeue_kernel]
  exact h

theorem threadBlock_top {p : Point κ} (h : k.kernel.Bounded) :
    Ensures (threadBlock p) k (fun _ k' => Keeps k') := by
  rw [ensures_threadBlock]
  intro _
  exact schedule_top h

/-! ### Interrupt levels -/

variable [DecidableEq κ] {k' : Sched ι κ}

/-- Going back to its own code changes no priority and nothing on the ready list. -/
theorem settle_same (k : Sched ι κ) :
    (settle k).readyList = k.readyList ∧ (settle k).kernel.thread = k.kernel.thread ∧
      (settle k).current = k.current ∧ (settle k).threadWaiting = k.threadWaiting ∧
      (settle k).level = k.level ∧ (settle k).point k.current = .own := by
  have hpoint : (setPoint k.current .own k).point k.current = .own := by
    rw [setPoint_point, if_pos rfl]
  rw [settle, hold]
  split
  · exact ⟨rfl, rfl, rfl, rfl, rfl, hpoint⟩
  · exact ⟨rfl, rfl, rfl, rfl, rfl, hpoint⟩

/-- Enabling interrupts makes up for a switch that `thread_waiting` announces. -/
theorem intrSetLevel_keeps (hb : k.kernel.Bounded) (h : Top k ∨ k.threadWaiting = true)
    (l : Level) : Ensures (intrSetLevel l) k (fun _ k' => Keeps k') := by
  cases l with
  | off =>
    rw [ensures_intrSetLevel_off]
    obtain ⟨hr, ht, hc, hw, hl, hp⟩ := settle_same (setLevel .off k)
    have hpending : Pending (settle (setLevel .off k)) := by
      rcases h with h | h
      · exact .inl (h.congr hr ht hc)
      · exact .inr (.inl (hw.trans h))
    refine ⟨hb.congr ht, hpending, fun _ hon => ?_, fun hne => ?_⟩
    · rw [hl] at hon
      cases hon
    · rw [hc] at hne
      exact absurd hp hne
  | on =>
    cases hw : k.threadWaiting with
    | true =>
      rw [ensures_intrSetLevel_yield hw, ← ensures_threadYield]
      exact threadYield_top hb
    | false =>
      rw [ensures_intrSetLevel_on hw]
      obtain ⟨hr, ht, hc, -, -, -⟩ := settle_same (setLevel .on k)
      have htop : Top k := by
        rcases h with h | h
        · exact h
        · rw [hw] at h
          cases h
      exact Keeps.of_top (hb.congr ht) (htop.congr hr ht hc)

/-- Something with interrupts off that leaves at most a switch to be made. -/
theorem withIntrOff_keeps {x : Exec (Sched ι κ) Unit}
    (hx : Ensures x (setLevel .off k) (fun _ k' =>
      k'.kernel.Bounded ∧ (Top k' ∨ k'.threadWaiting = true))) :
    Ensures (withIntrOff x) k (fun _ k' => Keeps k') := by
  rw [withIntrOff, ensures_get, ensures_put]
  exact hx.bind (fun _ k' hk' => intrSetLevel_keeps hk'.1 hk'.2 k.level)

/-! ### Waking threads -/

/-- Threads have been woken up: the running one stays, and is told of a higher priority. -/
structure Wakes (k k' : Sched ι κ) : Prop where
  kernel : k'.kernel = k.kernel
  current : k'.current = k.current
  releasing : k'.releasing = k.releasing
  point : k'.point = k.point
  flag : k.threadWaiting = true → k'.threadWaiting = true
  top : Top k → Top k' ∨ k'.threadWaiting = true

section

omit [DecidableEq ι] [DecidableEq κ]

theorem Wakes.refl (k : Sched ι κ) : Wakes k k := ⟨rfl, rfl, rfl, rfl, id, .inl⟩

theorem Wakes.trans {k₁ k₂ : Sched ι κ} (h : Wakes k k₁) (h' : Wakes k₁ k₂) : Wakes k k₂ := by
  refine ⟨h'.kernel.trans h.kernel, h'.current.trans h.current, h'.releasing.trans h.releasing,
    h'.point.trans h.point, fun hf => h'.flag (h.flag hf), fun ht => ?_⟩
  rcases h.top ht with h₁ | h₁
  · exact h'.top h₁
  · exact .inr (h'.flag h₁)

theorem Wakes.pending (h : Wakes k k') (hp : Pending k) : Pending k' := by
  rcases hp with hp | hp | ⟨l, hl, w, hw, hlt⟩
  · rcases h.top hp with h₁ | h₁
    · exact .inl h₁
    · exact .inr (.inl h₁)
  · exact .inr (.inl (h.flag hp))
  · refine .inr (.inr ⟨l, ?_, w, ?_, ?_⟩)
    · rw [h.releasing, h.current]
      exact hl
    · rw [waiters, h.kernel]
      exact hw
    · rw [priority, priority, h.kernel, h.current]
      exact hlt

end

omit [DecidableEq κ] in
/-- `thread_unblock` sets the flag for a thread of a higher priority. -/
theorem makeReady_wakes (t : ι) (k : Sched ι κ) : Ensures (makeReady t) k (fun _ k' =>
    Wakes k k' ∧ (k.priority k.current < k.priority t → k'.threadWaiting = true) ∧
      (k.priority t ≤ k.priority k.current → Top k → Top k') ∧
      k'.wakeTime = k.wakeTime) := by
  rw [ensures_makeReady]
  intro _
  rw [noteWaiting]
  have hpush : ∀ k' : Sched ι κ, k'.kernel = k.kernel → k'.current = k.current →
      k'.readyList = k.readyList ++ [t] → k.priority t ≤ k.priority k.current → Top k →
      Top k' := by
    intro k' hk hc hr hle htop u hu
    rw [hr, mem_append, mem_singleton] at hu
    rw [priority, priority, hk, hc]
    rcases hu with hu | hu
    · exact htop u hu
    · rw [hu]
      exact hle
  split_ifs with hlt
  · exact ⟨⟨rfl, rfl, rfl, rfl, fun _ => rfl, fun _ => .inr rfl⟩, fun _ => rfl,
      hpush _ rfl rfl rfl, rfl⟩
  · have hle : k.priority t ≤ k.priority k.current := not_lt.mp hlt
    refine ⟨⟨rfl, rfl, rfl, rfl, id, fun htop => .inl ?_⟩, fun h => absurd h hlt,
      hpush _ rfl rfl rfl, rfl⟩
    exact hpush _ rfl rfl rfl hle htop

/-- `sema_up` wakes the waiter of the highest priority, so it sets the flag if any has a higher
    priority than the running thread. -/
theorem wakeHighest_flag (hb : k.kernel.Bounded) (s : κ)
    (h : Top k ∨ k.threadWaiting = true ∨ ∃ w ∈ k.waiters s, k.priority k.current < k.priority w) :
    Ensures (wakeHighest s) k (fun _ k' =>
      k'.kernel.Bounded ∧ (Top k' ∨ k'.threadWaiting = true)) := by
  rw [wakeHighest, ensures_get]
  split_ifs with hws
  · rw [ensures_get]
    cases hhigh : listHighestPriority k.priority (k.waiters s) with
    | none => exact ensures_stop
    | some v =>
      obtain ⟨-, -, hall⟩ := listHighestPriority_spec hhigh
      rw [ensures_put]
      refine (makeReady_wakes v _).mono (fun _ k' hk' => ?_)
      obtain ⟨hwakes, hset, -, -⟩ := hk'
      refine ⟨hb.congr (by rw [hwakes.kernel]; rfl), ?_⟩
      rcases h with h | h | ⟨w, hw, hlt⟩
      · exact hwakes.top (h.congr rfl rfl rfl)
      · exact .inr (hwakes.flag h)
      · have hle : (k.kernel.priority w).bmod 256 ≤ (k.kernel.priority v).bmod 256 := hall w hw
        rw [hb.bmod, hb.bmod] at hle
        exact .inr (hset (lt_of_lt_of_le hlt hle))
  · rw [ensures_pure]
    refine ⟨hb, ?_⟩
    rcases h with h | h | ⟨w, hw, -⟩
    · exact .inl h
    · exact .inr h
    · exact absurd (ne_nil_of_mem hw) hws

theorem semaUp_keeps (hb : k.kernel.Bounded) (s : κ)
    (h : Top k ∨ k.threadWaiting = true ∨ ∃ w ∈ k.waiters s, k.priority k.current < k.priority w) :
    Ensures (semaUp s) k (fun _ k' => Keeps k') := by
  apply withIntrOff_keeps
  refine Ensures.bind (wakeHighest_flag (k := setLevel .off k) hb s h) (fun _ k' hk' => ?_)
  rw [ensures_update]
  refine ⟨hk'.1.congr rfl, ?_⟩
  rcases hk'.2 with htop | hflag
  · exact .inl (htop.congr rfl rfl rfl)
  · exact .inr hflag

/-! ### Semaphores -/

theorem semaLoop_keeps (hb : k.kernel.Bounded) (h : Top k ∨ k.threadWaiting = true) (s : κ)
    (old : Level) : Ensures (semaLoop s old) k (fun _ k' => Keeps k') := by
  rw [semaLoop, ensures_get]
  split_ifs
  · rw [ensures_put]
    exact threadBlock_top (hb.congr rfl)
  · rw [ensures_put]
    generalize hk' : setSema s (fun m => { m with value := m.value - 1 }) k = k'
    have hb' : k'.kernel.Bounded := hb.congr (by rw [← hk']; rfl)
    refine intrSetLevel_keeps hb' ?_ old
    rw [← hk']
    exact h.imp (fun htop => htop.congr rfl rfl rfl) id

theorem semaDown_keeps (hb : k.kernel.Bounded) (h : Top k ∨ k.threadWaiting = true) (s : κ) :
    Ensures (semaDown s) k (fun _ k' => Keeps k') := by
  rw [semaDown, ensures_get, ensures_put]
  exact semaLoop_keeps (k := setLevel .off k) hb h s k.level

theorem semaTryDown_keeps (hb : k.kernel.Bounded) (h : Top k ∨ k.threadWaiting = true) (s : κ)
    (l : Option κ) : Ensures (semaTryDown s l) k (fun _ k' => Keeps k') := by
  apply withIntrOff_keeps
  rw [ensures_get]
  split_ifs
  · rw [ensures_put, ensures_update]
    exact ⟨hb.congr rfl, h.imp (fun htop => htop.congr rfl rfl rfl) id⟩
  · exact ensures_pure.mpr ⟨hb, h⟩

/-! ### The timer interrupt -/

section

omit [DecidableEq κ]

/-- The threads that the timer wakes up; if none has a higher priority, nothing is pending. -/
theorem wakeEach_wakes (now : Int) (ts : List ι) (k : Sched ι κ) (hnodup : ts.Nodup) :
    Ensures (wakeEach now ts) k (fun _ k' => Wakes k k' ∧
      ((∀ t ∈ ts, k.wakeTime t ≤ now → k.priority t ≤ k.priority k.current) → Top k → Top k')) := by
  induction ts generalizing k with
  | nil => exact ensures_pure.mpr ⟨.refl k, fun _ => id⟩
  | cons t ts ih =>
    obtain ⟨hnot, hnodup⟩ := nodup_cons.mp hnodup
    rw [wakeEach, ensures_get]
    by_cases hwake : now ≥ k.wakeTime t
    · rw [if_pos hwake, ensures_put, ensures_put]
      refine (makeReady_wakes t _).bind (fun _ k₁ hk₁ => ?_)
      obtain ⟨hwakes, -, htop, htime⟩ := hk₁
      -- taking the thread off the sleeping list is not seen
      have hfirst : Wakes k k₁ := by
        refine ⟨hwakes.kernel, hwakes.current, hwakes.releasing, hwakes.point, hwakes.flag, ?_⟩
        exact fun h => hwakes.top (h.congr rfl rfl rfl)
      refine (ih k₁ hnodup).mono (fun _ k' hk' => ⟨hfirst.trans hk'.1, fun hlow h => ?_⟩)
      apply hk'.2
      · intro u hu hle
        have hne : u ≠ t := fun he => hnot (he ▸ hu)
        rw [htime] at hle
        simp only [Function.update_of_ne hne] at hle
        have hlow' := hlow u (mem_cons_of_mem t hu) hle
        rw [priority, priority, hfirst.kernel, hfirst.current]
        exact hlow'
      · exact htop (hlow t mem_cons_self hwake) (h.congr rfl rfl rfl)
    · rw [if_neg hwake]
      refine (ih k hnodup).mono (fun _ k' hk' => ⟨hk'.1, fun hlow h => ?_⟩)
      exact hk'.2 (fun u hu => hlow u (mem_cons_of_mem t hu)) h

/-- A timer interrupt that wakes nobody of a higher priority, or that ends the time slice. -/
theorem timerInterrupt_keeps (hk : Keeps k) (hon : k.level = .on) (hown : k.point k.current = .own)
    (hnodup : k.sleepingList.Nodup)
    (hslice : k.threadTicks + 1 ≥ timeSlice ∨ ∀ t ∈ k.sleepingList, k.wakeTime t ≤ k.ticks + 1 →
      k.priority t ≤ k.priority k.current) : Ensures timerInterrupt k (fun _ k' => Keeps k') := by
  simp only [timerInterrupt, wakeSleepingThreads, ensures_bind, ensures_update, ensures_read,
    ensures_assert]
  refine fun _ => (wakeEach_wakes (k.ticks + 1) k.sleepingList _ hnodup).mono (fun _ k' hk' => ?_)
  obtain ⟨hwakes, hlow⟩ := hk'
  have hb : k'.kernel.Bounded := by
    rw [hwakes.kernel]
    exact hk.bounded
  split_ifs with hend
  · exact threadYield_top hb
  · rw [ensures_update]
    have hnone : ∀ t ∈ k.sleepingList, k.wakeTime t ≤ k.ticks + 1 →
        k.priority t ≤ k.priority k.current := by
      rcases hslice with hslice | hslice
      · exact absurd (decide_eq_true hslice) hend
      · exact hslice
    refine ⟨hb, ?_, fun hr _ => ?_, fun hne => ?_⟩
    · exact hwakes.pending hk.pending
    · have hr' : k.releasing k.current = none := by
        have hr : k'.releasing k'.current = none := hr
        rw [hwakes.releasing, hwakes.current] at hr
        exact hr
      exact hlow hnone (hk.on hr' hon)
    · have hne : k'.point k'.current ≠ .own := hne
      rw [hwakes.point, hwakes.current] at hne
      exact absurd hown hne

end

/-! ### Locks and priorities -/

omit [DecidableEq κ] in
/-- Donating gives away the priority of the running thread, and no more. -/
theorem donateToHolder_top [Fintype ι] {holder : Option ι} (l : κ) (hb : k.kernel.Bounded)
    (hne : holder ≠ some k.current) :
    Ensures (donateToHolder k.current l holder) k.kernel (fun _ c =>
      c.Bounded ∧ (Top k → Top { k with kernel := c })) := by
  cases holder with
  | none => exact ensures_pure.mpr ⟨hb, id⟩
  | some h =>
    have hth : k.current ≠ h := fun he => hne (by rw [he])
    refine (donateToHolder_ensures hth l k.kernel).mono (fun _ c hc => ?_)
    rcases hc with ⟨-, hc⟩ | ⟨-, hc⟩
    · rw [hc]
      exact ⟨hb, id⟩
    -- a priority is what it was, or that of the running thread
    have hpri : ∀ u, c.priority u = k.kernel.priority u ∨
        c.priority u = k.kernel.priority k.current := by
      intro u
      by_cases hu : u ∈ k.kernel.chain h
      · exact .inr (hc.inside u hu)
      · exact .inl (hc.outside u hu)
    have hcur : c.priority k.current = k.kernel.priority k.current := by
      rcases hpri k.current with he | he <;> exact he
    refine ⟨⟨fun u => ?_, fun u => ?_, fun u => ?_⟩, fun htop u hu => ?_⟩
    · rcases hpri u with he | he
      · rw [he]
        exact hb.priority u
      · rw [he]
        exact hb.priority k.current
    · rw [hc.orig]
      exact hb.orig u
    · rw [hc.donors]
      split_ifs with hu
      · rw [hu, mem_append, mem_singleton]
        rintro (hmem | he)
        · exact hb.donors h hmem
        · exact hth he.symm
      · exact hb.donors u
    · show c.priority u ≤ c.priority k.current
      rw [hcur]
      rcases hpri u with he | he
      · rw [he]
        exact htop u hu
      · rw [he]

/-- `lock_release` gives the holder the greatest priority that is left to it. -/
theorem restorePriority_ensures (t : ι) (l : κ) (hb : c.Bounded) :
    Ensures (restorePriority t l) c (fun _ c' => c'.lock = c.lock ∧ c'.Bounded ∧
      IsGreatest (Restored c t l) (c'.priority t) ∧
      ∀ u, u ≠ t → c'.priority u = c.priority u) := by
  simp only [restorePriority, ensures_bind, ensures_read, ensures_update]
  rw [donors_setThread]
  have hds : ∀ d ∈ c.donors t, d ≠ t := fun d hd he => hb.donors t (he ▸ hd)
  refine (releaseAll_ensures t l c hds).mono (fun _ c' hc' => ?_)
  have hrest : ∀ u, u ≠ t → c'.thread u = c.thread u := by
    intro u hu
    rw [hc', setThread_thread, if_neg hu]
  have hself : c'.thread t = restored c t l := by rw [hc', setThread_thread, if_pos rfl]
  have hgreat : IsGreatest (Restored c t l) (c'.priority t) := by
    rw [Kernel.priority, hself]
    exact restored_priority c t l
  obtain ⟨hdonors, horig, -⟩ := restored_donors c t l
  refine ⟨by rw [hc']; rfl, hb.replace ⟨?_, ?_, ?_⟩ hrest, hgreat, fun u hu => ?_⟩
  · show 0 ≤ c'.priority t ∧ c'.priority t ≤ 127
    rcases hgreat.1 with he | ⟨d, -, -, he⟩
    · exact he ▸ hb.orig t
    · exact he ▸ hb.priority d
  · rw [hself, horig]
    exact hb.orig t
  · rw [hself, hdonors]
    exact fun hin => hb.donors t (diff_subset _ _ hin)
  · rw [Kernel.priority, hrest u hu]
    rfl

/-- A lock can be given back without leaving the processor to the wrong thread: a switch is due
    anyway, or the ready threads have no more than what is left to the running one, or a thread that
    waits for the lock has more than that. -/
def ReleasesInOrder (k : Sched ι κ) (l : κ) : Prop :=
  k.threadWaiting = true ∨
    (∀ u ∈ k.readyList, k.priority u ≤ k.kernel.origPriority k.current ∨
      ∃ d ∈ k.kernel.donors k.current, k.kernel.needed d ≠ some l ∧
        k.priority u ≤ k.priority d) ∨
    ∃ w ∈ k.waiters l, k.kernel.origPriority k.current < k.priority w ∧
      ∀ d ∈ k.kernel.donors k.current, k.kernel.needed d ≠ some l → k.priority d < k.priority w

theorem lockRelease_keeps {l : κ} (hg : Good k) (hb : k.kernel.Bounded)
    (hown : k.point k.current = .own) (h : ReleasesInOrder k l) :
    Ensures (lockRelease l) k (fun _ k' => Keeps k') := by
  simp only [lockRelease, onKernel, ensures_bind, ensures_read, ensures_assert, ensures_zoom,
    ensures_update]
  intro _
  refine (restorePriority_ensures k.current l hb).mono (fun _ c hc => ?_)
  obtain ⟨hlock, hb', ⟨hleft, hgreat⟩, hother⟩ := hc
  generalize hk' : setReleasing k.current (some l) { k with kernel := c } = k'
  have hrel : k'.releasing k'.current = some l := by
    rw [← hk']
    exact Function.update_self ..
  have hpri : ∀ u, k'.priority u = c.priority u := by
    intro u
    rw [← hk']
    rfl
  have hcur : k'.current = k.current := by rw [← hk']; rfl
  have hb'' : k'.kernel.Bounded := by
    rw [← hk']
    exact hb'
  refine ⟨hb'', ?_, fun hnone => ?_, fun hne => ?_⟩
  · rcases h with hflag | hready | ⟨w, hw, horig, hdonors⟩
    · refine .inr (.inl ?_)
      rw [← hk']
      exact hflag
    · refine .inl (fun u hu => ?_)
      have hu : u ∈ k.readyList := by
        rw [← hk'] at hu
        exact hu
      rw [hpri, hpri, hcur]
      by_cases hut : u = k.current
      · rw [hut]
      · rw [hother u hut]
        rcases hready u hu with hle | ⟨d, hd, hneed, hle⟩
        · exact le_trans hle (hgreat (.inl rfl))
        · exact le_trans hle (hgreat (.inr ⟨d, hd, hneed, rfl⟩))
    · -- the waiter is asleep, so it is not the running thread
      have hwt : w ≠ k.current := by
        obtain ⟨house, hfit⟩ := hg
        intro he
        have hmem := (hfit.housed.mem (.waiters l) w).mp hw
        rw [he, hfit.current_none] at hmem
        cases hmem
      refine .inr (.inr ⟨l, hrel, w, ?_, ?_⟩)
      · rw [← hk']
        show w ∈ (c.lock l).waiters
        rw [hlock]
        exact hw
      · rw [hpri, hpri, hcur, hother w hwt]
        rcases hleft with he | ⟨d, hd, hneed, he⟩
        · rw [he]
          exact horig
        · rw [← he]
          exact hdonors d hd hneed
  · rw [hrel] at hnone
    cases hnone
  · rw [← hk'] at hne
    exact absurd hown hne

omit [DecidableEq κ] in
theorem threadSetPriority_bounded (t : ι) {p : Int} (hp : 0 ≤ p ∧ p ≤ 127) (hb : c.Bounded) :
    Ensures (Kernel.threadSetPriority t p) c (fun _ c' => c'.Bounded) := by
  have hset : ∀ (f : Tcb ι κ → Tcb ι κ) {c : Kernel ι κ}, c.Bounded →
      (f (c.thread t)).Bounded t → (setThread t f c).Bounded := by
    intro f c hb hf
    apply hb.replace
    · rw [setThread_thread, if_pos rfl]
      exact hf
    · intro u hu
      rw [setThread_thread, if_neg hu]
  have horig := hset (fun th => { th with origPriority := p }) hb ⟨hb.priority t, hp, hb.donors t⟩
  have hboth := hset (fun th => { th with priority := p }) horig ⟨hp, horig.orig t, horig.donors t⟩
  rw [Kernel.threadSetPriority, ensures_put, ensures_get]
  split_ifs
  · exact ensures_update.mpr hboth
  · exact ensures_update.mpr hboth
  · exact ensures_pure.mpr horig

omit [DecidableEq ι] [DecidableEq κ] in
/-- A thread that is not on the ready list gets its fields. -/
theorem Keeps.fresh {p : Int} (hk : Keeps k) (hfree : k.Free) (hne : k.current ≠ t)
    (hout : t ∉ k.readyList) (hp : 0 ≤ p ∧ p ≤ 127)
    (hself : k'.kernel.thread t = ⟨p, p, none, []⟩)
    (hother : ∀ u, u ≠ t → k'.kernel.thread u = k.kernel.thread u)
    (hr : k'.readyList = k.readyList) (hc : k'.current = k.current) (hl : k'.level = k.level)
    (hw : k'.threadWaiting = k.threadWaiting) (hpoint : k'.point k.current = k.point k.current) :
    Keeps k' := by
  have htop : Top k → Top k' := by
    intro htop u hu
    rw [hr] at hu
    have hut : u ≠ t := fun he => hout (he ▸ hu)
    simp only [priority, Kernel.priority, hc]
    rw [hother u hut, hother k.current hne]
    exact htop u hu
  have hfresh : (k'.kernel.thread t).Bounded t := by
    rw [hself]
    exact ⟨hp, hp, not_mem_nil⟩
  refine ⟨hk.bounded.replace hfresh hother, ?_, fun _ hon => ?_, fun hne' => ?_⟩
  · rcases hk.pending.flag hfree.2.2 with h | h
    · exact .inl (htop h)
    · exact .inr (.inl (hw.trans h))
  · rw [hl] at hon
    exact htop (hk.on hfree.2.2 hon)
  · rw [hc, hpoint] at hne'
    exact absurd hfree.1 hne'

omit [DecidableEq κ] in
theorem initThread_keeps (hg : Good k) (hk : Keeps k) (hfree : k.Free)
    (habsent : k.status t = .absent) (p : Int) :
    Ensures (initThread t p) k (fun _ k' => Keeps k') := by
  simp only [initThread, onKernel, ensures_bind, ensures_assert, ensures_update, ensures_zoom]
  intro hp
  have hrange : 0 ≤ p ∧ p ≤ 127 := by
    simp only [priMin, priMax] at hp
    omega
  obtain ⟨house, hfit⟩ := hg
  have hne : k.current ≠ t := by
    intro he
    rw [← he, hfit.running] at habsent
    cases habsent
  have hout : t ∉ k.readyList := by
    intro hin
    have hready := ((hfit.placed t).ready.mp ((hfit.housed.mem .ready t).mp hin)).1
    rw [habsent] at hready
    cases hready
  refine hk.fresh hfree hne hout hrange ?_ (fun u hu => ?_) rfl rfl rfl rfl ?_
  · exact Function.update_self ..
  · exact Function.update_of_ne hu ..
  · exact Function.update_of_ne hne ..

/-! ### Runs -/

theorem resume_keeps (hk : Keeps k) (hne : k.point k.current ≠ .own) :
    Ensures resume k (fun _ k' => Keeps k') := by
  have hb := hk.bounded
  have htop := hk.switched hne
  rw [Sched.resume, ensures_get]
  cases hp : k.point k.current with
  | own => exact ensures_stop
  | start => exact intrSetLevel_keeps hb (.inl htop) .on
  | yielded old | slept old => exact intrSetLevel_keeps hb (.inl htop) old
  | interrupted | idle =>
    simp only [ensures_bind, ensures_update]
    exact Keeps.of_top hb (htop.congr rfl rfl rfl)
  | semaDown s old => exact semaLoop_keeps hb (.inl htop) s old
  | direct =>
    rw [ensures_update]
    exact Keeps.of_top hb (htop.congr rfl rfl rfl)

theorem releaseUp_keeps (hk : Keeps k) : Ensures releaseUp k (fun _ k' => Keeps k') := by
  rw [releaseUp, ensures_get, ensures_get]
  cases hrel : k.releasing k.current with
  | none => exact ensures_stop
  | some l =>
    simp only [ensures_bind, ensures_update]
    generalize hk' : setSema l (fun m => { m with holder := none }) (setReleasing k.current none k)
      = k'
    have hb : k'.kernel.Bounded := hk.bounded.congr (by rw [← hk']; rfl)
    apply semaUp_keeps hb
    rcases hk.pending with h | h | ⟨m, hm, w, hw, hlt⟩
    · refine .inl (h.congr ?_ ?_ ?_) <;> rw [← hk'] <;> rfl
    · refine .inr (.inl ?_)
      rw [← hk']
      exact h
    · rw [hrel] at hm
      cases hm
      refine .inr (.inr ⟨w, ?_, ?_⟩)
      · rw [← hk', setSema_waiters, if_pos rfl]
        exact hw
      · rw [← hk']
        exact hlt

end Sched

variable [DecidableEq ι] [DecidableEq κ]

/-- An operation that leaves the processor to the right thread: a timer interrupt ends the time slice
    if it wakes a thread of a higher priority, a lock is given back in order, and a priority fits an
    `int8_t`. -/
def SchedOp.InOrder (k : Sched ι κ) : SchedOp ι κ → Prop
  | tick => k.threadTicks + 1 ≥ Sched.timeSlice ∨
      ∀ t ∈ k.sleepingList, k.wakeTime t ≤ k.ticks + 1 → k.priority t ≤ k.priority k.current
  | lockRelease l => k.ReleasesInOrder l
  | setPriority p => 0 ≤ p ∧ p ≤ 127
  | _ => True

instance (k : Sched ι κ) (op : SchedOp ι κ) : Decidable (op.InOrder k) := by
  induction op using SchedOp.casesOn <;> dsimp only [SchedOp.InOrder, Sched.ReleasesInOrder] <;>
    infer_instance

namespace Sched

variable [Fintype ι] {k k' : Sched ι κ}

theorem step_keeps {op : SchedOp ι κ} (hg : Good k) (hk : Keeps k) (hstep : op.Steps k k')
    (horder : op.InOrder k) : Keeps k' := by
  obtain ⟨hready, hrun⟩ := hstep
  suffices hkeeps : Ensures op.code k (fun _ k' => Keeps k') from hkeeps () k' hrun
  have hb := hk.bounded
  have hflag : k.Free → Top k ∨ k.threadWaiting = true := fun hf => hk.pending.flag hf.2.2
  cases op with
  | init t p => exact initThread_keeps hg hk hready.1 hready.2.2 p
  | yield => exact threadYield_top hb
  | block => exact threadBlock_top hb
  | unblock t =>
    apply withIntrOff_keeps
    refine (makeReady_wakes t _).mono (fun _ k' hk' => ⟨?_, ?_⟩)
    · rw [hk'.1.kernel]
      exact hb
    · rcases hflag hready.1 with h | h
      · exact hk'.1.top h
      · exact .inr (hk'.1.flag h)
  | semaDown s => exact semaDown_keeps hb (hflag hready.1) s
  | semaTryDown s => exact semaTryDown_keeps hb (hflag hready.1) s none
  | semaUp s => exact semaUp_keeps hb s ((hflag hready).imp id .inl)
  | lockAcquire l =>
    simp only [SchedOp.code, Sched.lockAcquire, onKernel, ensures_bind, ensures_read, ensures_assert,
      ensures_zoom, ensures_update]
    intro hne
    refine (donateToHolder_top l hb hne).mono (fun _ c hc => ?_)
    obtain ⟨hfree, -⟩ := hready
    refine ⟨hc.1.congr rfl, ?_, fun _ hon => ?_, fun hne => absurd hfree.1 hne⟩
    · rcases hflag hfree with h | h
      · exact .inl ((hc.2 h).congr rfl rfl rfl)
      · exact .inr (.inl h)
    · exact (hc.2 (hk.on hfree.2.2 hon)).congr rfl rfl rfl
  | acquireDown =>
    rw [SchedOp.code, acquireDown, ensures_get]
    cases k.kernel.waiting k.current with
    | none => exact ensures_stop
    | some l => exact semaDown_keeps hb (hk.pending.flag hready.2.2.2) l
  | lockTryAcquire l =>
    simp only [SchedOp.code, Sched.lockTryAcquire, ensures_bind, ensures_read, ensures_assert]
    exact fun _ => semaTryDown_keeps hb (hflag hready.1) l (some l)
  | lockRelease l => exact lockRelease_keeps hg hb hready.1.1 horder
  | releaseUp => exact releaseUp_keeps hk
  | setPriority p =>
    rw [SchedOp.code, Sched.threadSetPriority, ensures_get, ensures_bind, onKernel, ensures_zoom]
    refine (threadSetPriority_bounded k.current horder hb).mono (fun _ c hc => ?_)
    exact threadYield_top hc
  | sleep n =>
    simp only [SchedOp.code, timerSleep, sleepFrom, ensures_bind, ensures_read, ensures_assert,
      ensures_update]
    exact fun _ => threadBlock_top hb
  | exit =>
    simp only [SchedOp.code, threadExit, ensures_bind, ensures_update]
    exact schedule_top hb
  | intrDisable =>
    exact ensures_update.mpr ⟨hb, (hflag hready.1).imp id .inl, (fun _ h => by cases h),
      fun hne => absurd hready.1.1 hne⟩
  | intrEnable => exact intrSetLevel_keeps hb (hflag hready.1) .on
  | idleStart =>
    exact ensures_update.mpr ⟨hb, (hflag hready.1).imp id .inl,
      fun _ hon => hk.on hready.1.2.2 hon, fun hne => absurd hready.1.1 hne⟩
  | idleTurn =>
    simp only [SchedOp.code, Sched.idleTurn, ensures_bind, ensures_update]
    exact threadBlock_top hb
  | tick =>
    obtain ⟨house, hfit⟩ := hg
    exact timerInterrupt_keeps hk hready.2 hready.1 (hfit.housed.nodup .sleeping) horder
  | resume => exact resume_keeps hk hready

omit [DecidableEq κ] [Fintype ι] in
theorem boot_keeps (h : k.Boot) : Keeps k := by
  apply Keeps.of_top
  · rw [bounded_iff]
    intro t
    rw [h.thread]
    split_ifs <;> simp [Tcb.Bounded, priDefault]
  · intro u hu
    rw [h.readyList] at hu
    cases hu

end Sched

/-- A run whose operations are all in order. -/
def OrderlyRun [Fintype ι] : Sched ι κ → Sched ι κ → Prop :=
  SchedRun (fun k op => op.Proper k ∧ op.InOrder k)

theorem keeps_of_run [Fintype ι] {k₀ k : Sched ι κ} (hboot : k₀.Boot) (hrun : OrderlyRun k₀ k) :
    k.Good ∧ k.Keeps := by
  induction hrun with
  | refl => exact ⟨Sched.boot_good hboot, Sched.boot_keeps hboot⟩
  | tail _ hstep ih =>
    obtain ⟨op, hstep, hproper, horder⟩ := hstep
    exact ⟨(Sched.step_order ih.1 hstep hproper).good, Sched.step_keeps ih.1 ih.2 hstep horder⟩

/-- In every run whose operations are in order: whenever the running thread is in its own code with
    interrupts on, no ready thread has a higher priority. -/
theorem highest_priority_runs [Fintype ι] {k₀ k : Sched ι κ} (hboot : k₀.Boot)
    (hrun : OrderlyRun k₀ k) (hfree : k.Free) (hon : k.level = .on) :
    ∀ u ∈ k.readyList, k.priority u ≤ k.priority k.current :=
  (keeps_of_run hboot hrun).2.on hfree.2.2 hon

/-- `main` creates a thread of priority `40`, which runs at once and sleeps for one tick. -/
def sleepOps : List (SchedOp (Fin 2) (Fin 1)) :=
  [.intrEnable, .init 1 40, .unblock 1, .resume, .sleep 1, .resume]

theorem highest_priority_runs_sleep :
    (twoThreads.after sleepOps).current = 0 ∧ (twoThreads.after sleepOps).sleepingList = [1] ∧
      ∀ u ∈ (twoThreads.after sleepOps).readyList,
        (twoThreads.after sleepOps).priority u ≤ (twoThreads.after sleepOps).priority 0 := by
  have hrun : OrderlyRun twoThreads (twoThreads.after sleepOps) := run_of_allows (by decide +kernel)
  have hcur : (twoThreads.after sleepOps).current = 0 := by decide +kernel
  have hruns := highest_priority_runs (boot_fewThreads 1) hrun (by decide +kernel)
    (by decide +kernel)
  rw [hcur] at hruns
  exact ⟨hcur, by decide +kernel, hruns⟩

/-- The timer wakes the thread of priority `40` and returns to `main`, which has priority `31`. -/
theorem woken_sleeper_waits :
    SchedRun (fun k op => op.Proper k) twoThreads (twoThreads.after (sleepOps ++ [.tick])) ∧
      (twoThreads.after (sleepOps ++ [.tick])).Free ∧
      (twoThreads.after (sleepOps ++ [.tick])).level = .on ∧
      (twoThreads.after (sleepOps ++ [.tick])).readyList = [1] ∧
      (twoThreads.after (sleepOps ++ [.tick])).current = 0 ∧
      (twoThreads.after (sleepOps ++ [.tick])).priority 1 = 40 ∧
      (twoThreads.after (sleepOps ++ [.tick])).priority 0 = 31 :=
  ⟨run_of_allows (by decide +kernel), by decide +kernel, by decide +kernel, by decide +kernel,
    by decide +kernel, by decide +kernel, by decide +kernel⟩

end KernelSanders
