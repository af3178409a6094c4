import KernelSanders.Threads.SchedulerQueues

namespace KernelSanders

open Lib Lib.Exec Relation
open List

/-!
# The order in which threads wake up and run

* `equals_take_turns` — of two ready threads with the same priority, the one in front runs first.
* `sleepers_wake_once` — a thread sleeps until the first tick at its wake time or later.
-/

variable {ι κ : Type}

/-! ### Taking turns -/

section Runs

open Sched

variable [DecidableEq ι] [DecidableEq κ] [Fintype ι] {k₀ k k' : Sched ι κ} {t u : ι}

/-- All priorities are between `PRI_MIN` and `PRI_MAX`. -/
def Sched.InRange (k : Sched ι κ) : Prop := ∀ t, priMin ≤ k.priority t ∧ k.priority t ≤ priMax

section

omit [DecidableEq ι] [DecidableEq κ] [Fintype ι]

theorem Sched.InRange.first (h : k.InRange) {l : List ι} (hl : l ≠ []) :
    ∃ us w vs, l = us ++ w :: vs ∧ (∀ x ∈ us, k.priority x < k.priority w) ∧
      (∀ x ∈ vs, k.priority x ≤ k.priority w) ∧
      Kernel.listHighestPriority k.priority l = some w :=
  Kernel.listHighestPriority_first hl (fun x _ => ⟨(h x).1, (h x).2.trans (by decide)⟩)

/-- Of two threads with the same priority, the one in front is chosen. -/
theorem Sched.InRange.choice (h : k.InRange) {m : List ι} (hm : m.Nodup) (hne : t ≠ u)
    (htu : [t, u].Sublist m) (hp : k.priority t = k.priority u) {w : ι}
    (hw : Kernel.listHighestPriority k.priority m = some w) : w ≠ u := by
  rintro rfl
  have hnil : m ≠ [] := by
    rintro rfl
    cases htu
  obtain ⟨us, v, vs, rfl, hus, -, hv⟩ := h.first hnil
  cases hw.symm.trans hv
  obtain ⟨l₁, l₂, hsplit, h₁, h₂⟩ := sublist_append_iff.mp htu
  cases l₁ with
  | nil =>
    cases hsplit
    -- the second thread would come after itself
    have hmem : w ∈ vs := by
      cases h₂ with
      | cons _ h => exact h.subset (by simp)
      | cons_cons _ h => exact absurd rfl hne
    exact (nodup_cons.mp (nodup_append.mp hm).2.1).1 hmem
  | cons x l₁ =>
    obtain ⟨rfl, -⟩ := cons.inj hsplit
    have hlt := hus t (h₁.subset mem_cons_self)
    omega

end

/-- A step after which `t` and `u` have the same priority, and before which `t` is ready. -/
def EqualStep (t u : ι) (k k' : Sched ι κ) : Prop :=
  ∃ op : SchedOp ι κ, op.Steps k k' ∧ op.Proper k ∧ k'.InRange ∧ k'.priority t = k'.priority u ∧
    t ∈ k.readyList

/-- `t` is in front of `u`, or has been chosen. -/
def Sched.InFront (t u : ι) (k : Sched ι κ) : Prop :=
  u ∈ k.readyList ∧ (t ∈ k.readyList → [t, u].Sublist k.readyList)

theorem Sched.InFront.step (hg : Good k) (hne : t ≠ u) (h : InFront t u k)
    (hstep : EqualStep t u k k') : Good k' ∧ InFront t u k' := by
  obtain ⟨op, hstep, hproper, hrange, hequal, ht⟩ := hstep
  obtain ⟨hg', ⟨m, hm, hcase⟩, -⟩ := step_order hg hstep hproper
  refine ⟨hg', ?_⟩
  have htu : [t, u].Sublist m := (h.2 ht).trans hm.sublist
  rcases hcase with hr | ⟨hw, hr⟩
  · rw [InFront, hr]
    exact ⟨htu.subset (by simp), fun _ => htu⟩
  have hcurrent : k'.current ∉ k'.readyList := by
    rw [hg'.queued.ready, hg'.choose_spec.running]
    nofun
  have hnodup : m.Nodup := by
    have hperm := perm_cons_erase (Kernel.listHighestPriority_spec hw).1
    rw [hperm.nodup_iff, nodup_cons, ← hr]
    exact ⟨hcurrent, hg'.queued.once .ready⟩
  have hwu := hrange.choice hnodup hne htu hequal hw
  rw [InFront, hr, mem_erase_of_ne hwu.symm]
  refine ⟨htu.subset (by simp), fun ht' => ?_⟩
  have hwt : k'.current ≠ t := by
    rintro rfl
    exact hcurrent (hr ▸ ht')
  have herase : [t, u].erase k'.current = [t, u] := erase_of_not_mem (by simp [hwt, hwu])
  rw [← herase]
  exact htu.erase _

/-- Among equals the one in front runs first, and `next_thread_to_run` takes the first thread of the
    highest priority. -/
theorem equals_take_turns (hboot : k₀.Boot) (hrun : ProperRun k₀ k) :
    (k.InRange → Returns nextThreadToRun k (fun next k' =>
      (k.readyList = [] ∧ next = k.idleThread ∧ k' = k) ∨
      ∃ us w vs, k.readyList = us ++ w :: vs ∧ next = some w ∧
        k' = { k with readyList := us ++ vs } ∧ (∀ x ∈ us, k.priority x < k.priority w) ∧
        ∀ x ∈ vs, k.priority x ≤ k.priority w)) ∧
    ∀ t u k', t ≠ u → [t, u].Sublist k.readyList → ReflTransGen (EqualStep t u) k k' →
      u ∈ k'.readyList := by
  constructor
  · intro hrange
    rw [nextThreadToRun, returns_get, returns_get]
    by_cases hempty : k.readyList = []
    · rw [if_pos hempty, returns_pure]
      exact .inl ⟨hempty, rfl, rfl⟩
    · obtain ⟨us, w, vs, hsplit, hus, hvs, hw⟩ := hrange.first hempty
      have hnot : w ∉ us := fun h => lt_irrefl _ (hus w h)
      rw [if_neg hempty, returns_get, hw, returns_put, returns_pure]
      refine .inr ⟨us, w, vs, hsplit, rfl, ?_, hus, hvs⟩
      rw [hsplit, erase_append_right _ hnot, erase_cons_head]
  · intro t u k' hne htu hrun'
    have hfront : Good k' ∧ InFront t u k' := by
      induction hrun' with
      | refl => exact ⟨good_of_run hboot hrun, htu.subset (by simp), fun _ => htu⟩
      | tail _ hstep ih => exact ih.2.step ih.1 hne hstep
    exact hfront.2.1

/-- `twoThreads` with one more thread that is to be created. -/
def threeThreads : Sched (Fin 3) (Fin 1) := fewThreads 2

/-- `main` creates the threads `1` and `2` and yields. -/
def turnOps : List (SchedOp (Fin 3) (Fin 1)) :=
  [.intrEnable, .init 1 31, .unblock 1, .init 2 31, .unblock 2]

theorem equals_take_turns_yield : [1, 2].Sublist (threeThreads.after turnOps).readyList ∧
    (final SchedOp.yield.code (threeThreads.after turnOps)).current = 1 ∧
    2 ∈ (final SchedOp.yield.code (threeThreads.after turnOps)).readyList := by
  have hrun : ProperRun threeThreads (threeThreads.after turnOps) :=
    run_of_allows (by decide +kernel)
  have hready : [1, 2].Sublist (threeThreads.after turnOps).readyList := by decide +kernel
  have hstep : EqualStep 1 2 (threeThreads.after turnOps)
      (final SchedOp.yield.code (threeThreads.after turnOps)) := by
    refine ⟨.yield, ⟨by decide +kernel, run_of_outcome (by decide +kernel)⟩, trivial, ?_⟩
    unfold Sched.InRange
    decide +kernel
  exact ⟨hready, by decide +kernel,
    (equals_take_turns (boot_fewThreads 2) hrun).2 1 2 _ (by decide) hready (.single hstep)⟩

/-! ### Sleeping -/

/-- A step that is no tick at the time `w` or later. -/
def SchedOp.Before (w : Int) (k : Sched ι κ) (op : SchedOp ι κ) : Prop :=
  op.Proper k ∧ (op = .tick → k.ticks + 1 < w)

theorem Sched.asleep_step {op : SchedOp ι κ} {w : Int} (hg : Good k)
    (h : t ∈ k.sleepingList ∧ k.wakeTime t = w) (hstep : op.Steps k k')
    (hop : op.Before w k) : t ∈ k'.sleepingList ∧ k'.wakeTime t = w := by
  by_cases htick : op = .tick
  · obtain ⟨kw, -, hwakened, -, hserved⟩ := timerInterrupt_good hg _ _ (htick ▸ hstep).run
    have hlate : k.ticks + 1 < k.wakeTime t := h.2 ▸ hop.2 htick
    rw [hserved.sleeping, hserved.wakeTime, hwakened.sleeping, hwakened.wakeTime t hlate]
    exact ⟨mem_filter.mpr ⟨h.1, by simpa using hlate⟩, h.2⟩
  · have hon := (step_order hg hstep hop.1).sleeping htick t h.1
    exact ⟨hon.1, hon.2.trans h.2⟩

theorem sleepers_wake_once (hboot : k₀.Boot) (hrun : ProperRun k₀ k) :
    (∀ now, Returns (wakeSleepingThreads now) (setLevel .off k) (fun _ k' => Wakened now k k')) ∧
    ∀ start n k₁ k₂, k.idleThread ≠ some k.current →
      (sleepFrom start n).run k = .ok ((), k₁) →
      SchedRun (fun k op => op.Before (start + n) k) k₁ k₂ →
      (k₂.status k.current = .blocked ∧ k₂.sleepingList.count k.current = 1 ∧
        k.current ∉ k₂.readyList) ∧
      (start + n ≤ k₂.ticks + 1 → ∀ k₃, SchedOp.tick.Steps k₂ k₃ → ∃ kw,
        (wakeSleepingThreads (k₂.ticks + 1)).run (ticked k₂) = .ok ((), kw) ∧
        kw.readyList.count k.current = 1 ∧ kw.status k.current = .ready ∧
        Chosen kw.readyList k₃ ∧ k.current ∉ k₃.sleepingList) := by
  have hg := good_of_run hboot hrun
  constructor
  · intro now
    have hoff : Good (setLevel .off k) := hg.frame rfl rfl rfl rfl rfl
    refine (wakeSleepingThreads_returns now hoff rfl).mono (fun _ k' h => ?_)
    obtain ⟨-, hs, hr, hst, hw⟩ := h
    exact ⟨hs, hr, hst, hw⟩
  intro start n k₁ k₂ hidle hsleep hrun₁
  have hasleep : Good k₂ ∧ k.current ∈ k₂.sleepingList ∧ k₂.wakeTime k.current = start + n := by
    induction hrun₁ with
    | refl =>
      obtain ⟨hg₁, -, hs, hw⟩ := sleepFrom_good hg hidle _ _ _ _ hsleep
      exact ⟨hg₁, by simp [hs], by rw [hw, Function.update_self]⟩
    | tail _ hstep ih =>
      obtain ⟨op, hstep, hop⟩ := hstep
      exact ⟨(step_order ih.1 hstep hop.1).good, asleep_step ih.1 ih.2 hstep hop⟩
  obtain ⟨hg₂, hmem, htime⟩ := hasleep
  have hq := hg₂.queued
  have hblocked := hq.sleeping _ hmem
  have hnot : k.current ∉ k₂.readyList := by
    rw [hq.ready, hblocked]
    nofun
  have hcount : k₂.sleepingList.count k.current = 1 :=
    count_eq_one_of_mem (hq.once .sleeping) hmem
  refine ⟨⟨hblocked, hcount, hnot⟩, fun hdue k₃ hstep => ?_⟩
  obtain ⟨kw, hrunw, hwakened, -, hserved⟩ := timerInterrupt_good hg₂ _ _ hstep.run
  rw [← htime] at hdue
  refine ⟨kw, hrunw, ?_, hwakened.status _ hmem hdue, hserved.ready, ?_⟩
  · rw [hwakened.ready, count_append, count_eq_zero_of_not_mem hnot, Nat.zero_add,
      count_filter (by simpa using hdue), hcount]
  · rw [hserved.sleeping, hwakened.sleeping, mem_filter]
    simp [hdue]

/-- `main` creates thread `1` and yields to it. -/
def yieldOps : List (SchedOp (Fin 2) (Fin 1)) :=
  [.intrEnable, .init 1 31, .unblock 1, .yield, .resume]

/-- Thread `1` has called `timer_sleep (1)`, and `main` runs. -/
def oneAsleep : Sched (Fin 2) (Fin 1) :=
  (final (sleepFrom 0 1) (twoThreads.after yieldOps)).after [.resume]

theorem sleepers_wake_once_tick :
    oneAsleep.status 1 = .blocked ∧ 1 ∉ (final SchedOp.tick.code oneAsleep).sleepingList := by
  have hrun : ProperRun twoThreads (twoThreads.after yieldOps) := run_of_allows (by decide +kernel)
  have hsleep := (sleepers_wake_once (boot_fewThreads 1) hrun).2 0 1 _ oneAsleep (by decide +kernel)
    (run_of_outcome (by decide +kernel)) (.single ⟨.resume, ⟨by decide +kernel, run_of_outcome
      (by decide +kernel)⟩, trivial, nofun⟩)
  obtain ⟨kw, -, -, -, -, hwoken⟩ := hsleep.2 (by decide +kernel) (final SchedOp.tick.code oneAsleep)
    ⟨by decide +kernel, run_of_outcome (by decide +kernel)⟩
  exact ⟨hsleep.1.1, hwoken⟩

end Runs

end KernelSanders
