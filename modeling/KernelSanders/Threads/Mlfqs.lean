import KernelSanders.Kernel.Arith
import KernelSanders.Threads.DonationEffects

namespace KernelSanders

open Lib Lib.Exec Relation Kernel

/-!
# `threads/thread.c` with `thread_mlfqs` on — priorities from ticks and from locks

The multi-level feedback queue scheduler computes a thread's priority from `recent_cpu` and `nice`,
for all threads at every fourth tick and for one in `thread_set_nice`.  The lock operations are
those of `Donation.lean`: they do not look at `thread_mlfqs`, so they donate and restore priorities
in this mode too.

`mlfqs_undisturbed` says when they leave the computed priorities alone: no `lock_acquire` may find
a holder with a lower priority, and a thread that releases a lock must happen to have its
`orig_priority`, which nothing updates in this mode.

The number of ready threads, which `update_load_avg` reads, is an argument of the tick.
-/

/-! ### `threads/fixed_point.c` -/

namespace FixedPoint

/-- `FIXED_POINT_MULTIPLIER`. -/
def multiplier : Int := 2 ^ 14

/-- `to_fp`. -/
def toFp (n : Int) : Int := wrap (n * multiplier)

/-- `round_fp`. -/
def roundFp (x : Int) : Int :=
  if x > 0 then (wrap (x + multiplier.tdiv 2)).tdiv multiplier
  else (wrap (x - multiplier.tdiv 2)).tdiv multiplier

/-- `add`. -/
def add (x n : Int) : Int := wrap (x + toFp n)

/-- `multiply`. -/
def multiply (x y : Int) : Int := wrap ((x * y).tdiv multiplier)

/-- `divide`; a division by zero is a fault. -/
def divide {σ : Type} (x y : Int) : Exec σ Int :=
  if y = 0 then stop .fault else pure (wrap ((x * multiplier).tdiv y))

end FixedPoint

open FixedPoint

/-! ### The scheduler -/

def priMin : Int := 0

def priDefault : Int := 31

def priMax : Int := 63

/-- The threads and locks, and what the scheduler keeps.  `ticks` is the sum of the three counters of
    ticks. -/
structure Mlfqs (ι κ : Type) where
  kernel : Kernel ι κ
  nice : ι → Int
  recentCpu : ι → Int
  loadAvg : Int
  loadCoefficient : Int
  idleThread : Option ι
  allList : List ι
  ticks : Nat

/-- The priority that `thread_update_mlfqs_priority` gives. -/
def mlfqsPriority (recentCpu nice : Int) : Int :=
  let update := wrap (wrap (priMax - roundFp (recentCpu.tdiv 4)) - wrap (nice * 2))
  if update < priMin then priMin else if update > priMax then priMax else update

namespace Mlfqs

variable {ι κ : Type} [DecidableEq ι] [DecidableEq κ]

def priority (m : Mlfqs ι κ) (t : ι) : Int := m.kernel.priority t

/-- Code of `synch.c`. -/
def onKernel {α : Type} (x : Exec (Kernel ι κ) α) : Exec (Mlfqs ι κ) α :=
  zoom Mlfqs.kernel (fun k m => { m with kernel := k }) x

/-- `thread_foreach` over the threads of a list. -/
def threadForeach (func : ι → Exec (Mlfqs ι κ) Unit) : List ι → Exec (Mlfqs ι κ) Unit
  | [] => pure ()
  | t :: ts => do
    func t
    threadForeach func ts

/-- `thread_update_mlfqs_priority`. -/
def threadUpdateMlfqsPriority (t : ι) : Exec (Mlfqs ι κ) Unit := do
  let idle ← read (fun m => m.idleThread)
  if some t = idle then pure ()
  else update (fun m => { m with kernel := setThread t (fun th =>
    { th with priority := mlfqsPriority (m.recentCpu t) (m.nice t) }) m.kernel })

/-- `update_recent_cpu`. -/
def updateRecentCpu (t : ι) : Exec (Mlfqs ι κ) Unit := do
  let loadAvg ← read (fun m => m.loadAvg)
  let a ← divide (wrap (2 * loadAvg)) (wrap (wrap (2 * loadAvg) + toFp 1))
  update (fun m =>
    let recentCpu := wrap (multiply (m.recentCpu t) a + toFp (m.nice t))
    { m with recentCpu := Function.update m.recentCpu t recentCpu })

/-- `update_load_avg`, with `ready` threads on the ready list. -/
def updateLoadAvg (current : ι) (ready : Nat) : Exec (Mlfqs ι κ) Unit :=
  update (fun m =>
    let running : Int := if some current = m.idleThread then 0 else 1
    let share := wrap ((toFp 1).tdiv 60 * (ready + running))
    { m with loadAvg := wrap (multiply ((toFp 59).tdiv 60) m.loadAvg + share) })

/-- What `thread_tick` does once a second. -/
def everySecond (current : ι) (ready : Nat) (all : List ι) : Exec (Mlfqs ι κ) Unit := do
  updateLoadAvg current ready
  let loadAvg ← read (fun m => m.loadAvg)
  let c ← divide (wrap (2 * loadAvg)) (add (wrap (2 * loadAvg)) 1)
  update (fun m => { m with loadCoefficient := c })
  threadForeach updateRecentCpu all

/-- `thread_tick` while thread `current` runs: what it does to the fields above. -/
def threadTick (current : ι) (ready : Nat) : Exec (Mlfqs ι κ) Unit := do
  update (fun m => { m with ticks := m.ticks + 1 })
  update (fun m =>
    { m with recentCpu := Function.update m.recentCpu current (add (m.recentCpu current) 1) })
  let ticks ← read (fun m => wrap m.ticks)
  let all ← read (fun m => m.allList)
  if ticks.tmod 100 = 0 then everySecond current ready all else pure ()
  if ticks.tmod 4 = 0 then threadForeach threadUpdateMlfqsPriority all else pure ()

/-- `thread_set_nice` by thread `t`. -/
def threadSetNice (t : ι) (nice : Int) : Exec (Mlfqs ι κ) Unit := do
  update (fun m => { m with nice := Function.update m.nice t nice })
  threadUpdateMlfqsPriority t

end Mlfqs

/-! ### Runs -/

/-- What happens: timer ticks, changes of `nice`, and what threads do to locks. -/
inductive MlfqsOp (ι κ : Type) where
  | tick (current : ι) (ready : Nat)
  | setNice (t : ι) (nice : Int)
  | acquire (t : ι) (l : κ)
  | tryAcquire (t : ι) (l : κ)
  | resume (t : ι)
  | release (t : ι) (l : κ)

open MlfqsOp

variable {ι κ : Type} [DecidableEq ι] [DecidableEq κ] {op : MlfqsOp ι κ} {m m' : Mlfqs ι κ}

namespace MlfqsOp

open Mlfqs

def code [Fintype ι] : MlfqsOp ι κ → Exec (Mlfqs ι κ) Unit
  | tick current ready => threadTick current ready
  | setNice t nice => threadSetNice t nice
  | acquire t l => onKernel (lockAcquire t l)
  | tryAcquire t l => do
    let _ ← onKernel (lockTryAcquire t l)
  | resume t => onKernel (Kernel.resume t)
  | release t l => onKernel (lockRelease t l)

/-- The thread of the operation can run. -/
def Ready (m : Mlfqs ι κ) : MlfqsOp ι κ → Prop
  | tick t _ | setNice t _ | acquire t _ | tryAcquire t _ | release t _ => m.kernel.waiting t = none
  | resume t => ∃ l, m.kernel.waiting t = some l ∧ t ∉ (m.kernel.lock l).waiters

/-- The operation takes `m` to `m'`. -/
structure Steps [Fintype ι] (op : MlfqsOp ι κ) (m m' : Mlfqs ι κ) : Prop where
  ready : op.Ready m
  run : op.code.run m = .ok ((), m')

/-- The operation executes `thread_update_mlfqs_priority` on thread `t`. -/
def Updates (m : Mlfqs ι κ) (t : ι) : MlfqsOp ι κ → Prop
  | tick _ _ => (m.ticks + 1) % 4 = 0 ∧ t ∈ m.allList
  | setNice u _ => u = t
  | acquire _ _ | tryAcquire _ _ | resume _ | release _ _ => False

/-- The locks leave the priorities alone: nobody donates, and nothing else than the current priority
    is restored. -/
def LeavesAlone (m : Mlfqs ι κ) : MlfqsOp ι κ → Prop
  | acquire t l => ∀ h, m.kernel.holder l = some h → m.priority t ≤ m.priority h
  | release t _ => m.priority t = m.kernel.origPriority t
  | tick _ _ | setNice _ _ | tryAcquire _ _ | resume _ => True

end MlfqsOp

/-! ### The locks -/

namespace Mlfqs

section Locks

variable {k : Kernel ι κ} {t : ι} {l : κ}

theorem downThenHold_thread (t : ι) (l : κ) (k : Kernel ι κ) :
    Ensures (downThenHold t l) k (fun _ k' => k'.thread = k.thread) := by
  refine (downThenHold_ensures t l k).mono (fun _ k' hk' => ?_)
  rcases hk' with ⟨-, hpark⟩ | ⟨-, htake⟩
  · exact hpark.thread
  · exact htake.thread

/-- Without a holder of lower priority `lock_acquire` changes no thread. -/
theorem lockAcquire_thread [Fintype ι]
    (hle : ∀ h, k.holder l = some h → k.priority t ≤ k.priority h) :
    Ensures (lockAcquire t l) k (fun _ k' => k'.thread = k.thread) := by
  rw [lockAcquire, ensures_get, ensures_check]
  intro hne
  rw [ensures_bind]
  cases hh : (k.lock l).holder with
  | none => exact ensures_pure.mpr (downThenHold_thread t l k)
  | some h =>
    have hto : t ≠ h := fun hto => hne (hto ▸ hh)
    refine (donateToHolder_ensures hto l k).mono (fun _ k₁ hk₁ => ?_)
    rcases hk₁ with ⟨-, rfl⟩ | ⟨hlt, -⟩
    · exact downThenHold_thread t l _
    · exact absurd hlt (not_lt.mpr (hle h hh))

/-- Without donors `lock_release` restores the original priority. -/
theorem lockRelease_restores (hd : k.donors t = []) :
    Ensures (lockRelease t l) k (fun _ k' => k'.priority t = k.origPriority t ∧
      k'.donors t = [] ∧ ∀ u, u ≠ t → k'.thread u = k.thread u) := by
  have hnodup : (k.donors t).Nodup := by
    rw [hd]
    exact List.nodup_nil
  have hother : ∀ d ∈ k.donors t, d ≠ t := by
    rw [hd]
    nofun
  refine (lockRelease_ensures t l k hnodup hother).mono (fun _ k' ⟨_, hrel⟩ => ?_)
  refine ⟨?_, ?_, hrel.others⟩
  · rcases hrel.priority.1 with h | ⟨d, hmem, -⟩
    · exact h
    · rw [hd] at hmem
      cases hmem
  · refine List.eq_nil_iff_forall_not_mem.mpr (fun d hmem => ?_)
    have := (hrel.donors d hmem).1
    rw [hd] at this
    cases this

end Locks

/-! ### Updates -/

/-- What the scheduler reads and the threads are as before, but for `recent_cpu`. -/
structure Kept (m m' : Mlfqs ι κ) : Prop where
  kernel : m'.kernel = m.kernel
  nice : m'.nice = m.nice
  idleThread : m'.idleThread = m.idleThread
  allList : m'.allList = m.allList

omit [DecidableEq ι] [DecidableEq κ] in
theorem Kept.trans {m'' : Mlfqs ι κ} (h : Kept m m') (h' : Kept m' m'') : Kept m m'' :=
  ⟨h'.kernel.trans h.kernel, h'.nice.trans h.nice, h'.idleThread.trans h.idleThread,
    h'.allList.trans h.allList⟩

theorem divide_ensures {σ : Type} (x y : Int) (s : σ) :
    Ensures (divide x y) s (fun _ s' => s' = s) := by
  rw [divide]
  split_ifs
  · exact ensures_stop
  · exact ensures_pure.mpr rfl

section

omit [DecidableEq κ]

theorem updateRecentCpu_kept (t : ι) (m : Mlfqs ι κ) :
    Ensures (updateRecentCpu t) m (fun _ m' => Kept m m') := by
  rw [updateRecentCpu, ensures_get, ensures_bind]
  refine (divide_ensures _ _ m).mono (fun a m₁ hm₁ => ?_)
  rw [hm₁, ensures_update]
  exact ⟨rfl, rfl, rfl, rfl⟩

theorem foreach_updateRecentCpu (ts : List ι) (m : Mlfqs ι κ) :
    Ensures (threadForeach updateRecentCpu ts) m (fun _ m' => Kept m m') := by
  induction ts generalizing m with
  | nil => exact ensures_pure.mpr ⟨rfl, rfl, rfl, rfl⟩
  | cons t ts ih =>
    rw [threadForeach, ensures_bind]
    refine (updateRecentCpu_kept t m).mono (fun _ m₁ h₁ => ?_)
    exact (ih m₁).mono (fun _ m' h' => h₁.trans h')

theorem everySecond_kept (current : ι) (ready : Nat) (all : List ι) (m : Mlfqs ι κ) :
    Ensures (everySecond current ready all) m (fun _ m' => Kept m m') := by
  refine ensures_bind.mpr (ensures_update.mpr (ensures_bind.mpr (ensures_read.mpr
    (ensures_bind.mpr ((divide_ensures _ _ _).mono (fun c m₁ hm₁ => ?_))))))
  rw [hm₁, ensures_put]
  exact (foreach_updateRecentCpu all _).mono (fun _ m' h =>
    ⟨h.kernel, h.nice, h.idleThread, h.allList⟩)

end

/-- The threads `ts` have the priorities that their fields give, and all others the ones they had. -/
structure Computed (m m' : Mlfqs ι κ) (ts : List ι) : Prop where
  priority : ∀ t, m'.priority t =
    if t ∈ ts ∧ some t ≠ m.idleThread then mlfqsPriority (m.recentCpu t) (m.nice t)
    else m.priority t
  donors : ∀ t, m'.kernel.donors t = m.kernel.donors t
  recentCpu : m'.recentCpu = m.recentCpu
  nice : m'.nice = m.nice
  idleThread : m'.idleThread = m.idleThread

section

omit [DecidableEq κ]

theorem threadUpdateMlfqsPriority_computed (t : ι) (m : Mlfqs ι κ) :
    Ensures (threadUpdateMlfqsPriority t) m (fun _ m' => Computed m m' [t]) := by
  rw [threadUpdateMlfqsPriority, ensures_get]
  by_cases hidle : some t = m.idleThread
  · rw [if_pos hidle]
    refine ensures_pure.mpr ⟨fun u => ?_, fun _ => rfl, rfl, rfl, rfl⟩
    rw [if_neg]
    intro ⟨hu, hne⟩
    rw [List.mem_singleton.mp hu] at hne
    exact hne hidle
  · rw [if_neg hidle, ensures_update]
    refine ⟨fun u => ?_, fun u => ?_, rfl, rfl, rfl⟩
    · rw [priority, Kernel.priority]
      simp only [Kernel.setThread_thread, List.mem_singleton]
      by_cases hu : u = t
      · rw [if_pos hu, if_pos ⟨hu, by rw [hu]; exact hidle⟩, hu]
      · rw [if_neg hu, if_neg (fun h => hu h.1)]
        rfl
    · simp only [Kernel.donors, Kernel.setThread_thread]
      split_ifs with hu
      · rw [hu]
      · rfl

theorem foreach_threadUpdateMlfqsPriority (ts : List ι) (m : Mlfqs ι κ) :
    Ensures (threadForeach threadUpdateMlfqsPriority ts) m (fun _ m' => Computed m m' ts) := by
  induction ts generalizing m with
  | nil =>
    refine ensures_pure.mpr ⟨fun t => ?_, fun _ => rfl, rfl, rfl, rfl⟩
    rw [if_neg (fun h => nomatch h.1)]
  | cons t ts ih =>
    rw [threadForeach, ensures_bind]
    refine (threadUpdateMlfqsPriority_computed t m).mono (fun _ m₁ h₁ => ?_)
    refine (ih m₁).mono (fun _ m' h' => ⟨fun u => ?_, fun u => ?_, h'.recentCpu.trans h₁.recentCpu,
      h'.nice.trans h₁.nice, h'.idleThread.trans h₁.idleThread⟩)
    · -- a second update of the same thread gives the same priority
      rw [h'.priority, h₁.priority, h₁.recentCpu, h₁.nice, h₁.idleThread]
      simp only [List.mem_cons, List.not_mem_nil, or_false]
      by_cases hmem : u ∈ ts ∧ some u ≠ m.idleThread
      · rw [if_pos hmem, if_pos ⟨.inr hmem.1, hmem.2⟩]
      · rw [if_neg hmem]
        by_cases hu : u = t ∧ some u ≠ m.idleThread
        · rw [if_pos hu, if_pos ⟨.inl hu.1, hu.2⟩]
        · rw [if_neg hu, if_neg]
          intro ⟨hor, hidle⟩
          exact hor.elim (fun h => hu ⟨h, hidle⟩) (fun h => hmem ⟨h, hidle⟩)
    · rw [h'.donors, h₁.donors]

end

/-! ### Steps and runs -/

theorem wrap_tmod_four (n : Nat) : (wrap (n : Int)).tmod 4 = 0 ↔ n % 4 = 0 := by
  have hmod : wrap (n : Int) % 4 = (n : Int) % 4 := by
    unfold wrap Int.bmod
    simp only
    split <;> omega
  rw [← Int.dvd_iff_tmod_eq_zero, Int.dvd_iff_emod_eq_zero, hmod]
  omega

/-- What one operation does to the priorities. -/
structure Effect (op : MlfqsOp ι κ) (m m' : Mlfqs ι κ) : Prop where
  same : ∀ t, ¬ op.Updates m t → m'.priority t = m.priority t
  computed : ∀ t, op.Updates m t → some t ≠ m.idleThread →
    m'.priority t = mlfqsPriority (m'.recentCpu t) (m'.nice t)
  undonated : ∀ t, m'.kernel.donors t = []

omit [DecidableEq κ] in
theorem threadTick_effect (current : ι) (ready : Nat) (m : Mlfqs ι κ)
    (hd : ∀ t, m.kernel.donors t = []) :
    Ensures (threadTick current ready) m (fun _ m' => Effect (.tick current ready) m m') := by
  -- up to the fourth ticks only `recent_cpu` and the averages change
  simp only [threadTick, ensures_bind, ensures_update, ensures_read]
  generalize hticks : wrap ((m.ticks + 1 : Nat) : Int) = ticks
  have hiff : ticks.tmod 4 = 0 ↔ (m.ticks + 1) % 4 = 0 := by
    rw [← hticks]
    exact wrap_tmod_four (m.ticks + 1)
  have hfourth : ∀ m₁ : Mlfqs ι κ, Kept m m₁ →
      Ensures (if ticks.tmod 4 = 0 then threadForeach threadUpdateMlfqsPriority m.allList
        else pure ()) m₁ (fun _ m' => Effect (.tick current ready) m m') := by
    intro m₁ h₁
    have hpri : ∀ t, m₁.priority t = m.priority t := fun t => by rw [priority, h₁.kernel]; rfl
    by_cases hfour : ticks.tmod 4 = 0
    · rw [if_pos hfour]
      refine (foreach_threadUpdateMlfqsPriority m.allList m₁).mono (fun _ m' h' =>
        ⟨fun t ht => ?_, fun t ht hidle => ?_, fun t => ?_⟩)
      · rw [h'.priority, if_neg (fun h => ht ⟨hiff.mp hfour, h.1⟩), hpri]
      · rw [h'.priority, if_pos ⟨ht.2, by rw [h₁.idleThread]; exact hidle⟩, h'.recentCpu, h'.nice]
      · rw [h'.donors, h₁.kernel, hd]
    · rw [if_neg hfour]
      refine ensures_pure.mpr ⟨fun t _ => hpri t, fun t ht => ?_, fun t => ?_⟩
      · exact absurd (hiff.mpr ht.1) hfour
      · rw [h₁.kernel, hd]
  by_cases hsecond : ticks.tmod 100 = 0
  · rw [if_pos hsecond]
    exact (everySecond_kept current ready m.allList _).bind (fun _ m₁ h₁ => hfourth m₁
      ⟨h₁.kernel, h₁.nice, h₁.idleThread, h₁.allList⟩)
  · rw [if_neg hsecond]
    exact hfourth _ ⟨rfl, rfl, rfl, rfl⟩

omit [DecidableEq ι] [DecidableEq κ] in
/-- A lock operation that changes no priority and no list of donors. -/
theorem effect_of_lock (hop : ∀ t, ¬ op.Updates m t) (hd : ∀ t, m.kernel.donors t = [])
    (h : ∀ t, m'.kernel.priority t = m.kernel.priority t ∧ m'.kernel.donors t = m.kernel.donors t) :
    Effect op m m' :=
  ⟨fun t _ => (h t).1, fun t ht => absurd ht (hop t), fun t => (h t).2.trans (hd t)⟩

theorem step_effect [Fintype ι] (h : op.Steps m m') (halone : op.LeavesAlone m)
    (hd : ∀ t, m.kernel.donors t = []) : Effect op m m' := by
  -- the threads of the kernel as a whole are unchanged in most lock operations
  have hsame : ∀ {α : Type} {x : Exec (Kernel ι κ) α},
      Ensures x m.kernel (fun _ k' => k'.thread = m.kernel.thread) → (∀ t, ¬ op.Updates m t) →
      Ensures (onKernel x) m (fun _ m' => Effect op m m') := by
    intro α x hx hop
    refine ensures_zoom.mpr (hx.mono (fun _ k' hk' => effect_of_lock hop hd (fun t => ?_)))
    rw [Kernel.priority, Kernel.donors, hk']
    exact ⟨rfl, rfl⟩
  cases op with
  | tick current ready => exact threadTick_effect current ready m hd () m' h.run
  | setNice t nice =>
    suffices hrun : Ensures (threadSetNice t nice) m (fun _ m' => Effect (.setNice t nice) m m') from
      hrun () m' h.run
    refine ensures_bind.mpr (ensures_update.mpr ?_)
    refine (threadUpdateMlfqsPriority_computed t _).mono (fun _ m₁ h₁ =>
      ⟨fun u hu => ?_, fun u hu hidle => ?_, fun u => ?_⟩)
    · have hne : u ∉ [t] := fun hmem => hu (List.mem_singleton.mp hmem).symm
      rw [h₁.priority, if_neg (fun h => hne h.1)]
      rfl
    · have hmem : u ∈ [t] := List.mem_singleton.mpr hu.symm
      rw [h₁.priority, if_pos ⟨hmem, hidle⟩, h₁.recentCpu, h₁.nice]
    · rw [h₁.donors]
      exact hd u
  | acquire t l => exact hsame (lockAcquire_thread halone) (fun _ => id) () m' h.run
  | tryAcquire t l =>
    have htry : Ensures (lockTryAcquire t l) m.kernel
        (fun _ k' => k'.thread = m.kernel.thread) := by
      refine (lockTryAcquire_ensures t l m.kernel h.ready).mono (fun b k' hk' => ?_)
      rcases hk' with ⟨-, -, htake⟩ | ⟨-, rfl⟩
      · exact htake.thread
      · rfl
    have hrun : Ensures (tryAcquire t l).code m
        (fun _ m' => Effect (.tryAcquire t l) m m') :=
      ensures_bind.mpr ((hsame htry (fun _ => id)).mono (fun _ _ hm => ensures_pure.mpr hm))
    exact hrun () m' h.run
  | resume t =>
    obtain ⟨l, hw, -⟩ := h.ready
    refine hsame ?_ (fun _ => id) () m' h.run
    rw [Kernel.resume, ensures_get, hw]
    exact downThenHold_thread t l m.kernel
  | release t l =>
    have hrel : Ensures (onKernel (lockRelease t l)) m
        (fun _ m' => Effect (.release t l) m m') := by
      refine ensures_zoom.mpr ((lockRelease_restores (hd t)).mono (fun _ k' hk' =>
        effect_of_lock (fun _ => id) hd (fun u => ?_)))
      obtain ⟨hp, hnil, ho⟩ := hk'
      by_cases hu : u = t
      · rw [hu, hnil, hd t]
        exact ⟨hp.trans halone.symm, rfl⟩
      · show (k'.thread u).priority = _ ∧ (k'.thread u).priorityDonations = _
        rw [ho u hu]
        exact ⟨rfl, rfl⟩
    exact hrel () m' h.run

end Mlfqs

/-- Any number of operations in which the locks leave the priorities alone. -/
def MlfqsRun [Fintype ι] : Mlfqs ι κ → Mlfqs ι κ → Prop :=
  ReflTransGen (fun m m' => ∃ op : MlfqsOp ι κ, op.Steps m m' ∧ op.LeavesAlone m)

/-- Such a run without an update of thread `t`. -/
def MlfqsPause [Fintype ι] (t : ι) : Mlfqs ι κ → Mlfqs ι κ → Prop :=
  ReflTransGen (fun m m' =>
    ∃ op : MlfqsOp ι κ, op.Steps m m' ∧ op.LeavesAlone m ∧ ¬ op.Updates m t)

theorem MlfqsRun.undonated [Fintype ι] {m₀ : Mlfqs ι κ} (hboot : m₀.kernel.Boot)
    (h : MlfqsRun m₀ m) : ∀ t, m.kernel.donors t = [] := by
  induction h with
  | refl => exact fun t => (hboot.thread t).2.2
  | tail _ hstep ih =>
    obtain ⟨op, hstep, halone⟩ := hstep
    exact (Mlfqs.step_effect hstep halone ih).undonated

theorem MlfqsPause.priority [Fintype ι] {t : ι} (h : MlfqsPause t m m')
    (hd : ∀ u, m.kernel.donors u = []) :
    m'.priority t = m.priority t ∧ ∀ u, m'.kernel.donors u = [] := by
  induction h with
  | refl => exact ⟨rfl, hd⟩
  | tail _ hstep ih =>
    obtain ⟨op, hstep, halone, hnot⟩ := hstep
    have heff := Mlfqs.step_effect hstep halone ih.2
    exact ⟨(heff.same t hnot).trans ih.1, heff.undonated⟩

/-- **Multi-level feedback.** After an update of thread `t` and until the next one its priority is
    the one that the update gave it. -/
theorem mlfqs_undisturbed [Fintype ι] {m₀ m₁ m₂ m₃ : Mlfqs ι κ} (hboot : m₀.kernel.Boot)
    (hbefore : MlfqsRun m₀ m₁) {op : MlfqsOp ι κ} {t : ι} (hstep : op.Steps m₁ m₂)
    (halone : op.LeavesAlone m₁) (hup : op.Updates m₁ t) (hafter : MlfqsPause t m₂ m₃) :
    m₃.priority t = m₂.priority t ∧
      (some t ≠ m₁.idleThread → m₃.priority t = mlfqsPriority (m₂.recentCpu t) (m₂.nice t)) := by
  have heff := Mlfqs.step_effect hstep halone (hbefore.undonated hboot)
  have hpause := hafter.priority heff.undonated
  exact ⟨hpause.1, fun hidle => hpause.1.trans (heff.computed t hup hidle)⟩

/-! ### Two threads -/

/-- Threads of the default priority, and nothing has happened. -/
def mlfqsBoot : Mlfqs (Fin 2) (Fin 1) where
  kernel := fresh (fun _ => priDefault)
  nice _ := 0
  recentCpu _ := 0
  loadAvg := 0
  loadCoefficient := 0
  idleThread := none
  allList := [0, 1]
  ticks := 0

/-- Thread `0` sets its `nice` and takes the lock. -/
def mlfqsNice (nice : Int) : Mlfqs (Fin 2) (Fin 1) :=
  final (setNice 0 nice).code mlfqsBoot

def mlfqsHeld (nice : Int) : Mlfqs (Fin 2) (Fin 1) :=
  final (acquire 0 0).code (mlfqsNice nice)

/-- It releases the lock. -/
def mlfqsReleased (nice : Int) : Mlfqs (Fin 2) (Fin 1) :=
  final (release 0 0).code (mlfqsHeld nice)

/-- The other thread wants the lock. -/
def mlfqsWanted (nice : Int) : Mlfqs (Fin 2) (Fin 1) :=
  final (acquire 1 0).code (mlfqsHeld nice)

theorem MlfqsOp.steps_of_outcome [Fintype ι] (hready : op.Ready m)
    (h : outcome op.code m = .ok ()) : op.Steps m (final op.code m) :=
  ⟨hready, run_of_outcome h⟩

theorem mlfqs_undisturbed_sixteen :
    (setNice 0 16).Steps mlfqsBoot (mlfqsNice 16) ∧
      MlfqsPause 0 (mlfqsNice 16) (mlfqsReleased 16) ∧
      (mlfqsReleased 16).priority 0 = mlfqsPriority 0 16 ∧ mlfqsPriority 0 16 = 31 := by
  have hnice : (setNice 0 16).Steps mlfqsBoot (mlfqsNice 16) :=
    steps_of_outcome rfl (by decide +kernel)
  have hheld : (acquire 0 0).Steps (mlfqsNice 16) (mlfqsHeld 16) :=
    steps_of_outcome (by show (mlfqsNice 16).kernel.waiting 0 = none; decide +kernel)
      (by decide +kernel)
  have hfree : (mlfqsNice 16).kernel.holder 0 = none := by decide +kernel
  have hreleased : (release 0 0).Steps (mlfqsHeld 16) (mlfqsReleased 16) :=
    steps_of_outcome (by show (mlfqsHeld 16).kernel.waiting 0 = none; decide +kernel)
      (by decide +kernel)
  -- nobody holds the lock, and `31` is the priority that releasing it restores
  have hacquire : (acquire 0 0).LeavesAlone (mlfqsNice 16) := by
    intro h hh
    rw [hfree] at hh
    cases hh
  have hrestore : (release 0 0).LeavesAlone (mlfqsHeld 16) := by
    show (mlfqsHeld 16).priority 0 = (mlfqsHeld 16).kernel.origPriority 0
    decide +kernel
  have hpause : MlfqsPause 0 (mlfqsNice 16) (mlfqsReleased 16) :=
    (ReflTransGen.single ⟨_, hheld, hacquire, id⟩).tail ⟨_, hreleased, hrestore, id⟩
  have hmain := mlfqs_undisturbed (boot_fresh _ : mlfqsBoot.kernel.Boot) .refl hnice trivial
    rfl hpause
  have hrecent : (mlfqsNice 16).recentCpu 0 = 0 ∧ (mlfqsNice 16).nice 0 = 16 := by decide +kernel
  refine ⟨hnice, hpause, ?_, by decide +kernel⟩
  rw [hmain.2 (by decide +kernel), hrecent.1, hrecent.2]

/-- Thread `0` has set its `nice` to `5` and got priority `53` for it.  Releasing a lock takes it back to
    `31`; and with a `nice` of `20` and priority `23`, the other thread's wish for its lock lifts it
    to `31`.  Neither is an update. -/
theorem mlfqs_disturbed :
    ((setNice 0 5).Steps mlfqsBoot (mlfqsNice 5) ∧
      (acquire 0 0).Steps (mlfqsNice 5) (mlfqsHeld 5) ∧
      (release 0 0).Steps (mlfqsHeld 5) (mlfqsReleased 5) ∧
      (mlfqsNice 5).priority 0 = mlfqsPriority 0 5 ∧ (mlfqsNice 5).priority 0 = 53 ∧
      (mlfqsReleased 5).priority 0 = 31) ∧
    (setNice 0 20).Steps mlfqsBoot (mlfqsNice 20) ∧
      (acquire 0 0).Steps (mlfqsNice 20) (mlfqsHeld 20) ∧
      (acquire 1 0).Steps (mlfqsHeld 20) (mlfqsWanted 20) ∧
      (mlfqsNice 20).priority 0 = mlfqsPriority 0 20 ∧ (mlfqsNice 20).priority 0 = 23 ∧
      (mlfqsWanted 20).priority 0 = 31 := by
  refine ⟨⟨?_, ?_, ?_, by decide +kernel, by decide +kernel, by decide +kernel⟩, ?_, ?_, ?_,
    by decide +kernel, by decide +kernel, by decide +kernel⟩
  · exact steps_of_outcome rfl (by decide +kernel)
  · exact steps_of_outcome (by show (mlfqsNice 5).kernel.waiting 0 = none; decide +kernel)
      (by decide +kernel)
  · exact steps_of_outcome (by show (mlfqsHeld 5).kernel.waiting 0 = none; decide +kernel)
      (by decide +kernel)
  · exact steps_of_outcome rfl (by decide +kernel)
  · exact steps_of_outcome (by show (mlfqsNice 20).kernel.waiting 0 = none; decide +kernel)
      (by decide +kernel)
  · exact steps_of_outcome (by show (mlfqsHeld 20).kernel.waiting 1 = none; decide +kernel)
      (by decide +kernel)

end KernelSanders
