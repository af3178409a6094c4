import KernelSanders.Lib.Queues
import KernelSanders.Threads.Scheduler

namespace KernelSanders

open Lib Relation
open Lib.Exec hiding update
open Function (update update_self update_of_ne update_apply update_eq_self)
open List Sched
open Kernel

/-!
# Each thread is on at most one queue

`struct thread` has one `elem`, which the ready list, the sleeping list and the wait lists of the
semaphores share.  The queues are an instance of `Housed`: `Fit k run house` says that `house` is the
queue each thread is on, that it goes with the thread's status, and that `run` is the thread that
runs.

* `schedule` makes one thread run when none does (`schedule_fit`).
* Between operations the thread that runs is `current` (`Good`), and every operation keeps that.
* An operation adds threads at the end of the ready list, and then one of them may be chosen
  (`Served`); only `timer_sleep`, the timer and `init_thread` touch the sleeping list and the wake
  times (`step_order`).

`thread_unblock` checks the status of a thread but not whether the thread is on a queue.  Its callers
see to that (`SchedOp.Proper`).
-/

/-- The queues that `elem` can be on. -/
inductive Queue (κ : Type) where
  | ready
  | sleeping
  | waiters (s : κ)
  deriving DecidableEq

/-- A thread at this point is on no queue while it is blocked: it has been created, or it has called
    `thread_block` itself. -/
def Point.Bare {κ : Type} (p : Point κ) : Prop := p = .start ∨ p = .direct

instance {κ : Type} [DecidableEq κ] (p : Point κ) : Decidable p.Bare :=
  inferInstanceAs (Decidable (_ ∨ _))

/-- The points at which the idle thread can be: it calls neither `sema_down` nor `timer_sleep`. -/
def Point.OfIdle {κ : Type} : Point κ → Prop
  | .own | .yielded _ | .interrupted | .idle => True
  | .start | .semaDown _ _ | .slept _ | .direct => False

theorem Point.OfIdle.not_bare {κ : Type} {p : Point κ} (h : p.OfIdle) : ¬ p.Bare := by
  intro hb
  rcases hb with hb | hb
  · rw [hb] at h
    exact h
  · rw [hb] at h
    exact h

variable {ι κ : Type} {k k' : Sched ι κ}

namespace Sched

def queue (k : Sched ι κ) : Queue κ → List ι
  | .ready => k.readyList
  | .sleeping => k.sleepingList
  | .waiters s => k.waiters s

theorem queue_congr (hr : k'.readyList = k.readyList) (hs : k'.sleepingList = k.sleepingList)
    (hw : k'.waiters = k.waiters) : k'.queue = k.queue := by
  funext q
  cases q with
  | ready => exact hr
  | sleeping => exact hs
  | waiters s => exact congrFun hw s

section Queues

variable [DecidableEq κ]

/-- One queue is another list. -/
theorem queue_update {q : Queue κ} {ts : List ι} (hq : k'.queue q = ts)
    (h : ∀ q', q' ≠ q → k'.queue q' = k.queue q') : k'.queue = update k.queue q ts := by
  funext q'
  rw [update_apply]
  split_ifs with he
  · rw [he, hq]
  · exact h q' he

theorem setSema_waiters (s : κ) (f : Mutex ι → Mutex ι) (k : Sched ι κ) (s' : κ) :
    (setSema s f k).waiters s' = if s' = s then (f (k.kernel.lock s)).waiters else k.waiters s' := by
  show ((setLock s f k.kernel).lock s').waiters = _
  rw [setLock_lock]
  split_ifs <;> rfl

/-- What leaves the wait list of a semaphore alone. -/
theorem queue_setSema (s : κ) (f : Mutex ι → Mutex ι) (k : Sched ι κ)
    (hf : ∀ m, (f m).waiters = m.waiters) : (setSema s f k).queue = k.queue := by
  refine queue_congr rfl rfl ?_
  funext s'
  rw [setSema_waiters, hf]
  split_ifs with h
  · rw [h]
    rfl
  · rfl

theorem queue_setSema_waiters (s : κ) (ts : List ι) (f : Mutex ι → Mutex ι) (k : Sched ι κ)
    (hf : (f (k.kernel.lock s)).waiters = ts) :
    (setSema s f k).queue = update k.queue (.waiters s) ts := by
  apply queue_update
  · show (setSema s f k).waiters s = ts
    rw [setSema_waiters, if_pos rfl, hf]
  · intro q' hq'
    cases q' with
    | ready => rfl
    | sleeping => rfl
    | waiters s' =>
      show (setSema s f k).waiters s' = k.waiters s'
      rw [setSema_waiters, if_neg]
      intro he
      exact hq' (by rw [he])

theorem queue_readyList (ts : List ι) (k : Sched ι κ) :
    ({ k with readyList := ts } : Sched ι κ).queue = update k.queue .ready ts := by
  apply queue_update rfl
  intro q' hq'
  cases q' with
  | ready => exact absurd rfl hq'
  | sleeping => rfl
  | waiters s => rfl

theorem queue_sleepingList (ts : List ι) (k : Sched ι κ) :
    ({ k with sleepingList := ts } : Sched ι κ).queue = update k.queue .sleeping ts := by
  apply queue_update rfl
  intro q' hq'
  cases q' with
  | ready => rfl
  | sleeping => exact absurd rfl hq'
  | waiters s => rfl

end Queues

/-! ### The invariant -/

/-- The queue that `u` is on goes with its status. -/
structure Placed (k : Sched ι κ) (run : Option ι) (u : ι) (q : Option (Queue κ)) : Prop where
  running : k.status u = .running ↔ run = some u
  ready : q = some .ready ↔ k.status u = .ready ∧ k.idleThread ≠ some u
  sleeping : q = some .sleeping → k.status u = .blocked ∧ ∃ old, k.point u = .slept old
  waiters : ∀ s, q = some (.waiters s) → k.status u = .blocked ∧ ∃ old, k.point u = .semaDown s old
  idle : k.idleThread = some u →
    q = none ∧ k.status u ≠ .dying ∧ k.status u ≠ .absent ∧ (k.point u).OfIdle

/-- The threads are on the queues given by `house`, and `run` is the one that runs. -/
structure Fit (k : Sched ι κ) (run : Option ι) (house : ι → Option (Queue κ)) : Prop where
  housed : Housed k.queue house
  placed : ∀ u, Placed k run u (house u)

/-- Between operations it is the current thread that runs. -/
def Good (k : Sched ι κ) : Prop := ∃ house, Fit k (some k.current) house

/-- Threads have been added at the end of the ready list, and nobody fell asleep or woke up. -/
structure Since (k₀ k : Sched ι κ) : Prop where
  ready : k₀.readyList <+: k.readyList
  sleeping : k.sleepingList = k₀.sleepingList
  wakeTime : k.wakeTime = k₀.wakeTime

/-- Within an operation that began in `k₀`. -/
structure Going (k₀ k : Sched ι κ) : Prop where
  good : Good k
  since : Since k₀ k

section Invariant

variable {k₀ : Sched ι κ} {run run' : Option ι} {house : ι → Option (Queue κ)} {t u : ι}
  {q : Option (Queue κ)} {st : Status}

theorem Placed.congr (h : Placed k run u q) (hs : k'.status u = k.status u)
    (hp : k'.point u = k.point u) (hi : k'.idleThread = k.idleThread)
    (hr : run' = some u ↔ run = some u) : Placed k' run' u q := by
  obtain ⟨h₁, h₂, h₃, h₄, h₅⟩ := h
  constructor
  · rw [hs, hr, h₁]
  · rw [hs, hi, h₂]
  · rw [hs, hp]
    exact h₃
  · rw [hs, hp]
    exact h₄
  · rw [hs, hp, hi]
    exact h₅

/-- A thread is on a queue only if it is ready or blocked. -/
theorem Placed.house_none (h : Placed k run u q) (hs : k.status u = st) (hr : st ≠ .ready)
    (hb : st ≠ .blocked) : q = none := by
  subst hs
  match q with
  | none => rfl
  | some .ready => exact absurd (h.ready.mp rfl).1 hr
  | some .sleeping => exact absurd (h.sleeping rfl).1 hb
  | some (.waiters s) => exact absurd (h.waiters s rfl).1 hb

/-- A blocked thread at a bare point is on no queue. -/
theorem Placed.bare_none (h : Placed k run u q) (hb : k.status u = .blocked)
    (hp : (k.point u).Bare) : q = none := by
  match q with
  | none => rfl
  | some .ready =>
    have hr := (h.ready.mp rfl).1
    rw [hb] at hr
    cases hr
  | some .sleeping =>
    obtain ⟨-, old, ho⟩ := h.sleeping rfl
    rw [ho] at hp
    rcases hp with hp | hp <;> cases hp
  | some (.waiters s) =>
    obtain ⟨-, old, ho⟩ := h.waiters s rfl
    rw [ho] at hp
    rcases hp with hp | hp <;> cases hp

/-- A thread that is on no queue and neither ready nor the idle thread. -/
theorem Placed.aside (hs : k.status u = st) (hrun : st = .running ↔ run = some u)
    (hr : st ≠ .ready) (hi : k.idleThread ≠ some u) : Placed k run u none := by
  subst hs
  exact ⟨hrun, ⟨nofun, fun h => absurd h.1 hr⟩, nofun, nofun, fun h => absurd h hi⟩

/-- Nothing that the invariant looks at changes. -/
theorem Fit.frame (h : Fit k run house) (hq : k'.queue = k.queue) (hs : k'.status = k.status)
    (hp : k'.point = k.point) (hi : k'.idleThread = k.idleThread) : Fit k' run house := by
  refine ⟨hq ▸ h.housed, fun u => ?_⟩
  exact (h.placed u).congr (congrFun hs u) (congrFun hp u) hi Iff.rfl

theorem Good.frame (h : Good k) (hq : k'.queue = k.queue) (hs : k'.status = k.status)
    (hp : k'.point = k.point) (hi : k'.idleThread = k.idleThread) (hc : k'.current = k.current) :
    Good k' := by
  obtain ⟨house, h⟩ := h
  refine ⟨house, ?_⟩
  rw [hc]
  exact h.frame hq hs hp hi

theorem Since.refl (k : Sched ι κ) : Since k k := ⟨prefix_rfl, rfl, rfl⟩

theorem Since.same (h : Since k₀ k) (hr : k'.readyList = k.readyList)
    (hs : k'.sleepingList = k.sleepingList) (hw : k'.wakeTime = k.wakeTime) : Since k₀ k' :=
  ⟨hr ▸ h.ready, hs.trans h.sleeping, hw.trans h.wakeTime⟩

theorem Going.frame (h : Going k₀ k) (hq : k'.queue = k.queue) (hs : k'.status = k.status)
    (hp : k'.point = k.point) (hi : k'.idleThread = k.idleThread) (hc : k'.current = k.current)
    (hw : k'.wakeTime = k.wakeTime) : Going k₀ k' :=
  ⟨h.good.frame hq hs hp hi hc, h.since.same (congrFun hq .ready) (congrFun hq .sleeping) hw⟩

theorem Fit.running (h : Fit k (some k.current) house) : k.status k.current = .running :=
  (h.placed k.current).running.mpr rfl

/-- The current thread is on no queue. -/
theorem Fit.current_none (h : Fit k (some k.current) house) : house k.current = none :=
  (h.placed k.current).house_none h.running nofun nofun

/-- Each thread is on at most one queue, and there once; it is on the ready list exactly if it is
    ready and not the idle thread, and on another only if it is blocked.  One thread runs. -/
structure Queued (k : Sched ι κ) : Prop where
  once : ∀ q, (k.queue q).Nodup
  one : ∀ u q q', u ∈ k.queue q → u ∈ k.queue q' → q = q'
  ready : ∀ u, u ∈ k.readyList ↔ k.status u = .ready ∧ k.idleThread ≠ some u
  sleeping : ∀ u ∈ k.sleepingList, k.status u = .blocked
  waiters : ∀ s, ∀ u ∈ k.waiters s, k.status u = .blocked
  running : ∃! t, k.status t = .running

theorem Good.queued (h : Good k) : Queued k := by
  obtain ⟨house, h⟩ := h
  constructor
  · exact h.housed.nodup
  · exact fun u q q' hq hq' => h.housed.unique hq hq'
  · intro u
    rw [← (h.placed u).ready]
    exact h.housed.mem .ready u
  · exact fun u hu => ((h.placed u).sleeping ((h.housed.mem .sleeping u).mp hu)).1
  · exact fun s u hu => ((h.placed u).waiters s ((h.housed.mem (.waiters s) u).mp hu)).1
  · refine ⟨k.current, h.running, fun t ht => ?_⟩
    exact (Option.some.inj ((h.placed t).running.mp ht)).symm

end Invariant

variable [DecidableEq ι] {k₀ : Sched ι κ}

/-- Threads have been added at the end of the list `l`, and then the one that runs may have been
    chosen. -/
def Chosen (l : List ι) (k : Sched ι κ) : Prop :=
  ∃ m, l <+: m ∧ (k.readyList = m ∨
    listHighestPriority k.priority m = some k.current ∧ k.readyList = m.erase k.current)

/-- What code does that may end in `schedule`. -/
structure Served (k₀ k : Sched ι κ) : Prop where
  ready : Chosen k₀.readyList k
  sleeping : k.sleepingList = k₀.sleepingList
  wakeTime : k.wakeTime = k₀.wakeTime

/-- After code that began in `k₀`. -/
structure Gone (k₀ k : Sched ι κ) : Prop where
  good : Good k
  served : Served k₀ k

section Moving

variable {run run' : Option ι} {house : ι → Option (Queue κ)} {t : ι} {q : Option (Queue κ)}

theorem Going.gone (h : Going k₀ k) : Gone k₀ k :=
  ⟨h.good, ⟨_, h.since.ready, .inl rfl⟩, h.since.sleeping, h.since.wakeTime⟩

/-- One thread moves, and the others stay where they are. -/
theorem Fit.move (h : Fit k run house) (hq : Housed k'.queue (update house t q))
    (hs : ∀ u, u ≠ t → k'.status u = k.status u) (hp : ∀ u, u ≠ t → k'.point u = k.point u)
    (hi : k'.idleThread = k.idleThread) (hr : ∀ u, u ≠ t → (run' = some u ↔ run = some u))
    (ht : Placed k' run' t q) : Fit k' run' (update house t q) := by
  refine ⟨hq, fun u => ?_⟩
  rw [update_apply]
  split_ifs with hu
  · rw [hu]
    exact ht
  · exact (h.placed u).congr (hs u hu) (hp u hu) hi (hr u hu)

/-- One thread changes and is on the queue it was on. -/
theorem Fit.stay (h : Fit k run house) (hq : k'.queue = k.queue)
    (hs : ∀ u, u ≠ t → k'.status u = k.status u) (hp : ∀ u, u ≠ t → k'.point u = k.point u)
    (hi : k'.idleThread = k.idleThread) (hr : ∀ u, u ≠ t → (run' = some u ↔ run = some u))
    (ht : Placed k' run' t (house t)) : Fit k' run' house := by
  have hmove : Fit k' run' (update house t (house t)) := by
    apply h.move _ hs hp hi hr ht
    rw [update_eq_self, hq]
    exact h.housed
  rwa [update_eq_self] at hmove

/-- The current thread goes on at another point. -/
theorem Going.setPoint (h : Going k₀ k) {p : Point κ} (hp : p.OfIdle) :
    Going k₀ (setPoint k.current p k) := by
  obtain ⟨⟨house, h⟩, hsince⟩ := h
  refine ⟨⟨house, ?_⟩, hsince.same rfl rfl rfl⟩
  show Fit _ (some k.current) house
  refine h.stay (t := k.current) rfl (fun _ _ => rfl) (fun u hu => ?_) rfl (fun _ _ => Iff.rfl) ?_
  · exact update_of_ne hu _ _
  · have hc := h.placed k.current
    rw [h.current_none] at hc ⊢
    refine ⟨hc.running, hc.ready, nofun, nofun, fun hi => ?_⟩
    obtain ⟨-, hd, ha, -⟩ := hc.idle hi
    refine ⟨rfl, hd, ha, ?_⟩
    show (update k.point k.current p k.current).OfIdle
    rw [update_self]
    exact hp

theorem boot_good (h : k.Boot) : Good k := by
  refine ⟨fun _ => none, Housed.empty (fun q => ?_), fun u => ?_⟩
  · cases q with
    | ready => exact h.readyList
    | sleeping => exact h.sleepingList
    | waiters s => exact (h.lock s).2
  · apply Placed.aside (h.status u)
    · rw [Option.some.injEq]
      split_ifs with hu
      · exact ⟨fun _ => hu.symm, fun _ => rfl⟩
      · exact ⟨nofun, fun he => absurd he.symm hu⟩
    · split_ifs <;> nofun
    · rw [h.idleThread]
      nofun

end Moving

/-! ### Switching -/

section Switching

variable {b : Sched ι κ} {house : ι → Option (Queue κ)} {t : ι}

theorem setStatus_status (t : ι) (st : Status) (k : Sched ι κ) (u : ι) :
    (setStatus t st k).status u = if u = t then st else k.status u :=
  update_apply ..

theorem setPoint_point (p : Point κ) (u : ι) :
    (setPoint t p k).point u = if u = t then p else k.point u :=
  update_apply ..

theorem switchTo_readyList (t : ι) (k : Sched ι κ) : (switchTo t k).readyList = k.readyList := by
  rw [switchTo, freeDying]
  split_ifs <;> rfl

theorem switchTo_kernel : (switchTo t k).kernel = k.kernel := by
  rw [switchTo, freeDying]
  split_ifs <;> rfl

theorem switchTo_current : (switchTo t k).current = t := by
  rw [switchTo, freeDying]
  split_ifs <;> rfl

theorem switchTo_sleeping (t : ι) (k : Sched ι κ) :
    (switchTo t k).sleepingList = k.sleepingList ∧ (switchTo t k).wakeTime = k.wakeTime := by
  rw [switchTo, freeDying]
  split_ifs <;> exact ⟨rfl, rfl⟩

/-- Freeing a dying thread. -/
theorem Good.freeDying {cur next : ι} (h : Good k) (hc : k.current = next) :
    Good (freeDying cur next k) := by
  rw [Sched.freeDying]
  split_ifs with hcond
  · obtain ⟨hne, hdying, -⟩ := hcond
    obtain ⟨house, h⟩ := h
    have hcur := h.placed cur
    have hnone : house cur = none := hcur.house_none hdying nofun nofun
    have hidle : k.idleThread ≠ some cur := fun hi => (hcur.idle hi).2.1 hdying
    refine ⟨house, ?_⟩
    show Fit (setStatus cur .absent k) (some k.current) house
    refine h.stay (t := cur) rfl (fun u hu => ?_) (fun _ _ => rfl) rfl (fun _ _ => Iff.rfl) ?_
    · rw [setStatus_status, if_neg hu]
    · rw [hnone]
      refine .aside ((setStatus_status ..).trans (if_pos rfl)) ?_ nofun hidle
      rw [hc]
      exact ⟨nofun, fun he => absurd (Option.some.inj he).symm hne⟩
  · exact h

/-- A thread that is ready or the idle thread becomes the one that runs. -/
theorem Fit.switchTo (h : Fit k₀ none house) (hq : Housed k.queue (update house t none))
    (hs : k.status = k₀.status) (hp : k.point = k₀.point) (hi : k.idleThread = k₀.idleThread)
    (hof : k.idleThread = some t → (k.point t).OfIdle) : Good (switchTo t k) := by
  rw [Sched.switchTo]
  refine Good.freeDying ?_ rfl
  refine ⟨update house t none, ?_⟩
  have hstatus : ∀ u, (setStatus t .running k).status u = if u = t then .running else k₀.status u := by
    intro u
    rw [setStatus_status, hs]
  have hfit : Fit (setStatus t .running k) (some t) (update house t none) := by
    refine h.move hq (fun u hu => ?_) (fun u _ => ?_) hi (fun u hu => ?_) ?_
    · rw [hstatus, if_neg hu]
    · exact congrFun hp u
    · exact ⟨fun he => absurd (Option.some.inj he).symm hu, nofun⟩
    · have hrun : (setStatus t .running k).status t = .running := by rw [hstatus, if_pos rfl]
      refine ⟨⟨fun _ => rfl, fun _ => hrun⟩, ⟨nofun, fun hr => ?_⟩, nofun, nofun, fun hidle => ?_⟩
      · rw [hrun] at hr
        cases hr.1
      · refine ⟨rfl, ?_, ?_, hof hidle⟩
        · rw [hrun]
          nofun
        · rw [hrun]
          nofun
  exact hfit.frame rfl rfl rfl rfl

end Switching

variable [DecidableEq κ]

section Operations

variable {b : Sched ι κ} {house : ι → Option (Queue κ)} {t : ι}

/-- When no thread runs, `schedule` makes one run. -/
theorem schedule_fit (h : Fit k none house) (hsince : Since b k) :
    Ensures schedule k (fun _ k' => Gone b k') := by
  apply schedule_ensures
  · intro t _ _ hidle
    obtain ⟨hnone, -, -, hof⟩ := (h.placed t).idle hidle
    refine ⟨h.switchTo ?_ rfl rfl rfl (fun _ => hof), ⟨_, hsince.ready, .inl ?_⟩, ?_, ?_⟩
    · rw [← hnone, update_eq_self]
      exact h.housed
    · exact switchTo_readyList ..
    · exact (switchTo_sleeping t k).1.trans hsince.sleeping
    · exact (switchTo_sleeping t k).2.trans hsince.wakeTime
  · intro t _ hhigh
    have hready : house t = some .ready :=
      (h.housed.mem .ready t).mp (listHighestPriority_spec hhigh).1
    constructor
    · refine h.switchTo (k := { k with readyList := k.readyList.erase t }) ?_ rfl rfl rfl
        (fun hidle => ?_)
      · rw [queue_readyList]
        exact h.housed.remove hready
      · exact absurd hidle ((h.placed t).ready.mp hready).2
    · refine ⟨⟨_, hsince.ready, .inr ?_⟩, ?_, ?_⟩
      · unfold priority
        rw [switchTo_readyList, switchTo_kernel, switchTo_current]
        exact ⟨hhigh, rfl⟩
      · exact (switchTo_sleeping t _).1.trans hsince.sleeping
      · exact (switchTo_sleeping t _).2.trans hsince.wakeTime

/-- `thread_block` by a thread that has put itself on the queue `q`, or on none. -/
theorem threadBlock_good {q : Option (Queue κ)} {p : Point κ}
    (h : Fit k₀ (some k₀.current) house) (hsince : Since b k)
    (hq : Housed k.queue (update house k₀.current q)) (hs : k.status = k₀.status)
    (hp : k.point = k₀.point) (hi : k.idleThread = k₀.idleThread) (hc : k.current = k₀.current)
    (hready : q ≠ some .ready) (hsleep : q = some .sleeping → ∃ old, p = .slept old)
    (hwait : ∀ s, q = some (.waiters s) → ∃ old, p = .semaDown s old)
    (hidle : k.idleThread = some k.current → q = none ∧ p.OfIdle) :
    Ensures (threadBlock p) k (fun _ k' => Gone b k') := by
  rw [ensures_threadBlock]
  intro _
  have hstatus : (setStatus k.current .blocked (setPoint k.current p k)).status k.current
      = .blocked := by
    rw [setStatus_status, if_pos rfl]
  have hpoint : (setStatus k.current .blocked (setPoint k.current p k)).point k.current
      = p := by
    show (setPoint k.current p k).point k.current = p
    rw [setPoint_point, if_pos rfl]
  refine schedule_fit (?_ : Fit _ none (update house k₀.current q))
    (hsince.same rfl rfl rfl)
  refine h.move hq (fun u hu => ?_) (fun u hu => ?_) hi (fun u hu => ?_) ?_
  · rw [setStatus_status, hc, if_neg hu]
    exact congrFun hs u
  · show (setPoint k.current p k).point u = k₀.point u
    rw [setPoint_point, hc, if_neg hu]
    exact congrFun hp u
  · exact ⟨nofun, fun he => absurd (Option.some.inj he).symm hu⟩
  · rw [← hc]
    constructor
    · rw [hstatus]
      exact ⟨nofun, nofun⟩
    · rw [hstatus]
      exact ⟨fun h => absurd h hready, nofun⟩
    · rw [hstatus, hpoint]
      exact fun h => ⟨rfl, hsleep h⟩
    · rw [hstatus, hpoint]
      exact fun s h => ⟨rfl, hwait s h⟩
    · rw [hstatus, hpoint]
      exact fun h => ⟨(hidle h).1, nofun, nofun, (hidle h).2⟩

/-- `thread_yield`. -/
theorem threadYield_good {p : Level → Point κ} (h : Going b k) (hp : ∀ l, (p l).OfIdle) :
    Ensures (threadYield p) k (fun _ k' => Gone b k') := by
  rw [ensures_threadYield]
  obtain ⟨⟨house, h⟩, hsince⟩ := h
  have hsince' : Since b (yielding p k) := by
    unfold yielding requeue
    split_ifs
    · exact hsince.same rfl rfl rfl
    · exact ⟨hsince.ready.trans (prefix_append ..), hsince.sleeping, hsince.wakeTime⟩
  have hstatus : ∀ u, (yielding p k).status u = if u = k.current then .ready else k.status u := by
    intro u
    rw [yielding, setStatus_status]
    show (if u = k.current then Status.ready else (requeue k.current (setLevel .off k)).status u) = _
    rw [requeue]
    split_ifs <;> rfl
  have hpoint : ∀ u, (yielding p k).point u = if u = k.current then p k.level else k.point u := by
    intro u
    show (setPoint k.current (p k.level) (requeue k.current (setLevel .off k))).point u = _
    rw [setPoint_point, requeue]
    split_ifs <;> rfl
  have hidle : (yielding p k).idleThread = k.idleThread := by
    show (requeue k.current (setLevel .off k)).idleThread = _
    rw [requeue]
    split_ifs <;> rfl
  have hmove : ∀ q, Housed (yielding p k).queue (update house k.current q) →
      Placed (yielding p k) none k.current q →
      Ensures schedule (yielding p k) (fun _ k' => Gone b k') := by
    intro q hq hplaced
    refine schedule_fit (?_ : Fit _ none (update house k.current q)) hsince'
    refine h.move hq (fun u hu => ?_) (fun u hu => ?_) hidle (fun u hu => ?_) hplaced
    · rw [hstatus, if_neg hu]
    · rw [hpoint, if_neg hu]
    · exact ⟨nofun, fun he => absurd (Option.some.inj he).symm hu⟩
  have hcur : (yielding p k).status k.current = .ready := by rw [hstatus, if_pos rfl]
  -- the idle thread is ready without being on the ready list
  by_cases hi : k.idleThread = some k.current
  · have hsame : requeue k.current (setLevel .off k) = setLevel .off k := if_pos hi
    apply hmove none
    · rw [← h.current_none, update_eq_self, yielding, hsame]
      exact h.housed
    · constructor
      · rw [hcur]
        exact ⟨nofun, nofun⟩
      · rw [hidle]
        exact ⟨nofun, fun hr => absurd hi hr.2⟩
      · nofun
      · nofun
      · rw [hcur, hpoint, if_pos rfl]
        exact fun _ => ⟨rfl, nofun, nofun, hp k.level⟩
  · have hpush : requeue k.current (setLevel .off k)
        = { setLevel .off k with readyList := k.readyList ++ [k.current] } := if_neg hi
    apply hmove (some .ready)
    · have hqueue : (yielding p k).queue
          = update k.queue .ready (k.readyList ++ [k.current]) := by
        rw [yielding, hpush]
        exact queue_readyList (k.readyList ++ [k.current]) (setLevel .off k)
      rw [hqueue]
      exact h.housed.push h.current_none
    · constructor
      · rw [hcur]
        exact ⟨nofun, nofun⟩
      · rw [hcur, hidle]
        exact ⟨fun _ => ⟨rfl, hi⟩, fun _ => rfl⟩
      · nofun
      · nofun
      · rw [hidle]
        exact fun he => absurd he hi

/-! ### The operations -/

omit [DecidableEq ι] [DecidableEq κ] in
/-- The wait lists are all that the invariant looks at in the semaphores. -/
theorem Going.kernel (h : Going b k) {c : Kernel ι κ}
    (hc : ∀ s, (c.lock s).waiters = (k.kernel.lock s).waiters) : Going b { k with kernel := c } :=
  h.frame (queue_congr rfl rfl (funext hc)) rfl rfl rfl rfl rfl

omit [DecidableEq ι] in
theorem Going.setSema (h : Going b k) (s : κ) (f : Mutex ι → Mutex ι)
    (hf : ∀ m, (f m).waiters = m.waiters) : Going b (setSema s f k) :=
  h.frame (queue_setSema s f k hf) rfl rfl rfl rfl rfl

omit [DecidableEq ι] [DecidableEq κ] in
theorem Going.setLevel (h : Going b k) (l : Level) : Going b (setLevel l k) :=
  h.frame rfl rfl rfl rfl rfl rfl

theorem Going.settle (h : Going b k) : Going b (settle k) := by
  rw [Sched.settle, hold]
  have hown : Going b (Sched.setPoint k.current .own k) := h.setPoint trivial
  split
  · exact hown
  · rename_i l _
    have hheld := hown.setSema l (fun m => { m with holder := some k.current }) (fun _ => rfl)
    exact hheld.frame rfl rfl rfl rfl rfl rfl

theorem intrSetLevel_good (h : Going b k) (l : Level) :
    Ensures (intrSetLevel l) k (fun _ k' => Gone b k') := by
  cases l with
  | off =>
    rw [ensures_intrSetLevel_off]
    exact (h.setLevel .off).settle.gone
  | on =>
    cases hw : k.threadWaiting with
    | false =>
      rw [ensures_intrSetLevel_on hw]
      exact (h.setLevel .on).settle.gone
    | true =>
      rw [ensures_intrSetLevel_yield hw, ← ensures_threadYield]
      apply threadYield_good
      · exact h.frame rfl rfl rfl rfl rfl rfl
      · exact fun _ => trivial

theorem withIntrOff_good {x : Exec (Sched ι κ) Unit}
    (hx : Ensures x (setLevel .off k) (fun _ k' => Going b k')) :
    Ensures (withIntrOff x) k (fun _ k' => Gone b k') := by
  rw [withIntrOff, ensures_get, ensures_put]
  exact hx.bind (fun _ k' hk' => intrSetLevel_good hk' k.level)

/-- A blocked thread that is on no queue becomes ready. -/
theorem makeReady_fit (h : Fit k (some k.current) house) (hsince : Since b k) (ht : house t = none)
    (hi : k.idleThread ≠ some t) : Ensures (makeReady t) k (fun _ k' =>
      Fit k' (some k'.current) (update house t (some .ready)) ∧ Since b k') := by
  rw [ensures_makeReady]
  intro hblocked
  have hcur : t ≠ k.current := by
    intro he
    rw [he, h.running] at hblocked
    cases hblocked
  have hfit : Fit (setStatus t .ready { k with readyList := k.readyList ++ [t] })
      (some k.current) (update house t (some .ready)) := by
    refine h.move ?_ (fun u hu => ?_) (fun _ _ => rfl) rfl (fun _ _ => Iff.rfl) ?_
    · have hqueue := queue_readyList (k.readyList ++ [t]) k
      show Housed ({ k with readyList := k.readyList ++ [t] } : Sched ι κ).queue _
      rw [hqueue]
      exact h.housed.push ht
    · rw [setStatus_status, if_neg hu]
    · have hstatus : (setStatus t .ready
          ({ k with readyList := k.readyList ++ [t] } : Sched ι κ)).status t = .ready := by
        rw [setStatus_status, if_pos rfl]
      refine ⟨?_, ?_, nofun, nofun, fun he => absurd he hi⟩
      · rw [hstatus]
        exact ⟨nofun, fun he => absurd (Option.some.inj he).symm hcur⟩
      · rw [hstatus]
        exact ⟨fun _ => ⟨rfl, hi⟩, fun _ => rfl⟩
  have hsince' : Since b (setStatus t .ready { k with readyList := k.readyList ++ [t] }) :=
    ⟨hsince.ready.trans (prefix_append ..), hsince.sleeping, hsince.wakeTime⟩
  rw [noteWaiting]
  split_ifs
  · exact ⟨hfit.frame rfl rfl rfl rfl, hsince'.same rfl rfl rfl⟩
  · exact ⟨hfit, hsince'⟩

/-- A blocked thread comes off the queue it is on. -/
theorem Fit.takeOff {q : Queue κ} (h : Fit k (some k.current) house) (ht : house t = some q)
    (hq : q ≠ .ready) (hqueue : k'.queue = update k.queue q ((k.queue q).erase t))
    (hs : k'.status = k.status) (hp : k'.point = k.point) (hi : k'.idleThread = k.idleThread)
    (hc : k'.current = k.current) :
    Fit k' (some k'.current) (update house t none) ∧ k'.idleThread ≠ some t := by
  have hplaced := h.placed t
  rw [ht] at hplaced
  have hblocked : k.status t = .blocked := by
    match q with
    | .ready => exact absurd rfl hq
    | .sleeping => exact (hplaced.sleeping rfl).1
    | .waiters s => exact (hplaced.waiters s rfl).1
  have hidle : k'.idleThread ≠ some t := by
    intro he
    rw [hi] at he
    cases (hplaced.idle he).1
  refine ⟨?_, hidle⟩
  rw [hc]
  refine h.move ?_ (fun u _ => congrFun hs u) (fun u _ => congrFun hp u) hi (fun _ _ => Iff.rfl) ?_
  · rw [hqueue]
    exact h.housed.remove ht
  · refine .aside ((congrFun hs t).trans hblocked) ?_ nofun hidle
    rw [← hblocked]
    exact hplaced.running

section

variable (h : Going b k)
include h

theorem wakeHighest_good (s : κ) : Ensures (wakeHighest s) k (fun _ k' => Going b k') := by
  obtain ⟨⟨house, h⟩, hsince⟩ := h
  rw [wakeHighest, ensures_get]
  split_ifs with hws
  · rw [ensures_get]
    cases hhigh : listHighestPriority k.priority (k.waiters s) with
    | none => exact ensures_stop
    | some w =>
      rw [ensures_put]
      have hw : house w = some (.waiters s) :=
        (h.housed.mem (.waiters s) w).mp (listHighestPriority_spec hhigh).1
      obtain ⟨hfit, hidle⟩ := h.takeOff hw nofun
        (queue_setSema_waiters s ((k.waiters s).erase w)
          (fun m => { m with waiters := m.waiters.erase w }) k rfl) rfl rfl rfl rfl
      exact (makeReady_fit hfit (hsince.same rfl rfl rfl) (update_self ..) hidle).mono
        (fun _ k' hk' => ⟨⟨_, hk'.1⟩, hk'.2⟩)
  · exact ensures_pure.mpr ⟨⟨house, h⟩, hsince⟩

theorem semaUp_good (s : κ) : Ensures (semaUp s) k (fun _ k' => Gone b k') := by
  apply withIntrOff_good
  refine (wakeHighest_good (h.setLevel .off) s).bind (fun _ k' hk' => ?_)
  rw [ensures_update]
  exact hk'.setSema s _ (fun _ => rfl)

theorem semaLoop_good (hi : k.idleThread ≠ some k.current) (s : κ) (old : Level) :
    Ensures (semaLoop s old) k (fun _ k' => Gone b k') := by
  rw [semaLoop, ensures_get]
  split_ifs
  · rw [ensures_put]
    obtain ⟨⟨house, h⟩, hsince⟩ := h
    refine threadBlock_good h (hsince.same rfl rfl rfl) (q := some (.waiters s)) ?_ rfl rfl rfl rfl
      nofun nofun (fun s' hs' => ?_) (fun he => absurd he hi)
    · rw [queue_setSema_waiters s (k.waiters s ++ [k.current]) _ k rfl]
      exact h.housed.push h.current_none
    · cases hs'
      exact ⟨old, rfl⟩
  · rw [ensures_put]
    have hdown := h.setSema s (fun m => { m with value := m.value - 1 }) (fun _ => rfl)
    exact intrSetLevel_good hdown old

theorem semaDown_good (hi : k.idleThread ≠ some k.current) (s : κ) :
    Ensures (semaDown s) k (fun _ k' => Gone b k') := by
  rw [semaDown, ensures_get, ensures_put]
  exact semaLoop_good (h.setLevel .off) hi s k.level

theorem semaTryDown_good (s : κ) (l : Option κ) :
    Ensures (semaTryDown s l) k (fun _ k' => Gone b k') := by
  apply withIntrOff_good
  rw [ensures_get]
  split_ifs
  · rw [ensures_put, ensures_update]
    have hdown := (h.setLevel .off).setSema s (fun m => { m with value := m.value - 1 }) (fun _ => rfl)
    exact hdown.frame rfl rfl rfl rfl rfl rfl
  · exact ensures_pure.mpr (h.setLevel .off)

end

omit [DecidableEq κ] in
theorem makeReady_returns (h : k.status t = .blocked) :
    Returns (makeReady t) k (fun _ k' => k'.readyList = k.readyList ++ [t] ∧
      k'.status = update k.status t .ready ∧ k'.sleepingList = k.sleepingList ∧
      k'.wakeTime = k.wakeTime) := by
  simp only [makeReady, returns_bind, returns_read, returns_assert, returns_update, noteWaiting]
  refine ⟨h, ?_⟩
  split_ifs <;> exact ⟨rfl, rfl, rfl, rfl⟩

/-- The loop of `wake_sleeping_threads`, when the threads in `kept` are to sleep on.  The threads that
    are woken up are on the sleeping list when their turn comes. -/
theorem wakeEach_returns (now : Int) {f : ι → Int} (ts kept : List ι)
    (h : Fit k (some k.current) house) (hts : ∀ t ∈ ts, house t = some .sleeping)
    (hf : ∀ t ∈ ts, k.wakeTime t = f t) (hsleeping : k.sleepingList = kept ++ ts) :
    Returns (wakeEach now ts) k (fun _ k' => Good k' ∧
      k'.sleepingList = kept ++ ts.filter (fun t => now < f t) ∧
      k'.readyList = k.readyList ++ ts.filter (fun t => f t ≤ now) ∧
      (∀ t ∈ ts, f t ≤ now → k'.status t = .ready) ∧
      ∀ t, t ∉ ts ∨ now < f t → k'.status t = k.status t ∧ k'.wakeTime t = k.wakeTime t) := by
  induction ts generalizing k kept house with
  | nil => exact returns_pure.mpr ⟨⟨house, h⟩, hsleeping, by simp, nofun, fun _ _ => ⟨rfl, rfl⟩⟩
  | cons t ts ih =>
    have hnodup : (kept ++ t :: ts).Nodup := hsleeping ▸ h.housed.nodup .sleeping
    have hnot := (nodup_cons.mp (nodup_middle.mp hnodup)).1
    rw [mem_append, not_or] at hnot
    rw [forall_mem_cons] at hf hts
    rw [wakeEach, returns_get, hf.1]
    by_cases hwake : f t ≤ now
    · rw [if_pos hwake, returns_put, returns_put]
      have hblocked : k.status t = .blocked := ((h.placed t).sleeping hts.1).1
      obtain ⟨hfit, hidle⟩ := h.takeOff hts.1 nofun
        (queue_sleepingList (k.sleepingList.erase t)
          { k with wakeTime := update k.wakeTime t (-1) }) rfl rfl rfl rfl
      refine Returns.bind (Returns.and_ensures (makeReady_returns (hblocked :))
        (makeReady_fit hfit (.refl _) (update_self ..) hidle)) (fun _ k₁ hk₁ => ?_)
      obtain ⟨⟨hready, hstatus, hsl, htime⟩, hfit₁, -⟩ := hk₁
      have hother : ∀ u, u ≠ t → k₁.status u = k.status u ∧ k₁.wakeTime u = k.wakeTime u := by
        intro u hu
        rw [hstatus, htime]
        exact ⟨update_of_ne hu .., update_of_ne hu ..⟩
      have hne : ∀ u ∈ ts, u ≠ t := fun u hu he => hnot.2 (he ▸ hu)
      have hsl₁ : k₁.sleepingList = kept ++ ts := by
        rw [hsl]
        show k.sleepingList.erase t = _
        rw [hsleeping, erase_append_right _ hnot.1, erase_cons_head]
      refine (ih kept hfit₁ (fun u hu => ?_) (fun u hu => ?_) hsl₁).mono (fun _ k' hk' => ?_)
      · rw [update_of_ne (hne u hu), update_of_ne (hne u hu)]
        exact hts.2 u hu
      · exact (hother u (hne u hu)).2.trans (hf.2 u hu)
      · obtain ⟨hgood, hsl', hready', hwoken, hsame⟩ := hk'
        have ht : k'.status t = .ready := by
          rw [(hsame t (.inl hnot.2)).1, hstatus, update_self]
        refine ⟨hgood, ?_, ?_, forall_mem_cons.mpr ⟨fun _ => ht, hwoken⟩, fun u hu => ?_⟩
        · simpa [hwake] using hsl'
        · simpa [hwake, hready] using hready'
        · have hut : u ≠ t := by
            rintro rfl
            simp at hu
            omega
          have hu' : u ∉ ts ∨ now < f u := hu.imp_left (fun h hm => h (mem_cons_of_mem t hm))
          rw [(hsame u hu').1, (hsame u hu').2]
          exact hother u hut
    · rw [if_neg hwake]
      have hkept : k.sleepingList = kept ++ [t] ++ ts := by rw [hsleeping, append_cons]
      refine (ih _ h hts.2 hf.2 hkept).mono (fun _ k' hk' => ?_)
      obtain ⟨hgood, hsl', hready', hwoken, hsame⟩ := hk'
      refine ⟨hgood, ?_, ?_, forall_mem_cons.mpr ⟨fun h => absurd h hwake, hwoken⟩,
        fun u hu => ?_⟩
      · simpa [not_le.mp hwake] using hsl'
      · simpa [hwake] using hready'
      · exact hsame u (hu.imp_left (fun h hm => h (mem_cons_of_mem t hm)))

/-- The threads whose time has come go to the end of the ready list, the others sleep on. -/
structure Wakened (now : Int) (k k' : Sched ι κ) : Prop where
  sleeping : k'.sleepingList = k.sleepingList.filter (fun t => now < k.wakeTime t)
  ready : k'.readyList = k.readyList ++ k.sleepingList.filter (fun t => k.wakeTime t ≤ now)
  status : ∀ t ∈ k.sleepingList, k.wakeTime t ≤ now → k'.status t = .ready
  wakeTime : ∀ t, now < k.wakeTime t → k'.wakeTime t = k.wakeTime t

theorem wakeSleepingThreads_returns (now : Int) (h : Good k) (hoff : k.level = .off) :
    Returns (wakeSleepingThreads now) k (fun _ k' => Good k' ∧ Wakened now k k') := by
  obtain ⟨house, h⟩ := h
  rw [wakeSleepingThreads, returns_get, returns_step (assert_pos hoff _ _), returns_get]
  refine (wakeEach_returns now k.sleepingList [] h (fun t ht => (h.housed.mem .sleeping t).mp ht)
    (fun _ _ => rfl) rfl).mono (fun _ k' hk' => ?_)
  obtain ⟨hgood, hs, hr, hst, hw⟩ := hk'
  exact ⟨hgood, hs, hr, hst, fun t ht => (hw t (.inr ht)).2⟩

/-- The state in which the timer calls `wake_sleeping_threads`. -/
def ticked (k : Sched ι κ) : Sched ι κ :=
  { setLevel .off k with ticks := k.ticks + 1, threadTicks := k.threadTicks + 1 }

theorem timerInterrupt_good (h : Good k) : Ensures timerInterrupt k (fun _ k' =>
    ∃ kw, (wakeSleepingThreads (k.ticks + 1)).run (ticked k) = .ok ((), kw) ∧
      Wakened (k.ticks + 1) k kw ∧ Gone kw k') := by
  simp only [timerInterrupt, ensures_bind, ensures_update, ensures_read]
  intro _ kw (hwake : (wakeSleepingThreads (k.ticks + 1)).run (ticked k) = .ok ((), kw))
  have hticked : Good (ticked k) := h.frame rfl rfl rfl rfl rfl
  obtain ⟨hgood, hs, hr, hst, hw⟩ :=
    (wakeSleepingThreads_returns (k.ticks + 1) hticked rfl).ensures _ _ hwake
  have hwakened : Wakened (k.ticks + 1) k kw := ⟨hs, hr, hst, hw⟩
  have hgoing : Going kw kw := ⟨hgood, .refl kw⟩
  split_ifs
  · exact (threadYield_good hgoing (p := fun _ => .interrupted) (fun _ => trivial)).mono
      (fun _ _ h => ⟨kw, hwake, hwakened, h⟩)
  · rw [ensures_update]
    exact ⟨kw, hwake, hwakened, (hgoing.setLevel .on).gone⟩

/-! #### Locks and priorities -/

omit [DecidableEq κ] in
/-- Donating touches no semaphore. -/
theorem donateToHolder_lock [Fintype ι] (t : ι) (l : κ) {holder : Option ι} (c : Kernel ι κ)
    (hne : holder ≠ some t) :
    Ensures (donateToHolder t l holder) c (fun _ c' => c'.lock = c.lock) := by
  cases holder with
  | none => exact ensures_pure.mpr rfl
  | some h =>
    have hth : t ≠ h := fun he => hne (by rw [he])
    refine (donateToHolder_ensures hth l c).mono (fun _ c' hc' => ?_)
    rcases hc' with ⟨-, hc'⟩ | ⟨-, hc'⟩
    · rw [hc']
    · exact hc'.lock

theorem releaseEach_lock (t : ι) (l : κ) (ds : List ι) (c : Kernel ι κ) :
    Ensures (releaseEach t l ds) c (fun _ c' => c'.lock = c.lock) := by
  induction ds generalizing c with
  | nil => exact ensures_pure.mpr rfl
  | cons d ds ih =>
    rw [releaseEach, ensures_get]
    split_ifs
    · rw [ensures_put]
      exact ih _
    · rw [ensures_put]
      exact ih _

omit [DecidableEq κ] in
theorem threadSetPriority_lock (t : ι) (p : Int) (c : Kernel ι κ) :
    Ensures (Kernel.threadSetPriority t p) c (fun _ c' => c'.lock = c.lock) := by
  rw [Kernel.threadSetPriority, ensures_put, ensures_get]
  split_ifs
  · exact ensures_update.mpr rfl
  · exact ensures_update.mpr rfl
  · exact ensures_pure.mpr rfl

omit [DecidableEq ι] [DecidableEq κ] in
/-- Code over the threads and locks that touches no semaphore. -/
theorem onKernel_good {x : Exec (Kernel ι κ) Unit} (h : Going b k)
    (hx : Ensures x k.kernel (fun _ c => c.lock = k.kernel.lock)) :
    Ensures (onKernel x) k (fun _ k' => Going b k') := by
  rw [onKernel, ensures_zoom]
  refine hx.mono (fun _ c hc => h.kernel (fun s => ?_))
  rw [hc]

omit [DecidableEq κ] in
theorem lockAcquire_good [Fintype ι] (h : Going b k) (l : κ) :
    Ensures (lockAcquire l) k (fun _ k' => Gone b k') := by
  simp only [lockAcquire, ensures_bind, ensures_read, ensures_assert]
  intro hne
  refine (onKernel_good h (donateToHolder_lock k.current l k.kernel hne)).mono
    (fun _ k' hk' => ?_)
  rw [ensures_update]
  apply Going.gone
  exact hk'.frame rfl rfl rfl rfl rfl rfl

theorem lockRelease_good (h : Going b k) (l : κ) :
    Ensures (lockRelease l) k (fun _ k' => Gone b k') := by
  simp only [lockRelease, ensures_bind, ensures_read, ensures_assert]
  intro _
  have hrestore : Ensures (restorePriority k.current l) k.kernel
      (fun _ c => c.lock = k.kernel.lock) := by
    simp only [restorePriority, ensures_bind, ensures_read, ensures_update]
    exact releaseEach_lock _ _ _ _
  refine (onKernel_good h hrestore).mono (fun _ k' hk' => ?_)
  rw [ensures_update]
  apply Going.gone
  exact hk'.frame rfl rfl rfl rfl rfl rfl

theorem releaseUp_good (h : Going b k) : Ensures releaseUp k (fun _ k' => Gone b k') := by
  rw [releaseUp, ensures_get, ensures_get]
  cases k.releasing k.current with
  | none => exact ensures_stop
  | some l =>
    simp only [ensures_bind, ensures_update]
    have hfree : Going b (setReleasing k.current none k) := h.frame rfl rfl rfl rfl rfl rfl
    exact semaUp_good (hfree.setSema l (fun m => { m with holder := none }) (fun _ => rfl)) l

theorem threadSetPriority_good (h : Going b k) (p : Int) :
    Ensures (threadSetPriority p) k (fun _ k' => Gone b k') := by
  rw [threadSetPriority, ensures_get]
  refine (onKernel_good h (threadSetPriority_lock k.current p k.kernel)).bind (fun _ k' hk' => ?_)
  exact threadYield_good hk' (fun _ => trivial)

/-! #### Threads -/

omit [DecidableEq κ] in
/-- A new thread is blocked and on no queue. -/
theorem initThread_good (h : Good k) (habsent : k.status t = .absent) (p : Int) :
    Ensures (initThread t p) k (fun _ k' => Good k' ∧ k'.readyList = k.readyList ∧
      k'.sleepingList = k.sleepingList ∧ ∀ u, u ≠ t → k'.wakeTime u = k.wakeTime u) := by
  simp only [initThread, onKernel, ensures_bind, ensures_assert, ensures_update, ensures_zoom]
  intro _
  obtain ⟨house, h⟩ := h
  have hplaced := h.placed t
  have hne : t ≠ k.current := by
    intro he
    rw [he, h.running] at habsent
    cases habsent
  have hnone : house t = none := hplaced.house_none habsent (by simp) (by simp)
  have hfit : Fit (setPoint t .start (setStatus t .blocked k)) (some k.current) house := by
    refine h.stay (t := t) rfl (fun u hu => ?_) (fun u hu => ?_) rfl (fun _ _ => Iff.rfl) ?_
    · show (setStatus t .blocked k).status u = k.status u
      rw [setStatus_status, if_neg hu]
    · rw [setPoint_point, if_neg hu]
      rfl
    · have hstatus : (setPoint t .start (setStatus t .blocked k)).status t = .blocked := by
        show (setStatus t .blocked k).status t = .blocked
        rw [setStatus_status, if_pos rfl]
      rw [hnone]
      refine .aside hstatus ⟨by simp, fun he => ?_⟩ (by simp)
        (fun hi => (hplaced.idle hi).2.2.1 habsent)
      exact absurd (Option.some.inj he).symm hne
  exact ⟨⟨house, hfit.frame rfl rfl rfl rfl⟩, rfl, rfl, fun u hu => update_of_ne hu ..⟩

theorem threadUnblock_good (h : Going b k) (hbare : (k.point t).Bare) :
    Ensures (threadUnblock t) k (fun _ k' => Gone b k') := by
  apply withIntrOff_good
  obtain ⟨⟨house, h⟩, hsince⟩ := h.setLevel .off
  have hplaced := h.placed t
  by_cases hblocked : k.status t = .blocked
  · have hnone : house t = none := hplaced.bare_none hblocked hbare
    have hidle : k.idleThread ≠ some t := fun hi => (hplaced.idle hi).2.2.2.not_bare hbare
    exact (makeReady_fit h hsince hnone hidle).mono (fun _ k' hk' => ⟨⟨_, hk'.1⟩, hk'.2⟩)
  · rw [ensures_makeReady]
    exact fun hb => absurd hb hblocked

theorem sleepFrom_good (h : Good k) (hi : k.idleThread ≠ some k.current) (start n : Int) :
    Ensures (sleepFrom start n) k (fun _ k' => Good k' ∧ Chosen k.readyList k' ∧
      k'.sleepingList = k.sleepingList ++ [k.current] ∧
      k'.wakeTime = update k.wakeTime k.current (start + n)) := by
  simp only [sleepFrom, ensures_bind, ensures_read, ensures_assert, ensures_update]
  intro _
  obtain ⟨house, h⟩ := h
  refine Ensures.mono (threadBlock_good h (.refl _) (q := some .sleeping) ?_ rfl rfl rfl rfl
    (by simp) (fun _ => ⟨k.level, rfl⟩) (by simp) (fun he => absurd he hi)) (fun _ k' hk' => ?_)
  · have hqueue := queue_sleepingList (k.sleepingList ++ [k.current]) k
    show Housed ({ k with sleepingList := k.sleepingList ++ [k.current] } : Sched ι κ).queue _
    rw [hqueue]
    exact h.housed.push h.current_none
  · obtain ⟨hgood, hready, hsleeping, htime⟩ := hk'
    exact ⟨hgood, hready, hsleeping, htime⟩

/-- `thread_block` by a thread that is on no queue. -/
theorem threadBlock_aside {p : Point κ} (h : Going b k₀) (hq : k.queue = k₀.queue)
    (hs : k.status = k₀.status) (hp : k.point = k₀.point) (hi : k.idleThread = k₀.idleThread)
    (hc : k.current = k₀.current) (hw : k.wakeTime = k₀.wakeTime)
    (hidle : k.idleThread = some k.current → p.OfIdle) :
    Ensures (threadBlock p) k (fun _ k' => Gone b k') := by
  have hgoing : Going b k := h.frame hq hs hp hi hc hw
  obtain ⟨⟨house, h⟩, -⟩ := h
  refine threadBlock_good h hgoing.since (q := none) ?_ hs hp hi hc nofun nofun nofun
    (fun he => ⟨rfl, hidle he⟩)
  rw [← h.current_none, update_eq_self, hq]
  exact h.housed

theorem threadExit_good (h : Going b k) (hi : k.idleThread ≠ some k.current) :
    Ensures threadExit k (fun _ k' => Gone b k') := by
  simp only [threadExit, ensures_bind, ensures_update]
  obtain ⟨⟨house, h⟩, hsince⟩ := h
  refine schedule_fit (?_ : Fit _ none house) (hsince.same rfl rfl rfl)
  refine h.stay (t := k.current) rfl (fun u hu => ?_) (fun u hu => ?_) rfl (fun u hu => ?_) ?_
  · rw [setStatus_status]
    exact if_neg hu
  · exact update_of_ne hu _ _
  · exact ⟨by simp, fun he => absurd (Option.some.inj he).symm hu⟩
  · have hstatus : (setStatus (setPoint (setLevel .off k).current .own
        (setLevel .off k)).current .dying (setPoint (setLevel .off k).current .own
          (setLevel .off k))).status k.current = .dying := by
      rw [setStatus_status]
      exact if_pos rfl
    rw [h.current_none]
    exact .aside hstatus ⟨by simp, by simp⟩ (by simp) hi

omit [DecidableEq ι] [DecidableEq κ] in
theorem idleStart_good (h : Going b k) (hp : k.point k.current = .own) (hi : k.idleThread = none) :
    Going b { k with idleThread := some k.current } := by
  obtain ⟨⟨house, h⟩, hsince⟩ := h
  refine ⟨⟨house, h.housed, fun u => ?_⟩, hsince.same rfl rfl rfl⟩
  obtain ⟨hrun, hready, hsleep, hwait, -⟩ := h.placed u
  rw [hi] at hready
  by_cases hu : u = k.current
  · -- it runs, so it is neither ready nor on a queue
    have hstatus : k.status u = .running := by rw [hu, h.running]
    have hnone : house u = none := by rw [hu, h.current_none]
    refine ⟨hrun, ?_, hsleep, hwait, fun _ => ⟨hnone, ?_, ?_, ?_⟩⟩
    · rw [hnone]
      exact ⟨nofun, fun hr => absurd hr.1 (by rw [hstatus]; nofun)⟩
    · rw [hstatus]
      nofun
    · rw [hstatus]
      nofun
    · rw [hu]
      show (k.point k.current).OfIdle
      rw [hp]
      trivial
  · have hne : some k.current ≠ some u := fun he => hu (Option.some.inj he).symm
    refine ⟨hrun, ?_, hsleep, hwait, fun he => absurd he hne⟩
    rw [hready]
    exact ⟨fun hr => ⟨hr.1, hne⟩, fun hr => ⟨hr.1, nofun⟩⟩

theorem resume_good (h : Going b k) : Ensures resume k (fun _ k' => Gone b k') := by
  rw [resume, ensures_get]
  cases hp : k.point k.current with
  | own => exact ensures_stop
  | start => exact intrSetLevel_good h .on
  | yielded old | slept old => exact intrSetLevel_good h old
  | interrupted | idle =>
    simp only [ensures_bind, ensures_update]
    apply Going.gone
    exact (h.setLevel .on).setPoint trivial
  | semaDown s old =>
    have hidle : k.idleThread ≠ some k.current := by
      obtain ⟨⟨house, h⟩, -⟩ := h
      intro hi
      have hof := ((h.placed k.current).idle hi).2.2.2
      rw [hp] at hof
      exact hof
    exact semaLoop_good h hidle s old
  | direct =>
    rw [ensures_update]
    apply Going.gone
    exact h.setPoint trivial

end Operations

end Sched

/-! ### Runs -/

variable [DecidableEq ι] [DecidableEq κ]

/-- A call of `thread_unblock` is for a thread that has been created, or that has called
    `thread_block` itself. -/
def SchedOp.Proper (k : Sched ι κ) : SchedOp ι κ → Prop
  | unblock t => (k.point t).Bare
  | _ => True

instance (k : Sched ι κ) (op : SchedOp ι κ) : Decidable (op.Proper k) := by
  induction op using SchedOp.casesOn <;> dsimp only [SchedOp.Proper] <;> infer_instance

variable [Fintype ι]

/-- A run of the machine, all of whose operations satisfy `P` in the state they take place in. -/
def SchedRun (P : Sched ι κ → SchedOp ι κ → Prop) : Sched ι κ → Sched ι κ → Prop :=
  ReflTransGen (fun k k' => ∃ op : SchedOp ι κ, op.Steps k k' ∧ P k op)

/-- A run in which `thread_unblock` is called as it should be. -/
def ProperRun : Sched ι κ → Sched ι κ → Prop := SchedRun (fun k op => op.Proper k)

namespace Sched

/-- The threads that sleep sleep on. -/
def SleepsOn (k k' : Sched ι κ) : Prop :=
  ∀ t ∈ k.sleepingList, t ∈ k'.sleepingList ∧ k'.wakeTime t = k.wakeTime t

/-- What an operation does. -/
structure Stepped (op : SchedOp ι κ) (k k' : Sched ι κ) : Prop where
  good : Good k'
  ready : Chosen k.readyList k'
  sleeping : op ≠ .tick → SleepsOn k k'

omit [DecidableEq κ] [Fintype ι] in
theorem Gone.stepped (h : Gone k k') (op : SchedOp ι κ) : Stepped op k k' :=
  ⟨h.good, h.served.ready,
    fun _ t ht => ⟨h.served.sleeping ▸ ht, congrFun h.served.wakeTime t⟩⟩

theorem step_order {op : SchedOp ι κ} (h : Good k) (hstep : op.Steps k k')
    (hproper : op.Proper k) : Stepped op k k' := by
  obtain ⟨hready, hrun⟩ := hstep
  suffices hsteps : Ensures op.code k (fun _ k' => Stepped op k k') from hsteps () k' hrun
  have hgone : Ensures op.code k (fun _ k' => Gone k k') →
      Ensures op.code k (fun _ k' => Stepped op k k') :=
    fun hx => hx.mono (fun _ _ hk' => hk'.stepped op)
  have hg : Going k k := ⟨h, .refl k⟩
  have hasleep : ∀ u ∈ k.sleepingList, k.status u = .blocked := h.queued.sleeping
  cases op with
  | init t p =>
    refine (initThread_good h hready.2.2 p).mono (fun _ k' hk' => ?_)
    obtain ⟨hgood, hr, hs, hw⟩ := hk'
    refine ⟨hgood, ⟨_, prefix_rfl, .inl hr⟩, fun _ u hu => ⟨hs ▸ hu, hw u ?_⟩⟩
    rintro rfl
    have hblocked := hasleep u hu
    rw [hready.2.2] at hblocked
    cases hblocked
  | yield => exact hgone (threadYield_good hg (fun _ => trivial))
  | block =>
    exact hgone (threadBlock_aside hg rfl rfl rfl rfl rfl rfl (fun hi => absurd hi hready.2))
  | unblock t => exact hgone (threadUnblock_good hg hproper)
  | semaDown s => exact hgone (semaDown_good hg hready.2 s)
  | semaTryDown s => exact hgone (semaTryDown_good hg s none)
  | semaUp s => exact hgone (semaUp_good hg s)
  | lockAcquire l => exact hgone (lockAcquire_good hg l)
  | acquireDown =>
    apply hgone
    rw [SchedOp.code, acquireDown, ensures_get]
    cases k.kernel.waiting k.current with
    | none => exact ensures_stop
    | some l => exact semaDown_good hg hready.2.2.1 l
  | lockTryAcquire l =>
    apply hgone
    simp only [SchedOp.code, lockTryAcquire, ensures_bind, ensures_read, ensures_assert]
    exact fun _ => semaTryDown_good hg l (some l)
  | lockRelease l => exact hgone (lockRelease_good hg l)
  | releaseUp => exact hgone (releaseUp_good hg)
  | setPriority p => exact hgone (threadSetPriority_good hg p)
  | sleep n =>
    refine ensures_get.mpr ((sleepFrom_good h hready.2 k.ticks n).mono (fun _ k' hk' => ?_))
    obtain ⟨hgood, hr, hs, hw⟩ := hk'
    refine ⟨hgood, hr, fun _ u hu => ⟨hs ▸ mem_append_left _ hu, ?_⟩⟩
    have hne : u ≠ k.current := by
      rintro rfl
      have hblocked := hasleep _ hu
      rw [h.choose_spec.running] at hblocked
      cases hblocked
    rw [hw, update_of_ne hne]
  | exit => exact hgone (threadExit_good hg hready.2)
  | intrDisable => exact hgone (ensures_update.mpr (hg.setLevel .off).gone)
  | intrEnable => exact hgone (intrSetLevel_good hg .on)
  | idleStart => exact hgone (ensures_update.mpr (idleStart_good hg hready.1.1 hready.2).gone)
  | idleTurn =>
    apply hgone
    simp only [SchedOp.code, idleTurn, ensures_bind, ensures_update]
    exact threadBlock_aside hg rfl rfl rfl rfl rfl rfl (fun _ => trivial)
  | tick =>
    refine (timerInterrupt_good h).mono (fun _ k' hk' => ?_)
    obtain ⟨kw, -, hwakened, hgood, hserved⟩ := hk'
    refine ⟨hgood, ?_, fun hne => absurd rfl hne⟩
    obtain ⟨m, hm, hcase⟩ := hserved.ready
    rw [hwakened.ready] at hm
    exact ⟨m, (prefix_append ..).trans hm, hcase⟩
  | resume => exact hgone (resume_good hg)

end Sched

theorem good_of_run {k₀ : Sched ι κ} (hboot : k₀.Boot) (hrun : ProperRun k₀ k) : k.Good := by
  induction hrun with
  | refl => exact boot_good hboot
  | tail _ hstep ih =>
    obtain ⟨op, hstep, hproper⟩ := hstep
    exact (step_order ih hstep hproper).good

/-- In every run in which `thread_unblock` is called as it should be, each thread is queued at most
    once. -/
theorem threads_queued_once {k₀ k : Sched ι κ} (hboot : k₀.Boot) (hrun : ProperRun k₀ k) :
    k.Queued :=
  (good_of_run hboot hrun).queued

/-! ### Two threads -/

/-- The machine after boot, with thread `0` as `main` and semaphores of the value zero. -/
def fewThreads (n : Nat) : Sched (Fin (n + 1)) (Fin 1) where
  kernel := ⟨fun t => if t = 0 then ⟨priDefault, priDefault, none, []⟩ else ⟨0, 0, none, []⟩,
    fun _ => ⟨none, 0, []⟩, fun _ => none⟩
  releasing _ := none
  status t := if t = 0 then .running else .absent
  point _ := .own
  wakeTime _ := -1
  readyList := []
  sleepingList := []
  idleThread := none
  initialThread := 0
  current := 0
  level := .off
  threadWaiting := false
  threadTicks := 0
  ticks := 0

theorem boot_fewThreads (n : Nat) : (fewThreads n).Boot :=
  ⟨fun _ => rfl, fun _ => ⟨rfl, rfl⟩, fun _ => rfl, fun _ => rfl, fun _ => rfl, rfl, rfl, rfl, rfl,
    rfl, rfl, rfl⟩

def twoThreads : Sched (Fin 2) (Fin 1) := fewThreads 1

/-- The machine after some operations. -/
def Sched.after (ops : List (SchedOp ι κ)) (k : Sched ι κ) : Sched ι κ :=
  ops.foldl (fun k op => final op.code k) k

/-- All of the operations can take place, one after the other, and return. -/
def Sched.allows (P : Sched ι κ → SchedOp ι κ → Prop) [∀ k op, Decidable (P k op)]
    (k : Sched ι κ) : List (SchedOp ι κ) → Bool
  | [] => true
  | op :: ops => decide (op.Ready k) && decide (outcome op.code k = .ok ()) && decide (P k op) &&
      (final op.code k).allows P ops

theorem run_of_allows {P : Sched ι κ → SchedOp ι κ → Prop} [∀ k op, Decidable (P k op)]
    {ops : List (SchedOp ι κ)} (h : k.allows P ops = true) : SchedRun P k (k.after ops) := by
  induction ops generalizing k with
  | nil => exact .refl
  | cons op ops ih =>
    simp only [allows, Bool.and_eq_true, decide_eq_true_eq] at h
    obtain ⟨⟨⟨hready, hrun⟩, hP⟩, hrest⟩ := h
    exact .head ⟨op, ⟨hready, run_of_outcome hrun⟩, hP⟩ (ih hrest)

/-- `main` creates thread `1`, which goes to sleep in `sema_down`. -/
def sleeperOps : List (SchedOp (Fin 2) (Fin 1)) :=
  [.intrEnable, .init 1 31, .unblock 1, .yield, .resume, .semaDown 0, .resume]

theorem threads_queued_once_sleeper :
    ProperRun twoThreads (twoThreads.after sleeperOps) ∧
      (twoThreads.after sleeperOps).waiters 0 = [1] ∧ (twoThreads.after sleeperOps).Queued := by
  have hrun : ProperRun twoThreads (twoThreads.after sleeperOps) :=
    run_of_allows (by decide +kernel)
  exact ⟨hrun, by decide +kernel, threads_queued_once (boot_fewThreads 1) hrun⟩

/-- `main` calls `thread_unblock` for a thread that is asleep in `sema_down`, which only the status
    is checked for: its `elem` is on two lists. -/
theorem unblocked_sleeper_queued_twice :
    SchedRun (fun _ _ => True) twoThreads (twoThreads.after (sleeperOps ++ [.unblock 1])) ∧
      (1 : Fin 2) ∈ (twoThreads.after (sleeperOps ++ [.unblock 1])).readyList ∧
      (1 : Fin 2) ∈ (twoThreads.after (sleeperOps ++ [.unblock 1])).waiters 0 ∧
      ¬ (twoThreads.after (sleeperOps ++ [.unblock 1])).Queued := by
  have hready : (1 : Fin 2) ∈ (twoThreads.after (sleeperOps ++ [.unblock 1])).readyList := by
    decide +kernel
  have hwaits : (1 : Fin 2) ∈ (twoThreads.after (sleeperOps ++ [.unblock 1])).waiters 0 := by
    decide +kernel
  refine ⟨run_of_allows (by decide +kernel), hready, hwaits, fun h => ?_⟩
  cases h.one 1 .ready (.waiters 0) hready hwaits

end KernelSanders
