import KernelSanders.Threads.Mlfqs

namespace KernelSanders

open Lib Lib.Exec Relation
open Kernel

/-!
# `threads/thread.c`, `threads/synch.c`, `threads/interrupt.c`, `devices/timer.c` — the scheduler

One processor, the threads, the queues they are on, and the interrupt level, with `thread_mlfqs` off.
A step of the machine is one of

* an operation of the running thread, up to its return or to the switch in `schedule`;
* a timer interrupt, when interrupts are on;
* right after a switch, what the thread that now runs does first: it goes on in the call in which it
  gave up the processor (`Point`).

The operations disable interrupts before they touch a queue.  `lock_acquire` and `lock_release` do
not before they change priorities, so each of them is two steps and a timer interrupt may come in
between: `lock_acquire` donates and then calls `sema_down`, and `lock_release` restores the priority
and then calls `sema_up`.

A semaphore and a lock are one kind of object here (`Mutex`): a semaphore is a lock whose holder
nobody looks at.  A page that holds no `struct thread` has the status `absent`.
-/

/-- `enum thread_status`, and the status of a page that holds no thread. -/
inductive Status where
  | running
  | ready
  | blocked
  | dying
  | absent
  deriving DecidableEq

/-- `enum intr_level`. -/
inductive Level where
  | off
  | on
  deriving DecidableEq

/-- Where a thread goes on when it is scheduled. -/
inductive Point (κ : Type) where
  /-- In its own code; only the running thread is there. -/
  | own
  /-- At the beginning of `kernel_thread`. -/
  | start
  /-- In `thread_yield`, which is to restore a level. -/
  | yielded (old : Level)
  /-- In `intr_handler`, after its `thread_yield`. -/
  | interrupted
  /-- In the loop of `sema_down`. -/
  | semaDown (s : κ) (old : Level)
  /-- In `timer_sleep`, after its `thread_block`. -/
  | slept (old : Level)
  /-- After a `thread_block` of its own. -/
  | direct
  /-- In the loop of `idle`, after its `thread_block`. -/
  | idle
  deriving DecidableEq

/-- The machine.  `kernel` holds the fields of the threads that have to do with priorities, the locks
    and semaphores with their wait lists, and for each thread the lock whose `lock_acquire` it is
    inside; `releasing` is the lock whose `lock_release` it is inside. -/
structure Sched (ι κ : Type) where
  kernel : Kernel ι κ
  releasing : ι → Option κ
  status : ι → Status
  point : ι → Point κ
  wakeTime : ι → Int
  readyList : List ι
  sleepingList : List ι
  idleThread : Option ι
  initialThread : ι
  current : ι
  level : Level
  threadWaiting : Bool
  threadTicks : Nat
  ticks : Int

namespace Sched

variable {ι κ : Type} [DecidableEq ι] [DecidableEq κ]

def priority (k : Sched ι κ) (t : ι) : Int := k.kernel.priority t

def waiters (k : Sched ι κ) (s : κ) : List ι := (k.kernel.lock s).waiters

def setStatus (t : ι) (st : Status) (k : Sched ι κ) : Sched ι κ :=
  { k with status := Function.update k.status t st }

def setPoint (t : ι) (p : Point κ) (k : Sched ι κ) : Sched ι κ :=
  { k with point := Function.update k.point t p }

def setLevel (l : Level) (k : Sched ι κ) : Sched ι κ := { k with level := l }

/-- Change a semaphore. -/
def setSema (s : κ) (f : Mutex ι → Mutex ι) (k : Sched ι κ) : Sched ι κ :=
  { k with kernel := setLock s f k.kernel }

/-- Inside `lock_acquire` of a lock, or not. -/
def setWaiting (t : ι) (l : Option κ) (k : Sched ι κ) : Sched ι κ :=
  { k with kernel := Kernel.setWaiting t l k.kernel }

/-- Inside `lock_release` of a lock, or not. -/
def setReleasing (t : ι) (l : Option κ) (k : Sched ι κ) : Sched ι κ :=
  { k with releasing := Function.update k.releasing t l }

def onKernel {α : Type} (x : Exec (Kernel ι κ) α) : Exec (Sched ι κ) α :=
  zoom Sched.kernel (fun c k => { k with kernel := c }) x

/-! ### Switching -/

/-- `next_thread_to_run`. -/
def nextThreadToRun : Exec (Sched ι κ) (Option ι) := do
  let ready ← read (fun k => k.readyList)
  let idle ← read (fun k => k.idleThread)
  if ready = [] then pure idle
  else do
    let next ← read (fun k => listHighestPriority k.priority ready)
    match next with
    | some t => do
      update (fun k => { k with readyList := k.readyList.erase t })
      pure (some t)
    | none => pure idle

/-- The end of `thread_schedule_tail`, after a switch from `cur` to `next`: a dying thread is freed. -/
def freeDying (cur next : ι) (k : Sched ι κ) : Sched ι κ :=
  if cur ≠ next ∧ k.status cur = .dying ∧ cur ≠ k.initialThread then setStatus cur .absent k else k

/-- `thread_schedule_tail`. -/
def threadScheduleTail (cur next : ι) : Exec (Sched ι κ) Unit := do
  update (setStatus next .running)
  update (fun k => { k with threadTicks := 0 })
  update (freeDying cur next)

/-- `schedule`. -/
def schedule : Exec (Sched ι κ) Unit := do
  let cur ← read (fun k => k.current)
  let next ← nextThreadToRun
  let level ← read (fun k => k.level)
  assert (level = .off) "intr_get_level() == INTR_OFF"
  let status ← read (fun k => k.status cur)
  assert (status ≠ .running) "cur->status != THREAD_RUNNING"
  match next with
  | none => stop (.panic "is_thread(next)")
  | some t => do
    update (fun k => { k with current := t })
    threadScheduleTail cur t

/-- `thread_block`; the thread goes on at `p` when it is scheduled again. -/
def threadBlock (p : Point κ) : Exec (Sched ι κ) Unit := do
  let level ← read (fun k => k.level)
  assert (level = .off) "intr_get_level() == INTR_OFF"
  update (fun k => setPoint k.current p k)
  update (fun k => setStatus k.current .blocked k)
  schedule

/-- A thread that yields goes to the end of the ready list, unless it is the idle thread. -/
def requeue (cur : ι) (k : Sched ι κ) : Sched ι κ :=
  if k.idleThread = some cur then k else { k with readyList := k.readyList ++ [cur] }

/-- `thread_yield`; the thread goes on at `p` when it is scheduled again. -/
def threadYield (p : Level → Point κ) : Exec (Sched ι κ) Unit := do
  let cur ← read (fun k => k.current)
  let old ← read (fun k => k.level)
  update (setLevel .off)
  update (requeue cur)
  update (setPoint cur (p old))
  update (setStatus cur .ready)
  schedule

/-! ### Interrupt levels -/

/-- The end of `lock_acquire` by `t`, if it is inside: `lock->holder = thread_current()`. -/
def hold (t : ι) (k : Sched ι κ) : Sched ι κ :=
  match k.kernel.waiting t with
  | none => k
  | some l => setWaiting t none (setSema l (fun m => { m with holder := some t }) k)

/-- The running thread is back in its own code. -/
def settle (k : Sched ι κ) : Sched ι κ := hold k.current (setPoint k.current .own k)

/-- `intr_set_level` at the end of a function; `intr_enable` yields if a thread waits. -/
def intrSetLevel : Level → Exec (Sched ι κ) Unit
  | .off => do
    update (setLevel .off)
    update settle
  | .on => do
    update (setLevel .on)
    let waiting ← read (fun k => k.threadWaiting)
    if waiting then do
      update (fun k => { k with threadWaiting := false })
      threadYield .yielded
    else update settle

/-- A ready thread of a higher priority than the running one sets `thread_waiting`. -/
def noteWaiting (t : ι) (k : Sched ι κ) : Sched ι κ :=
  if k.priority t > k.priority k.current then { k with threadWaiting := true } else k

/-- `thread_unblock` between its `intr_disable` and its `intr_set_level`.  That is all of it for a
    caller that has interrupts off. -/
def makeReady (t : ι) : Exec (Sched ι κ) Unit := do
  let status ← read (fun k => k.status t)
  assert (status = .blocked) "t->status == THREAD_BLOCKED"
  update (fun k => { k with readyList := k.readyList ++ [t] })
  update (setStatus t .ready)
  update (noteWaiting t)

/-- Run something with interrupts off and restore the level. -/
def withIntrOff (x : Exec (Sched ι κ) Unit) : Exec (Sched ι κ) Unit := do
  let old ← read (fun k => k.level)
  update (setLevel .off)
  x
  intrSetLevel old

/-! ### Semaphores and locks -/

/-- The loop of `sema_down`. -/
def semaLoop (s : κ) (old : Level) : Exec (Sched ι κ) Unit := do
  let value ← read (fun k => (k.kernel.lock s).value)
  if value = 0 then do
    update (fun k => setSema s (fun m => { m with waiters := m.waiters ++ [k.current] }) k)
    threadBlock (.semaDown s old)
  else do
    update (setSema s (fun m => { m with value := m.value - 1 }))
    intrSetLevel old

/-- `sema_down`. -/
def semaDown (s : κ) : Exec (Sched ι κ) Unit := do
  let old ← read (fun k => k.level)
  update (setLevel .off)
  semaLoop s old

/-- `sema_try_down`; on success the thread has `lock` still to take, if it calls from
    `lock_try_acquire`. -/
def semaTryDown (s : κ) (lock : Option κ) : Exec (Sched ι κ) Unit :=
  withIntrOff (do
    let value ← read (fun k => (k.kernel.lock s).value)
    if value > 0 then do
      update (setSema s (fun m => { m with value := m.value - 1 }))
      update (fun k => setWaiting k.current lock k)
    else pure ())

/-- The part of `sema_up` that wakes a thread. -/
def wakeHighest (s : κ) : Exec (Sched ι κ) Unit := do
  let ws ← read (fun k => k.waiters s)
  if ws ≠ [] then do
    let high ← read (fun k => listHighestPriority k.priority ws)
    match high with
    | none => stop .fault
    | some w => do
      update (setSema s (fun m => { m with waiters := m.waiters.erase w }))
      makeReady w
  else pure ()

/-- `sema_up`. -/
def semaUp (s : κ) : Exec (Sched ι κ) Unit :=
  withIntrOff (do
    wakeHighest s
    update (setSema s (fun m => { m with value := (m.value + 1) % 2 ^ 32 })))

/-- `lock_acquire` up to its `sema_down`. -/
def lockAcquire [Fintype ι] (l : κ) : Exec (Sched ι κ) Unit := do
  let t ← read (fun k => k.current)
  let holder ← read (fun k => (k.kernel.lock l).holder)
  assert (holder ≠ some t) "!lock_held_by_current_thread(lock)"
  onKernel (donateToHolder t l holder)
  update (setWaiting t (some l))

/-- The `sema_down` of `lock_acquire`; `settle` makes the thread the holder when it returns. -/
def acquireDown : Exec (Sched ι κ) Unit := do
  let lock ← read (fun k => k.kernel.waiting k.current)
  match lock with
  | none => stop .fault
  | some l => semaDown l

/-- `lock_try_acquire`. -/
def lockTryAcquire (l : κ) : Exec (Sched ι κ) Unit := do
  let t ← read (fun k => k.current)
  let holder ← read (fun k => (k.kernel.lock l).holder)
  assert (holder ≠ some t) "!lock_held_by_current_thread(lock)"
  semaTryDown l (some l)

/-- What `lock_release` does to the priority of the holder. -/
def restorePriority (t : ι) (l : κ) : Exec (Kernel ι κ) Unit := do
  update (setThread t (fun th => { th with priority := th.origPriority }))
  let donors ← read (fun k => (k.thread t).priorityDonations)
  releaseEach t l donors

/-- `lock_release` up to its loop over the donors. -/
def lockRelease (l : κ) : Exec (Sched ι κ) Unit := do
  let t ← read (fun k => k.current)
  let holder ← read (fun k => (k.kernel.lock l).holder)
  assert (holder = some t) "lock_held_by_current_thread(lock)"
  onKernel (restorePriority t l)
  update (setReleasing t (some l))

/-- `lock_release` after its loop over the donors. -/
def releaseUp : Exec (Sched ι κ) Unit := do
  let t ← read (fun k => k.current)
  let lock ← read (fun k => k.releasing t)
  match lock with
  | none => stop .fault
  | some l => do
    update (setReleasing t none)
    update (setSema l (fun m => { m with holder := none }))
    semaUp l

/-! ### Threads -/

/-- `init_thread` in the page `t`. -/
def initThread (t : ι) (priority : Int) : Exec (Sched ι κ) Unit := do
  assert (priMin ≤ priority ∧ priority ≤ priMax) "PRI_MIN <= priority && priority <= PRI_MAX"
  update (setStatus t .blocked)
  update (setPoint t .start)
  onKernel (update (setThread t (fun _ => ⟨priority, priority, none, []⟩)))
  update (setWaiting t none)
  update (setReleasing t none)
  update (fun k => { k with wakeTime := Function.update k.wakeTime t (-1) })

/-- `thread_unblock`. -/
def threadUnblock (t : ι) : Exec (Sched ι κ) Unit := withIntrOff (makeReady t)

/-- `thread_set_priority`. -/
def threadSetPriority (newPriority : Int) : Exec (Sched ι κ) Unit := do
  let t ← read (fun k => k.current)
  onKernel (Kernel.threadSetPriority t newPriority)
  threadYield .yielded

/-- `timer_sleep (n)` after `start = timer_ticks ()`. -/
def sleepFrom (start n : Int) : Exec (Sched ι κ) Unit := do
  let old ← read (fun k => k.level)
  assert (old = .on) "intr_get_level() == INTR_ON"
  update (setLevel .off)
  update (fun k => { k with sleepingList := k.sleepingList ++ [k.current] })
  update (fun k => { k with wakeTime := Function.update k.wakeTime k.current (start + n) })
  threadBlock (.slept old)

/-- `timer_sleep`. -/
def timerSleep (n : Int) : Exec (Sched ι κ) Unit := do
  let start ← read (fun k => k.ticks)
  sleepFrom start n

/-- `thread_exit`, without `process_exit`. -/
def threadExit : Exec (Sched ι κ) Unit := do
  update (setLevel .off)
  update (fun k => setPoint k.current .own k)
  update (fun k => setStatus k.current .dying k)
  schedule

/-- The assignment at the beginning of `idle`. -/
def idleStart : Exec (Sched ι κ) Unit := update (fun k => { k with idleThread := some k.current })

/-- A turn of the loop of `idle`. -/
def idleTurn : Exec (Sched ι κ) Unit := do
  update (setLevel .off)
  threadBlock .idle

/-! ### The timer interrupt -/

/-- The loop of `wake_sleeping_threads`. -/
def wakeEach (now : Int) : List ι → Exec (Sched ι κ) Unit
  | [] => pure ()
  | t :: ts => do
    let time ← read (fun k => k.wakeTime t)
    if now ≥ time then do
      update (fun k => { k with wakeTime := Function.update k.wakeTime t (-1) })
      update (fun k => { k with sleepingList := k.sleepingList.erase t })
      makeReady t
    else pure ()
    wakeEach now ts

/-- `wake_sleeping_threads`. -/
def wakeSleepingThreads (now : Int) : Exec (Sched ι κ) Unit := do
  let level ← read (fun k => k.level)
  assert (level = .off) "intr_get_level() == INTR_OFF"
  let sleeping ← read (fun k => k.sleepingList)
  wakeEach now sleeping

/-- `TIME_SLICE`. -/
def timeSlice : Nat := 4

/-- `intr_handler` for the timer, with `timer_interrupt` and `thread_tick`. -/
def timerInterrupt : Exec (Sched ι κ) Unit := do
  update (setLevel .off)
  update (fun k => { k with ticks := k.ticks + 1 })
  update (fun k => { k with threadTicks := k.threadTicks + 1 })
  let yieldOnReturn ← read (fun k => decide (k.threadTicks ≥ timeSlice))
  let now ← read (fun k => k.ticks)
  wakeSleepingThreads now
  if yieldOnReturn then threadYield (fun _ => .interrupted)
  else update (setLevel .on)

/-! ### After a switch -/

/-- What the thread that runs after a switch does first. -/
def resume : Exec (Sched ι κ) Unit := do
  let point ← read (fun k => k.point k.current)
  match point with
  -- only the thread that runs is in its own code
  | .own => stop .fault
  | .start => intrSetLevel .on
  | .yielded old => intrSetLevel old
  | .interrupted => do
    update (setLevel .on)
    update (fun k => setPoint k.current .own k)
  | .semaDown s old => semaLoop s old
  | .slept old => intrSetLevel old
  | .direct => update (fun k => setPoint k.current .own k)
  | .idle => do
    update (setLevel .on)
    update (fun k => setPoint k.current .own k)

/-! ### What the parts do

The state that `schedule` is called in, and what it does there, one rule for each function. -/

section Rules

variable {k : Sched ι κ} {Q : Unit → Sched ι κ → Prop} {t : ι}

/-- `t` is the thread that runs. -/
def switchTo (t : ι) (k : Sched ι κ) : Sched ι κ :=
  freeDying k.current t { setStatus t .running { k with current := t } with threadTicks := 0 }

section

omit [DecidableEq κ]

/-- `schedule` switches to the ready thread of the highest priority, or else to the idle thread. -/
theorem schedule_ensures
    (hidle : ∀ t, k.level = .off →
      (k.readyList = [] ∨ listHighestPriority k.priority k.readyList = none) →
      k.idleThread = some t → Q () (switchTo t k))
    (hnext : ∀ t, k.level = .off → listHighestPriority k.priority k.readyList = some t →
      Q () (switchTo t { k with readyList := k.readyList.erase t })) :
    Ensures schedule k Q := by
  have hswitch : ∀ (k' : Sched ι κ) (next : Option ι),
      (∀ t, next = some t → k'.level = .off → Q () (switchTo t k')) →
      Ensures (do
        let level ← read (fun k : Sched ι κ => k.level)
        assert (level = .off) "intr_get_level() == INTR_OFF"
        let status ← read (fun k : Sched ι κ => k.status k'.current)
        assert (status ≠ .running) "cur->status != THREAD_RUNNING"
        match next with
        | none => stop (.panic "is_thread(next)")
        | some t => do
          update (fun k => { k with current := t })
          threadScheduleTail k'.current t) k' Q := by
    intro k' next hQ
    simp only [ensures_bind, ensures_read, ensures_assert]
    intro hlevel _
    cases next with
    | none => exact ensures_stop
    | some t =>
      simp only [threadScheduleTail, ensures_bind, ensures_update]
      exact hQ t rfl hlevel
  rw [schedule, ensures_get, ensures_bind, nextThreadToRun, ensures_get, ensures_get]
  by_cases hready : k.readyList = []
  · rw [if_pos hready, ensures_pure]
    exact hswitch k _ (fun t ht hlevel => hidle t hlevel (.inl hready) ht)
  · rw [if_neg hready, ensures_get]
    cases hhigh : listHighestPriority k.priority k.readyList with
    | none =>
      rw [ensures_pure]
      exact hswitch k _ (fun t ht hlevel => hidle t hlevel (.inr hhigh) ht)
    | some w =>
      rw [ensures_put, ensures_pure]
      apply hswitch { k with readyList := k.readyList.erase w } (some w)
      intro t ht hlevel
      cases ht
      exact hnext w hlevel hhigh

theorem ensures_threadBlock {p : Point κ} : Ensures (threadBlock p) k Q ↔
    (k.level = .off →
      Ensures schedule (setStatus k.current .blocked (setPoint k.current p k)) Q) := by
  simp only [threadBlock, ensures_bind, ensures_read, ensures_assert, ensures_update]
  rfl

end

/-- The running thread is on the ready list. -/
def yielding (p : Level → Point κ) (k : Sched ι κ) : Sched ι κ :=
  setStatus k.current .ready (setPoint k.current (p k.level) (requeue k.current (setLevel .off k)))

omit [DecidableEq κ] in
theorem ensures_threadYield {p : Level → Point κ} :
    Ensures (threadYield p) k Q ↔ Ensures schedule (yielding p k) Q := by
  simp only [threadYield, ensures_bind, ensures_read, ensures_update]
  rfl

theorem ensures_intrSetLevel_off :
    Ensures (intrSetLevel .off) k Q ↔ Q () (settle (setLevel .off k)) := by
  simp only [intrSetLevel, ensures_bind, ensures_update]

/-- Enabling interrupts with a thread that waits. -/
theorem ensures_intrSetLevel_yield (h : k.threadWaiting = true) :
    Ensures (intrSetLevel .on) k Q ↔
      Ensures schedule (yielding .yielded { setLevel .on k with threadWaiting := false }) Q := by
  rw [intrSetLevel, ensures_put, ensures_get]
  have hw : (setLevel .on k).threadWaiting = true := h
  rw [hw, if_pos rfl, ensures_put, ensures_threadYield]

/-- Enabling interrupts without one. -/
theorem ensures_intrSetLevel_on (h : k.threadWaiting = false) :
    Ensures (intrSetLevel .on) k Q ↔ Q () (settle (setLevel .on k)) := by
  rw [intrSetLevel, ensures_put, ensures_get]
  have hw : (setLevel .on k).threadWaiting = false := h
  rw [hw, if_neg (by decide), ensures_update]

omit [DecidableEq κ] in
theorem ensures_makeReady : Ensures (makeReady t) k Q ↔
    (k.status t = .blocked →
      Q () (noteWaiting t (setStatus t .ready { k with readyList := k.readyList ++ [t] }))) := by
  simp only [makeReady, ensures_bind, ensures_read, ensures_assert, ensures_update]

end Rules

end Sched

/-! ### Runs -/

/-- What happens on the machine. -/
inductive SchedOp (ι κ : Type) where
  | init (t : ι) (priority : Int)
  | yield
  | block
  | unblock (t : ι)
  | semaDown (s : κ)
  | semaTryDown (s : κ)
  | semaUp (s : κ)
  | lockAcquire (l : κ)
  | acquireDown
  | lockTryAcquire (l : κ)
  | lockRelease (l : κ)
  | releaseUp
  | setPriority (p : Int)
  | sleep (n : Int)
  | exit
  | intrDisable
  | intrEnable
  | idleStart
  | idleTurn
  | tick
  | resume

variable {ι κ : Type} [DecidableEq ι] [DecidableEq κ]

/-- The running thread is in its own code and inside none of the operations. -/
def Sched.Free (k : Sched ι κ) : Prop :=
  k.point k.current = .own ∧ k.kernel.waiting k.current = none ∧ k.releasing k.current = none

namespace SchedOp

open Sched

def code [Fintype ι] : SchedOp ι κ → Exec (Sched ι κ) Unit
  | init t p => initThread t p
  | yield => threadYield .yielded
  | block => threadBlock .direct
  | unblock t => threadUnblock t
  | semaDown s => Sched.semaDown s
  | semaTryDown s => Sched.semaTryDown s none
  | semaUp s => Sched.semaUp s
  | lockAcquire l => Sched.lockAcquire l
  | acquireDown => Sched.acquireDown
  | lockTryAcquire l => Sched.lockTryAcquire l
  | lockRelease l => Sched.lockRelease l
  | releaseUp => Sched.releaseUp
  | setPriority p => threadSetPriority p
  | sleep n => timerSleep n
  | exit => threadExit
  | intrDisable => update (setLevel .off)
  | intrEnable => intrSetLevel .on
  | idleStart => Sched.idleStart
  | idleTurn => Sched.idleTurn
  | tick => timerInterrupt
  | resume => Sched.resume

/-- When an operation can take place.  Right after a switch it is `resume`.  Otherwise the running
    thread is in its own code; the idle thread executes `idle`, and nobody else does. -/
def Ready (k : Sched ι κ) : SchedOp ι κ → Prop
  | resume => k.point k.current ≠ .own
  | tick => k.point k.current = .own ∧ k.level = .on
  | acquireDown => k.point k.current = .own ∧ k.kernel.waiting k.current ≠ none ∧
    k.idleThread ≠ some k.current ∧ k.releasing k.current = none
  | releaseUp => k.point k.current = .own ∧ k.releasing k.current ≠ none
  | idleStart => k.Free ∧ k.idleThread = none
  | idleTurn => k.Free ∧ k.idleThread = some k.current
  | semaUp _ => k.Free
  | init t _ => k.Free ∧ k.idleThread ≠ some k.current ∧ k.status t = .absent
  | yield | block | unblock _ | semaDown _ | semaTryDown _ | lockAcquire _ | lockTryAcquire _
  | lockRelease _ | setPriority _ | sleep _ | exit | intrDisable | intrEnable =>
    k.Free ∧ k.idleThread ≠ some k.current

instance (k : Sched ι κ) : Decidable k.Free := inferInstanceAs (Decidable (_ ∧ _ ∧ _))

instance (k : Sched ι κ) (op : SchedOp ι κ) : Decidable (op.Ready k) := by
  cases op <;> unfold Ready <;> infer_instance

/-- The operation takes `k` to `k'`. -/
structure Steps [Fintype ι] (op : SchedOp ι κ) (k k' : Sched ι κ) : Prop where
  ready : op.Ready k
  run : op.code.run k = .ok ((), k')

end SchedOp

/-- The machine after `thread_init`: `main` runs with interrupts off, the other pages are zeros, and
    nobody has touched the semaphores, whatever their values are. -/
structure Sched.Boot (k : Sched ι κ) : Prop where
  thread : ∀ t, k.kernel.thread t =
    if t = k.current then ⟨priDefault, priDefault, none, []⟩ else ⟨0, 0, none, []⟩
  lock : ∀ s, (k.kernel.lock s).holder = none ∧ (k.kernel.lock s).waiters = []
  waiting : ∀ t, k.kernel.waiting t = none
  releasing : ∀ t, k.releasing t = none
  status : ∀ t, k.status t = if t = k.current then .running else .absent
  point : k.point k.current = .own
  readyList : k.readyList = []
  sleepingList : k.sleepingList = []
  idleThread : k.idleThread = none
  initialThread : k.initialThread = k.current
  level : k.level = .off
  threadWaiting : k.threadWaiting = false

end KernelSanders
