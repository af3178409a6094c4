import KernelSanders.Lib.Exec

namespace KernelSanders

open Lib Lib.Exec

/-!
# `threads/synch.c`, `threads/thread.c` — locks with priority donation

The locks with their semaphores and wait lists, and the fields of `struct thread` that donation
works on.  `thread_mlfqs` is off.  An operation runs up to its return or to the `thread_block` in
`sema_down`; a thread that `sema_up` has woken goes on with the `while` of `sema_down` when it is
scheduled, which is an operation of its own (`resume`).  Which thread is scheduled when is left
open, so `thread_yield` does nothing here.

A thread is the element of at most one list of donors at a time, so these are lists of threads.
-/

/-- The fields of `struct thread`. -/
structure Tcb (ι κ : Type) where
  priority : Int
  origPriority : Int
  lockNeeded : Option κ
  priorityDonations : List ι

/-- `struct lock`, with the value and the wait list of its semaphore. -/
structure Mutex (ι : Type) where
  holder : Option ι
  value : Nat
  waiters : List ι

/-- The threads and the locks.  `waiting` is the lock whose `lock_acquire` a thread is inside,
    blocked or woken up. -/
structure Kernel (ι κ : Type) where
  thread : ι → Tcb ι κ
  lock : κ → Mutex ι
  waiting : ι → Option κ

namespace Kernel

variable {ι κ : Type} [DecidableEq ι] [DecidableEq κ]

/-- Change the fields of one thread. -/
def setThread (t : ι) (f : Tcb ι κ → Tcb ι κ) (k : Kernel ι κ) : Kernel ι κ :=
  { k with thread := Function.update k.thread t (f (k.thread t)) }

/-- Change one lock. -/
def setLock (l : κ) (f : Mutex ι → Mutex ι) (k : Kernel ι κ) : Kernel ι κ :=
  { k with lock := Function.update k.lock l (f (k.lock l)) }

/-- Inside `lock_acquire` of a lock, or not. -/
def setWaiting (t : ι) (l : Option κ) (k : Kernel ι κ) : Kernel ι κ :=
  { k with waiting := Function.update k.waiting t l }

/-! ### Donation -/

/-- The loop of `thread_donate_priority`.  The links it follows do not change, so it has come back
    to a thread and never ends when it has not ended within as many turns as there are threads. -/
def trickle : Nat → ι → Exec (Kernel ι κ) Unit
  | 0, _ => stop .fuel
  | n + 1, curr => do
    let nextLock ← read (fun k => (k.thread curr).lockNeeded)
    match nextLock with
    | none => pure ()
    | some l => do
      let holder ← read (fun k => (k.lock l).holder)
      match holder with
      | none => stop (.panic "next_lock->holder != NULL")
      | some h => do
        update (fun k => setThread h (fun th => { th with priority := (k.thread curr).priority }) k)
        trickle n h

/-- `thread_donate_priority` by thread `t`. -/
def threadDonatePriority [Fintype ι] (t donateTo : ι) : Exec (Kernel ι κ) Unit := do
  update (setThread donateTo (fun th =>
    { th with priorityDonations := th.priorityDonations ++ [t] }))
  update (fun k => setThread donateTo (fun th => { th with priority := (k.thread t).priority }) k)
  trickle (Fintype.card ι) donateTo

/-! ### Semaphores -/

/-- `list_highest_priority`: the first element with the highest priority, as an `int8_t`. -/
def listHighestPriority (priority : ι → Int) (ws : List ι) : Option ι :=
  (ws.foldl (fun best w =>
    if best.1 < (priority w).bmod 256 then ((priority w).bmod 256, some w) else best)
    ((-1 : Int), (none : Option ι))).2

omit [DecidableEq ι] in
/-- The search for the first element of the greatest rank that exceeds what there was before. -/
theorem foldl_best (rank : ι → Int) (ws : List ι) (best : Int × Option ι) :
    let last := ws.foldl (fun best w => if best.1 < rank w then (rank w, some w) else best) best
    best.1 ≤ last.1 ∧ (∀ u ∈ ws, rank u ≤ last.1) ∧
      (last = best ∨ ∃ us w vs, ws = us ++ w :: vs ∧ (∀ u ∈ us, rank u < rank w) ∧
        last = (rank w, some w) ∧ best.1 < last.1) := by
  induction ws generalizing best with
  | nil => exact ⟨le_rfl, nofun, .inl rfl⟩
  | cons v vs ih =>
    simp only [List.foldl_cons]
    split_ifs with hv
    · obtain ⟨hle, hall, hcase⟩ := ih (rank v, some v)
      refine ⟨hv.le.trans hle, List.forall_mem_cons.mpr ⟨hle, hall⟩, .inr ?_⟩
      rcases hcase with hlast | ⟨us, w, ws, rfl, hus, hlast, hlt⟩
      · exact ⟨[], v, vs, rfl, nofun, hlast, by rw [hlast]; exact hv⟩
      · refine ⟨v :: us, w, ws, rfl, List.forall_mem_cons.mpr ⟨?_, hus⟩, hlast, hv.trans hlt⟩
        rw [hlast] at hlt
        exact hlt
    · obtain ⟨hle, hall, hcase⟩ := ih best
      refine ⟨hle, List.forall_mem_cons.mpr ⟨(not_lt.mp hv).trans hle, hall⟩, ?_⟩
      rcases hcase with hlast | ⟨us, w, ws, rfl, hus, hlast, hlt⟩
      · exact .inl hlast
      · have hvw : rank v < rank w := by
          rw [hlast] at hlt
          exact lt_of_le_of_lt (not_lt.mp hv) hlt
        exact .inr ⟨v :: us, w, ws, rfl, List.forall_mem_cons.mpr ⟨hvw, hus⟩, hlast, hlt⟩

variable {p : ι → Int} {ws : List ι}

section

omit [DecidableEq ι]

/-- The choice is an element of the list with the greatest priority, as an `int8_t`. -/
theorem listHighestPriority_spec {w : ι} (h : listHighestPriority p ws = some w) :
    w ∈ ws ∧ -1 < (p w).bmod 256 ∧ ∀ u ∈ ws, (p u).bmod 256 ≤ (p w).bmod 256 := by
  obtain ⟨-, hall, hcase⟩ := foldl_best (fun w => (p w).bmod 256) ws (-1, none)
  rw [listHighestPriority] at h
  rcases hcase with hlast | ⟨us, w', vs, rfl, -, hlast, hlt⟩
  · rw [hlast] at h
    cases h
  · rw [hlast] at h hall hlt
    cases h
    exact ⟨by simp, hlt, hall⟩

/-- Nothing is chosen only if no priority counts. -/
theorem listHighestPriority_none (h : listHighestPriority p ws = none) :
    ∀ u ∈ ws, (p u).bmod 256 ≤ -1 := by
  obtain ⟨-, hall, hcase⟩ := foldl_best (fun w => (p w).bmod 256) ws (-1, none)
  rw [listHighestPriority] at h
  rcases hcase with hlast | ⟨-, w, -, -, -, hlast, -⟩
  · rw [hlast] at hall
    exact hall
  · rw [hlast] at h
    cases h

/-- Among priorities that an `int8_t` can hold, the first of the greatest is chosen. -/
theorem listHighestPriority_first (hne : ws ≠ []) (hp : ∀ u ∈ ws, 0 ≤ p u ∧ p u ≤ 127) :
    ∃ us w vs, ws = us ++ w :: vs ∧ (∀ u ∈ us, p u < p w) ∧ (∀ v ∈ vs, p v ≤ p w) ∧
      listHighestPriority p ws = some w := by
  have hrank : ∀ u ∈ ws, (p u).bmod 256 = p u := fun u hu =>
    Int.bmod_eq_of_le (by have := hp u hu; omega) (by have := hp u hu; omega)
  obtain ⟨-, hall, hcase⟩ := foldl_best (fun w => (p w).bmod 256) ws (-1, none)
  rcases hcase with hlast | ⟨us, w, vs, rfl, hus, hlast, -⟩
  · -- a priority is at least zero, so the search does not end with what it started from
    obtain ⟨u, hu⟩ := List.exists_mem_of_ne_nil ws hne
    have hle := hall u hu
    rw [hlast, hrank u hu] at hle
    have := (hp u hu).1
    omega
  · rw [hlast] at hall
    refine ⟨us, w, vs, rfl, fun u hu => ?_, fun v hv => ?_, congrArg Prod.snd hlast⟩
    · have hlt := hus u hu
      rwa [hrank u (by simp [hu]), hrank w (by simp)] at hlt
    · have hle := hall v (by simp [hv])
      rwa [hrank v (by simp [hv]), hrank w (by simp)] at hle

end

/-- `sema_down` on the semaphore of a lock and, unless that blocks, `lock->holder = current`. -/
def downThenHold (t : ι) (l : κ) : Exec (Kernel ι κ) Unit := do
  let value ← read (fun k => (k.lock l).value)
  if value = 0 then do
    update (setLock l (fun m => { m with waiters := m.waiters ++ [t] }))
    update (setWaiting t (some l))
  else do
    update (setLock l (fun m => { m with value := m.value - 1 }))
    update (setLock l (fun m => { m with holder := some t }))
    update (setWaiting t none)

/-- `sema_up` on the semaphore of a lock. -/
def semaUpLock (l : κ) : Exec (Kernel ι κ) Unit := do
  let ws ← read (fun k => (k.lock l).waiters)
  if ws ≠ [] then do
    let high ← read (fun k => listHighestPriority (fun w => (k.thread w).priority) ws)
    match high with
    | none => stop .fault
    | some w => update (setLock l (fun m => { m with waiters := m.waiters.erase w }))
  else pure ()
  update (setLock l (fun m => { m with value := m.value + 1 }))

/-! ### The operations -/

/-- The donation in `lock_acquire`: only to a holder with a lower priority, and only then is
    `lock_needed` set.  Nothing ever resets it. -/
def donateToHolder [Fintype ι] (t : ι) (l : κ) : Option ι → Exec (Kernel ι κ) Unit
  | none => pure ()
  | some h => do
    let mine ← read (fun k => (k.thread t).priority)
    let theirs ← read (fun k => (k.thread h).priority)
    if theirs < mine then do
      threadDonatePriority t h
      update (setThread t (fun th => { th with lockNeeded := some l }))
    else pure ()

/-- `lock_acquire` by thread `t`. -/
def lockAcquire [Fintype ι] (t : ι) (l : κ) : Exec (Kernel ι κ) Unit := do
  let holder ← read (fun k => (k.lock l).holder)
  assert (holder ≠ some t) "!lock_held_by_current_thread(lock)"
  donateToHolder t l holder
  downThenHold t l

/-- `lock_try_acquire` by thread `t`. -/
def lockTryAcquire (t : ι) (l : κ) : Exec (Kernel ι κ) Bool := do
  let holder ← read (fun k => (k.lock l).holder)
  assert (holder ≠ some t) "!lock_held_by_current_thread(lock)"
  let value ← read (fun k => (k.lock l).value)
  if value > 0 then do
    update (setLock l (fun m => { m with value := m.value - 1 }))
    update (setLock l (fun m => { m with holder := some t }))
    pure true
  else pure false

/-- A woken thread goes on in `sema_down`. -/
def resume (t : ι) : Exec (Kernel ι κ) Unit := do
  let lock ← read (fun k => k.waiting t)
  match lock with
  | none => stop .fault
  | some l => downThenHold t l

/-- The loop of `lock_release` over the donors of the holder. -/
def releaseEach (t : ι) (l : κ) : List ι → Exec (Kernel ι κ) Unit
  | [] => pure ()
  | d :: ds => do
    let needed ← read (fun k => (k.thread d).lockNeeded)
    if needed = some l then
      update (setThread t (fun th =>
        { th with priorityDonations := th.priorityDonations.erase d }))
    else
      update (fun k => setThread t (fun th =>
        if (k.thread d).priority > th.priority
          then { th with priority := (k.thread d).priority } else th) k)
    releaseEach t l ds

/-- `lock_release` by thread `t`. -/
def lockRelease (t : ι) (l : κ) : Exec (Kernel ι κ) Unit := do
  let holder ← read (fun k => (k.lock l).holder)
  assert (holder = some t) "lock_held_by_current_thread(lock)"
  update (setThread t (fun th => { th with priority := th.origPriority }))
  let donors ← read (fun k => (k.thread t).priorityDonations)
  releaseEach t l donors
  update (setLock l (fun m => { m with holder := none }))
  semaUpLock l

/-- `thread_set_priority` by thread `t`. -/
def threadSetPriority (t : ι) (newPriority : Int) : Exec (Kernel ι κ) Unit := do
  update (setThread t (fun th => { th with origPriority := newPriority }))
  let th ← read (fun k => k.thread t)
  if th.priorityDonations = [] then
    update (setThread t (fun th => { th with priority := newPriority }))
  else if newPriority > th.priority then
    update (setThread t (fun th => { th with priority := newPriority }))
  else pure ()

end Kernel

/-! ### Runs -/

/-- What the threads do. -/
inductive LockOp (ι κ : Type) where
  | acquire (t : ι) (l : κ)
  | resume (t : ι)
  | release (t : ι) (l : κ)
  | setPriority (t : ι) (newPriority : Int)

variable {ι κ : Type} [DecidableEq ι] [DecidableEq κ]

def LockOp.code [Fintype ι] : LockOp ι κ → Exec (Kernel ι κ) Unit
  | acquire t l => Kernel.lockAcquire t l
  | resume t => Kernel.resume t
  | release t l => Kernel.lockRelease t l
  | setPriority t p => Kernel.threadSetPriority t p

/-- Thread `u` waits for a lock that `t` holds. -/
def Kernel.Waits (k : Kernel ι κ) (u t : ι) : Prop :=
  ∃ l, k.waiting u = some l ∧ (k.lock l).holder = some t

/-- The link from `u` to `t` that the loop of `thread_donate_priority` follows. -/
def Kernel.Linked (k : Kernel ι κ) (u t : ι) : Prop :=
  ∃ l, (k.thread u).lockNeeded = some l ∧ (k.lock l).holder = some t

/-- The thread of the operation can run. -/
def LockOp.Ready (k : Kernel ι κ) : LockOp ι κ → Prop
  | acquire t _ | release t _ | setPriority t _ => k.waiting t = none
  | resume t => ∃ l, k.waiting t = some l ∧ t ∉ (k.lock l).waiters

/-- The operation does not close a cycle of threads that wait for each other's locks. -/
def LockOp.NoCycle (k : Kernel ι κ) : LockOp ι κ → Prop
  | acquire t l => ∀ h, (k.lock l).holder = some h → ¬ Relation.ReflTransGen k.Waits h t
  | resume _ | release _ _ | setPriority _ _ => True

/-- The operation `op` takes `k` to `k'`. -/
structure LockOp.Steps [Fintype ι] (op : LockOp ι κ) (k k' : Kernel ι κ) : Prop where
  ready : op.Ready k
  noCycle : op.NoCycle k
  run : op.code.run k = .ok ((), k')

/-- What threads do to locks, `lock_try_acquire` included. -/
inductive LockCall (ι κ : Type) where
  | op (o : LockOp ι κ)
  | tryAcquire (t : ι) (l : κ)

/-- The call `c` takes `k` to `k'`. -/
def LockCall.Steps [Fintype ι] (k k' : Kernel ι κ) : LockCall ι κ → Prop
  | op o => o.Steps k k'
  | tryAcquire t l => k.waiting t = none ∧ ∃ b, (Kernel.lockTryAcquire t l).run k = .ok (b, k')

/-- Any number of calls by any threads, none of which closes a cycle of waiting threads. -/
def LockRun [Fintype ι] : Kernel ι κ → Kernel ι κ → Prop :=
  Relation.ReflTransGen (fun k k' => ∃ c : LockCall ι κ, c.Steps k k')

/-- No lock has been touched yet. -/
structure Kernel.Boot (k : Kernel ι κ) : Prop where
  thread : ∀ t, (k.thread t).priority = (k.thread t).origPriority ∧
    (k.thread t).lockNeeded = none ∧ (k.thread t).priorityDonations = []
  lock : ∀ l, k.lock l = ⟨none, 1, []⟩
  waiting : ∀ t, k.waiting t = none

/-- Threads with the given priorities, and locks that nobody has touched. -/
def Kernel.fresh (p : ι → Int) : Kernel ι κ where
  thread t := ⟨p t, p t, none, []⟩
  lock _ := ⟨none, 1, []⟩
  waiting _ := none

omit [DecidableEq ι] [DecidableEq κ] in
theorem Kernel.boot_fresh (p : ι → Int) : (Kernel.fresh p : Kernel ι κ).Boot :=
  ⟨fun _ => ⟨rfl, rfl, rfl⟩, fun _ => rfl, fun _ => rfl⟩

end KernelSanders
