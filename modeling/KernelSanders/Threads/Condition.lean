import KernelSanders.Threads.Semaphore
import KernelSanders.Threads.Synch

namespace KernelSanders

open Lib Lib.Exec Relation
open Function hiding update
open Semaphores List

/-!
# `threads/synch.c` — a condition variable and its lock

`cond_wait` puts a semaphore of its own on the list of the condition, releases the lock, and only
then goes to sleep on the semaphore; it may be preempted between any two of these.  `cond_signal`
looks for the thread with the highest priority in the semaphores of the list.  A thread that is on
the list but not asleep yet does not count there, and if it is the only one, the assertion that
somebody was found fails.

* `condSignal_meets`: the two ends of `cond_signal`, in terms of who is asleep;
* `condition_signals`: it wakes a thread of the highest priority if and only if the list is empty or
  such a thread is asleep, and `cond_broadcast` wakes all threads on the list, whatever the others
  do meanwhile, if and only if all are asleep.

A `cond_signal` is one action, as the list belongs to the thread that has the lock.  A
`cond_broadcast` is one `cond_signal` after the other, with actions of other threads in between.
The lock is as its users see it: taking it is one action, there to be taken when it is free.
-/

/-- How far a thread is in `cond_wait`: not in it, on the list with the lock, on the list without,
    in `sema_down`, and in the `lock_acquire` at the end. -/
inductive CondStage where
  | outside
  | listed
  | released
  | waiting
  | reacquiring
  deriving DecidableEq

/-- A lock, a condition, and threads.  The semaphore with the number of a thread is the one in its
    frame of `cond_wait`; the list of the condition holds the threads whose semaphores are on it. -/
structure Monitor (ι : Type) where
  semas : Semaphores ι ι
  holder : Option ι
  waiters : List ι
  stage : ι → CondStage

open Monitor

namespace Monitor

variable {ι : Type} [DecidableEq ι]

/-- Code on the semaphores. -/
def onSemas {α : Type} (x : Exec (Semaphores ι ι) α) : Exec (Monitor ι) α :=
  zoom semas (fun s m => { m with semas := s }) x

/-- Code on the lock. -/
def onLock {α : Type} (x : Exec (Option ι) α) : Exec (Monitor ι) α :=
  zoom holder (fun h m => { m with holder := h }) x

def setStage (t : ι) (p : CondStage) (m : Monitor ι) : Monitor ι :=
  { m with stage := Function.update m.stage t p }

/-! ### `cond_wait` -/

/-- `cond_wait` up to its `lock_release`. -/
def condWaitList (t : ι) : Exec (Monitor ι) Unit := do
  let holder ← read (fun m => m.holder)
  assert (holder = some t) "lock_held_by_current_thread(lock)"
  onSemas (semaInit t 0)
  update (fun m => { m with waiters := m.waiters ++ [t] })
  update (setStage t .listed)

/-- The `lock_release` of `cond_wait`. -/
def condWaitRelease (t : ι) : Exec (Monitor ι) Unit := do
  onLock (lockRelease t)
  update (setStage t .released)

/-- Where `sema_down` has left the thread. -/
def afterDown (t : ι) (m : Monitor ι) : Monitor ι :=
  setStage t (if m.semas.place t = .outside then .reacquiring else .waiting) m

/-- The `sema_down` of `cond_wait`. -/
def condWaitDown (t : ι) : Exec (Monitor ι) Unit := do
  onSemas (Semaphores.semaDown t t)
  update (afterDown t)

/-- A woken thread goes on in the `sema_down` of `cond_wait`. -/
def condWaitResume (t : ι) : Exec (Monitor ι) Unit := do
  onSemas (resume t)
  update (afterDown t)

/-- The `lock_acquire` of `cond_wait`. -/
def condWaitAcquire (t : ι) : Exec (Monitor ι) Unit := do
  onLock (lockAcquire t)
  update (setStage t .outside)

/-! ### `cond_signal` and `cond_broadcast` -/

/-- The priority of the thread that waits on a semaphore of the list, and `-1` if there is none. -/
def waiterPriority (w : ι) : Exec (Monitor ι) Int := do
  let ws ← read (fun m => (m.semas.sema w).waiters)
  if ws ≠ [] then do
    let high ← read (fun m => Kernel.listHighestPriority m.semas.priority ws)
    match high with
    | none => stop .fault
    | some u => read (fun m => (m.semas.priority u).bmod 256)
  else pure (-1)

/-- The loop of `cond_signal`. -/
def findNext : List ι → Int → Option ι → Exec (Monitor ι) (Option ι)
  | [], _, next => pure next
  | w :: ws, maxPriority, next => do
    let pri ← waiterPriority w
    if pri > maxPriority then findNext ws pri (some w) else findNext ws maxPriority next

/-- `cond_signal` by thread `t`. -/
def condSignal (t : ι) : Exec (Monitor ι) Unit := do
  let holder ← read (fun m => m.holder)
  assert (holder = some t) "lock_held_by_current_thread (lock)"
  let ws ← read (fun m => m.waiters)
  if ws ≠ [] then do
    let next ← findNext ws (-1) none
    match next with
    | none => stop (.panic "next != NULL")
    | some w => do
      update (fun m => { m with waiters := m.waiters.erase w })
      onSemas (Semaphores.semaUp w)
  else pure ()

/-- A turn of the loop of `cond_broadcast` by thread `t`, which ends when the list is empty. -/
def condBroadcastTurn (t : ι) : Exec (Monitor ι) Unit := do
  let ws ← read (fun m => m.waiters)
  if ws ≠ [] then condSignal t else pure ()

end Monitor

/-! ### Runs -/

/-- What the threads do. -/
inductive CondOp (ι : Type) where
  | acquire (t : ι)
  | release (t : ι)
  | waitList (t : ι)
  | waitRelease (t : ι)
  | waitDown (t : ι)
  | waitResume (t : ι)
  | waitAcquire (t : ι)
  | signal (t : ι)
  | setPriority (t : ι) (p : Int)

variable {ι : Type} [DecidableEq ι]

namespace CondOp

open Monitor

def code : CondOp ι → Exec (Monitor ι) Unit
  | acquire t => onLock (lockAcquire t)
  | release t => onLock (lockRelease t)
  | waitList t => condWaitList t
  | waitRelease t => condWaitRelease t
  | waitDown t => condWaitDown t
  | waitResume t => condWaitResume t
  | waitAcquire t => condWaitAcquire t
  | signal t => condSignal t
  | setPriority t p => onSemas (update (fun s =>
      { s with priority := Function.update s.priority t p }))

/-- The thread of the operation is at the place where it begins. -/
def Ready (m : Monitor ι) : CondOp ι → Prop
  | acquire t | release t | waitList t | signal t => m.stage t = .outside
  | waitRelease t => m.stage t = .listed
  | waitDown t => m.stage t = .released
  | waitResume t => m.stage t = .waiting ∧ m.semas.place t = .woken t
  | waitAcquire t => m.stage t = .reacquiring
  | setPriority _ _ => True

/-- The operation takes `m` to `m'`. -/
structure Steps (op : CondOp ι) (m m' : Monitor ι) : Prop where
  ready : op.Ready m
  run : op.code.run m = .ok ((), m')

end CondOp

/-- Any number of operations, in any interleaving. -/
def CondRun : Monitor ι → Monitor ι → Prop :=
  ReflTransGen (fun m m' => ∃ op : CondOp ι, op.Steps m m')

/-- The priorities of the threads on the list are those of a nonnegative `int8_t`. -/
def Monitor.InRange (m : Monitor ι) : Prop :=
  ∀ w ∈ m.waiters, 0 ≤ m.semas.priority w ∧ m.semas.priority w < 128

/-- Any number of operations while `t` has the lock and does not call `cond_wait`. -/
def HeldRun (t : ι) : Monitor ι → Monitor ι → Prop :=
  ReflTransGen (fun m m' => (∃ op : CondOp ι, op.Steps m m') ∧
    m'.holder = some t ∧ m'.stage t = .outside ∧ m'.InRange)

/-- The lock is free and nobody waits. -/
def Monitor.fresh (p : ι → Int) : Monitor ι where
  semas := .fresh (fun _ => 0) p
  holder := none
  waiters := []
  stage _ := .outside

namespace Monitor

variable {m m' : Monitor ι} {t w : ι} {p : ι → Int}

/-! ### The invariant -/

/-- A thread sleeps on its semaphore. -/
def Asleep (m : Monitor ι) (t : ι) : Prop := m.semas.place t = .asleep t

instance (m : Monitor ι) (t : ι) : Decidable (m.Asleep t) :=
  inferInstanceAs (Decidable (m.semas.place t = .asleep t))

/-- What holds of a thread at each stage of `cond_wait`. -/
def Stands (m : Monitor ι) (t : ι) : CondStage → Prop
  | .outside | .reacquiring => m.semas.place t = .outside ∧ t ∉ m.waiters
  | .listed => m.semas.place t = .outside ∧ t ∈ m.waiters ∧ m.semas.sema t = ⟨0, []⟩ ∧
      m.holder = some t
  | .released => m.semas.place t = .outside ∧ t ∈ m.waiters ∧ m.semas.sema t = ⟨0, []⟩
  | .waiting => (m.Asleep t ∧ t ∈ m.waiters ∧ m.semas.sema t = ⟨0, [t]⟩) ∨
      (m.semas.place t = .woken t ∧ t ∉ m.waiters ∧ m.semas.sema t = ⟨1, []⟩)

structure Sound (m : Monitor ι) : Prop where
  nodup : m.waiters.Nodup
  stands : ∀ t, m.Stands t (m.stage t)

section

omit [DecidableEq ι]

theorem Sound.at_stage (h : Sound m) {p : CondStage} (hp : m.stage t = p) : m.Stands t p :=
  hp ▸ h.stands t

/-- A thread on the list is asleep, or its semaphore is as it was made. -/
theorem Sound.of_mem (h : Sound m) (hw : w ∈ m.waiters) :
    (m.Asleep w ∧ m.semas.sema w = ⟨0, [w]⟩) ∨
      (m.semas.place w = .outside ∧ m.semas.sema w = ⟨0, []⟩) := by
  cases hs : m.stage w with
  | outside | reacquiring => exact absurd hw (h.at_stage hs).2
  | listed => exact .inr ⟨(h.at_stage hs).1, (h.at_stage hs).2.2.1⟩
  | released => exact .inr ⟨(h.at_stage hs).1, (h.at_stage hs).2.2⟩
  | waiting =>
    rcases h.at_stage hs with ⟨ha, -, hs⟩ | ⟨-, hn, -⟩
    · exact .inl ⟨ha, hs⟩
    · exact absurd hw hn

end

/-! ### `cond_signal` -/

/-- The priority that the loop of `cond_signal` finds for an element of the list. -/
def rank (m : Monitor ι) (w : ι) : Int :=
  if m.Asleep w then (m.semas.priority w).bmod 256 else -1

/-- A priority that `list_highest_priority` does not see. -/
def Unseen (m : Monitor ι) (w : ι) : Prop := m.Asleep w ∧ (m.semas.priority w).bmod 256 ≤ -1

omit [DecidableEq ι] in
theorem listHighestPriority_singleton :
    Kernel.listHighestPriority p [w] = if -1 < (p w).bmod 256 then some w else none := by
  rw [Kernel.listHighestPriority, foldl_cons, foldl_nil]
  split_ifs <;> rfl

theorem waiterPriority_meets (h : Sound m) (hw : w ∈ m.waiters) :
    Meets (waiterPriority w) m (fun pri m' => m' = m ∧ pri = m.rank w) (fun _ => m.Unseen w) := by
  rw [waiterPriority, meets_get]
  rcases h.of_mem hw with ⟨ha, hs⟩ | ⟨hout, hs⟩
  · rw [hs, if_pos (cons_ne_nil w []), meets_get, listHighestPriority_singleton]
    split_ifs with hlt
    · exact ⟨rfl, by rw [rank, if_pos ha]⟩
    · exact ⟨ha, not_lt.mp hlt⟩
  · rw [hs, if_neg (not_not.mpr rfl)]
    refine ⟨rfl, ?_⟩
    rw [rank, if_neg]
    rw [Asleep, hout]
    nofun

theorem findNext_meets (h : Sound m) (ws : List ι) (hws : ∀ w ∈ ws, w ∈ m.waiters)
    (maxPriority : Int) (next : Option ι) :
    Meets (findNext ws maxPriority next) m
      (fun r m' => m' = m ∧ r = (ws.foldl (fun best w =>
        if best.1 < m.rank w then (m.rank w, some w) else best) (maxPriority, next)).2)
      (fun _ => ∃ w ∈ ws, m.Unseen w) := by
  induction ws generalizing maxPriority next with
  | nil => exact ⟨rfl, rfl⟩
  | cons w ws ih =>
    have hrest : ∀ w ∈ ws, w ∈ m.waiters := fun u hu => hws u (mem_cons_of_mem w hu)
    have hunseen : ∀ e : Stop, (∃ u ∈ ws, m.Unseen u) → ∃ u ∈ w :: ws, m.Unseen u :=
      fun _ ⟨u, hu, hun⟩ => ⟨u, mem_cons_of_mem w hu, hun⟩
    rw [findNext]
    refine (waiterPriority_meets h (hws w mem_cons_self)).bind (fun pri m₁ hm₁ => ?_)
      (fun _ hun => ⟨w, mem_cons_self, hun⟩)
    obtain ⟨rfl, rfl⟩ := hm₁
    rw [foldl_cons]
    split_ifs
    · exact (ih hrest _ _).mono (fun _ _ hr => hr) hunseen
    · exact (ih hrest _ _).mono (fun _ _ hr => hr) hunseen

/-- A sleeping thread is taken off the list and woken up. -/
def wake (w : ι) (m : Monitor ι) : Monitor ι :=
  { m with
    waiters := m.waiters.erase w
    semas := countUp w (setSema w (fun _ => ⟨1, []⟩)
      (setPlace w (.woken w) m.semas)) }

theorem semaUp_asleep {s : Semaphores ι ι} (hp : s.place w = .asleep w)
    (hs : s.sema w = ⟨0, [w]⟩) (hpri : -1 < (s.priority w).bmod 256) :
    (Semaphores.semaUp w).run s = .ok ((), Semaphores.countUp w
      (setSema w (fun _ => ⟨1, []⟩) (setPlace w (.woken w) s))) := by
  have hhigh : Kernel.listHighestPriority s.priority [w] = some w := by
    rw [listHighestPriority_singleton, if_pos hpri]
  have hwake : (wakeHighest w).run s = .ok ((), setPlace w (.woken w)
      (setSema w (fun m => { m with waiters := m.waiters.erase w }) s)) := by
    rw [wakeHighest]
    simp only [read_bind, hs, if_pos (cons_ne_nil w []), hhigh, update_bind,
      threadUnblock, setSema_place, hp]
    rfl
  have hone : setSema w (fun m => { m with value := (m.value + 1) % 2 ^ 32 })
      (setPlace w (.woken w)
        (setSema w (fun m => { m with waiters := m.waiters.erase w }) s))
      = setSema w (fun _ => ⟨1, []⟩) (setPlace w (.woken w) s) := by
    unfold setSema setPlace
    simp only [update_idem, update_self, hs, erase_cons_head]
    rfl
  rw [Semaphores.semaUp, bind_ok hwake, update_bind, hone]
  rfl

theorem condSignal_meets (h : Sound m) (t : ι) :
    Meets (condSignal t) m
      (fun _ m' => m.holder = some t ∧ ((m.waiters = [] ∧ m' = m) ∨ ∃ w ∈ m.waiters,
        m.Asleep w ∧ (∀ u ∈ m.waiters, m.rank u ≤ m.rank w) ∧ m' = m.wake w))
      (fun _ => m.holder ≠ some t ∨ (m.waiters ≠ [] ∧ ∀ w ∈ m.waiters, ¬ m.Asleep w) ∨
        ∃ w ∈ m.waiters, m.Unseen w) := by
  rw [condSignal, meets_get, meets_bind]
  refine meets_assert (fun hheld => ?_) (fun hn => .inl hn)
  rw [meets_get]
  by_cases hws : m.waiters = []
  · rw [if_neg (not_not.mpr hws)]
    exact ⟨hheld, .inl ⟨hws, rfl⟩⟩
  rw [if_pos hws]
  refine (findNext_meets h m.waiters (fun _ hw => hw) (-1) none).bind (fun next m₁ hm₁ => ?_)
    (fun _ hun => .inr (.inr hun))
  obtain ⟨rfl, hnext⟩ := hm₁
  obtain ⟨-, hall, hcase⟩ := Kernel.foldl_best m₁.rank m₁.waiters (-1, none)
  rcases hcase with hlast | ⟨us, w, vs, hsplit, -, hlast, hlt⟩
  · -- nobody ranks above `-1`
    rw [hlast] at hnext hall
    rw [hnext]
    by_cases hun : ∃ w ∈ m₁.waiters, m₁.Unseen w
    · exact .inr (.inr hun)
    · refine .inr (.inl ⟨hws, fun w hw ha => hun ⟨w, hw, ha, ?_⟩⟩)
      have hle := hall w hw
      rw [rank, if_pos ha] at hle
      exact hle
  · rw [hlast] at hnext hall hlt
    have hw : w ∈ m₁.waiters := by simp [hsplit]
    have ha : m₁.Asleep w := by
      by_contra hn
      have hlt : (-1 : Int) < m₁.rank w := hlt
      rw [rank, if_neg hn] at hlt
      exact lt_irrefl _ hlt
    have hpri : -1 < (m₁.semas.priority w).bmod 256 := by
      have hlt : (-1 : Int) < m₁.rank w := hlt
      rw [rank, if_pos ha] at hlt
      exact hlt
    have hsema : m₁.semas.sema w = ⟨0, [w]⟩ := by
      rcases h.of_mem hw with ⟨-, hs⟩ | ⟨hout, -⟩
      · exact hs
      · rw [Asleep, hout] at ha
        cases ha
    rw [hnext, meets_put, onSemas, meets_zoom]
    rw [meets_ok (semaUp_asleep ha hsema hpri)]
    exact ⟨hheld, .inr ⟨w, hw, ha, hall, rfl⟩⟩

/-! ### Every operation keeps the invariant -/

section

omit [DecidableEq ι]

theorem Stands.frame {u : ι} {p : CondStage} (h : m.Stands u p)
    (hplace : m'.semas.place u = m.semas.place u) (hsema : m'.semas.sema u = m.semas.sema u)
    (hmem : u ∈ m'.waiters ↔ u ∈ m.waiters)
    (hholder : p = .listed → m.holder = some u → m'.holder = some u) : m'.Stands u p := by
  cases p with
  | outside | reacquiring =>
    rw [Stands, hplace, hmem]
    exact h
  | listed =>
    rw [Stands, hplace, hmem, hsema]
    exact ⟨h.1, h.2.1, h.2.2.1, hholder rfl h.2.2.2⟩
  | released =>
    rw [Stands, hplace, hmem, hsema]
    exact h
  | waiting =>
    rw [Stands, Asleep, hplace, hmem, hsema]
    exact h

/-- An operation that changes one thread, its semaphore, its place on the list, and the lock. -/
theorem Sound.of_turn (h : Sound m) (t : ι) (hnodup : m'.waiters.Nodup)
    (hself : m'.Stands t (m'.stage t)) (hstage : ∀ u, u ≠ t → m'.stage u = m.stage u)
    (hplace : ∀ u, u ≠ t → m'.semas.place u = m.semas.place u)
    (hsema : ∀ u, u ≠ t → m'.semas.sema u = m.semas.sema u)
    (hmem : ∀ u, u ≠ t → (u ∈ m'.waiters ↔ u ∈ m.waiters))
    (hholder : ∀ u, u ≠ t → m.holder = some u → m'.holder = some u) : Sound m' := by
  refine ⟨hnodup, fun u => ?_⟩
  by_cases hu : u = t
  · rw [hu]
    exact hself
  · rw [hstage u hu]
    exact (h.stands u).frame (hplace u hu) (hsema u hu) (hmem u hu) (fun _ => hholder u hu)

end

theorem setStage_stage (p : CondStage) (u : ι) :
    (setStage t p m).stage u = if u = t then p else m.stage u :=
  update_apply ..

/-- A thread that is at one stage goes on to another. -/
theorem Sound.of_setStage (h : Sound m) (t : ι) (p : CondStage) {m₁ : Monitor ι}
    (hnodup : m₁.waiters.Nodup) (hstage : m₁.stage = m.stage) (hself : m₁.Stands t p)
    (hplace : ∀ u, u ≠ t → m₁.semas.place u = m.semas.place u)
    (hsema : ∀ u, u ≠ t → m₁.semas.sema u = m.semas.sema u)
    (hmem : ∀ u, u ≠ t → (u ∈ m₁.waiters ↔ u ∈ m.waiters))
    (hholder : ∀ u, u ≠ t → m.holder = some u → m₁.holder = some u) : Sound (setStage t p m₁) := by
  refine h.of_turn t hnodup ?_ (fun u hu => ?_) hplace hsema hmem hholder
  · rw [setStage_stage, if_pos rfl]
    exact hself.frame rfl rfl Iff.rfl (fun _ => id)
  · rw [setStage_stage, if_neg hu, hstage]

omit [DecidableEq ι] in
theorem Sound.stage_of_asleep (h : Sound m) (ha : m.Asleep w) : m.stage w = .waiting := by
  cases hs : m.stage w with
  | waiting => rfl
  | outside | reacquiring | listed | released => cases (h.at_stage hs).1.symm.trans ha

theorem Sound.wake (h : Sound m) (ha : m.Asleep w) : Sound (m.wake w) := by
  refine h.of_turn w (h.nodup.erase w) ?_ (fun _ _ => rfl) (fun u hu => ?_) (fun u hu => ?_)
    (fun u hu => ?_) (fun _ _ => id)
  · show (m.wake w).Stands w (m.stage w)
    rw [h.stage_of_asleep ha]
    refine .inr ⟨?_, h.nodup.not_mem_erase, ?_⟩
    · exact update_self ..
    · exact update_self ..
  · exact update_of_ne hu ..
  · exact update_of_ne hu ..
  · exact mem_erase_of_ne hu

theorem Sound.condSignal (h : Sound m) (t : ι) : Ensures (condSignal t) m (fun _ m' => Sound m') := by
  refine (condSignal_meets h t).ensures.mono (fun _ m' ⟨_, hm'⟩ => ?_)
  rcases hm' with ⟨-, rfl⟩ | ⟨w, -, ha, -, rfl⟩
  · exact h
  · exact h.wake ha

/-- **One operation** keeps the list, the semaphores and the threads in step. -/
theorem step_sound {op : CondOp ι} (h : Sound m) (hstep : op.Steps m m') : Sound m' := by
  suffices hrun : Ensures op.code m (fun _ m' => Sound m') from hrun () m' hstep.run
  have hready := hstep.ready
  cases op with
  | acquire t =>
    refine ensures_zoom.mpr ((lockAcquire_ensures t m.holder).mono (fun _ o ho =>
      ⟨h.nodup, fun u => (h.stands u).frame rfl rfl Iff.rfl (fun _ hu => ?_)⟩))
    cases ho.1.symm.trans hu
  | release t =>
    -- a thread that has called `cond_wait` still has the lock, and this one has not
    refine ensures_zoom.mpr ((lockRelease_ensures t m.holder).mono (fun _ o ho =>
      ⟨h.nodup, fun u => (h.stands u).frame rfl rfl Iff.rfl (fun hl hu => ?_)⟩))
    cases ho.1.symm.trans hu
    cases hl.symm.trans hready
  | waitList t =>
    have hst : m.Stands t .outside := h.at_stage hready
    refine ensures_bind.mpr (ensures_read.mpr (ensures_bind.mpr (ensures_assert.mpr
      (fun hheld => ensures_bind.mpr (ensures_zoom.mpr (ensures_update.mpr (ensures_bind.mpr
        (ensures_update.mpr (ensures_update.mpr ?_)))))))))
    refine h.of_setStage t .listed ?_ rfl ⟨hst.1, ?_, ?_, hheld⟩ (fun _ _ => rfl) (fun u hu => ?_)
      (fun u hu => ?_) (fun _ _ => id)
    · exact nodup_append.mpr ⟨h.nodup, nodup_singleton t, fun a ha b hb hab =>
        hst.2 ((mem_singleton.mp hb ▸ hab) ▸ ha)⟩
    · exact mem_append_right _ (mem_singleton.mpr rfl)
    · exact update_self ..
    · exact update_of_ne hu ..
    · simp only [mem_append, mem_singleton, hu, or_false]
  | waitRelease t =>
    have hst : m.Stands t .listed := h.at_stage hready
    refine ensures_bind.mpr (ensures_zoom.mpr
      ((lockRelease_ensures t m.holder).mono (fun _ o ho => ensures_update.mpr ?_)))
    refine h.of_setStage t .released h.nodup rfl ⟨hst.1, hst.2.1, hst.2.2.1⟩ (fun _ _ => rfl)
      (fun _ _ => rfl) (fun _ _ => Iff.rfl) (fun u hu hu' => ?_)
    exact absurd (Option.some.inj (ho.1.symm.trans hu')).symm hu
  | waitDown t =>
    have hst : m.Stands t .released := h.at_stage hready
    refine ensures_bind.mpr (ensures_zoom.mpr
      ((semaDown_ensures t t m.semas).mono (fun _ s' hs' => ensures_update.mpr ?_)))
    -- the semaphore has just been made, so the thread sleeps
    rcases hs' with ⟨-, rfl⟩ | ⟨hv, -⟩
    · have hplace : (Semaphores.setPlace t (.asleep t) (Semaphores.setSema t
          (fun m => { m with waiters := m.waiters ++ [t] }) m.semas)).place t = .asleep t :=
        update_self ..
      rw [afterDown, if_neg (by simp [hplace])]
      refine h.of_setStage t .waiting h.nodup rfl (.inl ⟨hplace, hst.2.1, ?_⟩) (fun u hu => ?_)
        (fun u hu => ?_) (fun _ _ => Iff.rfl) (fun _ _ => id)
      · simp only [setPlace_sema, setSema_sema, if_true, hst.2.2, nil_append]
      · exact update_of_ne hu ..
      · exact update_of_ne hu ..
    · rw [hst.2.2] at hv
      exact absurd rfl hv
  | waitResume t =>
    have hwoken : m.semas.place t = .woken t := hready.2
    rcases h.at_stage hready.1 with ⟨ha, -⟩ | ⟨-, hnot, hsema⟩
    · rw [Asleep, hwoken] at ha
      cases ha
    refine ensures_bind.mpr (ensures_zoom.mpr ?_)
    rw [resume, ensures_get, hwoken]
    refine (semaDown_ensures t t m.semas).mono (fun _ s' hs' => ensures_update.mpr ?_)
    rcases hs' with ⟨hv, -⟩ | ⟨-, rfl⟩
    · rw [hsema] at hv
      cases hv
    · have hplace : (countDown t (setPlace t .outside (setSema t
          (fun m => { m with value := m.value - 1 }) m.semas))).place t = .outside :=
        update_self ..
      rw [afterDown, if_pos hplace]
      refine h.of_setStage t .reacquiring h.nodup rfl ⟨hplace, hnot⟩ (fun u hu => ?_)
        (fun u hu => ?_) (fun _ _ => Iff.rfl) (fun _ _ => id)
      · exact update_of_ne hu ..
      · exact update_of_ne hu ..
  | waitAcquire t =>
    have hst : m.Stands t .reacquiring := h.at_stage hready
    refine ensures_bind.mpr (ensures_zoom.mpr
      ((lockAcquire_ensures t m.holder).mono (fun _ o ho => ensures_update.mpr ?_)))
    refine h.of_setStage t .outside h.nodup rfl hst (fun _ _ => rfl) (fun _ _ => rfl)
      (fun _ _ => Iff.rfl) (fun u _ hu => by cases ho.1.symm.trans hu)
  | signal t => exact h.condSignal t
  | setPriority t p =>
    rw [CondOp.code, onSemas, ensures_zoom, ensures_update]
    refine ⟨h.nodup, fun u => ?_⟩
    exact (h.stands u).frame rfl rfl Iff.rfl (fun _ => id)

theorem sound_of_run (h : CondRun (.fresh p) m) : Sound m := by
  induction h with
  | refl => exact ⟨nodup_nil, fun _ => ⟨rfl, nofun⟩⟩
  | tail _ hstep ih =>
    obtain ⟨op, hstep⟩ := hstep
    exact step_sound ih hstep

/-! ### `cond_broadcast` -/

omit [DecidableEq ι] in
/-- Priorities in range are compared as they are. -/
theorem InRange.bmod (h : m.InRange) (hw : w ∈ m.waiters) :
    (m.semas.priority w).bmod 256 = m.semas.priority w := by
  have := h w hw
  exact Int.bmod_eq_of_le (by omega) (by omega)

omit [DecidableEq ι] in
theorem InRange.seen (h : m.InRange) (hw : w ∈ m.waiters) :
    -1 < (m.semas.priority w).bmod 256 := by
  have := h w hw
  rw [h.bmod hw]
  omega

@[simp] theorem wake_waiters : (m.wake w).waiters = m.waiters.erase w := rfl

theorem wake_place : (m.wake w).semas.place = Function.update m.semas.place w (.woken w) := rfl

theorem asleep_wake {u : ι} (hu : u ≠ w) : (m.wake w).Asleep u ↔ m.Asleep u := by
  rw [Asleep, wake_place, update_of_ne hu]
  rfl

/-- The thread has come to the `sema_down` of `cond_wait`, and has not got the lock again. -/
def Waited (m : Monitor ι) (t : ι) : Prop := m.stage t = .waiting ∨ m.stage t = .reacquiring

theorem Waited.setStage {m₁ : Monitor ι} (h : m.Waited w) (hstage : m₁.stage = m.stage)
    {q : CondStage} (hq : ¬ m.Waited t ∨ q = .waiting ∨ q = .reacquiring) :
    (setStage t q m₁).Waited w := by
  rw [Waited, setStage_stage, hstage]
  split_ifs with hw
  · exact hq.resolve_left (not_not.mpr (hw ▸ h))
  · exact h

/-- Nobody has come on the list, and who has gone to sleep has not got out of `cond_wait`. -/
def Onward (m m' : Monitor ι) : Prop :=
  m'.waiters <+ m.waiters ∧ ∀ w, m.Waited w → m'.Waited w

/-- **One operation** while `t` has the lock. -/
theorem held_step {op : CondOp ι} (hs : Sound m) (hheld : m.holder = some t)
    (hstep : op.Steps m m') (hstage : m'.stage t = .outside) : Onward m m' := by
  suffices hrun : Ensures op.code m (fun _ m' => m'.stage t = .outside → Onward m m') from
    hrun () m' hstep.run hstage
  have hready := hstep.ready
  cases op with
  | acquire u =>
    refine ensures_zoom.mpr ((lockAcquire_ensures u m.holder).mono (fun _ o ho => ?_))
    cases ho.1.symm.trans hheld
  | waitAcquire u =>
    refine ensures_bind.mpr (ensures_zoom.mpr
      ((lockAcquire_ensures u m.holder).mono (fun _ o ho => ?_)))
    cases ho.1.symm.trans hheld
  | release u => exact ensures_zoom.mpr (fun _ _ _ _ => ⟨.refl _, fun _ => id⟩)
  | waitList u =>
    refine ensures_bind.mpr (ensures_read.mpr (ensures_bind.mpr (ensures_assert.mpr
      (fun hheld' => ensures_bind.mpr (ensures_zoom.mpr (ensures_update.mpr (ensures_bind.mpr
        (ensures_update.mpr (ensures_update.mpr (fun hstage => ?_))))))))))
    -- only `t` could, and it does not call `cond_wait`
    cases hheld.symm.trans hheld'
    rw [setStage_stage, if_pos rfl] at hstage
    cases hstage
  | waitRelease u =>
    refine ensures_bind.mpr (ensures_zoom.mpr (fun _ _ _ => ensures_update.mpr (fun _ =>
      ⟨.refl _, fun w hw => hw.setStage rfl (.inl ?_)⟩)))
    rw [Waited, (hready : m.stage u = .listed)]
    decide
  | waitDown u | waitResume u =>
    refine ensures_bind.mpr (ensures_zoom.mpr (fun _ _ _ => ensures_update.mpr (fun _ =>
      ⟨.refl _, fun w hw => hw.setStage rfl (.inr ?_)⟩)))
    split_ifs
    · exact .inr rfl
    · exact .inl rfl
  | signal u =>
    refine (condSignal_meets hs u).ensures.mono (fun _ m' ⟨_, hm'⟩ _ => ?_)
    rcases hm' with ⟨-, rfl⟩ | ⟨w, -, -, -, rfl⟩
    · exact ⟨.refl _, fun _ => id⟩
    · exact ⟨erase_sublist, fun _ => id⟩
  | setPriority u p =>
    rw [CondOp.code, onSemas, ensures_zoom, ensures_update]
    exact fun _ => ⟨.refl _, fun _ => id⟩

/-- In the midst of a `cond_broadcast` by `t` that began in `m₀`. -/
structure Broadcasts (t : ι) (m₀ m : Monitor ι) : Prop where
  sound : Sound m
  holder : m.holder = some t
  fewer : m.waiters <+ m₀.waiters
  waited : ∀ w ∈ m₀.waiters, m.Waited w
  range : m.InRange

section

variable {m₀ : Monitor ι}

theorem Broadcasts.of_run (hs : Sound m₀) (hheld : m₀.holder = some t) (hrange : m₀.InRange)
    (hall : ∀ w ∈ m₀.waiters, m₀.Asleep w) (hrun : HeldRun t m₀ m) : Broadcasts t m₀ m := by
  induction hrun with
  | refl => exact ⟨hs, hheld, .refl _, fun w hw => .inl (hs.stage_of_asleep (hall w hw)), hrange⟩
  | tail _ hlast ih =>
    obtain ⟨⟨op, hstep⟩, hheld', hstage, hrange'⟩ := hlast
    obtain ⟨hfewer, hwaited⟩ := held_step ih.sound ih.holder hstep hstage
    exact ⟨step_sound ih.sound hstep, hheld', hfewer.trans ih.fewer,
      fun w hw => hwaited w (ih.waited w hw), hrange'⟩

variable (h : Broadcasts t m₀ m)
include h

omit [DecidableEq ι] in
/-- Those that were on the list are still asleep on it, or they have been woken up. -/
theorem Broadcasts.place (hw : w ∈ m₀.waiters) :
    (w ∈ m.waiters ∧ m.Asleep w) ∨
      (w ∉ m.waiters ∧ (m.semas.place w = .woken w ∨ m.stage w = .reacquiring)) := by
  rcases h.waited w hw with hstage | hstage
  · rcases h.sound.at_stage hstage with ⟨ha, hmem, -⟩ | ⟨hwoken, hn, -⟩
    · exact .inl ⟨hmem, ha⟩
    · exact .inr ⟨hn, .inl hwoken⟩
  · exact .inr ⟨(h.sound.at_stage hstage).2, .inr hstage⟩

/-- A turn takes a thread off the list and wakes it, if there is one. -/
theorem Broadcasts.turn : Returns (condBroadcastTurn t) m (fun _ m' =>
    (m.waiters = [] ∧ m' = m) ∨ ∃ w ∈ m.waiters, m' = m.wake w) := by
  rw [condBroadcastTurn, returns_get]
  split_ifs with hws
  · have hasleep : ∀ w ∈ m.waiters, m.Asleep w :=
      fun w hw => ((h.place (h.fewer.subset hw)).resolve_right (fun hn => hn.1 hw)).2
    refine ((condSignal_meets h.sound t).returns (fun _ hstop => ?_)).mono (fun _ m' ⟨_, hm'⟩ => ?_)
    · rcases hstop with hn | ⟨-, hnone⟩ | ⟨u, hu, hun⟩
      · exact hn h.holder
      · obtain ⟨w, hw⟩ := exists_mem_of_ne_nil _ hws
        exact hnone w hw (hasleep w hw)
      · exact absurd (h.range.seen hu) (not_lt.mpr hun.2)
    · rcases hm' with ⟨hnil, -⟩ | ⟨w, hw, -, -, rfl⟩
      · exact absurd hnil hws
      · exact .inr ⟨w, hw, rfl⟩
  · exact returns_pure.mpr (.inl ⟨not_not.mp hws, rfl⟩)

end

/-- If no turn of a broadcast fails, even if nobody interrupts it, everybody on the list sleeps. -/
theorem asleep_of_turns (hs : Sound m) (hheld : m.holder = some t) (hstage : m.stage t = .outside)
    (hrange : m.InRange) (hturns : ∀ m₁, HeldRun t m m₁ →
      ∃ m₂, (condBroadcastTurn t).run m₁ = .ok ((), m₂)) : ∀ w ∈ m.waiters, m.Asleep w := by
  generalize hlen : m.waiters.length = n
  induction n generalizing m with
  | zero =>
    rw [length_eq_zero_iff.mp hlen]
    exact nofun
  | succ n ih =>
    have hws : m.waiters ≠ [] := ne_nil_of_length_eq_add_one hlen
    obtain ⟨m₁, hm₁⟩ := hturns m .refl
    rw [condBroadcastTurn, read_bind, if_pos hws] at hm₁
    obtain ⟨-, ⟨hnil, -⟩ | ⟨u, hu, ha, -, rfl⟩⟩ := (condSignal_meets hs t).ensures _ _ hm₁
    · exact absurd hnil hws
    have hrange' : (m.wake u).InRange := fun v hv => hrange v (mem_of_mem_erase hv)
    have hlen' : (m.wake u).waiters.length = n := by
      rw [wake_waiters, length_erase_of_mem hu, hlen]
      rfl
    have hrest := ih (hs.wake ha) hheld hstage hrange' (fun m₂ hm₂ =>
      hturns m₂ (.head ⟨⟨.signal t, hstage, hm₁⟩, hheld, hstage, hrange'⟩ hm₂)) hlen'
    intro w hw
    by_cases hwu : w = u
    · exact hwu ▸ ha
    · exact (asleep_wake hwu).mp (hrest w ((mem_erase_of_ne hwu).mpr hw))

end Monitor

/-- **Condition variables.** After any run, in the hands of a thread that holds the lock:
    `cond_signal` returns, having woken exactly one thread of the list, with the highest priority
    of all on the list, if there are any, exactly if the list is empty or a thread with the highest
    priority on it is asleep; and if and only if all of them are asleep, every turn of a
    `cond_broadcast`, whatever other threads do in between, takes a thread off the list and wakes
    it, and when there are no more, all have been woken. -/
theorem condition_signals {p : ι → Int} {m : Monitor ι} (hrun : CondRun (.fresh p) m) {t : ι}
    (hheld : m.holder = some t) (hrange : m.InRange) :
    ((∃ m', (condSignal t).run m = .ok ((), m') ∧ ((m.waiters = [] ∧ m' = m) ∨
        ∃ w ∈ m.waiters, (∀ u ∈ m.waiters, m.semas.priority u ≤ m.semas.priority w) ∧
          m.semas.place w = .asleep w ∧ m'.waiters = m.waiters.erase w ∧
          m'.semas.place = Function.update m.semas.place w (.woken w))) ↔
      m.waiters = [] ∨ ∃ w ∈ m.waiters, m.semas.place w = .asleep w ∧
        ∀ u ∈ m.waiters, m.semas.priority u ≤ m.semas.priority w) ∧
    (m.stage t = .outside → ((∀ m₁, HeldRun t m m₁ → m₁.waiters <+ m.waiters ∧
        ∃ m₂, (condBroadcastTurn t).run m₁ = .ok ((), m₂) ∧
          ((m₁.waiters = [] ∧ m₂ = m₁ ∧ ∀ w ∈ m.waiters,
              m₁.semas.place w = .woken w ∨ m₁.stage w = .reacquiring) ∨
            ∃ w ∈ m₁.waiters, m₂.waiters = m₁.waiters.erase w ∧
              m₂.semas.place = Function.update m₁.semas.place w (.woken w))) ↔
      ∀ w ∈ m.waiters, m.semas.place w = .asleep w)) := by
  have hs : m.Sound := sound_of_run hrun
  constructor
  · constructor
    · rintro ⟨m', -, ⟨hnil, -⟩ | ⟨w, hw, hmax, ha, -⟩⟩
      · exact .inl hnil
      · exact .inr ⟨w, hw, ha, hmax⟩
    · intro hcond
      have hreturns := (condSignal_meets hs t).returns (fun _ hstop => ?_)
      · obtain ⟨⟨⟩, m', hm', -, hcase⟩ := hreturns
        refine ⟨m', hm', ?_⟩
        rcases hcase with ⟨hnil, rfl⟩ | ⟨w, hw, ha, hmax, rfl⟩
        · exact .inl ⟨hnil, rfl⟩
        · refine .inr ⟨w, hw, fun u hu => ?_, ha, rfl, rfl⟩
          -- the best of the sleeping threads is the best of all
          obtain ⟨v, hv, hva, hvmax⟩ := hcond.resolve_left (ne_nil_of_mem hw)
          have hva : m.Asleep v := hva
          have hle := hmax v hv
          rw [rank, if_pos hva, rank, if_pos ha, hrange.bmod hv, hrange.bmod hw] at hle
          exact (hvmax u hu).trans hle
      · rcases hstop with hn | ⟨hne, hnone⟩ | ⟨w, hw, hun⟩
        · exact hn hheld
        · obtain ⟨w, hw, ha, -⟩ := hcond.resolve_left hne
          exact hnone w hw ha
        · exact absurd (hrange.seen hw) (not_lt.mpr hun.2)
  · intro hstage
    constructor
    · intro hturns
      refine asleep_of_turns hs hheld hstage hrange (fun m₁ hm₁ => ?_)
      obtain ⟨-, m₂, hm₂, -⟩ := hturns m₁ hm₁
      exact ⟨m₂, hm₂⟩
    · intro hall m₁ hm₁
      have hmidst : Broadcasts t m m₁ := .of_run hs hheld hrange hall hm₁
      obtain ⟨⟨⟩, m₂, hm₂, hcase⟩ := hmidst.turn
      refine ⟨hmidst.fewer, m₂, hm₂, ?_⟩
      rcases hcase with ⟨hnil, rfl⟩ | ⟨w, hw, rfl⟩
      · refine .inl ⟨hnil, rfl, fun w hw => ?_⟩
        exact ((hmidst.place hw).resolve_left (fun hmem => by cases hnil ▸ hmem.1)).2
      · exact .inr ⟨w, hw, rfl, rfl⟩

/-! ### Two threads -/

theorem CondRun.tail_op {m₀ m : Monitor ι} (h : CondRun m₀ m) (op : CondOp ι) (hready : op.Ready m)
    (hok : outcome op.code m = .ok ()) : CondRun m₀ (final op.code m) :=
  h.tail ⟨op, hready, run_of_outcome hok⟩

/-- Thread `0` has called `cond_wait` and has been preempted after its `lock_release`; thread `1`
    has the lock. -/
def condEarly : Monitor (Fin 2) :=
  final (CondOp.acquire 1).code (final (CondOp.waitRelease 0).code (final (CondOp.waitList 0).code
    (final (CondOp.acquire 0).code (.fresh (fun _ => 31)))))

/-- Thread `0` has gone to sleep. -/
def condLate : Monitor (Fin 2) := final (CondOp.waitDown 0).code condEarly

theorem condEarly_run : CondRun (.fresh (fun _ => 31)) condEarly := by
  have h₀ : CondRun (fresh (fun _ : Fin 2 => 31)) (.fresh (fun _ => 31)) := .refl
  have h₁ := h₀.tail_op (.acquire 0) rfl (by decide +kernel)
  have h₂ := h₁.tail_op (.waitList 0) rfl (by decide +kernel)
  have h₃ := h₂.tail_op (.waitRelease 0) rfl (by decide +kernel)
  exact h₃.tail_op (.acquire 1) rfl (by decide +kernel)

theorem condition_signals_asleep :
    CondRun (.fresh (fun _ => 31)) condLate ∧ condLate.waiters = [0] ∧
      ∃ m', (condSignal 1).run condLate = .ok ((), m') := by
  have hrun : CondRun (.fresh (fun _ => 31)) condLate :=
    condEarly_run.tail_op (.waitDown 0) rfl (by decide +kernel)
  have hrange : condLate.InRange := by
    unfold InRange
    decide +kernel
  have hmain := (condition_signals hrun (t := 1) (by decide +kernel) hrange).1.mpr
    (.inr ⟨0, by decide +kernel, by decide +kernel, by decide +kernel⟩)
  obtain ⟨m', hm', -⟩ := hmain
  exact ⟨hrun, by decide +kernel, m', hm'⟩

/-- The only thread on the list is not asleep yet: the assertion of `cond_signal` fails, called by
    itself or by `cond_broadcast`. -/
theorem condition_signal_fails :
    CondRun (.fresh (fun _ => 31)) condEarly ∧ condEarly.holder = some 1 ∧
      condEarly.waiters = [0] ∧
      outcome (CondOp.signal 1).code condEarly = .error (.panic "next != NULL") ∧
      outcome (condBroadcastTurn 1) condEarly = .error (.panic "next != NULL") :=
  ⟨condEarly_run, by decide +kernel, by decide +kernel, by decide +kernel, by decide +kernel⟩

end KernelSanders
