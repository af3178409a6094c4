import KernelSanders.Userprog.ProcessTable

namespace KernelSanders

open Lib Lib.Exec

/-!
# `userprog/process.c` — the parts of exec, wait and exit

`process_execute`, `start_process`, `process_wait` and `process_exit` in the parts that no other
process can come between: the regions with interrupts off, and the statements between them.  How the
parts follow each other, and what can happen between them, is said by the systems that use them.

The threads are `ι`, and `σ` is what a system knows of a thread: where it is, and whether it is
blocked.  `wake` is what `thread_unblock` makes of that, and `none` if the thread is not blocked.
-/

/-- The process table and the threads. -/
structure Procs (ι σ : Type) where
  table : Table ι
  stage : ι → σ

/-- What a call has come to: the thread is blocked inside of it, or it has returned. -/
inductive Call (α : Type) where
  | blocks
  | returns (a : α)
  deriving DecidableEq

namespace Procs

variable {ι σ : Type}

def slot (k : Procs ι σ) (p : Pid) : Process ι := k.table.slot p

def onTable {α : Type} (x : Exec (Table ι) α) : Exec (Procs ι σ) α :=
  zoom Procs.table (fun t k => { k with table := t }) x

theorem ensures_onTable {α : Type} {x : Exec (Table ι) α} {k : Procs ι σ}
    {Q : α → Procs ι σ → Prop} :
    Ensures (onTable x) k Q ↔ Ensures x k.table (fun a t => Q a { k with table := t }) :=
  ensures_zoom

/-- Change a slot. -/
def setSlot (p : Pid) (f : Process ι → Process ι) (k : Procs ι σ) : Procs ι σ :=
  { k with table := Table.setSlot p f k.table }

theorem slot_setSlot (p : Pid) (f : Process ι → Process ι) (k : Procs ι σ) (c : Pid) :
    (setSlot p f k).slot c = if c = p then f (k.slot p) else k.slot c :=
  Table.setSlot_slot p f k.table c

@[simp] theorem stage_setSlot (p : Pid) (f : Process ι → Process ι) (k : Procs ι σ) :
    (setSlot p f k).stage = k.stage := rfl

section Threads

variable [DecidableEq ι]

def setStage (t : ι) (st : σ) (k : Procs ι σ) : Procs ι σ :=
  { k with stage := Function.update k.stage t st }

theorem stage_setStage (t : ι) (st : σ) (k : Procs ι σ) (u : ι) :
    (setStage t st k).stage u = if u = t then st else k.stage u :=
  Function.update_apply ..

/-- `thread_unblock`. -/
def threadUnblock (wake : σ → Option σ) : Option ι → Exec (Procs ι σ) Unit
  | none => stop (.panic "is_thread(t)")
  | some t => do
    let st ← read (fun k => k.stage t)
    match wake st with
    | some st' => update (setStage t st')
    | none => stop (.panic "t->status == THREAD_BLOCKED")

/-- A process wakes up its parent if that is blocked on it. -/
def wakeParent (wake : σ → Option σ) (p : Pid) : Exec (Procs ι σ) Unit := do
  let blocked ← read (fun k => (k.slot p).blocked)
  if blocked then do
    update (setSlot p (fun s => { s with blocked := false }))
    let parent ← read (fun k => (k.slot p).parentPid)
    match parent with
    -- `process_table[-1]`
    | none => stop .fault
    | some q => do
      let t ← read (fun k => (k.slot q).threadPtr)
      threadUnblock wake t
  else pure ()

/-! ### `process_execute` by the thread `t` of the process `p` -/

/-- The parent's working directory, as it is then, becomes the child's. -/
def inheritDir (p c : Pid) : Exec (Procs ι σ) Unit :=
  update (fun k => setSlot c (fun s => { s with workingDir := (k.slot p).workingDir }) k)

/-- Wait till the child finishes loading: `t` is `asleep` in the region then. -/
def awaitLoad (t : ι) (c : Pid) (asleep : σ) : Exec (Procs ι σ) Bool := do
  let loaded ← read (fun k => (k.slot c).loaded)
  if loaded then pure false
  else do
    update (setSlot c (fun s => { s with blocked := true }))
    update (setStage t asleep)
    pure true

/-- The child becomes a child, if it has been loaded. -/
def adopt (p c : Pid) : Exec (Procs ι σ) (Option Pid) := do
  let loaded ← read (fun k => (k.slot c).loaded)
  assert (loaded = true) "process_table[pid].loaded"
  let success ← read (fun k => (k.slot c).loadSuccess)
  if success then do
    onTable (Table.onLinks (Links.pushBack (children p) c))
    pure (some c)
  else pure none

/-! ### `start_process` -/

/-- The region after the load. -/
def recordLoad (wake : σ → Option σ) (c : Pid) (success : Bool) : Exec (Procs ι σ) Unit := do
  update (setSlot c (fun s => { s with loadSuccess := success }))
  update (setSlot c (fun s => { s with loaded := true }))
  wakeParent wake c

/-! ### `process_wait` by the thread `t` of the process `p` -/

/-- The slot that `process_wait` is for, if its number and what is in it is right. -/
def childOf (k : Procs ι σ) (p : Pid) (childId : Int) : Option Pid :=
  if h : childId < 0 ∨ childId > maxProcesses - 1 then none
  else
    let c : Pid := ⟨childId.toNat, by omega⟩
    if (k.slot c).valid = false ∨ (k.slot c).parentPid ≠ some p then none else some c

/-- Block until the child process exiting wakes it up: `t` is `asleep` in the region then. -/
def awaitExit (t : ι) (c : Pid) (asleep : σ) : Exec (Procs ι σ) Bool := do
  let running ← read (fun k => (k.slot c).running)
  if running then do
    update (setSlot c (fun s => { s with blocked := true }))
    update (setStage t asleep)
    pure true
  else pure false

/-- The child process must be done at this point. -/
def reap (c : Pid) : Exec (Procs ι σ) Int := do
  let running ← read (fun k => (k.slot c).running)
  assert (running = false) "!process_table[child_id].running"
  let ret ← read (fun k => (k.slot c).returnCode)
  onTable (Table.processTableFree c)
  pure ret

/-! ### `process_exit` -/

/-- The last region, up to the page directory. -/
def recordExit (wake : σ → Option σ) (p : Pid) : Exec (Procs ι σ) Unit := do
  wakeParent wake p
  update (setSlot p (fun s => { s with running := false }))

/-! ### What the parts do -/

variable {k : Procs ι σ} {wake : σ → Option σ} {p c : Pid}

/-- Nothing, or the parent was blocked and is not any more. -/
theorem wakeParent_ensures :
    Ensures (wakeParent wake p) k (fun _ k' =>
      ((k.slot p).blocked = false ∧ k' = k) ∨
      ∃ q t st, (k.slot p).blocked = true ∧ (k.slot p).parentPid = some q ∧
        (k.slot q).threadPtr = some t ∧ wake (k.stage t) = some st ∧
        k' = setStage t st (setSlot p (fun s => { s with blocked := false }) k)) := by
  rw [wakeParent, ensures_get]
  split_ifs with hblocked
  · simp only [ensures_bind, ensures_update, ensures_read]
    have hparent : ((setSlot p (fun s => { s with blocked := false }) k).slot p).parentPid
        = (k.slot p).parentPid := by
      rw [slot_setSlot, if_pos rfl]
    rw [hparent]
    cases hq : (k.slot p).parentPid with
    | none => exact ensures_stop
    | some q =>
      have hptr : ((setSlot p (fun s => { s with blocked := false }) k).slot q).threadPtr
          = (k.slot q).threadPtr := by
        rw [slot_setSlot]
        split_ifs with hqp
        · rw [hqp]
        · rfl
      simp only [ensures_bind, ensures_read, hptr]
      cases ht : (k.slot q).threadPtr with
      | none => exact ensures_stop
      | some t =>
        rw [threadUnblock, ensures_get]
        cases hst : wake (k.stage t) with
        | none =>
          show Ensures (match wake (k.stage t) with | some _ => _ | none => _) _ _
          rw [hst]
          exact ensures_stop
        | some st =>
          show Ensures (match wake (k.stage t) with | some _ => _ | none => _) _ _
          rw [hst]
          exact ensures_update.mpr (.inr ⟨q, t, st, hblocked, rfl, ht, hst, rfl⟩)
  · exact ensures_pure.mpr (.inl ⟨Bool.eq_false_iff.mpr hblocked, rfl⟩)

/-- The parent is known to be blocked. -/
theorem wakeParent_blocked {q : Pid} {t : ι} {s : σ} (hblocked : (k.slot p).blocked = true)
    (hparent : (k.slot p).parentPid = some q) (hptr : (k.slot q).threadPtr = some t)
    (hwake : wake (k.stage t) = some s) :
    Ensures (wakeParent wake p) k (fun _ k' =>
      k' = setStage t s (setSlot p (fun r => { r with blocked := false }) k)) := by
  refine wakeParent_ensures.mono (fun _ k' hk' => ?_)
  rcases hk' with ⟨hfalse, -⟩ | ⟨q', t', st', -, hparent', hptr', hwake', hk'⟩
  · rw [hblocked] at hfalse
    cases hfalse
  · cases hparent.symm.trans hparent'
    cases hptr.symm.trans hptr'
    cases hwake.symm.trans hwake'
    exact hk'

/-- Nobody is blocked on the process. -/
theorem recordExit_quiet (hblocked : (k.slot p).blocked = false) :
    (recordExit wake p).run k = .ok ((), setSlot p (fun s => { s with running := false }) k) := by
  have hwake : (wakeParent wake p).run k = .ok ((), k) := by
    rw [wakeParent, read_bind, hblocked]
    rfl
  rw [recordExit, bind_ok hwake]
  rfl

theorem awaitLoad_ensures (t : ι) (asleep : σ) :
    Ensures (awaitLoad t c asleep) k (fun r k' =>
      ((k.slot c).loaded = true ∧ r = false ∧ k' = k) ∨
      ((k.slot c).loaded = false ∧ r = true ∧
        k' = setStage t asleep (setSlot c (fun s => { s with blocked := true }) k))) := by
  rw [awaitLoad, ensures_get]
  split_ifs with hloaded
  · exact ensures_pure.mpr (.inl ⟨hloaded, rfl, rfl⟩)
  · rw [ensures_put, ensures_put, ensures_pure]
    exact .inr ⟨Bool.eq_false_iff.mpr hloaded, rfl, rfl⟩

theorem awaitExit_ensures (t : ι) (asleep : σ) :
    Ensures (awaitExit t c asleep) k (fun r k' =>
      ((k.slot c).running = false ∧ r = false ∧ k' = k) ∨
      ((k.slot c).running = true ∧ r = true ∧
        k' = setStage t asleep (setSlot c (fun s => { s with blocked := true }) k))) := by
  rw [awaitExit, ensures_get]
  split_ifs with hrunning
  · rw [ensures_put, ensures_put, ensures_pure]
    exact .inr ⟨hrunning, rfl, rfl⟩
  · exact ensures_pure.mpr (.inl ⟨Bool.eq_false_iff.mpr hrunning, rfl, rfl⟩)

omit [DecidableEq ι] in
/-- `process_wait` is for a slot in use whose parent is the caller. -/
theorem childOf_eq_some {childId : Int} (h : childOf k p childId = some c) :
    (k.slot c).valid = true ∧ (k.slot c).parentPid = some p := by
  rw [childOf] at h
  split at h
  · cases h
  dsimp only at h
  split_ifs at h with hslot
  obtain ⟨hvalid, hparent⟩ := not_or.mp hslot
  cases h
  exact ⟨by simpa using hvalid, not_not.mp hparent⟩

end Threads

end Procs

end KernelSanders
