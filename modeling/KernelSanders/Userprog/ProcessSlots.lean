import KernelSanders.Lib.Machine
import KernelSanders.Userprog.Process

namespace KernelSanders

open Lib
open Lib.Exec hiding update
open Function

/-!
# No process slot is lost

`process_execute`, `process_wait` and `process_exit` by any number of processes, each of them in one
step up to where it blocks.  A thread is known by its pid here: a process is gone at the end of its
`process_exit`.

What has to be kept is where each slot is (`Fine`): not in use and on `free_list`, or on the list of
children of a live parent, or of a dead one whose slot has not been given to another process yet, or
on none, while the parent is still inside `process_execute`.

`ProcessOp.InOrder` leaves out what breaks it: a load that fails, a process that exits before its
parent's `process_execute` has returned, and a process without a parent that exits when it is on no
list of children any more.
-/

/-- Where a process is.  In `process_execute` and `process_wait` it is blocked, or has been woken up,
    and it waits for the process in a slot. -/
inductive Stage where
  | absent
  /-- In `start_process`, before the end of `load`. -/
  | started
  /-- In `start_process`, after a load that failed. -/
  | failed
  | active
  | inExec (c : Pid) (woken : Bool)
  | inWait (c : Pid) (woken : Bool)
  deriving DecidableEq

def Stage.wake : Stage → Option Stage
  | inExec c false => some (inExec c true)
  | inWait c false => some (inWait c true)
  | _ => none

/-- The process table and the threads, each known by its pid. -/
abbrev Slots := Procs Pid Stage

namespace Slots

open Procs

/-- The end of `process_execute` by `p`, which has created `c`. -/
def finishExec (p c : Pid) : Exec Slots (Option Pid) := do
  let r ← adopt p c
  Exec.update (setStage p .active)
  pure r

/-- `thread_create_ptr` has made a thread for the slot `c`, which gets what `p` still has to put
    there. -/
def launch (p c : Pid) : Exec Slots Unit := do
  Exec.update (setStage c .started)
  Exec.update (setSlot c (fun s => { s with threadPtr := some c }))
  inheritDir p c

/-- `process_execute` by `p`, up to the wait for the load.  `copied` and `created` say whether there
    is memory for the copy of the file name and for the thread. -/
def processExecute (p : Pid) (copied created : Bool) : Exec Slots (Call (Option Pid)) :=
  if copied then do
    let pid ← onTable (Table.processTableGet (some p))
    match pid with
    | none => pure (.returns none)
    | some c =>
      if created then do
        launch p c
        let asleep ← awaitLoad p c (.inExec c false)
        if asleep then pure .blocks
        else do
          let r ← finishExec p c
          pure (.returns r)
      else do
        Exec.update (setSlot c (fun s => { s with threadPtr := none }))
        onTable (Table.processTableFree c)
        pure (.returns none)
  else pure (.returns none)

/-- `start_process` from the end of `load` on. -/
def startProcess (c : Pid) (success : Bool) : Exec Slots Unit := do
  Exec.update (setSlot c (fun s => { s with running := true }))
  recordLoad Stage.wake c success
  Exec.update (setStage c (if success then .active else .failed))

/-- The end of `process_wait` by `p` for `c`. -/
def finishWait (p c : Pid) : Exec Slots Int := do
  let ret ← reap c
  Exec.update (setStage p .active)
  pure ret

/-- `process_wait` by `p`, up to the wait for the exit. -/
def processWait (p : Pid) (childId : Int) : Exec Slots (Call Int) := do
  let child ← read (fun k => childOf k p childId)
  match child with
  | none => pure (.returns (-1))
  | some c => do
    let asleep ← awaitExit p c (.inWait c false)
    if asleep then pure .blocks
    else do
      let ret ← finishWait p c
      pure (.returns ret)

/-- `process_exit` by `p`, and the end of its thread. -/
def processExit (p : Pid) (code : Int) : Exec Slots Unit := do
  Exec.update (setSlot p (fun s => { s with returnCode := code }))
  onTable (Table.informChildren p)
  onTable (Table.freeOrphan p)
  recordExit Stage.wake p
  Exec.update (setStage p .absent)

end Slots

/-- What the processes do. -/
inductive ProcessOp where
  | exec (p : Pid) (copied created : Bool)
  | load (c : Pid) (success : Bool)
  | execDone (p : Pid)
  | wait (p : Pid) (childId : Int)
  | waitDone (p : Pid)
  | exit (p : Pid) (code : Int)

namespace ProcessOp

open Slots

/-- What an operation runs, without what it returns. -/
def code : ProcessOp → Exec Slots Unit
  | exec p copied created => do
    let _ ← processExecute p copied created
    pure ()
  | load c success => startProcess c success
  | execDone p => do
    let stage ← read (fun k => k.stage p)
    match stage with
    | .inExec c true => do
      let _ ← finishExec p c
      pure ()
    | _ => stop .fault
  | wait p childId => do
    let _ ← processWait p childId
    pure ()
  | waitDone p => do
    let stage ← read (fun k => k.stage p)
    match stage with
    | .inWait c true => do
      let _ ← finishWait p c
      pure ()
    | _ => stop .fault
  | exit p code => processExit p code

/-- The process can do that.  After a load that failed it exits with `-1`. -/
def ready (k : Slots) : ProcessOp → Bool
  | exec p _ _ | wait p _ => k.stage p = .active
  | load c _ => k.stage c = .started
  | execDone p =>
    match k.stage p with
    | .inExec _ true => true
    | _ => false
  | waitDone p =>
    match k.stage p with
    | .inWait _ true => true
    | _ => false
  | exit p code => k.stage p = .active ∨ k.stage p = .failed ∧ code = -1

/-- Loads succeed.  A process exits after its parent's `process_execute` has returned, and if it has
    no parent, while it is on some list of children. -/
def InOrder (k : Slots) : ProcessOp → Prop
  | load _ success => success = true
  | exit p _ => (∀ q b, k.stage q ≠ .inExec p b) ∧
      ((k.slot p).parentPid = none →
        ∃ q xs, k.table.links.Holds (children q) xs ∧ p ∈ xs)
  | _ => True

end ProcessOp

/-- The processes, whose operations take place in any order. -/
def processes : Machine Slots ProcessOp where
  ready := ProcessOp.ready
  code := ProcessOp.code

/-- After `process_init` by the initial thread. -/
structure Slots.Boot (k : Slots) : Prop where
  table : (Table.processInit initPid).run Table.zeroed = .ok ((), k.table)
  stage : ∀ p, k.stage p = if p = initPid then .active else .absent

variable {k : Slots}

namespace Slots

open Procs

/-- Each slot is not in use and on `free_list`, once, or in use and not on it.  One that is in use
    belongs to a process that has not exited, or to one that has and is on the list of children of
    its parent, which has not. -/
structure Accounted (k : Slots) : Prop where
  free : ∃ xs, k.table.links.Holds freeList xs ∧ xs.Nodup ∧
    ∀ p, (k.slot p).valid = false ↔ p ∈ xs
  inUse : ∀ p, (k.slot p).valid = true → k.stage p ≠ .absent ∨
    ∃ q xs, (k.slot p).parentPid = some q ∧ k.stage q ≠ .absent ∧
      k.table.links.Holds (children q) xs ∧ p ∈ xs

section Invariant

variable (slot : Pid → Process Pid) (stage : Pid → Stage) (house : Pid → Option ProcessList)

/-- Who is on whose list of children.  The list of a process that has exited stays as it was until
    its slot is used again, and all on it run and have no parent. -/
structure Kin : Prop where
  exited : ∀ p, (slot p).valid = true → stage p = .absent →
    ∃ q, (slot p).parentPid = some q ∧ stage q ≠ .absent ∧ house p = some (children q)
  child : ∀ p q, house p = some (children q) → stage q ≠ .absent → (slot p).parentPid = some q
  orphan : ∀ p q, house p = some (children q) → stage q = .absent →
    stage p ≠ .absent ∧ (slot p).parentPid = none
  running : ∀ p q, house p = some (children q) → ((slot p).running = true ↔ stage p ≠ .absent)
  parent : ∀ p q, stage p ≠ .absent → (slot p).parentPid = some q →
    stage q ≠ .absent ∧ (house p = some (children q) ∨ ∃ b, stage q = .inExec p b)

/-- Who waits for whom.  A process is `blocked` on as long as its parent waits for it and has not
    been woken up. -/
structure Waits : Prop where
  exec : ∀ q c b, stage q = .inExec c b →
    stage c ≠ .absent ∧ house c = none ∧ (slot c).parentPid = some q
  execBlocked : ∀ q c, stage q = .inExec c false → stage c = .started ∧ (slot c).blocked = true
  execWoken : ∀ q c, stage q = .inExec c true → stage c ≠ .started ∧ (slot c).blocked = false ∧
    (slot c).running = true ∧ (slot c).loadSuccess = true
  wait : ∀ q c b, stage q = .inWait c b →
    (slot c).parentPid = some q ∧ house c = some (children q)
  waitBlocked : ∀ q c, stage q = .inWait c false → stage c ≠ .absent ∧ (slot c).blocked = true
  waitWoken : ∀ q c, stage q = .inWait c true → stage c = .absent
  blocked : ∀ p, stage p ≠ .absent → (slot p).blocked = true →
    ∃ q, (slot p).parentPid = some q ∧ (stage q = .inExec p false ∨ stage q = .inWait p false)
  started : ∀ c, stage c = .started → (slot c).blocked = true ∧ house c = none

/-- The slots are where they have to be; `live` are the lists that have been made. -/
structure Fine (live : ProcessList → Prop) : Prop where
  made : ∀ p, stage p ≠ .absent → live (children p)
  listed : ∀ p q, house p = some q → live q
  inUse : ∀ p, stage p ≠ .absent → (slot p).valid = true
  thread : ∀ p, stage p ≠ .absent → (slot p).threadPtr = some p
  notSelf : ∀ p, stage p ≠ .absent → (slot p).parentPid ≠ some p
  notFailed : ∀ p, stage p ≠ .failed
  kin : Kin slot stage house
  waits : Waits slot stage house

end Invariant

/-- The lists are kept, and the slots are where they have to be. -/
def Sound (k : Slots) : Prop :=
  ∃ live queue house, k.table.Kept live queue house ∧ Fine k.table.slot k.stage house live

theorem Sound.accounted (h : Sound k) : Accounted k := by
  obtain ⟨live, queue, house, hkept, hfine⟩ := h
  have hmem : ∀ q p, p ∈ queue q ↔ house p = some q := fun q p => hkept.housed.mem q p
  constructor
  · refine ⟨queue freeList, hkept.represents.holds _ hkept.free, hkept.housed.nodup _, fun p => ?_⟩
    rw [hmem]
    exact hkept.valid p
  · intro p hp
    by_cases hstage : k.stage p = .absent
    · obtain ⟨q, hparent, hlive, hhouse⟩ := hfine.kin.exited p hp hstage
      refine .inr ⟨q, queue (children q), hparent, hlive, ?_, (hmem _ p).mpr hhouse⟩
      exact hkept.represents.holds _ (hfine.listed p _ hhouse)
    · exact .inl hstage

/-! ### What a step does to the slots -/

section Steps

variable {slot : Pid → Process Pid} {stage : Pid → Stage} {house : Pid → Option ProcessList}
  {live : ProcessList → Prop} {p q c : Pid} {s : Process Pid}

/-- The slot `c` is taken off `free_list`, and its list of children is emptied. -/
def taken (house : Pid → Option ProcessList) (c : Pid) (d : Pid) : Option ProcessList :=
  if d = c ∨ house d = some (children c) then none else house d

/-- What `process_exit` by `p` does.  A process without a parent frees its slot. -/
structure Exits (p : Pid) (slot slot' : Pid → Process Pid) (stage stage' : Pid → Stage)
    (house house' : Pid → Option ProcessList) : Prop where
  parentPid : ∀ d, (slot' d).parentPid =
    if house d = some (children p) then none else (slot d).parentPid
  running : ∀ d, (slot' d).running = if d = p then false else (slot d).running
  blocked : ∀ d, (slot' d).blocked = if d = p then false else (slot d).blocked
  valid : ∀ d, (slot' d).valid =
    if d = p ∧ (slot p).parentPid = none then false else (slot d).valid
  threadPtr : ∀ d, (slot' d).threadPtr = (slot d).threadPtr
  loadSuccess : ∀ d, (slot' d).loadSuccess = (slot d).loadSuccess
  stage : ∀ d, stage' d =
    if d = p then .absent else if stage d = .inWait p false then .inWait p true else stage d
  house : ∀ d, house' d =
    if d = p ∧ (slot p).parentPid = none then some freeList else house d

variable {slot' : Pid → Process Pid} {stage' : Pid → Stage} {house' : Pid → Option ProcessList}

theorem Exits.of_slot {code : Int} (hself : house p ≠ some (children p))
    (hslot : ∀ d, slot' d = if d = p then
      { slot p with
        returnCode := code, blocked := false, running := false
        valid := if (slot p).parentPid = none then false else (slot p).valid }
      else if house d = some (children p) then { slot d with parentPid := none } else slot d)
    (hstage : ∀ d, stage' d = if d = p then .absent
      else if stage d = .inWait p false then .inWait p true else stage d)
    (hhouse : ∀ d, house' d = if d = p ∧ (slot p).parentPid = none then some freeList
      else house d) :
    Exits p slot slot' stage stage' house house' := by
  constructor
  case stage => exact hstage
  case house => exact hhouse
  all_goals
    intro d
    rw [hslot]
    by_cases hd : d = p
    · simp [hd, hself]
    · by_cases hchild : house d = some (children p) <;> simp [hd, hchild]

theorem Kin.exit (h : Kin slot stage house) (he : Exits p slot slot' stage stage' house house')
    (hp : stage p = .active) (hself : (slot p).parentPid ≠ some p)
    (hrun : ∀ d, house d = some (children p) → (slot d).running = true)
    (hexec : ∀ q b, stage q ≠ .inExec p b) : Kin slot' stage' house' := by
  have := he.parentPid
  have := he.running
  have := he.valid
  have := he.stage
  have := he.house
  obtain ⟨exited, child, orphan, running, parent⟩ := h
  constructor
  case exited =>
    intro d hvalid hstage
    by_cases hd : d = p
    · -- it has a parent, or its slot would be free
      cases hq : (slot p).parentPid with
      | none => grind
      | some q =>
        obtain ⟨hlive, hhouse⟩ := parent p q (by simp [hp]) hq
        exact ⟨q, by grind⟩
    · obtain ⟨q, hq, hlive, hhouse⟩ := exited d (by grind) (by grind)
      exact ⟨q, by grind⟩
  all_goals grind

theorem Waits.exit (h : Waits slot stage house)
    (he : Exits p slot slot' stage stage' house house') (hp : stage p = .active)
    (hexec : ∀ q b, stage q ≠ .inExec p b) : Waits slot' stage' house' := by
  have := he.parentPid
  have := he.running
  have := he.blocked
  have := he.loadSuccess
  have := he.stage
  have := he.house
  obtain ⟨exec, execBlocked, execWoken, wait, waitBlocked, waitWoken, blocked, started⟩ := h
  constructor <;> grind

/-! The whole invariant, for the states that the calls go through. -/

section

variable (h : Fine slot stage house live)
include h

theorem Fine.absent (hvalid : (slot c).valid = false) : stage c = .absent := by
  by_contra hc
  have hinUse := h.inUse c hc
  rw [hvalid] at hinUse
  cases hinUse

theorem Fine.create (hp : stage p = .active)
    (hfree : house c = some freeList) (hvalid : (slot c).valid = false)
    (hs : s.valid = true ∧ s.parentPid = some p ∧ s.threadPtr = some c ∧ s.blocked = true) :
    Fine (update slot c s)
      (update (update stage c .started) p (.inExec c false))
      (taken house c) (fun q => q = children c ∨ live q) := by
  have hc := h.absent hvalid
  have hpc : p ≠ c := by
    rintro rfl
    rw [hp] at hc
    cases hc
  obtain ⟨made, listed, inUse, thread, notSelf, notFailed, kin, waits⟩ := h
  constructor
  case kin => cases kin; constructor <;> grind [update_apply, taken]
  case waits => cases waits; constructor <;> grind [update_apply, taken]
  all_goals grind [update_apply, taken]

theorem Fine.refuse (hp : stage p = .active)
    (hfree : house c = some freeList) (hlive : live freeList) (hvalid : (slot c).valid = false)
    (hs : s.valid = false ∧ s.parentPid = some p) :
    Fine (update slot c s) stage (update (taken house c) c (some freeList))
      (fun q => q = children c ∨ live q) := by
  have hc := h.absent hvalid
  obtain ⟨made, listed, inUse, thread, notSelf, notFailed, kin, waits⟩ := h
  constructor
  case kin => cases kin; constructor <;> grind [update_apply, taken]
  case waits => cases waits; constructor <;> grind [update_apply, taken]
  all_goals grind [update_apply, taken]

theorem Fine.load (hq : stage q = .inExec c false)
    (hs : s = { slot c with
      running := true, loadSuccess := true, loaded := true, blocked := false }) :
    Fine (update slot c s)
      (update (update stage q (.inExec c true)) c .active) house live := by
  have hexec := h.waits.exec
  have hblocked := h.waits.execBlocked
  obtain ⟨made, listed, inUse, thread, notSelf, notFailed, kin, waits⟩ := h
  subst hs
  constructor
  case kin => cases kin; constructor <;> grind [update_apply]
  case waits => cases waits; constructor <;> grind [update_apply]
  all_goals grind [update_apply]

theorem Fine.adopt (hp : stage p = .inExec c true) :
    Fine slot (update stage p .active) (update house c (some (children p)))
      live := by
  have hexec := h.waits.exec
  have hwoken := h.waits.execWoken
  obtain ⟨made, listed, inUse, thread, notSelf, notFailed, kin, waits⟩ := h
  constructor
  case kin => cases kin; constructor <;> grind [update_apply]
  case waits => cases waits; constructor <;> grind [update_apply]
  all_goals grind [update_apply]

theorem Fine.await (hp : stage p = .active) (hvalid : (slot c).valid = true)
    (hparent : (slot c).parentPid = some p) (hrun : (slot c).running = true) :
    Fine (update slot c { slot c with blocked := true })
      (update stage p (.inWait c false)) house live := by
  have hc : stage c ≠ .absent := by
    intro hc
    obtain ⟨q, -, -, hhouse⟩ := h.kin.exited c hvalid hc
    exact (h.kin.running c q hhouse).mp hrun hc
  have hhouse : house c = some (children p) := by
    -- the parent is not inside `process_execute`
    rcases (h.kin.parent c p hc hparent).2 with hhouse | ⟨b, hb⟩
    · exact hhouse
    · rw [hp] at hb
      cases hb
  obtain ⟨made, listed, inUse, thread, notSelf, notFailed, kin, waits⟩ := h
  constructor
  case kin => cases kin; constructor <;> grind [update_apply]
  case waits => cases waits; constructor <;> grind [update_apply]
  all_goals grind [update_apply]

theorem Fine.reap (hp : stage p = .active ∨ stage p = .inWait c true) (hc : stage c = .absent)
    (hparent : (slot c).parentPid = some p) (hlive : live freeList) :
    Fine (update slot c { slot c with valid := false })
      (update stage p .active) (update house c (some freeList)) live := by
  obtain ⟨made, listed, inUse, thread, notSelf, notFailed, kin, waits⟩ := h
  constructor
  case kin => cases kin; constructor <;> grind [update_apply]
  case waits => cases waits; constructor <;> grind [update_apply]
  all_goals grind [update_apply]

theorem Fine.exit
    (he : Exits p slot slot' stage stage' house house') (hp : stage p = .active)
    (hrun : ∀ d, house d = some (children p) → (slot d).running = true)
    (hexec : ∀ q b, stage q ≠ .inExec p b) (hlive : live freeList) : Fine slot' stage' house' live := by
  have hself := h.notSelf p (by simp [hp])
  have := he.parentPid
  have := he.valid
  have := he.threadPtr
  have := he.stage
  have := he.house
  obtain ⟨made, listed, inUse, thread, notSelf, notFailed, kin, waits⟩ := h
  constructor
  case kin => exact kin.exit he hp hself hrun hexec
  case waits => exact waits.exit he hp hexec
  all_goals grind

end

end Steps

/-! ### The calls -/

variable {k' : Slots} {p c : Pid}

theorem finishExec_sound (h : Sound k) (hp : k.stage p = .inExec c true) :
    Ensures (finishExec p c) k (fun _ k' => Sound k') := by
  obtain ⟨live, queue, house, hkept, hfine⟩ := h
  have hsuccess : (k.slot c).loadSuccess = true := (hfine.waits.execWoken p c hp).2.2.2
  obtain ⟨-, hnone, -⟩ := hfine.waits.exec p c true hp
  have hmade : live (children p) := hfine.made p (by simp [hp])
  simp only [finishExec, adopt, ensures_bind, ensures_read, ensures_assert, hsuccess, if_true,
    ensures_onTable, ensures_pure, ensures_update]
  intro _
  refine (Table.pushChild_ensures hkept hmade hnone).mono (fun _ t ht => ?_)
  obtain ⟨hslot, queue', hkept'⟩ := ht
  refine ⟨live, queue', _, hkept', ?_⟩
  show Fine t.slot (update k.stage p .active) _ live
  rw [hslot]
  exact hfine.adopt hp

theorem launch_ensures :
    Ensures (launch p c) k (fun _ k' => k'.table.links = k.table.links ∧
      k'.stage = update k.stage c .started ∧
      ∃ dir, k'.table.slot = update k.table.slot c
        { k.slot c with threadPtr := some c, workingDir := dir }) := by
  simp only [launch, inheritDir, ensures_bind, ensures_update]
  have hslot : (Table.setSlot c (fun s => { s with threadPtr := some c }) k.table).slot
      = update k.table.slot c { k.slot c with threadPtr := some c } := rfl
  generalize hdir : ((setSlot c (fun s => { s with threadPtr := some c })
    (setStage c .started k)).slot p).workingDir = dir
  exact ⟨rfl, rfl, dir, Table.setSlot_of_update (fun s => { s with workingDir := dir }) hslot⟩

theorem processExecute_sound (h : Sound k) (hp : k.stage p = .active) (copied created : Bool) :
    Ensures (processExecute p copied created) k (fun _ k' => Sound k') := by
  cases copied with
  | false => exact ensures_pure.mpr h
  | true =>
    obtain ⟨live, queue, house, hkept, hfine⟩ := h
    simp only [processExecute, if_true]
    rw [ensures_bind, ensures_onTable]
    refine (Table.processTableGet_ensures hkept (some p)).mono (fun r t ht => ?_)
    rcases ht with ⟨rfl, rfl⟩ | ⟨c, rfl, hfree, hvalid, hslot, hnext, hprev, queue', hkept'⟩
    · exact ensures_pure.mpr ⟨live, queue, house, hkept, hfine⟩
    have hc : t.slot c = Table.fresh (some p) (k.slot c) := by
      rw [hslot, update_self]
      rfl
    cases created with
    | true =>
      simp only [if_true]
      refine launch_ensures.bind (fun _ k₁ hk₁ => ?_)
      obtain ⟨hlinks, hstage, dir, hslot₁⟩ := hk₁
      have hslot₂ : k₁.table.slot = update k.table.slot c
          { Table.fresh (some p) (k.slot c) with threadPtr := some c, workingDir := dir } := by
        rw [hslot₁]
        show update t.slot c { t.slot c with threadPtr := some c, workingDir := dir } = _
        rw [hc, hslot, update_idem]
      refine (awaitLoad_ensures p (Stage.inExec c false)).bind (fun r k₂ hk₂ => ?_)
      rcases hk₂ with ⟨hloaded, -, -⟩ | ⟨-, rfl, rfl⟩
      · -- the slot has just been handed out
        rw [slot, hslot₂, update_self] at hloaded
        cases hloaded
      · refine ensures_pure.mpr ⟨fun q => q = children c ∨ live q, queue', taken house c, ?_, ?_⟩
        · have hkept₁ : k₁.table.Kept (fun q => q = children c ∨ live q) queue' (taken house c) := by
            refine hkept'.congr hlinks (fun d => ?_)
            rw [hslot₁, update_apply]
            split_ifs with hd
            · rw [hd]
              rfl
            · rfl
          exact hkept₁.setSlot c (f := fun s => { s with blocked := true }) rfl
        · show Fine (Table.setSlot c _ k₁.table).slot (update k₁.stage p _) _ _
          rw [Table.setSlot_of_update _ hslot₂, hstage]
          exact hfine.create hp hfree hvalid ⟨rfl, rfl, rfl, rfl⟩
    | false =>
      simp only [Bool.false_eq_true, if_false]
      rw [ensures_put, ensures_bind, ensures_onTable]
      have hslot₁ := Table.setSlot_of_update (fun s => { s with threadPtr := none }) hslot
      have hkept₁ := hkept'.setSlot c (f := fun s => { s with threadPtr := none }) rfl
      refine (Table.processTableFree_stale hkept₁ (if_pos (.inl rfl)) hnext hprev).mono
        (fun _ t' ht' => ?_)
      obtain ⟨queue'', hkept'', hslot''⟩ := ht'
      refine ensures_pure.mpr ⟨_, queue'', _, hkept'', ?_⟩
      show Fine t'.slot k.stage _ _
      rw [hslot₁, update_self, update_idem] at hslot''
      rw [hslot'']
      exact hfine.refuse hp hfree hkept.free hvalid ⟨rfl, rfl⟩

theorem startProcess_sound (h : Sound k) (hc : k.stage c = .started) :
    Ensures (startProcess c true) k (fun _ k' => Sound k') := by
  obtain ⟨live, queue, house, hkept, hfine⟩ := h
  obtain ⟨hblocked, hnone⟩ := hfine.waits.started c hc
  obtain ⟨q, hparent, hq⟩ := hfine.waits.blocked c (by simp [hc]) hblocked
  -- the parent is still inside `process_execute`: the process is on no list
  have hexec : k.stage q = .inExec c false := by
    rcases hq with hq | hq
    · exact hq
    · have hhouse := (hfine.waits.wait q c false hq).2
      rw [hnone] at hhouse
      cases hhouse
  have hqc : q ≠ c := by
    rintro rfl
    exact hfine.notSelf q (by simp [hc]) hparent
  have hptr : (k.slot q).threadPtr = some q := hfine.thread q (by simp [hexec])
  simp only [startProcess, recordLoad, ensures_bind, ensures_update]
  refine (wakeParent_blocked (q := q) (t := q) (s := .inExec c true) ?_ ?_ ?_ ?_).mono
    (fun _ k₁ hk₁ => ?_)
  · simpa [slot_setSlot] using show (k.slot c).blocked = true from hblocked
  · simpa [slot_setSlot] using show (k.slot c).parentPid = some q from hparent
  · simpa [slot_setSlot, hqc] using hptr
  · simp [hexec, Stage.wake]
  rw [hk₁]
  refine ⟨live, queue, house, hkept.congr rfl (fun d => ?_), ?_⟩
  · by_cases hd : d = c <;> simp [setSlot, setStage, Table.setSlot, hd]
  · have hslot : (setStage c .active k₁).table.slot = update k.table.slot c
        { k.table.slot c with
          running := true, loadSuccess := true, loaded := true, blocked := false } := by
      rw [hk₁]
      funext d
      by_cases hd : d = c <;> simp [setSlot, setStage, Table.setSlot, hd]
    rw [hk₁] at hslot
    have := hfine.load hexec rfl
    rw [← hslot] at this
    exact this

theorem finishWait_sound (h : Sound k) (hvalid : (k.slot c).valid = true)
    (hp : k.stage p = .active ∨ k.stage p = .inWait c true)
    (hparent : (k.slot c).parentPid = some p) :
    Ensures (finishWait p c) k (fun _ k' => Sound k') := by
  obtain ⟨live, queue, house, hkept, hfine⟩ := h
  have hlive : k.stage p ≠ .absent := by
    rcases hp with hp | hp <;> simp [hp]
  rw [finishWait, ensures_bind, reap, ensures_get, ensures_check]
  intro hrun
  -- a child that does not run has exited, and is on the list
  have hhouse : house c = some (children p) := by
    by_cases hc : k.stage c = .absent
    · obtain ⟨q, hq, -, hhouse⟩ := hfine.kin.exited c hvalid hc
      cases hparent.symm.trans hq
      exact hhouse
    · rcases (hfine.kin.parent c p hc hparent).2 with hhouse | ⟨b, hb⟩
      · exact hhouse
      · rcases hp with hp | hp <;> rw [hp] at hb <;> cases hb
  have hc : k.stage c = .absent := by
    by_contra hne
    have hrun' := (hfine.kin.running c p hhouse).mpr hne
    rw [show (k.table.slot c).running = false from hrun] at hrun'
    cases hrun'
  rw [ensures_get, ensures_bind, ensures_onTable]
  refine (Table.processTableFree_ensures hkept hhouse (hfine.made p hlive)).mono (fun _ t ht => ?_)
  obtain ⟨queue', hkept', hslot, -⟩ := ht
  rw [ensures_pure, ensures_put, ensures_pure]
  refine ⟨live, queue', _, hkept', ?_⟩
  show Fine t.slot (update k.stage p .active) _ live
  rw [hslot]
  exact hfine.reap hp hc hparent hkept.free

theorem processWait_sound (h : Sound k) (hp : k.stage p = .active) (childId : Int) :
    Ensures (processWait p childId) k (fun _ k' => Sound k') := by
  rw [processWait, ensures_get]
  cases hchild : childOf k p childId with
  | none => exact ensures_pure.mpr h
  | some c =>
    obtain ⟨hvalid, hparent⟩ := childOf_eq_some hchild
    refine (awaitExit_ensures p (Stage.inWait c false)).bind (fun r k₁ hk₁ => ?_)
    rcases hk₁ with ⟨-, rfl, rfl⟩ | ⟨hrun, rfl, rfl⟩
    · refine (finishWait_sound h hvalid (.inl hp) hparent).bind (fun _ _ hk₂ => ?_)
      exact ensures_pure.mpr hk₂
    · obtain ⟨live, queue, house, hkept, hfine⟩ := h
      refine ensures_pure.mpr ⟨live, queue, house, ?_, hfine.await hp hvalid hparent hrun⟩
      exact hkept.setSlot c (f := fun s => { s with blocked := true }) rfl

/-- What the last region of `process_exit` does: a parent that waits for `p` is woken up. -/
theorem recordExit_ensures {t : Table Pid} {slot : Pid → Process Pid} {stage : Pid → Stage}
    {house : Pid → Option ProcessList} {live : ProcessList → Prop}
    (hfine : Fine slot stage house live) (hp : stage p = .active)
    (hexec : ∀ q b, stage q ≠ .inExec p b) (hparent : (t.slot p).parentPid = (slot p).parentPid)
    (hblocked : (t.slot p).blocked = (slot p).blocked)
    (hptr : ∀ d, (t.slot d).threadPtr = (slot d).threadPtr) :
    Ensures (recordExit Stage.wake p) { table := t, stage := stage } (fun _ k' =>
      k'.table.links = t.links ∧
      k'.table.slot = update t.slot p { t.slot p with blocked := false, running := false } ∧
      ∀ d, k'.stage d = if stage d = .inWait p false then .inWait p true else stage d) := by
  rw [recordExit, ensures_bind]
  refine wakeParent_ensures.mono (fun _ k₁ hk₁ => ensures_update.mpr ?_)
  rcases hk₁ with ⟨hfalse, rfl⟩ | ⟨q, t', st, htrue, hq, ht', hst, rfl⟩
  · refine ⟨rfl, ?_, fun d => ?_⟩
    · have hsame : { t.slot p with blocked := false, running := false }
          = { t.slot p with running := false } := by
        rw [← show (t.slot p).blocked = false from hfalse]
      rw [hsame]
      rfl
    · -- nobody waits for it: it is not blocked on
      have hne : stage d ≠ .inWait p false := by
        intro hd
        have htrue := (hfine.waits.waitBlocked d p hd).2
        rw [← hblocked, show (t.slot p).blocked = false from hfalse] at htrue
        cases htrue
      exact (if_neg hne).symm
  · have hq : (slot p).parentPid = some q := hparent ▸ hq
    obtain ⟨q', hq', hwaits⟩ := hfine.waits.blocked p (by simp [hp]) (hblocked ▸ htrue)
    cases hq.symm.trans hq'
    have hwait : stage q = .inWait p false := hwaits.resolve_left (hexec q false)
    have ht : t' = q := by
      have hown := hfine.thread q (by simp [hwait])
      rw [← hptr] at hown
      exact Option.some.inj (ht'.symm.trans hown)
    subst ht
    have hst : Stage.wake (stage t') = some st := hst
    rw [hwait] at hst
    cases hst
    refine ⟨rfl, ?_, fun d => ?_⟩
    · have hslot : (Table.setSlot p (fun s => { s with blocked := false }) t).slot
          = update t.slot p { t.slot p with blocked := false } := rfl
      exact Table.setSlot_of_update (fun s => { s with running := false }) hslot
    · show update stage t' (.inWait p true) d = _
      rw [update_apply]
      by_cases hd : d = t'
      · rw [if_pos hd, hd, if_pos hwait]
      · -- only the parent waits for a process
        have hne : stage d ≠ .inWait p false := by
          intro hwait'
          have hd' := (hfine.waits.wait d p false hwait').1
          exact hd (Option.some.inj (hd'.symm.trans hq))
        rw [if_neg hd, if_neg hne]

theorem processExit_sound (h : Sound k) (hp : k.stage p = .active) (code : Int)
    (hexec : ∀ q b, k.stage q ≠ .inExec p b)
    (hlist : (k.slot p).parentPid = none → ∃ q xs, k.table.links.Holds (children q) xs ∧ p ∈ xs) :
    Ensures (processExit p code) k (fun _ k' => Sound k') := by
  obtain ⟨live, queue, house, hkept, hfine⟩ := h
  rw [processExit, ensures_put, ensures_bind, ensures_onTable]
  have hmade : live (children p) := hfine.made p (by simp [hp])
  have hself : house p ≠ some (children p) := by
    intro hhouse
    exact hfine.notSelf p (by simp [hp]) (hfine.kin.child p p hhouse (by simp [hp]))
  have hkept₀ := hkept.setSlot p (f := fun s => { s with returnCode := code }) rfl
  refine (Table.informChildren_meets hkept₀ hmade).ensures.mono (fun _ t₁ ht₁ => ?_)
  obtain ⟨hlinks₁, hrun, hslot₁⟩ := ht₁
  have hp₁ : t₁.slot p = { k.slot p with returnCode := code } := by
    rw [hslot₁, if_neg hself, Table.setSlot_slot, if_pos rfl]
    rfl
  have hkept₁ : t₁.Kept live queue house := by
    refine hkept₀.congr hlinks₁ (fun c => ?_)
    rw [hslot₁]
    split_ifs <;> rfl
  have hlist₁ : (t₁.slot p).parentPid = none → ∃ q, house p = some q ∧ live q := by
    intro hnone
    rw [hp₁] at hnone
    obtain ⟨q, xs, hxs, hmem⟩ := hlist hnone
    obtain ⟨hlive, rfl⟩ := hkept.represents.eq_queue hxs
    exact ⟨children q, (hkept.housed.mem _ p).mp hmem, hlive⟩
  rw [ensures_bind, ensures_onTable]
  refine (Table.freeOrphan_ensures hkept₁ hlist₁).mono (fun _ t₂ ht₂ => ?_)
  obtain ⟨⟨queue₂, hkept₂⟩, hslot₂⟩ := ht₂
  rw [hp₁] at hkept₂ hslot₂
  rw [ensures_bind]
  refine (recordExit_ensures (t := t₂) hfine hp hexec ?_ ?_ ?_).mono (fun _ k₃ hk₃ => ?_)
  · rw [hslot₂]
    split_ifs
    · rfl
    · rw [hp₁]
      rfl
  · rw [hslot₂]
    split_ifs
    · rfl
    · rw [hp₁]
      rfl
  · intro d
    grind [Table.setSlot_slot]
  obtain ⟨hlinks₃, hslot₃, hstage₃⟩ := hk₃
  have hrun' : ∀ d, house d = some (children p) → (k.table.slot d).running = true := by
    intro d hd
    have hrd := hrun d hd
    rw [Table.setSlot_slot] at hrd
    split_ifs at hrd with hdp
    · rw [hdp]
      exact hrd
    · exact hrd
  refine ensures_update.mpr ⟨live, queue₂, _, hkept₂.congr hlinks₃ (fun d => ?_), ?_⟩
  · show (k₃.table.slot d).valid = _
    rw [hslot₃, update_apply]
    split_ifs with hd
    · rw [hd]
    · rfl
  · refine hfine.exit (p := p) ?_ hp hrun' hexec hkept.free
    -- the slot of a child has another parent, the one of `p` is the one that has been freed
    have hslot : ∀ d, k₃.table.slot d = if d = p then
        { k.table.slot p with
          returnCode := code, blocked := false, running := false
          valid := if (k.table.slot p).parentPid = none then false else (k.table.slot p).valid }
        else if house d = some (children p) then { k.table.slot d with parentPid := none }
        else k.table.slot d := by
      intro d
      rw [hslot₃, update_apply]
      split_ifs with hd hnone hhouse
      · rw [hslot₂, if_pos ⟨rfl, hnone⟩]
        rfl
      · rw [hslot₂, if_neg (fun hboth => hnone hboth.2), hp₁]
        rfl
      · rw [hslot₂, if_neg (fun hboth => hd hboth.1), hslot₁, if_pos hhouse, Table.setSlot_slot,
          if_neg hd]
      · rw [hslot₂, if_neg (fun hboth => hd hboth.1), hslot₁, if_neg hhouse, Table.setSlot_slot,
          if_neg hd]
    refine Exits.of_slot hself hslot (fun d => ?_) (fun d => rfl)
    show update k₃.stage p .absent d = _
    rw [update_apply, hstage₃]

/-! ### Runs -/

theorem Boot.sound (h : Boot k) : Sound k := by
  obtain ⟨hptr, hparent, hblocked, hrunning, queue, hkept⟩ :=
    Table.processInit_ensures initPid (k := Table.zeroed) (fun _ => rfl) () k.table h.table
  have hinit : ∀ p, k.stage p ≠ .absent → p = initPid := by
    intro p hp
    by_contra hne
    rw [h.stage, if_neg hne] at hp
    exact hp rfl
  have hnotInit : ∀ p, (k.table.slot p).valid = true → p = initPid := by
    intro p hvalid
    by_contra hne
    rw [(hkept.valid p).mpr (if_neg hne)] at hvalid
    cases hvalid
  have hvalid : (k.table.slot initPid).valid = true := by
    by_contra hfalse
    have hfree := (hkept.valid initPid).mp (Bool.eq_false_iff.mpr hfalse)
    simp at hfree
  have hactive : k.stage initPid = .active := by rw [h.stage, if_pos rfl]
  refine ⟨_, queue, _, hkept, ?_⟩
  constructor
  case listed => intro p q hq; split_ifs at hq; cases hq; exact .inr rfl
  case kin => constructor <;> grind
  case waits => constructor <;> grind
  all_goals grind

/-- One operation. -/
theorem step_sound (op : ProcessOp) (h : Sound k) (hsteps : processes.Steps op k k')
    (horder : op.InOrder k) : Sound k' := by
  obtain ⟨hready, hrun⟩ := hsteps
  suffices hcode : Ensures op.code k (fun _ k' => Sound k') from hcode () k' hrun
  cases op with
  | exec p copied created =>
    have hp : k.stage p = .active := of_decide_eq_true hready
    exact (processExecute_sound h hp copied created).bind (fun _ _ hk => ensures_pure.mpr hk)
  | load c success =>
    have hc : k.stage c = .started := of_decide_eq_true hready
    obtain rfl : success = true := horder
    exact startProcess_sound h hc
  | execDone p =>
    rw [ProcessOp.code, ensures_get]
    split
    · next c hp => exact (finishExec_sound h hp).bind (fun _ _ hk => ensures_pure.mpr hk)
    · exact ensures_stop
  | wait p childId =>
    have hp : k.stage p = .active := of_decide_eq_true hready
    exact (processWait_sound h hp childId).bind (fun _ _ hk => ensures_pure.mpr hk)
  | waitDone p =>
    rw [ProcessOp.code, ensures_get]
    split
    · next c hp =>
      have hchild : (k.slot c).valid = true ∧ (k.slot c).parentPid = some p := by
        obtain ⟨live, queue, house, hkept, hfine⟩ := h
        obtain ⟨hparent, hhouse⟩ := hfine.waits.wait p c true hp
        refine ⟨?_, hparent⟩
        by_contra hfalse
        have hfree := (hkept.valid c).mp (Bool.eq_false_iff.mpr hfalse)
        rw [hhouse] at hfree
        cases hfree
      exact (finishWait_sound h hchild.1 (.inr hp) hchild.2).bind
        (fun _ _ hk => ensures_pure.mpr hk)
    · exact ensures_stop
  | exit p code =>
    obtain ⟨hexec, hlist⟩ := horder
    have hp : k.stage p = .active := by
      obtain ⟨live, queue, house, hkept, hfine⟩ := h
      exact (of_decide_eq_true hready).resolve_right (fun hfailed => hfine.notFailed p hfailed.1)
    exact processExit_sound h hp code hexec hlist

end Slots

/-- Processes execute, wait and exit, from `process_init` on, in any order, except that loads succeed,
    that a process exits after its parent's `process_execute` has returned, and that one without a
    parent exits while it is on a list of children.  Then no slot is ever lost or there twice. -/
theorem slots_accounted {k₀ k : Slots} (hboot : k₀.Boot)
    (hrun : processes.Run ProcessOp.InOrder k₀ k) : k.Accounted := by
  have hsound : k.Sound := by
    refine hrun.invariant (I := Slots.Sound) (fun op s s' hs hsteps horder => ?_) hboot.sound
    exact Slots.step_sound op hs hsteps horder
  exact hsound.accounted

/-- The state after `process_init`. -/
def Slots.booted : Slots where
  table := final (Table.processInit initPid) Table.zeroed
  stage p := if p = initPid then .active else .absent

theorem boot_booted : Slots.booted.Boot := by
  have hok : outcome (Table.processInit initPid) (Table.zeroed (ι := Pid)) = .ok () := by
    decide +kernel
  refine ⟨?_, fun _ => rfl⟩
  simp only [Slots.booted]
  exact run_of_outcome hok

/-- In order, and no process without a parent exits. -/
def ProcessOp.Parented (k : Slots) : ProcessOp → Prop
  | load _ success => success = true
  | exit p _ => (∀ q b, k.stage q ≠ .inExec p b) ∧ (k.slot p).parentPid ≠ none
  | _ => True

instance (k : Slots) : (op : ProcessOp) → Decidable (op.Parented k)
  | .load _ success => inferInstanceAs (Decidable (success = true))
  | .exit p _ => inferInstanceAs (Decidable
      ((∀ q b, k.stage q ≠ .inExec p b) ∧ (k.slot p).parentPid ≠ none))
  | .exec .. | .execDone _ | .wait .. | .waitDone _ => .isTrue trivial

theorem ProcessOp.Parented.inOrder {op : ProcessOp} (h : op.Parented k) : op.InOrder k := by
  cases op with
  | exit p code => exact ⟨h.1, fun hnone => absurd hnone h.2⟩
  | load c success => exact h
  | _ => trivial

/-- The initial process executes a program and waits for it, and it exits with `7`. -/
def childOps : List ProcessOp :=
  [.exec 0 true true, .load 1 true, .execDone 0, .wait 0 1, .exit 1 7, .waitDone 0]

theorem slots_accounted_child :
    processes.Run ProcessOp.InOrder Slots.booted (processes.after childOps Slots.booted) ∧
      (processes.after childOps Slots.booted).Accounted := by
  have hrun : processes.Run ProcessOp.Parented Slots.booted
      (processes.after childOps Slots.booted) := Machine.run_of_allows (by decide +kernel)
  have horder := hrun.mono (fun _ _ h => h.inOrder)
  exact ⟨horder, slots_accounted boot_booted horder⟩

/-- The load of the new process fails, and it exits. -/
def failedOps : List ProcessOp :=
  [.exec 0 true true, .load 1 false, .execDone 0, .exit 1 (-1)]

/-- The slot of a process that could not be loaded is lost: it is in use, its process is gone, and
    its parent does not have it on its list. -/
theorem failed_load_loses_slot :
    processes.Run (fun _ _ => True) Slots.booted (processes.after failedOps Slots.booted) ∧
      ((processes.after failedOps Slots.booted).slot 1).valid = true ∧
      (processes.after failedOps Slots.booted).stage 1 = .absent ∧
      ¬ (processes.after failedOps Slots.booted).Accounted := by
  obtain ⟨hvalid, hstage, hparent₀, hempty⟩ :
      ((processes.after failedOps Slots.booted).slot 1).valid = true ∧
      (processes.after failedOps Slots.booted).stage 1 = .absent ∧
      ((processes.after failedOps Slots.booted).slot 1).parentPid = some 0 ∧
      (processes.after failedOps Slots.booted).table.links.next (.head (children 0))
        = some (.tail (children 0)) := by decide +kernel
  refine ⟨Machine.run_of_allows (by decide +kernel), hvalid, hstage, fun h => ?_⟩
  rcases h.inUse 1 hvalid with hne | ⟨q, xs, hparent, -, hholds, hmem⟩
  · exact hne hstage
  · cases hparent.symm.trans hparent₀
    rw [hholds.eq_nil hempty] at hmem
    cases hmem

end KernelSanders
