import KernelSanders.Lib.Machine
import KernelSanders.Userprog.Process

namespace KernelSanders

open Lib Lib.Exec

/-!
# Processes that come between each other

The threads of the processes, one step at a time: a region with interrupts off is one step, and so
is each statement outside that reads or writes the process table; only the assertions of `execCheck`
and `waitRead` are one step with the read behind them.  Where a thread is in the code is its `Spot`,
and `ThreadOp.code` is the statement there.

* `Request` is what a process asks for while it is in its own program;
* `ThreadOp.create` and `ThreadOp.load` are the steps that have a choice: whether there is memory for
  a thread, and whether the program could be loaded;
* `threads` is the machine in which the steps of all threads take place in any order.

The last region of `process_exit` uses the slot of the process, also if the slot has been given back
before it (`KeepsOff`).
-/

/-- Why a slot is given back, which is where the code goes on afterwards. -/
inductive Freeing where
  /-- `process_execute` could not create a thread. -/
  | refused
  /-- `process_wait` is going to return that. -/
  | reaped (ret : Int)
  /-- `process_exit` of the parent. -/
  | child
  /-- `process_exit` of the process itself. -/
  | own
  deriving DecidableEq

/-- What a process has got from its last call. -/
inductive Result where
  | none
  | executed (pid : Option Pid)
  | waited (childId : Int) (ret : Int)
  deriving DecidableEq

/-- Where a thread is: what it does next. -/
inductive Spot (ι : Type) where
  | absent
  /-- In `load`. -/
  | loading
  | loaded (success : Bool)
  | marked (success : Bool)
  | failed
  /-- In its own program, or in `main`. -/
  | user (r : Result)
  -- `process_execute`
  | execEmpty
  | execGet
  | execCreate (c : Pid)
  | execPtr (c : Pid) (u : Option ι)
  | execDir (c : Pid)
  | execAwait (c : Pid)
  | execAsleep (c : Pid)
  | execCheck (c : Pid)
  | execAdopt (c : Pid)
  -- `process_wait`
  | waitCheck (childId : Int)
  | waitAwait (c : Pid)
  | waitAsleep (c : Pid)
  | waitRead (c : Pid)
  -- `process_table_free`
  | freeMark (c : Pid) (why : Freeing)
  | freeRemove (c : Pid) (why : Freeing)
  | freePush (c : Pid) (why : Freeing)
  -- `process_exit`
  | exitCode (code : Int)
  | exitBegin
  | exitFirst
  | exitChild (e : Node Pid ProcessList)
  | exitInform (c : Pid)
  | exitNext (c : Pid)
  | exitOrphan
  | exitRegion (freed : Bool)
  | gone
  deriving DecidableEq

/-- A thread: its `pid`, and where it is. -/
structure ProcThread (ι : Type) where
  pid : Option Pid
  spot : Spot ι
  deriving DecidableEq

/-- What `thread_unblock` makes of a thread: it goes on after its region. -/
def ProcThread.wake {ι : Type} (t : ProcThread ι) : Option (ProcThread ι) :=
  match t.spot with
  | .execAsleep c => some { t with spot := .execCheck c }
  | .waitAsleep c => some { t with spot := .waitRead c }
  | _ => none

/-- The process table and the threads. -/
abbrev Threads (ι : Type) := Procs ι (ProcThread ι)

/-- What a process asks for. -/
inductive Request where
  /-- `process_execute`; `copied` says whether there is memory for the copy of the file name. -/
  | exec (copied : Bool)
  | wait (childId : Int)
  | exit (code : Int)

namespace Threads

open Procs

variable {ι : Type} [DecidableEq ι]

def spot (k : Threads ι) (t : ι) : Spot ι := (k.stage t).spot

/-- The thread goes on at `pt`. -/
def goto (t : ι) (pt : Spot ι) (k : Threads ι) : Threads ι :=
  setStage t { k.stage t with spot := pt } k

theorem spot_goto (t : ι) (pt : Spot ι) (k : Threads ι) (u : ι) :
    (goto t pt k).spot u = if u = t then pt else k.spot u := by
  rw [spot, goto, stage_setStage]
  split_ifs <;> rfl

@[simp] theorem slot_goto (t : ι) (pt : Spot ι) (k : Threads ι) (c : Pid) :
    (goto t pt k).slot c = k.slot c := rfl

/-- The slot of the thread, `process_table[thread_current()->pid]`. -/
def current (t : ι) : Exec (Threads ι) Pid := do
  let pid ← read (fun k => (k.stage t).pid)
  match pid with
  | none => stop .fault
  | some p => pure p

/-- A system call. -/
def request (t : ι) : Request → Exec (Threads ι) Unit
  | .exec copied => update (goto t (if copied then .execEmpty else .user (.executed none)))
  | .wait childId => update (goto t (.waitCheck childId))
  | .exit code => update (goto t (.exitCode code))

/-- `thread_create_ptr` for the slot `c`, which has made the thread `u`. -/
def create (t : ι) (c : Pid) : Option ι → Exec (Threads ι) Unit
  | none => update (goto t (.execPtr c none))
  | some u => do
    update (setStage u { pid := some c, spot := .loading })
    update (goto t (.execPtr c (some u)))

/-- Where the code goes on after `process_table_free`. -/
def Freeing.next (c : Pid) : Freeing → Spot ι
  | .refused => .user (.executed none)
  | .reaped ret => .user (.waited c.val ret)
  | .child => .exitNext c
  | .own => .exitRegion true

/-- The statement at a point, by the thread `t`. -/
def statement (t : ι) : Spot ι → Exec (Threads ι) Unit
  | .absent | .loading | .user _ | .execCreate _ | .execAsleep _ | .waitAsleep _ | .gone =>
    stop .blocked
  -- `start_process`
  | .loaded success => do
    let p ← current t
    update (setSlot p (fun s => { s with running := true }))
    update (goto t (.marked success))
  | .marked success => do
    let p ← current t
    recordLoad ProcThread.wake p success
    update (goto t (if success then .user .none else .failed))
  | .failed => update (goto t (.exitCode (-1)))
  -- `process_execute`
  | .execEmpty => do
    let empty ← read (fun k => k.table.links.isEmpty freeList)
    update (goto t (if empty then .user (.executed none) else .execGet))
  | .execGet => do
    let pid ← read (fun k => (k.stage t).pid)
    let c ← onTable (Table.takeSlot pid)
    update (goto t (.execCreate c))
  | .execPtr c u => do
    update (setSlot c (fun s => { s with threadPtr := u }))
    update (goto t (if u.isNone then .freeMark c .refused else .execDir c))
  | .execDir c => do
    let p ← current t
    inheritDir p c
    update (goto t (.execAwait c))
  | .execAwait c => do
    let task ← read (fun k => k.stage t)
    let asleep ← awaitLoad t c { task with spot := .execAsleep c }
    if asleep then pure () else update (goto t (.execCheck c))
  | .execCheck c => do
    let loaded ← read (fun k => (k.slot c).loaded)
    assert (loaded = true) "process_table[pid].loaded"
    let success ← read (fun k => (k.slot c).loadSuccess)
    update (goto t (if success then .execAdopt c else .user (.executed none)))
  | .execAdopt c => do
    let p ← current t
    onTable (Table.onLinks (Links.pushBack (children p) c))
    update (goto t (.user (.executed (some c))))
  -- `process_wait`
  | .waitCheck childId => do
    let p ← current t
    let child ← read (fun k => childOf k p childId)
    match child with
    | none => update (goto t (.user (.waited childId (-1))))
    | some c => update (goto t (.waitAwait c))
  | .waitAwait c => do
    let task ← read (fun k => k.stage t)
    let asleep ← awaitExit t c { task with spot := .waitAsleep c }
    if asleep then pure () else update (goto t (.waitRead c))
  | .waitRead c => do
    let running ← read (fun k => (k.slot c).running)
    assert (running = false) "!process_table[child_id].running"
    let ret ← read (fun k => (k.slot c).returnCode)
    update (goto t (.freeMark c (.reaped ret)))
  -- `process_table_free`
  | .freeMark c why => do
    onTable (Table.markFree c)
    update (goto t (.freeRemove c why))
  | .freeRemove c why => do
    onTable (Table.onLinks (Links.remove (.elem c)))
    update (goto t (.freePush c why))
  | .freePush c why => do
    onTable (Table.onLinks (Links.pushBack freeList c))
    update (goto t (Freeing.next c why))
  -- `process_exit`
  | .exitCode code => do
    let p ← current t
    update (setSlot p (fun s => { s with returnCode := code }))
    update (goto t .exitBegin)
  | .exitBegin => do
    let p ← current t
    let empty ← read (fun k => k.table.links.isEmpty (children p))
    update (goto t (if empty then .exitOrphan else .exitFirst))
  | .exitFirst => do
    let p ← current t
    let begin ← read (fun k => k.table.links.next (.head (children p)))
    match begin with
    | none => stop .fault
    | some e => update (goto t (.exitChild e))
  | .exitChild e => do
    let p ← current t
    if e = .tail (children p) then update (goto t .exitOrphan)
    else
      match e with
      | .elem c => do
        let running ← read (fun k => (k.slot c).running)
        update (goto t (if running then .exitInform c else .freeMark c .child))
      | _ => stop .fault
  | .exitInform c => do
    update (setSlot c (fun s => { s with parentPid := none }))
    update (goto t (.exitNext c))
  | .exitNext c => do
    let e ← onTable (Table.onLinks (Links.listNext (.elem c)))
    update (goto t (.exitChild e))
  | .exitOrphan => do
    let p ← current t
    let parent ← read (fun k => (k.slot p).parentPid)
    update (goto t (if parent = none then .freeMark p .own else .exitRegion false))
  | .exitRegion _ => do
    let p ← current t
    recordExit ProcThread.wake p
    update (goto t .gone)

end Threads

open Threads

/-- What the threads do. -/
inductive ThreadOp (ι : Type) where
  | request (t : ι) (r : Request)
  | create (t : ι) (u : Option ι)
  | load (t : ι) (success : Bool)
  | step (t : ι)

namespace ThreadOp

open Threads Procs

variable {ι : Type} [DecidableEq ι]

def code : ThreadOp ι → Exec (Threads ι) Unit
  | request t r => Threads.request t r
  | create t u => do
    let pt ← read (fun k => k.spot t)
    match pt with
    | .execCreate c => Threads.create t c u
    | _ => stop .blocked
  | load t success => update (goto t (.loaded success))
  | step t => do
    let pt ← read (fun k => k.spot t)
    statement t pt

/-- A process asks for something while it is in its program, and a thread is made from one that was
    not there before. -/
def ready (k : Threads ι) : ThreadOp ι → Bool
  | request t _ =>
    match k.spot t with
    | .user _ => true
    | _ => false
  | create _ u =>
    match u with
    | none => true
    | some u => k.spot u = .absent
  | load t _ => k.spot t = .loading
  | step _ => true

end ThreadOp

/-- The threads, whose steps take place in any order. -/
def threads (ι : Type) [DecidableEq ι] : Machine (Threads ι) (ThreadOp ι) where
  ready := ThreadOp.ready
  code := ThreadOp.code

/-- The thread is not about to find out in `process_exit` that its parent is dead. -/
def Threads.hasParent {ι : Type} (k : Threads ι) (t : ι) : Bool :=
  match k.stage t with
  | ⟨some p, .exitOrphan⟩ => (k.slot p).parentPid ≠ none
  | _ => true

/-- A process that reaches the test for a dead parent in `process_exit` has a parent. -/
def ThreadOp.HasParent {ι : Type} (k : Threads ι) : ThreadOp ι → Prop
  | step t => k.hasParent t = true
  | _ => True

namespace Threads

open Procs

variable {ι : Type} [DecidableEq ι] {k k' : Threads ι} {t : ι} {p : Pid} {pt pt' : Spot ι}

/-- After `process_init` by the thread `t₀`. -/
structure Boot (k : Threads ι) (t₀ : ι) : Prop where
  table : (Table.processInit t₀).run Table.zeroed = .ok ((), k.table)
  stage : ∀ t, k.stage t = if t = t₀ then ⟨some initPid, .user .none⟩ else ⟨none, .absent⟩

/-- Whatever is in the slot `p`, the code does the same from `k` on, and leaves it there. -/
def Untouched (p : Pid) (x : Exec (Threads ι) Unit) (k : Threads ι) : Prop :=
  ∀ s : Process ι, x.run (setSlot p (fun _ => s) k) =
    (x.run k).map (fun r => (r.1, setSlot p (fun _ => s) r.2))

/-- A process that has given back its own slot in `process_exit` does not use it in what it does
    next. -/
def KeepsOff (k : Threads ι) : Prop :=
  ∀ t p, k.stage t = ⟨some p, .exitRegion true⟩ → Untouched p (ThreadOp.step t).code k

/-! ### What a statement does

A statement writes no slot, or one; the region after the load and the last region of `process_exit`
wake up the parent if it is blocked. -/

/-- The thread goes from a point to the next, and no slot is written. -/
inductive Goes (k : Threads ι) (t : ι) : Spot ι → Spot ι → Prop
  | failed : Goes k t .failed (.exitCode (-1))
  | full : Goes k t .execEmpty (.user (.executed none))
  | notFull : Goes k t .execEmpty .execGet
  | hasLoaded {c : Pid} (h : (k.slot c).loaded = true) : Goes k t (.execAwait c) (.execCheck c)
  | loadFailed {c : Pid} (h : (k.slot c).loaded = true) :
    Goes k t (.execCheck c) (.user (.executed none))
  | loadDone {c : Pid} (h : (k.slot c).loaded = true) : Goes k t (.execCheck c) (.execAdopt c)
  | adopt {c : Pid} : Goes k t (.execAdopt c) (.user (.executed (some c)))
  | noChild {p : Pid} {n : Int} (hpid : (k.stage t).pid = some p) (h : childOf k p n = none) :
    Goes k t (.waitCheck n) (.user (.waited n (-1)))
  | isChild {p c : Pid} {n : Int} (hpid : (k.stage t).pid = some p) (h : childOf k p n = some c) :
    Goes k t (.waitCheck n) (.waitAwait c)
  | hasExited {c : Pid} (h : (k.slot c).running = false) : Goes k t (.waitAwait c) (.waitRead c)
  | read {c : Pid} (h : (k.slot c).running = false) :
    Goes k t (.waitRead c) (.freeMark c (.reaped (k.slot c).returnCode))
  | remove {c : Pid} {why : Freeing} : Goes k t (.freeRemove c why) (.freePush c why)
  | push {c : Pid} {why : Freeing} : Goes k t (.freePush c why) (Freeing.next c why)
  | noChildren : Goes k t .exitBegin .exitOrphan
  | children : Goes k t .exitBegin .exitFirst
  | first {e : Node Pid ProcessList} : Goes k t .exitFirst (.exitChild e)
  | last {e : Node Pid ProcessList} : Goes k t (.exitChild e) .exitOrphan
  | runs {c : Pid} : Goes k t (.exitChild (.elem c)) (.exitInform c)
  | runsNot {c : Pid} : Goes k t (.exitChild (.elem c)) (.freeMark c .child)
  | next {c : Pid} {e : Node Pid ProcessList} : Goes k t (.exitNext c) (.exitChild e)
  | orphan {p : Pid} (hpid : (k.stage t).pid = some p) (h : (k.slot p).parentPid = none) :
    Goes k t .exitOrphan (.freeMark p .own)
  | notOrphan {p : Pid} (hpid : (k.stage t).pid = some p) (h : (k.slot p).parentPid ≠ none) :
    Goes k t .exitOrphan (.exitRegion false)

/-- The thread goes from a point to the next, and writes a slot. -/
inductive Writes (k : Threads ι) (t : ι) : Spot ι → Spot ι → Pid → Process ι → Prop
  | run {p : Pid} {b : Bool} (hpid : (k.stage t).pid = some p) :
    Writes k t (.loaded b) (.marked b) p { k.slot p with running := true }
  | load {p : Pid} {b : Bool} (hpid : (k.stage t).pid = some p) :
    Writes k t (.marked b) (if b then .user .none else .failed) p
      { k.slot p with loadSuccess := b, loaded := true, blocked := false }
  | take {c : Pid} (h : (k.slot c).valid = false) :
    Writes k t .execGet (.execCreate c) c (Table.fresh (k.stage t).pid (k.slot c))
  | ptr {c : Pid} {u : Option ι} :
    Writes k t (.execPtr c u) (if u.isNone then .freeMark c .refused else .execDir c) c
      { k.slot c with threadPtr := u }
  | dir {c : Pid} {dir : Option Nat} :
    Writes k t (.execDir c) (.execAwait c) c { k.slot c with workingDir := dir }
  | awaitLoad {c : Pid} (h : (k.slot c).loaded = false) :
    Writes k t (.execAwait c) (.execAsleep c) c { k.slot c with blocked := true }
  | awaitExit {c : Pid} (h : (k.slot c).running = true) :
    Writes k t (.waitAwait c) (.waitAsleep c) c { k.slot c with blocked := true }
  | free {c : Pid} {why : Freeing} :
    Writes k t (.freeMark c why) (.freeRemove c why) c { k.slot c with valid := false }
  | code {p : Pid} {code : Int} (hpid : (k.stage t).pid = some p) :
    Writes k t (.exitCode code) .exitBegin p { k.slot p with returnCode := code }
  | inform {c : Pid} : Writes k t (.exitInform c) (.exitNext c) c { k.slot c with parentPid := none }
  | exit {p : Pid} {b : Bool} (hpid : (k.stage t).pid = some p) :
    Writes k t (.exitRegion b) .gone p { k.slot p with blocked := false, running := false }

/-- The region at the point wakes up the parent. -/
def Spot.Wakes : Spot ι → Prop
  | .marked _ | .exitRegion _ => True
  | _ => False

/-- What a statement by `t` does. -/
inductive Effect (k : Threads ι) (t : ι) (k' : Threads ι) : Prop
  | goes (hpid : (k'.stage t).pid = (k.stage t).pid) (h : Goes k t (k.spot t) (k'.spot t))
    (hslot : k'.slot = k.slot) (hstage : ∀ u, u ≠ t → k'.stage u = k.stage u)
  | writes {c : Pid} {s : Process ι} (hpid : (k'.stage t).pid = (k.stage t).pid)
    (h : Writes k t (k.spot t) (k'.spot t) c s)
    (hquiet : Spot.Wakes (k.spot t) → (k.slot c).blocked = false)
    (hslot : k'.slot = Function.update k.slot c s) (hstage : ∀ u, u ≠ t → k'.stage u = k.stage u)
  | wakes {c q : Pid} {s : Process ι} {u : ι} {st : ProcThread ι}
    (hpid : (k'.stage t).pid = (k.stage t).pid) (h : Writes k t (k.spot t) (k'.spot t) c s)
    (hwakes : Spot.Wakes (k.spot t)) (hblocked : (k.slot c).blocked = true)
    (hparent : (k.slot c).parentPid = some q) (hptr : (k.slot q).threadPtr = some u)
    (hwake : (k.stage u).wake = some st) (hslot : k'.slot = Function.update k.slot c s)
    (hstage : ∀ v, v ≠ t → k'.stage v = if v = u then st else k.stage v)

open Effect

omit [DecidableEq ι] in
theorem ensures_current {f : Pid → Exec (Threads ι) Unit} {Q : Unit → Threads ι → Prop}
    (hf : ∀ p, (k.stage t).pid = some p → Ensures (f p) k Q) : Ensures (current t >>= f) k Q := by
  rw [ensures_bind, current, ensures_get]
  cases hpid : (k.stage t).pid with
  | none => exact ensures_stop
  | some p => exact ensures_pure.mpr (hf p hpid)

theorem stage_goto_of_ne {u : ι} (hu : u ≠ t) (pt : Spot ι) : (goto t pt k).stage u = k.stage u := by
  rw [goto, stage_setStage, if_neg hu]

variable {k₁ : Threads ι} {s : Process ι} {task task' : ProcThread ι} {c : Pid} {b : Bool}

/-- The thread goes on after something that has changed no slot. -/
theorem Effect.of_goes (hspot : k.spot t = pt) (h : Goes k t pt pt') (hslot : k₁.slot = k.slot)
    (hstage : k₁.stage = k.stage) : Effect k t (goto t pt' k₁) := by
  refine .goes ?_ ?_ hslot (fun u hu => ?_)
  · rw [goto, stage_setStage, if_pos rfl, hstage]
  · rw [hspot, spot_goto, if_pos rfl]
    exact h
  · rw [stage_goto_of_ne hu, hstage]

/-- The thread only goes on. -/
theorem Effect.of_goto (hspot : k.spot t = pt) (h : Goes k t pt pt') :
    Ensures (update (goto t pt')) k (fun _ k' => Effect k t k') :=
  ensures_update.mpr (of_goes hspot h rfl rfl)

/-- The thread goes on after it has changed a slot. -/
theorem Effect.of_writes (hspot : k.spot t = pt) (h : Writes k t pt pt' c s)
    (hquiet : Spot.Wakes pt → (k.slot c).blocked = false)
    (hslot : k₁.slot = Function.update k.slot c s) (hstage : k₁.stage = k.stage) :
    Effect k t (goto t pt' k₁) := by
  refine .writes ?_ ?_ (hspot ▸ hquiet) hslot (fun u hu => ?_)
  · rw [goto, stage_setStage, if_pos rfl, hstage]
  · rw [hspot, spot_goto, if_pos rfl]
    exact h
  · rw [stage_goto_of_ne hu, hstage]

/-- A statement that changes a slot. -/
theorem Effect.of_slot {f : Process ι → Process ι} (hspot : k.spot t = pt)
    (hquiet : ¬ Spot.Wakes pt) (h : Writes k t pt pt' c (f (k.slot c))) :
    Ensures (update (setSlot c f) >>= fun _ => update (goto t pt')) k (fun _ k' => Effect k t k') := by
  rw [ensures_put, ensures_update]
  exact of_writes hspot h (fun hwakes => absurd hwakes hquiet) rfl rfl

/-- A statement that only has to do with the links. -/
theorem Effect.of_links {α : Type} {x : Exec (Links Pid ProcessList) α} {next : α → Spot ι}
    (hspot : k.spot t = pt) (h : ∀ a, Goes k t pt (next a)) :
    Ensures (onTable (Table.onLinks x) >>= fun a => update (goto t (next a))) k
      (fun _ k' => Effect k t k') := by
  rw [ensures_bind, ensures_onTable]
  refine (Table.onLinks_slot _).mono (fun a table ht => ensures_update.mpr ?_)
  exact of_goes hspot (h a) ht rfl

/-- The stages after the process `p` has woken up its parent, if that was blocked. -/
def Woken (k : Threads ι) (p : Pid) (stage : ι → ProcThread ι) : Prop :=
  ((k.slot p).blocked = false ∧ stage = k.stage) ∨
    ∃ q u st, (k.slot p).blocked = true ∧ (k.slot p).parentPid = some q ∧
      (k.slot q).threadPtr = some u ∧ (k.stage u).wake = some st ∧
      stage = Function.update k.stage u st

/-- `wakeParent` in a region that has only changed other fields of the slot before. -/
theorem wakeParent_woken {k₀ : Threads ι} (hstage : k₀.stage = k.stage)
    (hslot : k₀.slot = Function.update k.slot p s) (hblocked : s.blocked = (k.slot p).blocked)
    (hparent : s.parentPid = (k.slot p).parentPid) (hptr : s.threadPtr = (k.slot p).threadPtr) :
    Ensures (wakeParent ProcThread.wake p) k₀ (fun _ k₁ =>
      k₁.slot = Function.update k.slot p { s with blocked := false } ∧ Woken k p k₁.stage) := by
  have hself : k₀.slot p = s := by rw [hslot, Function.update_self]
  have hptrs : ∀ q, (k₀.slot q).threadPtr = (k.slot q).threadPtr := by
    intro q
    rw [hslot, Function.update_apply]
    split_ifs with hq
    · rw [hq, hptr]
    · rfl
  refine wakeParent_ensures.mono (fun _ k₁ hk₁ => ?_)
  rw [hself, hblocked, hparent] at hk₁
  rcases hk₁ with ⟨hfalse, rfl⟩ | ⟨q, u, st, htrue, hq, hu, hwake, rfl⟩
  · refine ⟨?_, .inl ⟨hfalse, hstage⟩⟩
    rw [hslot, show { s with blocked := false } = s by rw [← hfalse, ← hblocked]]
  · refine ⟨?_, .inr ⟨q, u, st, htrue, hq, ?_, ?_, ?_⟩⟩
    · exact Table.setSlot_of_update (fun s => { s with blocked := false }) hslot
    · rw [← hptrs, hu]
    · rw [← hstage, hwake]
    · rw [← hstage]
      rfl

omit [DecidableEq ι] in
theorem wake_pid (h : task.wake = some task') : task'.pid = task.pid := by
  rw [ProcThread.wake] at h
  split at h <;> cases h <;> rfl

/-- A region that wakes up the parent. -/
theorem Effect.of_woken (hspot : k.spot t = pt) (hwakes : Spot.Wakes pt) (h : Writes k t pt pt' p s)
    (hslot : k₁.slot = Function.update k.slot p s) (hwoken : Woken k p k₁.stage) :
    Effect k t (goto t pt' k₁) := by
  rcases hwoken with ⟨hfalse, hstage⟩ | ⟨q, u, st, htrue, hq, hu, hwake, hstage⟩
  · exact of_writes hspot h (fun _ => hfalse) hslot hstage
  · refine .wakes ?_ ?_ (hspot ▸ hwakes) htrue hq hu hwake hslot (fun v hv => ?_)
    · rw [goto, stage_setStage, if_pos rfl, hstage, Function.update_apply]
      split_ifs with htu
      · have hpid := wake_pid hwake
        rw [htu]
        exact hpid
      · rfl
    · rw [hspot, spot_goto, if_pos rfl]
      exact h
    · rw [stage_goto_of_ne hv, hstage, Function.update_apply]

/-- What a statement does, for every point. -/
theorem statement_effect : Ensures (statement t (k.spot t)) k (fun _ k' => Effect k t k') := by
  cases hspot : k.spot t with
  | absent | loading | user r | execCreate c | execAsleep c | waitAsleep c | gone =>
    exact ensures_stop
  | loaded success =>
    exact ensures_current fun p hpid => of_slot hspot id (.run hpid)
  | marked success =>
    refine ensures_current fun p hpid => ?_
    rw [recordLoad]
    simp only [ensures_bind, ensures_update]
    refine (wakeParent_woken (k := k) (s := { k.slot p with loadSuccess := success, loaded := true })
      ?_ ?_ rfl rfl rfl).mono (fun _ k₁ hk₁ => ?_)
    · rfl
    · have hslot : (Table.setSlot p (fun s => { s with loadSuccess := success }) k.table).slot
          = Function.update k.slot p { k.slot p with loadSuccess := success } := rfl
      exact Table.setSlot_of_update (fun s => { s with loaded := true }) hslot
    · exact of_woken hspot trivial (.load hpid) hk₁.1 hk₁.2
  | failed => exact of_goto hspot .failed
  | execEmpty =>
    rw [statement, ensures_get]
    split_ifs
    · exact of_goto hspot .full
    · exact of_goto hspot .notFull
  | execGet =>
    rw [statement, ensures_get, ensures_bind, ensures_onTable]
    refine (Table.takeSlot_slot _ _).mono (fun c table ht => ensures_update.mpr ?_)
    exact of_writes hspot (.take ht.1) False.elim ht.2 rfl
  | execPtr c u => exact of_slot hspot id .ptr
  | execDir c =>
    refine ensures_current fun p _ => ?_
    rw [inheritDir, ensures_put, ensures_update]
    exact of_writes hspot .dir False.elim rfl rfl
  | execAwait c =>
    rw [statement, ensures_get]
    refine (awaitLoad_ensures t _).bind (fun r k' hk' => ?_)
    rcases hk' with ⟨hloaded, rfl, rfl⟩ | ⟨hloaded, rfl, rfl⟩
    · exact of_goto hspot (.hasLoaded hloaded)
    · exact ensures_pure.mpr (of_writes hspot (.awaitLoad hloaded) False.elim rfl rfl)
  | execCheck c =>
    simp only [statement, ensures_bind, ensures_read, ensures_assert]
    intro hloaded
    split_ifs
    · exact of_goto hspot (.loadDone hloaded)
    · exact of_goto hspot (.loadFailed hloaded)
  | execAdopt c =>
    exact ensures_current fun p _ => of_links hspot (fun _ => .adopt)
  | waitCheck childId =>
    refine ensures_current fun p hpid => ?_
    rw [ensures_get]
    cases hchild : childOf k p childId with
    | none => exact of_goto hspot (.noChild hpid hchild)
    | some c => exact of_goto hspot (.isChild hpid hchild)
  | waitAwait c =>
    rw [statement, ensures_get]
    refine (awaitExit_ensures t _).bind (fun r k' hk' => ?_)
    rcases hk' with ⟨hrunning, rfl, rfl⟩ | ⟨hrunning, rfl, rfl⟩
    · exact of_goto hspot (.hasExited hrunning)
    · exact ensures_pure.mpr (of_writes hspot (.awaitExit hrunning) False.elim rfl rfl)
  | waitRead c =>
    simp only [statement, ensures_bind, ensures_read, ensures_assert]
    exact fun hrunning => of_goto hspot (.read hrunning)
  | freeMark c why =>
    simp only [statement, Table.markFree, ensures_bind, ensures_onTable, ensures_read,
      ensures_assert, ensures_update]
    exact fun _ => of_writes hspot .free False.elim rfl rfl
  | freeRemove c why => exact of_links hspot (fun _ => .remove)
  | freePush c why => exact of_links hspot (fun _ => .push)
  | exitCode code =>
    exact ensures_current fun p hpid => of_slot hspot id (.code hpid)
  | exitBegin =>
    refine ensures_current fun p _ => ?_
    rw [ensures_get]
    split_ifs
    · exact of_goto hspot .noChildren
    · exact of_goto hspot .children
  | exitFirst =>
    refine ensures_current fun p _ => ?_
    rw [ensures_get]
    split
    · exact ensures_stop
    · exact of_goto hspot .first
  | exitChild e =>
    refine ensures_current fun p _ => ?_
    split_ifs
    · exact of_goto hspot .last
    · split
      · rw [ensures_get]
        split_ifs
        · exact of_goto hspot .runs
        · exact of_goto hspot .runsNot
      · exact ensures_stop
  | exitInform c => exact of_slot hspot id .inform
  | exitNext c => exact of_links hspot (fun _ => .next)
  | exitOrphan =>
    refine ensures_current fun p hpid => ?_
    rw [ensures_get]
    split_ifs with hparent
    · exact of_goto hspot (.orphan hpid hparent)
    · exact of_goto hspot (.notOrphan hpid hparent)
  | exitRegion freed =>
    refine ensures_current fun p hpid => ?_
    rw [recordExit, ensures_bind, ensures_bind]
    refine (wakeParent_woken (k := k) (s := k.slot p) rfl ?_ rfl rfl rfl).mono (fun _ k₁ hk₁ => ?_)
    · rw [Function.update_eq_self]
    · rw [ensures_update, ensures_update]
      refine of_woken hspot trivial (.exit hpid) ?_ hk₁.2
      exact Table.setSlot_of_update (fun s => { s with running := false }) hk₁.1

/-! ### The last region uses the slot -/

omit [DecidableEq ι] in
theorem current_run (h : (k.stage t).pid = some p) : (current t).run k = .ok (p, k) := by
  rw [current, read_bind, h]
  rfl

/-- With nobody blocked on the process, the region just clears `running`. -/
theorem exitRegion_run (hstage : k.stage t = ⟨some p, .exitRegion b⟩)
    (hblocked : (k.slot p).blocked = false) :
    (ThreadOp.step t).code.run k
      = .ok ((), goto t .gone (setSlot p (fun s => { s with running := false }) k)) := by
  have hspot : k.spot t = .exitRegion b := by rw [spot, hstage]
  have hcurrent : (current t).run k = .ok (p, k) := current_run (by rw [hstage])
  rw [ThreadOp.code, read_bind, hspot, statement, bind_ok hcurrent,
    bind_ok (recordExit_quiet hblocked)]
  rfl

theorem exitRegion_touches (hstage : k.stage t = ⟨some p, .exitRegion b⟩) :
    ¬ Untouched p (ThreadOp.step t).code k := by
  intro h
  -- another process is in the slot, and runs
  obtain ⟨s, hblocked, hrunning⟩ : ∃ s : Process ι, s.blocked = false ∧ s.running = true :=
    ⟨{ k.slot p with blocked := false, running := true }, rfl, rfl⟩
  have hs := h s
  have hregion := exitRegion_run (k := setSlot p (fun _ => s) k) hstage
    (by rw [slot_setSlot, if_pos rfl, hblocked])
  rw [hregion] at hs
  cases hrun : (ThreadOp.step t).code.run k with
  | error e =>
    rw [hrun] at hs
    cases hs
  | ok r =>
    rw [hrun] at hs
    have hstate := (Prod.mk.inj (Except.ok.inj hs)).2
    have hslot := congrArg (fun k : Threads ι => (k.slot p).running) hstate
    simp [slot_setSlot, hrunning] at hslot

/-! ### Where the slot has been given back -/

/-- The thread is in `process_table_free` for its own slot, or past it. -/
def Spot.IsOwn : Spot ι → Prop
  | .freeMark _ .own | .freeRemove _ .own | .freePush _ .own | .exitRegion true => True
  | _ => False

/-- No thread gives back its own slot. -/
def NoOwn (k : Threads ι) : Prop := ∀ t, ¬ Spot.IsOwn (k.spot t)

theorem NoOwn.goto (h : NoOwn k) {s : Spot ι} (hs : ¬ Spot.IsOwn s) : NoOwn (goto t s k) := by
  intro u
  rw [spot_goto]
  split_ifs
  · exact hs
  · exact h u

section

omit [DecidableEq ι]

/-- A thread that is woken up goes on after its own region. -/
theorem wake_notOwn (h : task.wake = some task') : ¬ Spot.IsOwn task'.spot := by
  rw [ProcThread.wake] at h
  split at h <;> cases h <;> exact id

theorem Goes.notOwn (h : Goes k t (k.spot t) pt') (hown : ¬ Spot.IsOwn (k.spot t))
    (hparent : k.hasParent t = true) : ¬ Spot.IsOwn pt' := by
  generalize hpt : k.spot t = pt at h hown
  cases h with
  | remove | push =>
    rename_i why
    cases why <;> exact hown
  | orphan hpid hnone =>
    -- the one statement that leads to the process's own slot
    rename_i p
    have hstage : k.stage t = ⟨some p, .exitOrphan⟩ := by
      rw [← hpid, ← hpt]
      rfl
    rw [hasParent, hstage] at hparent
    exact absurd hnone (of_decide_eq_true hparent)
  | _ => exact id

theorem Writes.notOwn (h : Writes k t pt pt' c s) (hown : ¬ Spot.IsOwn pt) : ¬ Spot.IsOwn pt' := by
  cases h with
  | load | ptr => split_ifs <;> exact id
  | free =>
    rename_i why
    cases why <;> exact hown
  | _ => exact id

end

/-- One statement, by a thread that has a parent when it comes to the test for that. -/
theorem NoOwn.effect (h : NoOwn k) (hparent : k.hasParent t = true) (he : Effect k t k') :
    NoOwn k' := by
  intro u
  by_cases hu : u = t
  · subst hu
    cases he with
    | goes _ hgoes => exact hgoes.notOwn (h u) hparent
    | writes _ hwrites | wakes _ hwrites => exact hwrites.notOwn (h u)
  · cases he with
    | goes _ _ _ hstage | writes _ _ _ _ hstage =>
      rw [spot, hstage u hu]
      exact h u
    | wakes _ _ _ _ _ _ hwake _ hstage =>
      rw [spot, hstage u hu]
      split_ifs
      · exact wake_notOwn hwake
      · exact h u

/-- One operation. -/
theorem NoOwn.step {op : ThreadOp ι} (h : NoOwn k) (hsteps : (threads ι).Steps op k k')
    (hparent : op.HasParent k) : NoOwn k' := by
  suffices hcode : Ensures op.code k (fun _ k' => NoOwn k') from hcode () k' hsteps.run
  cases op with
  | request t r =>
    cases r with
    | exec copied =>
      refine ensures_update.mpr (h.goto ?_)
      split_ifs <;> exact id
    | wait childId | exit code => exact ensures_update.mpr (h.goto id)
  | create t u =>
    rw [ThreadOp.code, ensures_get]
    split
    · cases u with
      | none => exact ensures_update.mpr (h.goto id)
      | some u =>
        rw [Threads.create, ensures_put, ensures_update]
        refine NoOwn.goto (fun v => ?_) id
        rw [spot, stage_setStage]
        split_ifs
        · exact id
        · exact h v
    · exact ensures_stop
  | load t success => exact ensures_update.mpr (h.goto id)
  | step t =>
    rw [ThreadOp.code, ensures_get]
    exact statement_effect.mono (fun _ _ he => h.effect hparent he)

theorem Boot.noOwn {t₀ : ι} (h : Boot k t₀) : NoOwn k := by
  intro t
  rw [spot, h.stage]
  split_ifs <;> exact id

end Threads

/-- In every run in which the processes that exit have a parent, none uses a slot that it has given
    back.  One that has given back its slot always does. -/
theorem exit_keeps_off {ι : Type} [DecidableEq ι] {t₀ : ι} {k₀ k : Threads ι} (hboot : k₀.Boot t₀) :
    ((threads ι).Run ThreadOp.HasParent k₀ k → k.KeepsOff) ∧
      ∀ t p, k.stage t = ⟨some p, .exitRegion true⟩ → ¬ k.KeepsOff := by
  constructor
  · intro hrun t p hstage
    have hnone : k.NoOwn := by
      refine hrun.invariant (I := Threads.NoOwn) (fun op s s' hs hsteps hparent => ?_) hboot.noOwn
      exact hs.step hsteps hparent
    have hown := hnone t
    rw [spot, hstage] at hown
    exact absurd trivial hown
  · intro t p hstage hkeeps
    exact exitRegion_touches hstage (hkeeps t p hstage)

/-- The state after `process_init`. -/
def Threads.booted {ι : Type} [DecidableEq ι] (t₀ : ι) : Threads ι where
  table := final (Table.processInit t₀) Table.zeroed
  stage t := if t = t₀ then ⟨some initPid, .user .none⟩ else ⟨none, .absent⟩

theorem boot_booted_threads : (booted (0 : Fin 4)).Boot 0 := by
  have hok : outcome (Table.processInit (0 : Fin 4)) Table.zeroed = .ok () := by decide +kernel
  refine ⟨?_, fun _ => rfl⟩
  simp only [booted]
  exact run_of_outcome hok

instance {ι : Type} (k : Threads ι) : (op : ThreadOp ι) → Decidable (op.HasParent k)
  | .step t => inferInstanceAs (Decidable (k.hasParent t = true))
  | .request .. | .create .. | .load .. => .isTrue trivial

/-- The thread `t` executes a program, whose process is `u`, and it is loaded. -/
def execOps (t u : Fin 4) : List (ThreadOp (Fin 4)) :=
  [.request t (.exec true), .step t, .step t, .create t (some u), .step t, .step t, .step t,
    .load u true, .step u, .step u, .step t, .step t]

/-- The thread `t`, which has no children, exits, up to the test for a dead parent. -/
def exitOps (t : Fin 4) (code : Int) : List (ThreadOp (Fin 4)) :=
  [.request t (.exit code), .step t, .step t]

theorem exit_keeps_off_child :
    let k := (threads (Fin 4)).after (execOps 0 1 ++ exitOps 1 7 ++ [.step 1]) (booted 0)
    (threads (Fin 4)).Run ThreadOp.HasParent (booted 0) k ∧
      k.stage 1 = ⟨some 1, .exitRegion false⟩ ∧ k.KeepsOff := by
  intro k
  have hrun : (threads (Fin 4)).Run ThreadOp.HasParent (Threads.booted 0) k :=
    Machine.run_of_allows (by decide +kernel)
  exact ⟨hrun, by decide +kernel, (exit_keeps_off boot_booted_threads).1 hrun⟩

/-- Thread `1` executes `2` and exits, and `2`, which has no parent any more, exits up to its last
    region.  Then `3` gets the slot of `2`, and `0` waits for it. -/
def orphanOps : List (ThreadOp (Fin 4)) :=
  execOps 0 1 ++ execOps 1 2 ++
    [.request 1 (.exit 0), .step 1, .step 1, .step 1, .step 1, .step 1, .step 1, .step 1, .step 1,
      .step 1] ++
    exitOps 2 5 ++ [.step 2, .step 2, .step 2, .step 2] ++ execOps 0 3 ++
    [.request 0 (.wait 2), .step 0, .step 0]

/-- The last region of `process_exit` of `2` clears the `running` of `3`, which is in its program, and
    wakes up `0`, which waits for `3`. -/
theorem orphan_exit_stops_reused_slot : let k := (threads (Fin 4)).after orphanOps (booted 0)
    let k' := (threads (Fin 4)).after [.step 2] k
    (threads (Fin 4)).Run (fun _ _ => True) (booted 0) k ∧
      k.stage 2 = ⟨some 2, .exitRegion true⟩ ∧ k.stage 3 = ⟨some 2, .user .none⟩ ∧
      k.spot 0 = .waitAsleep 2 ∧ (k.slot 2).running = true ∧
      k'.stage 3 = ⟨some 2, .user .none⟩ ∧ k'.spot 0 = .waitRead 2 ∧
      (k'.slot 2).running = false ∧ ¬ k.KeepsOff := by
  intro k k'
  obtain ⟨horphan, hrest⟩ : k.stage 2 = ⟨some 2, .exitRegion true⟩ ∧
      k.stage 3 = ⟨some 2, .user .none⟩ ∧ k.spot 0 = .waitAsleep 2 ∧
      (k.slot 2).running = true ∧ k'.stage 3 = ⟨some 2, .user .none⟩ ∧
      k'.spot 0 = .waitRead 2 ∧ (k'.slot 2).running = false := by decide +kernel
  refine ⟨Machine.run_of_allows (by decide +kernel), horphan, hrest.1, hrest.2.1, hrest.2.2.1,
    hrest.2.2.2.1, hrest.2.2.2.2.1, hrest.2.2.2.2.2, fun hkeeps => ?_⟩
  exact Threads.exitRegion_touches horphan (hkeeps 2 2 horphan)

end KernelSanders
