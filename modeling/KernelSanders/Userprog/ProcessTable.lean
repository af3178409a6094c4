import KernelSanders.Lib.Intrusive

namespace KernelSanders

open Lib
open Lib.Exec hiding update
open Function
open List

/-!
# `userprog/process.c` — the process table

The slots of the process table with the links of `free_list` and of the `children` lists.  A slot has
one `elem`, which is on `free_list` while the slot is not in use, and afterwards on the `children`
list of the process that executed it.

The fields of `struct process` that have to do with a process's lifetime are here, and its working
directory.  A `pid_t` that is a slot is a `Pid`, and `-1` is `none`.
-/

/-- `MAX_PROCESSES`. -/
abbrev maxProcesses : Nat := 512

abbrev Pid := Fin maxProcesses

instance : NeZero maxProcesses := ⟨by decide⟩

/-- `INIT_PID`. -/
def initPid : Pid := 0

/-- `struct process`.  `ι` are the threads, and a `struct dir` is known by the sector of its inode. -/
structure Process (ι : Type) where
  threadPtr : Option ι
  parentPid : Option Pid
  workingDir : Option Nat
  returnCode : Int
  running : Bool
  valid : Bool
  blocked : Bool
  loaded : Bool
  loadSuccess : Bool

/-- The lists: `children` of a slot, and `free_list`. -/
abbrev ProcessList := Option Pid

abbrev freeList : ProcessList := none

abbrev children (p : Pid) : ProcessList := some p

/-- `process_table` and the links of its lists. -/
structure Table (ι : Type) where
  slot : Pid → Process ι
  links : Links Pid ProcessList

namespace Table

variable {ι : Type}

/-- Change a slot. -/
def setSlot (p : Pid) (f : Process ι → Process ι) (k : Table ι) : Table ι :=
  { k with slot := update k.slot p (f (k.slot p)) }

def onLinks {α : Type} (x : Exec (Links Pid ProcessList) α) : Exec (Table ι) α :=
  zoom Table.links (fun L k => { k with links := L }) x

/-! ### Slots -/

/-- What `process_table_get` writes into the slot that it hands out to a process `parent`. -/
def fresh (parent : Option Pid) (s : Process ι) : Process ι :=
  { s with valid := true, blocked := false, running := false, loaded := false, parentPid := parent }

/-- The region of `process_table_get`, by a thread whose pid is `parent`. -/
def takeSlot (parent : Option Pid) : Exec (Table ι) Pid := do
  let e ← onLinks (Links.popBack freeList)
  match e with
  | .elem p => do
    let valid ← read (fun k => (k.slot p).valid)
    assert (valid = false) "!p->valid"
    Exec.update (setSlot p (fresh parent))
    onLinks (Links.init (children p))
    pure p
  -- a node of a list itself is no process
  | _ => stop .fault

/-- `process_table_get`. -/
def processTableGet (parent : Option Pid) : Exec (Table ι) (Option Pid) := do
  let empty ← read (fun k => k.links.isEmpty freeList)
  if empty then pure none
  else do
    let p ← takeSlot parent
    pure (some p)

/-- The slot is not in use any more. -/
def markFree (p : Pid) : Exec (Table ι) Unit := do
  let valid ← read (fun k => (k.slot p).valid)
  assert (valid = true) "p->valid"
  Exec.update (setSlot p (fun s => { s with valid := false }))

/-- `process_table_free`. -/
def processTableFree (p : Pid) : Exec (Table ι) Unit := do
  markFree p
  onLinks (Links.remove (.elem p))
  onLinks (Links.pushBack freeList p)

/-- The loop of `process_exit` over the children, from `e` on: a child that runs is told that its
    parent is dead, and the slot of another is freed.  The loop goes on from the link of the child,
    also if the slot is on `free_list` by then.  A list cannot have more turns than there are
    slots. -/
def informFrom (p : Pid) : Nat → Node Pid ProcessList → Exec (Table ι) Unit
  | 0, _ => stop .fuel
  | n + 1, e =>
    if e = .tail (children p) then pure ()
    else
      match e with
      | .elem c => do
        let running ← read (fun k => (k.slot c).running)
        if running then Exec.update (setSlot c (fun s => { s with parentPid := none }))
        else processTableFree c
        let next ← onLinks (Links.listNext e)
        informFrom p n next
      -- the end of another list, which is no process
      | _ => stop .fault

/-- `process_exit` up to the end of the loop over the children. -/
def informChildren (p : Pid) : Exec (Table ι) Unit := do
  let empty ← read (fun k => k.links.isEmpty (children p))
  if empty then pure ()
  else do
    let begin ← read (fun k => k.links.next (.head (children p)))
    match begin with
    | none => stop .fault
    | some e => informFrom p (maxProcesses + 1) e

/-- A process without a parent frees its own slot in `process_exit`. -/
def freeOrphan (p : Pid) : Exec (Table ι) Unit := do
  let parent ← read (fun k => (k.slot p).parentPid)
  if parent = none then processTableFree p else pure ()

/-! ### Starting -/

/-- The memory of the table before `process_init`. -/
def zeroed : Table ι where
  slot _ := {
    threadPtr := none
    parentPid := some 0
    workingDir := none
    returnCode := 0
    running := false
    valid := false
    blocked := false
    loaded := false
    loadSuccess := false }
  links := { prev := fun _ => none, next := fun _ => none }

/-- The loop of `process_init`, over the slots in the order of the loop. -/
def putEach : List Pid → Exec (Table ι) Unit
  | [] => pure ()
  | p :: ps => do
    Exec.update (setSlot p (fun s => { s with valid := false }))
    onLinks (Links.pushBack freeList p)
    putEach ps

/-- `process_init` by the initial thread `t`, whose pid is `-1` before. -/
def processInit (t : ι) : Exec (Table ι) Unit := do
  onLinks (Links.init freeList)
  putEach (finRange maxProcesses).reverse
  let pid ← processTableGet none
  assert (pid = some initPid) "pid == INIT_PID"
  Exec.update (setSlot initPid (fun s => { s with threadPtr := some t }))

/-! ### What the operations do

`Kept` is the invariant of the lists: the links of the live lists are those of `queue`, each slot is
on at most one of them, and the slots on `free_list` are the ones that are not in use. -/

/-- The lists are as `queue` says, which has each slot where `house` says. -/
structure Kept (k : Table ι) (live : ProcessList → Prop) (queue : ProcessList → List Pid)
    (house : Pid → Option ProcessList) : Prop where
  represents : k.links.Represents live queue
  housed : Housed queue house
  free : live freeList
  valid : ∀ p, (k.slot p).valid = false ↔ house p = some freeList

section Effects

variable {k : Table ι} {live : ProcessList → Prop} {queue : ProcessList → List Pid}
  {house : Pid → Option ProcessList} {p : Pid}

theorem setSlot_slot (p : Pid) (f : Process ι → Process ι) (k : Table ι) (c : Pid) :
    (setSlot p f k).slot c = if c = p then f (k.slot p) else k.slot c :=
  update_apply ..

/-- A slot that is changed again. -/
theorem setSlot_of_update {slot : Pid → Process ι} {s : Process ι} (f : Process ι → Process ι)
    (h : k.slot = update slot p s) :
    (setSlot p f k).slot = update slot p (f s) := by
  show update k.slot p (f (k.slot p)) = _
  rw [h, update_self, update_idem]

section

variable (h : Kept k live queue house)
include h

/-- The lists do not depend on anything else in the slots. -/
theorem Kept.congr {k' : Table ι} (hlinks : k'.links = k.links)
    (hvalid : ∀ c, (k'.slot c).valid = (k.slot c).valid) : Kept k' live queue house := by
  refine ⟨hlinks ▸ h.represents, h.housed, h.free, fun c => ?_⟩
  rw [hvalid]
  exact h.valid c

/-- A change of a slot that leaves it in use or not as it was. -/
theorem Kept.setSlot (p : Pid) {f : Process ι → Process ι}
    (hf : (f (k.slot p)).valid = (k.slot p).valid) : Kept (setSlot p f k) live queue house := by
  refine h.congr rfl (fun c => ?_)
  rw [setSlot_slot]
  split_ifs with hc
  · rw [hf, hc]
  · rfl

/-- A slot that is freed is not in use and on `free_list`. -/
theorem Kept.freed (p c : Pid) :
    ((Table.setSlot p (fun s => { s with valid := false }) k).slot c).valid = false ↔
      update house p (some freeList) c = some freeList := by
  rw [setSlot_slot, update_apply]
  split_ifs with hc
  · simp
  · exact h.valid c

/-- `process_table_free` moves a slot that is on a list to `free_list`. -/
theorem processTableFree_ensures {q : ProcessList} (hq : house p = some q) (hlive : live q) :
    Ensures (processTableFree p) k (fun _ k' => ∃ queue',
      Kept k' live queue' (update house p (some freeList)) ∧
        k'.slot = update k.slot p { k.slot p with valid := false } ∧
        k'.links.next (.elem p) = some (.tail freeList)) := by
  rw [processTableFree, ensures_bind, markFree, ensures_get, ensures_check]
  intro _
  rw [ensures_update, ensures_bind, onLinks, ensures_zoom]
  refine (h.represents.remove h.housed hlive hq).mono (fun _ L₁ hL₁ => ?_)
  have hh₁ := h.housed.remove hq
  rw [onLinks, ensures_zoom]
  refine (hL₁.pushBack hh₁ h.free (update_self ..)).mono (fun _ L₂ hL₂ => ?_)
  have hh₂ := hh₁.push (q := freeList) (update_self ..)
  rw [update_idem] at hh₂
  exact ⟨_, ⟨hL₂.1, hh₂, h.free, h.freed p⟩, rfl, hL₂.2⟩

/-- A slot that is on no list becomes a child of `p`. -/
theorem pushChild_ensures {c : Pid} (hlive : live (children p)) (hc : house c = none) :
    Ensures (onLinks (Links.pushBack (children p) c)) k (fun _ k' => k'.slot = k.slot ∧
      ∃ queue', Kept k' live queue' (update house c (some (children p)))) := by
  rw [onLinks, ensures_zoom]
  refine (h.represents.pushBack h.housed hlive hc).mono (fun _ L hL => ?_)
  refine ⟨rfl, _, hL.1, h.housed.push hc, h.free, fun d => ?_⟩
  show (k.slot d).valid = false ↔ _
  rw [h.valid, update_apply]
  split_ifs with hd
  · simp [hd, hc]
  · rfl

/-- A slot that has just been taken off `free_list`, and is on no list, goes back. -/
theorem processTableFree_stale (hp : house p = none)
    (hnext : k.links.next (.elem p) = some (.tail freeList))
    (hprev : k.links.prev (.elem p) = k.links.prev (.tail freeList)) :
    Ensures (processTableFree p) k (fun _ k' => ∃ queue',
      Kept k' live queue' (update house p (some freeList)) ∧
        k'.slot = update k.slot p { k.slot p with valid := false }) := by
  rw [processTableFree, ensures_bind, markFree, ensures_get, ensures_check]
  intro _
  rw [ensures_update, ensures_bind, onLinks, ensures_zoom]
  have hfree := h.represents.holds freeList h.free
  refine (hfree.remove_stale hnext hprev).mono (fun _ L₁ hL₁ => ?_)
  rw [onLinks, ensures_zoom]
  show Ensures _ L₁ _
  rw [hL₁]
  refine (h.represents.pushBack h.housed h.free hp).mono (fun _ L₂ hL₂ => ?_)
  exact ⟨_, ⟨hL₂.1, h.housed.push hp, h.free, h.freed p⟩, rfl⟩

end

/-- Whatever the links are, only the slot that is handed out is written. -/
theorem takeSlot_slot (k : Table ι) (parent : Option Pid) :
    Ensures (takeSlot parent) k (fun p k' => (k.slot p).valid = false ∧
      k'.slot = update k.slot p (fresh parent (k.slot p))) := by
  rw [takeSlot, ensures_bind, onLinks, ensures_zoom]
  intro e L _
  cases e with
  | elem p =>
    simp only [onLinks, ensures_bind, ensures_read, ensures_assert, ensures_update, ensures_zoom,
      ensures_pure]
    exact fun hvalid _ _ _ => ⟨hvalid, rfl⟩
  | head q | tail q => exact ensures_stop

/-- What is done to the links leaves the slots alone. -/
theorem onLinks_slot {α : Type} (x : Exec (Links Pid ProcessList) α) :
    Ensures (onLinks x) k (fun _ k' => k'.slot = k.slot) := by
  rw [onLinks, ensures_zoom]
  exact fun _ _ _ => rfl

/-- The slot `p` has been taken off `free_list`, which its own links still lead to, and its list of
    children emptied. -/
def Taken (k : Table ι) (live : ProcessList → Prop) (house : Pid → Option ProcessList)
    (parent : Option Pid) (p : Pid) (k' : Table ι) : Prop :=
  house p = some freeList ∧
    (k.slot p).valid = false ∧ k'.slot = update k.slot p (fresh parent (k.slot p)) ∧
    k'.links.next (.elem p) = some (.tail freeList) ∧
    k'.links.prev (.elem p) = k'.links.prev (.tail freeList) ∧
    ∃ queue', Kept k' (fun q => q = children p ∨ live q) queue' (fun c =>
      if c = p ∨ house c = some (children p) then none else house c)

theorem takeSlot_ensures (h : Kept k live queue house) (parent : Option Pid) :
    Ensures (takeSlot parent) k (Taken k live house parent) := by
  rw [takeSlot, ensures_bind, onLinks, ensures_zoom]
  refine (h.represents.popBack h.housed h.free).mono (fun e L₁ hL₁ => ?_)
  obtain ⟨ys, p, hys, rfl, hrep, hn, hp⟩ := hL₁
  have hfree : house p = some freeList := by
    rw [← h.housed.mem, hys]
    simp
  have hh₁ := h.housed.remove hfree
  simp only [onLinks, ensures_bind, ensures_read, ensures_assert, ensures_update, ensures_zoom,
    ensures_pure]
  intro hvalid
  refine (hrep.init (children p)).mono (fun _ L₂ hL₂ => ⟨hfree, hvalid, rfl, ?_⟩)
  have hh₂ := hh₁.clear (children p)
  -- the slot's own links still point to the end of `free_list`
  have helem := hL₂.2 (.elem p) (by simp) (by simp)
  have htail := hL₂.2 (.tail freeList) (by simp) (by simp)
  refine ⟨helem.2.trans hn, ?_, _, ⟨hL₂.1, ?_, .inr h.free, fun c => ?_⟩⟩
  · show L₂.prev (.elem p) = L₂.prev (.tail freeList)
    rw [helem.1, htail.1]
    exact hp
  · have hhouse : (fun c => if c = p ∨ house c = some (children p) then none else house c)
        = fun c => if update house p none c = some (children p) then none
          else update house p none c := by
      funext c
      rw [update_apply]
      by_cases hc : c = p
      · simp [hc]
      · simp [hc]
    rw [hhouse]
    exact hh₂
  · show ((Table.setSlot p (fresh parent) k).slot c).valid = false ↔ _
    rw [setSlot_slot]
    by_cases hc : c = p
    · rw [if_pos hc, if_pos (.inl hc)]
      simp [fresh]
    · rw [if_neg hc, h.valid]
      split_ifs with hcond
      · have hchild := hcond.resolve_left hc
        rw [hchild]
        simp
      · rfl

/-- `process_table_get` hands out a slot, unless there is none. -/
theorem processTableGet_ensures (h : Kept k live queue house) (parent : Option Pid) :
    Ensures (processTableGet parent) k (fun r k' =>
      (r = none ∧ k' = k) ∨ ∃ p, r = some p ∧ Taken k live house parent p k') := by
  rw [processTableGet, ensures_get]
  split_ifs
  · exact ensures_pure.mpr (.inl ⟨rfl, rfl⟩)
  · refine (takeSlot_ensures h parent).bind (fun p k' hk' => ?_)
    exact ensures_pure.mpr (.inr ⟨p, rfl, hk'⟩)

/-- The loop over the children of a process that exits.  It comes to its end exactly if all children
    run, which are then without a parent: from the slot of a child that it frees it goes on to
    `free_list`. -/
theorem informFrom_meets (n : Nat) (cs : List Pid) (before : Node Pid ProcessList)
    (h : Kept k live queue house) (hlive : live (children p))
    (hcs : ∀ c ∈ cs, house c = some (children p)) (hnodup : cs.Nodup) (hn : cs.length < n)
    (hchain : (before :: Links.rest (children p) cs).IsChain k.links.Link) :
    Meets (informFrom p n (Links.start (children p) cs)) k
      (fun _ k' => k'.links = k.links ∧ (∀ c ∈ cs, (k.slot c).running = true) ∧
        ∀ c, k'.slot c = if c ∈ cs then { k.slot c with parentPid := none } else k.slot c)
      (fun _ => ∃ c ∈ cs, (k.slot c).running ≠ true) := by
  induction cs generalizing n before k with
  | nil =>
    obtain ⟨n, rfl⟩ := Nat.exists_eq_add_one_of_ne_zero (Nat.ne_zero_of_lt hn)
    rw [Links.start, informFrom, if_pos rfl]
    · exact ⟨rfl, nofun, fun c => by simp⟩
    · nofun
  | cons c cs ih =>
    obtain ⟨n, rfl⟩ := Nat.exists_eq_add_one_of_ne_zero (Nat.ne_zero_of_lt hn)
    obtain ⟨hnot, hnodup⟩ := nodup_cons.mp hnodup
    obtain ⟨hlink, hrest⟩ := isChain_cons_cons.mp hchain
    obtain ⟨hnext, -⟩ := Links.next_start hrest
    rw [Links.start, informFrom, if_neg nofun, meets_get]
    by_cases hrun : (k.slot c).running = true
    · have hstep : (onLinks (Links.listNext (.elem c))).run
          (setSlot c (fun s => { s with parentPid := none }) k) = .ok (Links.start (children p) cs,
            setSlot c (fun s => { s with parentPid := none }) k) :=
        zoom_ok (Links.listNext_run hlink.2 hnext)
      have hsame : ∀ d, ((setSlot c (fun s => { s with parentPid := none }) k).slot d).running
          = (k.slot d).running := by
        intro d
        rw [setSlot_slot]
        split_ifs with hdc
        · rw [hdc]
        · rfl
      rw [if_pos hrun, meets_put, meets_step hstep]
      have hkept := h.setSlot c (f := fun s => { s with parentPid := none }) rfl
      refine (ih n (.elem c) hkept (fun d hd => hcs d (mem_cons_of_mem c hd)) hnodup
        (Nat.lt_of_succ_lt_succ hn) hrest).mono (fun _ k' hk' => ⟨hk'.1, ?_, fun d => ?_⟩) ?_
      · exact forall_mem_cons.mpr ⟨hrun, fun d hd => hsame d ▸ hk'.2.1 d hd⟩
      · rw [hk'.2.2 d, setSlot_slot]
        by_cases hdc : d = c
        · simp [hdc, hnot]
        · simp [hdc]
      · rintro _ ⟨d, hd, hstops⟩
        exact ⟨d, mem_cons_of_mem c hd, hsame d ▸ hstops⟩
    · -- the child's link leads to the end of `free_list`, where there is no process
      refine Ensures.meets ?_ (fun _ => ⟨c, mem_cons_self, hrun⟩)
      rw [if_neg hrun, ensures_bind]
      refine (processTableFree_ensures h (hcs c mem_cons_self) hlive).mono (fun _ k₁ hk₁ => ?_)
      obtain ⟨queue', hkept, -, hlast⟩ := hk₁
      rw [ensures_bind, onLinks, ensures_zoom]
      refine (Links.listNext_ensures (.elem c) k₁.links).mono (fun e L hL => ?_)
      rw [hlast] at hL
      obtain ⟨-, he⟩ := hL
      cases he
      cases n with
      | zero => exact ensures_stop
      | succ n =>
        rw [informFrom, if_neg nofun]
        · exact ensures_stop
        · nofun

/-- What a process does to its children when it exits. -/
theorem informChildren_meets (h : Kept k live queue house) (hlive : live (children p)) :
    Meets (informChildren p) k
      (fun _ k' => k'.links = k.links ∧
        (∀ c, house c = some (children p) → (k.slot c).running = true) ∧
        ∀ c, k'.slot c = if house c = some (children p) then { k.slot c with parentPid := none }
          else k.slot c)
      (fun _ => ∃ c ∈ queue (children p), (k.slot c).running ≠ true) := by
  have hholds := h.represents.holds _ hlive
  have hmem : ∀ c, c ∈ queue (children p) ↔ house c = some (children p) :=
    fun c => h.housed.mem (children p) c
  have hlength : (queue (children p)).length < maxProcesses + 1 := by
    have := (h.housed.nodup (children p)).length_le_card
    rw [Fintype.card_fin] at this
    omega
  rw [informChildren, meets_get]
  split_ifs with hempty
  · rw [Links.isEmpty, decide_eq_true_eq] at hempty
    have hnil := hholds.eq_nil hempty
    have hnone : ∀ c, house c ≠ some (children p) := by
      intro c hc
      rw [← hmem, hnil] at hc
      cases hc
    exact ⟨rfl, fun c hc => absurd hc (hnone c), fun c => by rw [if_neg (hnone c)]⟩
  · rw [meets_get, hholds.next_head]
    refine (informFrom_meets _ _ _ h hlive (fun c hc => (hmem c).mp hc) (h.housed.nodup _) hlength
      hholds.chain).mono (fun _ k' hk' => ⟨hk'.1, fun c hc => ?_, fun c => ?_⟩) (fun _ hc => hc)
    · exact hk'.2.1 c ((hmem c).mpr hc)
    · rw [hk'.2.2 c]
      simp only [hmem]

/-! ### All the children of a process that exits -/

/-- What the loop is to make of the slot of a child. -/
def informed (s : Process ι) : Process ι :=
  if s.running then { s with parentPid := none } else { s with valid := false }

/-- The loop of `process_exit` comes to its end, with each of the children `cs` treated once: those
    that run stay children, and the others are on `free_list` behind the slots `free` that were on
    it. -/
def TreatsEach (k : Table ι) (p : Pid) (cs free : List Pid) : Prop :=
  Returns (informChildren p) k (fun _ k' =>
    (∀ c, k'.slot c = if c ∈ cs then informed (k.slot c) else k.slot c) ∧
      k'.links.Holds (children p) (cs.filter (fun c => (k.slot c).running)) ∧
      k'.links.Holds freeList (free ++ cs.filter (fun c => !(k.slot c).running)))

/-- The loop treats each child once exactly if all of them run. -/
theorem exit_treats_each (h : Kept k live queue house) (hlive : live (children p)) :
    TreatsEach k p (queue (children p)) (queue freeList) ↔
      ∀ c ∈ queue (children p), (k.slot c).running = true := by
  have hmem : ∀ c, c ∈ queue (children p) ↔ house c = some (children p) :=
    fun c => h.housed.mem (children p) c
  constructor
  · rintro ⟨_, k', hrun, -⟩ c hc
    exact ((informChildren_meets h hlive).ensures _ _ hrun).2.1 c ((hmem c).mp hc)
  · intro hrun
    refine ((informChildren_meets h hlive).returns (fun _ ⟨c, hc, hn⟩ => hn (hrun c hc))).mono
      (fun _ k' hk' => ?_)
    obtain ⟨hlinks, -, hslot⟩ := hk'
    have hstay : (queue (children p)).filter (fun c => (k.slot c).running) = queue (children p) :=
      filter_eq_self.mpr hrun
    have hgone : (queue (children p)).filter (fun c => !(k.slot c).running) = [] :=
      filter_eq_nil_iff.mpr (fun c hc => by simp [hrun c hc])
    rw [hstay, hgone, append_nil, hlinks]
    refine ⟨fun c => ?_, h.represents.holds _ hlive, h.represents.holds _ h.free⟩
    rw [hslot c]
    simp only [← hmem]
    split_ifs with hc
    · rw [informed, if_pos (hrun c hc)]
    · rfl

/-- The process 0 with the children 1 and 2, of which the second runs. -/
def family (running : Bool) : Table Unit where
  slot p := ⟨none, some 0, none, 0, p ≠ 1 || running, true, false, true, true⟩
  links :=
    { prev := fun
        | .elem 1 => some (.head (children 0))
        | .elem 2 => some (.elem 1)
        | .tail (some 0) => some (.elem 2)
        | .tail none => some (.head freeList)
        | _ => none
      next := fun
        | .head (some 0) => some (.elem 1)
        | .elem 1 => some (.elem 2)
        | .elem 2 => some (.tail (children 0))
        | .head none => some (.tail freeList)
        | _ => none }

/-- The lists of the family. -/
def familyQueue (q : ProcessList) : List Pid := if q = children 0 then [1, 2] else []

theorem kept_family (running : Bool) :
    Kept (family running) (fun q => q = children 0 ∨ q = freeList) familyQueue
      (fun p => if p = 1 ∨ p = 2 then some (children 0) else none) where
  represents := by
    refine ⟨?_, fun q hq => ?_⟩
    · rintro q (rfl | rfl)
      · exact ⟨rfl, rfl, by simp [familyQueue, Links.path, Links.Link, family]⟩
      · exact ⟨rfl, rfl, by simp [familyQueue, Links.path, Links.Link, family]⟩
    · obtain ⟨hp, hfree⟩ := not_or.mp hq
      cases q with
      | none => exact absurd rfl hfree
      | some p =>
        have hne : p ≠ 0 := fun hp0 => hp (congrArg some hp0)
        simp only [family]
        split <;> simp_all
  housed := by
    refine ⟨fun q => ?_, fun q c => ?_⟩
    · unfold familyQueue
      split_ifs <;> decide
    · unfold familyQueue
      split_ifs with hq hc hc <;> simp_all [eq_comm]
  free := Or.inr rfl
  valid p := by
    simp only [family, Bool.true_eq_false, false_iff]
    split_ifs <;> simp

theorem exit_treats_each_family : (∀ c ∈ familyQueue (children 0),
    ((family true).slot c).running = true) ∧ TreatsEach (family true) 0 [1, 2] [] :=
  have hrun : ∀ c ∈ familyQueue (children 0), ((family true).slot c).running = true :=
    fun c _ => by simp [family]
  ⟨hrun, (exit_treats_each (kept_family true) (.inl rfl)).mpr hrun⟩

/-- From the first child, which has exited, the loop goes on to the end of `free_list`. -/
theorem exit_leaves_list : outcome (informChildren 0) (family false) = .error .fault ∧
    ¬ TreatsEach (family false) 0 [1, 2] [] := by
  have hfault : outcome (informChildren 0) (family false) = .error .fault := by decide +kernel
  refine ⟨hfault, ?_⟩
  rintro ⟨_, _, hrun, -⟩
  rw [outcome, hrun] at hfault
  cases hfault

/-- A process that is on a list and has no parent gives its slot back. -/
theorem freeOrphan_ensures (h : Kept k live queue house)
    (hp : (k.slot p).parentPid = none → ∃ q, house p = some q ∧ live q) :
    Ensures (freeOrphan p) k (fun _ k' => (∃ queue', Kept k' live queue' (fun c =>
        if c = p ∧ (k.slot p).parentPid = none then some freeList else house c)) ∧
      ∀ c, k'.slot c = if c = p ∧ (k.slot p).parentPid = none
        then { k.slot p with valid := false } else k.slot c) := by
  rw [freeOrphan, ensures_get]
  split_ifs with hparent
  · obtain ⟨q, hq, hlive⟩ := hp hparent
    refine (processTableFree_ensures h hq hlive).mono (fun _ k' hk' => ?_)
    obtain ⟨queue', hkept, hslot, -⟩ := hk'
    have hhouse : (fun c => if c = p ∧ (k.slot p).parentPid = none then some freeList else house c)
        = update house p (some freeList) := by
      funext c
      simp [update_apply, hparent]
    rw [hhouse, hslot]
    exact ⟨⟨queue', hkept⟩, fun c => by simp [update_apply, hparent]⟩
  · simp only [ensures_pure, hparent, and_false, if_false, implies_true, and_true]
    exact ⟨queue, h⟩

/-! ### The table after `process_init` -/

/-- The loop of `process_init` puts the slots on `free_list`. -/
theorem putEach_ensures (ps : List Pid) (hr : k.links.Represents (· = freeList) queue)
    (hh : Housed queue house) (hps : ∀ p ∈ ps, house p = none) (hnodup : ps.Nodup) :
    Ensures (putEach ps) k (fun _ k' => ∃ queue', k'.links.Represents (· = freeList) queue' ∧
      Housed queue' (fun p => if p ∈ ps then some freeList else house p) ∧
      ∀ p, p ∈ ps ∨ (k.slot p).valid = false → (k'.slot p).valid = false) := by
  induction ps generalizing k queue house with
  | nil =>
    rw [putEach, ensures_pure]
    refine ⟨queue, hr, ?_, fun p hp => hp.resolve_left nofun⟩
    simpa using hh
  | cons p ps ih =>
    obtain ⟨hnot, hnodup⟩ := nodup_cons.mp hnodup
    have hp : house p = none := hps p mem_cons_self
    rw [putEach, ensures_put, ensures_bind, onLinks, ensures_zoom]
    refine (hr.pushBack hh rfl hp).mono (fun _ L hL => ?_)
    have hrest : ∀ q ∈ ps, update house p (some freeList) q = none := by
      intro q hq
      have hqp : q ≠ p := fun hqp => hnot (hqp ▸ hq)
      rw [update_of_ne hqp]
      exact hps q (mem_cons_of_mem p hq)
    refine (ih (k := { setSlot p (fun s => { s with valid := false }) k with links := L })
      hL.1 (hh.push hp) hrest hnodup).mono (fun _ k' hk' => ?_)
    obtain ⟨queue', hr', hh', hvalid⟩ := hk'
    refine ⟨queue', hr', ?_, fun q hq => hvalid q ?_⟩
    · have hhouse : (fun q => if q ∈ p :: ps then some freeList else house q)
          = fun q => if q ∈ ps then some freeList
            else update house p (some freeList) q := by
        funext q
        rw [update_apply]
        by_cases hqp : q = p
        · simp [hqp]
        · simp [hqp]
      rw [hhouse]
      exact hh'
    · show q ∈ ps ∨ ((setSlot p (fun s => { s with valid := false }) k).slot q).valid = false
      rw [setSlot_slot]
      rcases hq with hq | hq
      · rcases mem_cons.mp hq with rfl | hq
        · simp
        · exact .inl hq
      · right
        split_ifs
        · rfl
        · exact hq

/-- After `process_init`, in memory that was zero before: the initial thread has the first slot,
    without a parent, and the others are on `free_list`. -/
theorem processInit_ensures (t : ι) (hzero : ∀ e, k.links.next e = none) :
    Ensures (processInit t) k (fun _ k' => (k'.slot initPid).threadPtr = some t ∧
      (k'.slot initPid).parentPid = none ∧ (k'.slot initPid).blocked = false ∧
      (k'.slot initPid).running = false ∧
      ∃ queue, Kept k' (fun q => q = children initPid ∨ q = freeList) queue
        (fun p => if p = initPid then none else some freeList)) := by
  rw [processInit, ensures_bind, onLinks, ensures_zoom]
  have hnone : k.links.Represents (fun _ => False) (fun _ => []) :=
    ⟨nofun, fun q _ => hzero (.head q)⟩
  refine (hnone.init freeList).mono (fun _ L hL => ?_)
  have hr : L.Represents (· = freeList) (fun _ => []) := by
    have hlive : (fun p : ProcessList => p = freeList ∨ False) = (· = freeList) := by
      funext p
      simp
    have hqueue : update (fun _ : ProcessList => ([] : List Pid)) freeList []
        = fun _ => [] := by
      funext q
      rw [update_apply]
      split_ifs <;> rfl
    rw [← hlive, ← hqueue]
    exact hL.1
  have hnodup : (finRange maxProcesses).reverse.Nodup :=
    nodup_reverse.mpr (nodup_finRange _)
  have hall : ∀ p : Pid, p ∈ (finRange maxProcesses).reverse := by
    intro p
    rw [mem_reverse]
    exact mem_finRange p
  refine (putEach_ensures (k := { k with links := L }) _ hr (Housed.empty fun _ => rfl)
    (fun _ _ => rfl) hnodup).bind (fun _ k₁ hk₁ => ?_)
  obtain ⟨queue, hr₁, hh₁, hvalid⟩ := hk₁
  have hhouse : (fun p : Pid => if p ∈ (finRange maxProcesses).reverse then some freeList
      else none) = fun _ => some freeList := by
    funext p
    rw [if_pos (hall p)]
  rw [hhouse] at hh₁
  have hkept : Kept k₁ (· = freeList) queue (fun _ => some freeList) :=
    ⟨hr₁, hh₁, rfl, fun p => ⟨fun _ => rfl, fun _ => hvalid p (.inl (hall p))⟩⟩
  refine (processTableGet_ensures hkept none).bind (fun r k₂ hk₂ => ?_)
  rw [ensures_check]
  rintro rfl
  rw [ensures_update]
  rcases hk₂ with ⟨hr, -⟩ | ⟨p, hp, -, -, hslot, -, -, queue', hkept'⟩
  · cases hr
  cases hp
  have hself : k₂.slot initPid = fresh none (k₁.slot initPid) := by
    rw [hslot, update_self]
  have hfinal : (setSlot initPid (fun s => { s with threadPtr := some t }) k₂).slot initPid
      = { fresh none (k₁.slot initPid) with threadPtr := some t } := by
    rw [setSlot_slot, if_pos rfl, hself]
  rw [hfinal]
  refine ⟨rfl, rfl, rfl, rfl, queue', ?_⟩
  have hhouse' : (fun c : Pid => if c = initPid ∨ some freeList = some (children initPid) then none
      else some freeList) = fun p => if p = initPid then none else some freeList := by
    funext p
    simp
  rw [hhouse'] at hkept'
  exact hkept'.setSlot initPid rfl

end Effects

end Table

end KernelSanders
