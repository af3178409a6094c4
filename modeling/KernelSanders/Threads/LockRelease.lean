import KernelSanders.Lib.Intrusive
import KernelSanders.Threads.SchedulerPriority

namespace KernelSanders

open Lib Lib.Exec Sched
open List

/-!
# `threads/synch.c` — `lock_release` and the links of the donors

`lock_release` takes donors off the list of the holder while it walks along that list, and goes on
from the `next` of the element it has just removed.  Here the list is what the links make of it:
the list `t` of `Donors.links` is `t->priority_donations`, and a donor's element is its
`priority_elem`.  (`Tcb.priorityDonations` is not used.)

* `withdraw_returns` — the loop keeps `kept ++ xs` on the list, where `xs` is what is still ahead.
* `handOver_returns` — `sema_up` wakes the first waiter of the highest priority.
-/

/-- The machine, and the lists of donors. -/
structure Donors (ι κ : Type) where
  sched : Sched ι κ
  links : Links ι ι

namespace Donors

variable {ι κ : Type} [DecidableEq ι] [DecidableEq κ] {k : Sched ι κ}

def onSched {α : Type} (x : Exec (Sched ι κ) α) : Exec (Donors ι κ) α :=
  zoom Donors.sched (fun c k => { k with sched := c }) x

def onLinks {α : Type} (x : Exec (Links ι ι) α) : Exec (Donors ι κ) α :=
  zoom Donors.links (fun L k => { k with links := L }) x

/-- `t->priority = p`. -/
def priced (k : Sched ι κ) (t : ι) (p : Int) : Sched ι κ :=
  { k with kernel := Kernel.setThread t (fun th => { th with priority := p }) k.kernel }

/-- What `lock_release` by `t` does about the donor `d`. -/
def withdrawOne (t : ι) (l : κ) (d : ι) : Exec (Donors ι κ) Unit := do
  let needed ← read (fun k => (k.sched.kernel.thread d).lockNeeded)
  let theirs ← read (fun k => k.sched.priority d)
  let mine ← read (fun k => k.sched.priority t)
  if needed = some l then onLinks (Links.remove (.elem d))
  else if theirs > mine then update (fun k => { k with sched := priced k.sched t theirs })
  else pure ()

/-- The loop of `lock_release` by `t`, from a node on.  A node that is no donor's is a `fault`. -/
def withdraw (t : ι) (l : κ) : Nat → Node ι ι → Exec (Donors ι κ) Unit
  | 0, _ => stop .fuel
  | _ + 1, .head _ => stop .fault
  | _ + 1, .tail q => if q = t then pure () else stop .fault
  | n + 1, .elem d => do
    withdrawOne t l d
    let e ← onLinks (Links.listNext (.elem d))
    withdraw t l n e

/-- The loop over the list of `t`.  A thread is on a list at most once, which bounds it. -/
def withdrawAll [Fintype ι] (t : ι) (l : κ) : Exec (Donors ι κ) Unit := do
  let empty ← read (fun k => Links.isEmpty t k.links)
  if empty then pure ()
  else do
    let first ← read (fun k => k.links.next (.head t))
    match first with
    | some e => withdraw t l (Fintype.card ι + 1) e
    | none => stop .fault

/-- `lock_release` after its loop, up to the `intr_set_level` at the end of `sema_up`. -/
def handOver (l : κ) : Exec (Sched ι κ) Unit := do
  update (setSema l (fun m => { m with holder := none }))
  update (setLevel .off)
  wakeHighest l
  update (setSema l (fun m => { m with value := (m.value + 1) % 2 ^ 32 }))

/-- `lock_release` by the running thread, up to there. -/
def lockRelease [Fintype ι] (l : κ) : Exec (Donors ι κ) Unit := do
  let t ← read (fun k => k.sched.current)
  let holder ← read (fun k => (k.sched.kernel.lock l).holder)
  assert (holder = some t) "lock_held_by_current_thread(lock)"
  update (fun k => { k with sched := priced k.sched t (k.sched.kernel.origPriority t) })
  withdrawAll t l
  onSched (handOver l)

/-! ### The loop over the donors -/

/-- The priorities that `t` may have: its own, and those of its donors. -/
def offered (f : ι → Int) (t : ι) (own : Int) (ds : List ι) : Set Int :=
  {p | p = own ∨ ∃ d ∈ ds, d ≠ t ∧ p = f d}

section Loop

variable {f : ι → Int} {t d : ι} {own p : Int} {ds : List ι} {L : Links ι ι}

section

omit [DecidableEq κ]

@[simp] theorem priced_priced (p' : Int) : priced (priced k t p) t p' = priced k t p' := by
  simp [priced, Kernel.setThread]

theorem priced_thread (u : ι) : (priced k t p).kernel.thread u =
    if u = t then { k.kernel.thread t with priority := p } else k.kernel.thread u :=
  Function.update_apply ..

@[simp] theorem priced_priority (u : ι) :
    (priced k t p).priority u = if u = t then p else k.priority u := by
  rw [priority, Kernel.priority, priced_thread]
  split_ifs <;> rfl

@[simp] theorem priced_lockNeeded (u : ι) :
    ((priced k t p).kernel.thread u).lockNeeded = (k.kernel.thread u).lockNeeded := by
  rw [priced_thread]
  split_ifs with h
  · rw [h]
  · rfl

end

section

omit [DecidableEq ι]

/-- A donor that does not offer more. -/
theorem offered_snoc (h : IsGreatest (offered f t own ds) p) (hd : d = t ∨ f d ≤ p) :
    IsGreatest (offered f t own (ds ++ [d])) p := by
  obtain ⟨hmem, hle⟩ := h
  refine ⟨hmem.imp_right (fun ⟨u, hu, hp⟩ => ⟨u, mem_append_left _ hu, hp⟩), ?_⟩
  rintro x (rfl | ⟨u, hu, hne, rfl⟩)
  · exact hle (.inl rfl)
  · rcases mem_append.mp hu with hu | hu
    · exact hle (.inr ⟨u, hu, hne, rfl⟩)
    · cases mem_singleton.mp hu
      exact hd.resolve_left hne

/-- A donor that offers more. -/
theorem offered_raise (h : IsGreatest (offered f t own ds) p) (hne : d ≠ t) (hlt : p < f d) :
    IsGreatest (offered f t own (ds ++ [d])) (f d) := by
  refine ⟨.inr ⟨d, by simp, hne, rfl⟩, ?_⟩
  rintro x (rfl | ⟨u, hu, hu', rfl⟩)
  · exact (h.2 (.inl rfl)).trans hlt.le
  · rcases mem_append.mp hu with hu | hu
    · exact (h.2 (.inr ⟨u, hu, hu', rfl⟩)).trans hlt.le
    · cases mem_singleton.mp hu
      exact le_rfl

end

/-- The donors in `ds` that do not wait for `l`. -/
def others (k : Sched ι κ) (l : κ) (ds : List ι) : List ι :=
  ds.filter (fun d => decide ((k.kernel.thread d).lockNeeded ≠ some l))

/-- A donor stays, with what it offers, or it goes; in both cases its element leads on. -/
theorem withdrawOne_returns (l : κ) {kept xs : List ι} (hL : L.Holds t (kept ++ d :: xs))
    (hnodup : (kept ++ d :: xs).Nodup) (hp : IsGreatest (offered k.priority t own kept) p) :
    Returns (withdrawOne t l d) ⟨priced k t p, L⟩ (fun _ k' => ∃ p', k'.sched = priced k t p' ∧
      k'.links.Holds t (kept ++ others k l [d] ++ xs) ∧
      IsGreatest (offered k.priority t own (kept ++ others k l [d])) p' ∧
      (Links.listNext (.elem d)).run k'.links = .ok (Links.start t xs, k'.links)) := by
  simp only [withdrawOne, returns_bind, returns_read, priced_lockNeeded, priced_priority, if_pos]
  by_cases hneeded : (k.kernel.thread d).lockNeeded = some l
  · have hothers : kept ++ others k l [d] = kept := by simp [others, hneeded]
    rw [if_pos hneeded, hothers, onLinks, returns_zoom]
    refine (hL.remove_returns hnodup).mono (fun _ L' hL' => ?_)
    exact ⟨p, rfl, hL'.1, hp, hL'.2⟩
  · have hothers : others k l [d] = [d] := by simp [others, hneeded]
    have hnext : (Links.listNext (.elem d)).run L = .ok (Links.start t xs, L) := by
      obtain ⟨⟨a, hprev⟩, hnext⟩ := hL.neighbours
      exact Links.listNext_run hprev hnext
    rw [append_cons] at hL
    rw [if_neg hneeded, hothers]
    by_cases hself : d = t
    · rw [if_pos hself, if_neg (lt_irrefl p), returns_pure]
      exact ⟨p, rfl, hL, offered_snoc hp (.inl hself), hnext⟩
    · rw [if_neg hself]
      split_ifs with hmore
      · rw [returns_update]
        exact ⟨_, priced_priced _, hL, offered_raise hp hself hmore, hnext⟩
      · rw [returns_pure]
        exact ⟨p, rfl, hL, offered_snoc hp (.inr (not_lt.mp hmore)), hnext⟩

/-- The whole loop. -/
theorem withdraw_returns (l : κ) (xs kept : List ι) {n : Nat} (hn : xs.length < n)
    (hL : L.Holds t (kept ++ xs)) (hnodup : (kept ++ xs).Nodup)
    (hp : IsGreatest (offered k.priority t own kept) p) :
    Returns (withdraw t l n (Links.start t xs)) ⟨priced k t p, L⟩ (fun _ k' =>
      ∃ p', k'.sched = priced k t p' ∧ k'.links.Holds t (kept ++ others k l xs) ∧
        IsGreatest (offered k.priority t own (kept ++ others k l xs)) p') := by
  -- by induction on what is ahead; the donors that stay move over to `kept`
  induction xs generalizing kept n L p with
  | nil =>
    obtain ⟨n, rfl⟩ := Nat.exists_eq_succ_of_ne_zero (Nat.ne_zero_of_lt hn)
    rw [Links.start, withdraw, if_pos rfl, returns_pure]
    exact ⟨p, rfl, hL, by simpa [others] using hp⟩
  | cons d xs ih =>
    obtain ⟨n, rfl⟩ := Nat.exists_eq_succ_of_ne_zero (Nat.ne_zero_of_lt hn)
    have hothers : others k l (d :: xs) = others k l [d] ++ others k l xs :=
      filter_append [d] xs
    rw [Links.start, withdraw, hothers, ← append_assoc]
    refine (withdrawOne_returns l hL hnodup hp).bind (fun _ k' hk' => ?_)
    obtain ⟨sched, L'⟩ := k'
    obtain ⟨p', rfl, hL', hp', hnext⟩ := hk'
    rw [onLinks, returns_step (zoom_ok hnext)]
    refine ih _ (Nat.lt_of_succ_lt_succ hn) hL' (hnodup.sublist ?_) hp'
    rw [append_assoc]
    exact ((filter_sublist (l := [d])).append_right xs).append_left kept

theorem withdrawAll_returns [Fintype ι] (l : κ) (hL : L.Holds t ds) (hnodup : ds.Nodup) :
    Returns (withdrawAll t l) ⟨priced k t own, L⟩ (fun _ k' =>
      ∃ p, k'.sched = priced k t p ∧ k'.links.Holds t (others k l ds) ∧
        IsGreatest (offered k.priority t own (others k l ds)) p) := by
  have hown : IsGreatest (offered k.priority t own []) own := by
    simp [offered, IsGreatest, upperBounds]
  rw [withdrawAll, returns_get]
  split_ifs with hempty
  · cases hL.eq_nil (of_decide_eq_true hempty)
    exact returns_pure.mpr ⟨own, rfl, hL, hown⟩
  · rw [returns_get]
    show Returns (match L.next (.head t) with | some e => _ | none => _) _ _
    rw [hL.next_head]
    exact withdraw_returns l ds [] (Nat.lt_succ_of_le hnodup.length_le_card) hL hnodup hown

end Loop

/-! ### The waiters -/

/-- The first of the waiters with the highest priority becomes ready, if there are any. -/
def WakesFirst (priority : ι → Int) (s : κ) (k k' : Sched ι κ) : Prop :=
  (k.waiters s = [] ∧ k'.waiters s = [] ∧ k'.readyList = k.readyList ∧ k'.status = k.status) ∨
    ∃ us w vs, k.waiters s = us ++ w :: vs ∧ (∀ u ∈ us, priority u < priority w) ∧
      (∀ v ∈ vs, priority v ≤ priority w) ∧ k'.waiters s = us ++ vs ∧
      k'.readyList = k.readyList ++ [w] ∧ k'.status = Function.update k.status w .ready

theorem wakeHighest_returns {s : κ} (hp : ∀ u, 0 ≤ k.priority u ∧ k.priority u ≤ 127)
    (hblocked : ∀ w ∈ k.waiters s, k.status w = .blocked) :
    Returns (wakeHighest s) k (fun _ k' => WakesFirst k.priority s k k' ∧
      k'.priority = k.priority ∧ (k'.kernel.lock s).holder = (k.kernel.lock s).holder ∧
      (k'.kernel.lock s).value = (k.kernel.lock s).value) := by
  rw [wakeHighest, returns_get]
  by_cases hws : k.waiters s = []
  · rw [if_neg (not_not.mpr hws), returns_pure]
    exact ⟨.inl ⟨hws, hws, rfl, rfl⟩, rfl, rfl, rfl⟩
  obtain ⟨us, w, vs, hsplit, hus, hvs, hhigh⟩ :=
    Kernel.listHighestPriority_first hws (fun u _ => hp u)
  have hnot : w ∉ us := fun hw => lt_irrefl _ (hus w hw)
  have herase : (k.waiters s).erase w = us ++ vs := by
    rw [hsplit, erase_append_right _ hnot, erase_cons_head]
  simp only [if_pos hws, returns_bind, returns_read, hhigh, returns_update, makeReady,
    returns_assert]
  refine ⟨hblocked w (by simp [hsplit]), .inr ⟨us, w, vs, hsplit, hus, hvs, ?_, ?_, ?_⟩, ?_⟩
  all_goals
    unfold noteWaiting
    split_ifs
  all_goals simp [setStatus, setSema, Kernel.setLock, waiters] at herase ⊢
  all_goals first | exact herase | rfl

theorem handOver_returns {l : κ} (hp : ∀ u, 0 ≤ k.priority u ∧ k.priority u ≤ 127)
    (hblocked : ∀ w ∈ k.waiters l, k.status w = .blocked) :
    Returns (handOver l) k (fun _ k' => WakesFirst k.priority l k k' ∧ k'.priority = k.priority ∧
      (k'.kernel.lock l).holder = none ∧
      (k'.kernel.lock l).value = ((k.kernel.lock l).value + 1) % 2 ^ 32) := by
  have hset : ∀ (f : Mutex ι → Mutex ι) (k : Sched ι κ),
      (setSema l f k).kernel.lock l = f (k.kernel.lock l) := by
    simp [setSema, Kernel.setLock]
  simp only [handOver, returns_bind, returns_update]
  generalize hk₁ : setLevel .off (setSema l _ k) = k₁
  have hlock : k₁.kernel.lock l = ⟨none, (k.kernel.lock l).value, k.waiters l⟩ := by
    rw [← hk₁]
    exact hset (fun m => { m with holder := none }) k
  have hwaiters : k₁.waiters l = k.waiters l := by rw [waiters, hlock]
  have hsame : k₁.priority = k.priority ∧ k₁.status = k.status ∧ k₁.readyList = k.readyList := by
    rw [← hk₁]
    exact ⟨rfl, rfl, rfl⟩
  rw [← hsame.1] at hp ⊢
  rw [← hwaiters, ← hsame.2.1] at hblocked
  refine (wakeHighest_returns hp hblocked).mono (fun _ k₂ hk₂ => ?_)
  obtain ⟨hwakes, hpriority, hholder, hvalue⟩ := hk₂
  rw [WakesFirst, hwaiters, hsame.2.1, hsame.2.2] at hwakes
  refine ⟨?_, hpriority, ?_, ?_⟩
  · rw [WakesFirst, setSema_waiters, if_pos rfl]
    exact hwakes
  · rw [hset, hholder, hlock]
  · rw [hset, hvalue, hlock]

/-! ### `lock_release` -/

theorem lockRelease_withdraws [Fintype ι] {k : Donors ι κ} {t : ι} {l : κ} {ds : List ι}
    (ht : k.sched.current = t) (hheld : (k.sched.kernel.lock l).holder = some t)
    (hvalue : (k.sched.kernel.lock l).value = 0)
    (hp : ∀ u, priMin ≤ k.sched.priority u ∧ k.sched.priority u ≤ priMax)
    (horig : ∀ u, priMin ≤ k.sched.kernel.origPriority u ∧ k.sched.kernel.origPriority u ≤ priMax)
    (hblocked : ∀ w ∈ k.sched.waiters l, k.sched.status w = .blocked)
    (hds : k.links.Holds t ds) (hnodup : ds.Nodup) :
    Returns (lockRelease l) k (fun _ k' =>
      k'.links.Holds t (others k.sched l ds) ∧
      IsGreatest (offered k.sched.priority t (k.sched.kernel.origPriority t)
        (others k.sched l ds)) (k'.sched.priority t) ∧
      (∀ u, u ≠ t → k'.sched.priority u = k.sched.priority u) ∧
      (k'.sched.kernel.lock l).holder = none ∧ (k'.sched.kernel.lock l).value = 1 ∧
      WakesFirst k'.sched.priority l k.sched k'.sched) := by
  simp only [lockRelease, returns_bind, returns_read, returns_assert, returns_update, ht]
  refine ⟨hheld, (withdrawAll_returns l hds hnodup).mono (fun _ k₁ hk₁ => ?_)⟩
  obtain ⟨sched, L⟩ := k₁
  obtain ⟨p, rfl, hholds, hgreatest⟩ := hk₁
  have hpt : 0 ≤ p ∧ p ≤ 127 := by
    simp only [priMin, priMax] at hp horig
    rcases hgreatest.1 with rfl | ⟨d, -, -, rfl⟩
    · exact ⟨(horig t).1, (horig t).2.trans (by decide)⟩
    · exact ⟨(hp d).1, (hp d).2.trans (by decide)⟩
  have hrange : ∀ u, 0 ≤ (priced k.sched t p).priority u ∧
      (priced k.sched t p).priority u ≤ 127 := by
    intro u
    rw [priced_priority]
    split_ifs
    · exact hpt
    · exact ⟨(hp u).1, (hp u).2.trans (by decide)⟩
  rw [onSched, returns_zoom]
  refine (handOver_returns hrange hblocked).mono (fun _ k' hk' => ?_)
  obtain ⟨hwakes, hpriority, hholder, hval⟩ := hk'
  rw [← hpriority] at hwakes
  refine ⟨hholds, ?_, fun u hu => ?_, hholder, ?_, hwakes⟩
  · rw [hpriority, priced_priority, if_pos rfl]
    exact hgreatest
  · rw [hpriority, priced_priority, if_neg hu]
  · rw [hval]
    show ((k.sched.kernel.lock l).value + 1) % 2 ^ 32 = 1
    omega

/-- Thread 0 holds lock 0.  Thread 1 waits for it and has donated, and so has thread 2, which waits
    for lock 1. -/
def donated : Donors (Fin 3) (Fin 2) where
  sched :=
    { kernel :=
        { thread := ![⟨40, 31, none, []⟩, ⟨40, 40, some 0, []⟩, ⟨35, 35, some 1, []⟩]
          lock := ![⟨some 0, 0, [1]⟩, ⟨some 0, 0, [2]⟩]
          waiting := ![none, some 0, some 1] }
      releasing _ := none
      status := ![.running, .blocked, .blocked]
      point := ![.own, .semaDown 0 .on, .semaDown 1 .on]
      wakeTime _ := -1
      readyList := []
      sleepingList := []
      idleThread := none
      initialThread := 0
      current := 0
      level := .on
      threadWaiting := false
      threadTicks := 0
      ticks := 0 }
  links :=
    { prev := fun
        | .tail 0 => some (.elem 2)
        | .elem 2 => some (.elem 1)
        | .elem 1 => some (.head 0)
        | _ => none
      next := fun
        | .head 0 => some (.elem 1)
        | .elem 1 => some (.elem 2)
        | .elem 2 => some (.tail 0)
        | _ => none }

theorem lockRelease_withdraws_one : Returns (lockRelease 0) donated (fun _ k' =>
    k'.links.Holds 0 [2] ∧ k'.sched.priority 0 = 35 ∧ k'.sched.status 1 = .ready) := by
  have hlinks : donated.links.Holds 0 [1, 2] :=
    ⟨rfl, rfl, by simp [Links.path, Links.Link, donated]⟩
  refine (lockRelease_withdraws (k := donated) (t := 0) (l := 0) rfl rfl rfl (by decide)
    (by decide) (by decide) hlinks (by decide)).mono (fun _ k' hk' => ?_)
  obtain ⟨hholds, hgreatest, -, -, -, hwakes⟩ := hk'
  refine ⟨hholds, ?_, ?_⟩
  · have hoffered : IsGreatest (offered donated.sched.priority 0 31 [2]) 35 := by
      constructor <;> simp [offered, upperBounds, donated, priority, Kernel.priority]
    exact hgreatest.unique hoffered
  · rcases hwakes with ⟨hnil, -⟩ | ⟨us, w, vs, hsplit, -, -, -, -, hstatus⟩
    · cases hnil
    · have hw : w ∈ donated.sched.waiters 0 := by simp [hsplit]
      cases mem_singleton.mp hw
      rw [hstatus, Function.update_self]

end Donors

end KernelSanders
