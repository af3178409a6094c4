import KernelSanders.Threads.Donation

namespace KernelSanders

open Lib Relation
open Lib.Exec hiding update
open Function
open Kernel
open List

/-!
# What the operations on locks do to the threads

The loop of `thread_donate_priority` gives one priority to all threads on a chain of links
(`trickle_ensures`), and the bound on its turns is no restriction (`trickle_card`).  From there on
every operation is known by the structure that describes its effect: `Takes`, `Parks`, `Donates`,
`Releases`.
-/

namespace Kernel

variable {ι κ : Type} {k k' : Kernel ι κ} {x : ι} {m : Nat}

def priority (k : Kernel ι κ) (t : ι) : Int := (k.thread t).priority

def origPriority (k : Kernel ι κ) (t : ι) : Int := (k.thread t).origPriority

def donors (k : Kernel ι κ) (t : ι) : List ι := (k.thread t).priorityDonations

def needed (k : Kernel ι κ) (t : ι) : Option κ := (k.thread t).lockNeeded

def holder (k : Kernel ι κ) (l : κ) : Option ι := (k.lock l).holder

/-- The threads that the loop of `thread_donate_priority` visits from `h` on. -/
def chain (k : Kernel ι κ) (h : ι) : Set ι := {x | ReflTransGen k.Linked h x}

/-! ### The loop of `thread_donate_priority` -/

theorem linked_congr (hl : k'.lock = k.lock)
    (hn : ∀ u, (k'.thread u).lockNeeded = (k.thread u).lockNeeded) : k'.Linked = k.Linked := by
  funext u x
  simp only [Linked, hl, hn]

/-- The chain from `x` comes to its end after `m` links. -/
inductive Ends (k : Kernel ι κ) : Nat → ι → Prop
  | here {x : ι} (h : (k.thread x).lockNeeded = none) : Ends k 0 x
  | next {m : Nat} {x y : ι} (h : k.Linked x y) (he : Ends k m y) : Ends k (m + 1) x

theorem Linked.unique {y z : ι} (h : k.Linked x y) (h' : k.Linked x z) : y = z := by
  obtain ⟨l, hl, hy⟩ := h
  obtain ⟨m, hm, hz⟩ := h'
  rw [hl] at hm
  cases hm
  rw [hy] at hz
  exact Option.some.inj hz

theorem Ends.unique {m' : Nat} (h : Ends k m x) (h' : Ends k m' x) : m = m' := by
  induction h generalizing m' with
  | here hn =>
    cases h' with
    | here => rfl
    | next hl =>
      obtain ⟨l, hl, -⟩ := hl
      rw [hn] at hl
      cases hl
  | next hl he ih =>
    cases h' with
    | here hn =>
      obtain ⟨l, hl, -⟩ := hl
      rw [hn] at hl
      cases hl
    | next hl' he' =>
      rw [Linked.unique hl hl'] at ih
      rw [ih he']

/-- A chain that ends visits no thread twice. -/
theorem Ends.lt_card [Fintype ι] (h : Ends k m x) : m < Fintype.card ι := by
  -- one thread for every number of links that are left
  have hvisit : ∀ {m x}, Ends k m x → ∀ j, j ≤ m → ∃ y, Ends k j y := by
    intro m x h
    induction h with
    | here hn =>
      intro j hj
      obtain rfl : j = 0 := Nat.le_zero.mp hj
      exact ⟨_, .here hn⟩
    | @next m x y hl he ih =>
      intro j hj
      rcases Nat.lt_or_ge j (m + 1) with hlt | hge
      · exact ih j (Nat.le_of_lt_succ hlt)
      · obtain rfl : j = m + 1 := le_antisymm hj hge
        exact ⟨x, .next hl he⟩
  choose f hf using hvisit h
  have hinj : Function.Injective (fun j : Fin (m + 1) => f j.val (Nat.le_of_lt_succ j.isLt)) := by
    intro a b hab
    refine Fin.ext (Ends.unique (hf a.val (Nat.le_of_lt_succ a.isLt)) ?_)
    have hb := hf b.val (Nat.le_of_lt_succ b.isLt)
    simp only at hab
    rw [← hab] at hb
    exact hb
  have hcard := Fintype.card_le_of_injective _ hinj
  rw [Fintype.card_fin] at hcard
  omega

theorem Ends.congr (h : Ends k m x) (hlink : k'.Linked = k.Linked)
    (hn : ∀ u, (k'.thread u).lockNeeded = (k.thread u).lockNeeded) : Ends k' m x := by
  induction h with
  | here h => exact .here (by rw [hn, h])
  | next h _ ih => exact .next (hlink ▸ h) ih

section Loop

variable [DecidableEq ι]

theorem setThread_thread (t : ι) (f : Tcb ι κ → Tcb ι κ) (k : Kernel ι κ) (u : ι) :
    (setThread t f k).thread u = if u = t then f (k.thread t) else k.thread u :=
  update_apply ..

/-- What leaves `lock_needed` alone leaves the links alone. -/
theorem linked_setThread (h : ι) (f : Tcb ι κ → Tcb ι κ) (k : Kernel ι κ)
    (hf : ∀ th, (f th).lockNeeded = th.lockNeeded) :
    (setThread h f k).Linked = k.Linked ∧
      ∀ u, ((setThread h f k).thread u).lockNeeded = (k.thread u).lockNeeded := by
  have hn : ∀ u, ((setThread h f k).thread u).lockNeeded = (k.thread u).lockNeeded := by
    intro u
    rw [setThread_thread]
    split_ifs with hu
    · rw [hf, hu]
    · rfl
  exact ⟨linked_congr rfl hn, hn⟩

/-- Giving a thread another priority leaves the links alone. -/
theorem linked_setPriority (h : ι) (p : Int) (k : Kernel ι κ) :
    (setThread h (fun th => { th with priority := p }) k).Linked = k.Linked ∧
      ∀ u, ((setThread h (fun th => { th with priority := p }) k).thread u).lockNeeded
        = (k.thread u).lockNeeded :=
  linked_setThread h _ k (fun _ => rfl)

/-- What the loop does to a thread: those on the chain get the priority it started with. -/
structure Raised (k k' : Kernel ι κ) (h : ι) (p : Int) : Prop where
  lock : k'.lock = k.lock
  waiting : k'.waiting = k.waiting
  inside : ∀ y ∈ k.chain h, k'.thread y = { k.thread y with priority := p }
  outside : ∀ y, y ∉ k.chain h → k'.thread y = k.thread y

theorem trickle_ensures (n : Nat) (x : ι) (k : Kernel ι κ) (p : Int) (hp : k.priority x = p) :
    Ensures (trickle n x) k (fun _ k' => Raised k k' x p) := by
  have hself : k.thread x = { k.thread x with priority := p } := by
    rw [← hp]
    rfl
  induction n generalizing x k with
  | zero => exact ensures_stop
  | succ n ih =>
    rw [trickle, ensures_get]
    cases hl : (k.thread x).lockNeeded with
    | none =>
      -- the chain is the thread alone
      have hend : ∀ y ∈ k.chain x, y = x := by
        intro y hy
        rcases ReflTransGen.cases_head hy with rfl | ⟨z, ⟨l, hz, -⟩, -⟩
        · rfl
        · rw [hl] at hz
          cases hz
      refine ensures_pure.mpr ⟨rfl, rfl, fun y hy => ?_, fun _ _ => rfl⟩
      rw [hend y hy]
      exact hself
    | some l =>
      rw [ensures_get]
      cases hh : (k.lock l).holder with
      | none => exact ensures_stop
      | some h =>
        rw [ensures_put]
        have hpx : (k.thread x).priority = p := hp
        rw [hpx]
        generalize hk : setThread h (fun th => { th with priority := p }) k = k₁
        have hth : ∀ y, k₁.thread y =
            if y = h then { k.thread h with priority := p } else k.thread y := by
          intro y
          rw [← hk, setThread_thread]
        have hlink : k₁.Linked = k.Linked := hk ▸ (linked_setPriority h p k).1
        have hchain : k₁.chain h = k.chain h := by rw [chain, chain, hlink]
        have hph : k₁.priority h = p := by
          rw [priority, hth, if_pos rfl]
        -- the chain from `x` is `x` and the chain from the holder
        have hstep : ∀ y, y ∈ k.chain x ↔ y = x ∨ y ∈ k.chain h := by
          intro y
          constructor
          · intro hy
            rcases ReflTransGen.cases_head hy with rfl | ⟨z, ⟨m, hm, hz⟩, hzy⟩
            · exact .inl rfl
            · rw [hl] at hm
              cases hm
              rw [hh] at hz
              cases hz
              exact .inr hzy
          · rintro (rfl | hy)
            · exact ReflTransGen.refl
            · exact ReflTransGen.head ⟨l, hl, hh⟩ hy
        have hhself : k₁.thread h = { k₁.thread h with priority := p } := by
          rw [hth, if_pos rfl]
        refine (ih h k₁ hph hhself).mono (fun _ k' hr => ?_)
        refine ⟨by rw [hr.lock, ← hk]; rfl, by rw [hr.waiting, ← hk]; rfl, fun y hy => ?_,
          fun y hy => ?_⟩
        · by_cases hyh : y ∈ k.chain h
          · rw [hr.inside y (hchain ▸ hyh), hth]
            split_ifs with he
            · rw [he]
            · rfl
          · have hyx : y = x := ((hstep y).mp hy).resolve_right hyh
            have hne : y ≠ h := fun hn => hyh (hn ▸ ReflTransGen.refl)
            rw [hr.outside y (hchain ▸ hyh), hth, if_neg hne, hyx]
            exact hself
        · have hyh : y ∉ k.chain h := fun hn => hy ((hstep y).mpr (.inr hn))
          have hne : y ≠ h := fun hn => hyh (hn ▸ ReflTransGen.refl)
          rw [hr.outside y (hchain ▸ hyh), hth, if_neg hne]

/-- The loop returns only if its chain ends. -/
theorem trickle_ends (n : Nat) (x : ι) (k : Kernel ι κ) :
    Ensures (trickle n x) k (fun _ _ => ∃ m, Ends k m x) := by
  induction n generalizing x k with
  | zero => exact ensures_stop
  | succ n ih =>
    rw [trickle, ensures_get]
    cases hl : (k.thread x).lockNeeded with
    | none => exact ensures_pure.mpr ⟨0, .here hl⟩
    | some l =>
      rw [ensures_get]
      cases hh : (k.lock l).holder with
      | none => exact ensures_stop
      | some h =>
        rw [ensures_put]
        refine (ih h _).mono (fun _ _ ⟨m, hm⟩ => ⟨m + 1, .next ⟨l, hl, hh⟩ ?_⟩)
        obtain ⟨hlink, hn⟩ := linked_setPriority h (k.thread x).priority k
        exact hm.congr hlink.symm (fun u => (hn u).symm)

/-- A chain that ends is followed to its end with any bound beyond its length. -/
theorem Ends.trickle_eq (h : Ends k m x) {n n' : Nat} (hn : m < n) (hn' : m < n') :
    (trickle n x).run k = (trickle n' x).run k := by
  obtain ⟨n, rfl⟩ := Nat.exists_eq_add_of_lt hn
  obtain ⟨n', rfl⟩ := Nat.exists_eq_add_of_lt hn'
  induction m generalizing k x with
  | zero =>
    cases h with
    | here h =>
      simp only [trickle, read_bind, h]
  | succ m ih =>
    cases h with
    | next h he =>
      obtain ⟨l, hl, hh⟩ := h
      obtain ⟨hlink, hneed⟩ := linked_setPriority _ (k.thread x).priority k
      have hrest := ih (he.congr hlink hneed) (by omega) (by omega)
      rw [show m + 1 + n + 1 = (m + n + 1) + 1 by omega,
        show m + 1 + n' + 1 = (m + n' + 1) + 1 by omega]
      simp only [trickle, read_bind, hl, hh, update_bind]
      exact hrest

/-- The bound on the loop is no restriction: whatever number of turns it returns after, it returns
    within as many as there are threads. -/
theorem trickle_card [Fintype ι] {n : Nat} (h : (trickle n x).run k = .ok ((), k')) :
    (trickle (Fintype.card ι) x).run k = .ok ((), k') := by
  obtain ⟨m, hm⟩ := trickle_ends n x k () k' h
  have hlast := hm.lt_card
  rcases Nat.lt_or_ge m n with hlt | hge
  · rw [hm.trickle_eq hlast hlt, h]
  · -- the chain is longer than the loop was allowed to run
    exfalso
    induction n generalizing x k m with
    | zero => cases h
    | succ n ih =>
      cases hm with
      | here _ => exact absurd hge (by omega)
      | next hl he =>
        obtain ⟨l, hl, hh⟩ := hl
        simp only [trickle, read_bind, hl, hh, update_bind] at h
        obtain ⟨hlink, hneed⟩ := linked_setPriority _ (k.thread x).priority k
        exact ih h _ (he.congr hlink hneed) (he.congr hlink hneed).lt_card (by omega)

end Loop

/-! ### What the operations do -/

section Effects

variable [DecidableEq ι] [DecidableEq κ]

omit [DecidableEq ι] in
theorem setLock_lock (l : κ) (f : Mutex ι → Mutex ι) (k : Kernel ι κ) (m : κ) :
    (setLock l f k).lock m = if m = l then f (k.lock l) else k.lock m :=
  update_apply ..

omit [DecidableEq κ] in
@[simp] theorem setWaiting_lock (t : ι) (l : Option κ) (k : Kernel ι κ) :
    (setWaiting t l k).lock = k.lock := rfl

/-- Thread `t` gets the lock. -/
structure Takes (k k' : Kernel ι κ) (t : ι) (l : κ) : Prop where
  thread : k'.thread = k.thread
  holder : ∀ m, k'.holder m = if m = l then some t else k.holder m
  value : ∀ m, (k'.lock m).value = if m = l then (k.lock l).value - 1 else (k.lock m).value
  waiting : k'.waiting = update k.waiting t none

/-- Thread `t` starts to wait, or goes on waiting. -/
structure Parks (k k' : Kernel ι κ) (t : ι) (l : κ) : Prop where
  thread : k'.thread = k.thread
  holder : ∀ m, k'.holder m = k.holder m
  value : ∀ m, (k'.lock m).value = (k.lock m).value
  waiting : k'.waiting = update k.waiting t (some l)

theorem downThenHold_ensures (t : ι) (l : κ) (k : Kernel ι κ) :
    Ensures (downThenHold t l) k (fun _ k' =>
      ((k.lock l).value = 0 ∧ Parks k k' t l) ∨ ((k.lock l).value ≠ 0 ∧ Takes k k' t l)) := by
  rw [downThenHold, ensures_get]
  by_cases hv : (k.lock l).value = 0
  · rw [if_pos hv, ensures_put, ensures_update]
    refine .inl ⟨hv, rfl, fun m => ?_, fun m => ?_, rfl⟩
    · simp only [holder, setWaiting_lock, setLock_lock]
      split_ifs with hm
      · rw [hm]
      · rfl
    · simp only [setWaiting_lock, setLock_lock]
      split_ifs with hm
      · rw [hm]
      · rfl
  · rw [if_neg hv, ensures_put, ensures_put, ensures_update]
    refine .inr ⟨hv, rfl, fun m => ?_, fun m => ?_, rfl⟩
    · simp only [holder, setWaiting_lock, setLock_lock]
      split_ifs <;> rfl
    · simp only [setWaiting_lock, setLock_lock, if_true]
      split_ifs <;> rfl

/-- `lock_try_acquire` takes the lock or changes nothing. -/
theorem lockTryAcquire_ensures (t : ι) (l : κ) (k : Kernel ι κ) (hw : k.waiting t = none) :
    Ensures (lockTryAcquire t l) k (fun b k' =>
      (b = true ∧ (k.lock l).value ≠ 0 ∧ Takes k k' t l) ∨ (b = false ∧ k' = k)) := by
  rw [lockTryAcquire, ensures_get, ensures_check]
  intro _
  rw [ensures_get]
  by_cases hv : (k.lock l).value > 0
  · rw [if_pos hv, ensures_put, ensures_put]
    refine ensures_pure.mpr (.inl ⟨rfl, Nat.ne_of_gt hv, rfl, fun m => ?_, fun m => ?_, ?_⟩)
    · simp only [holder, setLock_lock]
      split_ifs <;> rfl
    · simp only [setLock_lock, if_true]
      split_ifs <;> rfl
    · rw [← hw, update_eq_self]
      rfl
  · rw [if_neg hv]
    exact ensures_pure.mpr (.inr ⟨rfl, rfl⟩)

/-- Thread `t` donates to the holder `h` of the lock and to those on the chain from there. -/
structure Donates (k k' : Kernel ι κ) (t : ι) (l : κ) (h : ι) : Prop where
  lock : k'.lock = k.lock
  waiting : k'.waiting = k.waiting
  inside : ∀ y ∈ k.chain h, k'.priority y = k.priority t
  outside : ∀ y, y ∉ k.chain h → k'.priority y = k.priority y
  orig : k'.origPriority = k.origPriority
  needed : ∀ y, k'.needed y = if y = t then some l else k.needed y
  donors : ∀ y, k'.donors y = if y = h then k.donors h ++ [t] else k.donors y

omit [DecidableEq κ] in
theorem donateToHolder_ensures [Fintype ι] {t h : ι} (hne : t ≠ h) (l : κ) (k : Kernel ι κ) :
    Ensures (donateToHolder t l (some h)) k (fun _ k' =>
      (k.priority t ≤ k.priority h ∧ k' = k) ∨
        (k.priority h < k.priority t ∧ Donates k k' t l h)) := by
  rw [donateToHolder, ensures_get, ensures_get]
  by_cases hlt : (k.thread h).priority < (k.thread t).priority
  · rw [if_pos hlt, threadDonatePriority, ensures_bind, ensures_put, ensures_put]
    -- the holder has the new donor and its priority when the loop starts
    have hmine : ((setThread h (fun th => { th with
        priorityDonations := th.priorityDonations ++ [t] }) k).thread t).priority
          = k.priority t := by
      rw [setThread_thread, if_neg hne]
      rfl
    rw [hmine]
    generalize hk : setThread h (fun th => { th with priority := k.priority t })
      (setThread h (fun th => { th with priorityDonations := th.priorityDonations ++ [t] }) k) = k₁
    have hth : ∀ y, k₁.thread y = if y = h then { k.thread h with
        priorityDonations := (k.thread h).priorityDonations ++ [t], priority := k.priority t }
          else k.thread y := by
      intro y
      rw [← hk, setThread_thread, setThread_thread, setThread_thread, if_pos rfl]
      split_ifs <;> rfl
    have hlock : k₁.lock = k.lock := by rw [← hk]; rfl
    have hwait : k₁.waiting = k.waiting := by rw [← hk]; rfl
    have hneed : ∀ u, (k₁.thread u).lockNeeded = (k.thread u).lockNeeded := by
      intro u
      rw [hth]
      split_ifs with hu
      · rw [hu]
      · rfl
    have hchain : k₁.chain h = k.chain h := by rw [chain, chain, linked_congr hlock hneed]
    have hph : k₁.priority h = k.priority t := by rw [priority, hth, if_pos rfl]
    refine (trickle_ensures _ h k₁ _ hph).mono (fun _ k₂ hr => ?_)
    rw [ensures_update]
    -- all that the loop changes is priorities
    have hsame : ∀ y, (k₂.thread y).origPriority = (k.thread y).origPriority ∧
        (k₂.thread y).lockNeeded = (k.thread y).lockNeeded ∧
        (k₂.thread y).priorityDonations = if y = h then (k.thread h).priorityDonations ++ [t]
          else (k.thread y).priorityDonations := by
      intro y
      have h₁ : (k₂.thread y).origPriority = (k₁.thread y).origPriority ∧
          (k₂.thread y).lockNeeded = (k₁.thread y).lockNeeded ∧
          (k₂.thread y).priorityDonations = (k₁.thread y).priorityDonations := by
        by_cases hy : y ∈ k₁.chain h
        · rw [hr.inside y hy]
          exact ⟨rfl, rfl, rfl⟩
        · rw [hr.outside y hy]
          exact ⟨rfl, rfl, rfl⟩
      rw [h₁.1, h₁.2.1, h₁.2.2, hth]
      split_ifs with hy
      · rw [hy]
        exact ⟨rfl, rfl, rfl⟩
      · exact ⟨rfl, rfl, rfl⟩
    have hpri : ∀ y, (setThread t (fun th => { th with lockNeeded := some l }) k₂).priority y
        = k₂.priority y := by
      intro y
      rw [priority, setThread_thread]
      split_ifs with hy
      · rw [hy]
        rfl
      · rfl
    refine .inr ⟨hlt, by rw [← hlock, ← hr.lock]; rfl, by rw [← hwait, ← hr.waiting]; rfl,
      fun y hy => ?_, fun y hy => ?_, ?_, fun y => ?_, fun y => ?_⟩
    · rw [hpri, priority, hr.inside y (hchain ▸ hy)]
    · have hyh : y ≠ h := fun hn => hy (hn ▸ ReflTransGen.refl)
      rw [hpri, priority, hr.outside y (hchain ▸ hy), hth, if_neg hyh]
      rfl
    · funext y
      rw [origPriority, setThread_thread]
      split_ifs with hy
      · rw [hy]
        exact (hsame t).1
      · exact (hsame y).1
    · rw [needed, setThread_thread]
      split_ifs with hy
      · rfl
      · exact (hsame y).2.1
    · rw [donors, setThread_thread]
      by_cases hy : y = t
      · rw [if_pos hy, hy]
        exact (hsame t).2.2
      · rw [if_neg hy]
        exact (hsame y).2.2
  · rw [if_neg hlt]
    exact ensures_pure.mpr (.inl ⟨not_lt.mp hlt, rfl⟩)

/-! #### `lock_release` -/

/-- One turn of the loop of `lock_release`, on the holder. -/
def keepDonor (k : Kernel ι κ) (l : κ) (th : Tcb ι κ) (d : ι) : Tcb ι κ :=
  if k.needed d = some l then { th with priorityDonations := th.priorityDonations.erase d }
  else if k.priority d > th.priority then { th with priority := k.priority d } else th

omit [DecidableEq κ] in
theorem setThread_setThread (t : ι) (f g : Tcb ι κ → Tcb ι κ) (k : Kernel ι κ) :
    setThread t g (setThread t f k) = setThread t (g ∘ f) k := by
  simp only [setThread, update_self, update_idem, Function.comp]

theorem releaseEach_ensures (t : ι) (l : κ) (ds : List ι) (f : Tcb ι κ → Tcb ι κ)
    (k : Kernel ι κ) (hds : ∀ d ∈ ds, d ≠ t) :
    Ensures (releaseEach t l ds) (setThread t f k)
      (fun _ k' => k' = setThread t (fun th => ds.foldl (keepDonor k l) (f th)) k) := by
  induction ds generalizing f with
  | nil => exact ensures_pure.mpr rfl
  | cons d ds ih =>
    obtain ⟨hd, hds⟩ := forall_mem_cons.mp hds
    -- the donor is another thread, so it is what it was before the loop
    have hsame : (setThread t f k).thread d = k.thread d := by rw [setThread_thread, if_neg hd]
    rw [releaseEach, ensures_get, hsame]
    by_cases hn : k.needed d = some l
    · simp only [foldl_cons, keepDonor, if_pos hn]
      rw [if_pos (show (k.thread d).lockNeeded = some l from hn), ensures_put, setThread_setThread]
      exact ih _ hds
    · simp only [foldl_cons, keepDonor, if_neg hn]
      rw [if_neg (show (k.thread d).lockNeeded ≠ some l from hn), ensures_put, setThread_setThread,
        hsame]
      exact ih _ hds

/-- The holder of a lock after the loop. -/
def restored (k : Kernel ι κ) (t : ι) (l : κ) : Tcb ι κ :=
  (k.donors t).foldl (keepDonor k l) { k.thread t with priority := k.origPriority t }

omit [DecidableEq κ] in
theorem donors_setThread (t : ι) (k : Kernel ι κ) :
    ((setThread t (fun th => { th with priority := th.origPriority }) k).thread
      t).priorityDonations = k.donors t := by
  rw [setThread_thread, if_pos rfl]
  rfl

/-- The loop leaves the holder what `restored` says, and all other threads alone. -/
theorem releaseAll_ensures (t : ι) (l : κ) (k : Kernel ι κ) (hds : ∀ d ∈ k.donors t, d ≠ t) :
    Ensures (releaseEach t l (k.donors t))
      (setThread t (fun th => { th with priority := th.origPriority }) k)
      (fun _ k' => k' = setThread t (fun _ => restored k t l) k) :=
  releaseEach_ensures t l (k.donors t) _ k hds

/-- The loop leaves the holder the greatest priority of the donors that stay. -/
theorem foldl_keepDonor_priority (k : Kernel ι κ) (l : κ) (ds : List ι) (th : Tcb ι κ) :
    IsGreatest (insert th.priority {v | ∃ d ∈ ds, k.needed d ≠ some l ∧ k.priority d = v})
      (ds.foldl (keepDonor k l) th).priority := by
  induction ds generalizing th with
  | nil => exact ⟨.inl rfl, by rintro v (rfl | ⟨d, hd, -⟩); exacts [le_rfl, nomatch hd]⟩
  | cons d ds ih =>
    obtain ⟨hmem, hub⟩ := ih (keepDonor k l th d)
    rw [foldl_cons]
    have hstart : (keepDonor k l th d).priority ≤
        (ds.foldl (keepDonor k l) (keepDonor k l th d)).priority := hub (.inl rfl)
    have hturn : th.priority ≤ (keepDonor k l th d).priority ∧
        (k.needed d ≠ some l → k.priority d ≤ (keepDonor k l th d).priority) ∧
        ((keepDonor k l th d).priority = th.priority ∨
          (k.needed d ≠ some l ∧ k.priority d = (keepDonor k l th d).priority)) := by
      rw [keepDonor]
      split_ifs with hn hlt
      · exact ⟨le_rfl, fun h => absurd hn h, .inl rfl⟩
      · exact ⟨le_of_lt hlt, fun _ => le_rfl, .inr ⟨hn, rfl⟩⟩
      · exact ⟨le_rfl, fun _ => not_lt.mp hlt, .inl rfl⟩
    constructor
    · rcases hmem with hmem | ⟨e, he, hne, hmem⟩
      · rw [hmem]
        rcases hturn.2.2 with h | ⟨hn, h⟩
        · exact .inl h
        · exact .inr ⟨d, mem_cons_self, hn, h⟩
      · exact .inr ⟨e, mem_cons_of_mem d he, hne, hmem⟩
    · rintro v (rfl | ⟨e, he, hne, rfl⟩)
      · exact hturn.1.trans hstart
      · rcases mem_cons.mp he with rfl | he
        · exact (hturn.2.1 hne).trans hstart
        · exact hub (.inr ⟨e, he, hne, rfl⟩)

/-- The loop drops the donors that needed the lock, and changes nothing else. -/
theorem foldl_keepDonor_donors (k : Kernel ι κ) (l : κ) (ds : List ι) (th : Tcb ι κ) :
    (ds.foldl (keepDonor k l) th).priorityDonations =
        th.priorityDonations.diff (ds.filter (fun d => k.needed d = some l)) ∧
      (ds.foldl (keepDonor k l) th).origPriority = th.origPriority ∧
      (ds.foldl (keepDonor k l) th).lockNeeded = th.lockNeeded := by
  induction ds generalizing th with
  | nil => exact ⟨rfl, rfl, rfl⟩
  | cons d ds ih =>
    rw [foldl_cons, (ih _).1, (ih _).2.1, (ih _).2.2, keepDonor]
    split_ifs with hn hlt
    · rw [filter_cons_of_pos (by simpa using hn), diff_cons]
      exact ⟨rfl, rfl, rfl⟩
    all_goals
      rw [filter_cons_of_neg (by simpa using hn)]
      exact ⟨rfl, rfl, rfl⟩

/-- What is left to the holder of a lock that it gives back. -/
def Restored (c : Kernel ι κ) (t : ι) (l : κ) : Set Int :=
  insert (c.origPriority t) {v | ∃ d ∈ c.donors t, c.needed d ≠ some l ∧ c.priority d = v}

theorem restored_priority (k : Kernel ι κ) (t : ι) (l : κ) :
    IsGreatest (Restored k t l) (restored k t l).priority :=
  foldl_keepDonor_priority k l (k.donors t) _

theorem restored_donors (k : Kernel ι κ) (t : ι) (l : κ) :
    (restored k t l).priorityDonations =
        (k.donors t).diff ((k.donors t).filter (fun d => k.needed d = some l)) ∧
      (restored k t l).origPriority = k.origPriority t ∧
      (restored k t l).lockNeeded = k.needed t :=
  foldl_keepDonor_donors k l (k.donors t) _

/-- Thread `t` gives the lock back. -/
structure Releases (k k' : Kernel ι κ) (t : ι) (l : κ) : Prop where
  priority : IsGreatest (insert (k.origPriority t)
    {v | ∃ d ∈ k.donors t, k.needed d ≠ some l ∧ k.priority d = v}) (k'.priority t)
  others : ∀ y, y ≠ t → k'.thread y = k.thread y
  orig : k'.origPriority t = k.origPriority t
  needed : k'.needed t = k.needed t
  donors : ∀ d ∈ k'.donors t, d ∈ k.donors t ∧ k.needed d ≠ some l
  nodup : (k'.donors t).Nodup
  holder : ∀ m, k'.holder m = if m = l then none else k.holder m
  value : ∀ m, (k'.lock m).value = if m = l then (k.lock l).value + 1 else (k.lock m).value
  waiting : k'.waiting = k.waiting

theorem semaUpLock_ensures (l : κ) (k : Kernel ι κ) :
    Ensures (semaUpLock l) k (fun _ k' => k'.thread = k.thread ∧ k'.waiting = k.waiting ∧
      (∀ m, k'.holder m = k.holder m) ∧
      ∀ m, (k'.lock m).value = if m = l then (k.lock l).value + 1 else (k.lock m).value) := by
  have hup : ∀ k₁ : Kernel ι κ, k₁.thread = k.thread → k₁.waiting = k.waiting →
      (∀ m, (k₁.lock m).holder = (k.lock m).holder ∧ (k₁.lock m).value = (k.lock m).value) →
        Ensures (Exec.update (setLock l (fun m => { m with value := m.value + 1 }))) k₁ (fun _ k' =>
          k'.thread = k.thread ∧ k'.waiting = k.waiting ∧ (∀ m, k'.holder m = k.holder m) ∧
          ∀ m, (k'.lock m).value = if m = l then (k.lock l).value + 1 else (k.lock m).value) := by
    intro k₁ hth hw hl
    rw [ensures_update]
    refine ⟨hth, hw, fun m => ?_, fun m => ?_⟩
    · rw [holder, setLock_lock]
      split_ifs with hm
      · rw [hm]
        exact (hl l).1
      · exact (hl m).1
    · rw [setLock_lock]
      split_ifs with hm
      · rw [(hl l).2]
      · exact (hl m).2
  rw [semaUpLock, ensures_get]
  by_cases hws : (k.lock l).waiters ≠ []
  · rw [if_pos hws, ensures_get]
    cases listHighestPriority (fun w => (k.thread w).priority) (k.lock l).waiters with
    | none =>
      rw [ensures_bind]
      exact ensures_stop
    | some w =>
      rw [ensures_put]
      refine hup _ rfl rfl (fun m => ?_)
      rw [setLock_lock]
      split_ifs with hm
      · rw [hm]
        exact ⟨rfl, rfl⟩
      · exact ⟨rfl, rfl⟩
  · rw [if_neg hws]
    exact hup k rfl rfl (fun m => ⟨rfl, rfl⟩)

theorem lockRelease_ensures (t : ι) (l : κ) (k : Kernel ι κ) (hnodup : (k.donors t).Nodup)
    (hds : ∀ d ∈ k.donors t, d ≠ t) :
    Ensures (lockRelease t l) k (fun _ k' => k.holder l = some t ∧ Releases k k' t l) := by
  rw [lockRelease, ensures_get, ensures_check]
  intro hh
  rw [ensures_put, ensures_get]
  rw [donors_setThread, ensures_bind]
  refine (releaseAll_ensures t l k hds).mono (fun _ k₁ hk₁ => ?_)
  rw [ensures_put]
  refine (semaUpLock_ensures l _).mono (fun _ k₂ ⟨hth, hw, hholder, hvalue⟩ => ⟨hh, ?_⟩)
  have hthread : ∀ y, k₂.thread y = if y = t then restored k t l else k.thread y := by
    intro y
    rw [hth, hk₁]
    exact setThread_thread t (fun _ => restored k t l) k y
  have hself : k₂.thread t = restored k t l := by rw [hthread, if_pos rfl]
  obtain ⟨hdonors, horig, hneeded⟩ := restored_donors k t l
  refine ⟨?_, fun y hy => by rw [hthread, if_neg hy], ?_, ?_, fun d hd => ?_, ?_, fun m => ?_,
    fun m => ?_, ?_⟩
  · rw [priority, hself]
    exact restored_priority k t l
  · rw [origPriority, hself, horig]
  · rw [needed, hself, hneeded]
  · rw [donors, hself, hdonors, hnodup.mem_sdiff_iff] at hd
    simpa [hd.1] using hd
  · rw [donors, hself, hdonors]
    exact hnodup.diff
  · rw [hholder, hk₁, holder, setLock_lock]
    split_ifs <;> rfl
  · rw [hvalue, hk₁, setLock_lock, setLock_lock, if_pos rfl]
    split_ifs <;> rfl
  · rw [hw, hk₁]
    rfl

end Effects

end Kernel

end KernelSanders
