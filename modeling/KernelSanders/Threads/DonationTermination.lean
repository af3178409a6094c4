import KernelSanders.Threads.EffectivePriority

namespace KernelSanders

open Lib Lib.Exec Relation LockOp
open Kernel

/-!
# The loop of `thread_donate_priority` comes to an end, or not

The loop follows `lock_needed` from a thread to a lock and `holder` from the lock to the next
thread.  It has no measure of its own.  `Kernel.ends_iff` says when it stops at a thread that needs
nothing: all the locks on the way are held, and no thread is met twice.

Where the links are waits that still last, that nobody is met twice follows from the absence of
cycles among the waiting threads (`Kernel.Sound.ends`), which every operation keeps.  But
`lock_needed` is written when a thread donates and never again, so it goes on pointing at a lock
that the thread has long obtained: `donation_diverges`.
-/

variable {ι κ : Type} {k : Kernel ι κ}

namespace Kernel

/-! ### Chains that end -/

variable {m : Nat}

/-- What lies behind on a chain that ends is nearer to its end. -/
theorem Ends.along {x y : ι} (h : Ends k m x) (hxy : ReflTransGen k.Linked x y) :
    ∃ j, j ≤ m ∧ Ends k j y := by
  induction hxy with
  | refl => exact ⟨m, le_rfl, h⟩
  | tail _ hstep ih =>
    obtain ⟨j, hj, he⟩ := ih
    cases he with
    | here hn =>
      obtain ⟨l, hl, -⟩ := hstep
      rw [hn] at hl
      cases hl
    | next hl he =>
      rw [Linked.unique hl hstep] at he
      exact ⟨_, by omega, he⟩

theorem Ends.not_back {x : ι} (h : Ends k m x) : ¬ TransGen k.Linked x x := by
  intro hcycle
  obtain ⟨y, hxy, hyx⟩ := TransGen.head'_iff.mp hcycle
  cases h with
  | here hn =>
    obtain ⟨l, hl, -⟩ := hxy
    rw [hn] at hl
    cases hl
  | next hl he =>
    -- once around the cycle the distance to the end would have become smaller
    rw [Linked.unique hl hxy] at he
    obtain ⟨j, hj, hx⟩ := he.along hyx
    have hsame := Ends.unique hx (.next hxy he)
    omega

/-- Of finitely many threads in which no link leads back, each has a chain that ends, if the locks
    on it are held. -/
theorem ends_of_held [Finite ι] {h : ι}
    (hheld : ∀ x ∈ k.chain h, ∀ l, k.needed x = some l → k.holder l ≠ none)
    (hback : ∀ x ∈ k.chain h, ¬ TransGen k.Linked x x) : ∃ m, Ends k m h := by
  -- induction along the links between threads of the chain
  let r : ι → ι → Prop := fun y x => x ∈ k.chain h ∧ TransGen k.Linked x y
  have htrans : IsTrans ι r := ⟨fun a b c hab hbc => ⟨hbc.1, hbc.2.trans hab.2⟩⟩
  have hirrefl : Std.Irrefl r := ⟨fun a ha => hback a ha.1 ha.2⟩
  have hwf : WellFounded r := Finite.wellFounded_of_trans_of_irrefl r
  suffices hall : ∀ x, x ∈ k.chain h → ∃ m, Ends k m x from hall h ReflTransGen.refl
  intro x
  induction x using hwf.induction with
  | h x ih =>
    intro hx
    cases hl : (k.thread x).lockNeeded with
    | none => exact ⟨0, .here hl⟩
    | some l =>
      obtain ⟨y, hy⟩ := Option.ne_none_iff_exists'.mp (hheld x hx l hl)
      have hlink : k.Linked x y := ⟨l, hl, hy⟩
      obtain ⟨m, hm⟩ := ih y ⟨hx, TransGen.single hlink⟩ (ReflTransGen.tail hx hlink)
      exact ⟨m + 1, .next hlink hm⟩

theorem ends_iff [Finite ι] (k : Kernel ι κ) (h : ι) :
    (∃ m, Ends k m h) ↔
      (∀ x ∈ k.chain h, ∀ l, k.needed x = some l → k.holder l ≠ none) ∧
        ∀ x ∈ k.chain h, ¬ TransGen k.Linked x x := by
  constructor
  · rintro ⟨m, hm⟩
    refine ⟨fun x hx l hl hn => ?_, fun x hx => ?_⟩
    · obtain ⟨j, -, he⟩ := hm.along hx
      have hl : (k.thread x).lockNeeded = some l := hl
      cases he with
      | here hnone =>
        rw [hnone] at hl
        cases hl
      | next hlink _ =>
        obtain ⟨l', hl', hy⟩ := hlink
        rw [hl] at hl'
        cases hl'
        rw [holder, hy] at hn
        cases hn
    · obtain ⟨j, -, he⟩ := hm.along hx
      exact he.not_back
  · rintro ⟨hheld, hback⟩
    exact ends_of_held hheld hback

/-! ### What the loop does on them -/

section Loop

variable [DecidableEq ι]

/-- The loop returns when its chain ends. -/
theorem Ends.trickle_ok {x : ι} (h : Ends k m x) :
    ∃ k', (trickle (m + 1) x).run k = .ok ((), k') := by
  induction m generalizing k x with
  | zero =>
    cases h with
    | here hn => exact ⟨k, by simp only [trickle, read_bind, hn]; rfl⟩
  | succ m ih =>
    cases h with
    | next hlink he =>
      obtain ⟨l, hl, hy⟩ := hlink
      -- the priority that is passed on leaves the links alone
      obtain ⟨hlinks, hneed⟩ := linked_setPriority _ (k.thread x).priority k
      obtain ⟨k', hk'⟩ := ih (he.congr hlinks hneed)
      refine ⟨k', ?_⟩
      rw [trickle]
      simp only [read_bind, hl, hy, update_bind]
      exact hk'

/-- `thread_donate_priority` returns exactly when the chain from the donee ends. -/
theorem threadDonatePriority_returns_iff [Fintype ι] [DecidableEq κ] (k : Kernel ι κ) (t h : ι) :
    (∃ k', (threadDonatePriority t h).run k = .ok ((), k')) ↔ ∃ m, Ends k m h := by
  rw [threadDonatePriority]
  simp only [update_bind]
  generalize hk : setThread h _ (setThread h _ k) = k₁
  -- the record of the donation changes no link either
  have hlink : k₁.Linked = k.Linked ∧
      ∀ u, (k₁.thread u).lockNeeded = (k.thread u).lockNeeded := by
    obtain ⟨h₁, hn₁⟩ := linked_setThread h (fun th => { th with
      priorityDonations := th.priorityDonations ++ [t] }) k (fun _ => rfl)
    rw [← hk]
    obtain ⟨h₂, hn₂⟩ := linked_setPriority h ((setThread h (fun th => { th with
      priorityDonations := th.priorityDonations ++ [t] }) k).thread t).priority (setThread h
        (fun th => { th with priorityDonations := th.priorityDonations ++ [t] }) k)
    exact ⟨h₂.trans h₁, fun u => (hn₂ u).trans (hn₁ u)⟩
  constructor
  · rintro ⟨k', hrun⟩
    obtain ⟨m, hm⟩ := trickle_ends _ h k₁ () k' hrun
    exact ⟨m, hm.congr hlink.1.symm (fun u => (hlink.2 u).symm)⟩
  · rintro ⟨m, hm⟩
    obtain ⟨k', hk'⟩ := (hm.congr hlink.1 hlink.2).trickle_ok
    exact ⟨k', trickle_card hk'⟩

end Loop

/-! ### Runs -/

section Runs

variable [DecidableEq ι] [DecidableEq κ] {k' : Kernel ι κ}

theorem call_sound [Fintype ι] {c : LockCall ι κ} (hs : Sound k) (h : c.Steps k k') : Sound k' := by
  cases c with
  | op o => exact step_sound hs h
  | tryAcquire t l =>
    obtain ⟨hw, b, hrun⟩ := h
    rcases lockTryAcquire_ensures t l k hw b k' hrun with ⟨-, hv, htake⟩ | ⟨-, rfl⟩
    · have hfree : k.holder l = none := by
        by_contra hn
        rw [hs.value l, if_neg hn] at hv
        exact hv rfl
      exact htake.sound hs hfree (.inl hw)
    · exact hs

theorem sound_of_run [Fintype ι] {k₀ : Kernel ι κ} (hboot : k₀.Boot) (h : LockRun k₀ k) :
    Sound k := by
  induction h with
  | refl => exact hboot.sound
  | tail _ hstep ih =>
    obtain ⟨c, hc⟩ := hstep
    exact call_sound ih hc

omit [DecidableEq ι] [DecidableEq κ] in
/-- Links that are waits make a chain that ends. -/
theorem Sound.ends [Finite ι] (hs : Sound k) {h : ι}
    (hcurrent : ∀ x ∈ k.chain h, ∀ l, k.needed x = some l →
      k.waiting x = some l ∧ k.holder l ≠ none) : ∃ m, Ends k m h := by
  refine ends_of_held (fun x hx l hl => (hcurrent x hx l hl).2) (fun x hx hcycle => ?_)
  -- a cycle of links among them would be a cycle of waiting threads
  have hwaits : ∀ y, TransGen k.Linked x y → TransGen k.Waits x y := by
    intro y hy
    induction hy with
    | single hlink =>
      obtain ⟨l, hl, hz⟩ := hlink
      exact .single ⟨l, (hcurrent _ hx l hl).1, hz⟩
    | tail hxz hlink ih =>
      obtain ⟨l, hl, hz⟩ := hlink
      have hmem := ReflTransGen.trans hx hxz.to_reflTransGen
      exact ih.tail ⟨l, (hcurrent _ hmem l hl).1, hz⟩
  exact hs.acyclic x (hwaits x hcycle)

end Runs

end Kernel

variable [DecidableEq ι] [DecidableEq κ]

/-- **Donation.** After any run, `thread_donate_priority` returns if and only if the locks that the
    links from the donee lead over are all held and no link leads back; and it does return where
    each thread on the way still waits for the lock that it needs, and that lock is held. -/
theorem donation_terminates [Fintype ι] {k₀ k : Kernel ι κ} (hboot : k₀.Boot)
    (hrun : LockRun k₀ k) (t h : ι) :
    ((∃ k', (threadDonatePriority t h).run k = .ok ((), k')) ↔
      (∀ x ∈ k.chain h, ∀ l, k.needed x = some l → k.holder l ≠ none) ∧
        ∀ x ∈ k.chain h, ¬ TransGen k.Linked x x) ∧
    ((∀ x ∈ k.chain h, ∀ l, k.needed x = some l → k.waiting x = some l ∧ k.holder l ≠ none) →
      ∃ k', (threadDonatePriority t h).run k = .ok ((), k')) := by
  rw [threadDonatePriority_returns_iff]
  exact ⟨ends_iff k h, (sound_of_run hboot hrun).ends⟩

/-! ### A chain of three threads -/

/-- Threads of priorities `10`, `20` and `30`. -/
def chainKernel : Kernel (Fin 3) (Fin 2) := fresh (fun t => 10 * (t.val + 1 : Nat))

def chainHeld : Kernel (Fin 3) (Fin 2) := final (acquire 0 0).code chainKernel

def chainBoth : Kernel (Fin 3) (Fin 2) := final (acquire 1 1).code chainHeld

/-- Thread `1` holds lock `1` and waits for lock `0`, which thread `0` holds. -/
def chainWaits : Kernel (Fin 3) (Fin 2) := final (acquire 1 0).code chainBoth

def chainFree : Kernel (Fin 3) (Fin 2) := final (release 0 0).code chainWaits

/-- Thread `1` has got lock `0`. -/
def chainPassed : Kernel (Fin 3) (Fin 2) := final (resume 1).code chainFree

/-- Thread `1` has released lock `0` again. -/
def chainDropped : Kernel (Fin 3) (Fin 2) := final (release 1 0).code chainPassed

omit [DecidableEq ι] [DecidableEq κ] in
theorem LockOp.noCycle_of_free {t : ι} {l : κ} (hfree : (k.lock l).holder = none) :
    (acquire t l).NoCycle k := by
  intro h hh
  rw [hfree] at hh
  cases hh

theorem LockRun.tail_op [Fintype ι] {k₀ : Kernel ι κ} (h : LockRun k₀ k) (op : LockOp ι κ)
    (hready : op.Ready k) (hno : op.NoCycle k) (hok : outcome op.code k = .ok ()) :
    LockRun k₀ (final op.code k) :=
  h.tail ⟨.op op, steps_of_outcome hready hno hok⟩

theorem chainWaits_run : LockRun chainKernel chainWaits := by
  have h₁ : LockRun chainKernel chainHeld :=
    LockRun.tail_op .refl _ rfl (noCycle_of_free rfl) (by decide +kernel)
  have h₂ : LockRun chainKernel chainBoth :=
    h₁.tail_op _ (by show chainHeld.waiting 1 = none; decide +kernel)
      (noCycle_of_free (by decide +kernel)) (by decide +kernel)
  exact h₂.tail_op _ (by show chainBoth.waiting 1 = none; decide +kernel)
    (noCycle_of_running (h := 0) (by decide +kernel) (by decide +kernel) (by decide))
    (by decide +kernel)

theorem chainPassed_run : LockRun chainKernel chainPassed := by
  have h₁ : LockRun chainKernel chainFree :=
    chainWaits_run.tail_op _ (by show chainWaits.waiting 0 = none; decide +kernel) trivial
      (by decide +kernel)
  exact h₁.tail_op _ ⟨0, by decide +kernel, by decide +kernel⟩ trivial (by decide +kernel)

theorem donation_terminates_chained :
    chainKernel.Boot ∧ LockRun chainKernel chainWaits ∧ chainWaits.needed 1 = some 0 ∧
      ∃ k', (threadDonatePriority 2 1).run chainWaits = .ok ((), k') := by
  have hboot : chainKernel.Boot := boot_fresh _
  -- the one thread that needs a lock waits for it
  have hcurrent : ∀ x, ∀ l, chainWaits.needed x = some l →
      chainWaits.waiting x = some l ∧ chainWaits.holder l ≠ none := by decide +kernel
  exact ⟨hboot, chainWaits_run, by decide +kernel,
    (donation_terminates hboot chainWaits_run 2 1).2 (fun x _ => hcurrent x)⟩

/-- The link outlives the wait.  When thread `1` has the lock it waited for and thread `2` wants
    it, the loop goes around from thread `1` to thread `1`, however often; and when thread `1`
    has released it and thread `2` wants the other lock, the assertion in the loop fails. -/
theorem donation_diverges :
    LockRun chainKernel chainPassed ∧
      (acquire 2 0).Ready chainPassed ∧ (acquire 2 0).NoCycle chainPassed ∧
      outcome (acquire 2 0).code chainPassed = .error .fuel ∧
      (∀ n k', (trickle n 1).run chainPassed ≠ .ok ((), k')) ∧
    LockRun chainKernel chainDropped ∧
      (acquire 2 1).Ready chainDropped ∧ (acquire 2 1).NoCycle chainDropped ∧
      outcome (acquire 2 1).code chainDropped
        = .error (.panic "next_lock->holder != NULL") := by
  refine ⟨chainPassed_run, by show chainPassed.waiting 2 = none; decide +kernel,
    noCycle_of_running (h := 1) (by decide +kernel) (by decide +kernel) (by decide),
    by decide +kernel, fun n k' hrun => ?_, ?_,
    by show chainDropped.waiting 2 = none; decide +kernel,
    noCycle_of_running (h := 1) (by decide +kernel) (by decide +kernel) (by decide),
    by decide +kernel⟩
  · -- it would have ended within three turns
    have hcard := trickle_card hrun
    have hfuel : outcome (trickle (Fintype.card (Fin 3)) 1) chainPassed
        = .error .fuel := by decide +kernel
    rw [outcome, hcard] at hfuel
    cases hfuel
  · exact chainPassed_run.tail_op _ (by show chainPassed.waiting 1 = none; decide +kernel) trivial
      (by decide +kernel)

end KernelSanders
