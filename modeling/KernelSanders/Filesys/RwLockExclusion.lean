import KernelSanders.Filesys.RwLockThreads

namespace KernelSanders

open Lib
open Lib.Exec hiding update
open Function Latch

/-!
# The reader/writer lock excludes

The proof outline of the eight functions on a lock: `RwCall.phases` lists the phases each of them
goes through, and `RwCall.waits` what it waits for in which phase.  `Latch.*_safe` checks every
function against it once; what any run of any number of threads can reach follows from the
library's `run_good`.
-/

/-- The functions of `cache.c` on a lock. -/
inductive RwCall where
  | readBegin
  | readTry
  | readEnd
  | upgrade
  | downgrade
  | writeBegin
  | writeTry
  | writeEnd
  deriving DecidableEq

/-- What a thread has between two calls; a writer remembers whether `cache_write_try` made it
    one. -/
inductive Role where
  | out
  | reading
  | writing (tried : Bool)
  deriving DecidableEq

def Role.phase : Role → Phase
  | .out => .out
  | .reading => .reader
  | .writing _ => .writer

def RwCall.phases : RwCall → List Phase
  | .readBegin => [.out, .inR, .alone, .aloneX, .firstX, .joined, .readerR, .reader]
  | .readTry => [.out, .inR, .alone, .joined, .readerR, .reader]
  | .readEnd => [.reader, .readerR, .lastR, .leftR, .inR, .out]
  | .upgrade => [.reader, .readerR, .lastR, .leftR, .leftX, .waitingX, .writerX, .writer]
  | .downgrade => [.writer, .writerR, .readerR, .reader]
  | .writeBegin => [.out, .waitingX, .writerX, .writer]
  | .writeTry => [.out, .writer]
  | .writeEnd => [.writer, .out]

def RwCall.waits : RwCall → Phase → Option Resource
  | .readBegin, .out => some .r
  | .readBegin, .alone => some .extra
  | .readBegin, .aloneX => some .g
  | .readEnd, .reader => some .r
  | .upgrade, .reader => some .r
  | .upgrade, .leftR => some .extra
  | .upgrade, .waitingX => some .g
  | .downgrade, .writer => some .r
  | .writeBegin, .out => some .extra
  | .writeBegin, .waitingX => some .g
  | _, _ => none

variable {ι : Type} [Fintype ι] [DecidableEq ι] {p : Pool ι (Latch ι) RwCall Role} {c : RwCall}
  {r : Role}

/-- The outline of the functions on a lock. -/
def rwOutline : Outline ι (Latch ι) RwCall Role Phase where
  inv := RwInv
  sched _ _ := True
  home r ph := ph = r.phase
  during c ph := ph ∈ c.phases
  done _ r ph := ph = r.phase
  changes _ _ _ := True
  stops c t e l G := e = .blocked ∧ ∃ res, c.waits (G t) = some res ∧ Busy l G res

section Safe

variable {t : ι} {α β : Type} {Q : β → Phase → Prop} {ph q : Phase} {a : Exec (Latch ι) α}
  {f : α → Prog (Latch ι) β}

section

variable (hd : ph ∈ c.phases)
include hd

/-- An action after which the phase depends on what it found. -/
theorem safe_find
    (hm : ∀ l G, RwInv l G → G t = ph → Meets a l
      (fun b l' => ∃ q, RwInv l' (update G t q) ∧ Safe rwOutline c t Q (f b) q)
      (fun _ => False)) : Safe rwOutline c t Q (Prog.atomic a >>= f) ph :=
  safe_step hd (fun l G hinv _ hG => (hm l G hinv hG).mono
    (fun _ _ ⟨q, h, hf⟩ => ⟨q, h, trivial, hf⟩) (fun _ he => he.elim))

/-- The end of a call. -/
theorem safe_done {b : β} (hQ : Q b ph) : Safe rwOutline c t Q (pure b : Prog (Latch ι) β) ph :=
  ⟨hd, hQ⟩

/-- An action that may have to wait, to one next phase. -/
theorem safe_wait {res : Resource} (hw : c.waits ph = some res)
    (hm : ∀ l G, RwInv l G → G t = ph → Meets a l
      (fun _ l' => RwInv l' (update G t q)) (fun e => e = .blocked ∧ Busy l G res))
    (hf : ∀ b, Safe rwOutline c t Q (f b) q) : Safe rwOutline c t Q (Prog.atomic a >>= f) ph := by
  refine safe_step hd (fun l G hinv _ hG => (hm l G hinv hG).mono ?_ ?_)
  · intro b l' h
    exact ⟨q, h, trivial, hf b⟩
  · intro e ⟨he, hb⟩
    exact ⟨he, res, by rw [hG]; exact hw, hb⟩

/-- An action that never waits, to one next phase. -/
theorem safe_go
    (hm : ∀ l G, RwInv l G → G t = ph → Meets a l
      (fun _ l' => RwInv l' (update G t q)) (fun _ => False))
    (hf : ∀ b, Safe rwOutline c t Q (f b) q) : Safe rwOutline c t Q (Prog.atomic a >>= f) ph := by
  refine safe_step hd (fun l G hinv _ hG => (hm l G hinv hG).mono ?_ (fun _ he => he.elim))
  intro b l' h
  exact ⟨q, h, trivial, hf b⟩

/-- An action that never waits, at the end of a call. -/
theorem safe_last {a : Exec (Latch ι) β} (hd' : q ∈ c.phases)
    (hm : ∀ l G, RwInv l G → G t = ph → Meets a l
      (fun b l' => RwInv l' (update G t q) ∧ Q b q) (fun _ => False)) :
    Safe rwOutline c t Q (Prog.atomic a) ph := by
  refine safe_atomic hd (fun l G hinv _ hG => (hm l G hinv hG).mono ?_ (fun _ he => he.elim))
  intro b l' ⟨h, hQ⟩
  exact ⟨q, h, trivial, hd', hQ⟩

/-- A look at `b`, in a phase that says enough about it. -/
theorem safe_getB {f : Int → Prog (Latch ι) β}
    (hf : ∀ b l G, RwInv l G → G t = ph → l.lock.b = b → Safe rwOutline c t Q (f b) ph) :
    Safe rwOutline c t Q (Prog.atomic getB >>= f) ph := by
  refine safe_step hd (fun l G hinv _ hG => ?_)
  rw [getB, meets_read]
  refine ⟨ph, ?_, trivial, hf _ l G hinv hG rfl⟩
  rw [← hG, update_eq_self]
  exact hinv

end

end Safe

namespace Latch

variable (t : ι)

/-- Giving `r` back at the end of a call. -/
theorem releaseR_safe {ph q : Phase} (hd : ph ∈ c.phases ∧ q ∈ c.phases)
    (ha : ph.Alike q ∧ (ph.hasR = true ∧ q.hasR = false) ∧ q.hasX = ph.hasX) :
    Safe rwOutline c t (fun _ p => p = q) (Prog.atomic (onR (lockRelease t))) ph :=
  safe_last hd.1 hd.2 (fun _ _ h hG => (h.releaseR hG ha).mono (fun _ _ h' => ⟨h', rfl⟩)
    (fun _ he => he))

theorem cacheReadBegin_safe :
    Safe rwOutline .readBegin t (fun _ p => p = .reader) (cacheReadBegin t) .out := by
  refine safe_wait (by decide) rfl
    (fun _ _ h hG => h.acquireR hG (q := .inR) (by decide)) (fun _ => ?_)
  refine safe_find (by decide) (fun l G h hG => (h.countIn hG).mono ?_ (fun _ he => he))
  intro _ l' h'
  rcases h' with h' | h'
  · -- the only accessor waits for `extra` and `g`
    refine ⟨.alone, h', safe_getB (by decide) (fun b _ _ h hG hb => ?_)⟩
    rw [h.b_alone hG] at hb
    subst hb
    refine Safe.bind (Q := fun _ p => p = .readerR) ?_ (fun _ p _ hp => ?_)
    · refine safe_wait (by decide) rfl
        (fun _ _ h hG => h.acquireX hG (q := .aloneX) (by decide)) (fun _ => ?_)
      refine safe_wait (by decide) rfl
        (fun _ _ h hG => h.downG hG (q := .firstX) (by decide)) (fun _ => ?_)
      exact safe_last (q := .readerR) (by decide) (by decide) (fun _ _ h hG =>
        (h.releaseX hG (q := .readerR) (by decide)).mono (fun _ _ h' => ⟨h', rfl⟩)
          (fun _ he => he))
    · subst hp
      exact releaseR_safe t (by decide) (by decide)
  · -- the readers that are there have `g`
    refine ⟨.joined, h', safe_getB (by decide) (fun b _ _ h hG hb => ?_)⟩
    have hne : b ≠ 1 := hb ▸ h.b_joined hG
    rw [waitFirst, if_neg hne]
    exact releaseR_safe t (by decide) (by decide)

theorem cacheReadTry_safe :
    Safe rwOutline .readTry t (fun b p => p = if b then .reader else .out) (cacheReadTry t)
      .out := by
  have hyes : ∀ {ph : Phase}, ph = .joined ∨ ph = .readerR →
      Safe rwOutline .readTry t (fun b p => p = if b then .reader else .out)
        (do Prog.atomic (onR (lockRelease t)); pure true) ph := by
    intro ph hph
    refine safe_go (q := .reader) ?_ (fun _ _ h hG => h.releaseR hG ?_)
      (fun _ => safe_done (by decide) rfl) <;>
    rcases hph with rfl | rfl <;> decide
  refine safe_find (by decide) (fun l G h hG =>
    (h.tryR hG (q := .inR) (by decide)).mono ?_ (fun _ he => he))
  intro free l' h'
  cases free with
  | false => exact ⟨.out, h', safe_done (by decide) rfl⟩
  | true =>
    refine ⟨.inR, h', safe_find (by decide) (fun l G h hG =>
      (h.countIn hG).mono ?_ (fun _ he => he))⟩
    intro _ l' h'
    rcases h' with h' | h'
    · refine ⟨.alone, h', safe_getB (by decide) (fun b _ _ h hG hb => ?_)⟩
      rw [h.b_alone hG] at hb
      subst hb
      refine safe_find (by decide) (fun l G h hG =>
        (h.tryG hG (q := .readerR) (by decide)).mono ?_ (fun _ he => he))
      intro granted l' ⟨h', _⟩
      cases granted with
      | true => exact ⟨.readerR, h', hyes (.inr rfl)⟩
      | false =>
        refine ⟨.alone, h', safe_go (q := .inR) (by decide) (fun _ _ h hG => h.uncount hG)
          (fun _ => ?_)⟩
        exact safe_go (q := .out) (by decide)
          (fun _ _ h hG => h.releaseR hG (by decide))
          (fun _ => safe_done (by decide) rfl)
    · refine ⟨.joined, h', safe_getB (by decide) (fun b _ _ h hG hb => ?_)⟩
      have hne : b ≠ 1 := hb ▸ h.b_joined hG
      rw [tryFirst, if_neg hne]
      exact hyes (.inl rfl)

theorem cacheReadEnd_safe :
    Safe rwOutline .readEnd t (fun _ p => p = .out) (cacheReadEnd t) .reader := by
  refine safe_wait (by decide) rfl
    (fun _ _ h hG => h.acquireR hG (q := .readerR) (by decide)) (fun _ => ?_)
  refine safe_find (by decide) (fun l G h hG => (h.countOut hG).mono ?_ (fun _ he => he))
  intro _ l' h'
  rcases h' with h' | h'
  · -- the last accessor frees the semaphore
    refine ⟨.lastR, h', safe_getB (by decide) (fun b _ _ h hG hb => ?_)⟩
    rw [h.b_owner (.inl hG)] at hb
    subst hb
    refine safe_go (q := .inR) (by decide) (fun _ _ h hG => h.upG hG (by decide)) (fun _ => ?_)
    exact releaseR_safe t (by decide) (by decide)
  · refine ⟨.leftR, h', safe_getB (by decide) (fun b _ _ h hG hb => ?_)⟩
    have hne : b ≠ 0 := hb ▸ h.b_left hG
    rw [freeLast, if_neg hne]
    exact releaseR_safe t (by decide) (by decide)

/-- Waiting for the semaphore behind `extra`, and letting `extra` go. -/
theorem downG_safe (hd : .waitingX ∈ c.phases) (hd' : .writerX ∈ c.phases)
    (hd'' : .writer ∈ c.phases) (hw : c.waits .waitingX = some .g) :
    Safe rwOutline c t (fun _ p => p = .writer)
      (do Prog.atomic (onG semaDown); Prog.atomic (onExtra (lockRelease t))) .waitingX := by
  refine safe_wait hd hw (fun _ _ h hG => h.downG hG (q := .writerX) (by decide)) (fun _ => ?_)
  exact safe_last (q := .writer) hd' hd'' (fun _ _ h hG =>
    (h.releaseX hG (q := .writer) (by decide)).mono (fun _ _ h' => ⟨h', rfl⟩)
      (fun _ he => he))

theorem cacheUpgrade_safe :
    Safe rwOutline .upgrade t (fun _ p => p = .writer) (cacheUpgrade t) .reader := by
  refine safe_wait (by decide) rfl
    (fun _ _ h hG => h.acquireR hG (q := .readerR) (by decide)) (fun _ => ?_)
  refine safe_find (by decide) (fun l G h hG => (h.countOut hG).mono ?_ (fun _ he => he))
  intro _ l' h'
  rcases h' with h' | h'
  · -- the last reader keeps the semaphore
    refine ⟨.lastR, h', safe_getB (by decide) (fun b _ _ h hG hb => ?_)⟩
    rw [h.b_owner (.inl hG)] at hb
    subst hb
    exact releaseR_safe t (by decide) (by decide)
  · refine ⟨.leftR, h', safe_getB (by decide) (fun b _ _ h hG hb => ?_)⟩
    have hne : b ≠ 0 := hb ▸ h.b_left hG
    rw [if_neg hne]
    refine safe_wait (by decide) rfl
      (fun _ _ h hG => h.acquireX hG (q := .leftX) (by decide)) (fun _ => ?_)
    refine safe_go (q := .waitingX) (by decide)
      (fun _ _ h hG => h.releaseR hG (by decide)) (fun _ => ?_)
    exact downG_safe t (by decide) (by decide) (by decide) rfl

theorem cacheDowngrade_safe :
    Safe rwOutline .downgrade t (fun _ p => p = .reader) (cacheDowngrade t) .writer := by
  refine safe_wait (by decide) rfl
    (fun _ _ h hG => h.acquireR hG (q := .writerR) (by decide)) (fun _ => ?_)
  refine safe_go (q := .writerR) (by decide) (fun l G h hG => ?_) (fun _ => ?_)
  · -- the assertion holds: nobody is counted while the semaphore has an owner
    rw [assertB, getB, meets_get]
    refine meets_assert (fun _ => ?_) (fun hn => hn (h.b_owner (.inr hG)))
    rw [← hG, update_eq_self]
    exact h
  · refine safe_go (q := .readerR) (by decide) (fun _ _ h hG => h.ownerIn hG) (fun _ => ?_)
    exact releaseR_safe t (by decide) (by decide)

theorem cacheWriteBegin_safe :
    Safe rwOutline .writeBegin t (fun _ p => p = .writer) (cacheWriteBegin t) .out := by
  refine safe_wait (by decide) rfl
    (fun _ _ h hG => h.acquireX hG (q := .waitingX) (by decide)) (fun _ => ?_)
  exact downG_safe t (by decide) (by decide) (by decide) rfl

theorem cacheWriteTry_safe :
    Safe rwOutline .writeTry t (fun b p => p = if b then .writer else .out) cacheWriteTry
      .out := by
  refine safe_find (f := pure) (by decide) (fun l G h hG =>
    (h.tryG hG (q := .writer) (by decide)).mono ?_ (fun _ he => he))
  intro b l' ⟨h', _⟩
  cases b with
  | true => exact ⟨.writer, h', safe_done (by decide) rfl⟩
  | false => exact ⟨.out, h', safe_done (by decide) rfl⟩

theorem cacheWriteEnd_safe :
    Safe rwOutline .writeEnd t (fun _ p => p = .out) cacheWriteEnd .writer :=
  safe_last (q := .out) (by decide) (by decide) (fun _ _ h hG =>
    (h.upG hG (by decide)).mono (fun _ _ h' => ⟨h', rfl⟩) (fun _ he => he))

end Latch

/-! ### Threads that follow the session discipline -/

/-- The code of a call, with what the caller has afterwards. -/
def RwCall.code (t : ι) : RwCall → Prog (Latch ι) Role
  | .readBegin => do cacheReadBegin t; pure .reading
  | .readTry => do
    let granted ← cacheReadTry t
    pure (if granted then .reading else .out)
  | .readEnd => do cacheReadEnd t; pure .out
  | .upgrade => do cacheUpgrade t; pure (.writing false)
  | .downgrade => do cacheDowngrade t; pure .reading
  | .writeBegin => do cacheWriteBegin t; pure (.writing false)
  | .writeTry => do
    let granted ← cacheWriteTry
    pure (if granted then .writing true else .out)
  | .writeEnd => do cacheWriteEnd; pure .out

/-- Only a reader upgrades or ends a read, only a writer downgrades or ends a write, and only a
    thread that is neither begins. -/
def Role.mayCall : Role → RwCall → Bool
  | .out, .readBegin | .out, .readTry | .out, .writeBegin | .out, .writeTry => true
  | .reading, .readEnd | .reading, .upgrade => true
  | .writing _, .downgrade | .writing _, .writeEnd => true
  | _, _ => false

/-- Any threads on one lock. -/
def rwSystem : System ι (Latch ι) RwCall Role where
  code := RwCall.code
  allowed := Role.mayCall

/-- The phase in which a call starts. -/
def RwCall.start : RwCall → Phase
  | .readBegin | .readTry | .writeBegin | .writeTry => .out
  | .readEnd | .upgrade => .reader
  | .downgrade | .writeEnd => .writer

theorem Role.phase_of_mayCall (h : r.mayCall c = true) : r.phase = c.start := by
  cases r <;> cases c <;> first | rfl | cases h

/-- **Every call** keeps the outline. -/
theorem RwCall.code_safe (t : ι) (c : RwCall) :
    Safe rwOutline c t (fun r ph => ph = r.phase) (c.code t) c.start := by
  cases c with
  | readBegin => exact (cacheReadBegin_safe t).bind (fun _ _ hd hp => ⟨hd, hp⟩)
  | readTry =>
    refine (cacheReadTry_safe t).bind (fun b _ hd hp => ⟨hd, ?_⟩)
    cases b <;> exact hp
  | readEnd => exact (cacheReadEnd_safe t).bind (fun _ _ hd hp => ⟨hd, hp⟩)
  | upgrade => exact (cacheUpgrade_safe t).bind (fun _ _ hd hp => ⟨hd, hp⟩)
  | downgrade => exact (cacheDowngrade_safe t).bind (fun _ _ hd hp => ⟨hd, hp⟩)
  | writeBegin => exact (cacheWriteBegin_safe t).bind (fun _ _ hd hp => ⟨hd, hp⟩)
  | writeTry =>
    refine (cacheWriteTry_safe t).bind (fun b _ hd hp => ⟨hd, ?_⟩)
    cases b <;> exact hp
  | writeEnd => exact (cacheWriteEnd_safe t).bind (fun _ _ hd hp => ⟨hd, hp⟩)

/-- Nobody has touched the lock yet. -/
def rwPool : Pool ι (Latch ι) RwCall Role where
  shared := free
  thread _ := .idle .out

theorem good_rwPool : Good rwOutline (rwPool : Pool ι (Latch ι) RwCall Role) (fun _ => .out) := by
  have hzero : ∀ f : Phase → Nat, f .out = 0 → total f (fun _ : ι => Phase.out) = 0 := by
    intro f hf
    simp [total, hf]
  refine ⟨⟨fun t => ?_, fun t => ?_, ?_, ?_, fun t => ?_⟩, fun t => rfl⟩
  · simp [Phase.hasR, rwPool, free]
  · simp [Phase.hasX, rwPool, free]
  · rw [hzero _ rfl]
    rfl
  · rw [hzero _ rfl, hzero _ rfl]
    rfl
  · exact Phase.knows_of_not_hasR rfl _

/-- Every run keeps the outline, whatever part of the discipline it uses and however its steps
    are restricted. -/
theorem rw_good {allowed : Role → RwCall → Bool} {C : ι → (ι → Place RwCall Role) → Prop}
    (hall : ∀ r c, allowed r c = true → r.mayCall c = true)
    (h : Run ⟨RwCall.code, allowed⟩ C rwPool p) : ∃ G, Good rwOutline p G := by
  refine run_good ⟨fun _ _ _ _ _ => trivial, ?_, ?_⟩ h ⟨_, good_rwPool⟩
  · intro p G t r c hG hth ha _
    have hhome := hG.stands t
    rw [hth] at hhome
    have hstart : G t = c.start := Eq.trans hhome (Role.phase_of_mayCall (hall r c ha))
    refine ⟨c.start, ?_, RwCall.code_safe t c⟩
    rw [← hstart, update_eq_self]
    exact hG.inv
  · intro l G t c r hinv hdone
    exact ⟨G t, by rw [update_eq_self]; exact hinv, hdone⟩

theorem Lib.Good.phase_of_idle {G : ι → Phase} (hG : Good rwOutline p G) {t : ι}
    (h : p.places t = .idle r) : G t = r.phase := by
  have hstands := hG.stands t
  rw [Pool.thread_of_idle h] at hstands
  exact hstands

/-! ### Exclusion -/

/-- Thread `t` may read the block. -/
def IsReader (p : Pool ι (Latch ι) RwCall Role) (t : ι) : Prop := p.places t = .idle .reading

/-- Thread `t` may write the block. -/
def IsWriter (p : Pool ι (Latch ι) RwCall Role) (t : ι) : Prop :=
  ∃ tried, p.places t = .idle (.writing tried)

/-- **Exclusion.** In whatever order the operations of any number of threads on `r`, `extra`, `g`
    and `b` happen, there is never a writer together with another writer or with a reader. -/
theorem rwLock_excludes {p : Pool ι (Latch ι) RwCall Role}
    (h : Run rwSystem (fun _ _ => True) rwPool p) {t u : ι} (hne : t ≠ u) (ht : IsWriter p t) :
    ¬ IsWriter p u ∧ ¬ IsReader p u := by
  obtain ⟨G, hG⟩ := rw_good (fun _ _ ha => ha) h
  -- the semaphore has one owner, or none while there are readers
  have hg := hG.inv.g
  obtain ⟨tried, ht⟩ := ht
  have howner : (G t).owner = 1 := by
    rw [hG.phase_of_idle ht]
    rfl
  refine ⟨fun ⟨tried', hu⟩ => ?_, fun hu => ?_⟩
  · have howner' : (G u).owner = 1 := by
      rw [hG.phase_of_idle hu]
      rfl
    have := add_le_total (f := Phase.owner) (G := G) hne
    omega
  · have hadmitted : (G u).admitted = 1 := by
      rw [hG.phase_of_idle hu]
      rfl
    have h₁ := le_total (f := Phase.owner) (G := G) t
    have h₂ := le_total (f := Phase.admitted) (G := G) u
    omega

/-- Two readers, of which the first upgrades while the second is there, the second leaves, the
    first gets the lock, and the second tries in vain to read again. -/
def upgradeMoves : List (Move (Fin 2) RwCall) :=
  [.call 0 .readBegin, .go 0 99, .call 1 .readBegin, .go 1 99, .call 0 .upgrade, .go 0 5,
    .call 1 .readEnd, .go 1 99, .go 0 99, .call 1 .readTry, .go 1 99]

theorem rwLock_excludes_upgrade :
    ∃ p : Pool (Fin 2) (Latch (Fin 2)) RwCall Role,
      Run rwSystem (fun _ _ => True) rwPool p ∧ IsWriter p 0 ∧ ¬ IsWriter p 1 ∧
        ¬ IsReader p 1 := by
  have hplay : (rwPool.play rwSystem (fun _ _ => True) upgradeMoves).map (fun p => p.places 0)
      = some (.idle (.writing false)) := by decide +kernel
  obtain ⟨p, hp, hplace⟩ := Option.map_eq_some_iff.mp hplay
  have hrun := run_of_play hp
  exact ⟨p, hrun, ⟨false, hplace⟩, rwLock_excludes hrun (by decide) ⟨false, hplace⟩⟩

end KernelSanders
