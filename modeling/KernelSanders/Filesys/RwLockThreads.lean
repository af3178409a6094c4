import KernelSanders.Filesys.RwLock
import KernelSanders.Lib.Threads
import KernelSanders.Threads.Synch

namespace KernelSanders

open Lib
open Lib.Exec hiding update
open Function
open Finset

/-!
# `struct rw_lock` under concurrency

The whole lock, with the two locks `r` and `extra`, and the functions of `cache.c` on it as code
of a thread: every operation on `r`, `extra`, `g` and `b` is an action of its own, so that those
of different threads interleave freely.

`Phase` says how far a thread has come with the lock, and `RwInv` ties the four fields to the
phases of all threads.  What it hinges on is who holds `g`: one owner, or the readers that have
been admitted together, but never both (`RwInv.g`).
-/

variable {ι : Type}

/-- `struct rw_lock`, with the holders of its two locks. -/
structure Latch (ι : Type) where
  r : Option ι
  extra : Option ι
  lock : RwLock

open Latch

namespace Latch

/-- The lock as `cache_init` leaves it. -/
def free : Latch ι := ⟨none, none, RwLock.free⟩

def onR {α : Type} (x : Exec (Option ι) α) : Exec (Latch ι) α :=
  zoom r (fun h l => { l with r := h }) x

def onExtra {α : Type} (x : Exec (Option ι) α) : Exec (Latch ι) α :=
  zoom extra (fun h l => { l with extra := h }) x

def onG {α : Type} (x : Exec Nat α) : Exec (Latch ι) α :=
  zoom (fun l => l.lock.g) (fun g l => { l with lock := { l.lock with g := g } }) x

/-- `cache_block->lock.b += d;` -/
def addB (d : Int) : Exec (Latch ι) Unit :=
  Exec.update (fun l => { l with lock := { l.lock with b := l.lock.b + d } })

/-- A look at `cache_block->lock.b`. -/
def getB : Exec (Latch ι) Int := read (fun l => l.lock.b)

/-- `ASSERT(cache_block->lock.b == 0);` -/
def assertB : Exec (Latch ι) Unit := do
  let b ← getB
  assert (b = 0) "cache_block->lock.b == 0"

section Code

open Prog

variable [DecidableEq ι] (t : ι)

/-- What `cache_read_begin` does for the only accessor. -/
def waitFirst (b : Int) : Prog (Latch ι) Unit :=
  if b = 1 then do
    atomic (onExtra (lockAcquire t))
    atomic (onG semaDown)
    atomic (onExtra (lockRelease t))
  else pure ()

/-- `cache_read_begin`. -/
def cacheReadBegin : Prog (Latch ι) Unit := do
  atomic (onR (lockAcquire t))
  atomic (addB 1)
  let b ← atomic getB
  waitFirst t b
  atomic (onR (lockRelease t))

/-- The semaphore is there only if the caller is not the only accessor or it was free. -/
def tryFirst (b : Int) : Prog (Latch ι) Bool :=
  if b = 1 then atomic (onG semaTryDown) else pure true

/-- `cache_read_try` once it has `r`. -/
def readTryIn : Prog (Latch ι) Bool := do
  atomic (addB 1)
  let b ← atomic getB
  let granted ← tryFirst b
  if granted then
    atomic (onR (lockRelease t))
    pure true
  else
    atomic (addB (-1))
    atomic (onR (lockRelease t))
    pure false

/-- `cache_read_try`. -/
def cacheReadTry : Prog (Latch ι) Bool := do
  let free ← atomic (onR (lockTryAcquire t))
  if free then readTryIn t else pure false

/-- The last accessor frees the semaphore. -/
def freeLast (b : Int) : Prog (Latch ι) Unit :=
  if b = 0 then atomic (onG semaUp) else pure ()

/-- `cache_read_end`. -/
def cacheReadEnd : Prog (Latch ι) Unit := do
  atomic (onR (lockAcquire t))
  atomic (addB (-1))
  let b ← atomic getB
  freeLast b
  atomic (onR (lockRelease t))

/-- `cache_upgrade`: `extra` is taken while `r` is still held. -/
def cacheUpgrade : Prog (Latch ι) Unit := do
  atomic (onR (lockAcquire t))
  atomic (addB (-1))
  let b ← atomic getB
  if b = 0 then atomic (onR (lockRelease t))
  else do
    atomic (onExtra (lockAcquire t))
    atomic (onR (lockRelease t))
    atomic (onG semaDown)
    atomic (onExtra (lockRelease t))

/-- `cache_downgrade`. -/
def cacheDowngrade : Prog (Latch ι) Unit := do
  atomic (onR (lockAcquire t))
  atomic assertB
  atomic (addB 1)
  atomic (onR (lockRelease t))

/-- `cache_write_begin`. -/
def cacheWriteBegin : Prog (Latch ι) Unit := do
  atomic (onExtra (lockAcquire t))
  atomic (onG semaDown)
  atomic (onExtra (lockRelease t))

/-- `cache_write_try`. -/
def cacheWriteTry : Prog (Latch ι) Bool := atomic (onG semaTryDown)

/-- The semaphore side of `cache_write_end`. -/
def cacheWriteEnd : Prog (Latch ι) Unit := atomic (onG semaUp)

end Code

end Latch

/-! ### How far a thread has come -/

/-- The points between two actions of a thread, by what the thread has there. -/
inductive Phase where
  /-- Nothing. -/
  | out
  /-- `r`. -/
  | inR
  /-- `r`, counted in `b` as the only accessor, with `g` still to come. -/
  | alone
  /-- The same with `extra`. -/
  | aloneX
  /-- `r` and `extra`, admitted as the first reader. -/
  | firstX
  /-- `r`, admitted to the readers that are there. -/
  | joined
  /-- `r` and a read lock. -/
  | readerR
  /-- A read lock. -/
  | reader
  /-- `r` and the semaphore, taken over from the readers as the last of them. -/
  | lastR
  /-- `r`, with the read lock given up and other readers left. -/
  | leftR
  /-- The same with `extra`. -/
  | leftX
  /-- `extra`, waiting for the semaphore. -/
  | waitingX
  /-- `extra` and a write lock. -/
  | writerX
  /-- A write lock. -/
  | writer
  /-- `r` and a write lock. -/
  | writerR
  deriving DecidableEq, Repr

open Phase

namespace Phase

def hasR : Phase → Bool
  | inR | alone | aloneX | firstX | joined | readerR | lastR | leftR | leftX | writerR => true
  | out | reader | waitingX | writerX | writer => false

def hasX : Phase → Bool
  | aloneX | firstX | leftX | waitingX | writerX => true
  | out | inR | alone | joined | readerR | reader | lastR | leftR | writer | writerR => false

/-- Is it one of the readers that hold `g` together? -/
def admitted : Phase → Nat
  | firstX | joined | readerR | reader => 1
  | out | inR | alone | aloneX | lastR | leftR | leftX | waitingX | writerX | writer
  | writerR => 0

/-- Does it hold `g` by itself? -/
def owner : Phase → Nat
  | lastR | writerX | writer | writerR => 1
  | out | inR | alone | aloneX | firstX | joined | readerR | reader | leftR | leftX
  | waitingX => 0

/-- Is it counted in `b`? -/
def counted : Phase → Nat
  | alone | aloneX | firstX | joined | readerR | reader => 1
  | out | inR | lastR | leftR | leftX | waitingX | writerX | writer | writerR => 0

/-- Has it found nobody else counted? -/
def solitary : Phase → Bool
  | alone | aloneX => true
  | out | inR | firstX | joined | readerR | reader | lastR | leftR | leftX | waitingX | writerX
  | writer | writerR => false

/-- The number of readers it has found. -/
def company : Phase → Nat
  | joined => 2
  | leftR => 1
  | out | inR | alone | aloneX | firstX | readerR | reader | lastR | leftX | waitingX | writerX
  | writer | writerR => 0

/-- What a thread that holds `r` knows about the number of admitted readers. -/
def Knows (ph : Phase) (readers : Nat) : Prop :=
  (ph.solitary = true → readers = 0) ∧ ph.company ≤ readers

/-- Only a thread with `r` knows anything. -/
theorem knows_of_not_hasR {ph : Phase} (h : ph.hasR = false) (readers : Nat) :
    ph.Knows readers := by
  cases ph <;> first | exact absurd h (by decide) | exact ⟨nofun, Nat.zero_le _⟩

/-- The two phases have the same share in `b` and `g`, and the second one knows no more. -/
def Alike (ph q : Phase) : Prop :=
  q.counted = ph.counted ∧ q.admitted = ph.admitted ∧ q.owner = ph.owner ∧
    (q.solitary = true → ph.solitary = true) ∧ q.company ≤ ph.company

instance (ph q : Phase) : Decidable (Alike ph q) := by
  unfold Alike
  infer_instance

end Phase

/-! ### The invariant -/

/-- The holder of a lock is the one thread with a flag raised. -/
def Holder (flag : ι → Bool) (holder : Option ι) : Prop := ∀ t, flag t = true ↔ holder = some t

/-- How thread `t` may change its flag and the holder. -/
inductive Handover (t : ι) : Bool → Bool → Option ι → Option ι → Prop
  | keep (b : Bool) (h : Option ι) : Handover t b b h h
  | take : Handover t false true none (some t)
  | give : Handover t true false (some t) none

theorem Handover.of_eq {t : ι} {b b' : Bool} (h : b' = b) (o : Option ι) : Handover t b b' o o :=
  h ▸ .keep b' o

/-- The four fields of the lock against the phases of all threads. -/
structure RwInv [Fintype ι] (l : Latch ι) (G : ι → Phase) : Prop where
  r : Holder (fun t => (G t).hasR) l.r
  extra : Holder (fun t => (G t).hasX) l.extra
  b : l.lock.b = total counted G
  g : l.lock.g + total owner G + min 1 (total admitted G) = 1
  knows : ∀ t, (G t).Knows (total admitted G)

section Moves

variable [DecidableEq ι]

theorem Holder.update {G : ι → Phase} {t : ι} {ph : Phase} {f : Phase → Bool}
    {holder holder' : Option ι} (h : Holder (fun u => f (G u)) holder)
    (ho : Handover t (f (G t)) (f ph) holder holder') :
    Holder (fun u => f (update G t ph u)) holder' := by
  intro u
  have hu : f (G u) = true ↔ holder = some u := h u
  have ht : f (G t) = true ↔ holder = some t := h t
  by_cases hut : u = t
  · subst hut
    simp only [update_self]
    generalize hx : f (G u) = x at ho ht
    generalize hy : f ph = y at ho
    cases ho with
    | keep => exact ht
    | take => simp
    | give => simp
  · simp only [update_of_ne hut]
    generalize hx : f (G t) = x at ho ht
    generalize hy : f ph = y at ho
    cases ho with
    | keep => exact hu
    | take | give => simpa [Ne.symm hut] using hu

variable [Fintype ι] {l l' : Latch ι} {G : ι → Phase} {t : ι}

omit [DecidableEq ι] in
/-- Two threads do not hold `r` at once. -/
theorem RwInv.r_unique (h : RwInv l G) {u : ι} (ht : (G t).hasR = true)
    (hu : (G u).hasR = true) : t = u :=
  Option.some.inj (((h.r t).mp ht).symm.trans ((h.r u).mp hu))

/-- **One action.** The invariant survives a change of phase that the lock's fields follow.  What
    the other threads know about the number of readers is safe, because the number changes only
    by a thread with `r`. -/
theorem RwInv.move (h : RwInv l G) (ph : Phase)
    (hr : Handover t (G t).hasR ph.hasR l.r l'.r)
    (hx : Handover t (G t).hasX ph.hasX l.extra l'.extra)
    (hb : l'.lock.b + (G t).counted = l.lock.b + ph.counted)
    (hg : ∀ readers, readers + (G t).admitted = total admitted G + ph.admitted →
      l'.lock.g + ph.owner + min 1 readers
          = l.lock.g + (G t).owner + min 1 (total admitted G) ∧ ph.Knows readers)
    (hR : (G t).hasR = true ∨ ph.admitted = (G t).admitted) : RwInv l' (update G t ph) := by
  have hcounted := total_update (f := counted) (G := G) (t := t) ph
  have howner := total_update (f := owner) (G := G) (t := t) ph
  have hadmitted := total_update (f := admitted) (G := G) (t := t) ph
  obtain ⟨hg', hknows⟩ := hg _ hadmitted
  refine ⟨h.r.update hr, h.extra.update hx, ?_, ?_, fun u => ?_⟩
  · have := h.b
    omega
  · have := h.g
    omega
  · by_cases hu : u = t
    · subst hu
      rw [update_self]
      exact hknows
    · rw [update_of_ne hu]
      rcases hR with hR | hR
      · cases hur : (G u).hasR with
        | true => exact absurd (h.r_unique hur hR) hu
        | false => exact knows_of_not_hasR hur _
      · rw [hR] at hadmitted
        rw [show total admitted (update G t ph) = total admitted G by omega]
        exact h.knows u

/-- A phase with the same share in `b` and `g`. -/
theorem RwInv.alike (h : RwInv l G) {ph : Phase} (ha : (G t).Alike ph)
    (hr : Handover t (G t).hasR ph.hasR l.r l'.r)
    (hx : Handover t (G t).hasX ph.hasX l.extra l'.extra) (hl : l'.lock = l.lock) :
    RwInv l' (update G t ph) := by
  obtain ⟨hc, had, how, hsol, hcom⟩ := ha
  have hk := h.knows t
  refine h.move ph hr hx (by rw [hl, hc]) (fun readers hreaders => ?_) (.inr had)
  have heq : readers = total admitted G := by omega
  subst heq
  exact ⟨by rw [hl, how], fun hs => hk.1 (hsol hs), hcom.trans hk.2⟩

/-! ### The actions -/

/-- The three things a thread can wait for. -/
inductive Resource where
  | r
  | extra
  | g
  deriving DecidableEq

/-- Somebody has it. -/
def Busy (l : Latch ι) (G : ι → Phase) : Resource → Prop
  | .r => ∃ u, (G u).hasR = true
  | .extra => ∃ u, (G u).hasX = true
  | .g => l.lock.g = 0

variable {ph q : Phase}

section

variable (h : RwInv l G)
include h

theorem RwInv.acquireR (hph : G t = ph)
    (ha : ph.Alike q ∧ (ph.hasR = false ∧ q.hasR = true) ∧ q.hasX = ph.hasX) :
    Meets (onR (lockAcquire t)) l (fun _ l' => RwInv l' (update G t q))
      (fun e => e = .blocked ∧ Busy l G .r) := by
  subst hph
  obtain ⟨ha, hr, hx⟩ := ha
  have hnot : l.r ≠ some t := fun hn => by simpa [hr.1] using (h.r t).mpr hn
  rw [onR, meets_zoom]
  refine (lockAcquire_meets hnot).mono ?_ ?_
  · intro _ o ⟨hnone, ho⟩
    subst ho
    refine h.alike ha ?_ (.of_eq hx _) rfl
    rw [hr.1, hr.2, hnone]
    exact .take
  · intro e ⟨he, u, hu⟩
    exact ⟨he, u, (h.r u).mpr hu⟩

theorem RwInv.tryR (hph : G t = ph)
    (ha : ph.Alike q ∧ (ph.hasR = false ∧ q.hasR = true) ∧ q.hasX = ph.hasX) :
    Meets (onR (lockTryAcquire t)) l
      (fun b l' => RwInv l' (update G t (if b then q else ph)))
      (fun _ => False) := by
  subst hph
  obtain ⟨ha, hr, hx⟩ := ha
  have hnot : l.r ≠ some t := fun hn => by simpa [hr.1] using (h.r t).mpr hn
  rw [onR, meets_zoom]
  refine (lockTryAcquire_meets hnot).mono ?_ (fun _ he => he)
  intro b o hb
  rcases hb with ⟨rfl, hnone, rfl⟩ | ⟨rfl, rfl⟩
  · rw [if_pos rfl]
    refine h.alike ha ?_ (.of_eq hx _) rfl
    rw [hr.1, hr.2, hnone]
    exact .take
  · simpa using h

theorem RwInv.releaseR (hph : G t = ph)
    (ha : ph.Alike q ∧ (ph.hasR = true ∧ q.hasR = false) ∧ q.hasX = ph.hasX) :
    Meets (onR (lockRelease t)) l (fun _ l' => RwInv l' (update G t q))
      (fun _ => False) := by
  subst hph
  obtain ⟨ha, hr, hx⟩ := ha
  have hheld : l.r = some t := (h.r t).mp hr.1
  rw [onR, meets_zoom]
  refine (lockRelease_meets hheld).mono ?_ (fun _ he => he)
  intro _ o ho
  subst ho
  refine h.alike ha ?_ (.of_eq hx _) rfl
  rw [hr.1, hr.2, hheld]
  exact .give

theorem RwInv.acquireX (hph : G t = ph)
    (ha : ph.Alike q ∧ (ph.hasX = false ∧ q.hasX = true) ∧ q.hasR = ph.hasR) :
    Meets (onExtra (lockAcquire t)) l (fun _ l' => RwInv l' (update G t q))
      (fun e => e = .blocked ∧ Busy l G .extra) := by
  subst hph
  obtain ⟨ha, hx, hr⟩ := ha
  have hnot : l.extra ≠ some t := fun hn => by simpa [hx.1] using (h.extra t).mpr hn
  rw [onExtra, meets_zoom]
  refine (lockAcquire_meets hnot).mono ?_ ?_
  · intro _ o ⟨hnone, ho⟩
    subst ho
    refine h.alike ha (.of_eq hr _) ?_ rfl
    rw [hx.1, hx.2, hnone]
    exact .take
  · intro e ⟨he, u, hu⟩
    exact ⟨he, u, (h.extra u).mpr hu⟩

theorem RwInv.releaseX (hph : G t = ph)
    (ha : ph.Alike q ∧ (ph.hasX = true ∧ q.hasX = false) ∧ q.hasR = ph.hasR) :
    Meets (onExtra (lockRelease t)) l (fun _ l' => RwInv l' (update G t q))
      (fun _ => False) := by
  subst hph
  obtain ⟨ha, hx, hr⟩ := ha
  have hheld : l.extra = some t := (h.extra t).mp hx.1
  rw [onExtra, meets_zoom]
  refine (lockRelease_meets hheld).mono ?_ (fun _ he => he)
  intro _ o ho
  subst ho
  refine h.alike ha (.of_eq hr _) ?_ rfl
  rw [hx.1, hx.2, hheld]
  exact .give

end

/-- The semaphore goes to a thread that is to own it, or to the first reader of a group. -/
def Phase.Takes (ph q : Phase) : Prop :=
  q.hasR = ph.hasR ∧ q.hasX = ph.hasX ∧ q.counted = ph.counted ∧ q.solitary = false ∧
    q.company = 0 ∧
      ((q.admitted = ph.admitted ∧ q.owner = ph.owner + 1) ∨
        (ph.hasR = true ∧ ph.solitary = true ∧ ph.admitted = 0 ∧ q.admitted = 1 ∧
          q.owner = ph.owner))

instance (ph q : Phase) : Decidable (Phase.Takes ph q) := by
  unfold Phase.Takes
  infer_instance

section

variable (h : RwInv l G)
include h

theorem RwInv.take (hp : (G t).Takes q) {v : Nat} (hv : v + 1 = l.lock.g) :
    RwInv { l with lock := { l.lock with g := v } } (update G t q) := by
  obtain ⟨hr, hx, hc, hsol, hcom, hcase⟩ := hp
  have hg := h.g
  have hk := h.knows t
  refine h.move q (.of_eq hr _) (.of_eq hx _) (by rw [hc])
    (fun readers hreaders => ⟨?_, by simp [hsol], by omega⟩) ?_
  · show v + q.owner + min 1 readers = l.lock.g + (G t).owner + min 1 (total admitted G)
    rcases hcase with ⟨had, how⟩ | ⟨-, hs, had, had', how⟩
    · omega
    · have := hk.1 hs
      omega
  · rcases hcase with ⟨had, -⟩ | ⟨hR, -⟩
    · exact .inr had
    · exact .inl hR

theorem RwInv.downG (hph : G t = ph) (hp : ph.Takes q) :
    Meets (onG semaDown) l (fun _ l' => RwInv l' (update G t q))
      (fun e => e = .blocked ∧ Busy l G .g) := by
  subst hph
  rw [onG, meets_zoom]
  exact (semaDown_meets l.lock.g).mono (fun _ _ hv => h.take hp hv) (fun _ he => he)

theorem RwInv.tryG (hph : G t = ph) (hp : ph.Takes q) :
    Meets (onG semaTryDown) l
      (fun b l' => RwInv l' (update G t (if b then q else ph)) ∧
        (b = false → l' = l ∧ l.lock.g = 0))
      (fun _ => False) := by
  subst hph
  rw [onG, meets_zoom]
  refine (semaTryDown_meets l.lock.g).mono ?_ (fun _ he => he)
  intro b v hb
  rcases hb with ⟨rfl, hv⟩ | ⟨rfl, rfl, hzero⟩
  · exact ⟨h.take hp hv, nofun⟩
  · exact ⟨by simpa using h, fun _ => ⟨rfl, hzero⟩⟩

/-- The owner gives the semaphore back. -/
theorem RwInv.upG (hph : G t = ph)
    (hp : q.hasR = ph.hasR ∧ q.hasX = ph.hasX ∧ q.counted = ph.counted ∧
      q.admitted = ph.admitted ∧ q.owner + 1 = ph.owner ∧ q.solitary = false ∧
        q.company = 0) :
    Meets (onG semaUp) l (fun _ l' => RwInv l' (update G t q))
      (fun _ => False) := by
  subst hph
  obtain ⟨hr, hx, hc, had, how, hsol, hcom⟩ := hp
  rw [onG, meets_zoom, semaUp, meets_update]
  refine h.move q (.of_eq hr _) (.of_eq hx _) (by rw [hc])
    (fun readers hreaders => ⟨?_, by simp [hsol], by omega⟩) (.inr had)
  show l.lock.g + 1 + q.owner + min 1 readers = _
  omega

/-- A thread with `r` changes `b`. -/
theorem RwInv.recount (hph : G t = ph) {n : Int} (hr : ph.hasR = true ∧ q.hasR = true)
    (hx : q.hasX = ph.hasX) (hb : n + ph.counted = q.counted)
    (hg : ∀ readers, readers + ph.admitted = total admitted G + q.admitted →
      q.owner + min 1 readers = ph.owner + min 1 (total admitted G) ∧ q.Knows readers) :
    RwInv { l with lock := { l.lock with b := l.lock.b + n } } (update G t q) := by
  subst hph
  refine h.move q (.of_eq (hr.2.trans hr.1.symm) _) (.of_eq hx _) ?_ (fun readers hreaders => ?_)
    (.inl hr.1)
  · show l.lock.b + n + (G t).counted = l.lock.b + q.counted
    omega
  · obtain ⟨hsame, hknows⟩ := hg readers hreaders
    refine ⟨?_, hknows⟩
    show l.lock.g + q.owner + min 1 readers = _
    omega

/-- A thread with `r` is counted: it joins the readers, or it is the only accessor. -/
theorem RwInv.countIn (hph : G t = .inR) :
    Meets (addB 1) l
      (fun _ l' => RwInv l' (update G t .alone) ∨ RwInv l' (update G t .joined))
      (fun _ => False) := by
  rw [addB, meets_update]
  by_cases hA : total admitted G = 0
  · left
    refine h.recount hph ⟨rfl, rfl⟩ rfl rfl (fun readers hreaders => ?_)
    have hread : readers = total admitted G := hreaders
    exact ⟨by rw [hread]; rfl, fun _ => hread.trans hA, Nat.zero_le _⟩
  · right
    refine h.recount hph ⟨rfl, rfl⟩ rfl rfl (fun readers hreaders => ?_)
    have hread : readers = total admitted G + 1 := hreaders
    refine ⟨?_, nofun, ?_⟩
    · show 0 + min 1 readers = 0 + _
      omega
    · show 2 ≤ readers
      omega

/-- A writer with `r` becomes a reader. -/
theorem RwInv.ownerIn (hph : G t = .writerR) :
    Meets (addB 1) l (fun _ l' => RwInv l' (update G t .readerR))
      (fun _ => False) := by
  rw [addB, meets_update]
  have hg := h.g
  have howner := le_total (f := owner) (G := G) t
  rw [hph] at howner
  have howner : 1 ≤ total owner G := howner
  refine h.recount hph ⟨rfl, rfl⟩ rfl rfl (fun readers hreaders => ?_)
  have hread : readers = total admitted G + 1 := hreaders
  refine ⟨?_, nofun, Nat.zero_le _⟩
  show 0 + min 1 readers = 1 + min 1 _
  omega

/-- A reader with `r` is no longer counted: the last one owns the semaphore. -/
theorem RwInv.countOut (hph : G t = .readerR) :
    Meets (addB (-1)) l
      (fun _ l' => RwInv l' (update G t .lastR) ∨ RwInv l' (update G t .leftR))
      (fun _ => False) := by
  rw [addB, meets_update]
  have hle := le_total (f := admitted) (G := G) t
  rw [hph] at hle
  have hle : 1 ≤ total admitted G := hle
  by_cases hA : total admitted G = 1
  · left
    refine h.recount hph ⟨rfl, rfl⟩ rfl rfl (fun readers hreaders => ?_)
    have hread : readers + 1 = total admitted G := hreaders
    refine ⟨?_, nofun, Nat.zero_le _⟩
    show 1 + min 1 readers = 0 + min 1 _
    omega
  · right
    refine h.recount hph ⟨rfl, rfl⟩ rfl rfl (fun readers hreaders => ?_)
    have hread : readers + 1 = total admitted G := hreaders
    refine ⟨?_, nofun, ?_⟩
    · show 0 + min 1 readers = 0 + min 1 _
      omega
    · show 1 ≤ readers
      omega

/-- A thread that was counted alone takes that back. -/
theorem RwInv.uncount (hph : G t = .alone) :
    Meets (addB (-1)) l (fun _ l' => RwInv l' (update G t .inR))
      (fun _ => False) := by
  rw [addB, meets_update]
  refine h.recount hph ⟨rfl, rfl⟩ rfl rfl (fun readers hreaders => ?_)
  have hread : readers = total admitted G := hreaders
  exact ⟨by rw [hread]; rfl, nofun, Nat.zero_le _⟩

end

/-! ### What `b` tells -/

section

omit [DecidableEq ι]

section

variable (h : RwInv l G)
include h

/-- The accessors are the admitted readers and a thread that has found nobody. -/
theorem RwInv.counted_eq (ht : (G t).hasR = true) :
    total counted G = total admitted G + if (G t).solitary then 1 else 0 := by
  classical
  have hrest : ∀ u, u ≠ t → (G u).counted = (G u).admitted := by
    intro u hu
    have hur : (G u).hasR = false := by
      cases hur : (G u).hasR with
      | true => exact absurd (h.r_unique hur ht) hu
      | false => rfl
    revert hur
    cases G u <;> decide
  have hself : (G t).counted = (G t).admitted + if (G t).solitary then 1 else 0 := by
    cases G t <;> decide
  unfold total
  rw [← add_sum_erase univ _ (mem_univ t),
    ← add_sum_erase univ (fun u => (G u).admitted) (mem_univ t), hself,
    sum_congr rfl (fun u hu => hrest u (ne_of_mem_erase hu))]
  omega

theorem RwInv.b_alone (hph : G t = .alone) : l.lock.b = 1 := by
  have hc := h.counted_eq (t := t) (by rw [hph]; rfl)
  have hk := (h.knows t).1 (by rw [hph]; rfl)
  rw [hph] at hc
  rw [h.b, hc, hk]
  rfl

theorem RwInv.b_joined (hph : G t = .joined) : l.lock.b ≠ 1 := by
  have hc := h.counted_eq (t := t) (by rw [hph]; rfl)
  have hk := (h.knows t).2
  rw [hph] at hc hk
  have hk : 2 ≤ total admitted G := hk
  have hc : total counted G = total admitted G + 0 := hc
  rw [h.b]
  omega

/-- Whoever owns the semaphore is alone with it. -/
theorem RwInv.no_readers (ht : (G t).owner = 1) : total admitted G = 0 := by
  have hg := h.g
  have := le_total (f := owner) (G := G) t
  omega

theorem RwInv.b_owner (hph : G t = .lastR ∨ G t = .writerR) : l.lock.b = 0 := by
  have hR : (G t).hasR = true := by rcases hph with hph | hph <;> rw [hph] <;> rfl
  have hsol : (G t).solitary = false := by rcases hph with hph | hph <;> rw [hph] <;> rfl
  have hown : (G t).owner = 1 := by rcases hph with hph | hph <;> rw [hph] <;> rfl
  rw [h.b, h.counted_eq hR, h.no_readers hown, hsol]
  rfl

theorem RwInv.b_left (hph : G t = .leftR) : l.lock.b ≠ 0 := by
  have hc := h.counted_eq (t := t) (by rw [hph]; rfl)
  have hk := (h.knows t).2
  rw [hph] at hc hk
  have hk : 1 ≤ total admitted G := hk
  have hc : total counted G = total admitted G + 0 := hc
  rw [h.b]
  omega

end

end

end Moves

end KernelSanders
