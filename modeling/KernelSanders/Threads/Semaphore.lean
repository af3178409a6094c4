import KernelSanders.Lib.Threads
import KernelSanders.Threads.Donation

namespace KernelSanders

open Lib Lib.Exec Relation

/-!
# `threads/synch.c` — semaphores with their wait lists

Semaphores and the threads that use them, in any interleaving: an operation is one action up to its
return or to the `thread_block` in `sema_down`, and a woken thread goes on with the `while` of
`sema_down` as soon as it is scheduled, before or after any other operation.

`sema_up` wakes a thread and adds a unit, but does not hand over the unit: whoever comes first takes
it, and the woken thread may have to go back to sleep.  That no wake-up gets lost is therefore a
matter of counting.  As long as somebody sleeps, there are no more units than threads on their way to
take them (`Semaphores.Counts`).

The value is an `unsigned`, so it is counted modulo `2 ^ 32`.
-/

/-- `struct semaphore`. -/
structure Semaphore (ι : Type) where
  value : Nat
  waiters : List ι

/-- Where a thread is: outside of `sema_down`, blocked in it, or woken up but not yet running. -/
inductive SemaPlace (κ : Type) where
  | outside
  | asleep (k : κ)
  | woken (k : κ)
  deriving DecidableEq

/-- Semaphores and threads.  `ups` and `downs` are history: the completed operations on each. -/
structure Semaphores (ι κ : Type) where
  sema : κ → Semaphore ι
  place : ι → SemaPlace κ
  priority : ι → Int
  ups : κ → Nat
  downs : κ → Nat

namespace Semaphores

variable {ι κ : Type}

section Fields

variable [DecidableEq κ] (k k' : κ) (f : Semaphore ι → Semaphore ι) (s : Semaphores ι κ)

/-- Change one semaphore. -/
def setSema : Semaphores ι κ :=
  { s with sema := Function.update s.sema k (f (s.sema k)) }

/-- Count a completed `sema_down`. -/
def countDown : Semaphores ι κ :=
  { s with downs := Function.update s.downs k (s.downs k + 1) }

/-- Count a completed `sema_up`. -/
def countUp : Semaphores ι κ :=
  { s with ups := Function.update s.ups k (s.ups k + 1) }

theorem setSema_sema : (setSema k f s).sema k' = if k' = k then f (s.sema k) else s.sema k' :=
  Function.update_apply ..

@[simp] theorem setSema_place : (setSema k f s).place = s.place := rfl
@[simp] theorem countUp_place : (countUp k s).place = s.place := rfl

end Fields

section Places

variable [DecidableEq ι] (t u : ι) (p : SemaPlace κ) (s : Semaphores ι κ)

def setPlace : Semaphores ι κ :=
  { s with place := Function.update s.place t p }

theorem setPlace_place : (setPlace t p s).place u = if u = t then p else s.place u :=
  Function.update_apply ..

@[simp] theorem setPlace_sema : (setPlace t p s).sema = s.sema := rfl

end Places

variable [DecidableEq ι] [DecidableEq κ]

/-! ### The code -/

/-- `sema_init`. -/
def semaInit (k : κ) (value : Nat) : Exec (Semaphores ι κ) Unit :=
  update (setSema k (fun _ => ⟨value, []⟩))

/-- `sema_down` from the test of its loop on: thread `t` blocks, or takes a unit and returns. -/
def semaDown (t : ι) (k : κ) : Exec (Semaphores ι κ) Unit := do
  let value ← read (fun s => (s.sema k).value)
  if value = 0 then do
    update (setSema k (fun m => { m with waiters := m.waiters ++ [t] }))
    update (setPlace t (.asleep k))
  else do
    update (setSema k (fun m => { m with value := m.value - 1 }))
    update (setPlace t .outside)
    update (countDown k)

/-- A woken thread goes on in `sema_down`. -/
def resume (t : ι) : Exec (Semaphores ι κ) Unit := do
  let place ← read (fun s => s.place t)
  match place with
  | .woken k => semaDown t k
  | .outside | .asleep _ => stop .fault

/-- `sema_try_down`. -/
def semaTryDown (k : κ) : Exec (Semaphores ι κ) Bool := do
  let value ← read (fun s => (s.sema k).value)
  if value > 0 then do
    update (setSema k (fun m => { m with value := m.value - 1 }))
    update (countDown k)
    pure true
  else pure false

/-- `thread_unblock`. -/
def threadUnblock (t : ι) : Exec (Semaphores ι κ) Unit := do
  let place ← read (fun s => s.place t)
  match place with
  | .asleep k => update (setPlace t (.woken k))
  | .outside | .woken _ => stop (.panic "t->status == THREAD_BLOCKED")

/-- The part of `sema_up` that wakes a thread. -/
def wakeHighest (k : κ) : Exec (Semaphores ι κ) Unit := do
  let ws ← read (fun s => (s.sema k).waiters)
  if ws ≠ [] then do
    let high ← read (fun s => Kernel.listHighestPriority s.priority ws)
    match high with
    | none => stop .fault
    | some w => do
      update (setSema k (fun m => { m with waiters := m.waiters.erase w }))
      threadUnblock w
  else pure ()

/-- `sema_up`. -/
def semaUp (k : κ) : Exec (Semaphores ι κ) Unit := do
  wakeHighest k
  update (setSema k (fun m => { m with value := (m.value + 1) % 2 ^ 32 }))
  update (countUp k)

end Semaphores

/-! ### Runs -/

/-- What happens to semaphores: operations of threads and, for `up` and `tryDown`, of interrupt
    handlers, and changes of priorities. -/
inductive SemaOp (ι κ : Type) where
  | down (t : ι) (k : κ)
  | resume (t : ι)
  | tryDown (k : κ)
  | up (k : κ)
  | setPriority (t : ι) (p : Int)

open SemaOp

variable {ι κ : Type} [DecidableEq ι] [DecidableEq κ] {op : SemaOp ι κ}

namespace SemaOp

open Semaphores

def code : SemaOp ι κ → Exec (Semaphores ι κ) Unit
  | down t k => semaDown t k
  | resume t => Semaphores.resume t
  | tryDown k => do
    let _ ← semaTryDown k
  | up k => semaUp k
  | setPriority t p => update (fun s => { s with priority := Function.update s.priority t p })

/-- The thread of the operation can run. -/
def Ready (s : Semaphores ι κ) : SemaOp ι κ → Prop
  | down t _ => s.place t = .outside
  | resume t => ∃ k, s.place t = .woken k
  | tryDown _ | up _ | setPriority _ _ => True

/-- There is room for another unit. -/
def Room (s : Semaphores ι κ) : SemaOp ι κ → Prop
  | up k => (s.sema k).value + 1 < 2 ^ 32
  | down _ _ | resume _ | tryDown _ | setPriority _ _ => True

/-- The operation takes `s` to `s'`. -/
structure Steps (op : SemaOp ι κ) (s s' : Semaphores ι κ) : Prop where
  ready : op.Ready s
  run : op.code.run s = .ok ((), s')

end SemaOp

/-- Any number of operations in which no value runs over. -/
def SemaRun : Semaphores ι κ → Semaphores ι κ → Prop :=
  ReflTransGen (fun s s' => ∃ op : SemaOp ι κ, op.Steps s s' ∧ op.Room s)

/-- Semaphores of initial values `v`, and nobody has used them. -/
def Semaphores.fresh (v : κ → Nat) (p : ι → Int) : Semaphores ι κ where
  sema k := ⟨v k, []⟩
  place _ := .outside
  priority := p
  ups _ := 0
  downs _ := 0

namespace Semaphores

open Function (update_self update_of_ne update_eq_self update_idem)

/-! ### What the operations do -/

theorem semaDown_ensures (t : ι) (k : κ) (s : Semaphores ι κ) :
    Ensures (semaDown t k) s (fun _ s' =>
      ((s.sema k).value = 0 ∧ s' = setPlace t (.asleep k)
        (setSema k (fun m => { m with waiters := m.waiters ++ [t] }) s)) ∨
      ((s.sema k).value ≠ 0 ∧ s' = countDown k (setPlace t .outside
        (setSema k (fun m => { m with value := m.value - 1 }) s)))) := by
  rw [semaDown, ensures_get]
  by_cases hv : (s.sema k).value = 0
  · rw [if_pos hv, ensures_put, ensures_update]
    exact .inl ⟨hv, rfl⟩
  · rw [if_neg hv, ensures_put, ensures_put, ensures_update]
    exact .inr ⟨hv, rfl⟩

omit [DecidableEq ι] in
theorem semaTryDown_ensures (k : κ) (s : Semaphores ι κ) :
    Ensures (semaTryDown k) s (fun b s' =>
      (b = true ∧ (s.sema k).value ≠ 0 ∧ s' = countDown k
        (setSema k (fun m => { m with value := m.value - 1 }) s)) ∨
      (b = false ∧ (s.sema k).value = 0 ∧ s' = s)) := by
  rw [semaTryDown, ensures_get]
  by_cases hv : (s.sema k).value > 0
  · rw [if_pos hv, ensures_put, ensures_put]
    exact ensures_pure.mpr (.inl ⟨rfl, Nat.ne_of_gt hv, rfl⟩)
  · rw [if_neg hv]
    exact ensures_pure.mpr (.inr ⟨rfl, Nat.eq_zero_of_not_pos hv, rfl⟩)

/-- What `sema_up` has done before it adds the unit. -/
theorem wakeHighest_ensures (k : κ) (s : Semaphores ι κ) :
    Ensures (wakeHighest k) s (fun _ s' =>
      ((s.sema k).waiters = [] ∧ s' = s) ∨
      ∃ w k', Kernel.listHighestPriority s.priority (s.sema k).waiters = some w ∧
        s.place w = .asleep k' ∧ s' = setPlace w (.woken k')
          (setSema k (fun m => { m with waiters := m.waiters.erase w }) s)) := by
  rw [wakeHighest, ensures_get]
  by_cases hws : (s.sema k).waiters = []
  · rw [if_neg (not_not.mpr hws)]
    exact ensures_pure.mpr (.inl ⟨hws, rfl⟩)
  · rw [if_pos hws, ensures_get]
    cases hhigh : Kernel.listHighestPriority s.priority (s.sema k).waiters with
    | none => exact ensures_stop
    | some w =>
      rw [ensures_put, threadUnblock, ensures_get]
      cases hplace : s.place w with
      | outside =>
        rw [show (setSema k _ s).place w = .outside from hplace]
        exact ensures_stop
      | woken k' =>
        rw [show (setSema k _ s).place w = .woken k' from hplace]
        exact ensures_stop
      | asleep k' =>
        rw [show (setSema k _ s).place w = .asleep k' from hplace, ensures_update]
        exact .inr ⟨w, k', rfl, hplace, rfl⟩

/-! ### Counting -/

section Counting

variable [Fintype ι] {v : κ → Nat} {s s' : Semaphores ι κ} {k : κ}

/-- The threads that were woken from semaphore `k` and have not gone on yet. -/
def onTheWay (s : Semaphores ι κ) (k : κ) : Nat :=
  (Finset.univ.filter (fun t => s.place t = .woken k)).card

/-- Semaphores of initial values `v` count, and lose no wake-up. -/
structure Counts (v : κ → Nat) (s : Semaphores ι κ) : Prop where
  value : ∀ k, (s.sema k).value + s.downs k = v k + s.ups k
  nodup : ∀ k, (s.sema k).waiters.Nodup
  asleep : ∀ k, ∀ t ∈ (s.sema k).waiters, s.place t = .asleep k
  enough : ∀ k, (s.sema k).waiters ≠ [] → (s.sema k).value ≤ s.onTheWay k

theorem onTheWay_setPlace (s : Semaphores ι κ) (t : ι) (p : SemaPlace κ) (k : κ) :
    (setPlace t p s).onTheWay k + (if s.place t = .woken k then 1 else 0)
      = s.onTheWay k + if p = .woken k then 1 else 0 := by
  have hcard : ∀ s : Semaphores ι κ, s.onTheWay k
      = total (fun p => if p = SemaPlace.woken k then 1 else 0) s.place := by
    intro s
    rw [onTheWay, Finset.card_eq_sum_ones, Finset.sum_filter]
    rfl
  rw [hcard, hcard]
  exact total_update (f := fun p => if p = SemaPlace.woken k then 1 else 0) p

omit [DecidableEq ι] in
/-- An operation on semaphore `k`: all that is to be shown is about this semaphore, if it moves no
    thread that has to do with another one. -/
theorem Counts.of_change (h : Counts v s) {m : Semaphore ι} {d u : Nat}
    (hsema : s'.sema = Function.update s.sema k m)
    (hdowns : s'.downs = Function.update s.downs k d) (hups : s'.ups = Function.update s.ups k u)
    (hplace : ∀ k', k' ≠ k → ∀ t, s.place t = .asleep k' → s'.place t = .asleep k')
    (hway : ∀ k', k' ≠ k → s'.onTheWay k' = s.onTheWay k') (hvalue : m.value + d = v k + u)
    (hnodup : m.waiters.Nodup) (hasleep : ∀ t ∈ m.waiters, s'.place t = .asleep k)
    (henough : m.waiters ≠ [] → m.value ≤ s'.onTheWay k) : Counts v s' := by
  refine ⟨fun k' => ?_, fun k' => ?_, fun k' => ?_, fun k' => ?_⟩ <;> rw [hsema] <;>
    by_cases hk : k' = k
  · rw [hk, hdowns, hups, update_self, update_self, update_self]
    exact hvalue
  · rw [hdowns, hups, update_of_ne hk, update_of_ne hk, update_of_ne hk]
    exact h.value k'
  · rw [hk, update_self]
    exact hnodup
  · rw [update_of_ne hk]
    exact h.nodup k'
  · rw [hk, update_self]
    exact hasleep
  · rw [update_of_ne hk]
    exact fun t ht => hplace k' hk t (h.asleep k' t ht)
  · rw [hk, update_self]
    exact henough
  · rw [update_of_ne hk, hway k' hk]
    exact h.enough k'

/-- Moving a thread that has nothing to do with the semaphore. -/
theorem onTheWay_setPlace_of_ne {t : ι} {p : SemaPlace κ} {k' : κ}
    (ht : s.place t ≠ .woken k') (hp : p ≠ .woken k') :
    (setPlace t p s).onTheWay k' = s.onTheWay k' := by
  have h := onTheWay_setPlace s t p k'
  rw [if_neg ht, if_neg hp] at h
  exact h

/-- **`sema_down`** by a thread that is not asleep. -/
theorem Counts.semaDown (h : Counts v s) {t : ι}
    (ht : s.place t = .outside ∨ s.place t = .woken k) :
    Ensures (semaDown t k) s (fun _ s' => Counts v s') := by
  have hasleep : ∀ k', s.place t ≠ .asleep k' := by
    intro k' hk'
    rw [hk'] at ht
    rcases ht with ht | ht <;> cases ht
  have hwoken : ∀ k', k' ≠ k → s.place t ≠ .woken k' := by
    intro k' hk' hw
    rw [hw] at ht
    rcases ht with ht | ht
    · cases ht
    · cases ht
      exact hk' rfl
  have hnot : ∀ k', t ∉ (s.sema k').waiters := fun k' hmem => hasleep k' (h.asleep k' t hmem)
  have hstay : ∀ (s₁ : Semaphores ι κ) (p : SemaPlace κ), s₁.place = s.place → ∀ k' u,
      s.place u = .asleep k' → (setPlace t p s₁).place u = .asleep k' := by
    intro s₁ p hs₁ k' u hu
    rw [setPlace_place, if_neg, hs₁, hu]
    intro hut
    rw [hut] at hu
    exact hasleep k' hu
  have hunit : (s.sema k).value ≠ 0 →
      (s.sema k).value - 1 + (s.downs k + 1) = v k + s.ups k := fun hv => by
    have := h.value k
    omega
  refine (semaDown_ensures t k s).mono (fun _ s' hs' => ?_)
  rcases hs' with ⟨hv, rfl⟩ | ⟨hv, rfl⟩
  · -- nothing to take: the thread joins the waiters of an empty semaphore
    refine h.of_change rfl (update_eq_self k _).symm (update_eq_self k _).symm
      (fun k' _ u hu => hstay _ _ rfl k' u hu) (fun k' hk => ?_) (h.value k) ?_ (fun u hu => ?_)
      (fun _ => ?_)
    · exact onTheWay_setPlace_of_ne (s := setSema k _ s) (hwoken k' hk) nofun
    · exact List.nodup_append.mpr ⟨h.nodup k, List.nodup_singleton t, fun a ha b hb hab =>
        hnot k ((List.mem_singleton.mp hb ▸ hab) ▸ ha)⟩
    · rcases List.mem_append.mp hu with hu | hu
      · exact hstay _ _ rfl k u (h.asleep k u hu)
      · rw [setPlace_place, if_pos (List.mem_singleton.mp hu)]
    · rw [hv]
      exact Nat.zero_le _
  · -- a unit is there, and the thread is no longer on its way
    refine h.of_change rfl rfl (update_eq_self k _).symm
      (fun k' _ u hu => hstay _ _ rfl k' u hu) (fun k' hk => ?_) (hunit hv) (h.nodup k)
      (fun u hu => hstay _ _ rfl k u (h.asleep k u hu)) (fun hne => ?_)
    · exact onTheWay_setPlace_of_ne (s := setSema k _ s) (hwoken k' hk) nofun
    · have hle := h.enough k hne
      have hway := onTheWay_setPlace (setSema k (fun m => { m with value := m.value - 1 }) s) t
        .outside k
      rw [if_neg (by nofun : SemaPlace.outside ≠ SemaPlace.woken k)] at hway
      show (s.sema k).value - 1 ≤ (setPlace t .outside (setSema k _ s)).onTheWay k
      have hsame : (setSema k (fun m => { m with value := m.value - 1 }) s).onTheWay k
        = s.onTheWay k := rfl
      split_ifs at hway <;> omega

omit [DecidableEq ι] in
/-- **`sema_try_down`**. -/
theorem Counts.semaTryDown (h : Counts v s) (k : κ) :
    Ensures (semaTryDown k) s (fun _ s' => Counts v s') := by
  refine (semaTryDown_ensures k s).mono (fun b s' hs' => ?_)
  rcases hs' with ⟨-, hv, rfl⟩ | ⟨-, -, rfl⟩
  · refine h.of_change rfl rfl (update_eq_self k _).symm (fun _ _ _ hu => hu) (fun _ _ => rfl) ?_
      (h.nodup k) (h.asleep k) (fun hne => (Nat.sub_le _ 1).trans (h.enough k hne))
    have := h.value k
    show (s.sema k).value - 1 + (s.downs k + 1) = v k + s.ups k
    omega
  · exact h

/-- **`sema_up`** with room for the unit. -/
theorem Counts.semaUp (h : Counts v s) (hroom : (s.sema k).value + 1 < 2 ^ 32) :
    Ensures (semaUp k) s (fun _ s' => Counts v s') := by
  have hmod : ((s.sema k).value + 1) % 2 ^ 32 = (s.sema k).value + 1 := Nat.mod_eq_of_lt hroom
  have hvalue : (s.sema k).value + 1 + s.downs k = v k + (s.ups k + 1) := by
    have := h.value k
    omega
  rw [Semaphores.semaUp, ensures_bind]
  refine (wakeHighest_ensures k s).mono (fun _ s₁ hs₁ => ?_)
  rw [ensures_put, ensures_update]
  rcases hs₁ with ⟨hws, rfl⟩ | ⟨w, k', hhigh, hplace, rfl⟩
  · -- nobody to wake
    refine h.of_change rfl (update_eq_self k _).symm rfl (fun _ _ _ hu => hu) (fun _ _ => rfl) ?_
      (h.nodup k) (h.asleep k) (fun hne => absurd hws hne)
    simp only [hmod]
    exact hvalue
  · have hmem : w ∈ (s.sema k).waiters := (Kernel.listHighestPriority_spec hhigh).1
    obtain rfl : k' = k := by
      rw [h.asleep k w hmem] at hplace
      cases hplace
      rfl
    refine h.of_change (m := ⟨(s.sema k').value + 1, (s.sema k').waiters.erase w⟩) ?_
      (update_eq_self k' _).symm rfl (fun k'' hk u hu => ?_) (fun k'' hk => ?_) hvalue
      ((h.nodup k').erase w) (fun u hu => ?_) (fun hne => ?_)
    · show Function.update (Function.update s.sema k' _) k' _ = _
      rw [update_idem]
      simp only [setPlace_sema, setSema_sema, if_true, hmod]
    · rw [countUp_place, setSema_place, setPlace_place, if_neg]
      · exact hu
      · intro huw
        rw [huw, hplace] at hu
        cases hu
        exact hk rfl
    · refine onTheWay_setPlace_of_ne (s := setSema k' _ s) ?_ ?_
      · rw [setSema_place, hplace]
        nofun
      · intro hw
        cases hw
        exact hk rfl
    · -- a waiter that stays is another thread than the one that was woken
      obtain ⟨hne, hu⟩ := (h.nodup k').mem_erase_iff.mp hu
      rw [countUp_place, setSema_place, setPlace_place, if_neg hne]
      exact h.asleep k' u hu
    · have hle := h.enough k' (List.ne_nil_of_mem hmem)
      have hway := onTheWay_setPlace (setSema k' (fun m => { m with waiters := m.waiters.erase w }) s)
        w (.woken k') k'
      rw [setSema_place, hplace, if_neg nofun, if_pos rfl] at hway
      exact (Nat.add_le_add_right hle 1).trans (le_of_eq hway.symm)

/-- **One operation** keeps the count. -/
theorem Counts.step (h : Counts v s) (hstep : op.Steps s s') (hroom : op.Room s) : Counts v s' := by
  cases op with
  | down t k => exact h.semaDown (.inl hstep.ready) () s' hstep.run
  | resume t =>
    obtain ⟨k, hk⟩ := hstep.ready
    have hrun : Ensures (resume t) s (fun _ s' => Counts v s') := by
      rw [resume, ensures_get, hk]
      exact h.semaDown (.inr hk)
    exact hrun () s' hstep.run
  | tryDown k =>
    have hrun : Ensures (tryDown k : SemaOp ι κ).code s (fun _ s' => Counts v s') :=
      (h.semaTryDown k).bind (fun _ _ h' => ensures_pure.mpr h')
    exact hrun () s' hstep.run
  | up k => exact h.semaUp hroom () s' hstep.run
  | setPriority t p =>
    have hrun : Ensures (setPriority t p : SemaOp ι κ).code s (fun _ s' => Counts v s') :=
      ensures_update.mpr ⟨h.value, h.nodup, h.asleep, h.enough⟩
    exact hrun () s' hstep.run

end Counting

end Semaphores

/-- **Semaphores.** The value of a semaphore is its initial one and the completed `sema_up`s less the
    completed `sema_down`s; its waiters are blocked and different threads; and as long as there
    are some, its value is at most the number of threads that were woken and have not gone on, so
    that somebody is on the way to every unit. -/
theorem semaphores_count [Fintype ι] {v : κ → Nat} {p : ι → Int} {s : Semaphores ι κ}
    (hrun : SemaRun (.fresh v p) s) (k : κ) :
    ((s.sema k).value : Int) = v k + s.ups k - s.downs k ∧
      (∀ t ∈ (s.sema k).waiters, s.place t = .asleep k) ∧ (s.sema k).waiters.Nodup ∧
      ((s.sema k).waiters ≠ [] →
        (s.sema k).value ≤ (Finset.univ.filter (fun t => s.place t = .woken k)).card) ∧
      ¬ ((s.sema k).waiters ≠ [] ∧ 0 < (s.sema k).value ∧ ∀ t, s.place t ≠ .woken k) := by
  have h : Semaphores.Counts v s := by
    induction hrun with
    | refl => exact ⟨fun _ => rfl, fun _ => List.nodup_nil, nofun, fun _ hne => absurd rfl hne⟩
    | tail _ hstep ih =>
      obtain ⟨op, hstep, hroom⟩ := hstep
      exact ih.step hstep hroom
  refine ⟨?_, h.asleep k, h.nodup k, h.enough k, fun ⟨hne, hpos, hnone⟩ => ?_⟩
  · have := h.value k
    omega
  · have hle := h.enough k hne
    have hempty : s.onTheWay k = 0 := by
      rw [Semaphores.onTheWay, Finset.card_eq_zero, Finset.filter_eq_empty_iff]
      exact fun t _ => hnone t
    omega

/-! ### One semaphore -/

/-- Threads of priority `31` and one semaphore. -/
def oneSema (value : Nat) : Semaphores (Fin 2) (Fin 1) := .fresh (fun _ => value) (fun _ => 31)

/-- Thread `0` has gone to sleep, and has been woken up. -/
def oneWoken : Semaphores (Fin 2) (Fin 1) :=
  final (up 0).code (final (down 0 0).code (oneSema 0))

theorem SemaOp.steps_of_outcome {s : Semaphores ι κ} (hready : op.Ready s)
    (h : outcome op.code s = .ok ()) : op.Steps s (final op.code s) :=
  ⟨hready, run_of_outcome h⟩

theorem semaphores_count_woken :
    SemaRun (.fresh (fun _ => 0) (fun _ => 31)) oneWoken ∧
      ((oneWoken.sema 0).value : Int) = 0 + oneWoken.ups 0 - oneWoken.downs 0 ∧
      (oneWoken.sema 0).value = 1 ∧ oneWoken.place 0 = .woken 0 := by
  have hdown : (down 0 0).Steps (oneSema 0) (final (down 0 0).code (oneSema 0)) :=
    steps_of_outcome rfl (by decide +kernel)
  have hup : (up 0).Steps (final (down 0 0).code (oneSema 0)) oneWoken :=
    steps_of_outcome trivial (by decide +kernel)
  have hroom : (up 0).Room (final (down 0 0).code (oneSema 0)) := by
    show ((final (down 0 0).code (oneSema 0)).sema 0).value + 1 < 2 ^ 32
    decide +kernel
  have hrun : SemaRun (.fresh (fun _ => 0) (fun _ => 31)) oneWoken :=
    (ReflTransGen.single ⟨_, hdown, trivial⟩).tail ⟨_, hup, hroom⟩
  exact ⟨hrun, (semaphores_count hrun 0).1, by decide +kernel, by decide +kernel⟩

/-- A semaphore of the greatest `unsigned`, after one `sema_up`. -/
def oneOver : Semaphores (Fin 2) (Fin 1) := final (up 0).code (oneSema (2 ^ 32 - 1))

/-- One more than the greatest value of an `unsigned` is zero. -/
theorem semaphore_overflows :
    (up 0).Steps (oneSema (2 ^ 32 - 1)) oneOver ∧ (oneOver.sema 0).value = 0 ∧
      oneOver.ups 0 = 1 ∧ oneOver.downs 0 = 0 ∧
      ((oneOver.sema 0).value : Int) ≠ (2 ^ 32 - 1 : Nat) + oneOver.ups 0 - oneOver.downs 0 :=
  ⟨steps_of_outcome trivial (by decide +kernel), by decide +kernel, by decide +kernel,
    by decide +kernel, by decide +kernel⟩

end KernelSanders
