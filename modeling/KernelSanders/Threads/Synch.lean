import KernelSanders.Lib.Exec

namespace KernelSanders

open Lib Lib.Exec

/-!
# `threads/synch.c` — semaphores and locks as their users see them

The functions of semaphores run with interrupts off, so to the threads that use them each is one
action.  Those of locks have statements around their region, and are one action only to threads
that do not look into the lock.  A semaphore is its value; a lock is its holder.  `blocked` is the
action of a thread that has to wait: it is not there to be taken until somebody else changes the
value.
-/

/-- `sema_down`. -/
def semaDown : Exec Nat Unit := do
  let value ← read id
  if value = 0 then stop .blocked else update (· - 1)

/-- `sema_try_down`. -/
def semaTryDown : Exec Nat Bool := do
  let value ← read id
  if value > 0 then
    update (· - 1)
    pure true
  else pure false

/-- `sema_up`. -/
def semaUp : Exec Nat Unit := update (· + 1)

theorem semaDown_meets (value : Nat) :
    Meets semaDown value (fun _ v => v + 1 = value) (fun e => e = .blocked ∧ value = 0) := by
  rw [semaDown, meets_get, id_eq]
  by_cases h : value = 0
  · rw [if_pos h]
    exact ⟨rfl, h⟩
  · rw [if_neg h, meets_update]
    exact Nat.sub_add_cancel (Nat.pos_of_ne_zero h)

theorem semaTryDown_meets (value : Nat) :
    Meets semaTryDown value
      (fun b v => (b = true ∧ v + 1 = value) ∨ (b = false ∧ v = value ∧ value = 0))
      (fun _ => False) := by
  rw [semaTryDown, meets_get, id_eq]
  by_cases h : value > 0
  · rw [if_pos h, meets_put]
    exact .inl ⟨rfl, Nat.sub_add_cancel h⟩
  · rw [if_neg h]
    exact .inr ⟨rfl, rfl, Nat.eq_zero_of_not_pos h⟩

section Lock

variable {ι : Type} [DecidableEq ι] (t : ι)

/-- `lock_acquire` by thread `t`. -/
def lockAcquire : Exec (Option ι) Unit := do
  let holder ← read id
  assert (holder ≠ some t) "!lock_held_by_current_thread(lock)"
  if holder = none then update (fun _ => some t) else stop .blocked

/-- `lock_try_acquire` by thread `t`. -/
def lockTryAcquire : Exec (Option ι) Bool := do
  let holder ← read id
  assert (holder ≠ some t) "!lock_held_by_current_thread(lock)"
  if holder = none then
    update (fun _ => some t)
    pure true
  else pure false

/-- `lock_release` by thread `t`. -/
def lockRelease : Exec (Option ι) Unit := do
  let holder ← read id
  assert (holder = some t) "lock_held_by_current_thread(lock)"
  update (fun _ => none)

variable {t} {holder : Option ι}

theorem lockAcquire_ensures (t : ι) (holder : Option ι) :
    Ensures (lockAcquire t) holder (fun _ o => holder = none ∧ o = some t) := by
  rw [lockAcquire, ensures_get, ensures_check]
  intro _
  cases holder with
  | none => exact ensures_update.mpr ⟨rfl, rfl⟩
  | some u => exact ensures_stop

theorem lockRelease_ensures (t : ι) (holder : Option ι) :
    Ensures (lockRelease t) holder (fun _ o => holder = some t ∧ o = none) := by
  rw [lockRelease, ensures_get, ensures_check]
  exact fun h => ensures_update.mpr ⟨h, rfl⟩

theorem lockAcquire_meets (h : holder ≠ some t) :
    Meets (lockAcquire t) holder (fun _ o => holder = none ∧ o = some t)
      (fun e => e = .blocked ∧ ∃ u, holder = some u) := by
  rw [lockAcquire, meets_get, meets_bind]
  refine meets_assert (fun _ => ?_) (fun hn => absurd h hn)
  cases holder with
  | none => exact ⟨rfl, rfl⟩
  | some u => exact ⟨rfl, u, rfl⟩

theorem lockTryAcquire_meets (h : holder ≠ some t) :
    Meets (lockTryAcquire t) holder
      (fun b o => (b = true ∧ holder = none ∧ o = some t) ∨ (b = false ∧ o = holder))
      (fun _ => False) := by
  rw [lockTryAcquire, meets_get, meets_bind]
  refine meets_assert (fun _ => ?_) (fun hn => absurd h hn)
  cases holder with
  | none => exact .inl ⟨rfl, rfl, rfl⟩
  | some u => exact .inr ⟨rfl, rfl⟩

theorem lockRelease_meets (h : holder = some t) :
    Meets (lockRelease t) holder (fun _ o => o = none) (fun _ => False) := by
  rw [lockRelease, meets_get, meets_bind]
  exact meets_assert (fun _ => rfl) (fun hn => absurd h hn)

end Lock

end KernelSanders
