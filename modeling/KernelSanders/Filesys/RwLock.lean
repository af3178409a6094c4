import KernelSanders.Lib.Exec

namespace KernelSanders

open Lib Lib.Exec

/-!
# `struct rw_lock` — the reader/writer lock of a cache block, run sequentially

`b` counts the readers and `g` is the semaphore that the first reader or the writer holds.  The
two locks `r` and `extra` of the structure only make the updates below atomic: every function
gives them back before it returns, so between the calls of a sequential run they are free, and
taking them never waits.  Waiting for `g` is `blocked`: in a sequential run nobody else is there
to raise it.
-/

/-- A reader/writer lock: the number of readers and the value of the semaphore. -/
structure RwLock where
  b : Int
  g : Nat
  deriving DecidableEq, Repr

namespace RwLock

/-- Nobody holds the lock. -/
def free : RwLock := ⟨0, 1⟩

/-- One reader holds the lock. -/
def reading : RwLock := ⟨1, 0⟩

/-- A writer holds the lock. -/
def writing : RwLock := ⟨0, 0⟩

/-- `sema_down (&lock.g)`. -/
def down (l : RwLock) : Except Stop RwLock :=
  if l.g = 0 then .error .blocked else .ok { l with g := l.g - 1 }

/-- `cache_read_begin`. -/
def readBegin (l : RwLock) : Except Stop RwLock :=
  let l := { l with b := l.b + 1 }
  if l.b = 1 then l.down else .ok l

/-- `cache_read_try`. -/
def readTry (l : RwLock) : Bool × RwLock :=
  let l' := { l with b := l.b + 1 }
  if l'.b = 1 then
    if l.g = 0 then (false, l) else (true, { l' with g := l.g - 1 })
  else (true, l')

/-- `cache_read_end`. -/
def readEnd (l : RwLock) : RwLock :=
  let l := { l with b := l.b - 1 }
  if l.b = 0 then { l with g := l.g + 1 } else l

/-- `cache_write_try`, i.e. `sema_try_down (&lock.g)`. -/
def writeTry (l : RwLock) : Bool × RwLock :=
  if l.g = 0 then (false, l) else (true, { l with g := l.g - 1 })

/-- `cache_upgrade`: the last reader keeps the semaphore it has, any other one waits for it. -/
def upgrade (l : RwLock) : Except Stop RwLock :=
  let l := { l with b := l.b - 1 }
  if l.b = 0 then .ok l else l.down

/-- `cache_downgrade`. -/
def downgrade (l : RwLock) : Except Stop RwLock :=
  if l.b = 0 then .ok { l with b := l.b + 1 } else .error (.panic "cache_block->lock.b == 0")

/-- The semaphore side of `cache_write_end`. -/
def writeEnd (l : RwLock) : RwLock := { l with g := l.g + 1 }

/-! ### The states a lock goes through -/

/-- Free, held by a writer, or held by readers. -/
def Sane (l : RwLock) : Prop := l = free ∨ (l.g = 0 ∧ 0 ≤ l.b)

@[simp] theorem readEnd_reading : reading.readEnd = free := rfl
@[simp] theorem upgrade_reading : reading.upgrade = .ok writing := rfl
@[simp] theorem writeEnd_writing : writing.writeEnd = free := rfl

theorem sane_free : free.Sane := Or.inl rfl
theorem sane_reading : reading.Sane := Or.inr ⟨rfl, by decide⟩
theorem sane_writing : writing.Sane := Or.inr ⟨rfl, by decide⟩

/-- A lock that is held is refused to a writer and stays as it is. -/
theorem writeTry_held {l : RwLock} (hs : l.Sane) (hl : l ≠ free) : l.writeTry = (false, l) := by
  rcases hs with h | ⟨hg, -⟩
  · exact absurd h hl
  · rw [writeTry, if_pos hg]

variable {l l' : RwLock}

/-- The first reader takes the semaphore. -/
theorem readBegin_cases (h : l.readBegin = .ok l') :
    (l.b = 0 ∧ l.g ≠ 0 ∧ l' = ⟨1, l.g - 1⟩) ∨ (l.b ≠ 0 ∧ l' = ⟨l.b + 1, l.g⟩) := by
  unfold readBegin down at h
  by_cases hb : l.b + 1 = 1
  · by_cases hg : l.g = 0
    · simp only [hb, if_true, hg] at h
      cases h
    · simp only [hb, if_true, hg, if_false] at h
      cases h
      exact .inl ⟨by omega, hg, rfl⟩
  · simp only [hb, if_false] at h
    cases h
    exact .inr ⟨by omega, rfl⟩

/-- A reader gets in unless there is a writer, and the lock stays sane. -/
theorem readBegin_sane (hs : l.Sane) (h : l.readBegin = .ok l') :
    l'.Sane ∧ l'.g = 0 ∧ l'.b = l.b + 1 := by
  rcases hs with rfl | ⟨hg, hb⟩
  · cases h
    exact ⟨sane_reading, rfl, rfl⟩
  · rcases readBegin_cases h with ⟨-, hne, -⟩ | ⟨-, rfl⟩
    · exact absurd hg hne
    · exact ⟨.inr ⟨hg, by show (0 : Int) ≤ l.b + 1; omega⟩, hg, rfl⟩

/-- Only the one reader of a sane lock can become a writer. -/
theorem upgrade_sane (hg : l.g = 0) (h : l.upgrade = .ok l') : l = reading ∧ l' = writing := by
  unfold upgrade at h
  by_cases h1 : l.b - 1 = 0
  · simp only [h1, if_true] at h
    cases h
    have hb : l.b = 1 := by omega
    cases l with
    | mk b g =>
      simp only at hg hb
      subst hg hb
      exact ⟨rfl, rfl⟩
  · simp only [h1, if_false, down, hg] at h
    cases h

/-- The end of a read section of a lock with readers. -/
theorem readEnd_sane (hs : l.Sane) (hb : 1 ≤ l.b) : l.readEnd.Sane := by
  rcases hs with rfl | ⟨hg, -⟩
  · exact absurd hb (by decide)
  · unfold readEnd
    by_cases h1 : l.b - 1 = 0
    · simp only [h1, if_true, hg]
      exact .inl rfl
    · simp only [h1, if_false]
      exact .inr ⟨hg, by show (0 : Int) ≤ l.b - 1; omega⟩

/-- A try for reading that is granted is a begin, and a refused one changes nothing. -/
theorem readTry_eq (l : RwLock) :
    (∃ l', l.readBegin = .ok l' ∧ l.readTry = (true, l')) ∨ l.readTry = (false, l) := by
  unfold readTry readBegin down
  by_cases h1 : l.b + 1 = 1
  · by_cases hg : l.g = 0
    · right; simp only [h1, if_true, hg]
    · left; exact ⟨_, by simp only [h1, if_true, hg, if_false]; rfl,
        by simp only [h1, if_true, hg, if_false]⟩
  · left; exact ⟨_, by simp only [h1, if_false]; rfl, by simp only [h1, if_false]⟩

/-- A read section leaves the lock as it was. -/
theorem readEnd_readBegin (h : l.readBegin = .ok l') : l'.readEnd = l := by
  obtain ⟨b, g⟩ := l
  rcases readBegin_cases h with ⟨rfl, (hg : g ≠ 0), rfl⟩ | ⟨hb, rfl⟩
  · have hg' : g - 1 + 1 = g := by omega
    simp [readEnd, hg']
  · simp [readEnd, show b ≠ 0 from hb]

end RwLock

end KernelSanders
