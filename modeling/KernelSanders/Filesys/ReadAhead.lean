import KernelSanders.Filesys.CacheTransparency

namespace KernelSanders

open Lib Lib.Exec
open RwLock

namespace Cache

/-!
# What one iteration of the read-ahead loop leaves behind

`cache_read_ahead` calls `find_block` for its effect on the slots and drops the pointer it gets
back.  The read lock that comes with the pointer is never released: after a section on `s` the
next iteration either asks for a sector behind the end of the device, which is an assertion of
`find_block`, or leaves the slot of `s + 1` with a reader for good.
-/

variable {c : Cache}

/-- The two kinds of section. -/
inductive Section where
  | read
  | write (change : Sector → Sector)

/-- A complete section on one sector. -/
def Section.exec (sector : Nat) : Section → Exec Cache Unit
  | .read => do
    let _ ← readSection sector
    pure ()
  | .write change => writeSection sector change

/-- A section, and the iteration of the read-ahead loop that it asks for. -/
def readAheadRound (k : Section) (sector : Nat) : Exec Cache Unit := do
  k.exec sector
  cacheReadAhead

/-- The slot that comes back has exactly one reader if no section was in progress. -/
theorem findBlock_reading {s : Nat} (hidle : Idle c) :
    Ensures (findBlock s) c (fun i c' => locks c' = Function.update (locks c) i reading) := by
  refine (findBlock_spec hidle.sane).ensures.mono ?_
  rintro i c' ⟨-, hhit | hfill, -⟩
  · obtain ⟨-, ⟨l, hl, hlocks⟩, -⟩ := hhit
    rw [hidle.apply i] at hl
    cases hl
    exact hlocks
  · exact hfill.locks

/-- `find_block` asks for the next sector. -/
theorem findBlock_requests (s : Nat) :
    Ensures (findBlock s) c (fun _ c' => c'.readAhead = true) := by
  rw [findBlock, ensures_get, ensures_check]
  intro _
  rw [ensures_bind]
  intro i c₁ _
  rw [ensures_put, ensures_put, ensures_pure]
  rfl

/-- After a section nothing is locked and the next sector has been asked for. -/
theorem section_requests (hidle : Idle c) (k : Section) (s : Nat) :
    Ensures (k.exec s) c (fun _ c' => Idle c' ∧ c'.readAhead = true) := by
  have hfind := (findBlock_reading (s := s) hidle).and (findBlock_requests s)
  cases k with
  | read =>
    rw [Section.exec, ensures_bind, readSection, ensures_bind]
    refine hfind.mono ?_
    intro i c₁ ⟨hlocks, hahead⟩
    rw [ensures_get, ensures_step cacheReadEnd_ok, ensures_pure, ensures_pure]
    refine ⟨hidle.release hlocks _ ?_, hahead⟩
    show (locks c₁ i).readEnd = free
    rw [hlocks, Function.update_self, readEnd_reading]
  | write change =>
    rw [Section.exec, writeSection, cacheWriteBlock, ensures_bind, ensures_bind]
    refine hfind.mono ?_
    intro i c₁ ⟨hlocks, hahead⟩
    have hup : (locks c₁ i).upgrade = .ok writing := by
      rw [hlocks, Function.update_self, upgrade_reading]
    rw [ensures_step (cacheUpgrade_ok hup), ensures_pure, ensures_put, setSlot_setSlot]
    -- the upgrade, the change and `cache_write_end` all update the one slot
    have hend := cacheWriteEnd_ok (c := setSlot i (fun blk =>
      { blk with lock := writing, data := change blk.data }) c₁) (i := i)
      (by rw [locks_setSlot, Function.update_self])
    intro u c₂ hrun
    rw [hend] at hrun
    cases hrun
    rw [setSlot_setSlot]
    exact ⟨hidle.release hlocks _ rfl, hahead⟩

/-- An iteration that has something to do leaves a slot with a reader. -/
theorem cacheReadAhead_locks (hidle : Idle c) (hahead : c.readAhead = true) :
    Ensures cacheReadAhead c (fun _ c' => ∃ i, locks c' i = reading) := by
  rw [cacheReadAhead, ensures_get, if_pos (by exact hahead)]
  refine (findBlock_reading hidle).bind ?_
  intro i c₁ hlocks
  rw [ensures_update]
  refine ⟨i, ?_⟩
  show locks c₁ i = reading
  rw [hlocks, Function.update_self]

/-- **Read-ahead is never harmless.** From no state without a section in progress, for no sector
    and no kind of section, does the round return with every block unlocked. -/
theorem readAheadRound_harms (k : Section) (s : Nat) (hidle : Idle c) :
    ¬ Returns (readAheadRound k s) c (fun _ c' => Idle c') := by
  intro h
  have hlocked : Ensures (readAheadRound k s) c (fun _ c' => ∃ i, locks c' i = reading) :=
    (section_requests hidle k s).bind (fun _ c₁ ⟨hidle₁, hahead⟩ =>
      cacheReadAhead_locks hidle₁ hahead)
  obtain ⟨-, c', -, hidle', i, hi⟩ := h.and_ensures hlocked
  rw [hidle'.apply i] at hi
  exact absurd hi (by decide)

/-- A cache just initialised over 100 blank sectors. -/
def blankCache : Cache := cacheInit blankDevice (fun _ => blankBlock) 0

theorem readAheadRound_harms_blank :
    Idle blankCache ∧ 7 < blankCache.device.size ∧
      ¬ Returns (readAheadRound .read 7) blankCache (fun _ c' => Idle c') :=
  ⟨rfl, by decide, readAheadRound_harms .read 7 rfl⟩

/-- A write section on the next sector waits for ever, and a section on the last sector takes the
    kernel down. -/
theorem readAheadRound_blocks :
    outcome (do readAheadRound .read 7; let _ ← cacheWriteBlock 8; pure ()) blankCache
        = .error .blocked ∧
      outcome (readAheadRound .read 99) blankCache
        = .error (.panic "sector < block_size(fs_device)") := by
  decide +kernel

end Cache

end KernelSanders
