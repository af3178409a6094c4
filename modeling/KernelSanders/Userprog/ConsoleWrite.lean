import KernelSanders.Userprog.Mmap

namespace KernelSanders

open Lib Lib.Exec List

/-!
# Writes to the console

`write (1, buffer, length)` of `userprog/syscall.c` asks `r_valid` about `buffer`,
`buffer + PGSIZE` and so on up to the end of the buffer, and has `putbuf` read it then.  The last
page of the buffer is asked about only if the buffer ends at least as far into its page as it
starts, and no page is if the end of the buffer wraps around (`write_console_validates`).
-/

/-- What a write to the console does with the memory of the process: it asks about an address, with
    the answer, or `putbuf` reads the buffer. -/
inductive Access where
  | asked (addr : Nat) (valid : Bool)
  | putbuf (buffer length : Nat)
  deriving DecidableEq

/-- `r_valid`, where `readable` are the addresses at which `get_user` does not fail. -/
def rValid (readable : Nat → Bool) (uaddr : Nat) : Bool :=
  decide (uaddr ≠ 0) && decide (isUserVaddr uaddr) && readable uaddr

/-- `for (addr = …; addr < bound; addr += PGSIZE)`.  The loop ends at an address that is not a user
    address, so `pagesFrom` is enough. -/
def validateFrom (readable : Nat → Bool) (bound : Nat) : Nat → Nat → Exec (List Access) Bool
  | 0, _ => stop .fuel
  | fuel + 1, addr =>
    if addr < bound then do
      update (· ++ [.asked addr (rValid readable addr)])
      if rValid readable addr then validateFrom readable bound fuel (toUnsigned (addr + 4096))
      else pure false
    else pure true

/-- `write (1, buffer, length)`: `none` if the process exits. -/
def writeConsole (readable : Nat → Bool) (buffer length : UInt32) :
    Exec (List Access) (Option Int) := do
  let bound := toUnsigned (wrap buffer.toNat + length.toNat)
  let ok ← validateFrom readable bound (pagesFrom buffer.toNat) buffer.toNat
  if ok then do
    update (· ++ [.putbuf buffer.toNat length.toNat])
    pure (some (wrap length.toNat))
  else pure none

/-- Some address of the page of `a` was asked about and is valid. -/
def Validated (log : List Access) (a : Nat) : Prop :=
  ∃ c, .asked c true ∈ log ∧ pgRoundDown c = pgRoundDown a

/-- `putbuf` reads only from pages that have been validated before. -/
def ReadsValidated (log : List Access) : Prop :=
  ∀ (before after : List Access) (buffer length : Nat),
    log = before ++ .putbuf buffer length :: after → ∀ i < length,
      Validated before (toUnsigned ((buffer : Int) + i))

/-- The write comes to an end, and reads only from pages that it has validated. -/
def ConsoleValidates (readable : Nat → Bool) (buffer length : UInt32) : Prop :=
  Returns (writeConsole readable buffer length) [] (fun _ log => ReadsValidated log)

variable {readable : Nat → Bool} {bound addr n buffer length : Nat} {log : List Access}

/-! ### The loop -/

/-- The questions about the first `n` pages, all with the same answer. -/
def questions (addr n : Nat) : List Access :=
  (range n).map (fun i => .asked (addr + 4096 * i) true)

theorem questions_succ :
    questions addr (n + 1) = .asked addr true :: questions (addr + 4096) n := by
  simp only [questions, range_succ_eq_map, map_cons, map_map, mul_zero, add_zero]
  congr 1
  apply map_congr_left
  intro i _
  simp only [Function.comp_apply, Access.asked.injEq, and_true]
  omega

theorem user_of_rValid (h : rValid readable addr = true) : addr < physBase := by
  simp only [rValid, Bool.and_eq_true, decide_eq_true_eq] at h
  exact h.1.2

/-- The loop goes over `n` pages that are valid. -/
theorem validateFrom_run (fuel : Nat) (hvalid : ∀ i < n, addr + 4096 * i < bound ∧
    rValid readable (addr + 4096 * i) = true) :
    (validateFrom readable bound (n + fuel) addr).run log =
      (validateFrom readable bound fuel (addr + 4096 * n)).run (log ++ questions addr n) := by
  induction n generalizing addr log with
  | zero => simp [questions]
  | succ n ih =>
    obtain ⟨hbelow, hfirst⟩ := hvalid 0 (Nat.succ_pos n)
    rw [mul_zero, add_zero] at hbelow hfirst
    have huser := user_of_rValid hfirst
    have hnext : toUnsigned ((addr : Int) + 4096) = addr + 4096 := by
      unfold physBase at huser
      exact toUnsigned_natCast (n := addr + 4096) (by omega)
    have hrest : ∀ i < n, addr + 4096 + 4096 * i < bound ∧
        rValid readable (addr + 4096 + 4096 * i) = true := by
      intro i hi
      rw [show addr + 4096 + 4096 * i = addr + 4096 * (i + 1) by omega]
      exact hvalid (i + 1) (by omega)
    rw [show n + 1 + fuel = n + fuel + 1 by omega, validateFrom, if_pos hbelow, update_bind, hfirst,
      if_pos rfl, hnext, ih hrest, questions_succ, append_assoc, singleton_append,
      show addr + 4096 + 4096 * n = addr + 4096 * (n + 1) by omega]

/-- The loop comes to the end of the buffer, or to an address that is not valid. -/
theorem validateFrom_ends (readable : Nat → Bool) (bound addr : Nat) (hbound : bound < 2 ^ 32) :
    ∃ n, (∀ i < n, addr + 4096 * i < bound ∧ rValid readable (addr + 4096 * i) = true) ∧
      ((bound ≤ addr + 4096 * n ∧ (validateFrom readable bound (pagesFrom addr) addr).run [] =
          .ok (true, questions addr n)) ∨
        (addr + 4096 * n < bound ∧ rValid readable (addr + 4096 * n) = false ∧
          (validateFrom readable bound (pagesFrom addr) addr).run [] =
            .ok (false, questions addr n ++ [.asked (addr + 4096 * n) false]))) := by
  have hex : ∃ n, bound ≤ addr + 4096 * n ∨ rValid readable (addr + 4096 * n) = false :=
    ⟨2 ^ 20, .inl (by omega)⟩
  have hpass : ∀ i < Nat.find hex, addr + 4096 * i < bound ∧
      rValid readable (addr + 4096 * i) = true := by
    intro i hi
    obtain ⟨hbelow, hvalid⟩ := not_or.mp (Nat.find_min hex hi)
    exact ⟨not_le.mp hbelow, by simpa using hvalid⟩
  -- the last address that is valid is a user address
  have hfuel : pagesFrom addr = Nat.find hex + (pagesFrom addr - Nat.find hex - 1 + 1) := by
    unfold pagesFrom
    cases hn : Nat.find hex with
    | zero => omega
    | succ n =>
      have huser := user_of_rValid (hpass n (by omega)).2
      omega
  have hrun : (validateFrom readable bound (Nat.find hex + (pagesFrom addr - Nat.find hex - 1 + 1))
      addr).run [] = _ := validateFrom_run _ hpass
  rw [← hfuel, nil_append] at hrun
  refine ⟨Nat.find hex, hpass, ?_⟩
  rw [hrun]
  by_cases hend : bound ≤ addr + 4096 * Nat.find hex
  · refine .inl ⟨hend, ?_⟩
    rw [validateFrom, if_neg (not_lt.mpr hend)]
    rfl
  · have hinvalid := (Nat.find_spec hex).resolve_left hend
    refine .inr ⟨not_le.mp hend, hinvalid, ?_⟩
    rw [validateFrom, if_pos (not_le.mp hend), update_bind, hinvalid]
    rfl

/-! ### The pages of the buffer -/

/-- The pages of the first `n` questions. -/
theorem validated_questions {a : Nat} :
    Validated (questions addr n) a ↔ ∃ i < n, pgRoundDown (addr + 4096 * i) = pgRoundDown a := by
  simp only [Validated, questions, mem_map, mem_range, Access.asked.injEq, and_true]
  constructor
  · rintro ⟨c, ⟨i, hi, rfl⟩, hc⟩
    exact ⟨i, hi, hc⟩
  · rintro ⟨i, hi, hc⟩
    exact ⟨_, ⟨i, hi, rfl⟩, hc⟩

/-- There is no `putbuf` among the questions. -/
theorem readsValidated_questions (addr n c : Nat) :
    ReadsValidated (questions addr n ++ [.asked c false]) := by
  intro before after buffer length hlog
  have hmem : Access.putbuf buffer length ∈ questions addr n ++ [.asked c false] := by
    rw [hlog]
    simp
  simp [questions] at hmem

theorem readsValidated_putbuf :
    ReadsValidated (questions addr n ++ [.putbuf buffer length]) ↔
      ∀ i < length, Validated (questions addr n) (toUnsigned ((buffer : Int) + i)) := by
  constructor
  · intro h
    exact h _ [] _ _ rfl
  · intro h before after buffer' length' hlog
    have hnot : Access.putbuf buffer' length' ∉ questions addr n := by simp [questions]
    obtain ⟨rfl, hlast, -⟩ := (append_cons_inj_of_notMem hnot not_mem_nil).mp hlog
    cases hlast
    exact h

/-- When the pages of the questions are the pages of the buffer. -/
theorem questions_cover (hlength : 0 < length) (hbound : buffer + length < 2 ^ 32)
    (hn : ∀ i < n, buffer + 4096 * i < buffer + length)
    (hend : buffer + length ≤ buffer + 4096 * n) :
    (∀ i < length, Validated (questions buffer n) (toUnsigned ((buffer : Int) + i))) ↔
      pgOfs buffer + (length - 1) % 4096 < 4096 := by
  have hcount : n = (length - 1) / 4096 + 1 := by
    have hlast := hn (n - 1)
    omega
  have hexact : ∀ i < length, toUnsigned ((buffer : Int) + i) = buffer + i := fun i hi =>
    toUnsigned_natCast (n := buffer + i) (by omega)
  constructor
  · intro h
    have hlast := h (length - 1) (by omega)
    rw [hexact _ (by omega), validated_questions] at hlast
    obtain ⟨i, hi, hpage⟩ := hlast
    unfold pgRoundDown pgOfs pgSize at *
    omega
  · intro h i hi
    rw [hexact i hi, validated_questions]
    -- the page is the one of the question before the byte, or of the next
    by_cases hsame : pgOfs buffer + i % 4096 < 4096
    · refine ⟨i / 4096, by omega, ?_⟩
      unfold pgRoundDown pgOfs pgSize at *
      omega
    · refine ⟨i / 4096 + 1, ?_, ?_⟩
      · omega
      · unfold pgRoundDown pgOfs pgSize at *
        omega

/-- The pages of the buffer are validated exactly if the buffer is empty, or an address that is
    asked about is not valid, or the buffer neither wraps around nor ends less far into its last
    page than it starts into its first. -/
theorem write_console_validates (readable : Nat → Bool) (buffer length : UInt32) :
    ConsoleValidates readable buffer length ↔
      length = 0 ∨
      (∃ i, buffer.toNat + 4096 * i < (buffer.toNat + length.toNat) % 2 ^ 32 ∧
        rValid readable (buffer.toNat + 4096 * i) = false) ∨
      (buffer.toNat + length.toNat < 2 ^ 32 ∧
        pgOfs buffer.toNat + (length.toNat - 1) % 4096 < 4096) := by
  have hB := buffer.toNat_lt
  have hL := length.toNat_lt
  have hbound : toUnsigned (wrap buffer.toNat + length.toNat) =
      (buffer.toNat + length.toNat) % 2 ^ 32 := by
    rw [← toUnsigned_wrap, wrap_wrap_add, toUnsigned_wrap]
    unfold toUnsigned
    omega
  have hzero : length = 0 ↔ length.toNat = 0 := by
    rw [← UInt32.toNat_inj]
    rfl
  rw [hzero]
  generalize hB' : buffer.toNat = B at *
  generalize hL' : length.toNat = L at *
  obtain ⟨n, hn, hend⟩ := validateFrom_ends readable ((B + L) % 2 ^ 32) B (by omega)
  rcases hend with ⟨hend, hrun⟩ | ⟨hbelow, hinvalid, hrun⟩
  · -- all addresses are valid, and `putbuf` is called
    have hreturns : ConsoleValidates readable buffer length ↔
        ∀ i < L, Validated (questions B n) (toUnsigned ((B : Int) + i)) := by
      rw [ConsoleValidates, writeConsole, hB', hL', hbound, returns_step hrun, if_pos rfl,
        returns_put, returns_pure, readsValidated_putbuf]
    have hnone : ¬ ∃ i, B + 4096 * i < (B + L) % 2 ^ 32 ∧
        rValid readable (B + 4096 * i) = false := by
      rintro ⟨i, hi, hinvalid⟩
      rw [(hn i (by omega)).2] at hinvalid
      cases hinvalid
    rw [hreturns]
    by_cases hempty : L = 0
    · simp [hempty]
    by_cases hwraps : B + L < 2 ^ 32
    · rw [Nat.mod_eq_of_lt hwraps] at hn hend
      rw [questions_cover (by omega) hwraps (fun i hi => (hn i hi).1) hend]
      exact ⟨fun h => .inr (.inr ⟨hwraps, h⟩),
        fun h => ((h.resolve_left hempty).resolve_left hnone).2⟩
    · -- the loop does not start
      have hstart : n = 0 := by
        by_contra hpos
        have := (hn 0 (by omega)).1
        omega
      have hnot : ¬ ∀ i < L, Validated (questions B n) (toUnsigned ((B : Int) + i)) := by
        intro h
        obtain ⟨i, hi, -⟩ := validated_questions.mp (h 0 (by omega))
        omega
      refine iff_of_false hnot (fun h => ?_)
      exact hwraps ((h.resolve_left hempty).resolve_left hnone).1
  · -- the process exits, and nothing is read
    refine iff_of_true ?_ (.inr (.inl ⟨n, hbelow, hinvalid⟩))
    rw [ConsoleValidates, writeConsole, hB', hL', hbound, returns_step hrun,
      if_neg Bool.false_ne_true, returns_pure]
    exact readsValidated_questions B n _

/-- A buffer of two bytes in two pages, of which the second cannot be read. -/
theorem write_console_skips_page :
    outcome (writeConsole (fun a => decide (a < 0x08049000)) 0x08048fff 2) [] = .ok (some 2) ∧
      final (writeConsole (fun a => decide (a < 0x08049000)) 0x08048fff 2) [] =
        [.asked 0x08048fff true, .putbuf 0x08048fff 2] ∧
      ¬ ConsoleValidates (fun a => decide (a < 0x08049000)) 0x08048fff 2 := by
  have hlog : final (writeConsole (fun a => decide (a < 0x08049000)) 0x08048fff 2) [] =
      [.asked 0x08048fff true, .putbuf 0x08048fff 2] := by decide +kernel
  have hok : outcome (writeConsole (fun a => decide (a < 0x08049000)) 0x08048fff 2) [] =
      .ok (some 2) := by decide +kernel
  refine ⟨hok, hlog, ?_⟩
  rintro ⟨_, log, hrun, hreads⟩
  cases (run_of_outcome hok).symm.trans hrun
  rw [hlog] at hreads
  obtain ⟨c, hc, hpage⟩ := hreads [.asked 0x08048fff true] [] 0x08048fff 2 rfl 1 (by decide)
  simp only [mem_singleton, Access.asked.injEq, and_true] at hc
  subst hc
  exact absurd hpage (by decide)

end KernelSanders
