import KernelSanders.Lib.Machine
import KernelSanders.Threads.Mlfqs

namespace KernelSanders

open Lib FixedPoint
open Lib.Exec hiding update
open Function
open List

/-!
# The averages of the feedback scheduler stay in range

`load_avg` and `recent_cpu` are 17.14 fixed-point numbers in 32 bits.  `load_avg_tracks` compares
`load_avg` with the average that it approximates, and `recent_cpu_bounded` bounds `recent_cpu` over
all runs; in both no intermediate value leaves its type.  The system call that reports `recent_cpu`
scales it by `100` in the same 32 bits, and `recent_cpu_reported_iff` says up to where that works.
-/

/-! ### Intermediate values -/

namespace FixedPoint

/-- The value of an expression of type `int`. -/
def Fits32 (x : Int) : Prop := -2 ^ 31 ≤ x ∧ x < 2 ^ 31

/-- The value of an expression of type `int64_t`. -/
def Fits64 (x : Int) : Prop := -2 ^ 63 ≤ x ∧ x < 2 ^ 63

/-- `to_fp (n)` computes without overflow; and so on for the other functions. -/
def ToFpFits (n : Int) : Prop := Fits32 (n * multiplier)

def AddFits (x n : Int) : Prop := ToFpFits n ∧ Fits32 (x + toFp n)

def MultiplyFits (x y : Int) : Prop := Fits64 (x * y) ∧ Fits32 ((x * y).tdiv multiplier)

def DivideFits (x y : Int) : Prop :=
  y ≠ 0 ∧ Fits64 (x * multiplier) ∧ Fits32 ((x * multiplier).tdiv y)

def RoundFits (x : Int) : Prop :=
  if x > 0 then Fits32 (x + multiplier.tdiv 2) else Fits32 (x - multiplier.tdiv 2)

theorem Fits32.wrap_eq {x : Int} (h : Fits32 x) : wrap x = x := wrap_of_range h.1 h.2

theorem toFpFits {n : Int} (h : -2 ^ 17 ≤ n) (h' : n < 2 ^ 17) : ToFpFits n := by
  unfold ToFpFits multiplier
  constructor <;> omega

theorem toFp_eq {n : Int} (h : -2 ^ 17 ≤ n) (h' : n < 2 ^ 17) : toFp n = n * 2 ^ 14 :=
  (toFpFits h h').wrap_eq

end FixedPoint

namespace Mlfqs

variable {ι κ : Type} [DecidableEq ι]

/-! ### The load average -/

/-- The threads that are ready or running, without the idle thread. -/
def runnable (m : Mlfqs ι κ) (current : ι) (ready : Nat) : Nat :=
  ready + if some current = m.idleThread then 0 else 1

/-- The value that `update_load_avg` computes. -/
def nextLoadAvg (load : Int) (count : Nat) : Int :=
  wrap (multiply ((toFp 59).tdiv 60) load + wrap ((toFp 1).tdiv 60 * count))

/-- It is computed without overflow. -/
def LoadAvgFits (load : Int) (count : Nat) : Prop :=
  ToFpFits 59 ∧ MultiplyFits ((toFp 59).tdiv 60) load ∧ ToFpFits 1 ∧
    Fits32 ((toFp 1).tdiv 60 * count) ∧
    Fits32 (multiply ((toFp 59).tdiv 60) load + wrap ((toFp 1).tdiv 60 * count))

theorem updateLoadAvg_run (current : ι) (ready : Nat) (m : Mlfqs ι κ) :
    (updateLoadAvg current ready).run m =
      .ok ((), { m with loadAvg := nextLoadAvg m.loadAvg (m.runnable current ready) }) := by
  have hcount : ((ready : Int) + if some current = m.idleThread then 0 else 1) =
      (m.runnable current ready : Nat) := by
    rw [runnable]
    split_ifs <;> simp
  simp only [updateLoadAvg, run_update, hcount]
  rfl

variable {N count : Nat} {load : Int} {m : Mlfqs ι κ} {exact : ℚ}

/-- Below the bound on the number of threads, the update is a truncated weighted sum. -/
theorem nextLoadAvg_eq (hN : N < 65536) (h0 : 0 ≤ load) (hload : load ≤ N * 2 ^ 14)
    (hcount : count ≤ N) :
    LoadAvgFits load count ∧ nextLoadAvg load count = 16110 * load / 16384 + 273 * count := by
  have hweight : (toFp 59).tdiv 60 = 16110 := by decide
  have hshare : (toFp 1).tdiv 60 = 273 := by decide
  have hdiv : (16110 * load).tdiv multiplier = 16110 * load / 16384 :=
    Int.tdiv_eq_ediv_of_nonneg (by omega)
  have hprod : Fits32 ((16110 * load).tdiv multiplier) := by
    rw [hdiv]
    constructor <;> omega
  have hthreads : Fits32 (273 * (count : Int)) := by constructor <;> omega
  have hmul : multiply 16110 load = 16110 * load / 16384 := by
    rw [multiply, hprod.wrap_eq, hdiv]
  have hsum : Fits32 (multiply 16110 load + wrap (273 * count)) := by
    rw [hmul, hthreads.wrap_eq]
    constructor <;> omega
  refine ⟨⟨toFpFits (by decide) (by decide), ?_, toFpFits (by decide) (by decide), ?_, ?_⟩, ?_⟩
  · rw [hweight]
    exact ⟨by constructor <;> omega, hprod⟩
  · rw [hshare]
    exact hthreads
  · rw [hweight, hshare]
    exact hsum
  · rw [nextLoadAvg, hweight, hshare, hsum.wrap_eq, hmul, hthreads.wrap_eq]

theorem nextLoadAvg_bound (hN : N < 65536) (h0 : 0 ≤ load) (hload : load ≤ N * 2 ^ 14)
    (hcount : count ≤ N) : 0 ≤ nextLoadAvg load count ∧ nextLoadAvg load count ≤ N * 2 ^ 14 := by
  rw [(nextLoadAvg_eq hN h0 hload hcount).2]
  omega

/-- The exact average of the counts. -/
def exactLoad (count : Nat → Nat) : Nat → ℚ
  | 0 => 0
  | k + 1 => 59 / 60 * exactLoad count k + count k / 60

/-- What `load_avg` and the exact average have to do with each other. -/
structure Tracks (N : Nat) (load : Int) (exact : ℚ) : Prop where
  nonneg : 0 ≤ load
  below : (load : ℚ) ≤ exact * 2 ^ 14
  close : exact * 2 ^ 14 - load ≤ 60 * (N + 1)
  bound : exact ≤ N

theorem Tracks.le (h : Tracks N load exact) : load ≤ N * 2 ^ 14 := by
  have : (load : ℚ) ≤ ((N * 2 ^ 14 : Int) : ℚ) := by
    push_cast
    linarith [h.below, h.bound]
  exact_mod_cast this

/-- One update: the truncations lose less than `1`, and the constants at most `N`. -/
theorem Tracks.next (hN : N < 65536) (h : Tracks N load exact) (hcount : count ≤ N) :
    Tracks N (nextLoadAvg load count) (59 / 60 * exact + count / 60) := by
  have hle := h.le
  rw [(nextLoadAvg_eq hN h.nonneg hle hcount).2]
  have hcountQ : (count : ℚ) ≤ N := by exact_mod_cast hcount
  have hleQ : (load : ℚ) ≤ N * 2 ^ 14 := by exact_mod_cast hle
  have hnonneg := h.nonneg
  have hnonnegQ : (0 : ℚ) ≤ load := by exact_mod_cast h.nonneg
  -- the truncated product between its two bounds
  obtain ⟨y, hy⟩ : ∃ y, y = 16110 * load / 16384 := ⟨_, rfl⟩
  have hlow : (16110 * load : ℚ) < 16384 * y + 16384 := by
    have : 16110 * load < 16384 * y + 16384 := by omega
    exact_mod_cast this
  have hhigh : (16384 * y : ℚ) ≤ 16110 * load := by
    have : 16384 * y ≤ 16110 * load := by omega
    exact_mod_cast this
  rw [← hy]
  refine ⟨by omega, ?_, ?_, ?_⟩
  · push_cast
    linarith [h.below]
  · push_cast
    linarith [h.close]
  · linarith [h.bound]

/-- **Load average.** However often `update_load_avg` is called, `load_avg` stays between `0` and
    the largest count, never exceeds the exact average, and falls short of it by little. -/
theorem load_avg_tracks {N : Nat} (hN : N < 65536) (m : Nat → Mlfqs ι κ) (current : Nat → ι)
    (ready : Nat → Nat) (h0 : (m 0).loadAvg = 0)
    (hnext : ∀ k, (m (k + 1)).loadAvg = (final (updateLoadAvg (current k) (ready k)) (m k)).loadAvg)
    (hcount : ∀ k, (m k).runnable (current k) (ready k) ≤ N) (k : Nat) :
    LoadAvgFits (m k).loadAvg ((m k).runnable (current k) (ready k)) ∧
      0 ≤ (m k).loadAvg ∧ (m k).loadAvg ≤ N * 2 ^ 14 ∧
      ((m k).loadAvg : ℚ) / 2 ^ 14 ≤
        exactLoad (fun j => (m j).runnable (current j) (ready j)) k ∧
      exactLoad (fun j => (m j).runnable (current j) (ready j)) k - (m k).loadAvg / 2 ^ 14 ≤
        60 * (N + 1) / 2 ^ 14 := by
  have htracks : Tracks N (m k).loadAvg
      (exactLoad (fun j => (m j).runnable (current j) (ready j)) k) := by
    induction k with
    | zero =>
      rw [h0]
      exact ⟨le_rfl, by simp [exactLoad], by simp [exactLoad]; positivity, Nat.cast_nonneg N⟩
    | succ k ih =>
      have hfinal : (m (k + 1)).loadAvg =
          nextLoadAvg (m k).loadAvg ((m k).runnable (current k) (ready k)) := by
        rw [hnext, final, updateLoadAvg_run]
      rw [hfinal]
      exact ih.next hN (hcount k)
  refine ⟨(nextLoadAvg_eq hN htracks.nonneg htracks.le (hcount k)).1, htracks.nonneg, htracks.le,
    ?_, ?_⟩
  · linarith [htracks.below]
  · linarith [htracks.close]

/-- Nothing has happened yet. -/
def cpuStart : Mlfqs (Fin 2) (Fin 1) := { mlfqsBoot with allList := [] }

/-- One thread runs and one is ready, all the time. -/
def loadRun : Nat → Mlfqs (Fin 2) (Fin 1)
  | 0 => cpuStart
  | k + 1 => final (updateLoadAvg 0 1) (loadRun k)

theorem load_avg_tracks_two : 0 ≤ (loadRun 100).loadAvg ∧ (loadRun 100).loadAvg ≤ 2 * 2 ^ 14 := by
  have hcount : ∀ k, (loadRun k).runnable 0 1 ≤ 2 := by
    intro k
    rw [runnable]
    split_ifs <;> omega
  have htracks := load_avg_tracks (N := 2) (by decide) loadRun (fun _ => 0) (fun _ => 1) rfl
    (fun _ => rfl) hcount 100
  exact ⟨htracks.2.1, htracks.2.2.1⟩

/-! ### `recent_cpu` -/

/-- The factor that `update_recent_cpu` computes. -/
def coefficient (load : Int) : Int :=
  wrap ((wrap (2 * load) * multiplier).tdiv (wrap (wrap (2 * load) + toFp 1)))

/-- The value that `update_recent_cpu` computes. -/
def nextRecentCpu (load recent nice : Int) : Int :=
  wrap (multiply recent (coefficient load) + toFp nice)

/-- They are computed without overflow, and not with a division by zero. -/
def CoefficientFits (load : Int) : Prop :=
  Fits32 (2 * load) ∧ AddFits (wrap (2 * load)) 1 ∧
    DivideFits (wrap (2 * load)) (wrap (wrap (2 * load) + toFp 1))

def RecentCpuFits (load recent nice : Int) : Prop :=
  CoefficientFits load ∧ MultiplyFits recent (coefficient load) ∧ ToFpFits nice ∧
    Fits32 (multiply recent (coefficient load) + toFp nice)

/-- `thread_update_mlfqs_priority` computes without overflow. -/
def PriorityFits (recent nice : Int) : Prop :=
  RoundFits (recent.tdiv 4) ∧ Fits32 (priMax - roundFp (recent.tdiv 4)) ∧ Fits32 (nice * 2) ∧
    Fits32 (wrap (priMax - roundFp (recent.tdiv 4)) - wrap (nice * 2))

/-- The range of `recent_cpu` when the running thread may have had `extra` ticks since the last
    update. -/
def InRange (N : Nat) (extra x : Int) : Prop :=
  -20 * (2 * N + 1) * 2 ^ 14 ≤ x ∧ x ≤ (240 * N + 20 + extra) * 2 ^ 14

theorem tdiv_bounds {x b B : Int} (d : Int) (hd : 0 < d) (hlow : b * d ≤ x) (hhigh : x ≤ B * d) :
    b ≤ x.tdiv d ∧ x.tdiv d ≤ B := by
  have hlower := Int.tdiv_le_tdiv hd hlow
  have hupper := Int.tdiv_le_tdiv hd hhigh
  rw [Int.mul_tdiv_cancel _ (by omega)] at hlower hupper
  exact ⟨hlower, hupper⟩

section Bounds

variable (hN : N ≤ 545) {recent nice : Int}
include hN

/-- With a load average of at most `N` the factor is at most `2 * N / (2 * N + 1)`. -/
theorem coefficient_bound (h0 : 0 ≤ load) (hload : load ≤ N * 2 ^ 14) :
    CoefficientFits load ∧ 0 ≤ coefficient load ∧ coefficient load ≤ 2 ^ 14 ∧
      coefficient load * (2 * N + 1) ≤ 2 * N * 2 ^ 14 := by
  have htwice : Fits32 (2 * load) := by constructor <;> omega
  have hone : toFp 1 = 16384 := toFp_eq (by decide) (by decide)
  have hden : Fits32 (2 * load + 16384) := by constructor <;> omega
  obtain ⟨c, hc⟩ : ∃ c, c = (2 * load * multiplier).tdiv (2 * load + 16384) := ⟨_, rfl⟩
  have hquot : c = 2 * load * 16384 / (2 * load + 16384) := by
    rw [hc, multiplier]
    exact Int.tdiv_eq_ediv_of_nonneg (by omega)
  have hpos : 0 ≤ c := by
    rw [hquot]
    exact Int.ediv_nonneg (by omega) (by omega)
  have hmul : c * (2 * load + 16384) ≤ 2 * load * 16384 := by
    rw [hquot]
    exact Int.ediv_mul_le _ (by omega)
  have hle : c ≤ 16384 := by
    rw [hquot]
    exact Int.ediv_le_of_le_mul (by omega) (by nlinarith)
  have hfits : Fits32 c := by constructor <;> omega
  have hcoeff : coefficient load = c := by
    rw [coefficient, htwice.wrap_eq, hone, hden.wrap_eq, ← hc, hfits.wrap_eq]
  have hrest : 2 * load * (16384 - c) ≤ 2 * (N * 2 ^ 14) * (16384 - c) :=
    Int.mul_le_mul_of_nonneg_right (by omega) (by omega)
  refine ⟨⟨htwice, ⟨toFpFits (by decide) (by decide), ?_⟩, ?_⟩, ?_⟩
  · rw [htwice.wrap_eq, hone]
    exact hden
  · rw [htwice.wrap_eq, hone, hden.wrap_eq, DivideFits, ← hc]
    refine ⟨by omega, ?_, hfits⟩
    unfold multiplier
    constructor <;> omega
  · rw [hcoeff]
    refine ⟨hpos, hle, ?_⟩
    nlinarith

/-- One update brings a value back that has been increased for a second. -/
theorem nextRecentCpu_bound (h0 : 0 ≤ load) (hload : load ≤ N * 2 ^ 14)
    (hrecent : InRange N 100 recent) (hnice : -20 ≤ nice ∧ nice ≤ 20) :
    RecentCpuFits load recent nice ∧ InRange N 0 (nextRecentCpu load recent nice) := by
  obtain ⟨hfits, hpos, hle, hscaled⟩ := coefficient_bound hN h0 hload
  obtain ⟨hlow, hhigh⟩ := hrecent
  generalize hc : coefficient load = c at *
  have hupper : recent * c ≤ 240 * N * 2 ^ 14 * multiplier := by
    have := Int.mul_le_mul_of_nonneg_right hhigh hpos
    unfold multiplier
    nlinarith
  have hlower : -40 * N * 2 ^ 14 * multiplier ≤ recent * c := by
    have := Int.mul_le_mul_of_nonneg_right hlow hpos
    unfold multiplier
    nlinarith
  obtain ⟨hquotLower, hquotUpper⟩ := tdiv_bounds multiplier (by decide) hlower hupper
  have hquot : Fits32 ((recent * c).tdiv multiplier) := by constructor <;> omega
  have hprod : Fits64 (recent * c) := by
    unfold multiplier at hupper hlower
    constructor <;> omega
  have hadd : toFp nice = nice * 2 ^ 14 := toFp_eq (by omega) (by omega)
  have hmul : multiply recent c = (recent * c).tdiv multiplier := hquot.wrap_eq
  have hsum : Fits32 (multiply recent c + toFp nice) := by
    rw [hmul, hadd]
    constructor <;> omega
  refine ⟨⟨hfits, ?_, toFpFits (by omega) (by omega), ?_⟩, ?_⟩
  · rw [hc]
    exact ⟨hprod, hquot⟩
  · rw [hc]
    exact hsum
  · rw [nextRecentCpu, hc, hsum.wrap_eq, hmul, hadd]
    constructor <;> omega

/-- A tick in between adds one. -/
theorem add_one_bound {extra : Int} (hextra : extra ≤ 99) (hrecent : InRange N extra recent) :
    AddFits recent 1 ∧ InRange N (extra + 1) (add recent 1) := by
  obtain ⟨hlow, hhigh⟩ := hrecent
  have hone : toFp 1 = 16384 := toFp_eq (by decide) (by decide)
  have hsum : Fits32 (recent + toFp 1) := by
    rw [hone]
    constructor <;> omega
  refine ⟨⟨toFpFits (by decide) (by decide), hsum⟩, ?_⟩
  rw [add, hsum.wrap_eq, hone]
  constructor <;> omega

theorem priorityFits (hrecent : InRange N 100 recent) (hnice : -20 ≤ nice ∧ nice ≤ 20) :
    PriorityFits recent nice := by
  obtain ⟨hlow, hhigh⟩ := hrecent
  have hquarter : -2 ^ 29 ≤ recent.tdiv 4 ∧ recent.tdiv 4 ≤ 2 ^ 29 :=
    tdiv_bounds 4 (by decide) (by omega) (by omega)
  rw [PriorityFits]
  generalize recent.tdiv 4 = x at *
  have hhalf : multiplier.tdiv 2 = 8192 := by decide
  have hround : RoundFits x ∧ -2 ^ 17 ≤ roundFp x ∧ roundFp x ≤ 2 ^ 17 := by
    rw [RoundFits, roundFp, hhalf]
    split_ifs
    · have hsum : Fits32 (x + 8192) := by constructor <;> omega
      rw [hsum.wrap_eq]
      exact ⟨hsum, tdiv_bounds multiplier (by decide) (by unfold multiplier; omega)
        (by unfold multiplier; omega)⟩
    · have hsum : Fits32 (x - 8192) := by constructor <;> omega
      rw [hsum.wrap_eq]
      exact ⟨hsum, tdiv_bounds multiplier (by decide) (by unfold multiplier; omega)
        (by unfold multiplier; omega)⟩
  obtain ⟨hfits, hround⟩ := hround
  have hfirst : Fits32 (priMax - roundFp x) := by
    unfold priMax
    constructor <;> omega
  have htwice : Fits32 (nice * 2) := by constructor <;> omega
  refine ⟨hfits, hfirst, htwice, ?_⟩
  rw [hfirst.wrap_eq, htwice.wrap_eq]
  unfold priMax
  constructor <;> omega

end Bounds

/-! ### Runs -/

/-- What `init_thread` does to the fields above: the thread's page is cleared. -/
def initThread (t : ι) : Exec (Mlfqs ι κ) Unit :=
  Exec.update (fun m => { m with
    allList := m.allList ++ [t]
    nice := update m.nice t 0
    recentCpu := update m.recentCpu t 0 })

/-- What `thread_exit` does to the list of all threads. -/
def leaveList (t : ι) : Exec (Mlfqs ι κ) Unit :=
  Exec.update (fun m => { m with allList := m.allList.erase t })

/-- The first thing that the idle thread does. -/
def becomeIdle (t : ι) : Exec (Mlfqs ι κ) Unit :=
  Exec.update (fun m => { m with idleThread := some t })

/-- What changes `recent_cpu`, `load_avg` and what they are computed from. -/
inductive CpuOp (ι : Type) where
  | tick (current : ι) (ready : Nat)
  | setNice (t : ι) (nice : Int)
  | create (t : ι)
  | exit (t : ι)
  | idle (t : ι)

/-- The running thread and the one that changes its `nice` are on the list of all threads, and a new
    one is not. -/
def cpu (ι κ : Type) [DecidableEq ι] : Machine (Mlfqs ι κ) (CpuOp ι) where
  ready m op :=
    match op with
    | .tick t _ | .setNice t _ | .exit t | .idle t => decide (t ∈ m.allList)
    | .create t => decide (t ∉ m.allList)
  code op :=
    match op with
    | .tick t ready => threadTick t ready
    | .setNice t nice => threadSetNice t nice
    | .create t => initThread t
    | .exit t => leaveList t
    | .idle t => becomeIdle t

/-- The next tick begins a new second. -/
def AtSecond (m : Mlfqs ι κ) : Prop := (wrap ((m.ticks + 1 : Nat) : Int)).tmod 100 = 0

instance (m : Mlfqs ι κ) : Decidable (AtSecond m) := inferInstanceAs (Decidable (_ = _))

/-- At most `N` threads are ready or running when a second begins, and `nice` is in its range. -/
def Moderate (N : Nat) (m : Mlfqs ι κ) : CpuOp ι → Prop
  | .tick t ready => AtSecond m → m.runnable t ready ≤ N
  | .setNice _ nice => -20 ≤ nice ∧ nice ≤ 20
  | .create _ | .exit _ | .idle _ => True

instance (N : Nat) (m : Mlfqs ι κ) : ∀ op, Decidable (Moderate N m op)
  | .tick t ready => inferInstanceAs (Decidable (AtSecond m → m.runnable t ready ≤ N))
  | .setNice _ nice => inferInstanceAs (Decidable (-20 ≤ nice ∧ nice ≤ 20))
  | .create _ | .exit _ | .idle _ => .isTrue trivial

/-- The tick computes without overflow and without a division by zero. -/
structure TickFits (m : Mlfqs ι κ) (t : ι) (ready : Nat) : Prop where
  tick : AddFits (m.recentCpu t) 1
  load : AtSecond m → LoadAvgFits m.loadAvg (m.runnable t ready)
  recent : AtSecond m → ∀ u ∈ m.allList,
    RecentCpuFits (nextLoadAvg m.loadAvg (m.runnable t ready))
      (update m.recentCpu t (add (m.recentCpu t) 1) u) (m.nice u)

/-- At least the number of ticks since the last second began. -/
def phase (ticks : Nat) : Int := wrap ticks % 100

/-- What holds at all times. -/
structure Bounded (N : Nat) (m : Mlfqs ι κ) : Prop where
  load : 0 ≤ m.loadAvg ∧ m.loadAvg ≤ N * 2 ^ 14
  nice : ∀ t ∈ m.allList, -20 ≤ m.nice t ∧ m.nice t ≤ 20
  recent : ∀ t ∈ m.allList, InRange N (phase m.ticks) (m.recentCpu t)

theorem phase_lt (ticks : Nat) : 0 ≤ phase ticks ∧ phase ticks ≤ 99 := by
  unfold phase
  omega

omit [DecidableEq ι] in
/-- When the counter goes round, the phase jumps ahead. -/
theorem phase_next (m : Mlfqs ι κ) :
    (AtSecond m → phase (m.ticks + 1) = 0) ∧
      (¬ AtSecond m → phase m.ticks + 1 ≤ phase (m.ticks + 1)) := by
  have hzero : AtSecond m ↔ phase (m.ticks + 1) = 0 := by
    rw [AtSecond, ← Int.dvd_iff_tmod_eq_zero, Int.dvd_iff_emod_eq_zero, phase]
  refine ⟨hzero.mp, fun h => ?_⟩
  rw [hzero] at h
  have hstep : wrap ((m.ticks + 1 : Nat) : Int) = wrap m.ticks + 1 ∨
      (wrap m.ticks = 2 ^ 31 - 1 ∧ wrap ((m.ticks + 1 : Nat) : Int) = -2 ^ 31) := by
    unfold wrap Int.bmod
    simp only
    split_ifs <;> omega
  unfold phase at *
  omega

theorem InRange.mono {a b x : Int} (h : InRange N a x) (hab : a ≤ b) : InRange N b x :=
  ⟨h.1, h.2.trans (by omega)⟩

theorem divide_run {σ : Type} {s : σ} (x : Int) {y : Int} (hy : y ≠ 0) :
    (divide x y).run s = .ok (wrap ((x * multiplier).tdiv y), s) := by
  rw [divide, if_neg hy]
  rfl

theorem updateRecentCpu_run (h : CoefficientFits m.loadAvg) (t : ι) :
    (updateRecentCpu t).run m = .ok ((), { m with
      recentCpu := update m.recentCpu t
        (nextRecentCpu m.loadAvg (m.recentCpu t) (m.nice t)) }) := by
  rw [updateRecentCpu, read_bind, divide, if_neg h.2.2.1]
  rfl

theorem updatePriority_run (t : ι) (m : Mlfqs ι κ) :
    ∃ k, (threadUpdateMlfqsPriority t).run m = .ok ((), { m with kernel := k }) := by
  rw [threadUpdateMlfqsPriority, read_bind]
  split_ifs
  · exact ⟨m.kernel, rfl⟩
  · exact ⟨_, rfl⟩

theorem foreach_updatePriority_run (ts : List ι) (m : Mlfqs ι κ) :
    ∃ k, (threadForeach threadUpdateMlfqsPriority ts).run m = .ok ((), { m with kernel := k }) := by
  induction ts generalizing m with
  | nil => exact ⟨m.kernel, rfl⟩
  | cons t ts ih =>
    obtain ⟨k, hk⟩ := updatePriority_run t m
    obtain ⟨k', hk'⟩ := ih { m with kernel := k }
    exact ⟨k', by rw [threadForeach, bind_ok hk, hk']⟩

section Steps

variable (hN : N ≤ 545)
include hN

/-- The loop at the beginning of a second brings every thread's value back. -/
theorem foreach_updateRecentCpu_bound (ts : List ι) (hload : 0 ≤ m.loadAvg ∧ m.loadAvg ≤ N * 2 ^ 14)
    (hnice : ∀ t ∈ ts, -20 ≤ m.nice t ∧ m.nice t ≤ 20)
    (hrecent : ∀ t ∈ ts, InRange N 100 (m.recentCpu t)) :
    ∃ recentCpu, (threadForeach updateRecentCpu ts).run m =
        .ok ((), { m with recentCpu := recentCpu }) ∧
      (∀ t ∈ ts, InRange N 0 (recentCpu t)) ∧ ∀ t ∉ ts, recentCpu t = m.recentCpu t := by
  induction ts generalizing m with
  | nil => exact ⟨m.recentCpu, rfl, nofun, fun _ _ => rfl⟩
  | cons t ts ih =>
    have hnext := (nextRecentCpu_bound hN hload.1 hload.2 (hrecent t mem_cons_self)
      (hnice t mem_cons_self)).2
    generalize hx : nextRecentCpu m.loadAvg (m.recentCpu t) (m.nice t) = x at hnext
    have hrun : (updateRecentCpu t).run m =
        .ok ((), { m with recentCpu := update m.recentCpu t x }) :=
      hx ▸ updateRecentCpu_run (coefficient_bound hN hload.1 hload.2).1 t
    have hthen : ∀ u ∈ ts, InRange N 100 (update m.recentCpu t x u) := by
      intro u hu
      rw [update_apply]
      split_ifs
      · exact hnext.mono (by decide)
      · exact hrecent u (mem_cons_of_mem t hu)
    obtain ⟨recentCpu, hrest, hin, hout⟩ :=
      ih (m := { m with recentCpu := update m.recentCpu t x }) hload
        (fun u hu => hnice u (mem_cons_of_mem t hu)) hthen
    replace hout : ∀ u ∉ ts, recentCpu u = update m.recentCpu t x u := hout
    refine ⟨recentCpu, ?_, fun u hu => ?_, fun u hu => ?_⟩
    · rw [threadForeach, bind_ok hrun, hrest]
    · by_cases hlater : u ∈ ts
      · exact hin u hlater
      · rw [hout u hlater, (mem_cons.mp hu).resolve_right hlater, update_self]
        exact hnext
    · rw [mem_cons, not_or] at hu
      rw [hout u hu.2, update_of_ne hu.1]

theorem everySecond_bound {t : ι} {ready : Nat} (hcount : m.runnable t ready ≤ N)
    (hload : 0 ≤ m.loadAvg ∧ m.loadAvg ≤ N * 2 ^ 14)
    (hnice : ∀ u ∈ m.allList, -20 ≤ m.nice u ∧ m.nice u ≤ 20)
    (hrecent : ∀ u ∈ m.allList, InRange N 100 (m.recentCpu u)) (hphase : phase m.ticks = 0) :
    Returns (everySecond t ready m.allList) m (fun _ m' => Bounded N m') := by
  have hload' := nextLoadAvg_bound (by omega) hload.1 hload.2 hcount
  have hrun := updateLoadAvg_run t ready m
  generalize nextLoadAvg m.loadAvg (m.runnable t ready) = load at *
  have hdivide := divide_run (s := { m with loadAvg := load }) (wrap (2 * load))
    (coefficient_bound hN hload'.1 hload'.2).1.2.2.1
  rw [everySecond, returns_step hrun, returns_get]
  refine (returns_step hdivide).mpr ?_
  rw [returns_put]
  obtain ⟨recentCpu, hloop, hin, -⟩ := foreach_updateRecentCpu_bound hN
    (m := { m with loadAvg := load, loadCoefficient := _ }) m.allList hload' hnice hrecent
  refine ⟨(), _, hloop, hload', hnice, ?_⟩
  show ∀ u ∈ m.allList, InRange N (phase m.ticks) (recentCpu u)
  rw [hphase]
  exact hin

/-- A tick keeps the values in range and computes without overflow. -/
theorem threadTick_bound (h : Bounded N m) {t : ι} (ht : t ∈ m.allList) {ready : Nat}
    (hcount : AtSecond m → m.runnable t ready ≤ N) :
    TickFits m t ready ∧ Returns (threadTick t ready) m (fun _ m' => Bounded N m') := by
  obtain ⟨hphase0, hphase99⟩ := phase_lt m.ticks
  obtain ⟨hsecond, hbetween⟩ := phase_next m
  obtain ⟨hfits, htick⟩ := add_one_bound hN hphase99 (h.recent t ht)
  have hrecent : ∀ u ∈ m.allList, InRange N (phase m.ticks + 1)
      (update m.recentCpu t (add (m.recentCpu t) 1) u) := by
    intro u hu
    rw [update_apply]
    split_ifs
    · exact htick
    · exact (h.recent u hu).mono (by omega)
  have hrecent100 := fun u hu => (hrecent u hu).mono (show phase m.ticks + 1 ≤ 100 by omega)
  refine ⟨⟨hfits, fun hs => ?_, fun hs u hu => ?_⟩, ?_⟩
  · exact (nextLoadAvg_eq (by omega) h.load.1 h.load.2 (hcount hs)).1
  · have hload' := nextLoadAvg_bound (by omega) h.load.1 h.load.2 (hcount hs)
    exact (nextRecentCpu_bound hN hload'.1 hload'.2 (hrecent100 u hu) (h.nice u hu)).1
  · -- at every fourth tick the priorities are computed, and nothing else changes
    have hfourth : ∀ m₁ : Mlfqs ι κ, Bounded N m₁ → ∀ ticks : Int,
        Returns (if ticks.tmod 4 = 0 then threadForeach threadUpdateMlfqsPriority m.allList
          else pure ()) m₁ (fun _ m' => Bounded N m') := by
      intro m₁ h₁ ticks
      split_ifs
      · obtain ⟨k, hk⟩ := foreach_updatePriority_run m.allList m₁
        exact ⟨(), _, hk, h₁.load, h₁.nice, h₁.recent⟩
      · exact returns_pure.mpr h₁
    simp only [threadTick, returns_bind, returns_update, returns_read]
    rw [AtSecond] at *
    generalize wrap ((m.ticks + 1 : Nat) : Int) = ticks at *
    by_cases hs : ticks.tmod 100 = 0
    · rw [if_pos hs]
      refine (everySecond_bound hN (m := { m with
        ticks := m.ticks + 1
        recentCpu := update m.recentCpu t (add (m.recentCpu t) 1) })
        (hcount hs) h.load h.nice hrecent100 (hsecond hs)).bind ?_
      exact fun _ m₁ h₁ => hfourth m₁ h₁ ticks
    · rw [if_neg hs]
      refine hfourth { m with
        ticks := m.ticks + 1
        recentCpu := update m.recentCpu t (add (m.recentCpu t) 1) }
        ⟨h.load, h.nice, fun u hu => ?_⟩ ticks
      exact (hrecent u hu).mono (hbetween hs)

end Steps

/-- The scheduler before the first thread and the first tick. -/
structure Starts (m : Mlfqs ι κ) : Prop where
  threads : m.allList = []
  load : m.loadAvg = 0
  ticks : m.ticks = 0

omit [DecidableEq ι] in
theorem Starts.bounded (h : Starts m) (N : Nat) : Bounded N m := by
  refine ⟨?_, ?_, ?_⟩
  · rw [h.load]
    exact ⟨le_rfl, by omega⟩
  · simp [h.threads]
  · simp [h.threads]

theorem step_bounded (hN : N ≤ 545) (op : CpuOp ι) (m m' : Mlfqs ι κ) (h : Bounded N m)
    (hstep : (cpu ι κ).Steps op m m') (hop : Moderate N m op) : Bounded N m' := by
  cases op with
  | tick t ready =>
    exact (threadTick_bound hN h (of_decide_eq_true hstep.ready) hop).2.ensures () m' hstep.run
  | setNice t nice =>
    have hset : Returns (threadSetNice t nice) m (fun _ m' => Bounded N m') := by
      rw [threadSetNice, returns_put]
      obtain ⟨k, hk⟩ := updatePriority_run t { m with nice := update m.nice t nice }
      refine ⟨(), _, hk, h.load, fun u hu => ?_, h.recent⟩
      show -20 ≤ update m.nice t nice u ∧ update m.nice t nice u ≤ 20
      rw [update_apply]
      split_ifs
      · exact hop
      · exact h.nice u hu
    exact hset.ensures () m' hstep.run
  | create t =>
    refine (ensures_update.mpr ⟨h.load, fun u hu => ?_, fun u hu => ?_⟩ :
      Ensures (initThread t) m (fun _ m' => Bounded N m')) () m' hstep.run
    · show -20 ≤ update m.nice t 0 u ∧ update m.nice t 0 u ≤ 20
      rw [update_apply]
      split_ifs with hut
      · decide
      · exact h.nice u ((mem_append.mp hu).resolve_right (by simpa using hut))
    · show InRange N (phase m.ticks) (update m.recentCpu t 0 u)
      rw [update_apply]
      split_ifs with hut
      · have := phase_lt m.ticks
        constructor <;> omega
      · exact h.recent u ((mem_append.mp hu).resolve_right (by simpa using hut))
  | exit t =>
    exact (ensures_update.mpr ⟨h.load, fun u hu => h.nice u (mem_of_mem_erase hu),
      fun u hu => h.recent u (mem_of_mem_erase hu)⟩ :
      Ensures (leaveList t) m (fun _ m' => Bounded N m')) () m' hstep.run
  | idle t =>
    exact (ensures_update.mpr ⟨h.load, h.nice, h.recent⟩ :
      Ensures (becomeIdle t) m (fun _ m' => Bounded N m')) () m' hstep.run

/-- **Recent CPU.** In every run with at most `N` threads when a second begins, the
    `recent_cpu` of every thread stays in its range, and neither a tick nor the computation of a
    priority overflows or divides by zero. -/
theorem recent_cpu_bounded {N : Nat} (hN : N ≤ 545) {m₀ m : Mlfqs ι κ} (h₀ : Starts m₀)
    (hrun : (cpu ι κ).Run (Moderate N) m₀ m) :
    (∀ t ∈ m.allList, -20 * (2 * N + 1) * 2 ^ 14 ≤ m.recentCpu t ∧
      m.recentCpu t ≤ (240 * N + 120) * 2 ^ 14 ∧ PriorityFits (m.recentCpu t) (m.nice t)) ∧
    ∀ t ∈ m.allList, ∀ ready, (AtSecond m → m.runnable t ready ≤ N) →
      TickFits m t ready ∧ ∃ m', (cpu ι κ).Steps (.tick t ready) m m' := by
  have h : Bounded N m := hrun.invariant (step_bounded hN) (h₀.bounded N)
  have hphase := phase_lt m.ticks
  refine ⟨fun t ht => ?_, fun t ht ready hcount => ?_⟩
  · have hrange := (h.recent t ht).mono (show phase m.ticks ≤ 100 by omega)
    exact ⟨hrange.1, hrange.2.trans (by omega), priorityFits hN hrange (h.nice t ht)⟩
  · obtain ⟨hfits, _, m', htick, -⟩ := threadTick_bound hN h ht hcount
    exact ⟨hfits, m', decide_eq_true ht, htick⟩

/-- A thread is created, lowers its priority and runs for two seconds but a tick. -/
def twoSeconds : List (CpuOp (Fin 2)) := [.create 0, .setNice 0 20] ++ replicate 199 (.tick 0 7)

theorem recent_cpu_bounded_first :
    ∃ m, (cpu (Fin 2) (Fin 1)).Run (Moderate 545) cpuStart m ∧ m.ticks = 199 ∧ 0 < m.loadAvg ∧
      m.nice 0 = 20 ∧ 0 ∈ m.allList ∧ PriorityFits (m.recentCpu 0) (m.nice 0) ∧
      AtSecond m ∧ TickFits m 0 7 := by
  have hrun := Machine.run_of_allows
    (show (cpu (Fin 2) (Fin 1)).allows (Moderate 545) cpuStart twoSeconds = true by decide +kernel)
  have hmem : 0 ∈ ((cpu (Fin 2) (Fin 1)).after twoSeconds cpuStart).allList := by decide +kernel
  obtain ⟨hrange, htick⟩ := recent_cpu_bounded le_rfl ⟨rfl, rfl, rfl⟩ hrun
  refine ⟨_, hrun, by decide +kernel, by decide +kernel, by decide +kernel, hmem,
    (hrange 0 hmem).2.2, by decide +kernel, (htick 0 hmem 7 (fun _ => ?_)).1⟩
  decide +kernel

/-! ### The system call -/

/-- `thread_get_recent_cpu` by thread `t`. -/
def threadGetRecentCpu (t : ι) : Exec (Mlfqs ι κ) Int :=
  read (fun m => roundFp (multiply (toFp 100) (m.recentCpu t)))

/-- It computes without overflow. -/
def ReportFits (recent : Int) : Prop :=
  ToFpFits 100 ∧ MultiplyFits (toFp 100) recent ∧ RoundFits (multiply (toFp 100) recent)

/-- No integer is closer than `n` to `100` times the number that `x` stands for. -/
def IsNearest (n x : Int) : Prop := ∀ k : Int, |100 * x - n * 2 ^ 14| ≤ |100 * x - k * 2 ^ 14|

theorem isNearest_of_half {n x : Int} (h : -8192 ≤ 100 * x - n * 2 ^ 14)
    (h' : 100 * x - n * 2 ^ 14 ≤ 8192) : IsNearest n x := by
  intro k
  rw [Int.abs_eq_natAbs, Int.abs_eq_natAbs]
  rcases lt_trichotomy k n with hlt | rfl | hgt <;> omega

theorem roundFp_nearest {x : Int} (h : RoundFits (100 * x)) : IsNearest (roundFp (100 * x)) x := by
  have hhalf : multiplier.tdiv 2 = 8192 := by decide
  rw [RoundFits, hhalf] at h
  rw [roundFp, hhalf]
  split_ifs at * with hpos
  · have hquot : (100 * x + 8192).tdiv multiplier = (100 * x + 8192) / 16384 :=
      Int.tdiv_eq_ediv_of_nonneg (by omega)
    rw [h.wrap_eq, hquot]
    exact isNearest_of_half (by omega) (by omega)
  · have hquot : (100 * x - 8192).tdiv multiplier = -((8192 - 100 * x) / 16384) := by
      rw [← Int.neg_sub, Int.neg_tdiv]
      congr 1
      exact Int.tdiv_eq_ediv_of_nonneg (by omega)
    rw [h.wrap_eq, hquot]
    exact isNearest_of_half (by omega) (by omega)

omit [DecidableEq ι] in
/-- **Report.** Of the values that `recent_cpu` can have with up to 60 threads, those are reported
    rightly whose hundredfold has room in 32 bits. -/
theorem recent_cpu_reported_iff {m : Mlfqs ι κ} {t : ι} (hlow : -2420 * 2 ^ 14 ≤ m.recentCpu t)
    (hhigh : m.recentCpu t ≤ 14520 * 2 ^ 14) :
    (∃ n, (threadGetRecentCpu t).run m = .ok (n, m) ∧ IsNearest n (m.recentCpu t) ∧
      ReportFits (m.recentCpu t)) ↔
    -21474754 ≤ m.recentCpu t ∧ m.recentCpu t ≤ 21474754 := by
  have hhundred : toFp 100 = 100 * 16384 := toFp_eq (by decide) (by decide)
  have hhalf : multiplier.tdiv 2 = 8192 := by decide
  rw [threadGetRecentCpu, run_read]
  generalize m.recentCpu t = x at *
  -- the product is exact before it is stored
  have hprod : (toFp 100 * x).tdiv multiplier = 100 * x := by
    rw [hhundred, show 100 * 16384 * x = 100 * x * multiplier by unfold multiplier; ring]
    exact Int.mul_tdiv_cancel _ (by decide)
  rw [ReportFits, MultiplyFits, hprod]
  constructor
  · rintro ⟨-, -, -, -, ⟨-, hfits⟩, hround⟩
    rw [multiply, hprod, hfits.wrap_eq, RoundFits, hhalf] at hround
    split_ifs at hround <;> unfold Fits32 at hround <;> omega
  · intro hrange
    have hfits : Fits32 (100 * x) := by constructor <;> omega
    have hmul : multiply (toFp 100) x = 100 * x := by rw [multiply, hprod, hfits.wrap_eq]
    have hround : RoundFits (100 * x) := by
      rw [RoundFits, hhalf]
      split_ifs <;> constructor <;> omega
    refine ⟨_, rfl, ?_, toFpFits (by decide) (by decide), ⟨?_, hfits⟩, ?_⟩
    · rw [hmul]
      exact roundFp_nearest hround
    · rw [hhundred]
      constructor <;> omega
    · rw [hmul]
      exact hround

/-- Ten ticks of running time. -/
def cpuTen : Mlfqs (Fin 2) (Fin 1) := { cpuStart with recentCpu := fun _ => 10 * 2 ^ 14 }

theorem recent_cpu_reported_iff_ten :
    ∃ n, (threadGetRecentCpu 0).run cpuTen = .ok (n, cpuTen) ∧ IsNearest n (10 * 2 ^ 14) := by
  obtain ⟨n, hrun, hnearest, -⟩ := (recent_cpu_reported_iff (t := 0) (m := cpuTen) (by decide)
    (by decide)).mpr (by decide)
  exact ⟨n, hrun, hnearest⟩

/-- A second in which one thread with a `nice` of `20` runs and `60` are runnable: its effect on
    `load_avg` and the thread's `recent_cpu`. -/
def busySecond (s : Int × Int) : Int × Int :=
  (nextLoadAvg s.1 60, nextRecentCpu (nextLoadAvg s.1 60) (s.2 + 100 * 2 ^ 14) 20)

/-- After 17 such seconds `recent_cpu` is `1338.6`, and is reported as `-128280` hundredths. -/
theorem recent_cpu_reported_negative :
    (busySecond^[17] (0, 0)).2 = 21932255 ∧
      outcome (threadGetRecentCpu 0) { cpuStart with recentCpu := fun _ => 21932255 } =
        .ok (-128280) ∧
      ((133864 * 2 ^ 14 - 100 * 21932255 : Int)).natAbs ≤ 2 ^ 13 := by
  decide +kernel

end Mlfqs

end KernelSanders
