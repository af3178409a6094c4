import KernelSanders.Filesys.RwLockExclusion

namespace KernelSanders

open Lib Lib.Exec

/-!
# Where the reader/writer lock gets stuck, and where it does not

Complete sessions on one lock: a reader that ends its read or upgrades and ends its write, and
the session of `find_block` on a slot it fills, which downgrades from `cache_write_try`.  There
are two ways to get stuck for ever (`sessions_stuck`):

* a first reader waits for the semaphore with `r` in its hands, and the loader that has the
  semaphore needs `r` to downgrade;
* of three readers two upgrade: the first waits behind `extra` for the third to leave, the second
  waits for `extra` with `r` in its hands, and the third needs `r` to leave.

A run in which no two upgrades overlap and nobody begins to read while a loader is at work always
goes on (`sessions_progress`).
-/

variable {ι : Type} [Fintype ι] [DecidableEq ι]

/-- The calls of complete sessions. -/
def Role.mayContinue : Role → RwCall → Bool
  | .out, .readBegin | .out, .writeTry => true
  | .reading, .readEnd | .reading, .upgrade => true
  | .writing false, .writeEnd => true
  | .writing true, .downgrade => true
  | _, _ => false

/-- Any threads running complete sessions on one lock. -/
def sessionSystem : System ι (Latch ι) RwCall Role where
  code := RwCall.code
  allowed := Role.mayContinue

/-- Thread `t` has begun a session that it has not ended. -/
def InSession (p : Pool ι (Latch ι) RwCall Role) (t : ι) : Prop := p.places t ≠ .idle .out

/-- A loader: from `cache_write_try` to the end of its `cache_downgrade`. -/
def Loading : Place RwCall Role → Prop
  | .inside .writeTry | .inside .downgrade | .idle (.writing true) => True
  | _ => False

/-- No two upgrades overlap, and nobody begins to read while another thread is a loader. -/
structure Calm (q : ι → Place RwCall Role) : Prop where
  upgrade : ∀ t u, q t = .inside .upgrade → q u = .inside .upgrade → t = u
  load : ∀ t u, t ≠ u → q t = .inside .readBegin → ¬ Loading (q u)

/-! ### Who waits for what -/

section Waits

variable {c : RwCall} {ph : Phase} {res : Resource}

section

variable (h : c.waits ph = some res)
include h

theorem waits_of_hasR (hr : ph.hasR = true) :
    (c = .readBegin ∧ ph.solitary = true ∧ (res = .extra ∨ res = .g)) ∨
      (c = .upgrade ∧ ph = .leftR ∧ res = .extra) := by
  cases c <;> cases ph <;> first | cases h; done | cases hr; done | (cases h; decide)

theorem waits_of_hasX (hx : ph.hasX = true) (hr : ph.hasR = false) :
    (c = .upgrade ∨ c = .writeBegin) ∧ ph = .waitingX ∧ res = .g := by
  cases c <;> cases ph <;>
    first | cases h; done | cases hx; done | cases hr; done | (cases h; decide)

theorem waits_of_owner (ho : 0 < ph.owner) : c = .downgrade ∧ res = .r := by
  cases c <;> cases ph <;> first | cases h; done | exact absurd ho (by decide) | (cases h; decide)

theorem waits_of_admitted (ha : 0 < ph.admitted) : res = .r := by
  cases c <;> cases ph <;> first | cases h; done | exact absurd ha (by decide) | (cases h; decide)

end

theorem waits_extra (h : c.waits ph = some .extra) : ph.hasR = true ∨ c = .writeBegin := by
  cases c <;> cases ph <;> first | cases h; done | decide

end Waits

/-- Every thread inside a session waits. -/
def AllWait (p : Pool ι (Latch ι) RwCall Role) (G : ι → Phase) : Prop :=
  ∀ t, InSession p t → ∃ c res, p.places t = .inside c ∧ c ≠ .writeBegin ∧
    c.waits (G t) = some res ∧ Busy p.shared G res

section Stuck

variable {p : Pool ι (Latch ι) RwCall Role} {G : ι → Phase}

theorem Lib.Good.inSession (hG : Good rwOutline p G) {t : ι} (h : G t ≠ .out) : InSession p t :=
  fun hout => h (hG.phase_of_idle hout)

/-- If nobody has readers admitted and nobody moves, the semaphore is with a loader that waits for
    `r` to downgrade. -/
theorem AllWait.loader (hw : AllWait p G) (hG : Good rwOutline p G) (hg : Busy p.shared G .g)
    (hA : total Phase.admitted G = 0) : ∃ u, p.places u = .inside .downgrade := by
  have hsum := hG.inv.g
  have hzero : p.shared.lock.g = 0 := hg
  obtain ⟨u, hu⟩ := exists_of_total_pos (f := Phase.owner) (G := G) (by omega)
  have hne : G u ≠ .out := fun h => by rw [h] at hu; exact absurd hu (by decide)
  obtain ⟨c, res, hplace, -, hwait, -⟩ := hw u (hG.inSession hne)
  rw [(waits_of_owner hwait hu).1] at hplace
  exact ⟨u, hplace⟩

/-- With `r` in somebody's hands: the first reader waits for a loader, or two upgrades overlap. -/
theorem AllWait.not_hasR (hw : AllWait p G) (hG : Good rwOutline p G) (hc : Calm p.places) (t : ι) :
    (G t).hasR = false := by
  by_contra hr
  have hr : (G t).hasR = true := by simpa using hr
  have hne : G t ≠ .out := fun h => by rw [h] at hr; cases hr
  obtain ⟨c, res, hplace, hbegin, hwait, hbusy⟩ := hw t (hG.inSession hne)
  -- another thread with `extra` does not have `r`, so it waits for the semaphore
  have hextra : Busy p.shared G .extra → (G t).hasX = false →
      ∃ u, u ≠ t ∧ p.places u = .inside .upgrade ∧ Busy p.shared G .g := by
    intro ⟨u, hu⟩ hx
    have hut : u ≠ t := fun h => by rw [h, hx] at hu; cases hu
    have hur : (G u).hasR = false := by
      cases hur : (G u).hasR with
      | true => exact absurd (hG.inv.r_unique hur hr) hut
      | false => rfl
    have hune : G u ≠ .out := fun h => by rw [h] at hu; cases hu
    obtain ⟨c', res', hplace', hbegin', hwait', hbusy'⟩ := hw u (hG.inSession hune)
    obtain ⟨hc', -, hres⟩ := waits_of_hasX hwait' hu hur
    rw [hres] at hbusy'
    rcases hc' with rfl | rfl
    · exact ⟨u, hut, hplace', hbusy'⟩
    · exact absurd rfl hbegin'
  rcases waits_of_hasR hwait hr with ⟨rfl, hsol, hres⟩ | ⟨rfl, hleft, rfl⟩
  · -- nobody is admitted, so a loader has the semaphore
    have hA : total Phase.admitted G = 0 := (hG.inv.knows t).1 hsol
    have hg : Busy p.shared G .g := by
      cases hx : (G t).hasX with
      | false =>
        rcases hres with rfl | rfl
        · obtain ⟨-, -, -, hg⟩ := hextra hbusy hx
          exact hg
        · exact hbusy
      | true =>
        rcases hres with rfl | rfl
        · exfalso
          revert hwait hx
          cases G t <;> simp [RwCall.waits, Phase.hasX]
        · exact hbusy
    obtain ⟨u, hu⟩ := hw.loader hG hg hA
    refine hc.load t u (fun h => ?_) hplace (by rw [hu]; trivial)
    rw [← h, hplace] at hu
    cases hu
  · obtain ⟨u, hut, hu, -⟩ := hextra hbusy (by rw [hleft]; rfl)
    exact hut (hc.upgrade u t hu hplace)

/-- **Somebody inside a session moves.** -/
theorem not_allWait (hG : Good rwOutline p G) (hc : Calm p.places) {t : ι} (ht : InSession p t) :
    ¬ AllWait p G := by
  intro hw
  have hnoR := hw.not_hasR hG hc
  have hfree : ¬ Busy p.shared G .r := fun ⟨u, hu⟩ => by rw [hnoR u] at hu; cases hu
  obtain ⟨c, res, -, hbegin, hwait, hbusy⟩ := hw t ht
  have hg : Busy p.shared G .g := by
    cases res with
    | r => exact absurd hbusy hfree
    | extra =>
      rcases waits_extra hwait with hr | hr
      · rw [hnoR t] at hr
        cases hr
      · exact absurd hr hbegin
    | g => exact hbusy
  -- whoever has the semaphore waits for `r`, which is free
  have hsum := hG.inv.g
  have hzero : p.shared.lock.g = 0 := hg
  have hholder : ∃ u, 0 < (G u).owner ∨ 0 < (G u).admitted := by
    by_cases hA : total Phase.admitted G = 0
    · obtain ⟨u, hu⟩ := exists_of_total_pos (f := Phase.owner) (G := G) (by omega)
      exact ⟨u, .inl hu⟩
    · obtain ⟨u, hu⟩ := exists_of_total_pos (Nat.pos_of_ne_zero hA)
      exact ⟨u, .inr hu⟩
  obtain ⟨u, hu⟩ := hholder
  have hne : G u ≠ .out := by
    intro h
    rw [h] at hu
    exact absurd hu (by decide)
  obtain ⟨c', res', -, -, hwait', hbusy'⟩ := hw u (hG.inSession hne)
  have hres : res' = .r := by
    rcases hu with hu | hu
    · exact (waits_of_owner hwait' hu).2
    · exact waits_of_admitted hwait' hu
  rw [hres] at hbusy'
  exact hfree hbusy'

end Stuck

/-! ### Runs -/

theorem Role.mayCall_of_mayContinue {r : Role} {c : RwCall} (h : r.mayContinue c = true) :
    r.mayCall c = true := by
  cases r with
  | out | reading => cases c <;> first | rfl | cases h
  | writing tried => cases tried <;> cases c <;> first | rfl | cases h

/-- A thread between two calls of a session can make the next one. -/
theorem exists_mayContinue (r : Role) : ∃ c, r.mayContinue c = true := by
  cases r with
  | out => exact ⟨.readBegin, rfl⟩
  | reading => exact ⟨.readEnd, rfl⟩
  | writing tried =>
    cases tried with
    | false => exact ⟨.writeEnd, rfl⟩
    | true => exact ⟨.downgrade, rfl⟩

/-- **Progress.** In every run in which upgrades do not overlap and nobody begins to read while
    another thread is a loader, some thread inside a session can take its next step whenever there
    is one. -/
theorem sessions_progress {p : Pool ι (Latch ι) RwCall Role}
    (h : Run sessionSystem (fun _ q => Calm q) rwPool p) (hp : ∃ t, InSession p t) :
    ∃ t, InSession p t ∧ ∃ p', Step sessionSystem t p p' := by
  obtain ⟨t, ht⟩ := hp
  obtain ⟨G, hG⟩ := rw_good (fun _ _ => Role.mayCall_of_mayContinue) h
  have hcalm : Calm p.places := by
    rcases Relation.ReflTransGen.cases_tail h with rfl | ⟨_, -, _, -, hc⟩
    · exact absurd rfl ht
    · exact hc
  have hinside : ∀ t c, p.places t = .inside c → c ≠ .writeBegin := by
    refine Run.inside (P := fun c => c ≠ .writeBegin) ?_ h (fun _ _ hn => by cases hn)
    intro r c ha hc
    subst hc
    cases r with
    | out => cases ha
    | reading => cases ha
    | writing tried => cases tried <;> cases ha
  by_contra hstuck
  refine not_allWait hG hcalm ht (fun u hu => ?_)
  have hno : ∀ p', ¬ Step sessionSystem u p p' := fun p' hs => hstuck ⟨u, hu, p', hs⟩
  cases hplace : p.places u with
  | idle r =>
    obtain ⟨c, hc⟩ := exists_mayContinue r
    exact absurd (Step.call (Pool.thread_of_idle hplace) hc) (hno _)
  | inside c =>
    obtain ⟨x, hx⟩ := Pool.thread_of_inside hplace
    cases hn : p.next u with
    | ok p' => exact absurd (Step.next hn) (hno p')
    | error e =>
      obtain ⟨-, res, hwait, hbusy⟩ := hG.stop trivial hx hn
      exact ⟨c, res, rfl, hinside u c hplace, hwait, hbusy⟩

/-- One thread upgrades while the other one reads; the first step of the other one's end is
    left. -/
def calmMoves : List (Move (Fin 2) RwCall) :=
  [.call 0 .writeTry, .go 0 99, .call 0 .downgrade, .go 0 99, .call 1 .readBegin, .go 1 99,
    .call 0 .upgrade, .go 0 5, .call 1 .readEnd]

instance (q : Place RwCall Role) : Decidable (Loading q) := by
  unfold Loading
  split <;> infer_instance

instance (q : ι → Place RwCall Role) : Decidable (Calm q) :=
  decidable_of_iff ((∀ t u, q t = .inside .upgrade → q u = .inside .upgrade → t = u) ∧
    ∀ t u, t ≠ u → q t = .inside .readBegin → ¬ Loading (q u))
    ⟨fun h => ⟨h.1, h.2⟩, fun h => ⟨h.1, h.2⟩⟩

theorem sessions_progress_upgrade :
    ∃ p : Pool (Fin 2) (Latch (Fin 2)) RwCall Role,
      Run sessionSystem (fun _ q => Calm q) rwPool p ∧ InSession p 0 ∧ p.stuck 0 = true ∧
        ∃ t, InSession p t ∧ ∃ p', Step sessionSystem t p p' := by
  have hplay : (rwPool.play sessionSystem (fun _ q => Calm q) calmMoves).map
      (fun p => (p.places 0, p.stuck 0)) = some (.inside .upgrade, true) := by decide +kernel
  obtain ⟨p, hp, hplace⟩ := Option.map_eq_some_iff.mp hplay
  have hin : InSession p 0 := by
    rw [InSession, (Prod.mk.inj hplace).1]
    nofun
  have hrun := run_of_play hp
  exact ⟨p, hrun, hin, (Prod.mk.inj hplace).2, sessions_progress hrun ⟨0, hin⟩⟩

/-! ### Two ways to get stuck -/

/-- A loader and a first reader. -/
def loaderMoves : List (Move (Fin 2) RwCall) :=
  [.call 0 .writeTry, .go 0 99, .call 1 .readBegin, .go 1 4, .call 0 .downgrade]

/-- Three readers, two of which upgrade. -/
def upgradersMoves : List (Move (Fin 3) RwCall) :=
  [.call 0 .readBegin, .go 0 99, .call 1 .readBegin, .go 1 99, .call 2 .readBegin, .go 2 99,
    .call 0 .upgrade, .go 0 5, .call 1 .upgrade, .go 1 3, .call 2 .readEnd]

/-- From both schedules no thread, inside a session or not, ever takes a step again: all of them
    are inside one. -/
theorem sessions_stuck :
    (∃ p : Pool (Fin 2) (Latch (Fin 2)) RwCall Role,
      Run sessionSystem (fun _ _ => True) rwPool p ∧ (∀ t, InSession p t) ∧
        ∀ t p', ¬ Step sessionSystem t p p') ∧
      ∃ p : Pool (Fin 3) (Latch (Fin 3)) RwCall Role,
        Run sessionSystem (fun _ _ => True) rwPool p ∧ (∀ t, InSession p t) ∧
          ∀ t p', ¬ Step sessionSystem t p p' := by
  have h₂ : (rwPool.play sessionSystem (fun _ _ => True) loaderMoves).map
      (fun p => decide ((∀ t, p.places t ≠ .idle .out) ∧ ∀ t, p.stuck t = true)) = some true := by
    decide +kernel
  have h₃ : (rwPool.play sessionSystem (fun _ _ => True) upgradersMoves).map
      (fun p => decide ((∀ t, p.places t ≠ .idle .out) ∧ ∀ t, p.stuck t = true)) = some true := by
    decide +kernel
  obtain ⟨p₂, hp₂, hs₂⟩ := Option.map_eq_some_iff.mp h₂
  obtain ⟨p₃, hp₃, hs₃⟩ := Option.map_eq_some_iff.mp h₃
  have hs₂ := of_decide_eq_true hs₂
  have hs₃ := of_decide_eq_true hs₃
  exact ⟨⟨p₂, run_of_play hp₂, hs₂.1, fun t p' => not_step_of_stuck (hs₂.2 t)⟩,
    p₃, run_of_play hp₃, hs₃.1, fun t p' => not_step_of_stuck (hs₃.2 t)⟩

end KernelSanders
