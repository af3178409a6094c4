import KernelSanders.Lib.Exec

namespace KernelSanders.Lib

open Exec

/-!
# Systems of operations

A `Machine` has operations that take place one after the other, in any order: each runs its code if
it is ready.  `Run` are the runs all of whose operations meet a condition in the state they take
place in, and what each operation keeps is kept by a run (`Run.invariant`).  A run over a given
list of operations can be computed (`after`, `allows`).  `recording` adds a history variable.
-/

/-- Operations `ο` on states `σ`. -/
structure Machine (σ ο : Type) where
  ready : σ → ο → Bool
  code : ο → Exec σ Unit

namespace Machine

variable {σ ο : Type} (M : Machine σ ο)

/-- The operation takes `s` to `s'`. -/
structure Steps (o : ο) (s s' : σ) : Prop where
  ready : M.ready s o = true
  run : (M.code o).run s = .ok ((), s')

/-- Any number of operations, each of which meets `P`. -/
def Run (P : σ → ο → Prop) : σ → σ → Prop :=
  Relation.ReflTransGen (fun s s' => ∃ o, M.Steps o s s' ∧ P s o)

variable {M} {P : σ → ο → Prop} {s s' : σ} {I : σ → Prop}

/-- What every operation keeps is kept. -/
theorem Run.invariant (hstep : ∀ o s s', I s → M.Steps o s s' → P s o → I s')
    (hrun : M.Run P s s') (hs : I s) : I s' := by
  induction hrun with
  | refl => exact hs
  | tail _ hlast ih =>
    obtain ⟨o, hsteps, hP⟩ := hlast
    exact hstep o _ _ ih hsteps hP

/-- A run takes place in states that have what its operations keep. -/
theorem Run.and_invariant (hstep : ∀ o s s', I s → M.Steps o s s' → P s o → I s')
    (hrun : M.Run P s s') (hs : I s) : M.Run (fun s o => P s o ∧ I s) s s' := by
  induction hrun with
  | refl => exact .refl
  | tail hbefore hlast ih =>
    obtain ⟨o, hsteps, hP⟩ := hlast
    exact ih.tail ⟨o, hsteps, hP, Run.invariant hstep hbefore hs⟩

variable (M)

/-- The state after some operations. -/
def after (ops : List ο) (s : σ) : σ :=
  ops.foldl (fun s o => final (M.code o) s) s

/-- All of the operations are ready, return, and meet `P`. -/
def allows (P : σ → ο → Prop) [∀ s o, Decidable (P s o)] (s : σ) : List ο → Bool
  | [] => true
  | o :: ops => M.ready s o && decide (outcome (M.code o) s = .ok ()) && decide (P s o) &&
      allows P (final (M.code o) s) ops

variable {M}

theorem run_of_allows {P : σ → ο → Prop} [∀ s o, Decidable (P s o)] {ops : List ο}
    (h : M.allows P s ops = true) : M.Run P s (M.after ops s) := by
  induction ops generalizing s with
  | nil => exact .refl
  | cons o ops ih =>
    simp only [allows, Bool.and_eq_true, decide_eq_true_eq] at h
    obtain ⟨⟨⟨hready, hrun⟩, hP⟩, hrest⟩ := h
    exact .head ⟨o, ⟨hready, run_of_outcome hrun⟩, hP⟩ (ih hrest)

/-- A run meets every weaker condition. -/
theorem Run.mono {Q : σ → ο → Prop} (h : M.Run P s s') (hPQ : ∀ s o, P s o → Q s o) :
    M.Run Q s s' :=
  Relation.ReflTransGen.mono (fun _ _ ⟨o, hsteps, hP⟩ => ⟨o, hsteps, hPQ _ o hP⟩) _ _ h

/-! ### History variables -/

section Recording

variable {η : Type} (M) (record : σ → ο → σ → η → η)

/-- The same operations, with a variable that is computed from the states and that no code reads. -/
def recording : Machine (σ × η) ο where
  ready s o := M.ready s.1 o
  code o := ⟨fun s =>
    match (M.code o).run s.1 with
    | .ok (_, s') => .ok ((), s', record s.1 o s' s.2)
    | .error e => .error e⟩

variable {M record}

theorem recording_steps {o : ο} {t t' : σ × η} :
    (M.recording record).Steps o t t' ↔ M.Steps o t.1 t'.1 ∧ t'.2 = record t.1 o t'.1 t.2 := by
  constructor
  · rintro ⟨hready, hrun⟩
    simp only [recording] at hrun
    split at hrun
    case h_1 s₁ hcode =>
      cases hrun
      exact ⟨⟨hready, hcode⟩, rfl⟩
    case h_2 => cases hrun
  · rintro ⟨⟨hready, hrun⟩, hhistory⟩
    refine ⟨hready, ?_⟩
    simp only [recording, hrun, ← hhistory]

end Recording

end Machine

end KernelSanders.Lib
