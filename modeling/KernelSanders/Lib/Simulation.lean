import KernelSanders.Lib.Exec

namespace KernelSanders.Lib

open Exec

/-!
# Runs of operations and forward simulation

Code that serves a sequence of operations (`runAll`) against a deterministic specification of
the same operations (`specRun`).  A relation between the two states that every single operation
keeps, with equal results, is kept by every run, with equal sequences of results
(`runAll_returns`).
-/

variable {ι ο σ τ : Type}

/-- Run the operations in order and collect their results. -/
def runAll (step : ι → Exec σ ο) : List ι → Exec σ (List ο)
  | [] => pure []
  | a :: as => do
    let o ← step a
    let os ← runAll step as
    pure (o :: os)

/-- The same sequence on the specification. -/
def specRun (spec : ι → τ → ο × τ) : List ι → τ → List ο × τ
  | [], t => ([], t)
  | a :: as, t =>
    let r := specRun spec as (spec a t).2
    ((spec a t).1 :: r.1, r.2)

variable {step : ι → Exec σ ο} {spec : ι → τ → ο × τ} {R : σ → τ → Prop} {good : ι → Prop}

/-- **Simulation, total.** Every run returns the results of the specification. -/
theorem runAll_returns
    (hstep : ∀ a s t, good a → R s t →
      Returns (step a) s (fun o s' => o = (spec a t).1 ∧ R s' (spec a t).2)) :
    ∀ as s t, (∀ a ∈ as, good a) → R s t →
      Returns (runAll step as) s
        (fun os s' => os = (specRun spec as t).1 ∧ R s' (specRun spec as t).2) := by
  intro as
  induction as with
  | nil =>
    intro s t _ hR
    exact returns_pure.mpr ⟨rfl, hR⟩
  | cons a as ih =>
    intro s t hgood hR
    refine Returns.bind (hstep a s t (hgood a (by simp)) hR) ?_
    rintro o s' ⟨rfl, hR'⟩
    refine Returns.bind (ih s' _ (fun b hb => hgood b (by simp [hb])) hR') ?_
    rintro os s'' ⟨rfl, hR''⟩
    exact returns_pure.mpr ⟨rfl, hR''⟩

end KernelSanders.Lib
