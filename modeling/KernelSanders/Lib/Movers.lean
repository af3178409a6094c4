import KernelSanders.Lib.Machine

namespace KernelSanders.Lib

/-!
# Operations that could have come earlier

If an operation that directly follows another one could as well have come before it, and this is so
for all operations of a kind, then those of the kind can all be moved to the beginning of a run
(`Machine.Run.early_first`).  Code that does not look at what an operation changes, and does not
change it either, commutes with the operation (`Exec.Commutes`), piece by piece.
-/

namespace Exec

variable {σ τ α β : Type} {g : σ → σ} {x : Exec σ α}

/-- It makes no difference whether the state is changed by `g` before or after `x`. -/
def Commutes (g : σ → σ) (x : Exec σ α) : Prop :=
  ∀ s a s', x.run s = .ok (a, s') → x.run (g s) = .ok (a, g s')

theorem commutes_pure (a : α) : Commutes g (pure a : Exec σ α) := by
  intro s b s' h
  cases h
  rfl

theorem commutes_stop (e : Stop) : Commutes g (stop e : Exec σ α) := by
  intro s a s' h
  cases h

theorem commutes_read {f : σ → α} (h : ∀ s, f (g s) = f s) : Commutes g (read f) := by
  intro s a s' hrun
  cases hrun
  show Except.ok (f (g s), g s) = _
  rw [h]

theorem commutes_update {f : σ → σ} (h : ∀ s, f (g s) = g (f s)) : Commutes g (update f) := by
  intro s a s' hrun
  cases hrun
  show Except.ok ((), f (g s)) = _
  rw [h]

theorem commutes_assert (c : Prop) [Decidable c] (msg : String) :
    Commutes g (assert c msg : Exec σ Unit) := by
  intro s a s' hrun
  by_cases hc : c
  · rw [assert_pos hc] at hrun ⊢
    cases hrun
    rfl
  · rw [assert_neg hc] at hrun
    cases hrun

theorem Commutes.bind {f : α → Exec σ β} (hx : Commutes g x) (hf : ∀ a, Commutes g (f a)) :
    Commutes g (x >>= f) := by
  intro s b s' h
  obtain ⟨a, s₁, hrun, hrest⟩ := bind_eq_ok.mp h
  rw [bind_ok (hx s a s₁ hrun)]
  exact hf a s₁ b s' hrest

/-- Code over a component that is left alone. -/
theorem commutes_zoom {get : τ → σ} {put : σ → τ → τ} {g : τ → τ} (hget : ∀ t, get (g t) = get t)
    (hput : ∀ s t, put s (g t) = g (put s t)) : Commutes g (zoom get put x) := by
  intro t a t' h
  cases hrun : x.run (get t) with
  | ok r =>
    obtain ⟨b, s'⟩ := r
    rw [zoom_ok hrun] at h
    cases h
    rw [zoom_ok (by rw [hget]; exact hrun), hput]
  | error e =>
    rw [zoom_error hrun] at h
    cases h

end Exec

namespace Machine

variable {σ ο : Type} {M : Machine σ ο} {P : σ → ο → Prop} {early : ο → Prop} {s s' : σ}

/-- The `early` operations could have come before the others. -/
def MovesLeft (M : Machine σ ο) (P : σ → ο → Prop) (early : ο → Prop) : Prop :=
  ∀ o e s t u, early o → ¬ early e → M.Steps e s t → P s e → M.Steps o t u → P t o →
    ∃ t', M.Steps o s t' ∧ P s o ∧ M.Steps e t' u ∧ P t' e

/-- An early operation at the end of other ones moves to their beginning. -/
theorem MovesLeft.step (h : M.MovesLeft P early) {t u : σ} {o : ο}
    (hrun : M.Run (fun s o => P s o ∧ ¬ early o) s t) (hearly : early o) (hstep : M.Steps o t u)
    (hP : P t o) : ∃ s', M.Steps o s s' ∧ P s o ∧ M.Run (fun s o => P s o ∧ ¬ early o) s' u := by
  induction hrun generalizing u with
  | refl => exact ⟨u, hstep, hP, .refl⟩
  | tail _ hlast ih =>
    obtain ⟨e, hsteps, hPe, hlate⟩ := hlast
    obtain ⟨t', hearlier, hP', hthen, hPe'⟩ := h o e _ _ _ hearly hlate hsteps hPe hstep hP
    obtain ⟨s', hfirst, hPs, hrest⟩ := ih hearlier hP'
    exact ⟨s', hfirst, hPs, hrest.tail ⟨e, hthen, hPe', hlate⟩⟩

/-- A run is as good as one that begins with its early operations. -/
theorem Run.early_first (hrun : M.Run P s s') (h : M.MovesLeft P early) :
    ∃ m, M.Run (fun s o => P s o ∧ early o) s m ∧
      M.Run (fun s o => P s o ∧ ¬ early o) m s' := by
  induction hrun with
  | refl => exact ⟨s, .refl, .refl⟩
  | tail _ hlast ih =>
    obtain ⟨o, hsteps, hP⟩ := hlast
    obtain ⟨m, hfirst, hrest⟩ := ih
    by_cases hearly : early o
    · obtain ⟨m', hstep, hPm, hrest'⟩ := h.step hrest hearly hsteps hP
      exact ⟨m', hfirst.tail ⟨o, hstep, hPm, hearly⟩, hrest'⟩
    · exact ⟨m, hfirst, hrest.tail ⟨o, hsteps, hP, hearly⟩⟩

end Machine

end KernelSanders.Lib
