import Mathlib

namespace KernelSanders.Lib

/-!
# Values inherited along a relation

Every node `x` has a value of its own and inherits the values of the nodes `u` with `W u x`.  The
assignment `val` is `Settled` when each node has the greatest of these.  Two kinds of change are
characterised exactly, both starting from a settled assignment:

* `settled_change_iff` — a change at one node that passes nothing on: it is enough to look there;
* `settled_raise_iff` — a new edge into `h`, and a set of nodes around `h` whose values are all
  overwritten by that of the new predecessor.

Acyclicity is what makes the second one exact: a value that was overwritten downwards would have to
come from some node's own value further up.
-/

open Relation

variable {ι α : Type} [LinearOrder α] {W W' : ι → ι → Prop} {own own' val val' : ι → α} {t h : ι}

/-- Node `x` has the greatest of its own value and what it inherits. -/
def Tops (W : ι → ι → Prop) (own val : ι → α) (x : ι) : Prop :=
  IsGreatest (insert (own x) {v | ∃ u, W u x ∧ val u = v}) (val x)

def Settled (W : ι → ι → Prop) (own val : ι → α) : Prop := ∀ x, Tops W own val x

theorem tops_iff {x : ι} : Tops W own val x ↔
    (own x ≤ val x ∧ ∀ u, W u x → val u ≤ val x) ∧
      (val x = own x ∨ ∃ u, W u x ∧ val u = val x) := by
  constructor
  · intro ⟨hmem, hub⟩
    refine ⟨⟨hub (Set.mem_insert _ _), fun u hu => ?_⟩, hmem⟩
    exact hub (Set.mem_insert_of_mem _ ⟨u, hu, rfl⟩)
  · intro ⟨⟨hown, hle⟩, hatt⟩
    refine ⟨hatt, ?_⟩
    rintro v (rfl | ⟨u, hu, rfl⟩)
    · exact hown
    · exact hle u hu

/-- **A change at one node** from which nothing is inherited. -/
theorem settled_change_iff (x₀ : ι) (h : Settled W own val)
    (hW : ∀ u x, x ≠ x₀ → (W' u x ↔ W u x)) (hown : ∀ x, x ≠ x₀ → own' x = own x)
    (hval : ∀ x, x ≠ x₀ → val' x = val x) (hsink : ∀ y, y ≠ x₀ → ¬ W x₀ y) :
    Settled W' own' val' ↔ Tops W' own' val' x₀ := by
  constructor
  · intro h'
    exact h' x₀
  · intro h₀ x
    by_cases hx : x = x₀
    · rw [hx]
      exact h₀
    · -- whoever `x` inherits from is not the node that changed
      have hne : ∀ u, W u x → u ≠ x₀ := by
        intro u hu hu₀
        rw [hu₀] at hu
        exact hsink x hx hu
      obtain ⟨⟨hle, hub⟩, hatt⟩ := tops_iff.mp (h x)
      refine tops_iff.mpr ?_
      rw [hown x hx, hval x hx]
      refine ⟨⟨hle, fun u hu => ?_⟩, ?_⟩
      · have hu := (hW u x hx).mp hu
        rw [hval u (hne u hu)]
        exact hub u hu
      · rcases hatt with hatt | ⟨u, hu, hatt⟩
        · exact .inl hatt
        · exact .inr ⟨u, (hW u x hx).mpr hu, by rw [hval u (hne u hu), hatt]⟩

/-- A new edge to a node that has as much already. -/
theorem Settled.add_edge (hset : Settled W own val)
    (hW : ∀ u x, W' u x ↔ W u x ∨ (u = t ∧ x = h)) (hle : val t ≤ val h) : Settled W' own val := by
  intro x
  obtain ⟨⟨hown, hub⟩, hatt⟩ := tops_iff.mp (hset x)
  refine tops_iff.mpr ⟨⟨hown, fun u hu => ?_⟩, ?_⟩
  · rcases (hW u x).mp hu with hu | ⟨rfl, rfl⟩
    · exact hub u hu
    · exact hle
  · rcases hatt with hatt | ⟨u, hu, hatt⟩
    · exact .inl hatt
    · exact .inr ⟨u, (hW u x).mpr (.inl hu), hatt⟩

/-- When the nodes of `C` may all get the value `p` that has been added at `h`: none of them had a
    greater one, each is inherited from inside `C` or has the value already, and so is or has every
    node that inherits from `C`. -/
structure Raises (W : ι → ι → Prop) (val : ι → α) (C : Set ι) (h : ι) (p : α) : Prop where
  le : ∀ x ∈ C, val x ≤ p
  asked : ∀ x ∈ C, x = h ∨ val x = p ∨ ∃ u ∈ C, W u x
  onward : ∀ x ∈ C, ∀ y, W x y → y ∈ C ∨ p ≤ val y

/-- **A raise.** The node `t` is a new predecessor of `h`, and the nodes of `C` get its value. -/
theorem settled_raise_iff {C : Set ι} (hset : Settled W own val) (hwf : WellFounded W)
    (hW : ∀ u x, W' u x ↔ W u x ∨ (u = t ∧ x = h)) (hh : h ∈ C) (hin : ∀ x ∈ C, val' x = val t)
    (hout : ∀ x, x ∉ C → val' x = val x) : Settled W' own val' ↔ Raises W val C h (val t) := by
  have ht : val' t = val t := by
    by_cases htC : t ∈ C
    · exact hin t htC
    · exact hout t htC
  constructor
  · intro hset'
    -- by induction along `W`: a node above `p` owes that to its own value, or to another one
    have hle : ∀ x ∈ C, val x ≤ val t := by
      intro x
      induction x using hwf.induction with
      | _ x ih =>
        intro hx
        by_contra hlt
        obtain ⟨⟨hown', hub'⟩, -⟩ := tops_iff.mp (hset' x)
        rw [hin x hx] at hown' hub'
        rcases (tops_iff.mp (hset x)).2 with hatt | ⟨u, hu, hatt⟩
        · exact hlt (hatt ▸ hown')
        · have hu' := hub' u ((hW u x).mpr (.inl hu))
          by_cases huC : u ∈ C
          · exact hlt (hatt ▸ ih u hu huC)
          · rw [hout u huC, hatt] at hu'
            exact hlt hu'
    refine ⟨hle, fun x hx => ?_, fun x hx y hy => ?_⟩
    · by_cases hxh : x = h
      · exact .inl hxh
      by_cases hxp : val x = val t
      · exact .inr (.inl hxp)
      have hlt : val x < val t := lt_of_le_of_ne (hle x hx) hxp
      obtain ⟨⟨hown, hub⟩, -⟩ := tops_iff.mp (hset x)
      rcases (tops_iff.mp (hset' x)).2 with hatt | ⟨u, hu, hatt⟩
      · rw [hin x hx] at hatt
        exact absurd (hatt ▸ hlt) (not_lt.mpr hown)
      · rw [hin x hx] at hatt
        have hu : W u x := ((hW u x).mp hu).resolve_right (fun hn => hxh hn.2)
        refine .inr (.inr ⟨u, ?_, hu⟩)
        by_contra huC
        rw [hout u huC] at hatt
        exact absurd (hatt ▸ hub u hu) (not_le.mpr hlt)
    · by_cases hyC : y ∈ C
      · exact .inl hyC
      · have hy' := (tops_iff.mp (hset' y)).1.2 x ((hW x y).mpr (.inl hy))
        rw [hin x hx, hout y hyC] at hy'
        exact .inr hy'
  · intro hr x
    have hmono : ∀ y, val y ≤ val' y := by
      intro y
      by_cases hy : y ∈ C
      · rw [hin y hy]
        exact hr.le y hy
      · rw [hout y hy]
    obtain ⟨⟨hown, hub⟩, hatt⟩ := tops_iff.mp (hset x)
    refine tops_iff.mpr ⟨⟨hown.trans (hmono x), fun u hu => ?_⟩, ?_⟩
    · rcases (hW u x).mp hu with hu | ⟨rfl, rfl⟩
      · by_cases huC : u ∈ C
        · rw [hin u huC]
          rcases hr.onward u huC x hu with hx | hx
          · rw [hin x hx]
          · exact hx.trans (hmono x)
        · rw [hout u huC]
          exact (hub u hu).trans (hmono x)
      · rw [ht, hin x hh]
    · by_cases hx : x ∈ C
      · rw [hin x hx]
        rcases hr.asked x hx with rfl | hxp | ⟨u, huC, hu⟩
        · exact .inr ⟨t, (hW t x).mpr (.inr ⟨rfl, rfl⟩), ht⟩
        · rcases hatt with hatt | ⟨u, hu, hatt⟩
          · exact .inl (hxp ▸ hatt)
          · refine .inr ⟨u, (hW u x).mpr (.inl hu), ?_⟩
            by_cases huC : u ∈ C
            · exact hin u huC
            · rw [hout u huC, hatt, hxp]
        · exact .inr ⟨u, (hW u x).mpr (.inl hu), hin u huC⟩
      · rw [hout x hx]
        rcases hatt with hatt | ⟨u, hu, hatt⟩
        · exact .inl hatt
        · refine .inr ⟨u, (hW u x).mpr (.inl hu), ?_⟩
          by_cases huC : u ∈ C
          · -- `u` is raised, but `x` had as much already
            have hp := (hr.onward u huC x hu).resolve_left hx
            rw [hin u huC]
            exact le_antisymm hp (hatt ▸ hr.le u huC)
          · rw [hout u huC, hatt]

/-! ### Acyclic relations -/

/-- No node is upstream of itself. -/
def Acyclic (W : ι → ι → Prop) : Prop := ∀ x, ¬ TransGen W x x

theorem Acyclic.wellFounded [Finite ι] (h : Acyclic W) : WellFounded W := by
  have : Std.Irrefl (TransGen W) := ⟨h⟩
  have hwf : WellFounded (TransGen W) := Finite.wellFounded_of_trans_of_irrefl (TransGen W)
  exact Subrelation.wf (fun hw => TransGen.single hw) hwf

theorem Acyclic.mono (ha : Acyclic W) (hW : ∀ u x, W' u x → W u x) : Acyclic W' :=
  fun x hx => ha x (TransGen.mono hW _ _ hx)

/-- An edge that does not close a cycle. -/
theorem Acyclic.add (ha : Acyclic W) (hW : ∀ u x, W' u x → W u x ∨ (u = t ∧ x = h))
    (hback : ¬ ReflTransGen W h t) : Acyclic W' := by
  have hpath : ∀ a b, TransGen W' a b →
      TransGen W a b ∨ (ReflTransGen W a t ∧ ReflTransGen W h b) := by
    intro a b hab
    induction hab with
    | single hab =>
      rcases hW _ _ hab with hab | ⟨rfl, rfl⟩
      · exact .inl (.single hab)
      · exact .inr ⟨.refl, .refl⟩
    | tail _ hbc ih =>
      rcases hW _ _ hbc with hbc | ⟨rfl, rfl⟩
      · rcases ih with ih | ⟨ih₁, ih₂⟩
        · exact .inl (ih.tail hbc)
        · exact .inr ⟨ih₁, ih₂.tail hbc⟩
      · rcases ih with ih | ⟨-, ih₂⟩
        · exact .inr ⟨ih.to_reflTransGen, .refl⟩
        · exact absurd ih₂ hback
  intro x hx
  rcases hpath x x hx with hx | ⟨h₁, h₂⟩
  · exact ha x hx
  · exact hback (h₂.trans h₁)

/-- Edges into a node that has no way out. -/
theorem Acyclic.sink (ha : Acyclic W) (x₀ : ι) (hW : ∀ u x, W' u x → W u x ∨ x = x₀)
    (hsink : ∀ y, ¬ W' x₀ y) : Acyclic W' := by
  have hpath : ∀ a b, TransGen W' a b → b = x₀ ∨ TransGen W a b := by
    intro a b hab
    induction hab with
    | single hab => exact (hW _ _ hab).symm.imp id .single
    | tail _ hbc ih =>
      rcases ih with rfl | ih
      · exact absurd hbc (hsink _)
      · exact (hW _ _ hbc).symm.imp id ih.tail
  intro x hx
  rcases hpath x x hx with rfl | hx'
  · obtain ⟨y, hy, -⟩ := TransGen.head'_iff.mp hx
    exact hsink y hy
  · exact ha x hx'

end KernelSanders.Lib
