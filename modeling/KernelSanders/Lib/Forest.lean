import Mathlib

namespace KernelSanders.Lib

/-!
# Forests of pointer blocks

A store of numbered blocks, each an array of block numbers, holds a forest: a root is a block
number, and a node is reached from its root by following pointers.  The node is named by the
indices followed, innermost first, so that `i :: p` is the child number `i` of the node `p`.

* `resolve w r p` — the block that node `p` of the tree rooted at `r` occupies;
* `Separated w U` — the nodes in `U`, over all roots, occupy pairwise different blocks;
* `resolve_congr` — only the pointer slots of the nodes in use matter;
* `Separated.add` — a fresh block at a new node keeps the forest separated.
-/

/-- The indices from a node up to its root, innermost first. -/
abbrev Path := List Nat

/-- The block of node `p` in the tree rooted at block `r`, in the store `w`. -/
def resolve (w : Nat → Nat → Nat) (r : Nat) : Path → Nat
  | [] => r
  | i :: p => w (resolve w r p) i

@[simp] theorem resolve_cons (w : Nat → Nat → Nat) (r i : Nat) (p : Path) :
    resolve w r (i :: p) = w (resolve w r p) i := rfl

/-- The ancestors of a node in use are in use. -/
def Rooted (U : Nat → Path → Prop) : Prop := ∀ r i p, U r (i :: p) → U r p

/-- The nodes in use occupy pairwise different blocks. -/
def Separated (w : Nat → Nat → Nat) (U : Nat → Path → Prop) : Prop :=
  ∀ r p r' p', U r p → U r' p' → resolve w r p = resolve w r' p' → r = r' ∧ p = p'

/-- Block `s` is no node in use. -/
def Fresh (w : Nat → Nat → Nat) (U : Nat → Path → Prop) (s : Nat) : Prop :=
  ∀ r p, U r p → resolve w r p ≠ s

/-- `U` and one node more. -/
def Add (U : Nat → Path → Prop) (r : Nat) (p : Path) : Nat → Path → Prop :=
  fun r' p' => U r' p' ∨ (r' = r ∧ p' = p)

variable {w w' : Nat → Nat → Nat} {U V : Nat → Path → Prop} {r i s : Nat} {p : Path}

/-- **Locality.** A store that agrees on the pointer slots in use has every node in the same
    place. -/
theorem resolve_congr (hU : Rooted U)
    (hw : ∀ r i p, U r (i :: p) → w' (resolve w r p) i = w (resolve w r p) i) :
    ∀ r p, U r p → resolve w' r p = resolve w r p := by
  intro r p
  induction p with
  | nil => intro _; rfl
  | cons i p ih =>
    intro h
    rw [resolve_cons, resolve_cons, ih (hU r i p h), hw r i p h]

/-- Separation only depends on where the nodes are. -/
theorem Separated.congr (h : Separated w U)
    (hw : ∀ r p, U r p → resolve w' r p = resolve w r p) : Separated w' U := by
  intro r p r' p' hp hp' he
  rw [hw r p hp, hw r' p' hp'] at he
  exact h r p r' p' hp hp' he

theorem Separated.subset (h : Separated w U) (hV : ∀ r p, V r p → U r p) : Separated w V :=
  fun r p r' p' hp hp' he => h r p r' p' (hV r p hp) (hV r' p' hp') he

/-- A fresh block at a new node keeps the forest separated. -/
theorem Separated.add (h : Separated w U)
    (hw : ∀ r p, U r p → resolve w' r p = resolve w r p)
    (hs : Fresh w U (resolve w' r p)) : Separated w' (Add U r p) := by
  intro r₁ p₁ r₂ p₂ h₁ h₂ he
  rcases h₁ with h₁ | ⟨rfl, rfl⟩ <;> rcases h₂ with h₂ | ⟨rfl, rfl⟩
  · exact h.congr hw r₁ p₁ r₂ p₂ h₁ h₂ he
  · rw [hw r₁ p₁ h₁] at he
    exact absurd he (hs r₁ p₁ h₁)
  · rw [hw r₂ p₂ h₂] at he
    exact absurd he.symm (hs r₂ p₂ h₂)
  · exact ⟨rfl, rfl⟩

theorem Rooted.add (hU : Rooted U) (hp : U r p) : Rooted (Add U r (i :: p)) := by
  rintro r' j q (h | ⟨rfl, he⟩)
  · exact .inl (hU r' j q h)
  · rw [List.cons.injEq] at he
    obtain ⟨-, rfl⟩ := he
    exact .inl hp

theorem Rooted.plant (hU : Rooted U) : Rooted (Add U r []) := by
  rintro r' j q (h | ⟨rfl, he⟩)
  · exact .inl (hU r' j q h)
  · cases he

end KernelSanders.Lib
