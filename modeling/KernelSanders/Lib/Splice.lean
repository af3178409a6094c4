import Mathlib

namespace KernelSanders.Lib

open List

/-!
# Overwriting a range of a list

`splice z c off b` is `c`, padded with `z` up to `off` if it is shorter, with `b` in place of what
stands from `off` on.  Its two laws are its length and its elements.
-/

variable {α : Type}

/-- `c` padded with `z` up to `off`, and overwritten with `b` from there on. -/
def splice (z : α) (c : List α) (off : Nat) (b : List α) : List α :=
  let padded := c ++ replicate (off - c.length) z
  padded.take off ++ b ++ padded.drop (off + b.length)

variable (z : α) (c : List α) (off : Nat) (b : List α)

theorem length_splice : (splice z c off b).length = max c.length (off + b.length) := by
  simp only [splice, length_append, length_take, length_drop, length_replicate]
  omega

/-- An element outside the range is the old one, or `z` behind the end. -/
theorem getD_splice (x : Nat) :
    (splice z c off b).getD x z =
      if off ≤ x ∧ x < off + b.length then b.getD (x - off) z else c.getD x z := by
  have hpad : ∀ y, (c ++ replicate (off - c.length) z).getD y z = c.getD y z := by
    intro y
    by_cases hy : y < c.length
    · rw [getD_append _ _ _ _ hy]
    · rw [getD_append_right _ _ _ _ (by omega), getD_eq_default c _ (by omega)]
      by_cases hr : y - c.length < off - c.length
      · rw [getD_replicate _ hr]
      · rw [getD_eq_default _ _ (by rw [length_replicate]; omega)]
  have hlen : off ≤ (c ++ replicate (off - c.length) z).length := by
    rw [length_append, length_replicate]
    omega
  have htake : ((c ++ replicate (off - c.length) z).take off).length = off := by
    rw [length_take]
    omega
  unfold splice
  dsimp only
  by_cases h1 : x < off
  · -- in front of the range
    rw [if_neg (by omega), append_assoc, getD_append _ _ _ _ (by omega), ← hpad x]
    simp only [getD_eq_getElem?_getD, getElem?_take, h1, if_true]
  · by_cases h2 : x < off + b.length
    · rw [if_pos ⟨by omega, h2⟩, append_assoc, getD_append_right _ _ _ _ (by omega),
        htake, getD_append _ _ _ _ (by omega)]
    · -- behind it
      rw [if_neg (by omega), getD_append_right _ _ _ _ (by
        rw [length_append, htake]; omega), length_append, htake, ← hpad x]
      simp only [getD_eq_getElem?_getD, getElem?_drop]
      congr 2
      omega

end KernelSanders.Lib
