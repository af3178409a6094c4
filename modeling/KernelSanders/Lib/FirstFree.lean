import Mathlib

namespace KernelSanders.Lib

/-!
# First-fit allocation from a map of used indices

`firstFree used n` is the least index below `n` that is not in use, and `freeSet used n` the
set of all of them.  Taking the first free index removes exactly that index from the set
(`freeSet_take`), so an allocator that always takes it serves as many requests as there are
free indices, and it reaches an index at or above `N` only once everything below `N` is used
(`firstFree_lt`).
-/

/-- The least index below `n` that is not in use. -/
def firstFree (used : Nat → Bool) (n : Nat) : Option Nat :=
  (List.range n).find? (fun i => !used i)

/-- The indices below `n` that are not in use. -/
def freeSet (used : Nat → Bool) (n : Nat) : Finset Nat :=
  (Finset.range n).filter (fun i => used i = false)

variable {used : Nat → Bool} {n N i : Nat}

theorem mem_freeSet : i ∈ freeSet used n ↔ i < n ∧ used i = false := by
  simp [freeSet]

theorem firstFree_eq_none : firstFree used n = none ↔ ∀ i, i < n → used i = true := by
  simp [firstFree]

theorem firstFree_eq_some :
    firstFree used n = some i ↔ i < n ∧ used i = false ∧ ∀ j, j < i → used j = true := by
  rw [firstFree, List.find?_range_eq_some]
  simp only [Bool.not_eq_true', List.mem_range, Bool.not_not]
  constructor
  · rintro ⟨h1, h2, h3⟩; exact ⟨h2, h1, h3⟩
  · rintro ⟨h1, h2, h3⟩; exact ⟨h2, h1, h3⟩

theorem firstFree_eq_none_iff_card : firstFree used n = none ↔ (freeSet used n).card = 0 := by
  rw [firstFree_eq_none, Finset.card_eq_zero]
  constructor
  · intro h
    apply Finset.eq_empty_of_forall_notMem
    intro i hi
    obtain ⟨hn, hf⟩ := mem_freeSet.mp hi
    rw [h i hn] at hf; cases hf
  · intro h i hi
    by_contra hf
    have : i ∈ freeSet used n := mem_freeSet.mpr ⟨hi, by simpa using hf⟩
    rw [h] at this
    exact absurd this (Finset.notMem_empty i)

/-- As long as something below `N` is free, the first free index is below `N`. -/
theorem firstFree_lt (h : firstFree used n = some i) (hN : 0 < (freeSet used N).card) : i < N := by
  obtain ⟨-, -, hmin⟩ := firstFree_eq_some.mp h
  obtain ⟨j, hj⟩ := Finset.card_pos.mp hN
  obtain ⟨hjN, hjf⟩ := mem_freeSet.mp hj
  by_contra hi
  have := hmin j (by omega)
  rw [hjf] at this; cases this

/-- Taking an index removes it from the free ones. -/
theorem freeSet_take : freeSet (Function.update used i true) n = (freeSet used n).erase i := by
  ext j
  rw [Finset.mem_erase, mem_freeSet, mem_freeSet]
  by_cases hj : j = i
  · subst hj; simp
  · rw [Function.update_of_ne hj]
    tauto

/-- Taking a free index leaves one less. -/
theorem card_freeSet_take (h : i < n) (hf : used i = false) :
    (freeSet (Function.update used i true) n).card = (freeSet used n).card - 1 := by
  rw [freeSet_take, Finset.card_erase_of_mem (mem_freeSet.mpr ⟨h, hf⟩)]

end KernelSanders.Lib
