import KernelSanders.Lib.Forest

namespace KernelSanders

open Lib List

/-!
# The shape of an inode's tree

Block `k` of a file hangs below its inode in one of three ways: in one of the 60 direct slots,
in one of the 40 index blocks, or two levels below the double indirect block.  `dataPath k` is its
path in the forest of pointer blocks, and the tree of a file of `m` blocks is made of these paths
and their suffixes (`InTree m`).

* `upto_zero`, `upto_succ`, `upto_of_mem` — growing by block `k` adds the nodes on its path that
  are not there yet, one by one from the outermost;
* `blockCost`, `treeCost` — how many sectors that takes.
-/

/-- Number of blocks an inode can address: `60 + 40 * 128 + 128 * 128`. -/
def maxBlocks : Nat := 21564

/-- First block below the double indirect block: `60 + 40 * 128`. -/
def doubleStart : Nat := 5180

/-- The path of block `k`, innermost index first. -/
def dataPath (k : Nat) : Path :=
  if k < 60 then [k]
  else if k < doubleStart then [(k - 60) % 128, 60 + (k - 60) / 128]
  else [(k - doubleStart) % 128, (k - doubleStart) / 128, 100]

/-- The nodes of the tree of a file of `m` blocks. -/
def InTree (m : Nat) (p : Path) : Prop := p = [] ∨ ∃ k, k < m ∧ p <:+ dataPath k

/-- Block `k` starts a new index block. -/
def StartsIndex (k : Nat) : Prop := 60 ≤ k ∧ (k - 60) % 128 = 0

instance (k : Nat) : Decidable (StartsIndex k) := inferInstanceAs (Decidable (_ ∧ _))

/-- The tree of the blocks before `k`, and of the path of block `k` all but its `e` innermost
    nodes.  Block `k` is added by going from `e = 3` down to `e = 0`. -/
def Upto (e k : Nat) (p : Path) : Prop := InTree k p ∨ p <:+ (dataPath k).drop e

/-- Number of sectors that block `k` takes, its new index blocks included. -/
def blockCost (k : Nat) : Nat :=
  1 + (if StartsIndex k then 1 else 0) + (if k = doubleStart then 1 else 0)

/-- Number of sectors that the blocks `m … n - 1` take. -/
def treeCost (m n : Nat) : Nat := ∑ k ∈ Finset.Ico m n, blockCost k

/-! ### Paths -/

variable {k m i j e : Nat} {p q : Path}

theorem dataPath_direct (h : k < 60) : dataPath k = [k] := if_pos h

theorem dataPath_single (h : 60 ≤ k) (h' : k < 5180) :
    dataPath k = [(k - 60) % 128, 60 + (k - 60) / 128] := by
  rw [dataPath, if_neg (by omega), if_pos (by unfold doubleStart; omega)]

theorem dataPath_double (h : 5180 ≤ k) :
    dataPath k = [(k - 5180) % 128, (k - 5180) / 128, 100] := by
  rw [dataPath, if_neg (by omega), if_neg (by unfold doubleStart; omega)]
  rfl

/-- The suffixes of the path of a block in the direct slots. -/
theorem suffix_direct (h : k < 60) : p <:+ dataPath k ↔ p = [k] ∨ p = [] := by
  rw [dataPath_direct h, suffix_cons_iff, suffix_nil]

/-- The suffixes of the path of a block below an index block. -/
theorem suffix_single (h : 60 ≤ k) (h' : k < 5180) :
    p <:+ dataPath k ↔
      p = [(k - 60) % 128, 60 + (k - 60) / 128] ∨ p = [60 + (k - 60) / 128] ∨ p = [] := by
  rw [dataPath_single h h', suffix_cons_iff, suffix_cons_iff, suffix_nil]

/-- The suffixes of the path of a block below the double indirect block. -/
theorem suffix_double (h : 5180 ≤ k) :
    p <:+ dataPath k ↔ p = [(k - 5180) % 128, (k - 5180) / 128, 100] ∨
      p = [(k - 5180) / 128, 100] ∨ p = [100] ∨ p = [] := by
  rw [dataPath_double h, suffix_cons_iff, suffix_cons_iff, suffix_cons_iff, suffix_nil]

/-- The three tiers. -/
theorem tiers (k : Nat) : k < 60 ∨ (60 ≤ k ∧ k < 5180) ∨ 5180 ≤ k := by omega

/-- A block's path is a suffix of no other block's path. -/
theorem dataPath_suffix (h : dataPath j <:+ dataPath k) : j = k := by
  rcases tiers k with hk | ⟨hk, hk'⟩ | hk <;> rcases tiers j with hj | ⟨hj, hj'⟩ | hj
  · rw [suffix_direct hk, dataPath_direct hj] at h
    simpa using h
  · rw [suffix_direct hk, dataPath_single hj hj'] at h
    simp at h
  · rw [suffix_direct hk, dataPath_double hj] at h
    simp at h
  · rw [suffix_single hk hk', dataPath_direct hj] at h
    simp only [cons.injEq, cons_ne_nil, and_true, and_false, false_or, or_false, reduceCtorEq] at h
    omega
  · rw [suffix_single hk hk', dataPath_single hj hj'] at h
    simp only [cons.injEq, cons_ne_nil, and_true, and_false, or_false] at h
    omega
  · rw [suffix_single hk hk', dataPath_double hj] at h
    simp at h
  · rw [suffix_double hk, dataPath_direct hj] at h
    simp only [cons.injEq, cons_ne_nil, and_true, and_false, false_or, or_false, reduceCtorEq] at h
    omega
  · rw [suffix_double hk, dataPath_single hj hj'] at h
    simp only [cons.injEq, cons_ne_nil, and_true, and_false, false_or, or_false, reduceCtorEq] at h
    omega
  · rw [suffix_double hk, dataPath_double hj] at h
    simp only [cons.injEq, cons_ne_nil, and_true, and_false, or_false] at h
    omega

theorem dataPath_injective : Function.Injective dataPath := fun j k h =>
  dataPath_suffix (by rw [h])

/-! ### The nodes of a tree -/

theorem inTree_nil (m : Nat) : InTree m [] := Or.inl rfl

theorem inTree_mono {m' : Nat} (hm : m ≤ m') (h : InTree m p) : InTree m' p := by
  rcases h with rfl | ⟨k, hk, hp⟩
  · exact inTree_nil m'
  · exact .inr ⟨k, by omega, hp⟩

/-- The ancestors of a node are nodes. -/
theorem InTree.parent (h : InTree m (i :: p)) : InTree m p := by
  rcases h with h | ⟨k, hk, hp⟩
  · cases h
  · exact .inr ⟨k, hk, (suffix_cons i p).trans hp⟩

theorem inTree_dataPath (h : k < m) : InTree m (dataPath k) := Or.inr ⟨k, h, suffix_rfl⟩

theorem dataPath_ne_nil : dataPath k ≠ [] := by
  rcases tiers k with hk | ⟨hk, hk'⟩ | hk
  · rw [dataPath_direct hk]; simp
  · rw [dataPath_single hk hk']; simp
  · rw [dataPath_double hk]; simp

/-- A block is in the tree exactly if it is one of the file's blocks. -/
theorem inTree_dataPath_iff : InTree m (dataPath k) ↔ k < m := by
  refine ⟨?_, inTree_dataPath⟩
  rintro (h | ⟨j, hj, hp⟩)
  · exact absurd h dataPath_ne_nil
  · rw [dataPath_suffix hp]; exact hj

/-- The nodes of a tree other than its root. -/
theorem inTree_cons : InTree m (i :: p) ↔ ∃ k, k < m ∧
    ((k < 60 ∧ i = k ∧ p = []) ∨
      (60 ≤ k ∧ k < 5180 ∧ (i = (k - 60) % 128 ∧ p = [60 + (k - 60) / 128] ∨
        i = 60 + (k - 60) / 128 ∧ p = [])) ∨
      (5180 ≤ k ∧ (i = (k - 5180) % 128 ∧ p = [(k - 5180) / 128, 100] ∨
        i = (k - 5180) / 128 ∧ p = [100] ∨ i = 100 ∧ p = []))) := by
  rw [InTree, or_iff_right (cons_ne_nil i p)]
  refine exists_congr (fun k => and_congr_right (fun _ => ?_))
  rcases tiers k with h | ⟨h, h'⟩ | h
  · rw [suffix_direct h]
    simp [h, show ¬ 60 ≤ k by omega, show ¬ 5180 ≤ k by omega]
  · rw [suffix_single h h']
    simp [h, h', show ¬ k < 60 by omega, show ¬ 5180 ≤ k by omega]
  · rw [suffix_double h]
    simp [h, show ¬ k < 60 by omega, show ¬ k < 5180 by omega]

/-- The index block number `j` of the middle tier. -/
theorem inTree_index (hj : j < 40) : InTree m [60 + j] ↔ 60 + 128 * j < m := by
  rw [inTree_cons]
  refine ⟨?_, fun h => ⟨60 + 128 * j, h, ?_⟩⟩
  · rintro ⟨k, hk, h⟩
    simp at h
    omega
  · simp
    omega

/-- The double indirect block. -/
theorem inTree_double : InTree m [100] ↔ 5180 < m := by
  rw [inTree_cons]
  refine ⟨?_, fun h => ⟨5180, h, by simp⟩⟩
  rintro ⟨k, hk, h⟩
  simp at h
  omega

/-- The index block number `j` below the double indirect block. -/
theorem inTree_second : InTree m [j, 100] ↔ 5180 + 128 * j < m := by
  rw [inTree_cons]
  refine ⟨?_, fun h => ⟨5180 + 128 * j, h, by simp⟩⟩
  rintro ⟨k, hk, h⟩
  simp at h
  omega

/-- A block has no children. -/
theorem not_inTree_child (i : Nat) : ¬ InTree m (i :: dataPath k) := by
  rintro (h | ⟨j, -, hp⟩)
  · cases h
  · have hj := dataPath_suffix ((suffix_cons i _).trans hp)
    have hlen := hp.length_le
    rw [hj, length_cons] at hlen
    omega

/-- Every index in a path of an inode's tree is below 128. -/
theorem index_lt (h : InTree maxBlocks (i :: p)) : i < 128 := by
  obtain ⟨k, hk, h⟩ := inTree_cons.mp h
  unfold maxBlocks at hk
  omega

/-- The slots of the inode itself are its words `0 … 100`. -/
theorem root_index_le (h : InTree m [i]) : i ≤ 100 := by
  obtain ⟨k, -, h⟩ := inTree_cons.mp h
  simp at h
  omega

/-! ### Growing by one block -/

theorem inTree_zero : InTree 0 p ↔ p = [] := by
  refine ⟨?_, fun h => .inl h⟩
  rintro (h | ⟨k, hk, -⟩)
  · exact h
  · omega

theorem upto_zero : Upto 0 k p ↔ InTree (k + 1) p := by
  refine ⟨?_, ?_⟩
  · rintro (h | h)
    · exact inTree_mono (Nat.le_succ k) h
    · exact .inr ⟨k, Nat.lt_succ_self k, h⟩
  · rintro (h | ⟨j, hj, hp⟩)
    · exact .inl (.inl h)
    · by_cases hjk : j = k
      · subst hjk
        exact .inr hp
      · exact .inl (.inr ⟨j, by omega, hp⟩)

/-- The next level of a path. -/
theorem drop_succ (h : (dataPath k).drop e = i :: q) : (dataPath k).drop (e + 1) = q := by
  rw [← drop_drop, h]
  rfl

/-- The step from one level of the path to the next one. -/
theorem upto_succ (h : (dataPath k).drop e = i :: q) :
    Upto e k p ↔ Upto (e + 1) k p ∨ p = i :: q := by
  rw [Upto, Upto, h, drop_succ h, suffix_cons_iff]
  tauto

/-- The part of the path that is already in the tree adds nothing. -/
theorem upto_of_mem (h : InTree k ((dataPath k).drop e)) : Upto e k p ↔ InTree k p := by
  refine ⟨?_, .inl⟩
  rintro (hp | hp)
  · exact hp
  · rcases h with h | ⟨j, hj, hd⟩
    · rw [h, suffix_nil] at hp
      exact .inl hp
    · exact .inr ⟨j, hj, hp.trans hd⟩

/-- The index block of block `k` is there unless `k` starts it. -/
theorem inTree_parent_iff (h : 60 ≤ k) : InTree k ((dataPath k).drop 1) ↔ ¬ StartsIndex k := by
  unfold StartsIndex
  rcases tiers k with h' | ⟨-, h'⟩ | h'
  · omega
  · rw [dataPath_single h h', drop_one, tail_cons, inTree_index (by omega)]
    omega
  · rw [dataPath_double h', drop_one, tail_cons, inTree_second]
    omega

end KernelSanders
