import KernelSanders.Filesys.Grow

namespace KernelSanders

open Lib Lib.Exec
open Function hiding update
open Nat

/-!
# `inode_create`: allocating a whole file

The bulk allocator counts bytes down through nested loops.  One specification, `StepSpec`, covers
what an entry of each of the three tiers does: an entry of a direct slot is one block, an index
block is a loop over entries of the tier below (`stepSpec_index`), and so on.  A loop that runs out
of bytes stops early, so an entry adds `min` of its capacity and the blocks left.

* `allocateEach_does` — a loop over the entries of a block;
* `createBlocks_does` — the three tiers, from the empty inode to the tree of the length;
* `inodeCreate_does` — `inode_create`.
-/

/-- Number of blocks for `length` bytes. -/
def blocksOf (length : Int) : Nat := (length.toNat + 511) / 512

/-- Number of new nodes on the path of block `k` from level `e` on. -/
def above (e k : Nat) : Nat :=
  (if e ≤ 1 ∧ StartsIndex k then 1 else 0) + (if e ≤ 2 ∧ k = doubleStart then 1 else 0)

section

variable {e k m n x i g G : Nat} {length : Int} {p : Path}

/-- The length is used up by entries of `g` blocks. -/
theorem min_blocksOf_done (h : length - 512 * (min g (blocksOf length) : Nat) ≤ 0) :
    min (G + g) (blocksOf length) = min g (blocksOf length) := by
  unfold blocksOf at h ⊢
  omega

/-- An entry of `g` blocks leaves some of the length. -/
theorem min_blocksOf_rest (h : ¬ length - 512 * (min g (blocksOf length) : Nat) ≤ 0) :
    min g (blocksOf length) = g ∧
      min (G + g) (blocksOf length) = g + min G (blocksOf (length - 512 * (g : Nat))) := by
  unfold blocksOf at h ⊢
  omega

theorem blockCost_eq : blockCost k = 1 + above 1 k := by
  unfold blockCost above
  simp
  omega

/-- Nothing is new above a node that is there. -/
theorem above_of_mem (he : 1 ≤ e) (h : InTree k ((dataPath k).drop e)) : above e k = 0 := by
  have hdouble : e ≤ 2 → k ≠ doubleStart := by
    rintro he2 rfl
    have hpath : dataPath doubleStart = [0, 0, 100] := rfl
    have hmem : InTree doubleStart ([100] : Path) := by
      rw [hpath] at h
      have h12 : e = 1 ∨ e = 2 := by omega
      rcases h12 with rfl | rfl
      · exact InTree.parent (i := 0) h
      · exact h
    rw [inTree_double] at hmem
    unfold doubleStart at hmem
    omega
  have hindex : e ≤ 1 → ¬ StartsIndex k := by
    intro he1 hs
    have : e = 1 := by omega
    subst this
    exact (inTree_parent_iff hs.1).mp h hs
  unfold above
  rw [if_neg (fun h => hindex h.1 h.2), if_neg (fun h => hdouble h.1 h.2)]

theorem treeCost_add (h1 : m ≤ k) (h2 : k ≤ n) : treeCost m n = treeCost m k + treeCost k n := by
  unfold treeCost
  rw [Finset.sum_Ico_consecutive _ h1 h2]

theorem treeCost_one : treeCost k (k + 1) = 1 + above 1 k := by
  rw [Fs.treeCost_succ (lt_succ_self k), Fs.treeCost_self, blockCost_eq]
  rfl

/-- Nodes that an entry at level `e` adds for `x` blocks from `k` on: what is above it is there. -/
def entryCost (e k x : Nat) : Nat := treeCost k (k + x) - above (e + 1) k

theorem above_le (h : 0 < x) : above (e + 1) k + 1 ≤ treeCost k (k + x) := by
  have h1 : (if e + 1 ≤ 1 ∧ StartsIndex k then 1 else 0) ≤ (if StartsIndex k then 1 else 0) := by
    by_cases hs : StartsIndex k <;> by_cases he : e + 1 ≤ 1 <;> simp [hs, he]
  have h2 : (if e + 1 ≤ 2 ∧ k = doubleStart then 1 else 0) ≤ (if k = doubleStart then 1 else 0) := by
    by_cases hs : k = doubleStart <;> by_cases he : e + 1 ≤ 2 <;> simp [hs, he]
  rw [Fs.treeCost_succ (show k < k + x by omega), blockCost, above]
  omega

theorem entryCost_direct : entryCost 0 k 1 = 1 := by
  unfold entryCost
  rw [treeCost_one, Nat.zero_add, Nat.add_sub_cancel]

/-- The blocks of one entry and those behind it. -/
theorem entryCost_add (hg : 0 < g) :
    entryCost e k (g + x) = entryCost e k g + treeCost (k + g) (k + g + x) := by
  have h1 := treeCost_add (m := k) (k := k + g) (n := k + g + x) (by omega) (by omega)
  have h2 := above_le (e := e) (k := k) hg
  unfold entryCost
  rw [← add_assoc, h1]
  omega

/-! ### Entries -/

/-- Entry `i` of node `p`, at level `e`, is unused, and block `k` is the first one below it. -/
structure Entry (e k i : Nat) (p : Path) : Prop where
  lt : k < maxBlocks
  path : (dataPath k).drop e = i :: p
  new : ¬ InTree k (i :: p)

/-- `n` entries from number `i` on, with `g` blocks below each. -/
def Entries (e g k i n : Nat) (p : Path) : Prop := ∀ x, x < n → Entry e (k + g * x) (i + x) p

theorem entry_direct {j : Nat} (hj : j < 60) : Entry 0 j j [] where
  lt := by unfold maxBlocks; omega
  path := dataPath_direct hj
  new := by
    rw [← dataPath_direct hj, inTree_dataPath_iff]
    omega

theorem entry_single {j : Nat} (hj : j < 40) : Entry 1 (60 + 128 * j) (60 + j) [] where
  lt := by unfold maxBlocks; omega
  path := by
    have h2 : (60 + 128 * j - 60) / 128 = j := by omega
    rw [dataPath_single (by omega) (by omega), h2]
    rfl
  new := by rw [inTree_index hj]; omega

theorem entry_double : Entry 2 5180 100 [] where
  lt := by unfold maxBlocks; omega
  path := rfl
  new := by rw [inTree_double]; omega

/-- A missing index block is missing because its first block is next. -/
theorem Entry.startsIndex (h : Entry 1 k i p) : StartsIndex k := by
  by_contra hs
  by_cases h60 : 60 ≤ k
  · exact h.new (h.path ▸ (inTree_parent_iff h60).mpr hs)
  · have hpath := h.path
    rw [dataPath_direct (by omega)] at hpath
    cases hpath

/-- The double indirect block is missing only for the first block below it. -/
theorem Entry.start (h : Entry 2 k i p) : k = 5180 ∧ i = 100 ∧ p = [] := by
  obtain ⟨-, hpath, hnew⟩ := h
  rcases tiers k with h | ⟨h, h'⟩ | h
  · rw [dataPath_direct h] at hpath
    cases hpath
  · rw [dataPath_single h h'] at hpath
    cases hpath
  · rw [dataPath_double h] at hpath
    cases hpath
    rw [inTree_double] at hnew
    exact ⟨by omega, rfl, rfl⟩

/-- The entries of an index block. -/
theorem Entry.blocks (h : Entry 1 k i p) : Entries 0 1 k 0 128 (i :: p) := by
  intro j hj
  obtain ⟨h60, hmod⟩ := h.startsIndex
  have hk := h.lt
  unfold maxBlocks at hk
  have hpath : dataPath (k + j) = j :: i :: p := by
    rw [← h.path]
    rcases tiers k with h | ⟨-, h⟩ | h
    · omega
    · have h1 : (k + j - 60) % 128 = j := by omega
      have h2 : (k + j - 60) / 128 = (k - 60) / 128 := by omega
      rw [dataPath_single h60 h, dataPath_single (by omega) (by omega), h1, h2]
      rfl
    · have h1 : (k + j - 5180) % 128 = j := by omega
      have h2 : (k + j - 5180) / 128 = (k - 5180) / 128 := by omega
      rw [dataPath_double h, dataPath_double (by omega), h1, h2]
      rfl
  rw [one_mul, zero_add]
  refine ⟨by unfold maxBlocks; omega, hpath, ?_⟩
  rw [← hpath, inTree_dataPath_iff]
  omega

/-- The entries of the double indirect block. -/
theorem Entry.indices (h : Entry 2 k i p) : Entries 1 128 k 0 128 (i :: p) := by
  intro j hj
  obtain ⟨rfl, rfl, rfl⟩ := h.start
  have h2 : (5180 + 128 * j - 5180) / 128 = j := by omega
  rw [zero_add]
  refine ⟨by unfold maxBlocks; omega, ?_, ?_⟩
  · rw [dataPath_double (by omega), h2]
    rfl
  · rw [inTree_second]
    omega

/-- A missing node is one more to add. -/
theorem Entry.above_eq (h : Entry (e + 1) k i p) : above (e + 1) k = above (e + 2) k + 1 := by
  obtain rfl | rfl | he : e = 0 ∨ e = 1 ∨ 2 ≤ e := by omega
  · have hs := h.startsIndex
    simp [above, hs]
    omega
  · obtain ⟨rfl, -, -⟩ := h.start
    simp [above, doubleStart]
  · -- no path is that long
    have hlen : (dataPath k).length ≤ 3 := by
      unfold dataPath
      split_ifs <;> simp
    have hpath := h.path
    rw [List.drop_eq_nil_of_le (by omega)] at hpath
    cases hpath

theorem Entry.cost_eq (h : Entry (e + 1) k i p) (hx : 0 < x) :
    entryCost (e + 1) k x = 1 + entryCost e k x := by
  have h1 := h.above_eq
  have h2 := above_le (e := e) (k := k) hx
  rw [entryCost, entryCost, show e + 1 + 1 = e + 2 from rfl]
  omega

/-- The node above the next entry is there. -/
theorem Entries.inTree (h : Entries e g k i n p) (hn : 0 < n) (hg : 0 < g) : InTree (k + g) p := by
  have hpath := drop_succ (h 0 hn).path
  rw [mul_zero, add_zero] at hpath
  refine .inr ⟨k, by omega, ?_⟩
  rw [← hpath]
  exact List.drop_suffix _ _

theorem Entries.tail (h : Entries e g k i (n + 1) p) : Entries e g (k + g) (i + 1) n p := by
  intro x hx
  have hk : k + g + g * x = k + g * (x + 1) := by rw [mul_add]; omega
  have hi : i + 1 + x = i + (x + 1) := by omega
  rw [hk, hi]
  exact h (x + 1) (by omega)

theorem Entries.head (h : Entries e g k i (n + 1) p) : Entry e k i p := by
  have h0 := h 0 (by omega)
  rwa [mul_zero] at h0

end

/-! ### One entry -/

namespace Fs

open BlockStore

/-- What an allocator returns: the length left, or `false`. -/
def left (b : Bool) (length : Int) : Option Int := if b then some length else none

/-- The allocator `step` of an entry at level `e`, with up to `g` blocks below it. -/
def StepSpec (fs : Fs SectorStore) (r e g : Nat)
    (step : Ptr Nat → Int → Exec (Fs SectorStore) (Option Int)) : Prop :=
  ∀ (U : Nat → Path → Prop) (im : Image) (k i t : Nat) (p : Path) (H : List Nat) (length : Int),
    Entry e k i p → Sound fs (With U r (Upto (e + 1) k)) im.disk → t = im.disk.node r p →
    0 < length →
    Does (step ⟨t, i⟩ length) fs im
      (GrowOk fs (With U r (Upto (e + 1) k)) r p H (entryCost e k (min g (blocksOf length))) im)
      (fun o im' => ∃ b, o = left b (length - 512 * (min g (blocksOf length) : Nat)) ∧
        Attempt fs r (With U r (Upto (e + 1) k)) (With U r (InTree (k + min g (blocksOf length))))
          (entryCost e k (min g (blocksOf length))) im b im')

variable {fs : Fs SectorStore} {U : Nat → Path → Prop} {r e g k i t : Nat} {p : Path}
  {H : List Nat} {im : Image} {length : Int}
  {step : Ptr Nat → Int → Exec (Fs SectorStore) (Option Int)}

/-- Attaching the node of an entry. -/
theorem allocateEntry_does (depth : Nat) (he : Entry e k i p)
    (hs : Sound fs (With U r (Upto (e + 1) k)) im.disk) (hr : fs.mapRoot ≠ some r)
    (ht : t = im.disk.node r p) :
    Does (allocateCleared (freeMapAllocate (depth + 1)) ⟨t, i⟩) fs im
      (MapReady fs (With U r (Upto (e + 1) k)) im ∧ im.disk.Roomy fs.store.size 1)
      (fun b im' => Attempt fs r (With U r (Upto (e + 1) k)) (With U r (Upto e k)) 1 im b im' ∧
        im'.lock = im.lock) := by
  have hdrop : (dataPath k).drop (e + 1) = p := drop_succ he.path
  have hp : With U r (Upto (e + 1) k) r p := with_at.mpr (.inr (by rw [hdrop]))
  have hq : InTree maxBlocks (i :: p) :=
    .inr ⟨k, he.lt, by rw [← he.path]; exact List.drop_suffix _ _⟩
  have hunused : ¬ With U r (Upto (e + 1) k) r (i :: p) := by
    rw [with_at]
    rintro (h | h)
    · exact he.new h
    · have := h.length_le
      rw [hdrop, List.length_cons] at this
      omega
  rw [← add_with (fun q => upto_succ he.path)]
  exact allocateCleared_does depth hs hr hp hunused hq ht

/-- `allocate_direct`. -/
theorem stepSpec_direct (depth : Nat) (hr : fs.mapRoot ≠ some r) :
    StepSpec fs r 0 1 (allocateDirect (freeMapAllocate (depth + 1))) := by
  intro U im k i t p H length he hs ht hlen
  have hx : min 1 (blocksOf length) = 1 := by
    unfold blocksOf
    omega
  rw [hx, entryCost_direct, ← with_upto_zero]
  unfold allocateDirect
  refine does_assert (fun _ => hlen) (fun _ => does_load (does_assert (fun h => ?_) (fun _ => ?_)))
  · -- the slot of an unused node holds `0`
    have hdrop : (dataPath k).drop 1 = p := drop_succ he.path
    rw [ht]
    refine h.blank i p ?_ (with_at.mpr (.inr (by rw [hdrop]))) (fun hu => ?_)
    · rw [← he.path]
      exact inTree_dataPath he.lt
    · rcases with_at.mp hu with hu | hu
      · exact he.new hu
      · have := hu.length_le
        rw [hdrop, List.length_cons] at this
        omega
  · refine (allocateEntry_does depth he hs hr ht).bind ?_ (fun h => ⟨h.mapReady hs hr, h.roomy⟩)
    rintro b im' ⟨hatt, -⟩
    cases b with
    | false => exact does_pure ⟨false, rfl, hatt⟩
    | true => exact does_pure ⟨true, rfl, hatt⟩

/-! ### The entries of a block -/

theorem allocateEach_cons (cacheBlock : Nat) (is : List Nat) :
    allocateEach step cacheBlock (i :: is) length = (do
      let o ← step ⟨cacheBlock, i⟩ length
      match o with
      | none => pure none
      | some length =>
        if length ≤ 0 then pure (some length) else allocateEach step cacheBlock is length) := rfl

/-- **A loop over entries.** -/
theorem allocateEach_does (hr : fs.mapRoot ≠ some r) (hg : 0 < g) (hstep : StepSpec fs r e g step)
    (n : Nat) : ∀ (im : Image) (k i : Nat) (length : Int), Entries e g k i (n + 1) p →
      Sound fs (With U r (Upto (e + 1) k)) im.disk → t = im.disk.node r p → 0 < length →
      Does (allocateEach step t (List.range' i (n + 1)) length) fs im
        (GrowOk fs (With U r (Upto (e + 1) k)) r p H
          (entryCost e k (min (g * (n + 1)) (blocksOf length))) im)
        (fun o im' => ∃ b, o = left b (length - 512 * (min (g * (n + 1)) (blocksOf length) : Nat)) ∧
          Attempt fs r (With U r (Upto (e + 1) k))
            (With U r (InTree (k + min (g * (n + 1)) (blocksOf length))))
            (entryCost e k (min (g * (n + 1)) (blocksOf length))) im b im') := by
  induction n with
  | zero =>
    intro im k i length hent hs ht hlen
    rw [Nat.mul_one]
    show Does (allocateEach step t [i] length) fs im _ _
    rw [allocateEach_cons]
    refine (hstep U im k i t p H length hent.head hs ht hlen).bind ?_ id
    rintro o im' ⟨b, rfl, hatt⟩
    cases b with
    | false => exact does_pure ⟨false, rfl, hatt⟩
    | true =>
      simp only [left, if_true]
      split_ifs
      · exact does_pure ⟨true, rfl, hatt⟩
      · exact does_pure ⟨true, rfl, hatt⟩
  | succ n ih =>
    intro im k i length hent hs ht hlen
    have hfirst := hstep U im k i t p H length hent.head hs ht hlen
    have hp : With U r (Upto (e + 1) k) r p :=
      with_at.mpr (.inr (by rw [drop_succ hent.head.path]))
    rw [List.range'_succ, allocateEach_cons, Nat.mul_add_one g (n + 1)]
    by_cases hdone : length - 512 * (min g (blocksOf length) : Nat) ≤ 0
    · -- the first entry uses up the length
      rw [min_blocksOf_done hdone]
      refine hfirst.bind ?_ id
      rintro o im' ⟨b, rfl, hatt⟩
      cases b with
      | false => exact does_pure ⟨false, rfl, hatt⟩
      | true =>
        simp only [left, if_true, if_pos hdone]
        exact does_pure ⟨true, rfl, hatt⟩
    · obtain ⟨hx, hrest⟩ := min_blocksOf_rest (G := g * (n + 1)) hdone
      rw [hx] at hfirst hdone
      rw [hrest, entryCost_add hg]
      refine hfirst.bind ?_ GrowOk.weaken
      rintro o im' ⟨b, rfl, hatt⟩
      cases b with
      | false => exact does_pure ⟨false, rfl, hatt.fail⟩
      | true =>
        simp only [left, if_true, if_neg hdone]
        -- the other entries start from a tree that has their parent
        have hmem : InTree (k + g) ((dataPath (k + g)).drop (e + 1)) := by
          rw [drop_succ hent.tail.head.path]
          exact hent.inTree (by omega) hg
        have hwith : With U r (InTree (k + g)) = With U r (Upto (e + 1) (k + g)) :=
          with_congr (fun q => (upto_of_mem hmem).symm)
        have hcost : ∀ x, entryCost e (k + g) x = treeCost (k + g) (k + g + x) := by
          intro x
          rw [entryCost, above_of_mem (by omega) hmem, Nat.sub_zero]
        rw [hwith] at hatt
        have hs' := hatt.sound hs hr
        have ht' : t = im'.disk.node r p := by rw [hatt.node_eq hs hr hp, ht]
        have hnext := ih im' (k + g) (i + 1) _ hent.tail hs' ht' (Int.not_le.mp hdone)
        rw [hcost] at hnext
        refine hnext.mono ?_ (fun h => h.after hs hr hatt)
        rintro o im₂ ⟨b, rfl, hatt₂⟩
        refine ⟨b, ?_, ?_⟩
        · congr 1
          push_cast
          omega
        · rw [← add_assoc]
          exact hatt.trans hs hr hatt₂

/-- **An index block** is an entry of the tier above: attach it and loop over its entries. -/
theorem stepSpec_index (depth : Nat) (hr : fs.mapRoot ≠ some r) (hg : 0 < g)
    (hstep : StepSpec fs r e g step)
    (hchild : ∀ k i p, Entry (e + 1) k i p → Entries e g k 0 128 (i :: p)) :
    StepSpec fs r (e + 1) (g * 128) (allocateIndex (freeMapAllocate (depth + 1)) step) := by
  intro U im k i t p H length he hs ht hlen
  have hpos : 0 < min (g * 128) (blocksOf length) := by
    unfold blocksOf
    omega
  rw [he.cost_eq hpos]
  unfold allocateIndex
  refine does_assert (fun _ => hlen) (fun _ => ?_)
  refine (allocateEntry_does depth he hs hr ht).bind ?_
    (fun h => ⟨h.mapReady hs hr, h.weaken.roomy⟩)
  rintro b im₁ ⟨hatt, -⟩
  cases b with
  | false => exact does_pure ⟨false, rfl, hatt.fail⟩
  | true =>
    rw [if_pos rfl]
    have hp : With U r (Upto (e + 2) k) r p := with_at.mpr (.inr (by rw [drop_succ he.path]))
    have hu : With U r (Upto (e + 1) k) r (i :: p) := with_at.mpr (.inr (by rw [he.path]))
    have hs₁ := hatt.sound hs hr
    have hnode : im₁.disk.word t i = im₁.disk.node r (i :: p) := by
      rw [Disk.node_cons, hatt.node_eq hs hr hp, ht]
    refine does_load ?_
    rw [hnode]
    obtain ⟨s, hsdef⟩ : ∃ s, s = im₁.disk.node r (i :: p) := ⟨_, rfl⟩
    rw [← hsdef]
    refine does_writeBlock (fun h => ?_) (fun l l' _ hl hl' => ?_)
    · rw [hsdef]
      exact ⟨hs₁.inside _ _ hu, (h.after hs hr hatt).below hs₁ hu⟩
    have hloop := allocateEach_does (H := s :: H) hr hg hstep 127 (im₁.enter s l) k 0 length
      (hchild k i p he) hs₁ hsdef hlen
    rw [entriesPerSector, List.range_eq_range']
    refine Does.bind hloop ?_ (fun h => (h.after hs hr hatt).enter hu hsdef)
    rintro o im₂ ⟨b, rfl, hatt₂⟩
    have hown : Owns (With U r (Upto (e + 1) k)) im₁.disk r s := ⟨_, hu, hsdef⟩
    cases b with
    | false =>
      have hne : s ≠ r := hsdef ▸ hs₁.node_ne_root hu
      exact does_pure ⟨false, rfl, hatt.trans hs hr (hatt₂.section_fail hs₁ hr hown hne)⟩
    | true =>
      have hend := hatt₂.section_end hs₁ hr hown hl hl' (.inl rfl)
      exact does_writeEnd (does_pure ⟨true, rfl, hatt.trans hs hr hend⟩)

/-- `allocate_indirect`. -/
theorem stepSpec_indirect (depth : Nat) (hr : fs.mapRoot ≠ some r) :
    StepSpec fs r 1 128 (allocateIndirect (freeMapAllocate (depth + 1))) := by
  have h := stepSpec_index depth hr one_pos (stepSpec_direct depth hr)
    (fun _ _ _ h => h.blocks)
  rwa [one_mul] at h

/-- `allocate_double_indirect`. -/
theorem stepSpec_doubleIndirect (depth : Nat) (hr : fs.mapRoot ≠ some r) :
    StepSpec fs r 2 (128 * 128) (allocateDoubleIndirect (freeMapAllocate (depth + 1))) :=
  stepSpec_index depth hr (by omega) (stepSpec_indirect depth hr) (fun _ _ _ h => h.indices)

/-! ### The tiers of `inode_create` -/

/-- The loops of `inode_create` only differ from the others in where they look at the length. -/
theorem createEach_eq (cacheBlock : Nat) (is : List Nat) :
    ∀ length, createEach step cacheBlock is length =
      if length ≤ 0 then pure (some length) else allocateEach step cacheBlock is length := by
  induction is with
  | nil =>
    intro length
    rw [createEach, allocateEach, ite_self]
  | cons i is ih =>
    intro length
    rw [createEach, allocateEach]
    simp only [ih]

theorem createDouble_eq (depth cacheBlock : Nat) :
    (createDouble (freeMapAllocate (depth + 1)) cacheBlock length : Exec (Fs SectorStore) _) =
      createEach (allocateDoubleIndirect (freeMapAllocate (depth + 1))) cacheBlock
        (List.range' doubleIndirect 1) length := by
  show _ = createEach _ cacheBlock [doubleIndirect] length
  rw [createEach_eq, createDouble]
  by_cases h : length ≤ 0
  · rw [if_pos h, if_neg (by omega)]
  · rw [if_neg h, if_pos (by omega), allocateEach]
    conv_lhs => rw [← bind_pure (allocateDoubleIndirect _ _ _)]
    congr 1
    funext o
    cases o with
    | none => rfl
    | some length => exact (ite_self _).symm

/-- **A tier of the inode**, which nothing is above. -/
theorem createEach_does (hr : fs.mapRoot ≠ some r) (hg : 0 < g) (hstep : StepSpec fs r e g step)
    (n : Nat) (length : Int) (hent : 0 < length → Entries e g k i (n + 1) [])
    (hs : Sound fs (With U r (InTree k)) im.disk) :
    Does (createEach step r (List.range' i (n + 1)) length) fs im
      (GrowOk fs (With U r (InTree k)) r [] H
        (treeCost k (k + min (g * (n + 1)) (blocksOf length))) im)
      (fun o im' => ∃ b, o = left b (length - 512 * (min (g * (n + 1)) (blocksOf length) : Nat)) ∧
        Attempt fs r (With U r (InTree k))
          (With U r (InTree (k + min (g * (n + 1)) (blocksOf length))))
          (treeCost k (k + min (g * (n + 1)) (blocksOf length))) im b im') := by
  rw [createEach_eq]
  by_cases hlen : length ≤ 0
  · have hzero : min (g * (n + 1)) (blocksOf length) = 0 := by
      unfold blocksOf
      omega
    rw [if_pos hlen, hzero, add_zero, treeCost_self]
    refine does_pure ⟨true, ?_, attempt_refl⟩
    rw [cast_zero, mul_zero, sub_zero]
    rfl
  · rw [if_neg hlen]
    have hpos := Int.not_le.mp hlen
    have hnil : (dataPath k).drop (e + 1) = [] := drop_succ (hent hpos).head.path
    have hcost : ∀ x, entryCost e k x = treeCost k (k + x) := by
      intro x
      rw [entryCost, above_of_mem (by omega) (by rw [hnil]; exact inTree_nil k), Nat.sub_zero]
    have hloop := allocateEach_does (H := H) hr hg hstep n im k i length (hent hpos)
      (by rw [with_upto hnil]; exact hs) rfl hpos
    rw [with_upto hnil, hcost] at hloop
    exact hloop

/-- The blocks of each tier of a file of `L` bytes, and the bytes left after the first two. -/
theorem blocks_of_tiers (L : Nat) : ∃ (x₁ : Nat) (ℓ₁ : Int) (x₂ : Nat) (ℓ₂ : Int) (x₃ : Nat),
    x₁ = min (1 * (59 + 1)) (blocksOf L) ∧ ℓ₁ = (L : Int) - 512 * x₁ ∧
    x₂ = min (128 * (39 + 1)) (blocksOf ℓ₁) ∧ ℓ₂ = ℓ₁ - 512 * x₂ ∧
    x₃ = min (128 * 128 * (0 + 1)) (blocksOf ℓ₂) ∧ treeBlocks L = x₁ + x₂ + x₃ ∧
    (0 < ℓ₁ → x₁ = 60) ∧ (0 < ℓ₂ → x₁ + x₂ = 5180) := by
  refine ⟨_, _, _, _, _, rfl, rfl, rfl, rfl, rfl, ?_⟩
  unfold blocksOf treeBlocks maxBlocks
  omega

/-- **The three tiers**, from the empty inode to the tree of `L` bytes. -/
theorem createBlocks_does (depth L : Nat) (hr : fs.mapRoot ≠ some r)
    (hs : Sound fs (With U r (InTree 0)) im.disk) :
    Does (createBlocks (freeMapAllocate (depth + 1)) r L) fs im
      (GrowOk fs (With U r (InTree 0)) r [] H (treeCost 0 (treeBlocks L)) im)
      (fun o im' => Attempt fs r (With U r (InTree 0)) (With U r (InTree (treeBlocks L)))
        (treeCost 0 (treeBlocks L)) im o.isSome im') := by
  obtain ⟨x₁, ℓ₁, x₂, ℓ₂, x₃, hx₁, hℓ₁, hx₂, hℓ₂, hx₃, htotal, hstart₁, hstart₂⟩ :=
    blocks_of_tiers L
  have hcost : treeCost 0 (treeBlocks L)
      = treeCost 0 x₁ + (treeCost x₁ (x₁ + x₂) + treeCost (x₁ + x₂) (x₁ + x₂ + x₃)) := by
    rw [htotal, treeCost_add (zero_le x₁) (by omega),
      treeCost_add (m := x₁) (k := x₁ + x₂) (by omega) (by omega)]
  rw [hcost, htotal]
  unfold createBlocks
  have hdirect := createEach_does (H := H) (k := 0) (i := 0) hr one_pos
    (stepSpec_direct depth hr) 59 (L : Int)
    (fun _ j hj => by rw [one_mul, zero_add]; exact entry_direct hj) hs
  rw [← hx₁, zero_add, ← hℓ₁] at hdirect
  refine Does.bind hdirect ?_ GrowOk.weaken
  rintro o im₁ ⟨b, rfl, hatt₁⟩
  cases b with
  | false => exact does_pure hatt₁.fail
  | true =>
    have hs₁ := hatt₁.sound hs hr
    have hsingle := createEach_does (H := H) (k := x₁) (i := 60) hr (by omega)
      (stepSpec_indirect depth hr) 39 ℓ₁
      (fun h j hj => by rw [hstart₁ h]; exact entry_single hj) hs₁
    rw [← hx₂, ← hℓ₂] at hsingle
    refine Does.bind hsingle ?_ (fun h => (h.after hs hr hatt₁).weaken)
    rintro o im₂ ⟨b, rfl, hatt₂⟩
    cases b with
    | false => exact does_pure (hatt₁.trans hs hr hatt₂.fail)
    | true =>
      have hs₂ := hatt₂.sound hs₁ hr
      have hdouble := createEach_does (H := H) (k := x₁ + x₂) (i := 100) hr
        (by omega) (stepSpec_doubleIndirect depth hr) 0 ℓ₂
        (fun h j hj => by
          obtain rfl : j = 0 := by omega
          rw [hstart₂ h]
          exact entry_double) hs₂
      rw [← hx₃] at hdouble
      show Does (createDouble (freeMapAllocate (depth + 1)) r ℓ₂) fs im₂ _ _
      rw [createDouble_eq]
      refine hdouble.mono ?_ (fun h => (h.after hs hr hatt₁).after hs₁ hr hatt₂)
      rintro o im₃ ⟨b, rfl, hatt₃⟩
      have hsome : (left b (ℓ₂ - 512 * (x₃ : Nat))).isSome = b := by cases b <;> rfl
      rw [hsome]
      exact hatt₁.trans hs hr (hatt₂.trans hs₁ hr hatt₃)

end Fs

/-! ### Planting the inode -/

/-- The sector of a new inode of `L` bytes, before anything is allocated. -/
def newInodeSector (L : Nat) : Sector :=
  (Bytes.zero.setWord Fs.lengthWord L).setWord Fs.magicWord Fs.inodeMagic

/-- The disk with a new inode of `L` bytes at sector `r`. -/
def Disk.plant (d : Disk) (r L : Nat) : Disk :=
  { d with data := Function.update d.data r (newInodeSector L) }

theorem Disk.plant_root (d : Disk) (r L : Nat) : (d.plant r L).data r = newInodeSector L :=
  update_self _ _ _

theorem word_newInodeSector {L i : Nat} (h : i ≠ Fs.lengthWord) (h' : i ≠ Fs.magicWord) :
    (newInodeSector L).word i = 0 := by
  rw [newInodeSector, Bytes.word_setWord_ne _ _ h', Bytes.word_setWord_ne _ _ h, Bytes.word_zero]

theorem length_newInodeSector {L : Nat} (h : L < 2 ^ 32) :
    (newInodeSector L).word Fs.lengthWord = L := by
  rw [newInodeSector, Bytes.word_setWord_ne _ _ (by decide),
    Bytes.word_setWord_same _ _ _ (by decide), mod_eq_of_lt h]

theorem magic_newInodeSector (L : Nat) : (newInodeSector L).word Fs.magicWord = Fs.inodeMagic := by
  rw [newInodeSector, Bytes.word_setWord_same _ _ _ (by decide)]
  rfl

section

variable {fs : Fs SectorStore} {U : Nat → Path → Prop} {d : Disk} {r L : Nat}

/-- Sector `r` is marked used and in no tree: what `inode_create` is called with. -/
structure Plantable (fs : Fs SectorStore) (U : Nat → Path → Prop) (d : Disk) (r : Nat) : Prop where
  fresh : ∀ r' p, U r' p → d.node r' p ≠ r
  pos : 0 < r
  used : d.map.isSet r = true
  inside : r < fs.store.size
  bit : r < d.map.bitCnt

section

variable (h : Plantable fs U d r)
include h

theorem Plantable.unused (hs : Sound fs U d) (p : Path) : ¬ U r p :=
  fun hp => h.fresh r [] (hs.root_of_mem hp) rfl

theorem Plantable.mapRoot_ne (hs : Sound fs U d) : fs.mapRoot ≠ some r := by
  intro hr
  obtain ⟨_, _, -, -, -, hf, -⟩ := hs.mapFile_of_root hr
  exact h.unused hs [] hf.root

theorem Plantable.with_eq (hs : Sound fs U d) : With U r (InTree 0) = Lib.Add U r [] := by
  funext r' p
  apply propext
  unfold With Lib.Add
  rw [inTree_zero]
  have := h.unused hs p
  constructor
  · rintro (⟨-, hu⟩ | hn)
    · exact .inl hu
    · exact .inr hn
  · rintro (hu | hn)
    · exact .inl ⟨fun he => this (he ▸ hu), hu⟩
    · exact .inr hn

theorem Plantable.data_eq {r' : Nat} {p : Path} (hu : U r' p) :
    (d.plant r L).data (d.node r' p) = d.data (d.node r' p) :=
  update_of_ne (h.fresh r' p hu) _ _

theorem Plantable.sameLinks (hs : Sound fs U d) : SameLinks U d (d.plant r L) := by
  intro r' i p hu
  rw [Disk.word, h.data_eq (hs.rooted r' i p hu), Disk.word]

theorem Plantable.node_eq (hs : Sound fs U d) {r' : Nat} {p : Path}
    (hu : U r' p) : (d.plant r L).node r' p = d.node r' p :=
  (h.sameLinks hs).node_eq hs.rooted hu

/-- **A new inode keeps the invariant.** -/
theorem Plantable.sound (hs : Sound fs U d) : Sound fs (With U r (InTree 0)) (d.plant r L) := by
  rw [h.with_eq hs]
  refine hs.add hs.rooted.plant (inTree_nil _) (h.sameLinks hs) rfl h.fresh ?_ rfl h.inside h.bit
    h.pos (fun hne => absurd rfl hne) (hs.mapFile.congr rfl (fun r' _ hnil => ?_))
  · rintro t (ht | rfl)
    · exact ht
    · exact h.used
  · have hroot : r' ≠ r := fun he => h.unused hs [] (he ▸ hnil)
    exact ⟨fun p => ⟨fun hu => hu.resolve_right (fun he => hroot he.1), .inl⟩,
      update_of_ne hroot _ _⟩

end

/-- All pointers of a new inode are `0`. -/
theorem Plantable.blank : Blank (With U r (InTree 0)) r (d.plant r L) := by
  intro i p hi hp hn
  obtain rfl : p = [] := inTree_zero.mp (with_at.mp hp)
  have hle := root_index_le hi
  show ((d.plant r L).data r).word i = 0
  rw [Disk.plant_root]
  exact word_newInodeSector (by unfold Fs.lengthWord; omega) (by unfold Fs.magicWord; omega)

end

/-- The image with a new inode of `L` bytes at sector `r`. -/
def Image.plant (im : Image) (r L : Nat) : Image :=
  { im with disk := im.disk.plant r L, touched := r :: im.touched }

/-- The image after `inode_create`.  A failed creation keeps the write lock of the inode. -/
def Creates (fs : Fs SectorStore) (U : Nat → Path → Prop) (r L : Nat) (im : Image) (b : Bool)
    (im' : Image) : Prop :=
  ∃ im₀, Attempt fs r (With U r (InTree 0)) (With U r (InTree (treeBlocks L)))
      (treeCost 0 (treeBlocks L)) im₀ b im' ∧
    (b = true → im₀ = im.plant r L) ∧
    (b = false → ∃ l, l.writeEnd = im.lock r ∧ im₀ = (im.plant r L).enter r l)

namespace Fs

open BlockStore

variable {fs : Fs SectorStore} {U : Nat → Path → Prop} {r : Nat} {im : Image}

/-- The image inside the write section of a new inode. -/
theorem put_newInode (L : Nat) (hL : L < 2 ^ 31) (l : RwLock) :
    (((im.put r Bytes.zero).touch r).enter r l).put r
        (((((im.put r Bytes.zero).touch r).enter r l).disk.data r).setWord lengthWord
          (toUnsigned (L : Int)) |>.setWord magicWord inodeMagic)
      = (im.plant r L).enter r l := by
  have hself : (((im.put r Bytes.zero).touch r).enter r l).disk.data r = Bytes.zero :=
    update_self _ _ _
  have hlen : toUnsigned (L : Int) = L := toUnsigned_natCast (by omega)
  rw [hself, hlen]
  show Image.mk ⟨Function.update (Function.update im.disk.data r Bytes.zero) r _, _⟩ _ _ = _
  rw [update_idem]
  rfl

/-- **`inode_create`.** -/
theorem inodeCreate_does (depth L : Nat) (hL : L < 2 ^ 31) (hs : Sound fs U im.disk)
    (hp : Plantable fs U im.disk r) :
    Does (inodeCreate (freeMapAllocate (depth + 1)) r L) fs im
      ((∀ t, im.lock t = RwLock.free) ∧ MapUnlocked fs ∧
        im.disk.Roomy fs.store.size (treeCost 0 (treeBlocks L)))
      (Creates fs U r L im) := by
  have hr := hp.mapRoot_ne hs
  have hs₀ : Sound fs (With U r (InTree 0)) (im.plant r L).disk := hp.sound hs
  have hroot : With U r (InTree 0) r [] := with_at.mpr (inTree_nil 0)
  unfold inodeCreate
  refine does_assert (fun _ => by omega) (fun _ => ?_)
  refine does_blockClear (fun _ => hp.inside) (fun _ => ?_)
  refine does_writeBlock (fun h => ⟨hp.inside, h.1 r⟩) (fun l l' _ hl hl' => ?_)
  apply does_modifyData
  rw [put_newInode L hL]
  refine Does.bind (createBlocks_does (H := [r]) depth L hr hs₀) ?_ (fun h => ?_)
  · intro o im₁ hatt
    cases o with
    | none =>
      exact does_pure ⟨_, hatt, by simp, fun _ => ⟨l, RwLock.writeEnd_upgrade hl hl', rfl⟩⟩
    | some _ =>
      have hend := hatt.section_end hs₀ hr ⟨[], hroot, rfl⟩ hl hl' (.inl rfl)
      exact does_writeEnd (does_pure ⟨_, hend, fun _ => rfl, by simp⟩)
  · obtain ⟨hfree, hmap, hroom⟩ := h
    refine ⟨fun t ht => ?_, fun t ht => ?_, hmap, hroom, Plantable.blank⟩
    · rw [List.mem_singleton] at ht
      rw [Image.enter_lock, update_of_ne ht]
      exact hfree t
    · rw [List.mem_singleton] at ht
      exact ⟨[], List.nil_suffix, hroot, ht⟩

end Fs

section

variable {fs : Fs SectorStore} {U : Nat → Path → Prop} {r L : Nat} {im im' : Image}

/-- A created inode records its length. -/
theorem Creates.isFile (h : Creates fs U r L im true im') (hs : Sound fs U im.disk)
    (hp : Plantable fs U im.disk r) (hL : L < 2 ^ 31) :
    IsFile (With U r (InTree (treeBlocks L))) im'.disk r L := by
  obtain ⟨im₀, ⟨_, -, ⟨V, c, hg, -, hok, -⟩, -⟩, hplant, -⟩ := h
  obtain rfl := hplant rfl
  obtain ⟨rfl, -⟩ := hok rfl
  have hr := hp.mapRoot_ne hs
  have hs₀ : Sound fs (With U r (InTree 0)) (im.plant r L).disk := hp.sound hs
  have hroot : With U r (InTree 0) r [] := with_at.mpr (inTree_nil 0)
  have hword : ∀ j, 100 < j → im'.disk.word r j = (newInodeSector L).word j := by
    intro j hj
    rw [hg.root_word hs₀ hr hroot hj]
    show ((im.disk.plant r L).data r).word j = _
    rw [Disk.plant_root]
  refine ⟨?_, ?_, hL, fun p => with_at⟩
  · show im'.disk.word r Fs.magicWord = _
    rw [hword _ (by decide), magic_newInodeSector]
  · rw [hword _ (by decide), length_newInodeSector (by omega)]

end

end KernelSanders
