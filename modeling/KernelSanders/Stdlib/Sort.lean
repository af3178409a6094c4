import KernelSanders.Lib.Exec

namespace KernelSanders.Stdlib

open Lib Lib.Exec

/-!
# `sort` and `binary_search`

The state is the array: the elements by their 1-based index.  An element is moved as a whole.  The
indices are of type `size_t`, and `heapify` computes the children `2 * i` and `2 * i + 1` modulo
`2 ^ 32`, so that element `2 ^ 31` has a left child in front of the array.

* `heapify_returns` — one call makes a heap of an element above two heaps;
* `sort_and_search` — the two functions work together on arrays below `2 ^ 31` elements;
* `sort_reads_in_front` — an array of `2 ^ 31` elements on which `sort` leaves the array.
-/

variable {α : Type}

section

/-- An access to the element with 1-based index `i` in an array of `cnt` elements. -/
def element (cnt i : Nat) : Exec (Nat → α) α :=
  if 1 ≤ i ∧ i ≤ cnt then read (fun e => e i) else stop .fault

/-- `do_swap` -/
def doSwap (cnt a b : Nat) : Exec (Nat → α) Unit := do
  let _ ← element cnt a
  let _ ← element cnt b
  update (fun e => e ∘ Equiv.swap a b)

variable (compare : α → α → Int)

/-- `do_compare` -/
def doCompare (cnt a b : Nat) : Exec (Nat → α) Int := do
  let x ← element cnt a
  let y ← element cnt b
  pure (compare x y)

/-- The larger one of the elements `child`, if there is one, and `max`. -/
def larger (cnt child max : Nat) : Exec (Nat → α) Nat :=
  if child ≤ cnt then do
    let cmp ← doCompare compare cnt child max
    pure (if cmp > 0 then child else max)
  else pure max

/-- `heapify`, with at most `fuel` passes. -/
def heapify (cnt : Nat) : Nat → Nat → Exec (Nat → α) Unit
  | 0, _ => stop .fuel
  | fuel + 1, i => do
    let max ← larger compare cnt (2 * i % 2 ^ 32) i
    let max ← larger compare cnt ((2 * i + 1) % 2 ^ 32) max
    if max = i then pure () else do
      doSwap cnt i max
      heapify cnt fuel max

/-- The first loop of `sort`. -/
def buildHeap (cnt : Nat) : Nat → Exec (Nat → α) Unit
  | 0 => pure ()
  | i + 1 => do
    heapify compare cnt cnt (i + 1)
    buildHeap cnt i

/-- The second loop of `sort`, from `i` on. -/
def sortHeap : Nat → Exec (Nat → α) Unit
  | i + 2 => do
    doSwap (i + 2) 1 (i + 2)
    heapify compare (i + 1) (i + 1) 1
    sortHeap (i + 1)
  | _ => pure ()

/-- `sort` -/
def sort (cnt size : Nat) : Exec (Nat → α) Unit := do
  assert (size > 0) "size > 0"
  buildHeap compare cnt (cnt / 2)
  sortHeap compare cnt

/-- The loop of `binary_search`, with `first` and `last` as offsets in bytes. -/
def searchLoop (key : α) (cnt size : Nat) : Nat → Nat → Nat → Exec (Nat → α) (Option Nat)
  | 0, _, _ => stop .fuel
  | fuel + 1, first, last =>
    if first < last then do
      let range := (last - first) / size
      let middle := first + range / 2 * size
      let x ← element cnt (middle / size + 1)
      if compare key x < 0 then searchLoop key cnt size fuel first middle
      else if compare key x > 0 then searchLoop key cnt size fuel (middle + size) last
      else pure (some middle)
    else pure none

/-- `binary_search`: the offset of the element in the array, or `NULL`. -/
def binarySearch (key : α) (cnt size : Nat) : Exec (Nat → α) (Option Nat) :=
  searchLoop compare key cnt size (cnt + 1) 0 (size * cnt)

/-- A comparison function that is a total preorder, with results as those of `strcmp`. -/
structure IsPreorder : Prop where
  flip : ∀ x y, compare x y < 0 ↔ compare y x > 0
  trans : ∀ x y z, compare x y ≤ 0 → compare y z ≤ 0 → compare x z ≤ 0

/-- The first `cnt` elements have changed places. -/
def Permuted (cnt : Nat) (e e' : Nat → α) : Prop :=
  ∃ π : Equiv.Perm Nat, (∀ k, ¬ (1 ≤ k ∧ k ≤ cnt) → π k = k) ∧ e' = e ∘ π

/-- The first `cnt` elements are in nondecreasing order. -/
def Sorted (cnt : Nat) (e : Nat → α) : Prop :=
  ∀ j k, 1 ≤ j → j ≤ k → k ≤ cnt → compare (e j) (e k) ≤ 0

/-- What `binary_search` returns: the place of an equal element, if there is one. -/
def Found (key : α) (cnt size : Nat) (e : Nat → α) : Option Nat → Prop
  | some p => ∃ k, 1 ≤ k ∧ k ≤ cnt ∧ p = (k - 1) * size ∧ compare key (e k) = 0
  | none => ∀ k, 1 ≤ k → k ≤ cnt → compare key (e k) ≠ 0

/-- The elements from `lo` on are not less than their children among the first `cnt`. -/
def Heap (lo cnt : Nat) (e : Nat → α) : Prop :=
  ∀ c, c ≤ cnt → lo ≤ c / 2 → compare (e c) (e (c / 2)) ≤ 0

/-- A heap but for element `i`, which may be too small. -/
structure Sinking (lo cnt i : Nat) (e : Nat → α) : Prop where
  others : ∀ c, c ≤ cnt → lo ≤ c / 2 → c / 2 ≠ i → compare (e c) (e (c / 2)) ≤ 0
  above : ∀ c, c ≤ cnt → c / 2 = i → lo ≤ i / 2 → compare (e c) (e (i / 2)) ≤ 0

/-- The elements behind the first `i` are in order, and none before them is greater. -/
def SortedBehind (cnt i : Nat) (e : Nat → α) : Prop :=
  ∀ j k, 1 ≤ j → j ≤ k → i < k → k ≤ cnt → compare (e j) (e k) ≤ 0

end

variable {compare : α → α → Int} {cnt size lo i child max fuel a b : Nat} {e e' : Nat → α}

/-! ### Permutations -/

theorem Permuted.refl : Permuted cnt e e := ⟨Equiv.refl _, fun _ _ => rfl, rfl⟩

theorem permuted_swap (ha : 1 ≤ a ∧ a ≤ cnt) (hb : 1 ≤ b ∧ b ≤ cnt) :
    Permuted cnt e (e ∘ Equiv.swap a b) :=
  ⟨Equiv.swap a b, fun k hk => by grind, rfl⟩

section

variable (h : Permuted cnt e e')
include h

theorem Permuted.trans {e'' : Nat → α} {m : Nat} (h' : Permuted m e' e'') (hm : m ≤ cnt) :
    Permuted cnt e e'' := by
  obtain ⟨π, hπ, rfl⟩ := h
  obtain ⟨ρ, hρ, rfl⟩ := h'
  refine ⟨ρ.trans π, fun k hk => ?_, rfl⟩
  rw [Equiv.trans_apply, hρ k (by omega), hπ k hk]

theorem Permuted.behind {k : Nat} (hk : cnt < k) : e' k = e k := by
  obtain ⟨π, hπ, rfl⟩ := h
  rw [Function.comp_apply, hπ k (by omega)]

theorem Permuted.within {k : Nat} (hk : 1 ≤ k ∧ k ≤ cnt) :
    ∃ j, (1 ≤ j ∧ j ≤ cnt) ∧ e' k = e j := by
  obtain ⟨π, hπ, rfl⟩ := h
  refine ⟨π k, ?_, rfl⟩
  by_contra hout
  rw [π.injective (hπ _ hout)] at hout
  exact hout hk

theorem Permuted.sortedBehind {n : Nat} (hs : SortedBehind compare n cnt e) :
    SortedBehind compare n cnt e' := by
  intro j k h1 hjk hik hk
  rw [h.behind hik]
  by_cases hj : j ≤ cnt
  · obtain ⟨j', hj', he⟩ := h.within ⟨h1, hj⟩
    rw [he]
    exact hs j' k hj'.1 (by omega) hik hk
  · rw [h.behind (by omega)]
    exact hs j k h1 hjk hik hk

end

/-! ### One call of `heapify` -/

theorem element_run (h : 1 ≤ i ∧ i ≤ cnt) : (element cnt i).run e = .ok (e i, e) := by
  rw [element, if_pos h]
  rfl

theorem doSwap_run (ha : 1 ≤ a ∧ a ≤ cnt) (hb : 1 ≤ b ∧ b ≤ cnt) :
    (doSwap cnt a b).run e = .ok ((), e ∘ Equiv.swap a b) := by
  rw [doSwap, bind_ok (element_run ha), bind_ok (element_run hb)]
  rfl

theorem larger_run (hc : 1 ≤ child) (hm : 1 ≤ max ∧ max ≤ cnt) :
    (larger compare cnt child max).run e =
      .ok (if child ≤ cnt ∧ compare (e child) (e max) > 0 then child else max, e) := by
  rw [larger]
  by_cases h : child ≤ cnt
  · rw [if_pos h, doCompare, bind_assoc, bind_ok (element_run ⟨hc, h⟩), bind_assoc,
      bind_ok (element_run hm)]
    simp [h]
  · simp [h]

/-- The larger child moves up, and the element sinks to its place. -/
theorem Sinking.swap {m : Nat} (h : Sinking compare lo cnt i e) (hi : 1 ≤ i) (hlo : lo ≤ i)
    (hm : m ≤ cnt) (hmi : m / 2 = i) (hup : compare (e i) (e m) ≤ 0)
    (hmax : ∀ c, c ≤ cnt → c / 2 = i → compare (e c) (e m) ≤ 0) :
    Sinking compare lo cnt m (e ∘ Equiv.swap i m) := by
  have habove := h.above m hm hmi
  have hothers := h.others
  constructor <;> grind

section

variable (hc : IsPreorder compare)
include hc

/-- **`heapify`** makes a heap of an element above two heaps. -/
theorem heapify_returns (hlt : cnt < 2 ^ 31) (fuel : Nat) :
    ∀ (i : Nat) (e : Nat → α), 1 ≤ i → lo ≤ i → i ≤ cnt → cnt < i + fuel →
      Sinking compare lo cnt i e →
      Returns (heapify compare cnt fuel i) e
        (fun _ e' => Permuted cnt e e' ∧ Heap compare lo cnt e') := by
  -- by induction on the passes, with `i` growing
  induction fuel with
  | zero =>
    intro i e _ _ _ hfuel
    omega
  | succ fuel ih =>
    intro i e hi hlo hcnt hfuel h
    rw [heapify, Nat.mod_eq_of_lt (show 2 * i < 2 ^ 32 by omega),
      Nat.mod_eq_of_lt (show 2 * i + 1 < 2 ^ 32 by omega)]
    obtain ⟨l, hl⟩ : ∃ l, l = if 2 * i ≤ cnt ∧ compare (e (2 * i)) (e i) > 0 then 2 * i else i :=
      ⟨_, rfl⟩
    obtain ⟨m, hm⟩ : ∃ m, m =
        if 2 * i + 1 ≤ cnt ∧ compare (e (2 * i + 1)) (e l) > 0 then 2 * i + 1 else l := ⟨_, rfl⟩
    rw [returns_step (larger_run (by omega) ⟨hi, hcnt⟩), ← hl,
      returns_step (larger_run (by omega) (by grind)), ← hm]
    -- `m` is not less than `i` and its children
    have hflip := hc.flip
    have htrans := hc.trans
    have hup : compare (e i) (e m) ≤ 0 := by grind
    have hmax : ∀ c, c ≤ cnt → c / 2 = i → compare (e c) (e m) ≤ 0 := by
      intro c hcc hci
      have hchild : c = 2 * i ∨ c = 2 * i + 1 := by omega
      grind
    by_cases hmi : m = i
    · rw [if_pos hmi, returns_pure]
      refine ⟨.refl, fun c hcc hloc => ?_⟩
      have hothers := h.others c hcc hloc
      grind
    · have hm' : m ≤ cnt ∧ m / 2 = i := by grind
      rw [if_neg hmi, returns_step (doSwap_run ⟨hi, hcnt⟩ (by omega))]
      have hsink := h.swap hi hlo hm'.1 hm'.2 hup hmax
      refine (ih m _ (by omega) (by omega) hm'.1 (by omega) hsink).mono (fun _ e' he' => ?_)
      exact ⟨(permuted_swap ⟨hi, hcnt⟩ (by omega)).trans he'.1 le_rfl, he'.2⟩

/-! ### The loops of `sort` -/

theorem buildHeap_returns (hlt : cnt < 2 ^ 31) (i : Nat) :
    ∀ e, i ≤ cnt / 2 → Heap compare (i + 1) cnt e →
      Returns (buildHeap compare cnt i) e
        (fun _ e' => Permuted cnt e e' ∧ Heap compare 1 cnt e') := by
  induction i with
  | zero => exact fun e _ h => returns_pure.mpr ⟨.refl, h⟩
  | succ i ih =>
    intro e hi h
    have hsink : Sinking compare (i + 1) cnt (i + 1) e :=
      ⟨fun c hcc hloc hne => h c hcc (by omega), fun c _ _ _ => by omega⟩
    refine (heapify_returns hc hlt cnt (i + 1) e (by omega) le_rfl (by omega) (by omega) hsink).bind
      (fun _ e₁ he₁ => ?_)
    exact (ih e₁ (by omega) he₁.2).mono (fun _ e' he' => ⟨he₁.1.trans he'.1 le_rfl, he'.2⟩)

/-- The root of a heap is not less than any element. -/
theorem Heap.root (h : Heap compare 1 cnt e) (k : Nat) (h1 : 1 ≤ k) (hk : k ≤ cnt) :
    compare (e k) (e 1) ≤ 0 := by
  induction k using Nat.strongRecOn with
  | _ k ih =>
    by_cases hone : k = 1
    · have := hc.flip (e 1) (e 1)
      grind
    · exact hc.trans _ _ _ (h k hk (by omega)) (ih (k / 2) (by omega) (by omega) (by omega))

/-- A single element in front is in order. -/
theorem SortedBehind.sorted (h : SortedBehind compare cnt i e) (hi : i ≤ 1) :
    Sorted compare cnt e := by
  intro j k h1 hjk hk
  have hflip := hc.flip (e k) (e k)
  by_cases hik : i < k
  · exact h j k h1 hjk hik hk
  · rw [show j = k by omega]
    omega

theorem sortHeap_returns (hlt : cnt < 2 ^ 31) (i : Nat) :
    ∀ e, i ≤ cnt → Heap compare 1 i e → SortedBehind compare cnt i e →
      Returns (sortHeap compare i) e
        (fun _ e' => Permuted cnt e e' ∧ Sorted compare cnt e') := by
  induction i with
  | zero => exact fun e _ _ h => returns_pure.mpr ⟨.refl, h.sorted hc (by omega)⟩
  | succ i ih =>
    cases i with
    | zero => exact fun e _ _ h => returns_pure.mpr ⟨.refl, h.sorted hc le_rfl⟩
    | succ i =>
      intro e hi hheap h
      rw [sortHeap, returns_step (doSwap_run (by omega) (by omega))]
      have hperm : Permuted (i + 2) e (e ∘ Equiv.swap 1 (i + 2)) :=
        permuted_swap (by omega) (by omega)
      have hval : ∀ k, (e ∘ Equiv.swap 1 (i + 2)) k = e (Equiv.swap 1 (i + 2) k) := fun _ => rfl
      generalize e ∘ Equiv.swap 1 (i + 2) = e₁ at hperm hval ⊢
      have hsink : Sinking compare 1 (i + 1) 1 e₁ := by
        refine ⟨fun c hcc hloc hne => ?_, fun c _ _ _ => by omega⟩
        have := hheap c (by omega) hloc
        grind
      -- the root is now behind the heap
      have hbehind : SortedBehind compare cnt (i + 1) e₁ := by
        intro j k h1 hjk hik hk
        by_cases hki : k = i + 2
        · have := fun k => hheap.root hc k
          grind
        · exact hperm.sortedBehind h j k h1 hjk (by omega) hk
      refine (heapify_returns hc (by omega) (i + 1) 1 e₁ le_rfl le_rfl (by omega) (by omega)
        hsink).bind (fun _ e₂ he₂ => ?_)
      refine (ih e₂ (by omega) he₂.2 (he₂.1.sortedBehind hbehind)).mono
        (fun _ e' he' => ⟨?_, he'.2⟩)
      have hperm' : Permuted cnt e e₁ := Permuted.refl.trans hperm hi
      exact (hperm'.trans he₂.1 (by omega)).trans he'.1 le_rfl

theorem sort_returns (hsize : size > 0) (hlt : cnt < 2 ^ 31) :
    Returns (sort compare cnt size) e (fun _ e' => Permuted cnt e e' ∧ Sorted compare cnt e') := by
  rw [sort, returns_step (assert_pos hsize _ _)]
  refine (buildHeap_returns hc hlt (cnt / 2) e le_rfl (fun c hcc hloc => by omega)).bind
    (fun _ e₁ he₁ => ?_)
  exact (sortHeap_returns hc hlt cnt e₁ le_rfl he₁.2 (fun j k _ _ _ _ => by omega)).mono
    (fun _ e' he' => ⟨he₁.1.trans he'.1 le_rfl, he'.2⟩)

/-! ### Searching -/

theorem searchLoop_returns (hsize : size > 0) (key : α) (hs : Sorted compare cnt e) (fuel : Nat) :
    ∀ lo hi, lo ≤ hi → hi ≤ cnt → hi < lo + fuel →
      (∀ k, 1 ≤ k → k ≤ lo → compare key (e k) > 0) →
      (∀ k, hi < k → k ≤ cnt → compare key (e k) < 0) →
      Returns (searchLoop compare key cnt size fuel (lo * size) (hi * size)) e
        (fun r e' => e' = e ∧ Found compare key cnt size e r) := by
  have hflip := hc.flip
  have htrans := hc.trans
  induction fuel with
  | zero =>
    intro lo hi _ _ hfuel
    omega
  | succ fuel ih =>
    intro lo hi hle hhi hfuel hbelow habove
    rw [searchLoop]
    by_cases hlt : lo < hi
    · obtain ⟨mid, hmid⟩ : ∃ mid, mid = lo + (hi - lo) / 2 := ⟨_, rfl⟩
      have hmiddle : lo * size + (hi * size - lo * size) / size / 2 * size = mid * size := by
        rw [← Nat.sub_mul, Nat.mul_div_cancel _ hsize, ← Nat.add_mul, hmid]
      simp only [if_pos (Nat.mul_lt_mul_of_pos_right hlt hsize), hmiddle,
        Nat.mul_div_cancel _ hsize]
      rw [returns_step (element_run (by omega))]
      split_ifs with hless hgreater
      · refine ih lo mid (by omega) (by omega) (by omega) hbelow (fun k h1 h2 => ?_)
        have := hs (mid + 1) k (by omega) (by omega) h2
        grind
      · rw [show mid * size + size = (mid + 1) * size by rw [Nat.add_mul, Nat.one_mul]]
        refine ih (mid + 1) hi (by omega) hhi (by omega) (fun k h1 h2 => ?_) habove
        have := hs k (mid + 1) h1 h2 (by omega)
        grind
      · rw [returns_pure]
        exact ⟨rfl, mid + 1, by omega, by omega, by simp, by omega⟩
    · rw [if_neg (by rw [show lo = hi by omega]; exact Nat.lt_irrefl _), returns_pure]
      refine ⟨rfl, fun k h1 h2 => ?_⟩
      by_cases hk : k ≤ lo
      · exact ne_of_gt (hbelow k h1 hk)
      · exact ne_of_lt (habove k (by omega) h2)

/-- **`sort` and `binary_search`** are correct together on arrays below `2 ^ 31` elements. -/
theorem sort_and_search (hsize : size > 0) (hlt : cnt < 2 ^ 31) :
    Returns (sort compare cnt size) e (fun _ e' => Permuted cnt e e' ∧ Sorted compare cnt e') ∧
    (Sorted compare cnt e → ∀ key, Returns (binarySearch compare key cnt size) e
      (fun r e' => e' = e ∧ Found compare key cnt size e r)) := by
  refine ⟨sort_returns hc hsize hlt, fun hs key => ?_⟩
  have hloop := searchLoop_returns hc hsize key hs (cnt + 1) 0 cnt (by omega) le_rfl (by omega)
    (fun k _ _ => by omega) (fun k _ _ => by omega)
  rw [Nat.zero_mul, Nat.mul_comm] at hloop
  exact hloop

end

/-- The comparison of bytes. -/
def compareBytes (x y : UInt8) : Int := x.toNat - y.toNat

theorem isPreorder_compareBytes : IsPreorder compareBytes := by
  constructor <;> unfold compareBytes <;> omega

/-- A million bytes are sorted, and a thousand that are in order are searched. -/
theorem sort_and_search_bytes :
    Returns (sort compareBytes (2 ^ 20) 1) (fun k => UInt8.ofNat (7 * k)) (fun _ e' =>
      Permuted (2 ^ 20) (fun k => UInt8.ofNat (7 * k)) e' ∧ Sorted compareBytes (2 ^ 20) e') ∧
    Returns (binarySearch compareBytes 5 1000 1) (fun _ => 5) (fun r e' =>
      e' = (fun _ => 5) ∧ Found compareBytes 5 1000 1 (fun _ => 5) r) := by
  refine ⟨(sort_and_search isPreorder_compareBytes (by decide) (by decide)).1,
    (sort_and_search isPreorder_compareBytes (by decide) (by decide)).2 (fun _ _ _ _ _ => ?_) 5⟩
  decide

/-! ### An array that is too long -/

/-- All bytes are equal, except that byte `2 ^ 31` is greater. -/
def lone (k : Nat) : UInt8 := if k = 2 ^ 31 then 1 else 0

/-- Element `2 ^ 30` sinks to `2 ^ 31`, whose left child would be element `0`. -/
theorem heapify_faults (hf : 2 ≤ fuel) :
    (heapify compareBytes (2 ^ 31) fuel (2 ^ 30)).run lone = .error .fault := by
  have hleft : (larger compareBytes (2 ^ 31) (2 ^ 31) (2 ^ 30)).run lone = .ok (2 ^ 31, lone) := by
    rw [larger_run (by omega) (by omega), if_pos ⟨le_rfl, by decide⟩]
  have hright : (larger compareBytes (2 ^ 31) ((2 * 2 ^ 30 + 1) % 2 ^ 32) (2 ^ 31)).run lone =
      .ok (2 ^ 31, lone) := by
    rw [larger_run (by omega) (by omega), if_neg (by omega)]
  obtain ⟨fuel, rfl⟩ := Nat.exists_eq_add_of_le' hf
  rw [heapify, show 2 * 2 ^ 30 % 2 ^ 32 = 2 ^ 31 by omega, bind_ok hleft, bind_ok hright,
    if_neg (by decide), bind_ok (doSwap_run (by omega) (by omega)), heapify,
    show 2 * 2 ^ 31 % 2 ^ 32 = 0 by omega, larger, if_pos (Nat.zero_le _)]
  rfl

/-- One element too many: `heapify` reads the element in front of the array. -/
theorem sort_reads_in_front : (sort compareBytes (2 ^ 31) 1).run lone = .error .fault := by
  rw [sort, bind_ok (assert_pos (by decide) _ _), show 2 ^ 31 / 2 = 2 ^ 30 by omega]
  exact bind_error (bind_error (heapify_faults (by omega)))

end KernelSanders.Stdlib
