import KernelSanders.Lib.Exec
import KernelSanders.Lib.FirstFree

namespace KernelSanders

open Lib Lib.Exec
open Function hiding update
open BitVec

/-!
# `lib/kernel/bitmap.c` — packed bitmaps

A bitmap of `bitCnt` bits packed into 32-bit elements.  `isSet` is the abstract view: which bit
numbers are on.  The operations are translated with their assertions; an element access past
the `elemCnt` allocated elements is a `fault`.

`size_t` has 32 bits, so `elemCnt` is computed modulo `2 ^ 32`; `Bitmap.Fits` says that the
rounding did not wrap, in which case every bit below `bitCnt` has its element.
-/

/-- A bitmap; the elements from `elemCnt bitCnt` on are not part of its memory. -/
structure Bitmap where
  bitCnt : Nat
  bits : Nat → BitVec 32

namespace Bitmap

/-- `BITMAP_ERROR`, i.e. `SIZE_MAX`. -/
def bitmapError : Nat := 2 ^ 32 - 1

/-- Index of the element that contains bit `bitIdx`. -/
def elemIdx (bitIdx : Nat) : Nat := bitIdx / 32

/-- The element where only bit `bitIdx` is on. -/
def bitMask (bitIdx : Nat) : BitVec 32 := 1#32 <<< (bitIdx % 32)

/-- Number of elements for `bitCnt` bits, `DIV_ROUND_UP (bit_cnt, ELEM_BITS)`. -/
def elemCnt (bitCnt : Nat) : Nat := (bitCnt + 31) % 2 ^ 32 / 32

/-- Number of bytes for `bitCnt` bits. -/
def byteCnt (bitCnt : Nat) : Nat := 4 * elemCnt bitCnt

/-- Bit `i` is on. -/
def isSet (b : Bitmap) (i : Nat) : Bool := b.bits (elemIdx i) &&& bitMask i != 0

/-- Turn bit `i` on: `b->bits[idx] |= mask`. -/
def mark (b : Bitmap) (i : Nat) : Bitmap :=
  { b with bits := Function.update b.bits (elemIdx i) (b.bits (elemIdx i) ||| bitMask i) }

/-- Turn bit `i` off: `b->bits[idx] &= ~mask`. -/
def reset (b : Bitmap) (i : Nat) : Bitmap :=
  { b with bits := Function.update b.bits (elemIdx i) (b.bits (elemIdx i) &&& ~~~ bitMask i) }

/-- Byte `j` of the elements in memory, as `bitmap_write` copies them. -/
def bytes (b : Bitmap) (j : Nat) : UInt8 := UInt8.ofNat ((b.bits (j / 4)).toNat / 256 ^ (j % 4))

/-- The element count did not wrap around. -/
def Fits (b : Bitmap) : Prop := b.bitCnt + 31 < 2 ^ 32

/-! ### The operations -/

/-- Every element access is inside the allocated elements. -/
def access (i : Nat) : Exec Bitmap Unit := do
  let b ← read id
  if elemIdx i < elemCnt b.bitCnt then pure () else stop .fault

def bitmapMark (i : Nat) : Exec Bitmap Unit := do
  access i
  update (·.mark i)

def bitmapReset (i : Nat) : Exec Bitmap Unit := do
  access i
  update (·.reset i)

def bitmapSet (idx : Nat) (value : Bool) : Exec Bitmap Unit := do
  let b ← read id
  assert (idx < b.bitCnt) "idx < b->bit_cnt"
  if value then bitmapMark idx else bitmapReset idx

def bitmapTest (idx : Nat) : Exec Bitmap Bool := do
  let b ← read id
  assert (idx < b.bitCnt) "idx < b->bit_cnt"
  access idx
  pure (b.isSet idx)

/-- The two range assertions of the multiple-bit operations. -/
def checkRange (start cnt : Nat) : Exec Bitmap Unit := do
  let b ← read id
  assert (start ≤ b.bitCnt) "start <= b->bit_cnt"
  assert ((start + cnt) % 2 ^ 32 ≤ b.bitCnt) "start + cnt <= b->bit_cnt"

/-- The loop of `bitmap_set_multiple` over the listed indices. -/
def setEach (start : Nat) (value : Bool) : List Nat → Exec Bitmap Unit
  | [] => pure ()
  | i :: is => do
    bitmapSet (start + i) value
    setEach start value is

def bitmapSetMultiple (start cnt : Nat) (value : Bool) : Exec Bitmap Unit := do
  checkRange start cnt
  setEach start value (List.range cnt)

/-- The loop of `bitmap_contains` over the listed indices. -/
def containsEach (start : Nat) (value : Bool) : List Nat → Exec Bitmap Bool
  | [] => pure false
  | i :: is => do
    let v ← bitmapTest (start + i)
    if v = value then pure true else containsEach start value is

def bitmapContains (start cnt : Nat) (value : Bool) : Exec Bitmap Bool := do
  checkRange start cnt
  containsEach start value (List.range cnt)

def bitmapAll (start cnt : Nat) : Exec Bitmap Bool := do
  let c ← bitmapContains start cnt false
  pure (!c)

/-- The loop of `bitmap_scan` over the listed candidate positions. -/
def scanEach (cnt : Nat) (value : Bool) : List Nat → Exec Bitmap Nat
  | [] => pure bitmapError
  | i :: is => do
    let c ← bitmapContains i cnt (!value)
    if c then scanEach cnt value is else pure i

def bitmapScan (start cnt : Nat) (value : Bool) : Exec Bitmap Nat := do
  let b ← read id
  assert (start ≤ b.bitCnt) "start <= b->bit_cnt"
  if cnt ≤ b.bitCnt then
    scanEach cnt value (List.range' start (b.bitCnt - cnt + 1 - start))
  else pure bitmapError

def bitmapScanAndFlip (start cnt : Nat) (value : Bool) : Exec Bitmap Nat := do
  let idx ← bitmapScan start cnt value
  if idx ≠ bitmapError then
    bitmapSetMultiple idx cnt (!value)
    pure idx
  else pure idx

/-! ### The bits as a set of indices -/

theorem isSet_eq_getLsbD (b : Bitmap) (i : Nat) :
    b.isSet i = (b.bits (elemIdx i)).getLsbD (i % 32) := by
  have hlt : i % 32 < 32 := Nat.mod_lt _ (by omega)
  have hmask : bitMask i = twoPow 32 (i % 32) := (twoPow_eq 32 (i % 32)).symm
  rw [isSet, hmask, and_twoPow]
  cases (b.bits (elemIdx i)).getLsbD (i % 32) with
  | false => simp
  | true =>
    have hne : twoPow 32 (i % 32) ≠ 0#32 := by
      intro h
      have hb := getLsbD_twoPow (w := 32) (i % 32) (i % 32)
      rw [h] at hb
      simp [hlt] at hb
    simp [hne]

/-- Two bit numbers in the same place are equal. -/
private theorem idx_inj {i j : Nat} (h : elemIdx i = elemIdx j) (h' : i % 32 = j % 32) : i = j := by
  unfold elemIdx at h; omega

/-- A bitmap is its bits. -/
theorem eq_of_isSet {b b' : Bitmap} (hcnt : b.bitCnt = b'.bitCnt)
    (h : ∀ i, b.isSet i = true ↔ b'.isSet i = true) : b = b' := by
  have hbits : b.bits = b'.bits := by
    funext j
    refine eq_of_getLsbD_eq (fun i hi => ?_)
    have hj : elemIdx (32 * j + i) = j := by
      unfold elemIdx
      omega
    have hbit := Bool.eq_iff_iff.mpr (h (32 * j + i))
    rw [isSet_eq_getLsbD, isSet_eq_getLsbD, hj, Nat.mul_add_mod, Nat.mod_eq_of_lt hi] at hbit
    exact hbit
  cases b
  cases b'
  cases hcnt
  cases hbits
  rfl

/-- A change of a single bit: its element is `w` now, with the value `v` in its place. -/
theorem isSet_change {b : Bitmap} {i : Nat} {w : BitVec 32} {v : Bool}
    (h : ∀ j < 32, w.getLsbD j = if i % 32 = j then v else (b.bits (elemIdx i)).getLsbD j) :
    isSet { b with bits := Function.update b.bits (elemIdx i) w }
      = Function.update b.isSet i v := by
  funext j
  simp only [isSet_eq_getLsbD, update_apply]
  by_cases he : elemIdx j = elemIdx i
  · rw [if_pos he, h _ (Nat.mod_lt _ (by omega)), he]
    exact if_congr ⟨fun hm => idx_inj he hm.symm, fun hj => by rw [hj]⟩ rfl rfl
  · rw [if_neg he, if_neg (fun hj => he (by rw [hj]))]

theorem getLsbD_bitMask (i j : Nat) : (bitMask i).getLsbD j = decide (i % 32 = j) := by
  rw [bitMask, ← twoPow_eq, getLsbD_twoPow]
  simp [Nat.mod_lt]

theorem isSet_mark (b : Bitmap) (i : Nat) : (b.mark i).isSet = Function.update b.isSet i true := by
  refine isSet_change (fun j hj => ?_)
  rw [getLsbD_or, getLsbD_bitMask]
  split_ifs with h <;> simp [h]

theorem isSet_reset (b : Bitmap) (i : Nat) :
    (b.reset i).isSet = Function.update b.isSet i false := by
  refine isSet_change (fun j hj => ?_)
  rw [getLsbD_and, getLsbD_not, getLsbD_bitMask]
  split_ifs with h <;> simp [h, hj]

/-! ### Specifications of the operations -/

variable {b : Bitmap} {i : Nat}

theorem elemIdx_lt (hb : b.Fits) (hi : i < b.bitCnt) : elemIdx i < elemCnt b.bitCnt := by
  unfold Fits at hb
  rw [elemCnt, Nat.mod_eq_of_lt hb, elemIdx]
  omega

theorem access_ok (hb : b.Fits) (hi : i < b.bitCnt) : (access i).run b = .ok ((), b) := by
  simp [access, elemIdx_lt hb hi]

theorem bitmapTest_ok (hb : b.Fits) (hi : i < b.bitCnt) :
    (bitmapTest i).run b = .ok (b.isSet i, b) := by
  rw [bitmapTest, read_bind, bind_ok (assert_pos (by simpa using hi) _ _),
    bind_ok (access_ok hb hi)]
  rfl

theorem bitmapMark_ok (h : elemIdx i < elemCnt b.bitCnt) :
    (bitmapMark i).run b = .ok ((), b.mark i) := by
  have hacc : (access i).run b = .ok ((), b) := by simp [access, h]
  rw [bitmapMark, bind_ok hacc]
  rfl

section

variable (hb : b.Fits)
include hb

theorem bitmapSet_ok (hi : i < b.bitCnt) (v : Bool) :
    (bitmapSet i v).run b = .ok ((), if v then b.mark i else b.reset i) := by
  rw [bitmapSet, read_bind, bind_ok (assert_pos (by simpa using hi) _ _)]
  cases v with
  | true => exact bitmapMark_ok (elemIdx_lt hb hi)
  | false =>
    show (bitmapReset i).run b = .ok ((), b.reset i)
    rw [bitmapReset, bind_ok (access_ok hb hi)]
    rfl

theorem checkRange_ok {start cnt : Nat} (h : start + cnt ≤ b.bitCnt) :
    (checkRange start cnt).run b = .ok ((), b) := by
  unfold Fits at hb
  rw [checkRange, read_bind, bind_ok (assert_pos (by simp; omega) _ _)]
  exact assert_pos (by rw [Nat.mod_eq_of_lt (by omega)]; simpa using h) _ _

/-- Setting a single bit through `bitmap_set_multiple`. -/
theorem bitmapSetMultiple_one (hi : i < b.bitCnt) (v : Bool) :
    (bitmapSetMultiple i 1 v).run b = .ok ((), if v then b.mark i else b.reset i) := by
  rw [bitmapSetMultiple, bind_ok (checkRange_ok hb (by omega))]
  show (bitmapSet i v >>= fun _ => pure ()).run b = _
  rw [bind_ok (bitmapSet_ok hb hi v)]
  rfl

/-- `bitmap_contains` on a single bit. -/
theorem bitmapContains_one (hi : i < b.bitCnt) (v : Bool) :
    (bitmapContains i 1 v).run b = .ok (b.isSet i == v, b) := by
  rw [bitmapContains, bind_ok (checkRange_ok hb (by omega))]
  show (bitmapTest i >>= fun v' => if v' = v then pure true else pure false).run b = _
  rw [bind_ok (bitmapTest_ok hb hi)]
  by_cases h : b.isSet i = v <;> simp [h]

theorem bitmapAll_one (hi : i < b.bitCnt) : (bitmapAll i 1).run b = .ok (b.isSet i, b) := by
  rw [bitmapAll, bind_ok (bitmapContains_one hb hi false)]
  cases b.isSet i <;> rfl

/-- The scan loop for one free bit: the first free one of the list. -/
theorem scanEach_one (l : List Nat) (hl : ∀ i ∈ l, i < b.bitCnt) :
    (scanEach 1 false l).run b = .ok ((l.find? (fun i => !b.isSet i)).getD bitmapError, b) := by
  induction l with
  | nil => rfl
  | cons i is ih =>
    have hi : i < b.bitCnt := hl i (by simp)
    rw [scanEach, bind_ok (bitmapContains_one hb hi _)]
    cases hs : b.isSet i with
    | true =>
      simp only [Bool.not_false, beq_self_eq_true, if_true]
      rw [ih (fun j hj => hl j (by simp [hj]))]
      simp [hs]
    | false => simp [hs]

/-- A bit number past the end is refused. -/
theorem bitmapAll_outside (hi : b.bitCnt ≤ i) : ∃ e, (bitmapAll i 1).run b = .error e := by
  unfold Fits at hb
  have hrange : ∃ e, (checkRange i 1).run b = .error e := by
    rw [checkRange, read_bind]
    by_cases h : i ≤ (id b).bitCnt
    · have hlast : ¬ (i + 1) % 2 ^ 32 ≤ (id b).bitCnt := by
        rw [id] at h ⊢
        omega
      rw [bind_ok (assert_pos h _ _)]
      exact ⟨_, assert_neg hlast _ _⟩
    · exact ⟨_, bind_error (assert_neg h _ _)⟩
  obtain ⟨e, he⟩ := hrange
  exact ⟨e, bind_error (bind_error he)⟩

/-- A bit number is never taken for `BITMAP_ERROR`. -/
theorem ne_bitmapError (hi : i < b.bitCnt) : i ≠ bitmapError := by
  unfold Fits at hb
  unfold bitmapError
  omega

/-- **Scan.** `bitmap_scan (b, 0, 1, false)` finds the first free bit. -/
theorem bitmapScan_one (h0 : 0 < b.bitCnt) :
    (bitmapScan 0 1 false).run b = .ok ((firstFree b.isSet b.bitCnt).getD bitmapError, b) := by
  rw [bitmapScan, read_bind, bind_ok (assert_pos (Nat.zero_le _) _ _)]
  rw [if_pos (show 1 ≤ (id b).bitCnt from h0)]
  have hlist : List.range' 0 ((id b).bitCnt - 1 + 1 - 0) = List.range b.bitCnt := by
    rw [List.range_eq_range']
    congr 1
    show b.bitCnt - 1 + 1 - 0 = b.bitCnt
    omega
  rw [hlist, scanEach_one hb _ (fun i hi => by simpa using hi)]
  rfl

/-- **Scan and flip.** The first free bit is turned on and returned; with no free bit the
    bitmap stays and the result is `BITMAP_ERROR`. -/
theorem bitmapScanAndFlip_one :
    (bitmapScanAndFlip 0 1 false).run b =
      match firstFree b.isSet b.bitCnt with
      | some i => .ok (i, b.mark i)
      | none => .ok (bitmapError, b) := by
  rw [bitmapScanAndFlip]
  by_cases h0 : 0 < b.bitCnt
  · rw [bind_ok (bitmapScan_one hb h0)]
    cases hf : firstFree b.isSet b.bitCnt with
    | none => simp
    | some i =>
      have hi : i < b.bitCnt := (firstFree_eq_some.mp hf).1
      have hne : i ≠ bitmapError := ne_bitmapError hb hi
      simp only [Option.getD_some, ne_eq, hne, not_false_eq_true, if_true]
      rw [bind_ok (bitmapSetMultiple_one hb hi _)]
      simp
  · have hz : b.bitCnt = 0 := by omega
    have hscan : (bitmapScan 0 1 false).run b = .ok (bitmapError, b) := by
      rw [bitmapScan, read_bind, bind_ok (assert_pos (Nat.zero_le _) _ _), if_neg (by simp [hz])]
      rfl
    rw [bind_ok hscan, hz]
    simp [firstFree]

end

end Bitmap

end KernelSanders
