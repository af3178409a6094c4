import Mathlib

namespace KernelSanders.Lib

/-!
# Fixed-size byte blocks and their 32-bit words

A block of `n` bytes, the `memcpy` into it, and the view of the same bytes as little-endian
32-bit words (`word`, `setWord`).  An array of words overlaid on a block, or a C structure of
32-bit fields, is read and written through the word view; file data goes through the byte view.

* `byte_copyIn` — what each byte is after a copy;
* `word_setWord_same` / `word_setWord_ne` — the words form an array;
* `setWord_word` — writing back the word that is there changes nothing.
-/

/-- A block of `n` bytes. -/
abbrev Bytes (n : Nat) : Type := Fin n → UInt8

namespace Bytes

variable {n i : Nat}

/-- The block of zero bytes. -/
def zero : Bytes n := fun _ => 0

/-- Byte `i`, and `0` past the end. -/
def byte (d : Bytes n) (i : Nat) : UInt8 := if h : i < n then d ⟨i, h⟩ else 0

/-- `memcpy (d + ofs, src, len)`. -/
def copyIn (d : Bytes n) (ofs len : Nat) (src : Nat → UInt8) : Bytes n := fun i =>
  if ofs ≤ i.val ∧ i.val < ofs + len then src (i.val - ofs) else d i

/-- The little-endian word in bytes `4 * i … 4 * i + 3`. -/
def word (d : Bytes n) (i : Nat) : Nat :=
  (d.byte (4 * i)).toNat + 256 * (d.byte (4 * i + 1)).toNat +
    65536 * (d.byte (4 * i + 2)).toNat + 16777216 * (d.byte (4 * i + 3)).toNat

/-- Store the low 32 bits of `v` in bytes `4 * i … 4 * i + 3`. -/
def setWord (d : Bytes n) (i v : Nat) : Bytes n :=
  d.copyIn (4 * i) 4 (fun j => UInt8.ofNat (v / 256 ^ j))

@[simp] theorem byte_zero (i : Nat) : (zero : Bytes n).byte i = 0 := by
  unfold byte zero; split <;> rfl

theorem byte_of_lt (d : Bytes n) (h : i < n) : d.byte i = d ⟨i, h⟩ := dif_pos h

theorem byte_of_ge (d : Bytes n) (h : n ≤ i) : d.byte i = 0 := dif_neg (by omega)

/-- Two blocks with the same bytes are equal. -/
theorem ext_byte {d d' : Bytes n} (h : ∀ i, i < n → d.byte i = d'.byte i) : d = d' := by
  funext i
  have hi := h i.val i.isLt
  rwa [byte_of_lt d i.isLt, byte_of_lt d' i.isLt] at hi

theorem byte_copyIn (d : Bytes n) (ofs len : Nat) (src : Nat → UInt8) (hi : i < n) :
    (d.copyIn ofs len src).byte i
      = if ofs ≤ i ∧ i < ofs + len then src (i - ofs) else d.byte i := by
  rw [byte_of_lt _ hi, byte_of_lt _ hi, copyIn]

/-- A copy leaves the bytes outside its range alone, also past the end of the block. -/
theorem byte_copyIn_out (d : Bytes n) (ofs len : Nat) (src : Nat → UInt8)
    (h : ¬ (ofs ≤ i ∧ i < ofs + len)) : (d.copyIn ofs len src).byte i = d.byte i := by
  by_cases hi : i < n
  · rw [byte_copyIn _ _ _ _ hi, if_neg h]
  · rw [byte_of_ge _ (by omega), byte_of_ge _ (by omega)]

@[simp] theorem word_zero (i : Nat) : (zero : Bytes n).word i = 0 := by
  simp [word]

/-- Two blocks with the same four bytes have the same word there. -/
theorem word_congr {m : Nat} {d : Bytes n} {d' : Bytes m}
    (h : ∀ j, 4 * i ≤ j → j < 4 * i + 4 → d.byte j = d'.byte j) : d.word i = d'.word i := by
  unfold word
  rw [h (4 * i) (by omega) (by omega), h (4 * i + 1) (by omega) (by omega),
    h (4 * i + 2) (by omega) (by omega), h (4 * i + 3) (by omega) (by omega)]

/-- The bytes of a word that was just stored. -/
theorem byte_setWord_same (d : Bytes n) (i v : Nat) (hi : 4 * i + 4 ≤ n) {j : Nat} (hj : j < 4) :
    (d.setWord i v).byte (4 * i + j) = UInt8.ofNat (v / 256 ^ j) := by
  rw [setWord, byte_copyIn _ _ _ _ (by omega), if_pos (by omega)]
  rw [show 4 * i + j - 4 * i = j by omega]

theorem word_setWord_same (d : Bytes n) (i v : Nat) (hi : 4 * i + 4 ≤ n) :
    (d.setWord i v).word i = v % 2 ^ 32 := by
  have h0 := byte_setWord_same d i v hi (j := 0) (by omega)
  have h1 := byte_setWord_same d i v hi (j := 1) (by omega)
  have h2 := byte_setWord_same d i v hi (j := 2) (by omega)
  have h3 := byte_setWord_same d i v hi (j := 3) (by omega)
  rw [Nat.add_zero] at h0
  unfold word
  rw [h0, h1, h2, h3]
  simp only [UInt8.toNat_ofNat', Nat.reducePow]
  omega

theorem word_setWord_ne (d : Bytes n) {i j : Nat} (v : Nat) (h : j ≠ i) :
    (d.setWord i v).word j = d.word j :=
  word_congr fun k _ _ => byte_copyIn_out _ _ _ _ (by omega)

/-- Writing back the word that is there changes nothing. -/
theorem setWord_word (d : Bytes n) (i : Nat) (hi : 4 * i + 4 ≤ n) : d.setWord i (d.word i) = d := by
  apply ext_byte
  intro k hk
  by_cases hr : 4 * i ≤ k ∧ k < 4 * i + 4
  · obtain ⟨j, rfl⟩ : ∃ j, k = 4 * i + j := ⟨k - 4 * i, by omega⟩
    have hj : j < 4 := by omega
    rw [byte_setWord_same d i _ hi hj]
    apply UInt8.toNat_inj.mp
    have h0 := (d.byte (4 * i)).toNat_lt
    have h1 := (d.byte (4 * i + 1)).toNat_lt
    have h2 := (d.byte (4 * i + 2)).toNat_lt
    have h3 := (d.byte (4 * i + 3)).toNat_lt
    rw [UInt8.toNat_ofNat', word]
    interval_cases j <;> simp only [Nat.reducePow, Nat.add_zero] <;> omega
  · exact byte_copyIn_out _ _ _ _ hr

end Bytes

end KernelSanders.Lib
