import Mathlib

namespace KernelSanders.Division

open Nat

/-!
# `lib/arithmetic.c` — 64-bit division on a 32-bit machine

The only division the processor offers divides 64 bits by 32 bits and faults when the quotient needs
more than 32 bits.  `udiv64` builds the 64-bit quotient from one such instruction:

* a divisor below `2 ^ 32` divides the high half first, and `divl` gets the remainder;
* a larger divisor is cut to its 32 leading bits, which gives an estimate of the quotient that is
  right or too large by one (`quotient_estimate`), and the last line corrects it.

The remainder functions subtract the product of quotient and divisor, and hand the difference back
as 32 bits: `modulo_iff` says for which operands that keeps its value.

`uint64_t` and `int64_t` are `BitVec 64`; `none` is the divide error.
-/

/-! ### The functions -/

/-- `divl`: the instruction's quotient, or the divide error. -/
def divl (n : BitVec 64) (d : BitVec 32) : Option (BitVec 32) :=
  if d = 0 then none
  else if n.toNat / d.toNat < 2 ^ 32 then some (BitVec.ofNat 32 (n.toNat / d.toNat))
  else none

/-- One test of `nlz`: at most `bound` means that the upper `k` bits are zero. -/
def nlzStep (bound : BitVec 32) (k : Nat) (nx : Nat × BitVec 32) : Nat × BitVec 32 :=
  if nx.2 ≤ bound then (nx.1 + k, nx.2 <<< k) else nx

/-- `nlz`. -/
def nlz (x : BitVec 32) : Nat :=
  let nx := nlzStep 0x3FFFFFFF 2 (nlzStep 0x0FFFFFFF 4
    (nlzStep 0x00FFFFFF 8 (nlzStep 0x0000FFFF 16 (0, x))))
  if nx.2 ≤ 0x7FFFFFFF then nx.1 + 1 else nx.1

/-- `udiv64`. -/
def udiv64 (n d : BitVec 64) : Option (BitVec 64) :=
  if d >>> 32 = 0 then do
    let b : BitVec 64 := 1 <<< 32
    let n1 := (n >>> 32).setWidth 32
    let n0 := n.setWidth 32
    let d0 := d.setWidth 32
    let q ← divl (b * (n1 % d0).setWidth 64 + n0.setWidth 64) d0
    return q.setWidth 64 + b * (n1 / d0).setWidth 64
  else if n < d then some 0
  else do
    let d1 := (d >>> 32).setWidth 32
    let s := nlz d1
    let q ← divl (n >>> 1) (((d <<< s) >>> 32).setWidth 32)
    let q := (q >>> (31 - s)).setWidth 64
    return if n - (q - 1) * d < d then q - 1 else q

/-- `umod64`, which returns a `uint32_t`. -/
def umod64 (n d : BitVec 64) : Option (BitVec 32) := do
  let q ← udiv64 n d
  return (n - d * q).setWidth 32

/-- The absolute value of an `int64_t` as a `uint64_t`. -/
def absolute (n : BitVec 64) : BitVec 64 :=
  if n.toInt ≥ 0 then n else -n

/-- `sdiv64`. -/
def sdiv64 (n d : BitVec 64) : Option (BitVec 64) := do
  let q ← udiv64 (absolute n) (absolute d)
  return if (n.toInt < 0) = (d.toInt < 0) then q else -q

/-- `smod64`, which returns an `int32_t`. -/
def smod64 (n d : BitVec 64) : Option (BitVec 32) := do
  let q ← sdiv64 n d
  return (n - d * q).setWidth 32

/-- `__divdi3`. -/
def divdi3 (n d : BitVec 64) : Option (BitVec 64) := sdiv64 n d

/-- `__moddi3`: the `int32_t` becomes a `long long`. -/
def moddi3 (n d : BitVec 64) : Option (BitVec 64) := (smod64 n d).map (BitVec.signExtend 64)

/-- `__udivdi3`. -/
def udivdi3 (n d : BitVec 64) : Option (BitVec 64) := udiv64 n d

/-- `__umoddi3`: the `uint32_t` becomes an `unsigned long long`. -/
def umoddi3 (n d : BitVec 64) : Option (BitVec 64) := (umod64 n d).map (BitVec.setWidth 64)

/-! ### The estimate of a quotient -/

/-- Cutting the divisor to a multiple of `k` makes the quotient too large by at most one. -/
theorem quotient_estimate {n d k : Nat} (hpos : 0 < d / k * k) (h : n * (d % k) < d * (d / k * k)) :
    n / d ≤ n / (d / k * k) ∧ n / (d / k * k) ≤ n / d + 1 := by
  have hsplit : d / k * k + d % k = d := by
    rw [Nat.mul_comm]
    exact div_add_mod d k
  generalize d / k * k = D at *
  generalize d % k = r at *
  have hd : 0 < d := by omega
  refine ⟨div_le_div_left (by omega) hpos, ?_⟩
  have hn : n < d * (n / d + 1) := lt_mul_div_succ n hd
  -- scaled by `d`, the bound on `n` absorbs what was cut off
  have hscaled : n * d < D * (n / d + 2) * d := by
    calc n * d = n * D + n * r := by rw [← mul_add, hsplit]
      _ < n * D + d * D := by omega
      _ = D * (n + d) := by ring
      _ ≤ D * (d * (n / d + 1) + d) := mul_le_mul_left _ (by omega)
      _ = D * (n / d + 2) * d := by ring
  have hlt : n < D * (n / d + 2) := Nat.lt_of_mul_lt_mul_right hscaled
  have := Nat.div_lt_of_lt_mul hlt
  omega

/-- A divisor with 32 leading bits of its own loses less than the quotient shows. -/
theorem leading_bits_suffice {n d k : Nat} (hn : n < 2 ^ 64) (hk : 0 < k)
    (hlead : 2 ^ 31 ≤ d / k) : n * (d % k) < d * (d / k * k) := by
  obtain ⟨k, rfl⟩ : ∃ j, k = j + 1 := ⟨k - 1, by omega⟩
  have hcut : d % (k + 1) ≤ k := Nat.lt_succ_iff.mp (Nat.mod_lt _ hk)
  have hkeep : 2 ^ 31 * (k + 1) ≤ d / (k + 1) * (k + 1) := mul_le_mul_right _ hlead
  have hle : d / (k + 1) * (k + 1) ≤ d := div_mul_le_self d (k + 1)
  have hbig : 2 ^ 31 * (k + 1) * (2 ^ 31 * (k + 1)) ≤ d * (d / (k + 1) * (k + 1)) :=
    Nat.mul_le_mul (hkeep.trans hle) hkeep
  have hsmall : n * (d % (k + 1)) ≤ (2 ^ 64 - 1) * k := Nat.mul_le_mul (by omega) hcut
  refine lt_of_le_of_lt hsmall (lt_of_lt_of_le ?_ hbig)
  have hsquare : 4 * k ≤ (k + 1) * (k + 1) := by
    rcases lt_or_ge k 1 with hzero | hone
    · omega
    · obtain ⟨j, rfl⟩ := Nat.exists_eq_add_of_le hone
      nlinarith [zero_le (j * j)]
  have hone : 1 ≤ (k + 1) * (k + 1) := mul_pos hk hk
  have hring : 2 ^ 31 * (k + 1) * (2 ^ 31 * (k + 1)) = 2 ^ 62 * ((k + 1) * (k + 1)) := by ring
  omega

/-! ### Words -/

theorem toNat_of_divl {n : BitVec 64} {d : BitVec 32} (hd : d.toNat ≠ 0)
    (hfit : n.toNat / d.toNat < 2 ^ 32) : ∃ q, divl n d = some q ∧ q.toNat = n.toNat / d.toNat := by
  refine ⟨BitVec.ofNat 32 (n.toNat / d.toNat), ?_, ?_⟩
  · have hne : d ≠ 0 := fun h => hd (by rw [h]; rfl)
    rw [divl, if_neg hne, if_pos hfit]
  · rw [BitVec.toNat_ofNat, mod_eq_of_lt hfit]

/-- `nx` is what `nlz` has made of `x`: shifted without a loss, with at most `j` zero bits left. -/
structure Normalising (x j : Nat) (nx : Nat × BitVec 32) : Prop where
  value : nx.2.toNat = x * 2 ^ nx.1
  zeros : 2 ^ 32 ≤ nx.2.toNat * 2 ^ j

theorem Normalising.step {x k : Nat} {nx : Nat × BitVec 32} (h : Normalising x (k + k) nx)
    (bound : BitVec 32) (hbound : (bound.toNat + 1) * 2 ^ k = 2 ^ 32) :
    Normalising x k (nlzStep bound k nx) := by
  rw [nlzStep]
  split_ifs with hle
  · have hfit : nx.2.toNat * 2 ^ k < 2 ^ 32 := by
      rw [← hbound]
      exact Nat.mul_lt_mul_of_pos_right (Nat.lt_succ_of_le hle) (Nat.two_pow_pos k)
    have hshift : (nx.2 <<< k).toNat = nx.2.toNat * 2 ^ k := by
      rw [BitVec.toNat_shiftLeft, shiftLeft_eq, mod_eq_of_lt hfit]
    refine ⟨?_, ?_⟩
    · rw [hshift, h.value, mul_assoc, ← pow_add]
    · rw [hshift, mul_assoc, ← pow_add]
      exact h.zeros
  · refine ⟨h.value, ?_⟩
    rw [← hbound]
    exact Nat.mul_le_mul_right _ (Nat.lt_of_not_le hle)

theorem nlzStep_fst (bound : BitVec 32) (k : Nat) (nx : Nat × BitVec 32) :
    (nlzStep bound k nx).1 = if nx.2 ≤ bound then nx.1 + k else nx.1 :=
  apply_ite Prod.fst _ _ _

/-- `nlz` finds the shift that brings a nonzero number to 32 bits. -/
theorem nlz_spec {x : BitVec 32} (hx : x.toNat ≠ 0) :
    nlz x ≤ 31 ∧ 2 ^ 31 ≤ x.toNat * 2 ^ nlz x ∧ x.toNat * 2 ^ nlz x < 2 ^ 32 := by
  have h32 : Normalising x.toNat (16 + 16) (0, x) :=
    ⟨by simp, Nat.le_mul_of_pos_left _ (Nat.pos_of_ne_zero hx)⟩
  have h16 : Normalising x.toNat (8 + 8) _ := h32.step 0x0000FFFF rfl
  have h8 : Normalising x.toNat (4 + 4) _ := h16.step 0x00FFFFFF rfl
  have h4 : Normalising x.toNat (2 + 2) _ := h8.step 0x0FFFFFFF rfl
  have h2 : Normalising x.toNat (1 + 1) _ := h4.step 0x3FFFFFFF rfl
  have h1 : Normalising x.toNat 1 _ := h2.step 0x7FFFFFFF rfl
  -- the last test does not shift, but counts as the others do
  have hn : nlz x = _ := (nlzStep_fst 0x7FFFFFFF 1 (nlzStep 0x3FFFFFFF 2 (nlzStep 0x0FFFFFFF 4
    (nlzStep 0x00FFFFFF 8 (nlzStep 0x0000FFFF 16 (0, x)))))).symm
  obtain ⟨hvalue, hzeros⟩ := h1
  rw [← hn] at hvalue
  have hlt : x.toNat * 2 ^ nlz x < 2 ^ 32 := by
    rw [← hvalue]
    exact BitVec.isLt _
  refine ⟨?_, ?_, hlt⟩
  · by_contra hbig
    have : 2 ^ 32 ≤ 2 ^ nlz x := Nat.pow_le_pow_right (by decide) (by omega)
    have : 2 ^ nlz x ≤ x.toNat * 2 ^ nlz x := Nat.le_mul_of_pos_left _ (Nat.pos_of_ne_zero hx)
    omega
  · rw [hvalue] at hzeros
    omega

/-! ### The quotient -/

/-- The high half first: what `divl` gets is below `2 ^ 32` times the divisor. -/
theorem div_by_halves (n d : Nat) (hd : 0 < d) :
    (2 ^ 32 * (n / 2 ^ 32 % d) + n % 2 ^ 32) / d < 2 ^ 32 ∧
      n / d = (2 ^ 32 * (n / 2 ^ 32 % d) + n % 2 ^ 32) / d + 2 ^ 32 * (n / 2 ^ 32 / d) := by
  have hsplit : n = d * (2 ^ 32 * (n / 2 ^ 32 / d)) + (2 ^ 32 * (n / 2 ^ 32 % d) + n % 2 ^ 32) := by
    calc n = 2 ^ 32 * (n / 2 ^ 32) + n % 2 ^ 32 := (div_add_mod n _).symm
      _ = 2 ^ 32 * (d * (n / 2 ^ 32 / d) + n / 2 ^ 32 % d) + n % 2 ^ 32 := by
        rw [div_add_mod (n / 2 ^ 32) d]
      _ = _ := by ring
  refine ⟨?_, ?_⟩
  · have hmod : n / 2 ^ 32 % d + 1 ≤ d := mod_lt _ hd
    have hle := mul_le_mul_left (2 ^ 32) hmod
    exact Nat.div_lt_of_lt_mul (by rw [Nat.mul_comm d]; omega)
  · conv_lhs => rw [hsplit]
    rw [mul_add_div hd, add_comm]

/-- The upper half of a word. -/
theorem toNat_upper (n : BitVec 64) : ((n >>> 32).setWidth 32).toNat = n.toNat / 2 ^ 32 := by
  rw [BitVec.toNat_setWidth, BitVec.toNat_ushiftRight, shiftRight_eq_div_pow]
  exact mod_eq_of_lt (by omega)

theorem upper_eq_zero_iff {d : BitVec 64} : d >>> 32 = 0 ↔ d.toNat < 2 ^ 32 := by
  rw [← BitVec.toNat_inj, BitVec.toNat_ushiftRight, shiftRight_eq_div_pow]
  show d.toNat / 2 ^ 32 = 0 ↔ _
  omega

variable {n d : BitVec 64}

theorem udiv64_small (hd : d.toNat ≠ 0) (hsmall : d.toNat < 2 ^ 32) :
    ∃ q, udiv64 n d = some q ∧ q.toNat = n.toNat / d.toNat := by
  have hd0 : (d.setWidth 32).toNat = d.toNat := by
    rw [BitVec.toNat_setWidth, mod_eq_of_lt hsmall]
  have hbase : (1 <<< 32 : BitVec 64).toNat = 2 ^ 32 := rfl
  obtain ⟨hfit, hquot⟩ := div_by_halves n.toNat d.toNat (pos_of_ne_zero hd)
  have hrem : n.toNat / 2 ^ 32 % d.toNat < 2 ^ 32 := (mod_lt _ (by omega)).trans hsmall
  have harg : ((1 <<< 32 : BitVec 64) * ((n >>> 32).setWidth 32 % d.setWidth 32).setWidth 64
      + (n.setWidth 32).setWidth 64).toNat
      = 2 ^ 32 * (n.toNat / 2 ^ 32 % d.toNat) + n.toNat % 2 ^ 32 := by
    rw [BitVec.toNat_add, BitVec.toNat_mul, BitVec.toNat_setWidth, BitVec.toNat_umod, toNat_upper,
      hd0, hbase, BitVec.toNat_setWidth, BitVec.toNat_setWidth]
    omega
  have hhigh : ((n >>> 32).setWidth 32 / d.setWidth 32).toNat = n.toNat / 2 ^ 32 / d.toNat := by
    rw [BitVec.toNat_udiv, toNat_upper, hd0]
  have hdivl := toNat_of_divl (n := (1 <<< 32 : BitVec 64) *
      ((n >>> 32).setWidth 32 % d.setWidth 32).setWidth 64 + (n.setWidth 32).setWidth 64)
    (d := d.setWidth 32) (by rw [hd0]; exact hd) (by rw [harg, hd0]; exact hfit)
  rw [harg, hd0] at hdivl
  obtain ⟨q, hq, hqval⟩ := hdivl
  refine ⟨q.setWidth 64 + (1 <<< 32 : BitVec 64) *
    ((n >>> 32).setWidth 32 / d.setWidth 32).setWidth 64, ?_, ?_⟩
  · rw [udiv64, if_pos (upper_eq_zero_iff.mpr hsmall)]
    simp only [hq, Option.bind_eq_bind, Option.bind_some]
    rfl
  · -- the sum is the quotient, and so fits
    have hle : n.toNat / d.toNat < 2 ^ 64 := (div_le_self _ _).trans_lt n.isLt
    rw [BitVec.toNat_add, BitVec.toNat_mul, BitVec.toNat_setWidth, BitVec.toNat_setWidth, hhigh,
      hqval, hbase, hquot]
    rw [hquot] at hle
    omega

/-- The leading bits of `d`, when its upper half has `s` leading zeros. -/
theorem leading_bits {d s : Nat} (hs : s ≤ 31) (hlow : 2 ^ 31 ≤ d / 2 ^ 32 * 2 ^ s)
    (hhigh : d / 2 ^ 32 * 2 ^ s < 2 ^ 32) :
    d * 2 ^ s < 2 ^ 64 ∧ d * 2 ^ s / 2 ^ 32 = d / 2 ^ (32 - s) ∧ 2 ^ 31 ≤ d / 2 ^ (32 - s) := by
  have hpow : (2 : Nat) ^ 32 = 2 ^ (32 - s) * 2 ^ s := by
    rw [← pow_add]
    congr 1
    omega
  have heq : d * 2 ^ s / 2 ^ 32 = d / 2 ^ (32 - s) := by
    rw [hpow]
    exact Nat.mul_div_mul_right _ _ (Nat.two_pow_pos s)
  have hupper : d / 2 ^ 32 < 2 ^ (32 - s) := by
    refine Nat.lt_of_mul_lt_mul_right (a := 2 ^ s) ?_
    rw [← hpow]
    exact hhigh
  refine ⟨?_, heq, ?_⟩
  · have hd : d < 2 ^ 32 * 2 ^ (32 - s) := by
      rw [mul_comm]
      exact (div_lt_iff_lt_mul (by decide)).mp hupper
    calc d * 2 ^ s < 2 ^ 32 * 2 ^ (32 - s) * 2 ^ s :=
          Nat.mul_lt_mul_of_pos_right hd (Nat.two_pow_pos s)
      _ = 2 ^ 32 * 2 ^ 32 := by rw [mul_assoc, ← hpow]
  · rw [← heq, le_div_iff_mul_le (by decide)]
    calc 2 ^ 31 * 2 ^ 32 ≤ d / 2 ^ 32 * 2 ^ s * 2 ^ 32 := mul_le_mul_right _ hlow
      _ = d / 2 ^ 32 * 2 ^ 32 * 2 ^ s := by ring
      _ ≤ d * 2 ^ s := mul_le_mul_right _ (div_mul_le_self d _)

/-- What `divl` and the shift make of a large divisor is the quotient by its leading bits. -/
theorem shifted_quotient (n v : Nat) {s : Nat} (hs : s ≤ 31) :
    n / 2 / v / 2 ^ (31 - s) = n / (v * 2 ^ (32 - s)) := by
  rw [Nat.div_div_eq_div_mul, Nat.div_div_eq_div_mul]
  congr 1
  rw [show 32 - s = 31 - s + 1 by omega, Nat.pow_succ]
  ring

/-- The last line of `udiv64`: an estimate that is right or too large by one is corrected. -/
theorem corrected {q : BitVec 64} (hd : d.toNat ≠ 0) (hpos : 0 < q.toNat)
    (hge : n.toNat / d.toNat ≤ q.toNat) (hle : q.toNat ≤ n.toNat / d.toNat + 1) :
    (if n - (q - 1) * d < d then q - 1 else q).toNat = n.toNat / d.toNat := by
  have hpred : (q - 1).toNat = q.toNat - 1 := by
    rw [BitVec.toNat_sub]
    have := q.isLt
    show (2 ^ 64 - 1 + q.toNat) % 2 ^ 64 = _
    omega
  have hprod : (q.toNat - 1) * d.toNat ≤ n.toNat :=
    (Nat.mul_le_mul_right _ (by omega)).trans (Nat.div_mul_le_self _ _)
  have hdiff : (n - (q - 1) * d).toNat = n.toNat - (q.toNat - 1) * d.toNat := by
    rw [BitVec.toNat_sub, BitVec.toNat_mul, hpred, mod_eq_of_lt (hprod.trans_lt n.isLt)]
    have := n.isLt
    omega
  have hmod : n.toNat / d.toNat * d.toNat + n.toNat % d.toNat = n.toNat := by
    rw [mul_comm]
    exact div_add_mod _ _
  have hrem : n.toNat % d.toNat < d.toNat := mod_lt _ (pos_of_ne_zero hd)
  rcases lt_or_ge (n.toNat / d.toNat) q.toNat with hlt | hnlt
  · -- too large by one: what is left is the remainder
    have hq : q.toNat - 1 = n.toNat / d.toNat := by omega
    rw [if_pos, hpred, hq]
    rw [BitVec.lt_def, hdiff, hq]
    omega
  · have hq : q.toNat = n.toNat / d.toNat := by omega
    have hsplit : q.toNat * d.toNat = (q.toNat - 1) * d.toNat + d.toNat := by
      rw [← succ_mul]
      congr 1
      omega
    rw [if_neg, hq]
    rw [BitVec.lt_def, hdiff]
    rw [← hq] at hmod
    omega

theorem udiv64_large (hlarge : 2 ^ 32 ≤ d.toNat) :
    ∃ q, udiv64 n d = some q ∧ q.toNat = n.toNat / d.toNat := by
  have hcond : ¬ d >>> 32 = 0 := fun h => by
    have := upper_eq_zero_iff.mp h
    omega
  by_cases hlt : n < d
  · refine ⟨0, ?_, ?_⟩
    · rw [udiv64, if_neg hcond, if_pos hlt]
    · rw [div_eq_of_lt hlt]
      rfl
  have hd1 : ((d >>> 32).setWidth 32).toNat ≠ 0 := by
    rw [toNat_upper]
    omega
  obtain ⟨hs, hlow, hhigh⟩ := nlz_spec hd1
  rw [toNat_upper] at hlow hhigh
  generalize hsdef : nlz ((d >>> 32).setWidth 32) = s at *
  obtain ⟨hnorm, hleadeq, hlead⟩ := leading_bits hs hlow hhigh
  have hv : (((d <<< s) >>> 32).setWidth 32).toNat = d.toNat / 2 ^ (32 - s) := by
    rw [toNat_upper, BitVec.toNat_shiftLeft, shiftLeft_eq, mod_eq_of_lt hnorm, hleadeq]
  have hhalf : (n >>> 1).toNat = n.toNat / 2 := by
    rw [BitVec.toNat_ushiftRight, shiftRight_eq_div_pow]
  have hfit : n.toNat / 2 / (d.toNat / 2 ^ (32 - s)) < 2 ^ 32 := by
    refine Nat.div_lt_of_lt_mul ?_
    have := Nat.mul_le_mul_right (2 ^ 32) hlead
    omega
  have hdivl := toNat_of_divl (n := n >>> 1) (d := ((d <<< s) >>> 32).setWidth 32)
    (by rw [hv]; omega) (by rw [hhalf, hv]; exact hfit)
  rw [hhalf, hv] at hdivl
  obtain ⟨q, hq, hqval⟩ := hdivl
  have hest : ((q >>> (31 - s)).setWidth 64).toNat
      = n.toNat / (d.toNat / 2 ^ (32 - s) * 2 ^ (32 - s)) := by
    rw [BitVec.toNat_setWidth, BitVec.toNat_ushiftRight, shiftRight_eq_div_pow, hqval,
      shifted_quotient _ _ hs]
    exact mod_eq_of_lt ((div_le_self _ _).trans_lt n.isLt)
  have hbound := quotient_estimate (Nat.mul_pos (by omega) (Nat.two_pow_pos (32 - s)))
    (leading_bits_suffice n.isLt (Nat.two_pow_pos (32 - s)) hlead)
  have hone : 1 ≤ n.toNat / d.toNat := (one_le_div_iff (by omega)).mpr (not_lt.mp hlt)
  refine ⟨_, ?_, corrected (q := (q >>> (31 - s)).setWidth 64) (by omega)
    (by rw [hest]; omega) (by rw [hest]; exact hbound.1) (by rw [hest]; exact hbound.2)⟩
  rw [udiv64, if_neg hcond, if_neg hlt]
  simp only [hsdef, hq, Option.bind_eq_bind, Option.bind_some]
  rfl

/-- `udiv64` executes `divl` without a fault and returns the quotient. -/
theorem udiv64_spec (hd : d.toNat ≠ 0) :
    ∃ q, udiv64 n d = some q ∧ q.toNat = n.toNat / d.toNat := by
  rcases lt_or_ge d.toNat (2 ^ 32) with hsmall | hlarge
  · exact udiv64_small hd hsmall
  · exact udiv64_large hlarge

theorem toNat_absolute : (absolute n).toNat = n.toInt.natAbs := by
  have hlt := n.isLt
  rw [absolute]
  split_ifs with h
  · rw [BitVec.toInt_eq_toNat_cond] at *
    split_ifs at * with hneg <;> omega
  · rw [BitVec.toNat_neg]
    rw [BitVec.toInt_eq_toNat_cond] at *
    split_ifs at * with hneg <;> omega

/-- Truncated division divides the absolute values and then sets the sign. -/
theorem tdiv_eq_ite (n d : Int) :
    n.tdiv d = if (n < 0) = (d < 0) then ((n.natAbs / d.natAbs : Nat) : Int)
      else -((n.natAbs / d.natAbs : Nat) : Int) := by
  have hquot : ((n.natAbs / d.natAbs : Nat) : Int) = (n.natAbs : Int).tdiv d.natAbs := rfl
  rw [hquot]
  rcases lt_or_ge n 0 with hn | hn <;> rcases lt_or_ge d 0 with hd | hd
  · rw [if_pos (by simp only [hn, hd]), Int.ofNat_natAbs_of_nonpos hn.le,
      Int.ofNat_natAbs_of_nonpos hd.le, Int.neg_tdiv_neg]
  · rw [if_neg (by simp only [hn, not_lt.mpr hd]; decide), Int.ofNat_natAbs_of_nonpos hn.le,
      Int.natAbs_of_nonneg hd, Int.neg_tdiv, Int.neg_neg]
  · rw [if_neg (by simp only [hd, not_lt.mpr hn]; decide), Int.ofNat_natAbs_of_nonpos hd.le,
      Int.natAbs_of_nonneg hn, Int.tdiv_neg, Int.neg_neg]
  · rw [if_pos (by simp only [not_lt.mpr hn, not_lt.mpr hd]), Int.natAbs_of_nonneg hn,
      Int.natAbs_of_nonneg hd]

theorem sdiv64_spec (hd : d.toInt ≠ 0) :
    ∃ q, sdiv64 n d = some q ∧ q.toInt = (n.toInt.tdiv d.toInt).bmod (2 ^ 64) := by
  have habs : (absolute d).toNat ≠ 0 := by
    rw [toNat_absolute]
    exact Int.natAbs_ne_zero.mpr hd
  obtain ⟨q, hq, hval⟩ := udiv64_spec (n := absolute n) habs
  rw [toNat_absolute, toNat_absolute] at hval
  refine ⟨if (n.toInt < 0) = (d.toInt < 0) then q else -q, ?_, ?_⟩
  · rw [sdiv64, hq]
    rfl
  · rw [tdiv_eq_ite, ← hval]
    split_ifs
    · exact BitVec.toInt_eq_toNat_bmod q
    · rw [BitVec.toInt_neg, BitVec.toInt_eq_toNat_bmod, Int.bmod_neg_bmod]

/-- **Division.** For every divisor but zero the quotient is the exact one, unsigned, and signed up
    to the one quotient that `int64_t` does not have; no `divl` faults. -/
theorem division_exact {n d : BitVec 64} (hd : d ≠ 0) :
    (∃ q, udiv64 n d = some q ∧ q.toNat = n.toNat / d.toNat) ∧
      ∃ q, divdi3 n d = some q ∧ q.toInt = (n.toInt.tdiv d.toInt).bmod (2 ^ 64) := by
  refine ⟨udiv64_spec (fun h => hd ?_), sdiv64_spec (fun h => hd ?_)⟩
  · exact BitVec.eq_of_toNat_eq h
  · exact BitVec.eq_of_toInt_eq h

/-- The divisor has 33 bits, and the estimate is corrected. -/
theorem division_exact_large :
    (0x1FFFFFFFF : BitVec 64) ≠ 0 ∧
      (∃ q, udiv64 0xFFFFFFFFFFFFFFFF 0x1FFFFFFFF = some q ∧ q.toNat = 2147483648) ∧
      ∃ q, divdi3 0x8000000000000000 0x1FFFFFFFF = some q ∧ q.toInt = -1073741824 := by
  have hd : (0x1FFFFFFFF : BitVec 64) ≠ 0 := by decide
  obtain ⟨q, hq, hval⟩ := (division_exact (n := 0xFFFFFFFFFFFFFFFF) hd).1
  obtain ⟨q', hq', hval'⟩ := (division_exact (n := 0x8000000000000000) hd).2
  exact ⟨hd, ⟨q, hq, hval⟩, q', hq', hval'⟩

/-! ### The remainder -/

/-- `n` lies less than `w` above a multiple of `d`. -/
def NearMultiple (w n d : Nat) : Prop := ∃ k, k * d ≤ n ∧ n < k * d + w

theorem nearMultiple_iff (w n d : Nat) : NearMultiple w n d ↔ n % d < w := by
  constructor
  · rintro ⟨k, hle, hlt⟩
    rw [mul_comm] at hle hlt
    have hmod : (n - d * k) % d = n % d := sub_mul_mod hle
    have := mod_le (n - d * k) d
    omega
  · intro h
    refine ⟨n / d, div_mul_le_self n d, ?_⟩
    have := div_add_mod n d
    rw [mul_comm] at this
    omega

theorem umoddi3_iff (hd : d.toNat ≠ 0) :
    (∃ r, umoddi3 n d = some r ∧ r.toNat = n.toNat - d.toNat * (n.toNat / d.toNat)) ↔
      NearMultiple (2 ^ 32) n.toNat d.toNat := by
  obtain ⟨q, hq, hval⟩ := udiv64_spec (n := n) hd
  have hsplit := div_add_mod n.toNat d.toNat
  have hprod : (d * q).toNat = d.toNat * (n.toNat / d.toNat) := by
    have := n.isLt
    rw [BitVec.toNat_mul, hval, mod_eq_of_lt (by omega)]
  have hdiff : (n - d * q).toNat = n.toNat % d.toNat := by
    have hle : d * q ≤ n := by
      rw [BitVec.le_def, hprod]
      omega
    rw [BitVec.toNat_sub_of_le hle, hprod]
    omega
  have hr : umoddi3 n d = some (((n - d * q).setWidth 32).setWidth 64) := by
    rw [umoddi3, umod64, hq]
    rfl
  have hrval : (((n - d * q).setWidth 32).setWidth 64).toNat = n.toNat % d.toNat % 2 ^ 32 := by
    rw [BitVec.toNat_setWidth, BitVec.toNat_setWidth, hdiff]
    omega
  rw [nearMultiple_iff, hr]
  constructor
  · rintro ⟨r, hsome, hright⟩
    rw [← Option.some.inj hsome, hrval] at hright
    omega
  · intro hlt
    refine ⟨_, rfl, ?_⟩
    rw [hrval]
    omega

theorem moddi3_iff (hd : d.toInt ≠ 0) :
    (∃ r, moddi3 n d = some r ∧ r.toInt = n.toInt - d.toInt * n.toInt.tdiv d.toInt) ↔
      NearMultiple (if n.toInt < 0 then 2 ^ 31 + 1 else 2 ^ 31) n.toInt.natAbs d.toInt.natAbs := by
  obtain ⟨q, hq, hval⟩ := sdiv64_spec (n := n) hd
  have hr : moddi3 n d = some (((n - d * q).setWidth 32).signExtend 64) := by
    rw [moddi3, smod64, hq]
    rfl
  have hrval : (((n - d * q).setWidth 32).signExtend 64).toInt
      = (n.toInt.tmod d.toInt).bmod (2 ^ 32) := by
    have hdiff : (n - d * q).toInt = (n.toInt.tmod d.toInt).bmod (2 ^ 64) := by
      rw [BitVec.toInt_sub, BitVec.toInt_mul, hval, Int.mul_bmod_bmod, Int.sub_bmod_bmod,
        Int.tmod_def]
    rw [BitVec.toInt_signExtend_of_le (by decide), BitVec.toInt_setWidth,
      ← Int.bmod_bmod_of_dvd (show 2 ^ 32 ∣ 2 ^ 64 by decide), ← BitVec.toInt_eq_toNat_bmod, hdiff,
      Int.bmod_bmod_of_dvd (by decide)]
  -- the remainder has the sign of `n`
  have hsign : (n.toInt < 0 → n.toInt.tmod d.toInt ≤ 0) ∧
      (0 ≤ n.toInt → 0 ≤ n.toInt.tmod d.toInt) := by
    refine ⟨fun hneg => ?_, Int.tmod_nonneg _⟩
    have := Int.tmod_nonneg (a := -n.toInt) d.toInt (by omega)
    rw [Int.neg_tmod] at this
    omega
  rw [nearMultiple_iff, ← Int.natAbs_tmod, hr, ← Int.tmod_def]
  generalize n.toInt.tmod d.toInt = r at *
  have hfits : r.bmod (2 ^ 32) = r ↔ -2 ^ 31 ≤ r ∧ r < 2 ^ 31 := by
    refine ⟨fun h => ?_, fun h => Int.bmod_eq_of_le (by omega) (by omega)⟩
    rw [Int.bmod] at h
    split_ifs at h <;> omega
  have hwidth : (r.natAbs < if n.toInt < 0 then 2 ^ 31 + 1 else 2 ^ 31) ↔
      -2 ^ 31 ≤ r ∧ r < 2 ^ 31 := by
    split_ifs <;> omega
  rw [hwidth, ← hfits, ← hrval]
  exact ⟨fun ⟨_, hsome, hright⟩ => Option.some.inj hsome ▸ hright, fun h => ⟨_, rfl, h⟩⟩

/-- **Remainder.** Both remainders pass through 32 bits: they are right exactly for operands where
    the dividend's magnitude lies close enough above a multiple of the divisor's. -/
theorem modulo_iff {n d : BitVec 64} (hd : d ≠ 0) :
    ((∃ r, umoddi3 n d = some r ∧ r.toNat = n.toNat - d.toNat * (n.toNat / d.toNat)) ↔
      NearMultiple (2 ^ 32) n.toNat d.toNat) ∧
    ((∃ r, moddi3 n d = some r ∧ r.toInt = n.toInt - d.toInt * n.toInt.tdiv d.toInt) ↔
      NearMultiple (if n.toInt < 0 then 2 ^ 31 + 1 else 2 ^ 31)
        n.toInt.natAbs d.toInt.natAbs) := by
  refine ⟨umoddi3_iff (fun h => hd ?_), moddi3_iff (fun h => hd ?_)⟩
  · exact BitVec.eq_of_toNat_eq h
  · exact BitVec.eq_of_toInt_eq h

/-- `7 * 2 ^ 33 + 5` is close to a multiple of `2 ^ 33`. -/
theorem modulo_iff_close :
    (0x200000000 : BitVec 64) ≠ 0 ∧ NearMultiple (2 ^ 32) 0xE00000005 0x200000000 ∧
      ∃ r, umoddi3 0xE00000005 0x200000000 = some r ∧ r.toNat = 5 := by
  have hd : (0x200000000 : BitVec 64) ≠ 0 := by decide
  have hnear : NearMultiple (2 ^ 32) 0xE00000005 0x200000000 := ⟨7, by decide, by decide⟩
  exact ⟨hd, hnear, (modulo_iff (n := 0xE00000005) hd).1.mpr hnear⟩

/-- `2 ^ 32` is its own remainder by `2 ^ 33`; as a `uint32_t` it is `0`.  `3000000000` by `2 ^ 33`
    comes back negative from the signed function. -/
theorem umod64_loses_the_upper_half :
    umoddi3 0x100000000 0x200000000 = some 0 ∧
      0x100000000 - 0x200000000 * (0x100000000 / 0x200000000) = 0x100000000 ∧
      (moddi3 3000000000 0x200000000).map BitVec.toInt = some (-1294967296) := by
  decide +kernel

end KernelSanders.Division
