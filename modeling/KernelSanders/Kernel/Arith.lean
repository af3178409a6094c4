import Mathlib

namespace KernelSanders

/-!
# C arithmetic

`off_t` and `int` are 32-bit two's complement, `block_sector_t`, `size_t` and `unsigned` are 32-bit
unsigned: `wrap` and `toUnsigned` are the conversions, and C's `/` and `%` on signed operands are
`Int.tdiv` and `Int.tmod`.
-/

/-- The value of an integer stored in an `off_t` or an `int`. -/
def wrap (x : Int) : Int := x.bmod (2 ^ 32)

/-- The value of an integer stored in a `block_sector_t`, a `size_t` or an `unsigned`. -/
def toUnsigned (x : Int) : Nat := (x % 2 ^ 32).toNat

/-- `CEIL (a, b)`. -/
def ceil (a b : Int) : Int := a.tdiv b + if a.tmod b > 0 then 1 else 0

theorem wrap_of_range {x : Int} (h : -2 ^ 31 ≤ x) (h' : x < 2 ^ 31) : wrap x = x := by
  rw [wrap, Int.bmod_eq_of_le] <;> omega

theorem wrap_range (x : Int) : -2 ^ 31 ≤ wrap x ∧ wrap x < 2 ^ 31 := by
  rw [wrap, Int.bmod]
  split <;> omega

theorem wrap_wrap_add (x y : Int) : wrap (wrap x + y) = wrap (x + y) := by
  unfold wrap
  rw [Int.bmod_add_bmod]

theorem wrap_add_wrap (x y : Int) : wrap (x + wrap y) = wrap (x + y) := by
  rw [Int.add_comm, wrap_wrap_add, Int.add_comm]

theorem toUnsigned_wrap (x : Int) : toUnsigned (wrap x) = toUnsigned x := by
  have hmod : wrap x % 2 ^ 32 = x % 2 ^ 32 := Int.bmod_emod
  rw [toUnsigned, hmod, toUnsigned]

theorem toUnsigned_natCast {n : Nat} (h : n < 2 ^ 32) : toUnsigned (n : Int) = n := by
  unfold toUnsigned
  omega

/-- The block number of a position in a file. -/
theorem toUnsigned_tdiv {n : Nat} (h : n < 2 ^ 32) : toUnsigned ((n : Int).tdiv 512) = n / 512 := by
  rw [show ((n : Int).tdiv 512) = ((n / 512 : Nat) : Int) from rfl]
  exact toUnsigned_natCast (by omega)

theorem natCast_tmod (n : Nat) : (n : Int).tmod 512 = ((n % 512 : Nat) : Int) := rfl

theorem ceil_natCast (n : Nat) : ceil (n : Int) 512 = ((n + 511) / 512 : Nat) := by
  have hdiv : (n : Int).tdiv 512 = ((n / 512 : Nat) : Int) := rfl
  unfold ceil
  rw [hdiv, natCast_tmod]
  split <;> omega

end KernelSanders
