import Mathlib.Algebra.Ring.Int.Defs
import Mathlib.Algebra.Ring.Nat
import Mathlib.Data.Int.DivMod

/-! # Machine integers

The integer types of the program are natural numbers and integers, cut to their
width where a result is stored or converted.
-/

namespace Jump.Core

/-- A result stored in a `size_t`. -/
def u64 (n : Nat) : Nat := n % 2 ^ 64

/-- A result stored in a `uint32_t`. -/
def u32 (n : Nat) : Nat := n % 2 ^ 32

/-- An unsigned value converted to `int`. -/
def toInt (n : Nat) : Int := Int.bmod n (2 ^ 32)

/-- An `int` converted to `uint32_t`. -/
def uint32OfInt (z : Int) : Nat := (z % 2 ^ 32).toNat

/-- An `int` converted to `size_t`. -/
def sizeOfInt (z : Int) : Nat := (z % 2 ^ 64).toNat

theorem u64_of_lt {n : Nat} (h : n < 2 ^ 64) : u64 n = n := Nat.mod_eq_of_lt h

theorem u64_lt (n : Nat) : u64 n < 2 ^ 64 := Nat.mod_lt n (by decide)

theorem u32_of_lt {n : Nat} (h : n < 2 ^ 32) : u32 n = n := Nat.mod_eq_of_lt h

/-- The detour of a `uint32_t` through `int` changes nothing. -/
theorem uint32OfInt_toInt (n : Nat) : uint32OfInt (toInt n) = u32 n := by
  unfold uint32OfInt toInt u32
  rw [show (2 : Int) ^ 32 = ((2 ^ 32 : Nat) : Int) from rfl, Int.bmod_emod]
  omega

theorem uint32OfInt_lt (z : Int) : uint32OfInt z < 2 ^ 32 := by
  unfold uint32OfInt
  omega

/-- The detour of an `int` through `uint32_t` changes nothing. -/
theorem toInt_uint32OfInt {z : Int} (h : -2 ^ 31 ≤ z) (h' : z < 2 ^ 31) :
    toInt (uint32OfInt z) = z := by
  unfold toInt uint32OfInt
  rw [Int.bmod_def]
  omega

theorem toInt_of_lt {n : Nat} (h : n < 2 ^ 31) : toInt n = n := by
  unfold toInt
  rw [Int.bmod_def]
  omega

/-- The upper half of the `unsigned` values are negative. -/
theorem toInt_of_ge {n : Nat} (h : 2 ^ 31 ≤ n) (hlt : n < 2 ^ 32) : toInt n < 0 := by
  unfold toInt
  rw [Int.bmod_def]
  omega

end Jump.Core
