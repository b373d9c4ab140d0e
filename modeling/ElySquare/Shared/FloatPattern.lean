import Mathlib.Algebra.Group.Nat.Defs

set_option autoImplicit false

-- Floating-point numbers as bit patterns: a mantissa, an exponent above it and a sign on top.
namespace FloatPattern

structure Format where
  exponentBits : Nat
  mantissaBits : Nat
deriving DecidableEq, Repr

def binary64 : Format := ⟨11, 52⟩

inductive Class
  | zero
  | subnormal
  | normal
  | infinite
  | nan
deriving DecidableEq, Repr

def Class.bare : Class → Class
  | .subnormal => .zero
  | .nan => .infinite
  | other => other

theorem Class.bare_nan (c : Class) : c.bare ≠ .nan := by
  cases c <;> decide

theorem Class.bare_infinite (c : Class) : c.bare = .infinite ↔ c = .infinite ∨ c = .nan := by
  cases c <;> decide

namespace Format

variable (f : Format)

def mantissa (v : Nat) : Nat := v % 2 ^ f.mantissaBits

def exponent (v : Nat) : Nat := v / 2 ^ f.mantissaBits % 2 ^ f.exponentBits

def negative (v : Nat) : Bool := v.testBit (f.mantissaBits + f.exponentBits)

def classOf (v : Nat) : Class :=
  if f.exponent v = 2 ^ f.exponentBits - 1 then
    if f.mantissa v = 0 then .infinite else .nan
  else if f.exponent v = 0 then
    if f.mantissa v = 0 then .zero else .subnormal
  else .normal

end Format

def truncate (bits v : Nat) : Nat := v / 2 ^ bits * 2 ^ bits

section Truncate

variable {f : Format} {bits : Nat}

theorem truncate_high (v : Nat) (low : bits ≤ f.mantissaBits) :
    truncate bits v / 2 ^ f.mantissaBits = v / 2 ^ f.mantissaBits := by
  have split : 2 ^ f.mantissaBits = 2 ^ bits * 2 ^ (f.mantissaBits - bits) := by
    rw [← Nat.pow_add, Nat.add_sub_cancel' low]
  unfold truncate
  rw [split, ← Nat.div_div_eq_div_mul, ← Nat.div_div_eq_div_mul,
    Nat.mul_div_cancel _ (Nat.two_pow_pos bits)]

theorem mantissa_truncate (v : Nat) (low : bits ≤ f.mantissaBits) :
    f.mantissa (truncate bits v) = truncate bits (f.mantissa v) := by
  have split : 2 ^ f.mantissaBits = 2 ^ bits * 2 ^ (f.mantissaBits - bits) := by
    rw [← Nat.pow_add, Nat.add_sub_cancel' low]
  unfold Format.mantissa truncate
  rw [split, Nat.mod_mul_right_div_self, Nat.mul_comm, Nat.mul_mod_mul_left, Nat.mul_comm]

theorem exponent_truncate (v : Nat) (low : bits ≤ f.mantissaBits) :
    f.exponent (truncate bits v) = f.exponent v := by
  unfold Format.exponent
  rw [truncate_high v low]

theorem negative_truncate (v : Nat) (low : bits ≤ f.mantissaBits) :
    f.negative (truncate bits v) = f.negative v := by
  unfold Format.negative
  rw [Nat.add_comm, ← Nat.testBit_div_two_pow, ← Nat.testBit_div_two_pow, truncate_high v low]

theorem truncate_eq_zero (v : Nat) : truncate bits v = 0 ↔ v < 2 ^ bits := by
  have positive := Nat.two_pow_pos bits
  unfold truncate
  rw [Nat.mul_eq_zero, Nat.div_eq_zero_iff]
  omega

theorem classOf_truncate (v : Nat) (low : bits ≤ f.mantissaBits) :
    f.classOf (truncate bits v) =
      if f.mantissa v < 2 ^ bits then (f.classOf v).bare else f.classOf v := by
  have positive := Nat.two_pow_pos bits
  unfold Format.classOf
  rw [exponent_truncate v low, mantissa_truncate v low]
  simp only [truncate_eq_zero]
  by_cases small : f.mantissa v < 2 ^ bits
  · simp only [small, if_true]
    split
    · split <;> rfl
    · split
      · split <;> rfl
      · rfl
  · have some : f.mantissa v ≠ 0 := by omega
    simp only [small, some, if_false]

end Truncate

end FloatPattern
