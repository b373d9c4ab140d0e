import Mathlib.Algebra.Group.Nat.Defs

set_option autoImplicit false

namespace Align

-- `(address + alignment - 1) & ~(alignment - 1)` on unsigned words of `width` bits.
def maskUp (width address alignment : Nat) : Nat :=
  (address + alignment + (2 ^ width - 1)) % 2 ^ width &&&
    (2 ^ width - 1 - (alignment + (2 ^ width - 1)) % 2 ^ width)

theorem and_high_mask (width k x : Nat) (small : x < 2 ^ width) (fits : k ≤ width) :
    x &&& (2 ^ width - 1 - (2 ^ k - 1)) = x / 2 ^ k * 2 ^ k := by
  have pos := Nat.two_pow_pos k
  have bound : 2 ^ k - 1 < 2 ^ width := by
    have := Nat.pow_le_pow_right (n := 2) (by omega) fits
    omega
  have mask : 2 ^ width - 1 - (2 ^ k - 1) = 2 ^ width - (2 ^ k - 1 + 1) := by omega
  apply Nat.eq_of_testBit_eq
  intro i
  rw [Nat.testBit_and, mask, Nat.testBit_two_pow_sub_succ bound, Nat.testBit_two_pow_sub_one,
    Nat.mul_comm, Nat.testBit_two_pow_mul, Nat.testBit_div_two_pow]
  by_cases low : i < k
  · simp [low, Nat.not_le.mpr low]
  · rw [Nat.sub_add_cancel (Nat.not_lt.mp low)]
    by_cases high : i < width
    · simp [low, high, Nat.not_lt.mp low]
    · have clear : x.testBit i = false := Nat.testBit_lt_two_pow
        (Nat.lt_of_lt_of_le small (Nat.pow_le_pow_right (by omega) (Nat.not_lt.mp high)))
      simp [clear]

theorem maskUp_eq (width k address : Nat) (fits : k < width) :
    maskUp width address (2 ^ k) =
      (address + 2 ^ k + (2 ^ width - 1)) % 2 ^ width / 2 ^ k * 2 ^ k := by
  have pos := Nat.two_pow_pos k
  have bound : 2 ^ k < 2 ^ width := Nat.pow_lt_pow_right (by omega) fits
  have low : (2 ^ k + (2 ^ width - 1)) % 2 ^ width = 2 ^ k - 1 := by
    rw [show 2 ^ k + (2 ^ width - 1) = 2 ^ k - 1 + 2 ^ width by omega, Nat.add_mod_right,
      Nat.mod_eq_of_lt (by omega)]
  unfold maskUp
  rw [low, and_high_mask width k _ (Nat.mod_lt _ (Nat.two_pow_pos width)) (Nat.le_of_lt fits)]

-- Also when the sum wraps around.
theorem dvd_maskUp (width k address : Nat) (fits : k < width) :
    2 ^ k ∣ maskUp width address (2 ^ k) := by
  rw [maskUp_eq width k address fits]
  exact Nat.dvd_mul_left _ _

theorem maskUp_two_pow (width k address : Nat) (fits : k < width)
    (room : address + 2 ^ k - 1 < 2 ^ width) :
    maskUp width address (2 ^ k) = (address + 2 ^ k - 1) / 2 ^ k * 2 ^ k := by
  have pos := Nat.two_pow_pos k
  have bound : 2 ^ k < 2 ^ width := Nat.pow_lt_pow_right (by omega) fits
  rw [maskUp_eq width k address fits,
    show address + 2 ^ k + (2 ^ width - 1) = address + 2 ^ k - 1 + 2 ^ width by omega,
    Nat.add_mod_right, Nat.mod_eq_of_lt room]

theorem le_maskUp (width k address : Nat) (fits : k < width)
    (room : address + 2 ^ k - 1 < 2 ^ width) : address ≤ maskUp width address (2 ^ k) := by
  have pos := Nat.two_pow_pos k
  have split := Nat.div_add_mod' (address + 2 ^ k - 1) (2 ^ k)
  have rest := Nat.mod_lt (address + 2 ^ k - 1) pos
  rw [maskUp_two_pow width k address fits room]
  omega

theorem maskUp_of_dvd (width k address : Nat) (fits : k < width) (aligned : 2 ^ k ∣ address)
    (room : address + 2 ^ k - 1 < 2 ^ width) : maskUp width address (2 ^ k) = address := by
  obtain ⟨q, rfl⟩ := aligned
  have pos := Nat.two_pow_pos k
  rw [maskUp_two_pow width k _ fits room, Nat.add_sub_assoc pos, Nat.mul_add_div pos,
    Nat.div_eq_of_lt (by omega), Nat.add_zero, Nat.mul_comm]

end Align
