import ElySquare.Meta.StarId

set_option autoImplicit false

namespace ElySquare

def starIdOf (i : Nat) : Atom := stringFlags.starIdStarMask ||| BitVec.ofNat 32 i

theorem starIDCharset_digit : ∀ digit < 36, starDigit (starIDCharset.getD digit 0#8) = digit ∧
    starIDCharset.getD digit 0#8 ≠ 0#8 := by decide

theorem starNumber_digit (digit : Nat) (valid : digit < 36) (text : List Byte) (num : Nat)
    (small : num * 36 + digit < 2 ^ 16) :
    starNumber (starIDCharset.getD digit 0#8 :: text) num = starNumber text (num * 36 + digit) := by
  obtain ⟨value, notEnd⟩ := starIDCharset_digit digit valid
  rw [starNumber, if_neg notEnd, value, Nat.mod_eq_of_lt (by omega : num * 36 < 2 ^ 16), Nat.mod_eq_of_lt small]

theorem starNumber_zeros (count : Nat) (text : List Byte) (num : Nat)
    (small : num * 36 ^ count < 2 ^ 16) :
    starNumber (List.replicate count (byteOf '0') ++ text) num = starNumber text (num * 36 ^ count) := by
  induction count generalizing num with
  | zero => simp
  | succ count ih =>
      have power : num * 36 ^ (count + 1) = num * 36 * 36 ^ count := by rw [Nat.pow_succ', Nat.mul_assoc]
      have step := starNumber_digit 0 (by decide) (List.replicate count (byteOf '0') ++ text) num
        (Nat.lt_of_le_of_lt (by rw [power]; exact Nat.le_mul_of_pos_right _ (Nat.pow_pos (by decide))) small)
      rw [power] at small ⊢
      rw [List.replicate_succ, List.cons_append]
      exact step.trans (ih (num * 36) small)

theorem starNumber_digits (idx n : Nat) (text : List Byte) (num : Nat) (fits : n < 36 ^ idx)
    (small : num * 36 ^ idx + n < 2 ^ 16) :
    starNumber (starDigits idx n ++ text) num = starNumber text (num * 36 ^ idx + n) := by
  induction idx generalizing n text with
  | zero =>
      obtain rfl : n = 0 := by simpa using fits
      simp [starDigits]
  | succ idx ih =>
      have power : num * 36 ^ (idx + 1) = num * 36 ^ idx * 36 := by rw [Nat.pow_succ, Nat.mul_assoc]
      have fits' : n / 36 < 36 ^ idx := Nat.div_lt_of_lt_mul (by rw [Nat.pow_succ'] at fits; exact fits)
      have last := starNumber_digit (n % 36) (Nat.mod_lt _ (by decide)) text
      rw [starDigits]
      by_cases more : n / 36 > 0 ∧ idx > 0
      · rw [if_pos more, List.append_assoc, ih (n / 36) _ fits' (by omega), List.singleton_append,
          last _ (by omega)]
        congr 1
        omega
      · have short : n / 36 = 0 := by
          by_contra other
          obtain rfl : idx = 0 := by omega
          omega
        rw [if_neg more, List.append_assoc, starNumber_zeros idx _ num (by omega), List.singleton_append,
          last _ (by omega)]
        congr 1
        omega

-- The digits in the buffer are the number that was written into it, and the characters after them
-- up to the first NUL count as more digits.
theorem numToStarId_eq (stack : List Byte) (num : Nat) (small : num < 2 ^ 16) :
    numToStarId stack num = starNumber stack num >>= fun num => .ok (starIdOf num) := by
  have digits := starNumber_digits 6 num stack 0 (by omega) (by omega)
  rw [Nat.zero_mul, Nat.zero_add] at digits
  rw [numToStarId, List.cons_append, charToAtom]
  simp only [if_true, digits]
  rfl

theorem numToStarId_ok (rest : List Byte) (num : Nat) (small : num < 2 ^ 16) :
    numToStarId (0#8 :: rest) num = .ok (starIdOf num) := by
  rw [numToStarId_eq _ num small]
  simp [starNumber]

theorem starNumber_small (text : List Byte) (num n : Nat) (small : num < 2 ^ 16)
    (read : starNumber text num = .ok n) : n < 2 ^ 16 := by
  induction text generalizing num with
  | nil => cases read
  | cons c text ih =>
      rw [starNumber] at read
      split at read
      · cases read
        exact small
      · exact ih _ (Nat.mod_lt _ (by decide)) read

theorem starIdToNum_starIdOf (i : Nat) (small : i < 2 ^ 16) : starIdToNum (starIdOf i) = i := by
  have mask : stringFlags.starIdStarMask &&& stringFlags.starIdIndexMask = 0#32 := by decide
  have index : stringFlags.starIdIndexMask.toNat = 2 ^ 16 - 1 := by decide
  rw [starIdToNum, starIdOf, BitVec.and_or_distrib_right, mask, BitVec.zero_or, BitVec.toNat_and, index,
    Nat.and_two_pow_sub_one_eq_mod, BitVec.toNat_ofNat]
  omega

theorem starIdOf_ne_broken (i : Nat) (small : i < 2 ^ 16) : starIdOf i ≠ brokenAtom := by
  intro broken
  have clear : i.testBit 30 = false :=
    Nat.testBit_lt_two_pow (Nat.lt_of_lt_of_le small (Nat.pow_le_pow_right (by decide) (by decide)))
  have bit := congrArg (fun atom => atom.getLsbD 30) broken
  simp only [starIdOf, BitVec.getLsbD_or, BitVec.getLsbD_ofNat, clear, Bool.and_false, Bool.or_false] at bit
  exact absurd bit (by decide)

theorem numToStarId_known (stack : List Byte) (i : Nat) (small : i < 2 ^ 16) (id : Atom)
    (named : numToStarId stack i = .ok id) : id ≠ brokenAtom := by
  rw [numToStarId_eq stack i small] at named
  obtain ⟨n, read, same⟩ := (Result.bind_ok _ _ _).mp named
  cases same
  exact starIdOf_ne_broken n (starNumber_small stack i n small read)

end ElySquare
