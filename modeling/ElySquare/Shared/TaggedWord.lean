import Mathlib.Algebra.Group.Int.Defs
import Mathlib.Algebra.Group.Nat.Defs
import ElySquare.Shared.LittleEndian

set_option autoImplicit false

-- Machine words that keep a tag in their lowest bits and a payload above.
namespace TaggedWord

variable {width : Nat}

def mask (width bits : Nat) : BitVec width := BitVec.ofNat width (2 ^ bits - 1)

theorem mask_bit (bits i : Nat) :
    (mask width bits).getLsbD i = (decide (i < width) && decide (i < bits)) := by
  simp [mask, BitVec.getLsbD_ofNat, Nat.testBit_two_pow_sub_one]

def Fits (bits : Nat) (tag : BitVec width) : Prop := ∀ i, bits ≤ i → tag.getLsbD i = false

theorem fits_of_lt (bits : Nat) (tag : BitVec width) (small : tag.toNat < 2 ^ bits) : Fits bits tag := by
  intro i above
  exact Nat.testBit_lt_two_pow (Nat.lt_of_lt_of_le small (Nat.pow_le_pow_right (by omega) above))

section Shifted

variable (bits : Nat) (payload tag : BitVec width)

theorem tag_shifted (fits : Fits bits tag) : (payload <<< bits ||| tag) &&& mask width bits = tag := by
  ext i inside
  by_cases low : i < bits
  · simp [mask_bit, inside, low, ← BitVec.getLsbD_eq_getElem]
  · have clear := fits i (Nat.le_of_not_lt low)
    simp [mask_bit, low, clear, ← BitVec.getLsbD_eq_getElem]

theorem payload_shifted (fits : Fits bits tag) (i : Nat) (inside : i + bits < width) :
    ((payload <<< bits ||| tag) >>> bits).getLsbD i = payload.getLsbD i := by
  have room : bits + i < width := by omega
  have above : ¬ bits + i < bits := by omega
  rw [BitVec.getLsbD_ushiftRight, BitVec.getLsbD_or, BitVec.getLsbD_shiftLeft,
    fits (bits + i) (Nat.le_add_right _ _), Nat.add_sub_cancel_left]
  simp [room, above]

theorem unsigned_shifted (fits : Fits bits tag) (small : payload.toNat < 2 ^ (width - bits)) :
    (payload <<< bits ||| tag) >>> bits = payload := by
  apply BitVec.eq_of_getLsbD_eq
  intro i inside
  by_cases room : i + bits < width
  · exact payload_shifted bits payload tag fits i room
  · have clear : payload.getLsbD i = false := fits_of_lt _ payload small i (by omega)
    rw [clear, BitVec.getLsbD_ushiftRight]
    exact BitVec.getLsbD_of_ge _ _ (by omega)

def Signed (bits : Nat) (payload : BitVec width) : Prop :=
  ∀ i, width ≤ i + bits + 1 → i < width → payload.getLsbD i = payload.msb

theorem signed_of_range (room : bits < width) (low : -2 ^ (width - 1 - bits) ≤ payload.toInt)
    (high : payload.toInt < 2 ^ (width - 1 - bits)) : Signed bits payload := by
  intro i above inside
  have bound := payload.isLt
  have larger : width - 1 - bits ≤ i := by omega
  rw [BitVec.toInt_eq_msb_cond] at low high
  cases sign : payload.msb with
  | false =>
      simp only [sign, Bool.false_eq_true, if_false] at high
      exact fits_of_lt _ payload (by exact_mod_cast high) i larger
  | true =>
      simp only [sign, if_true] at low
      have small : (~~~payload).toNat < 2 ^ (width - 1 - bits) := by
        have cast : (2 : Int) ^ (width - 1 - bits) = ((2 ^ (width - 1 - bits) : Nat) : Int) := by
          push_cast
          rfl
        rw [cast] at low
        rw [BitVec.toNat_not]
        omega
      have clear := fits_of_lt _ (~~~payload) small i larger
      simpa [inside] using clear

theorem signed_shifted (fits : Fits bits tag) (room : bits < width) (signed : Signed bits payload) :
    (payload <<< bits ||| tag).sshiftRight bits = payload := by
  apply BitVec.eq_of_getLsbD_eq
  intro i inside
  rw [BitVec.getLsbD_sshiftRight]
  by_cases below : bits + i < width
  · have shifted := payload_shifted bits payload tag fits i (by omega)
    rw [BitVec.getLsbD_ushiftRight] at shifted
    simp only [if_pos below, shifted, Nat.not_le.mpr inside, decide_false, Bool.not_false,
      Bool.true_and]
  · have top := payload_shifted bits payload tag fits (width - 1 - bits) (by omega)
    rw [BitVec.getLsbD_ushiftRight, show bits + (width - 1 - bits) = width - 1 by omega] at top
    rw [if_neg below, BitVec.msb_eq_getLsbD_last, top, signed (width - 1 - bits) (by omega) (by omega),
      signed i (by omega) inside]
    simp [Nat.not_le.mpr inside]

end Shifted

section Masked

variable (bits : Nat) (payload tag : BitVec width)

def Empty (bits : Nat) (payload : BitVec width) : Prop := ∀ i, i < bits → payload.getLsbD i = false

theorem empty_of_dvd (divides : 2 ^ bits ∣ payload.toNat) : Empty bits payload := by
  intro i low
  obtain ⟨q, multiple⟩ := divides
  unfold BitVec.getLsbD
  rw [multiple, Nat.testBit_two_pow_mul]
  simp [Nat.not_le.mpr low]

theorem masked_of_empty (empty : Empty bits payload) : payload &&& ~~~mask width bits = payload := by
  ext i inside
  by_cases low : i < bits
  · simp [← BitVec.getLsbD_eq_getElem, empty i low]
  · simp [← BitVec.getLsbD_eq_getElem, mask_bit, low, inside]

theorem tag_masked (fits : Fits bits tag) :
    (payload &&& ~~~mask width bits ||| tag) &&& mask width bits = tag := by
  ext i inside
  by_cases low : i < bits
  · simp [mask_bit, inside, low, ← BitVec.getLsbD_eq_getElem]
  · have clear := fits i (Nat.le_of_not_lt low)
    simp [mask_bit, low, clear, ← BitVec.getLsbD_eq_getElem]

theorem payload_masked (fits : Fits bits tag) :
    (payload &&& ~~~mask width bits ||| tag) &&& ~~~mask width bits =
      payload &&& ~~~mask width bits := by
  ext i inside
  by_cases low : i < bits
  · simp [mask_bit, inside, low, ← BitVec.getLsbD_eq_getElem]
  · have clear := fits i (Nat.le_of_not_lt low)
    simp [mask_bit, inside, low, clear, ← BitVec.getLsbD_eq_getElem]

end Masked

section Rejoined

variable (bits : Nat) (word : BitVec width)

theorem masked_rejoined : (word &&& ~~~mask width bits) ||| (word &&& mask width bits) = word := by
  ext i inside
  by_cases low : i < bits
  · simp [mask_bit, inside, low, ← BitVec.getLsbD_eq_getElem]
  · simp [mask_bit, inside, low, ← BitVec.getLsbD_eq_getElem]

theorem shifted_masked : (word >>> bits) <<< bits = word &&& ~~~mask width bits := by
  ext i inside
  by_cases low : i < bits
  · simp [mask_bit, inside, low, ← BitVec.getLsbD_eq_getElem]
  · simp [mask_bit, inside, low, ← BitVec.getLsbD_eq_getElem, Nat.add_sub_cancel' (Nat.le_of_not_lt low)]

theorem sshifted_masked : (word.sshiftRight bits) <<< bits = word &&& ~~~mask width bits := by
  ext i inside
  by_cases low : i < bits
  · simp [mask_bit, inside, low, ← BitVec.getLsbD_eq_getElem]
  · have place : bits + (i - bits) = i := by omega
    simp [mask_bit, inside, low, ← BitVec.getLsbD_eq_getElem, BitVec.getLsbD_sshiftRight, place]
    omega

theorem masked_empty : Empty bits (word &&& ~~~mask width bits) := by
  intro i low
  by_cases inside : i < width
  · simp [mask_bit, inside, low]
  · simp [BitVec.getLsbD_of_ge word i (by omega)]

theorem dvd_of_empty (empty : Empty bits word) : 2 ^ bits ∣ word.toNat := by
  rw [Nat.dvd_iff_mod_eq_zero]
  apply Nat.eq_of_testBit_eq
  intro i
  rw [Nat.testBit_mod_two_pow, Nat.zero_testBit]
  by_cases low : i < bits
  · simp [low, show word.toNat.testBit i = false from empty i low]
  · simp [low]

end Rejoined

theorem field_congr (left right : BitVec width) (start bits : Nat)
    (same : ∀ i, start ≤ i → i < start + bits → left.getLsbD i = right.getLsbD i) :
    (left >>> start) &&& mask width bits = (right >>> start) &&& mask width bits := by
  apply BitVec.eq_of_getLsbD_eq
  intro i inside
  rw [BitVec.getLsbD_and, BitVec.getLsbD_and, BitVec.getLsbD_ushiftRight, BitVec.getLsbD_ushiftRight,
    mask_bit]
  by_cases low : i < bits
  · rw [same (start + i) (Nat.le_add_right _ _) (by omega)]
  · simp [low]

end TaggedWord
