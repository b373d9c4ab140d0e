import ElySquare.Meta.ExBox
import ElySquare.Shared.Align
import ElySquare.Shared.FloatPattern

set_option autoImplicit false

namespace ElySquare.ExBox

open TaggedWord FloatPattern

theorem unboxFlt_boxFloat (v : BitVec 64) : unboxFlt (boxFloat v) = v &&& ptrMask :=
  payload_masked 3 v tagFltnum (fits_of_lt 3 tagFltnum (by decide))

theorem unboxFlt_toNat (v : BitVec 64) : (unboxFlt (boxFloat v)).toNat = truncate 3 v.toNat := by
  rw [unboxFlt_boxFloat, BitVec.toNat_and]
  exact Align.and_high_mask 64 3 v.toNat v.isLt (by decide)

theorem unboxFlt_bit (v : BitVec 64) (i : Nat) (high : 3 ≤ i) :
    (unboxFlt (boxFloat v)).getLsbD i = v.getLsbD i := by
  unfold BitVec.getLsbD
  rw [unboxFlt_toNat, truncate, Nat.mul_comm, Nat.testBit_two_pow_mul, Nat.testBit_div_two_pow,
    Nat.sub_add_cancel high]
  simp [high]

structure KeptFloat (v : BitVec 64) : Prop where
  high : ∀ i, 3 ≤ i → (unboxFlt (boxFloat v)).getLsbD i = v.getLsbD i
  sign : binary64.negative (unboxFlt (boxFloat v)).toNat = binary64.negative v.toNat
  nan : binary64.classOf (unboxFlt (boxFloat v)).toNat = .nan ↔ binary64.classOf v.toNat = .nan
  infinite : binary64.classOf (unboxFlt (boxFloat v)).toNat = .infinite ↔
    binary64.classOf v.toNat = .infinite
  again : boxFloat (unboxFlt (boxFloat v)) = boxFloat v

-- A NaN whose payload is in the bits that the tag takes.
def TaggedNaN (v : BitVec 64) : Prop :=
  binary64.classOf v.toNat = .nan ∧ binary64.mantissa v.toNat < 2 ^ 3

theorem boxFloat_kept (v : BitVec 64) : KeptFloat v ↔ ¬ TaggedNaN v := by
  have low : 3 ≤ binary64.mantissaBits := by decide
  have changed := classOf_truncate v.toNat low
  rw [← unboxFlt_toNat] at changed
  constructor
  · rintro kept ⟨nan, small⟩
    rw [if_pos small, nan] at changed
    exact absurd (changed.symm.trans (kept.nan.mpr nan)) (by decide)
  · intro other
    refine ⟨unboxFlt_bit v, ?_, ?_, ?_, ?_⟩
    · rw [unboxFlt_toNat]
      exact negative_truncate v.toNat low
    · rw [changed]
      split
      next small => exact iff_of_false (Class.bare_nan _) fun nan => other ⟨nan, small⟩
      · exact Iff.rfl
    · rw [changed]
      split
      next small =>
        rw [Class.bare_infinite]
        exact or_iff_left fun nan => other ⟨nan, small⟩
      · exact Iff.rfl
    · rw [unboxFlt_boxFloat]
      exact boxFloat_lossy v

theorem smallest_nan_lost : ¬ KeptFloat 0x7FF0000000000001#64 :=
  fun kept => absurd (kept.nan.mpr (by decide)) (by decide)

end ElySquare.ExBox
