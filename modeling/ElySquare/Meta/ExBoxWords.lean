import ElySquare.Meta.ExBox

set_option autoImplicit false

namespace ElySquare.ExBox

open TaggedWord

def getTypeTagByTag (tag : BitVec 8) : TypeTag := .ofWord (tag.setWidth 64 &&& tagMask)

def isGCPointer (rawValue : TaggedValue) : Bool := decide (rawValue &&& tagMask = tagGCPtr)

inductive Boxing
  | gcPointer (ptr : BitVec 64)
  | fixnum (value : BitVec 64)
  | float (bits : BitVec 64)
  | bool (value : Bool)
  | string (string : Option (Nat → BitVec 8)) (length : Nat)
  | atom (stringHash : BitVec 32)
  | foreign (rawCPointer : BitVec 64)
  | sentinel (state : SentinelState)

def Boxing.word (native : Endian) : Boxing → TaggedValue
  | gcPointer ptr => boxGCPointer ptr
  | fixnum value => boxFixnum value
  | float bits => boxFloat bits
  | bool value => boxBool value
  | string text length => boxSSO native text length
  | atom stringHash => boxAtom stringHash
  | foreign rawCPointer => boxForeign rawCPointer
  | sentinel state => makeSentinel state

theorem aligned_masked (ptr : BitVec 64) : 8 ∣ (ptr &&& ptrMask).toNat :=
  dvd_of_empty 3 _ (masked_empty 3 ptr)

theorem fixnum_range (word : BitVec 64) :
    -2 ^ 60 ≤ (word.sshiftRight 3).toInt ∧ (word.sshiftRight 3).toInt < 2 ^ 60 := by
  have low := BitVec.le_toInt word
  have high := BitVec.toInt_lt (x := word)
  rw [BitVec.toInt_sshiftRight, Int.shiftRight_eq_div_pow]
  omega

def firstChars (chars : Nat → BitVec 8) (length : Nat) : Payload :=
  .string ((List.range (min 7 length)).map chars)
    (by rw [List.length_map, List.length_range]; exact Nat.min_le_left ..)

def textLength (rawValue : TaggedValue) : Nat := ((rawValue >>> 3) &&& 31#64).toNat

def payloadOf (rawValue : TaggedValue) : Payload :=
  match extractTag rawValue with
  | .gcPtr => .gcPointer (extractGCPointer rawValue) (aligned_masked rawValue)
  | .fixNum => .fixnum (unboxFixnum rawValue) (fixnum_range rawValue).1 (fixnum_range rawValue).2
  | .fltNum => .float (unboxFlt rawValue) (aligned_masked rawValue)
  | .boolOrScalar => .bool (unboxBool rawValue)
  | .ssoStr => firstChars (unboxSSOChar rawValue) (textLength rawValue)
  | .symbol => .atom (unboxAtom rawValue)
  | .rawOrFFI => .foreign (unboxForeign rawValue) (aligned_masked rawValue)
  | .nothing => .sentinel (if isUndefined rawValue then .undefined else .null)

def Boxing.kept : Boxing → Payload
  | gcPointer ptr => .gcPointer (ptr &&& ptrMask) (aligned_masked ptr)
  | fixnum value => .fixnum ((value <<< 3).sshiftRight 3) (fixnum_range _).1 (fixnum_range _).2
  | float bits => .float (bits &&& ptrMask) (aligned_masked bits)
  | bool value => .bool value
  | string none _ => .string [] (by simp)
  | string (some text) length => firstChars text length
  | atom stringHash => .atom stringHash
  | foreign rawCPointer => .foreign (rawCPointer &&& ptrMask) (aligned_masked rawCPointer)
  | sentinel state => .sentinel state

def WellFormed (word : TaggedValue) : Prop :=
  match extractTag word with
  | .gcPtr | .fixNum | .fltNum | .rawOrFFI => True
  | .boolOrScalar | .nothing => (word >>> 3).toNat < 2
  | .symbol => (word >>> 3).toNat < 2 ^ 32
  | .ssoStr => textLength word ≤ 7 ∧ word >>> (8 + 8 * textLength word) = 0#64

instance (word : TaggedValue) : Decidable (WellFormed word) := by
  unfold WellFormed
  split <;> infer_instance

section Kinds

def TypeTag.toWord : TypeTag → BitVec 64
  | gcPtr => tagGCPtr
  | fixNum => tagFixnum
  | fltNum => tagFltnum
  | boolOrScalar => tagBoolScalar
  | ssoStr => tagSSOStr
  | symbol => tagSymbol
  | rawOrFFI => tagRawFFI
  | nothing => tagNothing

variable {word : TaggedValue} {kind : TypeTag}

theorem tag_of_kind (found : extractTag word = kind) : word &&& tagMask = kind.toWord := by
  have tags : ∀ n < 8, (TypeTag.ofWord (BitVec.ofNat 64 n)).toWord = BitVec.ofNat 64 n := by decide
  have small : (word &&& tagMask).toNat < 8 := by
    rw [BitVec.toNat_and]
    exact Nat.lt_of_le_of_lt Nat.and_le_right (by decide)
  have back := tags _ small
  rw [BitVec.ofNat_toNat, BitVec.setWidth_eq] at back
  rw [← found, extractTag, back]

theorem masked_back (found : extractTag word = kind) :
    ((word &&& ptrMask) &&& ptrMask) ||| kind.toWord = word := by
  rw [BitVec.and_assoc, BitVec.and_self, ← tag_of_kind found]
  exact masked_rejoined 3 word

theorem shifted_back (found : extractTag word = kind) : (word >>> 3) <<< 3 ||| kind.toWord = word := by
  rw [shifted_masked, ← tag_of_kind found]
  exact masked_rejoined 3 word

theorem sshifted_back (found : extractTag word = kind) :
    (word.sshiftRight 3) <<< 3 ||| kind.toWord = word := by
  rw [sshifted_masked, ← tag_of_kind found]
  exact masked_rejoined 3 word

theorem getTypeTagByTag_low (word : TaggedValue) : getTypeTagByTag (word.setWidth 8) = extractTag word := by
  have low : (word.setWidth 8).setWidth 64 &&& mask 64 3 = word &&& mask 64 3 := by
    ext i inside
    by_cases below : i < 3
    · simp [← BitVec.getLsbD_eq_getElem, inside, show i < 8 by omega]
    · simp [← BitVec.getLsbD_eq_getElem, mask_bit, below]
  exact congrArg TypeTag.ofWord low

theorem isGCPointer_iff (word : TaggedValue) : isGCPointer word = true ↔ extractTag word = .gcPtr := by
  unfold isGCPointer
  rw [decide_eq_true_iff]
  refine ⟨fun clear => ?_, fun found => tag_of_kind found⟩
  rw [extractTag, clear]
  rfl

theorem payloadOf_kind (word : TaggedValue) : (payloadOf word).kind = extractTag word := by
  unfold payloadOf
  cases extractTag word <;> rfl

theorem bit_back (found : extractTag word = kind) (small : (word >>> 3).toNat < 2) :
    word = kind.toWord ∨ word = 8#64 ||| kind.toWord := by
  have back := shifted_back found
  have bit : word >>> 3 = 0#64 ∨ word >>> 3 = 1#64 := by
    have one : (word >>> 3).toNat = 0 ∨ (word >>> 3).toNat = 1 := by omega
    exact one.imp BitVec.eq_of_toNat_eq BitVec.eq_of_toNat_eq
  rcases bit with none | one
  · rw [none] at back
    exact .inl (by rw [← back]; simp)
  · rw [one] at back
    exact .inr back.symm

end Kinds

section Strings

variable (native : Endian) (chars : Nat → BitVec 8) (length : Nat)

theorem boxSSO_min : boxSSO native (some chars) length = boxSSO native (some chars) (min 7 length) := by
  by_cases long : length > 7
  · rw [Nat.min_eq_left (Nat.le_of_lt long)]
    unfold boxSSO
    rw [if_pos long, if_neg (Nat.lt_irrefl 7)]
  · rw [Nat.min_eq_right (Nat.le_of_not_lt long)]

theorem boxSSO_congr (left right : Nat → BitVec 8) (short : length ≤ 7)
    (same : ∀ i < length, left i = right i) :
    boxSSO native (some left) length = boxSSO native (some right) length := by
  apply BitVec.eq_of_getLsbD_eq
  intro i inside
  rw [boxSSO_bit left length native short i inside, boxSSO_bit right length native short i inside]
  unfold wordBit
  by_cases text : 8 ≤ i ∧ i < 8 + 8 * length
  · rw [if_pos text, if_pos text, same (i / 8 - 1) (by omega)]
  · rw [if_neg text, if_neg text]

theorem box_firstChars : (firstChars chars length).box native = boxSSO native (some chars) length := by
  have short : min 7 length ≤ 7 := Nat.min_le_left ..
  rw [boxSSO_min]
  simp only [firstChars, Payload.box, List.length_map, List.length_range]
  refine boxSSO_congr native _ _ _ short fun i inside => ?_
  rw [List.getD_eq_getElem?_getD, List.getElem?_map, List.getElem?_range inside]
  rfl

theorem unboxSSOChar_bit (word : TaggedValue) (i k : Nat) (small : k < 8) :
    (unboxSSOChar word i).getLsbD k = word.getLsbD (8 + i * 8 + k) := by
  have byte : 255#64 = mask 64 8 := rfl
  unfold unboxSSOChar
  rw [BitVec.getLsbD_setWidth, BitVec.getLsbD_and, BitVec.getLsbD_ushiftRight, byte, mask_bit]
  simp [small, show k < 64 by omega]

theorem header_bit {word : TaggedValue} (found : extractTag word = .ssoStr) (i : Nat) (low : i < 8) :
    (header (textLength word)).getLsbD i = word.getLsbD i := by
  have field : BitVec.ofNat 64 (textLength word) = (word >>> 3) &&& mask 64 5 := by
    rw [textLength, BitVec.ofNat_toNat, BitVec.setWidth_eq]
    rfl
  have tag : word &&& mask 64 3 = tagSSOStr := tag_of_kind found
  unfold header
  rw [field, ← tag, BitVec.getLsbD_or, BitVec.getLsbD_shiftLeft, BitVec.getLsbD_and,
    BitVec.getLsbD_ushiftRight, BitVec.getLsbD_and, mask_bit, mask_bit]
  by_cases below : i < 3
  · simp [below, show i < 64 by omega]
  · have place : 3 + (i - 3) = i := by omega
    simp [below, place, show i < 64 by omega, show i - 3 < 64 by omega, show i - 3 < 5 by omega]

theorem string_back {word : TaggedValue} (found : extractTag word = .ssoStr)
    (short : textLength word ≤ 7) (rest : word >>> (8 + 8 * textLength word) = 0#64) :
    boxSSO native (some (unboxSSOChar word)) (textLength word) = word := by
  apply BitVec.eq_of_getLsbD_eq
  intro i inside
  rw [boxSSO_bit _ _ native short i inside]
  unfold wordBit
  by_cases text : 8 ≤ i ∧ i < 8 + 8 * textLength word
  · rw [if_pos text, unboxSSOChar_bit word _ _ (Nat.mod_lt _ (by decide))]
    congr 1
    omega
  · rw [if_neg text]
    by_cases low : i < 8
    · exact header_bit found i low
    · -- nothing stands after the characters
      have clear : (word >>> (8 + 8 * textLength word)).getLsbD (i - (8 + 8 * textLength word)) = false := by
        rw [rest, BitVec.getLsbD_zero]
      rw [BitVec.getLsbD_ushiftRight, Nat.add_sub_cancel' (by omega)] at clear
      rw [clear, header_fits _ short i (Nat.le_of_not_lt low)]

theorem boxSSO_ends (short : length ≤ 7) :
    boxSSO native (some chars) length >>> (8 + 8 * length) = 0#64 := by
  apply BitVec.eq_of_getLsbD_eq
  intro i _
  rw [BitVec.getLsbD_ushiftRight, BitVec.getLsbD_zero]
  by_cases inside : 8 + 8 * length + i < 64
  · rw [boxSSO_bit _ _ native short _ inside]
    unfold wordBit
    rw [if_neg (by omega)]
    exact header_fits _ short _ (by omega)
  · exact BitVec.getLsbD_of_ge _ _ (Nat.le_of_not_lt inside)

end Strings

section Words

variable (native : Endian)

theorem Boxing.word_eq (call : Boxing) : call.word native = call.kept.box native := by
  cases call with
  | gcPointer ptr =>
      simp only [word, kept, Payload.box, boxGCPointer]
      rw [BitVec.and_assoc, BitVec.and_self]
  | fixnum value =>
      have whole : (value <<< 3) &&& ptrMask = value <<< 3 := by
        apply masked_of_empty 3
        intro i low
        simp [low]
      simp only [word, kept, Payload.box, boxFixnum]
      rw [sshifted_masked 3 (value <<< 3)]
      exact congrArg (· ||| tagFixnum) whole.symm
  | float bits => exact (boxFloat_lossy bits).symm
  | bool value => rfl
  | string text length =>
      cases text with
      | none => cases native <;> rfl
      | some text => exact (box_firstChars native text length).symm
  | atom stringHash => rfl
  | foreign rawCPointer =>
      simp only [word, kept, Payload.box, boxForeign]
      rw [BitVec.and_assoc, BitVec.and_self]
  | sentinel state => rfl

theorem Payload.box_wellFormed (p : Payload) : WellFormed (p.box native) := by
  have tag := p.extractTag_box native
  unfold WellFormed
  rw [tag]
  cases p with
  | gcPointer ptr aligned => trivial
  | fixnum value low high => trivial
  | float bits short => trivial
  | bool value =>
      have small : ∀ value, (boxBool value >>> 3).toNat < 2 := by decide
      exact small value
  | string bytes short =>
      have size := boxSSO_length native (fun i => bytes.getD i 0#8) bytes.length short
      have length : textLength (box native (string bytes short)) = bytes.length := size
      refine ⟨by rw [length]; exact short, ?_⟩
      rw [length]
      exact boxSSO_ends native _ _ short
  | atom stringHash =>
      have back := recovered native (.atom stringHash)
      have bound := stringHash.isLt
      have small : (stringHash.setWidth 64).toNat < 2 ^ (64 - 3) := by
        rw [BitVec.toNat_setWidth]
        omega
      simp only [kind, Payload.box, boxAtom]
      rw [unsigned_shifted 3 _ tagSymbol (fits_three _ (by decide)) small, BitVec.toNat_setWidth]
      omega
  | foreign ptr aligned => trivial
  | sentinel state =>
      have small : ∀ state, (makeSentinel state >>> 3).toNat < 2 := by
        intro state
        cases state <;> decide
      exact small state

theorem box_payloadOf (word : TaggedValue) : (payloadOf word).box native = word ↔ WellFormed word := by
  refine ⟨fun same => same ▸ (payloadOf word).box_wellFormed native, fun formed => ?_⟩
  unfold WellFormed at formed
  unfold payloadOf
  cases found : extractTag word with
  | gcPtr => exact masked_back found
  | fixNum => exact sshifted_back found
  | fltNum => exact masked_back found
  | boolOrScalar =>
      rw [found] at formed
      have back : boxBool (unboxBool word) = word := by
        rcases bit_back found formed with rfl | rfl <;> decide
      exact back
  | ssoStr =>
      rw [found] at formed
      dsimp only
      rw [box_firstChars]
      exact string_back native found formed.1 formed.2
  | symbol =>
      rw [found] at formed
      have whole : ((word >>> 3).setWidth 32).setWidth 64 = word >>> 3 := by
        apply BitVec.eq_of_toNat_eq
        rw [BitVec.toNat_setWidth, BitVec.toNat_setWidth, Nat.mod_eq_of_lt formed]
        exact Nat.mod_eq_of_lt (word >>> 3).isLt
      simp only [Payload.box, boxAtom, unboxAtom]
      rw [whole]
      exact shifted_back found
  | rawOrFFI => exact masked_back found
  | nothing =>
      rw [found] at formed
      have back : makeSentinel (if isUndefined word then .undefined else .null) = word := by
        rcases bit_back found formed with rfl | rfl <;> decide
      exact back

theorem Payload.boxed (p : Payload) : ∃ call : Boxing, call.word native = p.box native := by
  cases p with
  | gcPointer ptr _ => exact ⟨.gcPointer ptr, rfl⟩
  | fixnum value _ _ => exact ⟨.fixnum value, rfl⟩
  | float bits _ => exact ⟨.float bits, rfl⟩
  | bool value => exact ⟨.bool value, rfl⟩
  | string bytes _ => exact ⟨.string (some fun i => bytes.getD i 0#8) bytes.length, rfl⟩
  | atom stringHash => exact ⟨.atom stringHash, rfl⟩
  | foreign ptr _ => exact ⟨.foreign ptr, rfl⟩
  | sentinel state => exact ⟨.sentinel state, rfl⟩

theorem boxed_words :
    (∀ call : Boxing, call.word native = call.kept.box native) ∧
    (∀ p : Payload, payloadOf (p.box native) = p) ∧
    ∀ word, (WellFormed word ↔ ∃ call : Boxing, call.word native = word) ∧
      (WellFormed word ↔ (payloadOf word).box native = word) ∧
      getTypeTagByTag (word.setWidth 8) = (payloadOf word).kind ∧
      (isGCPointer word = true ↔ (payloadOf word).kind = .gcPtr) := by
  refine ⟨Boxing.word_eq native, fun p => ?_, fun word => ⟨⟨fun formed => ?_, ?_⟩,
    (box_payloadOf native word).symm, ?_, ?_⟩⟩
  · rw [← Payload.box_injective native, box_payloadOf]
    exact p.box_wellFormed native
  · rw [← (box_payloadOf native word).mpr formed]
    exact (payloadOf word).boxed native
  · rintro ⟨call, rfl⟩
    rw [call.word_eq]
    exact call.kept.box_wellFormed native
  · rw [payloadOf_kind, getTypeTagByTag_low]
  · rw [payloadOf_kind, isGCPointer_iff]

end Words

-- A short string whose length says more than seven characters.
example : ¬ WellFormed 0x44#64 := by decide

end ElySquare.ExBox
