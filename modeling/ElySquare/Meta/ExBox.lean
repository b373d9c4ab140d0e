import ElySquare.Errors
import ElySquare.Shared.TaggedWord

set_option autoImplicit false

namespace ElySquare.ExBox

open TaggedWord

abbrev TaggedValue := BitVec 64

def tagMask : TaggedValue := 7#64

def ptrMask : TaggedValue := ~~~7#64

def tagGCPtr : TaggedValue := 0#64

def tagFixnum : TaggedValue := 1#64

def tagFltnum : TaggedValue := 2#64

def tagBoolScalar : TaggedValue := 3#64

def tagSSOStr : TaggedValue := 4#64

def tagSymbol : TaggedValue := 5#64

def tagRawFFI : TaggedValue := 6#64

def tagNothing : TaggedValue := 7#64

inductive TypeTag
  | gcPtr
  | fixNum
  | fltNum
  | boolOrScalar
  | ssoStr
  | symbol
  | rawOrFFI
  | nothing
deriving DecidableEq, Repr

def TypeTag.ofWord (word : BitVec 64) : TypeTag :=
  match word.toNat with
  | 0 => .gcPtr
  | 1 => .fixNum
  | 2 => .fltNum
  | 3 => .boolOrScalar
  | 4 => .ssoStr
  | 5 => .symbol
  | 6 => .rawOrFFI
  | _ => .nothing

def extractTag (rawValue : TaggedValue) : TypeTag := .ofWord (rawValue &&& tagMask)

def extractGCPointer (rawValue : TaggedValue) : BitVec 64 := rawValue &&& ptrMask

def boxGCPointer (ptr : BitVec 64) : TaggedValue := (ptr &&& ptrMask) ||| tagGCPtr

-- `bits` is the double as its 64 bits.
def boxFloat (bits : BitVec 64) : TaggedValue := (bits &&& ptrMask) ||| tagFltnum

def unboxFlt (rawValue : TaggedValue) : BitVec 64 := rawValue &&& ptrMask

inductive Endian
  | little
  | big
deriving DecidableEq, Repr

def bytesOf (word : BitVec 64) : Nat → BitVec 8 :=
  LittleEndian.write (fun _ => 0#8) 0 8 word.toNat

def ofBytes (memory : Nat → BitVec 8) : BitVec 64 :=
  BitVec.ofNat 64 (LittleEndian.read memory 0 8)

def memcpy (memory : Nat → BitVec 8) (target : Nat) (source : Nat → BitVec 8) (count : Nat) :
    Nat → BitVec 8 := fun x =>
  if target ≤ x ∧ x < target + count then source (x - target) else memory x

def shiftChars (string : Nat → BitVec 8) (length : Nat) (result : TaggedValue) : TaggedValue :=
  (List.range length).foldl
    (fun result i => result ||| ((string i).setWidth 64 <<< (8 + i * 8))) result

-- `none` is the null pointer.
def boxSSO (native : Endian) (string : Option (Nat → BitVec 8)) (length : Nat) : TaggedValue :=
  let length := if length > 7 then 7 else length
  match string with
  | none => tagSSOStr
  | some string =>
    let result := (BitVec.ofNat 64 length <<< 3) ||| tagSSOStr
    match native with
    | .little => ofBytes (memcpy (bytesOf result) 1 string length)
    | .big => shiftChars string length result

def unboxSSOChar (rawValue : TaggedValue) (index : Nat) : BitVec 8 :=
  ((rawValue >>> (8 + index * 8)) &&& 255#64).setWidth 8

-- A length above 7 would read past the word.
def unboxSSOString (native : Endian) (rawValue : TaggedValue) (memory : Nat → BitVec 8)
    (outBuffer : Nat) : Result (Nat → BitVec 8) :=
  let length := ((rawValue >>> 3) &&& 31#64).toNat
  if 7 < length then .error (.invalidAccess 8)
  else
    let memory := match native with
      | .little => memcpy memory outBuffer (fun i => bytesOf rawValue (1 + i)) length
      | .big => memcpy memory outBuffer (fun i => unboxSSOChar rawValue i) length
    .ok fun x => if x = outBuffer + length then 0#8 else memory x

def boxAtom (stringHash : BitVec 32) : TaggedValue := (stringHash.setWidth 64 <<< 3) ||| tagSymbol

def unboxAtom (rawValue : TaggedValue) : BitVec 32 := (rawValue >>> 3).setWidth 32

def boxForeign (rawCPointer : BitVec 64) : TaggedValue := (rawCPointer &&& ptrMask) ||| tagRawFFI

def unboxForeign (rawValue : TaggedValue) : BitVec 64 := rawValue &&& ptrMask

inductive SentinelState
  | null
  | undefined
deriving DecidableEq, Repr

def SentinelState.toWord : SentinelState → BitVec 64
  | .null => 0#64
  | .undefined => 1#64

def makeSentinel (state : SentinelState) : TaggedValue := (state.toWord <<< 3) ||| tagNothing

-- `value` is an int64_t.
def boxFixnum (value : BitVec 64) : TaggedValue := (value <<< 3) ||| tagFixnum

def unboxFixnum (rawValue : TaggedValue) : BitVec 64 := rawValue.sshiftRight 3

def boxBool (value : Bool) : TaggedValue := ((BitVec.ofBool value).setWidth 64 <<< 3) ||| tagBoolScalar

def unboxBool (rawValue : TaggedValue) : Bool := decide ((rawValue >>> 3) &&& 1#64 ≠ 0#64)

def isUndefined (rawValue : TaggedValue) : Bool := decide (rawValue = makeSentinel .undefined)

def isNull (rawValue : TaggedValue) : Bool := decide (rawValue = makeSentinel .null)

inductive Payload
  | gcPointer (ptr : BitVec 64) (aligned : 8 ∣ ptr.toNat)
  | fixnum (value : BitVec 64) (low : -2 ^ 60 ≤ value.toInt) (high : value.toInt < 2 ^ 60)
  | float (bits : BitVec 64) (short : 8 ∣ bits.toNat)
  | bool (value : Bool)
  | string (bytes : List (BitVec 8)) (short : bytes.length ≤ 7)
  | atom (stringHash : BitVec 32)
  | foreign (ptr : BitVec 64) (aligned : 8 ∣ ptr.toNat)
  | sentinel (state : SentinelState)

namespace Payload

def kind : Payload → TypeTag
  | gcPointer _ _ => .gcPtr
  | fixnum _ _ _ => .fixNum
  | float _ _ => .fltNum
  | bool _ => .boolOrScalar
  | string _ _ => .ssoStr
  | atom _ => .symbol
  | foreign _ _ => .rawOrFFI
  | sentinel _ => .nothing

def box (native : Endian) : Payload → TaggedValue
  | gcPointer ptr _ => boxGCPointer ptr
  | fixnum value _ _ => boxFixnum value
  | float bits _ => boxFloat bits
  | bool value => boxBool value
  | string bytes _ => boxSSO native (some fun i => bytes.getD i 0#8) bytes.length
  | atom stringHash => boxAtom stringHash
  | foreign ptr _ => boxForeign ptr
  | sentinel state => makeSentinel state

end Payload

section Strings

variable (string : Nat → BitVec 8) (length : Nat)

def header : BitVec 64 := (BitVec.ofNat 64 length <<< 3) ||| tagSSOStr

theorem header_fits (short : length ≤ 7) : Fits 8 (header length) := by
  have small : ∀ n, n ≤ 7 → (header n).toNat < 2 ^ 8 := by decide
  exact fits_of_lt 8 _ (small length short)

theorem header_fields (short : length ≤ 7) :
    header length &&& tagMask = tagSSOStr ∧ ((header length >>> 3) &&& 31#64).toNat = length := by
  have fields : ∀ n, n ≤ 7 →
    header n &&& tagMask = tagSSOStr ∧ ((header n >>> 3) &&& 31#64).toNat = n := by decide
  exact fields length short

def wordBit (i : Nat) : Bool :=
  if 8 ≤ i ∧ i < 8 + 8 * length then (string (i / 8 - 1)).getLsbD (i % 8)
  else (header length).getLsbD i

theorem ofBytes_bit (memory : Nat → BitVec 8) (i : Nat) (inside : i < 64) :
    (ofBytes memory).getLsbD i = (memory (i / 8)).getLsbD (i % 8) := by
  unfold ofBytes
  rw [BitVec.getLsbD_ofNat, LittleEndian.testBit_read, Nat.zero_add]
  simp [inside]

theorem bytesOf_bit (word : BitVec 64) (x i : Nat) (inside : x < 8) (small : i < 8) :
    (bytesOf word x).getLsbD i = word.getLsbD (8 * x + i) := by
  unfold bytesOf
  rw [LittleEndian.write_bit _ 0 8 word.toNat x i (Nat.zero_le _) (by omega) small, Nat.sub_zero]
  rfl

theorem copied_bit (short : length ≤ 7) (i : Nat) (inside : i < 64) :
    (ofBytes (memcpy (bytesOf (header length)) 1 string length)).getLsbD i =
      wordBit string length i := by
  rw [ofBytes_bit _ i inside]
  unfold memcpy wordBit
  by_cases text : 8 ≤ i ∧ i < 8 + 8 * length
  · rw [if_pos text, if_pos (by omega)]
  · rw [if_neg text, if_neg (by omega), bytesOf_bit _ _ _ (by omega) (by omega)]
    congr 1
    omega

theorem shiftChars_bit (result : TaggedValue) (i : Nat) (inside : i < 64) :
    (shiftChars string length result).getLsbD i = (result.getLsbD i ||
      (decide (8 ≤ i ∧ i < 8 + 8 * length) && (string (i / 8 - 1)).getLsbD (i % 8))) := by
  induction length with
  | zero => simp [shiftChars, show ¬ (8 ≤ i ∧ i < 8 + 8 * 0) by omega]
  | succ n ih =>
      have step : shiftChars string (n + 1) result =
          shiftChars string n result ||| ((string n).setWidth 64 <<< (8 + n * 8)) := by
        unfold shiftChars
        rw [List.range_succ, List.foldl_append]
        rfl
      rw [step, BitVec.getLsbD_or, ih, BitVec.getLsbD_shiftLeft, BitVec.getLsbD_setWidth,
        Bool.or_assoc]
      congr 1
      by_cases last : 8 + 8 * n ≤ i ∧ i < 8 + 8 * (n + 1)
      · have place : i / 8 - 1 = n := by omega
        have rest : i - (8 + n * 8) = i % 8 := by omega
        have now : 8 ≤ i ∧ i < 8 + 8 * (n + 1) := by omega
        have above : ¬ i < 8 + n * 8 := by omega
        have small : i % 8 < 64 := by omega
        simp [place, rest, now, above, inside, small]
      · have same : (8 ≤ i ∧ i < 8 + 8 * (n + 1)) ↔ (8 ≤ i ∧ i < 8 + 8 * n) := by omega
        have none : (decide (i < 64) && !decide (i < 8 + n * 8) &&
            (decide (i - (8 + n * 8) < 64) && (string n).getLsbD (i - (8 + n * 8)))) = false := by
          by_cases below : i < 8 + n * 8
          · simp [below]
          · rw [BitVec.getLsbD_of_ge (string n) _ (by omega)]
            simp
        rw [none, Bool.or_false]
        simp only [same]

theorem shifted_bit (short : length ≤ 7) (i : Nat) (inside : i < 64) :
    (shiftChars string length (header length)).getLsbD i = wordBit string length i := by
  rw [shiftChars_bit string length _ i inside]
  unfold wordBit
  by_cases text : 8 ≤ i ∧ i < 8 + 8 * length
  · rw [if_pos text, header_fits length short i text.1]
    simp [text]
  · rw [if_neg text]
    simp [text]

theorem boxSSO_bit (native : Endian) (short : length ≤ 7) (i : Nat) (inside : i < 64) :
    (boxSSO native (some string) length).getLsbD i = wordBit string length i := by
  unfold boxSSO
  rw [if_neg (Nat.not_lt.mpr short)]
  cases native with
  | little => exact copied_bit string length short i inside
  | big => exact shifted_bit string length short i inside

end Strings

theorem boxSSO_endian (string : Option (Nat → BitVec 8)) (length : Nat) :
    boxSSO .little string length = boxSSO .big string length := by
  cases string with
  | none => rfl
  | some string =>
      have truncated (native : Endian) (long : 7 < length) :
          boxSSO native (some string) length = boxSSO native (some string) 7 := by
        unfold boxSSO
        rw [if_pos long, if_neg (Nat.lt_irrefl 7)]
      by_cases short : length ≤ 7
      · apply BitVec.eq_of_getLsbD_eq
        intro i inside
        rw [boxSSO_bit string length .little short i inside,
          boxSSO_bit string length .big short i inside]
      · rw [truncated .little (by omega), truncated .big (by omega)]
        apply BitVec.eq_of_getLsbD_eq
        intro i inside
        rw [boxSSO_bit string 7 .little (Nat.le_refl 7) i inside,
          boxSSO_bit string 7 .big (Nat.le_refl 7) i inside]

theorem boxSSO_field (native : Endian) (string : Nat → BitVec 8) (length : Nat) (short : length ≤ 7)
    (start bits : Nat) (low : start + bits ≤ 8) :
    (boxSSO native (some string) length >>> start) &&& mask 64 bits =
      (header length >>> start) &&& mask 64 bits := by
  refine field_congr _ _ start bits fun i _ below => ?_
  rw [boxSSO_bit string length native short i (by omega)]
  exact if_neg (by omega)

theorem boxSSO_tag (native : Endian) (string : Nat → BitVec 8) (length : Nat) (short : length ≤ 7) :
    boxSSO native (some string) length &&& tagMask = tagSSOStr := by
  have field := boxSSO_field native string length short 0 3 (by omega)
  rw [BitVec.ushiftRight_zero, BitVec.ushiftRight_zero] at field
  exact field.trans (header_fields length short).1

theorem boxSSO_length (native : Endian) (string : Nat → BitVec 8) (length : Nat)
    (short : length ≤ 7) :
    ((boxSSO native (some string) length >>> 3) &&& 31#64).toNat = length := by
  have field := boxSSO_field native string length short 3 5 (by omega)
  exact (congrArg BitVec.toNat field).trans (header_fields length short).2

theorem boxSSO_char (native : Endian) (string : Nat → BitVec 8) (length : Nat) (short : length ≤ 7)
    (i k : Nat) (inside : i < length) (small : k < 8) :
    (boxSSO native (some string) length).getLsbD (8 * (1 + i) + k) = (string i).getLsbD k := by
  rw [boxSSO_bit string length native short _ (by omega)]
  unfold wordBit
  rw [if_pos (by omega), show (8 * (1 + i) + k) / 8 - 1 = i by omega,
    show (8 * (1 + i) + k) % 8 = k by omega]

theorem unboxSSOChar_boxSSO (native : Endian) (string : Nat → BitVec 8) (length : Nat)
    (short : length ≤ 7) (i : Nat) (inside : i < length) :
    unboxSSOChar (boxSSO native (some string) length) i = string i := by
  apply BitVec.eq_of_getLsbD_eq
  intro k small
  have byte : 255#64 = mask 64 8 := rfl
  have char := boxSSO_char native string length short i k inside small
  unfold unboxSSOChar
  rw [BitVec.getLsbD_setWidth, BitVec.getLsbD_and, BitVec.getLsbD_ushiftRight, byte, mask_bit,
    show 8 + i * 8 + k = 8 * (1 + i) + k by omega, char]
  simp [small, show k < 64 by omega]

theorem bytesOf_boxSSO (native : Endian) (string : Nat → BitVec 8) (length : Nat)
    (short : length ≤ 7) (i : Nat) (inside : i < length) :
    bytesOf (boxSSO native (some string) length) (1 + i) = string i := by
  apply BitVec.eq_of_getLsbD_eq
  intro k small
  rw [bytesOf_bit _ _ _ (by omega) small]
  exact boxSSO_char native string length short i k inside small

theorem memcpy_congr (memory : Nat → BitVec 8) (target : Nat) (left right : Nat → BitVec 8)
    (count : Nat) (same : ∀ i, i < count → left i = right i) :
    memcpy memory target left count = memcpy memory target right count := by
  funext x
  unfold memcpy
  by_cases inside : target ≤ x ∧ x < target + count
  · rw [if_pos inside, if_pos inside, same (x - target) (by omega)]
  · rw [if_neg inside, if_neg inside]

def written (memory : Nat → BitVec 8) (outBuffer : Nat) (string : Nat → BitVec 8) (length : Nat) :
    Nat → BitVec 8 := fun x =>
  if outBuffer ≤ x ∧ x < outBuffer + length then string (x - outBuffer)
  else if x = outBuffer + length then 0#8
  else memory x

theorem unboxSSOString_boxSSO (native : Endian) (string : Nat → BitVec 8) (length : Nat)
    (short : length ≤ 7) (memory : Nat → BitVec 8) (outBuffer : Nat) :
    unboxSSOString native (boxSSO native (some string) length) memory outBuffer =
      .ok (written memory outBuffer string length) := by
  have copied := memcpy_congr memory outBuffer _ string length
    (bytesOf_boxSSO native string length short)
  have moved := memcpy_congr memory outBuffer _ string length
    (unboxSSOChar_boxSSO native string length short)
  have size := boxSSO_length native string length short
  generalize boxSSO native (some string) length = word at *
  have ended : (fun x => if x = outBuffer + length then 0#8 else
      memcpy memory outBuffer string length x) = written memory outBuffer string length := by
    funext x
    unfold memcpy written
    by_cases last : x = outBuffer + length
    · rw [if_pos last, if_neg (by omega), if_pos last]
    · rw [if_neg last, if_neg last]
  unfold unboxSSOString
  rw [size, if_neg (Nat.not_lt.mpr short), ← ended]
  cases native with
  | little => rw [← copied]
  | big => rw [← moved]

namespace Payload

def Recovered (native : Endian) (word : TaggedValue) : Payload → Prop
  | gcPointer ptr _ => extractGCPointer word = ptr
  | fixnum value _ _ => unboxFixnum word = value
  | float bits _ => unboxFlt word = bits
  | bool value => unboxBool word = value
  | string bytes _ =>
      (∀ memory outBuffer, unboxSSOString native word memory outBuffer =
        .ok (written memory outBuffer (fun i => bytes.getD i 0#8) bytes.length)) ∧
      ∀ i (_ : i < bytes.length), unboxSSOChar word i = bytes[i]
  | atom stringHash => unboxAtom word = stringHash
  | foreign ptr _ => unboxForeign word = ptr
  | sentinel state => isNull word = decide (state = .null) ∧
      isUndefined word = decide (state = .undefined)

theorem fits_three (tag : BitVec 64) (small : tag.toNat < 2 ^ 3) : Fits 3 tag := fits_of_lt 3 tag small

theorem tag_of_masked (ptr tag : BitVec 64) (small : tag.toNat < 2 ^ 3) :
    extractTag ((ptr &&& ptrMask) ||| tag) = .ofWord tag :=
  congrArg TypeTag.ofWord (tag_masked 3 ptr tag (fits_three tag small))

theorem tag_of_shifted (payload tag : BitVec 64) (small : tag.toNat < 2 ^ 3) :
    extractTag ((payload <<< 3) ||| tag) = .ofWord tag :=
  congrArg TypeTag.ofWord (tag_shifted 3 payload tag (fits_three tag small))

theorem ptr_of_masked (ptr tag : BitVec 64) (small : tag.toNat < 2 ^ 3) (aligned : 8 ∣ ptr.toNat) :
    ((ptr &&& ptrMask) ||| tag) &&& ptrMask = ptr :=
  (payload_masked 3 ptr tag (fits_three tag small)).trans
    (masked_of_empty 3 ptr (empty_of_dvd 3 ptr aligned))

theorem sentinel_states (state : SentinelState) :
    isNull (makeSentinel state) = decide (state = .null) ∧
      isUndefined (makeSentinel state) = decide (state = .undefined) := by
  cases state <;> decide

theorem extractTag_box (native : Endian) (p : Payload) : extractTag (p.box native) = p.kind := by
  cases p with
  | gcPointer ptr _ => exact tag_of_masked ptr tagGCPtr (by decide)
  | fixnum value _ _ => exact tag_of_shifted value tagFixnum (by decide)
  | float bits _ => exact tag_of_masked bits tagFltnum (by decide)
  | bool value => exact tag_of_shifted _ tagBoolScalar (by decide)
  | string bytes short => exact congrArg TypeTag.ofWord (boxSSO_tag native _ _ short)
  | atom stringHash => exact tag_of_shifted _ tagSymbol (by decide)
  | foreign ptr _ => exact tag_of_masked ptr tagRawFFI (by decide)
  | sentinel state => exact tag_of_shifted _ tagNothing (by decide)

theorem recovered (native : Endian) (p : Payload) : p.Recovered native (p.box native) := by
  cases p with
  | gcPointer ptr aligned => exact ptr_of_masked ptr tagGCPtr (by decide) aligned
  | fixnum value low high =>
      exact signed_shifted 3 value tagFixnum (fits_three _ (by decide)) (by decide)
        (signed_of_range 3 value (by decide) low high)
  | float bits short => exact ptr_of_masked bits tagFltnum (by decide) short
  | bool value =>
      have back : ∀ value, unboxBool (boxBool value) = value := by decide
      exact back value
  | string bytes short =>
      refine ⟨fun memory outBuffer => unboxSSOString_boxSSO native _ _ short memory outBuffer,
        fun i inside => ?_⟩
      exact (unboxSSOChar_boxSSO native _ _ short i inside).trans (by simp [inside])
  | atom stringHash =>
      have small : (stringHash.setWidth 64).toNat < 2 ^ (64 - 3) := by
        have bound := stringHash.isLt
        rw [BitVec.toNat_setWidth]
        omega
      have back := unsigned_shifted 3 (stringHash.setWidth 64) tagSymbol (fits_three _ (by decide)) small
      exact (congrArg (BitVec.setWidth 32) back).trans (by simp)
  | foreign ptr aligned => exact ptr_of_masked ptr tagRawFFI (by decide) aligned
  | sentinel state => exact sentinel_states state

theorem bytes_eq (native : Endian) (left right : List (BitVec 8)) (short : left.length ≤ 7)
    (short' : right.length ≤ 7)
    (same : box native (string left short) = box native (string right short')) : left = right := by
  have length : left.length = right.length := by
    rw [← boxSSO_length native (fun i => left.getD i 0#8) left.length short,
      ← boxSSO_length native (fun i => right.getD i 0#8) right.length short']
    exact congrArg (fun word : BitVec 64 => ((word >>> 3) &&& 31#64).toNat) same
  refine List.ext_getElem length fun i inside inside' => ?_
  rw [← (recovered native (string left short)).2 i inside,
    ← (recovered native (string right short')).2 i inside', same]

theorem payload_eq (native : Endian) (p q : Payload) (kinds : p.kind = q.kind)
    (same : p.box native = q.box native) : p = q := by
  have back := recovered native p
  have back' := recovered native q
  rw [← same] at back'
  cases p with
  | gcPointer ptr _ =>
      cases q with
      | gcPointer ptr' _ =>
          obtain rfl : ptr = ptr' := back.symm.trans back'
          rfl
      | _ => cases kinds
  | fixnum value _ _ =>
      cases q with
      | fixnum value' _ _ =>
          obtain rfl : value = value' := back.symm.trans back'
          rfl
      | _ => cases kinds
  | float bits _ =>
      cases q with
      | float bits' _ =>
          obtain rfl : bits = bits' := back.symm.trans back'
          rfl
      | _ => cases kinds
  | bool value =>
      cases q with
      | bool value' =>
          obtain rfl : value = value' := back.symm.trans back'
          rfl
      | _ => cases kinds
  | string bytes short =>
      cases q with
      | string bytes' short' =>
          obtain rfl := bytes_eq native bytes bytes' short short' same
          rfl
      | _ => cases kinds
  | atom stringHash =>
      cases q with
      | atom stringHash' =>
          obtain rfl : stringHash = stringHash' := back.symm.trans back'
          rfl
      | _ => cases kinds
  | foreign ptr _ =>
      cases q with
      | foreign ptr' _ =>
          obtain rfl : ptr = ptr' := back.symm.trans back'
          rfl
      | _ => cases kinds
  | sentinel state =>
      cases q with
      | sentinel state' =>
          have null := back.1.symm.trans back'.1
          cases state <;> cases state' <;> first | rfl | cases null
      | _ => cases kinds

theorem box_injective (native : Endian) (p q : Payload) : p.box native = q.box native ↔ p = q := by
  refine ⟨fun same => payload_eq native p q ?_ same, congrArg _⟩
  rw [← extractTag_box native p, same, extractTag_box native q]

theorem isNull_box (native : Endian) (p : Payload) :
    isNull (p.box native) = true ↔ p = .sentinel .null := by
  rw [← box_injective native p (.sentinel .null)]
  exact decide_eq_true_iff

theorem isUndefined_box (native : Endian) (p : Payload) :
    isUndefined (p.box native) = true ↔ p = .sentinel .undefined := by
  rw [← box_injective native p (.sentinel .undefined)]
  exact decide_eq_true_iff

end Payload

-- A double loses its last three bits.
theorem boxFloat_lossy (bits : BitVec 64) : boxFloat (bits &&& ptrMask) = boxFloat bits := by
  unfold boxFloat
  rw [BitVec.and_assoc, BitVec.and_self]

theorem tagged_codec (native : Endian) :
    (∀ p : Payload, extractTag (p.box native) = p.kind ∧ p.Recovered native (p.box native) ∧
      (isNull (p.box native) = true ↔ p = .sentinel .null) ∧
      (isUndefined (p.box native) = true ↔ p = .sentinel .undefined)) ∧
    (∀ p q : Payload, p.box native = q.box native ↔ p = q) ∧
    ∀ string length, boxSSO .little string length = boxSSO .big string length :=
  ⟨fun p => ⟨p.extractTag_box native, p.recovered native, p.isNull_box native, p.isUndefined_box native⟩,
    Payload.box_injective native, boxSSO_endian⟩

end ElySquare.ExBox
