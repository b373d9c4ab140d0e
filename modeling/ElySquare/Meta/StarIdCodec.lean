import ElySquare.Meta.StarIdNames

set_option autoImplicit false

namespace ElySquare

section Index

structure Indexes (stack : List Byte) (num : Nat) : Prop where
  id : numToStarId stack num = .ok (stringFlags.starIdStarMask ||| BitVec.ofNat 32 num)
  back : ∀ id, numToStarId stack num = .ok id → starIdToNum id = num

structure Faithful (stack : List Byte) (num : Nat) : Prop extends Indexes stack num where
  own : ∀ stack', numToStarId stack' num = numToStarId stack num

-- What follows the buffer has a NUL, and the characters before it leave the number as it is.
def Neutral (stack : List Byte) (num : Nat) : Prop :=
  ∃ junk rest, stack = junk ++ 0#8 :: rest ∧ 0#8 ∉ junk ∧
    (num * 36 ^ junk.length + starValue 0 junk) % 2 ^ 16 = num

theorem starValue_eq (text : List Byte) (num : Nat) :
    starValue num text = num * 36 ^ text.length + starValue 0 text := by
  induction text generalizing num with
  | nil => simp [starValue]
  | cons c text ih =>
      have step (n : Nat) : starValue n (c :: text) = starValue (n * 36 + starDigit c) text := rfl
      rw [step num, step 0, ih (num * 36 + starDigit c), ih (0 * 36 + starDigit c), List.length_cons,
        Nat.pow_succ', Nat.zero_mul, Nat.zero_add, Nat.add_mul, Nat.mul_assoc, Nat.add_assoc]

-- The characters that are read, those after the buffer among them.
theorem numToStarId_junk (num : Nat) (small : num < 2 ^ 16) (junk rest : List Byte)
    (free : 0#8 ∉ junk) : numToStarId (junk ++ 0#8 :: rest) num =
      .ok (starIdOf ((num * 36 ^ junk.length + starValue 0 junk) % 2 ^ 16)) := by
  rw [numToStarId_eq _ num small, starNumber_value junk rest free num small, Result.ok_bind,
    starValue_eq]

theorem numToStarId_split (stack : List Byte) (num : Nat) (small : num < 2 ^ 16) (id : Atom)
    (named : numToStarId stack num = .ok id) :
    ∃ junk rest, stack = junk ++ 0#8 :: rest ∧ 0#8 ∉ junk := by
  have ended : 0#8 ∈ stack := by
    by_contra free
    rw [numToStarId_eq _ num small] at named
    obtain ⟨n, read, _⟩ := (Result.bind_ok _ _ _).mp named
    clear named
    induction stack generalizing num with
    | nil => cases read
    | cons c stack ih =>
        have notEnd : c ≠ 0#8 := fun nul => free (nul ▸ List.mem_cons_self)
        rw [starNumber, if_neg notEnd] at read
        exact ih _ (Nat.mod_lt _ (by decide)) (fun inside => free (List.mem_cons_of_mem _ inside)) read
  obtain ⟨junk, rest, split, free⟩ := List.eq_append_cons_of_mem ended
  exact ⟨junk, rest, split, free⟩

theorem indexes_iff (stack : List Byte) (num : Nat) (small : num < 2 ^ 16) :
    Indexes stack num ↔ Neutral stack num := by
  constructor
  · intro indexes
    obtain ⟨junk, rest, rfl, free⟩ := numToStarId_split stack num small _ indexes.id
    refine ⟨junk, rest, rfl, free, ?_⟩
    have back := indexes.back _ (numToStarId_junk num small junk rest free)
    rwa [starIdToNum_starIdOf _ (Nat.mod_lt _ (by decide))] at back
  · rintro ⟨junk, rest, rfl, free, same⟩
    have named := numToStarId_junk num small junk rest free
    rw [same] at named
    refine ⟨named, fun id named' => ?_⟩
    obtain rfl := Except.ok.inj (named.symm.trans named')
    exact starIdToNum_starIdOf num small

theorem numToStarId_unsteady (num : Nat) (small : num < 2 ^ 16) :
    numToStarId [byteOf '1', 0#8] num ≠ numToStarId [byteOf '2', 0#8] num := by
  have one := numToStarId_junk num small [byteOf '1'] [] (by decide)
  have two := numToStarId_junk num small [byteOf '2'] [] (by decide)
  have digits : starValue 0 [byteOf '1'] = 1 ∧ starValue 0 [byteOf '2'] = 2 := by decide
  rw [digits.1] at one
  rw [digits.2] at two
  intro same
  have ids := Except.ok.inj ((one.symm.trans same).trans two)
  have nums := congrArg starIdToNum ids
  rw [starIdToNum_starIdOf _ (Nat.mod_lt _ (by decide)), starIdToNum_starIdOf _ (Nat.mod_lt _ (by decide))]
    at nums
  simp only [List.length_singleton, Nat.pow_one] at nums
  omega

theorem index_round_trip (stack : List Byte) (num : Nat) (small : num < 2 ^ 16) :
    ¬ Faithful stack num ∧ (Indexes stack num ↔ Neutral stack num) ∧
      ∀ stack' num', num' < 2 ^ 16 → Neutral stack num → Neutral stack' num' → num ≠ num' →
        numToStarId stack num ≠ numToStarId stack' num' := by
  refine ⟨fun faithful => ?_, indexes_iff stack num small, fun stack' num' small' neutral neutral' apart same => ?_⟩
  · exact numToStarId_unsteady num small ((faithful.own _).trans (faithful.own _).symm)
  · have indexes := (indexes_iff stack num small).mpr neutral
    have indexes' := (indexes_iff stack' num' small').mpr neutral'
    exact apart ((indexes.back _ indexes.id).symm.trans (indexes'.back _ (same ▸ indexes.id)))

theorem index_round_trip_five : ¬ Faithful [0#8] 5 ∧ (Indexes [0#8] 5 ↔ Neutral [0#8] 5) ∧
    ∀ stack' num', num' < 2 ^ 16 → Neutral [0#8] 5 → Neutral stack' num' → 5 ≠ num' →
      numToStarId [0#8] 5 ≠ numToStarId stack' num' :=
  index_round_trip [0#8] 5 (by decide)

-- With the digit 1 after the buffer, index 5 gets the id of index 181.
theorem index_reads_on : numToStarId [byteOf '1', 0#8] 5 = .ok 0x800000B5#32 ∧
    numToStarId [0#8] 5 = .ok 0x80000005#32 ∧ ¬ Indexes [byteOf '1', 0#8] 5 ∧ ¬ Faithful [0#8] 5 := by
  have one : numToStarId [byteOf '1', 0#8] 5 = .ok 0x800000B5#32 := by decide
  have nul : numToStarId [0#8] 5 = .ok 0x80000005#32 := by decide
  refine ⟨one, nul, fun indexes => ?_, fun faithful => ?_⟩
  · exact absurd (one.symm.trans indexes.id) (by decide)
  · exact absurd (one.symm.trans ((faithful.own _).trans nul)) (by decide)

end Index

section Form

structure Stable (text : List Byte) (a : Atom) (out : List Byte) : Prop where
  ended : ∃ form rest, out = form ++ 0#8 :: rest ∧ 0#8 ∉ form
  again : charToAtom (some out) = .ok a
  star : out.head? = some (byteOf '*') ↔ text.head? = some (byteOf '*')

theorem starDigits_length (idx n : Nat) : (starDigits idx n).length = idx := by
  induction idx generalizing n with
  | zero => rfl
  | succ idx ih =>
      rw [starDigits]
      split
      · rw [List.length_append, ih, List.length_singleton]
      · rw [List.length_append, List.length_replicate, List.length_singleton]

theorem starDigits_free (idx n : Nat) : 0#8 ∉ starDigits idx n := by
  induction idx generalizing n with
  | zero => exact List.not_mem_nil
  | succ idx ih =>
      have digit := (starIDCharset_digit (n % 36) (Nat.mod_lt _ (by decide))).2
      rw [starDigits]
      split
      · simpa using ⟨ih (n / 36), digit.symm⟩
      · simpa using ⟨fun _ => by decide, digit.symm⟩

theorem putBytes_ok (before middle after bytes : List Byte) (same : bytes.length = middle.length) :
    putBytes (before ++ middle ++ after) before.length bytes = .ok (before ++ bytes ++ after) := by
  rw [putBytes, if_pos (by simp [same]), same, List.append_assoc before middle after, List.take_left,
    ← List.append_assoc before middle after, ← List.length_append, List.drop_left]

theorem buffer_split (buffer : List Byte) (count : Nat) (room : count < buffer.length) :
    ∃ front last, front.length = count ∧ buffer = front ++ last :: buffer.drop (count + 1) := by
  refine ⟨buffer.take count, buffer[count], List.length_take_of_le (Nat.le_of_lt room), ?_⟩
  rw [← List.drop_eq_getElem_cons room, List.take_append_drop]

theorem atomToBufferChar_stars (a : Atom) (buffer : List Byte) (bufferSize : Nat) (whole : a ≠ brokenAtom)
    (star : a &&& stringFlags.starIdStarMask ≠ 0#32) (room : 8 ≤ buffer.length) :
    atomToBufferChar a buffer bufferSize =
      .ok (byteOf '*' :: starDigits 6 (starIdToNum a) ++ 0#8 :: buffer.drop 8) := by
  obtain ⟨front, b₇, seven, split⟩ := buffer_split buffer 7 room
  obtain ⟨b₀, six, rfl⟩ := List.exists_cons_of_length_eq_add_one seven
  have long : six.length = 6 := by simpa using seven
  generalize buffer.drop 8 = rest at *
  subst split
  have first := putBytes_ok [] [b₀] (six ++ b₇ :: rest) [byteOf '*'] rfl
  have last := putBytes_ok (byteOf '*' :: six) [b₇] rest [0#8] rfl
  have digits := putBytes_ok [byteOf '*'] six (0#8 :: rest) (starDigits 6 (starIdToNum a))
    ((starDigits_length 6 _).trans long.symm)
  simp only [List.nil_append, List.cons_append, List.append_assoc, List.length_nil, List.length_cons,
    Nat.zero_add, Nat.reduceAdd, long] at first last digits
  rw [atomToBufferChar, if_neg whole, if_pos star]
  unfold starIdToNum at *
  simp only [first, last, digits, Result.ok_bind, List.cons_append]

theorem starIdOf_star (n : Nat) : starIdOf n &&& stringFlags.starIdStarMask ≠ 0#32 := by
  intro none
  have bit := congrArg (fun atom => atom.getLsbD 31) none
  simp only [BitVec.getLsbD_and, starIdOf, BitVec.getLsbD_or] at bit
  exact absurd bit (by simp [stringFlags.starIdStarMask])

theorem atomToBufferChar_star (n : Nat) (small : n < 2 ^ 16) (buffer : List Byte)
    (eight : buffer.length = 8) :
    atomToBufferChar (starIdOf n) buffer 8 = .ok (byteOf '*' :: starDigits 6 n ++ [0#8]) := by
  rw [atomToBufferChar_stars _ buffer 8 (starIdOf_ne_broken n small) (starIdOf_star n) (Nat.le_of_eq eight.symm),
    starIdToNum_starIdOf n small, List.drop_of_length_le (Nat.le_of_eq eight)]

theorem atomToBufferChar_short (a : Atom) (buffer : List Byte) (bufferSize : Nat) (whole : a ≠ brokenAtom)
    (sso : a &&& stringFlags.starIdStarMask = 0#32) (some : 5 ≤ bufferSize) (word : bufferSize < 2 ^ 64)
    (room : 5 ≤ buffer.length) :
    atomToBufferChar a buffer bufferSize = .ok (atomBytes a ++ 0#8 :: buffer.drop 5) := by
  obtain ⟨front, b₄, four, split⟩ := buffer_split buffer 4 room
  generalize buffer.drop 5 = rest at *
  subst split
  have bytes := putBytes_ok [] front (b₄ :: rest) (atomBytes a) four.symm
  have last := putBytes_ok (atomBytes a) [b₄] rest [0#8] rfl
  have count : min 4 ((bufferSize + (2 ^ 64 - 1)) % 2 ^ 64) = 4 := by omega
  have all : (atomBytes a).take 4 = atomBytes a := rfl
  have length : (atomBytes a).length = 4 := rfl
  simp only [List.nil_append, List.append_assoc, List.length_nil, List.singleton_append, length] at bytes last
  rw [atomToBufferChar, if_neg whole, if_neg (not_not.mpr sso)]
  simp only [count, all, bytes, last, Result.ok_bind]

theorem atomBytes_packed (text : List Byte) : atomBytes (packed text) =
    [text.getD 0 0#8, text.getD 1 0#8, text.getD 2 0#8, text.getD 3 0#8 &&& 127#8] := by
  have low : ∀ i < 8, (127#8).getLsbD i = decide (i ≠ 7) := by decide
  have byte (k : Nat) (few : k < 3) :
      (packed text).extractLsb' (8 * k) 8 = text.getD k 0#8 := by
    refine BitVec.eq_of_getLsbD_eq fun i small => ?_
    rw [BitVec.getLsbD_extractLsb', packed_bit text _ (by omega), show (8 * k + i) / 8 = k by omega,
      show (8 * k + i) % 8 = i by omega]
    simp [small, show 8 * k + i ≠ 31 by omega]
  have fourth : (packed text).extractLsb' 24 8 = text.getD 3 0#8 &&& 127#8 := by
    refine BitVec.eq_of_getLsbD_eq fun i small => ?_
    rw [BitVec.getLsbD_extractLsb', packed_bit text _ (by omega), BitVec.getLsbD_and, low i small,
      show (24 + i) / 8 = 3 by omega, show (24 + i) % 8 = i by omega]
    by_cases top : i = 7
    · simp [top]
    · simp [small, top, show 24 + i ≠ 31 by omega]
  exact congrArg₂ List.cons (byte 0 (by decide)) (congrArg₂ List.cons (byte 1 (by decide))
    (congrArg₂ List.cons (byte 2 (by decide)) (congrArg (fun c => [c]) fourth)))

-- What is printed of a text that is no star id: a fourth byte that is only a top bit ends it.
def ssoForm : List Byte → List Byte
  | a :: b :: c :: d :: _ => if d &&& 127#8 = 0#8 then [a, b, c] else [a, b, c, d &&& 127#8]
  | text => text

theorem ssoForm_bytes (text tail : List Byte) : ∃ rest,
    atomBytes (packed text) ++ 0#8 :: tail = ssoForm text ++ 0#8 :: rest := by
  rw [atomBytes_packed]
  match text with
  | [] => exact ⟨_, rfl⟩
  | [_] => exact ⟨_, rfl⟩
  | [_, _] => exact ⟨_, rfl⟩
  | [_, _, _] => exact ⟨0#8 :: tail, by simp [ssoForm]⟩
  | a :: b :: c :: d :: text =>
      rw [ssoForm]
      split
      next ends => exact ⟨0#8 :: tail, by simp [ends]⟩
      next => exact ⟨tail, by simp⟩

theorem ssoForm_free (text : List Byte) (free : 0#8 ∉ text) : 0#8 ∉ ssoForm text := by
  match text with
  | [] => exact free
  | [_] => exact free
  | [_, _] => exact free
  | [_, _, _] => exact free
  | a :: b :: c :: d :: text =>
      simp only [List.mem_cons, not_or] at free
      rw [ssoForm]
      split
      next => simp [free]
      next other => simpa [free] using Ne.symm other

theorem ssoForm_packed (text : List Byte) : packed (ssoForm text) = packed text := by
  refine (packed_eq _ _).mpr ?_
  match text with
  | [] => exact ⟨fun _ _ => rfl, rfl⟩
  | [_] => exact ⟨fun _ _ => rfl, rfl⟩
  | [_, _] => exact ⟨fun _ _ => rfl, rfl⟩
  | [_, _, _] => exact ⟨fun _ _ => rfl, rfl⟩
  | a :: b :: c :: d :: text =>
      have same (last : List Byte) (k : Nat) (few : k < 3) :
          ([a, b, c] ++ last).getD k 0#8 = (a :: b :: c :: d :: text).getD k 0#8 := by
        match k with
        | 0 | 1 | 2 => rfl
      rw [ssoForm]
      split
      next ends => exact ⟨same [], by simp [ends]⟩
      next => exact ⟨same [d &&& 127#8], by simp [BitVec.and_assoc]⟩

theorem ssoForm_head (text : List Byte) : (ssoForm text).head? = text.head? := by
  match text with
  | [] => rfl
  | [_] => rfl
  | [_, _] => rfl
  | [_, _, _] => rfl
  | a :: b :: c :: d :: text =>
      rw [ssoForm]
      split <;> rfl

theorem atomToBufferChar_packed (text buffer : List Byte) (eight : buffer.length = 8) :
    ∃ tail, tail.length = 3 ∧
      atomToBufferChar (packed text) buffer 8 = .ok (atomBytes (packed text) ++ 0#8 :: tail) := by
  have plain := packed_plain text
  have other : packed text ≠ brokenAtom := fun broken => by
    rw [broken] at plain
    cases plain
  have sso : packed text &&& stringFlags.starIdStarMask = 0#32 := by
    have mask : ∀ i < 32, stringFlags.starIdStarMask.getLsbD i = decide (i = 31) := by decide
    refine BitVec.eq_of_getLsbD_eq fun i inside => ?_
    rw [BitVec.getLsbD_and, mask i inside]
    by_cases top : i = 31
    · rw [top, plain]
      rfl
    · simp [top]
  refine ⟨buffer.drop 5, by rw [List.length_drop, eight], ?_⟩
  exact atomToBufferChar_short _ buffer 8 other sso (by decide) (by decide) (by omega)

theorem atom_text_form (text rest buffer : List Byte) (free : 0#8 ∉ text) (eight : buffer.length = 8) :
    ∃ a out, charToAtom (some (text ++ 0#8 :: rest)) = .ok a ∧ atomToBufferChar a buffer 8 = .ok out ∧
      out.length = 8 ∧ Stable text a out := by
  by_cases star : text.head? = some (byteOf '*')
  · obtain ⟨digits, rfl⟩ := List.head?_eq_some_iff.mp star
    have small : starValue 0 digits % 2 ^ 16 < 2 ^ 16 := Nat.mod_lt _ (by decide)
    generalize number : starValue 0 digits % 2 ^ 16 = n at small
    have read := charToAtom_star digits rest fun inside => free (List.mem_cons_of_mem _ inside)
    rw [number] at read
    refine ⟨_, _, read, atomToBufferChar_star n small buffer eight, by simp [starDigits_length], ?_, ?_, ?_⟩
    · refine ⟨byteOf '*' :: starDigits 6 n, [], rfl, ?_⟩
      simpa [starDigits_free] using show 0#8 ≠ byteOf '*' by decide
    · exact numToStarId_ok [] n small
    · simp
  · obtain ⟨tail, three, printed⟩ := atomToBufferChar_packed text buffer eight
    obtain ⟨rest', split⟩ := ssoForm_bytes text tail
    have length := congrArg List.length split
    have free' := ssoForm_free text free
    rw [split] at printed
    refine ⟨_, _, charToAtom_packed text rest free star, printed, ?_, ⟨_, _, rfl, free'⟩, ?_, ?_⟩
    · rw [← length, List.length_append, List.length_cons, three]
      rfl
    · rw [charToAtom_packed _ _ free' (ssoForm_head text ▸ star), ssoForm_packed]
    · refine iff_of_false (fun here => ?_) star
      rw [List.head?_append, ssoForm_head] at here
      cases text with
      | nil => exact absurd (Option.some.inj here) (by decide)
      | cons c text => exact star here

theorem atom_text_form_top_bit : ∃ a out,
    charToAtom (some ([97#8, 98#8, 99#8, 128#8] ++ 0#8 :: [])) = .ok a ∧
      atomToBufferChar a (List.replicate 8 1#8) 8 = .ok out ∧ out.length = 8 ∧
        Stable [97#8, 98#8, 99#8, 128#8] a out :=
  atom_text_form _ [] _ (by decide) rfl

end Form

end ElySquare
