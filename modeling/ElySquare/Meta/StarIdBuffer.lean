import ElySquare.Meta.StarIdCodec

set_option autoImplicit false

namespace ElySquare

-- `stack` is what the eight bytes of the buffer hold before they are written.
def atomToChar (stack : List Byte) (a : Atom) : Result Byte := do
  let out ← atomToBufferChar a stack 8
  match out with
  | [] => .error (.invalidAccess 0)
  | c :: _ => .ok c

def printedSize (a : Atom) : Nat :=
  if a &&& stringFlags.starIdStarMask ≠ 0#32 then 8 else 5

-- A call that is given `bufferSize` bytes leaves a string in them that does not depend on what they
-- held, and needs no others.
def Contained (a : Atom) (bufferSize : Nat) : Prop :=
  ∃ text : List Byte, 0#8 ∉ text ∧ ∀ buffer : List Byte, buffer.length = bufferSize →
    ∃ rest, atomToBufferChar a buffer bufferSize = .ok (text ++ 0#8 :: rest) ∧
      (text ++ 0#8 :: rest).length = bufferSize

def CharWritten (a : Atom) : Prop :=
  ∀ stack stack' : List Byte, stack.length = 8 → stack'.length = 8 →
    atomToChar stack a = atomToChar stack' a

theorem putBytes_room (buffer : List Byte) (i : Nat) (bytes out : List Byte)
    (made : putBytes buffer i bytes = .ok out) :
    i + bytes.length ≤ buffer.length ∧ out.length = buffer.length := by
  unfold putBytes at made
  by_cases room : i + bytes.length ≤ buffer.length
  · rw [if_pos room] at made
    cases made
    refine ⟨room, ?_⟩
    simp only [List.length_append, List.length_take, List.length_drop]
    omega
  · rw [if_neg room] at made
    cases made

theorem atomToBufferChar_room (a : Atom) (buffer out : List Byte) (bufferSize : Nat)
    (whole : a ≠ brokenAtom) (made : atomToBufferChar a buffer bufferSize = .ok out) :
    printedSize a ≤ buffer.length := by
  unfold printedSize
  rw [atomToBufferChar, if_neg whole] at made
  by_cases star : a &&& stringFlags.starIdStarMask ≠ 0#32
  · rw [if_pos star] at made ⊢
    obtain ⟨first, wrote, rest⟩ := (Result.bind_ok _ _ _).mp made
    obtain ⟨second, ended, _⟩ := (Result.bind_ok _ _ _).mp rest
    exact (putBytes_room _ _ _ _ wrote).2 ▸ (putBytes_room _ _ _ _ ended).1
  · rw [if_neg star] at made ⊢
    obtain ⟨first, wrote, ended⟩ := (Result.bind_ok _ _ _).mp made
    exact (putBytes_room _ _ _ _ wrote).2 ▸ (putBytes_room _ _ _ _ ended).1

theorem atomToBufferChar_printed (a : Atom) (bufferSize : Nat) (whole : a ≠ brokenAtom)
    (word : bufferSize < 2 ^ 64) (room : printedSize a ≤ bufferSize) : ∃ bytes : List Byte,
      bytes.length + 1 = printedSize a ∧ ∀ buffer : List Byte, printedSize a ≤ buffer.length →
        atomToBufferChar a buffer bufferSize = .ok (bytes ++ 0#8 :: buffer.drop (printedSize a)) := by
  unfold printedSize at *
  by_cases star : a &&& stringFlags.starIdStarMask ≠ 0#32
  · rw [if_pos star] at *
    exact ⟨byteOf '*' :: starDigits 6 (starIdToNum a), by simp [starDigits_length],
      fun buffer => atomToBufferChar_stars a buffer bufferSize whole star⟩
  · rw [if_neg star] at *
    exact ⟨atomBytes a, rfl,
      fun buffer => atomToBufferChar_short a buffer bufferSize whole (not_not.mp star) room word⟩

theorem contained_iff (a : Atom) (bufferSize : Nat) (word : bufferSize < 2 ^ 64) :
    Contained a bufferSize ↔ a ≠ brokenAtom ∧ printedSize a ≤ bufferSize := by
  constructor
  · rintro ⟨text, _, prints⟩
    have whole : a ≠ brokenAtom := by
      rintro rfl
      -- nothing is written, and the buffer had no NUL
      obtain ⟨rest, made, _⟩ := prints (List.replicate bufferSize 1#8) List.length_replicate
      rw [atomToBufferChar, if_pos rfl] at made
      have nul : 0#8 ∈ List.replicate bufferSize 1#8 := by
        rw [Except.ok.inj made]
        simp
      exact absurd (List.eq_of_mem_replicate nul) (by decide)
    obtain ⟨rest, made, _⟩ := prints (List.replicate bufferSize 1#8) List.length_replicate
    have room := atomToBufferChar_room a _ _ bufferSize whole made
    rw [List.length_replicate] at room
    exact ⟨whole, room⟩
  · rintro ⟨whole, room⟩
    obtain ⟨bytes, size, printed⟩ := atomToBufferChar_printed a bufferSize whole word room
    obtain ⟨text, more, split, free⟩ :=
      List.eq_append_cons_of_mem (List.mem_append_right bytes (List.mem_singleton_self 0#8))
    refine ⟨text, free, fun buffer same => ⟨more ++ buffer.drop (printedSize a), ?_⟩⟩
    have joined : bytes ++ 0#8 :: buffer.drop (printedSize a) =
        text ++ 0#8 :: (more ++ buffer.drop (printedSize a)) := by
      calc bytes ++ 0#8 :: buffer.drop (printedSize a) = bytes ++ [0#8] ++ buffer.drop (printedSize a) := by
            simp
        _ = text ++ 0#8 :: (more ++ buffer.drop (printedSize a)) := by rw [split]; simp
    rw [← joined, printed buffer (same ▸ room)]
    refine ⟨rfl, ?_⟩
    rw [List.length_append, List.length_cons, List.length_drop]
    omega

theorem charWritten_iff (a : Atom) : CharWritten a ↔ a ≠ brokenAtom := by
  constructor
  · rintro written rfl
    exact absurd (written (List.replicate 8 1#8) (List.replicate 8 2#8) rfl rfl) (by decide)
  · intro whole stack stack' eight eight'
    have room : printedSize a ≤ 8 := by
      unfold printedSize
      split <;> decide
    obtain ⟨bytes, size, printed⟩ := atomToBufferChar_printed a 8 whole (by decide) room
    unfold atomToChar
    rw [printed stack (eight ▸ room), printed stack' (eight' ▸ room)]
    cases bytes with
    | nil =>
        unfold printedSize at size
        split at size <;> cases size
    | cons c bytes => rfl

theorem atomToBufferChar_contained (a : Atom) (bufferSize : Nat) (word : bufferSize < 2 ^ 64) :
    (Contained a bufferSize ↔ a ≠ brokenAtom ∧ printedSize a ≤ bufferSize) ∧
      (CharWritten a ↔ a ≠ brokenAtom) :=
  ⟨contained_iff a bufferSize word, charWritten_iff a⟩

theorem atomToBufferChar_contained_eight : (Contained 0x80000005#32 8 ↔
    0x80000005#32 ≠ brokenAtom ∧ printedSize 0x80000005#32 ≤ 8) ∧
      (CharWritten 0x80000005#32 ↔ 0x80000005#32 ≠ brokenAtom) :=
  atomToBufferChar_contained 0x80000005#32 8 (by decide)

-- The broken atom leaves no string, and a short atom's NUL is past the end of a buffer of four bytes.
theorem printed_outside : ¬ Contained brokenAtom 8 ∧ ¬ CharWritten brokenAtom ∧
    ¬ Contained 0x64636261#32 4 := by
  refine ⟨?_, ?_, ?_⟩
  · rintro ⟨text, _, prints⟩
    obtain ⟨rest, made, _⟩ := prints (List.replicate 8 1#8) rfl
    have nul : 0#8 ∈ text ++ 0#8 :: rest := by simp
    rw [← (Except.ok.inj made : List.replicate 8 1#8 = _)] at nul
    exact absurd nul (by decide)
  · exact fun written =>
      absurd (written (List.replicate 8 1#8) (List.replicate 8 2#8) rfl rfl) (by decide)
  · rintro ⟨text, _, prints⟩
    obtain ⟨rest, made, _⟩ := prints (List.replicate 4 1#8) rfl
    cases made

end ElySquare
