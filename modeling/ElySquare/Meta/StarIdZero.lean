import ElySquare.Meta.StarIdCalls
import ElySquare.Meta.StarIdNames

set_option autoImplicit false

namespace ElySquare

namespace ALAR

def staridizeAgain (text : Option (List Byte)) :
    List (List Byte) → ALAR → AlarWorld → Result (List Atom × ALAR × AlarWorld)
  | [], alar, w => .ok ([], alar, w)
  | rest :: rests, alar, w => do
    let (id, alar, w) ← staridize alar w (0#8 :: rest) text 0
    let (ids, alar, w) ← staridizeAgain text rests alar w
    .ok (id :: ids, alar, w)

structure LikeStrlen (alar : ALAR) (w : AlarWorld) (rest text tail : List Byte) (id : Atom) (alar' : ALAR)
    (w' : AlarWorld) : Prop where
  same : staridize alar w (0#8 :: rest) (some (text ++ 0#8 :: tail)) text.length = .ok (id, alar', w')
  length : lenOf alar' w' id = .ok text.length
  raw : ∃ chars, getRaw alar' w' id = .ok chars ∧ chars.take text.length = text
  again : ∀ rests, ∃ ids alar'' w'',
    staridizeAgain (some (text ++ 0#8 :: tail)) rests alar' w' = .ok (ids, alar'', w'') ∧
      (∀ id' ∈ ids, id' = id) ∧ ∀ i, isOccupied alar'' w'' i = isOccupied alar' w' i

section Zero

variable {alar : ALAR} {w : AlarWorld}

theorem keyOf_text (text tail : List Byte) (filled : text ≠ []) (free : 0#8 ∉ text) :
    keyOf (text ++ 0#8 :: tail) 0 = .ok text ∧ keyOf (text ++ 0#8 :: tail) text.length = .ok text := by
  have taken : firstBytes (text ++ 0#8 :: tail) text.length = .ok text := by
    rw [firstBytes_ok _ _ (by simp), List.take_left' rfl]
  have long : text.length ≠ 0 := mt List.length_eq_zero_iff.mp filled
  refine ⟨?_, ?_⟩
  · rw [keyOf, if_pos rfl, strlen_text text tail free, Result.ok_bind, taken]
  · rw [keyOf, if_neg long, taken]

theorem getStarIdOf_text (stack text tail : List Byte) (filled : text ≠ []) (free : 0#8 ∉ text) :
    getStarIdOf alar w stack (some (text ++ 0#8 :: tail)) 0 =
      getStarIdOf alar w stack (some (text ++ 0#8 :: tail)) text.length := by
  obtain ⟨zero, long⟩ := keyOf_text text tail filled free
  rw [getStarIdOf_key, getStarIdOf_key, zero, long]

theorem getStarIdOf_found (ushort : alar.createdPlacesCount < 2 ^ 16) (rest text tail : List Byte)
    (filled : text ≠ []) (free : 0#8 ∉ text) (id : Atom) (known : id ≠ brokenAtom)
    (found : getStarIdOf alar w (0#8 :: rest) (some (text ++ 0#8 :: tail)) 0 = .ok id) :
    lenOf alar w id = .ok text.length ∧
      (∃ chars, getRaw alar w id = .ok chars ∧ chars.take text.length = text) ∧
      ∀ rest', getStarIdOf alar w (0#8 :: rest') (some (text ++ 0#8 :: tail)) 0 = .ok id := by
  have key := (keyOf_text text tail filled free).1
  rw [getStarIdOf_key, key, Result.ok_bind] at found
  obtain ⟨place, searched, named⟩ := (Result.bind_ok _ _ _).mp found
  cases place with
  | none => exact (known (Except.ok.inj named).symm).elim
  | some i =>
      obtain ⟨below, place, chars, there, length, raw, taken⟩ := findPlace_sound text _ _ i searched
      rw [Nat.zero_add] at below
      obtain rfl : starIdOf i = id := Except.ok.inj ((numToStarId_ok rest i (by omega)).symm.trans named)
      have index := starIdToNum_starIdOf i (by omega)
      have created : starIdToNum (starIdOf i) < alar.createdPlacesCount := index.symm ▸ below
      refine ⟨?_, ⟨chars, ?_, taken⟩, fun rest' => ?_⟩
      · rw [lenOf, if_pos (.inr created), index, there, Result.ok_bind, length]
      · rw [getRaw, if_pos (.inr created), index, there, Result.ok_bind, raw]
      · rw [getStarIdOf_key, key, Result.ok_bind, searched, Result.ok_bind]
        exact numToStarId_ok rest' i (by omega)

theorem staridize_found (stack : List Byte) (text : Option (List Byte)) (length : Nat) (id : Atom)
    (known : id ≠ brokenAtom) (found : getStarIdOf alar w stack text length = .ok id) :
    staridize alar w stack text length = .ok (id, alar, w) := by
  rw [staridize, found, Result.ok_bind, if_pos known]

theorem staridizeAgain_found (text : Option (List Byte)) (id : Atom) (known : id ≠ brokenAtom)
    (found : ∀ rest, getStarIdOf alar w (0#8 :: rest) text 0 = .ok id) (rests : List (List Byte)) :
    staridizeAgain text rests alar w = .ok (rests.map fun _ => id, alar, w) := by
  induction rests with
  | nil => rfl
  | cons rest rests ih =>
      rw [staridizeAgain, staridize_found _ _ _ id known (found rest), Result.ok_bind]
      dsimp only
      rw [ih, Result.ok_bind]
      rfl

theorem lenOf_missed (few : alar.starIDMaxCount < 2 ^ 16) (rest : List Byte) (text : Option (List Byte))
    (missing : getStarIdOf alar w (0#8 :: rest) text 0 = .ok brokenAtom) (id : Atom) (alar' : ALAR)
    (w' : AlarWorld) (made : staridize alar w (0#8 :: rest) text 0 = .ok (id, alar', w')) :
    lenOf alar' w' id = .ok 0 := by
  obtain ⟨i, ref, middle, entered⟩ := staridize_entered _ text 0 missing id alar' w' made
  have inside := entered.inside
  obtain ⟨place, here⟩ := entered.here
  obtain rfl : starIdOf i = id :=
    Except.ok.inj ((numToStarId_ok rest i (by omega)).symm.trans entered.named)
  have index := starIdToNum_starIdOf i (by omega)
  rw [lenOf, index, if_pos (.inr (entered.created few).1), here, Result.ok_bind,
    StarPlace.setLen_len _ 0 (by decide)]

theorem zero_length_strlen (alar : ALAR) (w : AlarWorld) (ushort : alar.createdPlacesCount < 2 ^ 16)
    (few : alar.starIDMaxCount < 2 ^ 16) (rest text tail : List Byte) (filled : text ≠ [])
    (free : 0#8 ∉ text) (id : Atom) (alar' : ALAR) (w' : AlarWorld)
    (made : staridize alar w (0#8 :: rest) (some (text ++ 0#8 :: tail)) 0 = .ok (id, alar', w')) :
    LikeStrlen alar w rest text tail id alar' w' ↔
      getStarIdOf alar w (0#8 :: rest) (some (text ++ 0#8 :: tail)) text.length ≠ .ok brokenAtom := by
  have lookup : getStarIdOf alar w (0#8 :: rest) (some (text ++ 0#8 :: tail)) 0 =
      getStarIdOf alar w (0#8 :: rest) (some (text ++ 0#8 :: tail)) text.length :=
    getStarIdOf_text (0#8 :: rest) text tail filled free
  rw [← lookup]
  constructor
  · intro like missing
    have lost := lenOf_missed few rest _ missing id alar' w' made
    exact filled (List.length_eq_zero_iff.mp (Except.ok.inj (like.length.symm.trans lost)))
  · intro there
    obtain ⟨id', found, _⟩ := (Result.bind_ok _ _ _).mp made
    have known : id' ≠ brokenAtom := fun broken => there (found.trans (congrArg Except.ok broken))
    have called := staridize_found _ _ _ id' known found
    obtain ⟨rfl, rfl, rfl⟩ : id' = id ∧ alar = alar' ∧ w = w' := by
      simpa using Except.ok.inj (called.symm.trans made)
    obtain ⟨length, raw, again⟩ := getStarIdOf_found ushort rest text tail filled free id' known found
    refine ⟨?_, length, raw, fun rests => ?_⟩
    · exact staridize_found _ _ _ id' known (lookup.symm.trans found)
    · refine ⟨_, alar, w, staridizeAgain_found _ id' known again rests, fun id listed => ?_, fun _ => rfl⟩
      obtain ⟨_, _, rfl⟩ := List.mem_map.mp listed
      rfl

end Zero

-- A registry of four places. The text `ab` is written with length zero, and not found again.
theorem zero_length_lost : ∃ (creating after : World (Heap AlarObject)) (alar alar₁ alar₂ : ALAR)
    (w w₁ w₂ : AlarWorld), construct (some creating) 4 = .ok (alar, w, after) ∧
    staridize alar w [0#8] (some [97#8, 98#8, 0#8]) 0 = .ok (0x80000000#32, alar₁, w₁) ∧
    lenOf alar₁ w₁ 0x80000000#32 = .ok 0 ∧
    staridize alar₁ w₁ [0#8] (some [97#8, 98#8, 0#8]) 0 = .ok (0x80000001#32, alar₂, w₂) ∧
    ¬ LikeStrlen alar w [] [97#8, 98#8] [] 0x80000000#32 alar₁ w₁ := by
  have run : Result.passes (PageManager.construct PageManager.rowOfRegions) (fun fresh =>
      Result.passes (MetaArena.construct fresh pageSize (Heap.empty : Heap AlarObject)) fun creating =>
      Result.passes (construct (some creating) 4) fun made =>
      Result.passes (staridize made.1 made.2.1 [0#8] (some [97#8, 98#8, 0#8]) 0) fun one =>
      Result.passes (lenOf one.2.1 one.2.2 0x80000000#32) fun len =>
      Result.passes (staridize one.2.1 one.2.2 [0#8] (some [97#8, 98#8, 0#8]) 0) fun two =>
      one.1 = 0x80000000#32 && len = 0 && two.1 = 0x80000001#32) = true := by decide +kernel
  simp only [Result.passes_iff, Bool.and_eq_true, decide_eq_true_eq] at run
  obtain ⟨_, _, creating, _, ⟨alar, w, after⟩, made, ⟨_, alar₁, w₁⟩, one, _, lost, ⟨_, alar₂, w₂⟩, two,
    ⟨rfl, rfl⟩, rfl⟩ := run
  refine ⟨creating, after, alar, alar₁, alar₂, w, w₁, w₂, made, one, lost, two, fun like => ?_⟩
  cases lost.symm.trans like.length

theorem zero_length_strlen_found : ∃ (alar : ALAR) (w : AlarWorld) (id : Atom),
    staridize alar w [0#8] (some ([97#8, 98#8] ++ 0#8 :: [])) 0 = .ok (id, alar, w) ∧
    (LikeStrlen alar w [] [97#8, 98#8] [] id alar w ↔
      getStarIdOf alar w [0#8] (some ([97#8, 98#8] ++ 0#8 :: [])) 2 ≠ .ok brokenAtom) := by
  have run : Result.passes (PageManager.construct PageManager.rowOfRegions) (fun fresh =>
      Result.passes (MetaArena.construct fresh pageSize (Heap.empty : Heap AlarObject)) fun creating =>
      Result.passes (construct (some creating) 4) fun made =>
      Result.passes (staridize made.1 made.2.1 [0#8] (some [97#8, 98#8]) 2) fun one =>
      Result.passes (getStarIdOf one.2.1 one.2.2 [0#8] (some ([97#8, 98#8] ++ 0#8 :: [])) 0) fun id =>
      id ≠ brokenAtom && one.2.1.createdPlacesCount = 1 && one.2.1.starIDMaxCount = 4) = true := by
    decide +kernel
  simp only [Result.passes_iff, Bool.and_eq_true, decide_eq_true_eq] at run
  obtain ⟨_, _, _, _, _, _, ⟨_, alar, w⟩, _, id, found, ⟨known, created⟩, most⟩ := run
  have made := staridize_found [0#8] _ 0 id known found
  have ushort : alar.createdPlacesCount < 2 ^ 16 := Nat.lt_of_le_of_lt (Nat.le_of_eq created) (by decide)
  have few : alar.starIDMaxCount < 2 ^ 16 := Nat.lt_of_le_of_lt (Nat.le_of_eq most) (by decide)
  exact ⟨alar, w, id, made, zero_length_strlen alar w ushort few [] [97#8, 98#8] [] (by decide) (by decide)
    id alar w made⟩

end ALAR

end ElySquare
