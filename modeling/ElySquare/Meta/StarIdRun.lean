import ElySquare.Shared.Run
import ElySquare.Meta.MetaArenaHeap
import ElySquare.Meta.StarIdHeap

set_option autoImplicit false

namespace ElySquare

namespace ALAR

open Interning Transition

section Search

variable {reservations : Nat → Option Nat} {others : List PageManager.Chunk} {foreign : List Block}
  {alar : ALAR} {w : AlarWorld} {held : Nat → Option AlarObject} {texts : Nat → Option (List Byte)}
  {places : List StarPlace} {hashes : List (BitVec 64)} {flags : List Byte}

theorem firstBytes_ok (raw : List Byte) (length : Nat) (readable : length ≤ raw.length) :
    firstBytes raw length = .ok (raw.take length) :=
  if_pos readable

theorem flagAt_none (keeps : Keeps reservations others foreign w held)
    (shelves : Shelves alar held texts places hashes flags) (i : Nat)
    (inside : i < alar.starIDMaxCount) (empty : texts i = none) : flagAt alar w i = .ok 0#8 :=
  element_ok keeps _ _ shelves.idmap asFlags flags rfl i _ (shelves.vacant i inside empty)

theorem flagAt_some (keeps : Keeps reservations others foreign w held)
    (shelves : Shelves alar held texts places hashes flags) (i : Nat) (text : List Byte)
    (holds : texts i = some text) : flagAt alar w i = .ok 1#8 :=
  element_ok keeps _ _ shelves.idmap asFlags flags rfl i _ (shelves.entries i text holds).flag

theorem hashAt_ok (keeps : Keeps reservations others foreign w held)
    (shelves : Shelves alar held texts places hashes flags) (i : Nat) (text : List Byte)
    (holds : texts i = some text) : hashAt alar w i = .ok (hashString text) :=
  element_ok keeps _ _ shelves.hashCache asHashes hashes rfl i _ (shelves.entries i text holds).hash

theorem placeAt_ok (keeps : Keeps reservations others foreign w held)
    (shelves : Shelves alar held texts places hashes flags) (i : Nat) (text : List Byte)
    (holds : texts i = some text) : ∃ place, placeAt alar w i = .ok place ∧
      place.len = text.length ∧ rawOf w place = .ok (text ++ [0#8]) := by
  obtain ⟨place, ref, ptr, at', pointer, len, there, chars⟩ := (shelves.entries i text holds).stored
  refine ⟨place, element_ok keeps _ _ shelves.placelist asPlaces places rfl i place at', len, ?_⟩
  simp only [rawOf, pointer, read_ok keeps ref _ there asRef ptr rfl, Result.ok_bind,
    read_ok keeps ptr _ chars asText _ rfl]

theorem sameText_ok (keeps : Keeps reservations others foreign w held)
    (shelves : Shelves alar held texts places hashes flags) (i : Nat) (text other : List Byte)
    (holds : texts i = some text) :
    (placeAt alar w i >>= fun place => sameText w place other) = .ok (decide (text = other)) := by
  obtain ⟨place, there, len, chars⟩ := placeAt_ok keeps shelves i text holds
  rw [there, Result.ok_bind, sameText, len]
  by_cases long : text.length = other.length
  · rw [if_pos long, chars, Result.ok_bind, firstBytes_ok _ _ (by rw [List.length_append]; omega),
      Result.ok_bind, ← long, List.take_left']
    rfl
  · rw [if_neg long, decide_eq_false fun same => long (congrArg List.length same)]

-- The loop finds the first of the next places that has the text. Equal hashes decide nothing.
theorem findPlace_ok (keeps : Keeps reservations others foreign w held)
    (shelves : Shelves alar held texts places hashes flags) (text : List Byte) (rounds i : Nat)
    (within : i + rounds ≤ alar.createdPlacesCount) :
    ∃ found, findPlace alar w text rounds i = .ok found ∧
      (∀ j, found = some j → texts j = some text ∧ ∀ k, i ≤ k → k < j → texts k ≠ some text) ∧
      (found = none → ∀ j, i ≤ j → j < i + rounds → texts j ≠ some text) := by
  induction rounds generalizing i with
  | zero => exact ⟨none, rfl, fun j none => (by cases none), fun _ j above below => by omega⟩
  | succ rounds ih =>
      have few := shelves.few
      obtain ⟨found, rest, sound, complete⟩ := ih (i + 1) (by omega)
      -- the round at a place that does not have the text
      have skip (here : texts i ≠ some text) :
          (∀ j, found = some j → texts j = some text ∧ ∀ k, i ≤ k → k < j → texts k ≠ some text) ∧
            (found = none → ∀ j, i ≤ j → j < i + (rounds + 1) → texts j ≠ some text) := by
        refine ⟨fun j first => ⟨(sound j first).1, fun k above below => ?_⟩, fun none j above below => ?_⟩
        · rcases Nat.eq_or_lt_of_le above with rfl | later
          · exact here
          · exact (sound j first).2 k later below
        · rcases Nat.eq_or_lt_of_le above with rfl | later
          · exact here
          · exact complete none j later (by omega)
      rw [findPlace]
      cases at' : texts i with
      | none =>
          rw [flagAt_none keeps shelves i (by omega) at', Result.ok_bind, if_pos rfl]
          exact ⟨found, rest, skip (by simp [at'])⟩
      | some text' =>
          rw [flagAt_some keeps shelves i text' at', Result.ok_bind, if_neg (by decide),
            hashAt_ok keeps shelves i text' at', Result.ok_bind]
          by_cases hash : hashString text' = hashString text
          · have compared := sameText_ok keeps shelves i text' text at'
            rw [if_pos hash, ← bind_assoc, compared, Result.ok_bind]
            by_cases same : text' = text
            · rw [if_pos (by simpa using same)]
              refine ⟨some i, rfl, fun j here => ?_, fun none => (by cases none)⟩
              obtain rfl := Option.some.inj here
              exact ⟨by rw [at', same], fun k above below => by omega⟩
            · rw [if_neg (by simpa using same)]
              exact ⟨found, rest, skip (by simpa [at'] using same)⟩
          · rw [if_neg hash]
            refine ⟨found, rest, skip fun same => hash ?_⟩
            rw [Option.some.inj (at'.symm.trans same)]

def keyOf (raw : List Byte) (length : Nat) : Result (List Byte) :=
  if length = 0 then strlen raw >>= firstBytes raw else firstBytes raw length

theorem keyOf_explicit (raw : List Byte) (length : Nat) (nonzero : 1 ≤ length)
    (readable : length ≤ raw.length) : keyOf raw length = .ok (raw.take length) := by
  rw [keyOf, if_neg (Nat.ne_of_gt nonzero), firstBytes_ok raw length readable]

theorem keyOf_length (raw : List Byte) (length : Nat) (text : List Byte)
    (key : keyOf raw length = .ok text) (nonzero : 1 ≤ length) :
    length ≤ raw.length ∧ text = raw.take length := by
  rw [keyOf, if_neg (Nat.ne_of_gt nonzero), firstBytes] at key
  split at key
  · exact ⟨by assumption, (Except.ok.inj key).symm⟩
  · cases key

theorem getStarIdOf_key (stack raw : List Byte) (length : Nat) :
    getStarIdOf alar w stack (some raw) length = keyOf raw length >>= fun text =>
      findPlace alar w text alar.createdPlacesCount 0 >>= fun found =>
        found.elim (.ok brokenAtom) (numToStarId stack) := by
  unfold getStarIdOf keyOf
  by_cases zero : length = 0
  · simp only [if_pos zero, bind_assoc]
    refine bind_congr fun length => bind_congr fun text => bind_congr fun found => ?_
    cases found <;> rfl
  · simp only [if_neg zero, Result.ok_bind]
    refine bind_congr fun text => bind_congr fun found => ?_
    cases found <;> rfl

def FirstAt (texts : Nat → Option (List Byte)) (i : Nat) (text : List Byte) : Prop :=
  texts i = some text ∧ ∀ k, k < i → texts k ≠ some text

theorem getStarIdOf_first (keeps : Keeps reservations others foreign w held)
    (shelves : Shelves alar held texts places hashes flags) (stack raw : List Byte) (length : Nat)
    (text : List Byte) (key : keyOf raw length = .ok text) :
    (∃ i, i < 2 ^ 16 ∧ FirstAt texts i text ∧
      getStarIdOf alar w stack (some raw) length = numToStarId stack i) ∨
    ((∀ j, texts j ≠ some text) ∧ getStarIdOf alar w stack (some raw) length = .ok brokenAtom) := by
  obtain ⟨found, searched, sound, complete⟩ :=
    findPlace_ok keeps shelves text alar.createdPlacesCount 0 (by omega)
  rw [getStarIdOf_key, key, Result.ok_bind, searched, Result.ok_bind]
  cases found with
  | some i =>
      obtain ⟨holds, first⟩ := sound i rfl
      have below := shelves.below i _ holds
      have ushort := shelves.ushort
      exact .inl ⟨i, by omega, ⟨holds, fun k => first k (Nat.zero_le k)⟩, rfl⟩
  | none =>
      refine .inr ⟨fun j holds => ?_, rfl⟩
      exact complete rfl j (Nat.zero_le j) (by have := shelves.created j _ holds; omega) holds

theorem getStarIdOf_ok {table : Table (List Byte)} (keeps : Keeps reservations others foreign w held)
    (registers : Registers alar held table places hashes flags) (rest raw : List Byte) (length : Nat)
    (nonzero : 1 ≤ length) (readable : length ≤ raw.length) :
    (∃ i, table.textAt i = some (raw.take length) ∧
      getStarIdOf alar w (0#8 :: rest) (some raw) length = .ok (starIdOf i)) ∨
    (table.Absent (raw.take length) ∧
      getStarIdOf alar w (0#8 :: rest) (some raw) length = .ok brokenAtom) := by
  rcases getStarIdOf_first keeps registers.shelves (0#8 :: rest) raw length _
    (keyOf_explicit raw length nonzero readable) with ⟨i, small, holds, found⟩ | missing
  · exact .inl ⟨i, holds.1, found.trans (numToStarId_ok rest i small)⟩
  · exact .inr missing

theorem freePlace_ok (keeps : Keeps reservations others foreign w held)
    (shelves : Shelves alar held texts places hashes flags) (rounds i : Nat)
    (within : i + rounds = alar.starIDMaxCount) :
    ∃ j, freePlace alar w rounds i = .ok j ∧ (j < alar.starIDMaxCount → texts j = none) ∧
      ∀ k, i ≤ k → k < j → texts k ≠ none := by
  induction rounds generalizing i with
  | zero => exact ⟨i, rfl, fun below => by omega, fun k above below => by omega⟩
  | succ rounds ih =>
      rw [freePlace]
      cases at' : texts i with
      | none =>
          rw [flagAt_none keeps shelves i (by omega) at', Result.ok_bind, if_neg (by simp)]
          exact ⟨i, rfl, fun _ => at', fun k above below => by omega⟩
      | some text =>
          rw [flagAt_some keeps shelves i text at', Result.ok_bind, if_pos (by decide)]
          obtain ⟨j, searched, free, used⟩ := ih (i + 1) (by omega)
          refine ⟨j, searched, free, fun k above below => ?_⟩
          rcases Nat.eq_or_lt_of_le above with rfl | later
          · simp [at']
          · exact used k later below

end Search

section Staridize

variable {reservations : Nat → Option Nat} {others : List PageManager.Chunk} {foreign : List Block}
  {alar : ALAR} {w : AlarWorld} {held : Nat → Option AlarObject} {texts : Nat → Option (List Byte)}
  {table : Table (List Byte)} {places : List StarPlace} {hashes : List (BitVec 64)}
  {flags : List Byte}

theorem writeText_meets (reserves : Reserves reservations)
    (keeps : Keeps reservations others foreign w held) (raw : Option (List Byte)) (length : Nat)
    (readable : length ≤ (raw.getD []).length) (short : length < 2 ^ 63) :
    Meets (writeText w raw length) Stop.Starved fun written =>
      written.1 = (raw.getD []).take length ∧
      ∃ held' ptr, Keeps reservations others foreign written.2.2 held' ∧
        (∀ p o, held p = some o → held' p = some o) ∧ held ptr = none ∧
        held' written.2.1 = some (.ref ptr) ∧
        held' ptr = some (.text ((raw.getD []).take length ++ [0#8])) := by
  have grown (memory : Nat → Option AlarObject) (x : Nat) (o : AlarObject) (fresh : memory x = none)
      (p : Nat) (o' : AlarObject) (there : memory p = some o') :
      Function.update memory x (some o) p = some o' := by
    rw [Function.update_of_ne (fun same => by rw [same, fresh] at there; cases there), there]
  refine Meets.bind (keeps.metallocOr_meets reserves _ _ 0 short (by decide)) ?_
  rintro ⟨textPtr, w₁⟩ ⟨fresh, _, _, given⟩
  dsimp only
  rw [firstBytes_ok _ length readable, Result.ok_bind]
  have keeps₁ := given (.text ((raw.getD []).take length ++ [0#8])) (by
    simp only [Sized.size, List.length_append, List.length_take, List.length_singleton]
    omega)
  refine Meets.bind (keeps₁.alloc reserves sizeofPointer 3 (by decide) (by decide)) ?_
  rintro ⟨ppTextPtr, w₂⟩ ⟨positive, fresh', _, _, given'⟩
  refine Meets.ite (fun zero => (Nat.ne_of_gt positive zero).elim) fun _ => (Meets.ok_iff _).mpr ⟨rfl, ?_⟩
  refine ⟨_, textPtr, given' (.ref textPtr) rfl, fun p o there => ?_, fresh, Function.update_self .., ?_⟩
  · exact grown _ _ _ fresh' p o (grown _ _ _ fresh p o there)
  · exact grown _ _ _ fresh' textPtr _ (Function.update_self ..)

def Stocked (reservations : Nat → Option Nat) (others : List PageManager.Chunk) (alar : ALAR)
    (w : AlarWorld) (texts : Nat → Option (List Byte)) : Prop :=
  ∃ held places hashes flags, Keeps reservations others [] w held ∧
    Shelves alar held texts places hashes flags

def Sane (reservations : Nat → Option Nat) (others : List PageManager.Chunk) (alar : ALAR)
    (w : AlarWorld) (table : Table (List Byte)) : Prop :=
  ∃ held places hashes flags, Keeps reservations others [] w held ∧
    Registers alar held table places hashes flags

theorem Sane.stocked (sane : Sane reservations others alar w table) :
    Stocked reservations others alar w table.textAt := by
  obtain ⟨held, places, hashes, flags, keeps, registers⟩ := sane
  exact ⟨held, places, hashes, flags, keeps, registers.shelves⟩

theorem Stocked.sane (stocked : Stocked reservations others alar w table.textAt) :
    Sane reservations others alar w table := by
  obtain ⟨held, places, hashes, flags, keeps, shelves⟩ := stocked
  exact ⟨held, places, hashes, flags, keeps, shelves.registers⟩

def Interns (table table' : Table (List Byte)) (text : List Byte) (i : Nat) : Prop :=
  table' = table ∧ table.textAt i = some text ∨
    ∃ absent, table.textAt i = none ∧ table' = table.enter i text absent

theorem enter_ok (keeps : Keeps reservations others foreign w held)
    (shelves : Shelves alar held texts places hashes flags) (i : Nat)
    (inside : i < alar.starIDMaxCount) (free : texts i = none) (text : List Byte)
    (absent : text ≠ [] → ∀ j, texts j ≠ some text) (short : text.length < 2 ^ 63) (ref ptr : Nat)
    (there : held ref = some (.ref ptr)) (chars : held ptr = some (.text (text ++ [0#8])))
    (fresh : ∀ j text', texts j = some text' → blockOf held places j ≠ some ptr) :
    ∃ w₁ w₂ w₃ w₄ held' places' hashes' flags',
      (setElement w alar.placelist asPlaces .places i fun place =>
        { place with ptr := some ref }.setLen text.length) = .ok w₁ ∧
      (setElement w₁ alar.hashCache asHashes .hashes i fun _ => hashString text) = .ok w₂ ∧
      (setElement w₂ alar.idmap asFlags .flags i fun _ => 1#8) = .ok w₃ ∧
      (setElement w₃ alar.idmap asFlags .flags i fun _ => 1#8) = .ok w₄ ∧
      Keeps reservations others foreign w₄ held' ∧
      Shelves { alar with createdPlacesCount :=
          if i ≥ alar.createdPlacesCount then (i + 1) % 2 ^ 16 else alar.createdPlacesCount }
        held' (Function.update texts i (some text)) places' hashes' flags' := by
  obtain ⟨placesLength, hashesLength, flagsLength⟩ := shelves.lengths
  obtain ⟨hashCache, idmap, idmap'⟩ := shelves.arrays_apart
  obtain ⟨w₁, first, keeps₁⟩ := setElement_ok keeps _ _ shelves.placelist asPlaces places rfl .places i
    (by omega) (fun place => { place with ptr := some ref }.setLen text.length) (by simp [Sized.size])
  obtain ⟨w₂, second, keeps₂⟩ := setElement_ok keeps₁ _ _
    ((Function.update_of_ne hashCache ..).trans shelves.hashCache) asHashes hashes rfl .hashes i
    (by omega) (fun _ => hashString text) (by simp [Sized.size])
  obtain ⟨w₃, third, keeps₃⟩ := setElement_ok keeps₂ _ _
    ((Function.update_of_ne idmap' ..).trans ((Function.update_of_ne idmap ..).trans shelves.idmap))
    asFlags flags rfl .flags i (by omega) (fun _ => 1#8) (by simp [Sized.size])
  obtain ⟨w₄, fourth, keeps₄⟩ := setElement_ok keeps₃ _ _ (Function.update_self ..) asFlags _ rfl .flags i
    (by rw [List.length_set]; omega) (fun _ => 1#8) (by simp [Sized.size])
  rw [Function.update_idem, List.set_set] at keeps₄
  exact ⟨w₁, w₂, w₃, w₄, _, _, _, _, first, second, third, fourth, keeps₄,
    shelves.enter i inside free text absent short ref ptr there chars fresh _ rfl
      (StarPlace.setLen_len _ _ short)⟩

theorem staridize_first (keeps : Keeps reservations others foreign w held)
    (shelves : Shelves alar held texts places hashes flags) (stack raw : List Byte) (length : Nat)
    (text : List Byte) (key : keyOf raw length = .ok text) (i : Nat) (first : FirstAt texts i text) :
    staridize alar w stack (some raw) length =
      numToStarId stack i >>= fun id => .ok (id, alar, w) := by
  rcases getStarIdOf_first keeps shelves stack raw length text key with
    ⟨j, small, first', found⟩ | ⟨absent, _⟩
  · obtain rfl : i = j := by
      rcases Nat.lt_trichotomy i j with before | same | after
      · exact (first'.2 i before first.1).elim
      · exact same
      · exact (first.2 j after first'.1).elim
    rw [staridize, found]
    cases named : numToStarId stack i with
    | error stop => rfl
    | ok id =>
        rw [Result.ok_bind, if_pos (numToStarId_known stack i small id named)]
        rfl
  · exact (absent i first.1).elim

theorem staridize_enter (reserves : Reserves reservations)
    (stocked : Stocked reservations others alar w texts) (stack : List Byte) (raw : Option (List Byte))
    (length : Nat) (readable : length ≤ (raw.getD []).length) (short : length < 2 ^ 63)
    (missing : getStarIdOf alar w stack raw length = .ok brokenAtom)
    (new : (raw.getD []).take length ≠ [] → ∀ j, texts j ≠ some ((raw.getD []).take length)) :
    Meets (staridize alar w stack raw length)
      (fun stop => stop.Starved ∨ ∃ i, i < 2 ^ 16 ∧ numToStarId stack i = .error stop) fun made =>
      ∃ i, i < 2 ^ 16 ∧ numToStarId stack i = .ok made.1 ∧ texts i = none ∧
        (∀ k, k < i → texts k ≠ none) ∧ Stocked reservations others made.2.1 made.2.2
          (Function.update texts i (some ((raw.getD []).take length))) := by
  obtain ⟨held, places, hashes, flags, keeps, shelves⟩ := stocked
  have ushort := shelves.ushort
  obtain ⟨i, searched, free, used⟩ :=
    freePlace_ok keeps shelves alar.starIDMaxCount 0 (Nat.zero_add _)
  rw [staridize, missing, Result.ok_bind, if_neg (by simp), searched, Result.ok_bind]
  refine Meets.ite (fun _ => (Meets.error_iff _).mpr (.inl trivial)) fun room => ?_
  have inside : i < alar.starIDMaxCount := Nat.lt_of_not_le room
  have written := writeText_meets reserves keeps raw length readable short
  refine Meets.bind ⟨written.holds, fun stop failed => .inl (written.fails stop failed)⟩ ?_
  rintro ⟨chars, ref, w'⟩ ⟨rfl, held', ptr, keeps', more, fresh, there, stored⟩
  have size : ((raw.getD []).take length).length = length := by
    rw [List.length_take]
    omega
  have apart (j : Nat) (text' : List Byte) (holds : texts j = some text') :
      blockOf held' places j ≠ some ptr := by
    have entry := shelves.entries j text' holds
    obtain ⟨ptr', block, chars'⟩ := entry.block
    rw [entry.block_frame fun p q => more p (.ref q), block]
    rintro ⟨⟩
    rw [fresh] at chars'
    cases chars'
  obtain ⟨w₁, w₂, w₃, w₄, held₄, places', hashes', flags', first, second, third, fourth, keeps₄, shelves₄⟩ :=
    enter_ok keeps' (shelves.grow more) i inside (free inside) _ new (by omega) ref ptr there stored apart
  rw [size] at first
  simp only [first, second, third, fourth, Result.ok_bind]
  cases named : numToStarId stack i with
  | error stop => exact (Meets.error_iff _).mpr (.inr ⟨i, by omega, named⟩)
  | ok id =>
      rw [Result.ok_bind]
      exact (Meets.ok_iff _).mpr ⟨i, by omega, named, free inside, fun k => used k (Nat.zero_le k),
        held₄, places', hashes', flags', keeps₄, shelves₄⟩

theorem staridize_stocked (reserves : Reserves reservations)
    (stocked : Stocked reservations others alar w texts) (stack raw : List Byte) (length : Nat)
    (short : length < 2 ^ 63) (text : List Byte) (key : keyOf raw length = .ok text) :
    Meets (staridize alar w stack (some raw) length)
      (fun stop => stop.Starved ∨ ∃ i, i < 2 ^ 16 ∧ numToStarId stack i = .error stop) fun made =>
      ∃ i, i < 2 ^ 16 ∧ numToStarId stack i = .ok made.1 ∧
        (FirstAt texts i text ∧ made.2 = (alar, w) ∨
          (∀ j, texts j ≠ some text) ∧ texts i = none ∧ (∀ k, k < i → texts k ≠ none) ∧
          Stocked reservations others made.2.1 made.2.2
            (Function.update texts i (some (raw.take length)))) := by
  have stocked' := stocked
  obtain ⟨held, places, hashes, flags, keeps, shelves⟩ := stocked
  rcases getStarIdOf_first keeps shelves stack raw length text key with
    ⟨i, small, first, _⟩ | ⟨absent, missing⟩
  · rw [staridize_first keeps shelves stack raw length text key i first]
    cases named : numToStarId stack i with
    | error stop => exact (Meets.error_iff _).mpr (.inr ⟨i, small, named⟩)
    | ok id => exact (Meets.ok_iff _).mpr ⟨i, small, named, .inl ⟨first, rfl⟩⟩
  · have readable : length ≤ raw.length := by
      rcases Nat.eq_zero_or_pos length with zero | nonzero
      · omega
      · exact (keyOf_length raw length text key nonzero).1
    have new (filled : raw.take length ≠ []) (j : Nat) : texts j ≠ some (raw.take length) := by
      have nonzero : 1 ≤ length := by
        by_contra zero
        exact filled (by rw [show length = 0 by omega, List.take_zero])
      exact (keyOf_length raw length text key nonzero).2 ▸ absent j
    refine (staridize_enter reserves stocked' stack (some raw) length readable short missing new).weaken ?_
    rintro made ⟨i, small, named, free, used, entered⟩
    exact ⟨i, small, named, .inr ⟨absent, free, used, entered⟩⟩

theorem staridize_null (stack : List Byte) (length : Nat) (made : Atom × ALAR × AlarWorld)
    (returned : staridize alar w stack none length = .ok made) : length = 0 := by
  obtain ⟨forFound, found, rest⟩ := (Result.bind_ok _ _ _).mp returned
  cases found
  rw [if_neg (by simp)] at rest
  obtain ⟨i, _, rest⟩ := (Result.bind_ok _ _ _).mp rest
  split at rest
  · cases rest
  · obtain ⟨written, wrote, _⟩ := (Result.bind_ok _ _ _).mp rest
    obtain ⟨_, _, rest⟩ := (Result.bind_ok _ _ _).mp wrote
    obtain ⟨chars, copied, _⟩ := (Result.bind_ok _ _ _).mp rest
    rw [firstBytes] at copied
    split at copied
    · exact Nat.le_zero.mp (by assumption)
    · cases copied

-- The text that the registry has under the id that a call of staridize returns: a call with length zero
-- that does not find its text writes the empty one.
def storedText (alar : ALAR) (w : AlarWorld) (raw : Option (List Byte)) (length : Nat) : List Byte :=
  match raw with
  | none => []
  | some raw =>
    match keyOf raw length, getStarIdOf alar w [0#8] (some raw) length with
    | .ok text, .ok id => if length = 0 ∧ id = brokenAtom then [] else text
    | _, _ => []

theorem storedText_key (alar : ALAR) (w : AlarWorld) (raw : Option (List Byte)) (length : Nat)
    (text : List Byte) (filled : text ≠ []) (stored : storedText alar w raw length = text) :
    ∃ bytes, raw = some bytes ∧ keyOf bytes length = .ok text := by
  subst stored
  unfold storedText at filled ⊢
  cases raw with
  | none => exact (filled rfl).elim
  | some bytes =>
      refine ⟨bytes, rfl, ?_⟩
      dsimp only at filled ⊢
      split
      case h_1 text id key _ =>
        simp only [key] at filled ⊢
        split
        · simp_all
        · rfl
      case h_2 other => simp_all

theorem Stocked.staridize (stocked : Stocked reservations others alar w texts)
    (reserves : Reserves reservations) (stack : List Byte) (raw : Option (List Byte)) (length : Nat)
    (short : length < 2 ^ 63) (id : Atom) (alar' : ALAR) (w' : AlarWorld)
    (made : staridize alar w stack raw length = .ok (id, alar', w')) :
    ∃ texts' i, Stocked reservations others alar' w' texts' ∧ i < 2 ^ 16 ∧ numToStarId stack i = .ok id ∧
      texts' i = some (storedText alar w raw length) ∧
      ∀ j text, texts j = some text → texts' j = some text := by
  -- a text at a free place moves no other
  have kept (i : Nat) (free : texts i = none) (new : List Byte) (j : Nat) (text : List Byte)
      (holds : texts j = some text) : Function.update texts i (some new) j = some text := by
    have other : j ≠ i := fun same => by simp [same, free] at holds
    rw [Function.update_of_ne other, holds]
  cases raw with
  | none =>
      have zero := staridize_null stack length _ made
      obtain ⟨i, small, named, free, _, stocked'⟩ := (staridize_enter reserves stocked stack none length
        (Nat.le_of_eq zero) short rfl (by simp)).holds _ made
      exact ⟨_, i, stocked', small, named, by simp [storedText], kept i free _⟩
  | some raw =>
      obtain ⟨forFound, found, _⟩ := (Result.bind_ok _ _ _).mp made
      rw [getStarIdOf_key] at found
      obtain ⟨text, key, _⟩ := (Result.bind_ok _ _ _).mp found
      have called := (staridize_stocked reserves stocked stack raw length short text key).holds _ made
      obtain ⟨held, places, hashes, flags, keeps, shelves⟩ := stocked
      have searched := getStarIdOf_first keeps shelves [0#8] raw length text key
      obtain ⟨i, small, named, ⟨first, same⟩ | ⟨absent, free, _, stocked'⟩⟩ := called
      · obtain ⟨rfl, rfl⟩ := Prod.mk.inj same
        refine ⟨texts, i, ⟨held, places, hashes, flags, keeps, shelves⟩, small, named, ?_,
          fun _ _ holds => holds⟩
        rcases searched with ⟨k, small', _, here⟩ | ⟨absent, _⟩
        · rw [numToStarId_ok [] k small'] at here
          simp only [storedText, key, here, starIdOf_ne_broken k small', and_false, if_false, first.1]
        · exact (absent i first.1).elim
      · refine ⟨_, i, stocked', small, named, ?_, kept i free _⟩
        rcases searched with ⟨k, _, first, _⟩ | ⟨_, missing⟩
        · exact (absent k first.1).elim
        · rw [Function.update_self]
          simp only [storedText, key, missing, and_true]
          by_cases zero : length = 0
          · rw [if_pos zero, zero, List.take_zero]
          · rw [if_neg zero, (keyOf_length raw length text key (Nat.pos_of_ne_zero zero)).2]

theorem staridize_places (reserves : Reserves reservations) (sane : Sane reservations others alar w table)
    (stack raw : List Byte) (length : Nat) (nonzero : 1 ≤ length) (short : length < 2 ^ 63)
    (readable : length ≤ raw.length) :
    Meets (staridize alar w stack (some raw) length)
      (fun stop => stop.Starved ∨ ∃ i, i < 2 ^ 16 ∧ numToStarId stack i = .error stop) fun made =>
      ∃ i table', i < 2 ^ 16 ∧ numToStarId stack i = .ok made.1 ∧
        Interns table table' (raw.take length) i ∧
        (table' = table ∨ ∀ k, k < i → table.textAt k ≠ none) ∧
        Sane reservations others made.2.1 made.2.2 table' := by
  refine (staridize_stocked reserves sane.stocked stack raw length short _
    (keyOf_explicit raw length nonzero readable)).weaken ?_
  rintro ⟨id, made⟩ ⟨i, small, named, ⟨first, rfl⟩ | ⟨absent, free, used, stocked⟩⟩
  · exact ⟨i, table, small, named, .inl ⟨rfl, first.1⟩, .inl rfl, sane⟩
  · exact ⟨i, table.enter i _ absent, small, named, .inr ⟨absent, free, rfl⟩, .inr used, stocked.sane⟩

theorem staridize_meets (reserves : Reserves reservations) (sane : Sane reservations others alar w table)
    (rest raw : List Byte) (length : Nat) (nonzero : 1 ≤ length) (short : length < 2 ^ 63)
    (readable : length ≤ raw.length) :
    Meets (staridize alar w (0#8 :: rest) (some raw) length) Stop.Starved fun made =>
      ∃ i table', made.1 = starIdOf i ∧ Interns table table' (raw.take length) i ∧
        Sane reservations others made.2.1 made.2.2 table' := by
  have placed := staridize_places reserves sane (0#8 :: rest) raw length nonzero short readable
  refine ⟨fun made returned => ?_, fun stop failed => ?_⟩
  · obtain ⟨i, table', small, named, interns, _, sane'⟩ := placed.holds made returned
    rw [numToStarId_ok rest i small] at named
    exact ⟨i, table', (Except.ok.inj named).symm, interns, sane'⟩
  · rcases placed.fails stop failed with starved | ⟨i, small, named⟩
    · exact starved
    · rw [numToStarId_ok rest i small] at named
      cases named

end Staridize

section Construct

variable {reservations : Nat → Option Nat}

theorem construct_meets (reserves : Reserves reservations) {Memory : Type} [LinkStore Memory]
    (creating : World Memory) (others : List PageManager.Chunk) (live : List Block)
    (bins : Nat → List Nat) (sound : MetaArena.Sound reservations creating others live bins)
    (starIDMaxCount : Nat) (ushort : starIDMaxCount < 2 ^ 16) :
    Meets (construct (some creating) starIDMaxCount) Stop.Starved fun made =>
      Sane reservations (made.2.2.metaArena.arena.chunks.map Arena.Chunk.region ++ others) made.1 made.2.1
        Table.empty := by
  have small (size : Nat) (few : size ≤ 16) : size * starIDMaxCount ≤ 16 * 2 ^ 16 :=
    Nat.mul_le_mul few (Nat.le_of_lt ushort)
  have places := small sizeofStarPlace (by decide)
  have hashes := small sizeofUmore (by decide)
  unfold construct
  refine Meets.bind (sound.metallocOr_meets reserves _ _ 3 (by decide) (by decide)) ?_
  rintro ⟨_, creating⟩ ⟨_, sound'⟩
  refine Meets.bind (Keeps.construct_meets reserves _ (by unfold pageSize; omega) creating.manager
    sound'.arena.ledger) fun w keeps => ?_
  refine Meets.bind (keeps.metallocOr_meets reserves _ _ 3 (by omega) (by decide)) ?_
  rintro ⟨placelist, w₁⟩ ⟨_, _, _, given⟩
  have keeps₁ := given (.places (List.replicate starIDMaxCount StarPlace.zero)) (by simp [Sized.size])
  refine Meets.bind (keeps₁.metallocOr_meets reserves _ _ 3 (by omega) (by decide)) ?_
  rintro ⟨hashCache, w₂⟩ ⟨fresh, _, _, given⟩
  have keeps₂ := given (.hashes (List.replicate starIDMaxCount 0#64)) (by simp [Sized.size])
  refine Meets.bind (keeps₂.metallocOr_meets reserves _ _ 0 (by omega) (by decide)) ?_
  rintro ⟨idmap, w₃⟩ ⟨fresh', _, _, given⟩
  have keeps₃ := given (.flags (List.replicate starIDMaxCount 0#8)) (by simp [Sized.size])
  dsimp only
  refine (Meets.ok_iff _).mpr ⟨_, List.replicate starIDMaxCount StarPlace.zero,
    List.replicate starIDMaxCount 0#64, List.replicate starIDMaxCount 0#8, keeps₃, ?_⟩
  have apart (held : Nat → Option AlarObject) (p q : Nat) (o : AlarObject) (atP : held p = some o)
      (atQ : held q = none) : p ≠ q := fun same => by simp [same, atQ] at atP
  have second := apart _ placelist hashCache _ (Function.update_self ..) fresh
  have third := apart _ placelist idmap _
    ((Function.update_of_ne second ..).trans (Function.update_self ..)) fresh'
  have third' := apart _ hashCache idmap _ (Function.update_self ..) fresh'
  refine ⟨?_, ?_, Function.update_self .., by simp, fun i text holds => ?_, fun i inside _ => ?_,
    fun i text holds => ?_, Nat.zero_le _, ushort⟩
  · exact (Function.update_of_ne third ..).trans ((Function.update_of_ne second ..).trans
      (Function.update_self ..))
  · exact (Function.update_of_ne third' ..).trans (Function.update_self ..)
  · cases holds
  · exact List.getElem?_replicate_of_lt inside
  · cases holds

end Construct

structure Session where
  alar : ALAR
  world : AlarWorld
  log : List (List Byte × Atom)

inductive Call
  | staridize (text : List Byte) (length : Nat)
  | getStarIdOf (raw : List Byte) (length : Nat)
deriving DecidableEq, Repr

def Explicit (length : Nat) : Prop := 1 ≤ length ∧ length < 2 ^ 63

/-- Every run of calls that return, on a fresh registry in any arena. In each call the buffer of
numToStarId is followed by a NUL. -/
def system (reservations : Nat → Option Nat) : System Session Call where
  start s := ∃ (Memory : Type) (_ : LinkStore Memory) (creating after : World Memory)
    (others : List PageManager.Chunk) (live : List Block) (bins : Nat → List Nat) (starIDMaxCount : Nat),
    MetaArena.Sound reservations creating others live bins ∧ starIDMaxCount < 2 ^ 16 ∧
    construct (some creating) starIDMaxCount = .ok (s.alar, s.world, after) ∧ s.log = []
  step s call t :=
    match call with
    | .staridize text length => Explicit length ∧ ∃ rest id,
        staridize s.alar s.world (0#8 :: rest) (some text) length = .ok (id, t.alar, t.world) ∧
        t.log = (text.take length, id) :: s.log
    | .getStarIdOf raw length => Explicit length ∧ t = s ∧ ∃ rest id,
        getStarIdOf s.alar s.world (0#8 :: rest) (some raw) length = .ok id

structure Law (s : Session) : Prop where
  same : ∀ text text' id id', (text, id) ∈ s.log → (text', id') ∈ s.log → (id = id' ↔ text = text')
  known : ∀ raw length rest id, Explicit length → length ≤ raw.length → (raw.take length, id) ∈ s.log →
    getStarIdOf s.alar s.world (0#8 :: rest) (some raw) length = .ok id
  unknown : ∀ raw length rest, Explicit length → length ≤ raw.length →
    (∀ id, (raw.take length, id) ∉ s.log) →
    getStarIdOf s.alar s.world (0#8 :: rest) (some raw) length = .ok brokenAtom
  valid : ∀ text id, (text, id) ∈ s.log → id ≠ brokenAtom ∧ starIdToNum id < s.alar.createdPlacesCount
  length : ∀ text id, (text, id) ∈ s.log → lenOf s.alar s.world id = .ok text.length
  raw : ∀ text id, (text, id) ∈ s.log →
    ∃ chars, getRaw s.alar s.world id = .ok chars ∧ chars.take text.length = text
  bounded : s.alar.createdPlacesCount ≤ s.alar.starIDMaxCount

def SaneSession (reservations : Nat → Option Nat) (s : Session) : Prop :=
  ∃ others table, Sane reservations others s.alar s.world table ∧ Records starIdOf table s.log

section Reachable

variable {reservations : Nat → Option Nat} {s : Session}

theorem readable_of_ok (alar : ALAR) (w : AlarWorld) (stack raw : List Byte) (length : Nat)
    (nonzero : 1 ≤ length) (id : Atom) (found : getStarIdOf alar w stack (some raw) length = .ok id) :
    length ≤ raw.length := by
  by_contra long
  simp only [getStarIdOf, if_neg (Nat.ne_of_gt nonzero), Result.ok_bind, firstBytes, if_neg long,
    Result.error_bind] at found
  cases found

theorem sane_of_reachable (reserves : Reserves reservations)
    (reached : (system reservations).Reachable s) : SaneSession reservations s := by
  refine System.invariant _ (SaneSession reservations) ?_ ?_ reached
  · rintro s ⟨Memory, links, creating, after, others, live, bins, starIDMaxCount, sound, ushort, made, log⟩
    have sane := (construct_meets reserves creating others live bins sound starIDMaxCount ushort).holds _ made
    exact ⟨_, Table.empty, sane, log ▸ Records.empty⟩
  · rintro s call t ⟨others, table, sane, records⟩ taken
    cases call with
    | staridize text length =>
        obtain ⟨⟨nonzero, short⟩, rest, id, made, log⟩ := taken
        obtain ⟨forFound, found, _⟩ := (Result.bind_ok _ _ _).mp made
        have readable := readable_of_ok _ _ _ _ _ nonzero _ found
        obtain ⟨i, table', rfl, interns, sane'⟩ :=
          (staridize_meets reserves sane rest text length nonzero short readable).holds _ made
        refine ⟨others, table', sane', log ▸ ?_⟩
        rcases interns with ⟨rfl, holds⟩ | ⟨absent, free, rfl⟩
        · exact records.again i _ holds
        · exact records.enter i _ absent free
    | getStarIdOf raw length =>
        obtain ⟨_, rfl, _⟩ := taken
        exact ⟨others, table, sane, records⟩

theorem SaneSession.law (sane : SaneSession reservations s) : Law s := by
  obtain ⟨others, table, ⟨held, places, hashes, flags, keeps, registers⟩, records⟩ := sane
  have ushort := registers.ushort
  have index (i : Nat) (text : List Byte) (holds : table.textAt i = some text) :
      i < 65535 ∧ starIdToNum (starIdOf i) = i := by
    have below := registers.shelves.below i text holds
    exact ⟨by omega, starIdToNum_starIdOf i (by omega)⟩
  have looked (raw : List Byte) (length : Nat) (rest : List Byte) (explicit : Explicit length)
      (readable : length ≤ raw.length) :=
    getStarIdOf_ok keeps registers rest raw length explicit.1 readable
  -- what the readers find at the place of an id
  have opened (text : List Byte) (id : Atom) (listed : (text, id) ∈ s.log) :
      starIdToNum id < s.alar.createdPlacesCount ∧ ∃ place,
        placeAt s.alar s.world (starIdToNum id) = .ok place ∧ place.len = text.length ∧
          rawOf s.world place = .ok (text ++ [0#8]) := by
    obtain ⟨i, rfl, holds⟩ := records.held text id listed
    rw [(index i text holds).2]
    exact ⟨registers.created i text holds, placeAt_ok keeps registers.shelves i text holds⟩
  refine ⟨records.same_iff fun i j text text' atI atJ same => ?_,
    fun raw length rest id explicit readable listed => ?_, fun raw length rest explicit readable never => ?_,
    fun text id listed => ⟨?_, (opened text id listed).1⟩, fun text id listed => ?_,
    fun text id listed => ?_, registers.few⟩
  · rw [← (index i text atI).2, same, (index j text' atJ).2]
  · obtain ⟨i, rfl, holds⟩ := records.held _ id listed
    rcases looked raw length rest explicit readable with ⟨j, holds', found⟩ | ⟨absent, _⟩
    · rw [found, table.once i j _ holds holds']
    · exact (absent i holds).elim
  · rcases looked raw length rest explicit readable with ⟨j, holds, _⟩ | ⟨_, missing⟩
    · exact (records.absent _ never j holds).elim
    · exact missing
  · obtain ⟨i, rfl, holds⟩ := records.held text id listed
    exact starIdOf_ne_broken i (Nat.lt_succ_of_lt (index i text holds).1)
  · obtain ⟨below, place, there, len, _⟩ := opened text id listed
    rw [lenOf, if_pos (.inr below), there, Result.ok_bind, len]
  · obtain ⟨below, place, there, _, chars⟩ := opened text id listed
    refine ⟨text ++ [0#8], ?_, List.take_left' rfl⟩
    rw [getRaw, if_pos (.inr below), there, Result.ok_bind, chars]

theorem interning_law (reserves : Reserves reservations) (s : Session)
    (reached : (system reservations).Reachable s) : Law s ∧
      ∀ text length rest stop, Explicit length → length ≤ text.length →
        staridize s.alar s.world (0#8 :: rest) (some text) length = .error stop → stop.Starved := by
  have held := sane_of_reachable reserves reached
  refine ⟨held.law, fun text length rest stop explicit readable failed => ?_⟩
  obtain ⟨others, table, sane, _⟩ := held
  exact (staridize_meets reserves sane rest text length explicit.1 explicit.2 readable).fails stop failed

end Reachable

theorem interning_law_pair : ∃ s, (system PageManager.rowOfRegions).Reachable s ∧
    s.log = [([98#8], 0x80000001#32), ([97#8], 0x80000000#32)] ∧ Law s ∧
      ∀ text length rest stop, Explicit length → length ≤ text.length →
        staridize s.alar s.world (0#8 :: rest) (some text) length = .error stop → stop.Starved := by
  have run : Result.passes (PageManager.construct PageManager.rowOfRegions) (fun fresh =>
      Result.passes (MetaArena.construct fresh pageSize (Heap.empty : Heap AlarObject)) fun creating =>
      Result.passes (construct (some creating) 4) fun made =>
      Result.passes (staridize made.1 made.2.1 [0#8] (some [97#8]) 1) fun one =>
      Result.passes (staridize one.2.1 one.2.2 [0#8] (some [98#8]) 1) fun two =>
      one.1 = 0x80000000#32 && two.1 = 0x80000001#32) = true := by decide +kernel
  simp only [Result.passes_iff, Bool.and_eq_true, decide_eq_true_eq] at run
  obtain ⟨fresh, first, creating, built, ⟨alar, world, after⟩, made, ⟨_, alar₁, world₁⟩, one,
    ⟨_, alar₂, world₂⟩, two, rfl, rfl⟩ := run
  have sound := MetaArena.firstPage_sound fresh first _ _ built
  have started : (system PageManager.rowOfRegions).Reachable ⟨alar, world, []⟩ :=
    .start ⟨_, _, creating, after, _, _, _, 4, sound, by decide, made, rfl⟩
  have second : (system PageManager.rowOfRegions).step ⟨alar, world, []⟩ (.staridize [97#8] 1)
      ⟨alar₁, world₁, [([97#8], 0x80000000#32)]⟩ := ⟨⟨by decide, by decide⟩, [], _, one, rfl⟩
  have third : (system PageManager.rowOfRegions).step ⟨alar₁, world₁, [([97#8], 0x80000000#32)]⟩
      (.staridize [98#8] 1) ⟨alar₂, world₂, [([98#8], 0x80000001#32), ([97#8], 0x80000000#32)]⟩ :=
    ⟨⟨by decide, by decide⟩, [], _, two, rfl⟩
  exact ⟨_, (started.step second).step third, rfl,
    interning_law rowOfRegions_reserves _ ((started.step second).step third)⟩

end ALAR

end ElySquare
