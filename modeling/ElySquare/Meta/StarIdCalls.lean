import ElySquare.Meta.StarIdSweep

set_option autoImplicit false

namespace ElySquare

namespace ALAR

open MetaArena (metalloc metallocOr)

-- What the calls do, whatever the heap is.
section Calls

variable {alar : ALAR} {w : AlarWorld}

theorem metallocOr_calls (message : String) (size alignment ptr : Nat) (after : AlarWorld)
    (made : metallocOr message w size alignment = .ok (ptr, after)) :
    after.calls = .lent ptr size :: w.calls := by
  obtain ⟨⟨p, middle⟩, given, rest⟩ := (Result.bind_ok _ _ _).mp made
  dsimp only at rest
  split at rest
  · cases rest
  · cases rest
    exact (MetaArena.metalloc_kept w size alignment _ _ given).2

theorem writeText_calls (text : Option (List Byte)) (length : Nat) (chars : List Byte) (ref : Nat)
    (after : AlarWorld) (written : writeText w text length = .ok (chars, ref, after)) :
    ∃ ptr, after.calls = .lent ref sizeofPointer :: .lent ptr length :: w.calls := by
  obtain ⟨⟨ptr, w₁⟩, first, rest⟩ := (Result.bind_ok _ _ _).mp written
  obtain ⟨copied, _, rest⟩ := (Result.bind_ok _ _ _).mp rest
  obtain ⟨⟨p, w₂⟩, second, rest⟩ := (Result.bind_ok _ _ _).mp rest
  dsimp only at rest
  split at rest
  · cases rest
  · cases rest
    refine ⟨ptr, ?_⟩
    have lent := metallocOr_calls _ _ _ _ _ first
    exact (MetaArena.metalloc_kept _ _ _ _ _ second).2.trans (congrArg _ lent)

theorem findPlace_sound (text : List Byte) (rounds i j : Nat)
    (searched : findPlace alar w text rounds i = .ok (some j)) : j < i + rounds ∧
      ∃ place chars, placeAt alar w j = .ok place ∧ place.len = text.length ∧
        rawOf w place = .ok chars ∧ chars.take text.length = text := by
  induction rounds generalizing i with
  | zero => cases searched
  | succ rounds ih =>
      have later (rest : findPlace alar w text rounds (i + 1) = .ok (some j)) : j < i + (rounds + 1) ∧
          ∃ place chars, placeAt alar w j = .ok place ∧ place.len = text.length ∧
            rawOf w place = .ok chars ∧ chars.take text.length = text := by
        obtain ⟨below, found⟩ := ih (i + 1) rest
        exact ⟨by omega, found⟩
      obtain ⟨flag, _, searched⟩ := (Result.bind_ok _ _ _).mp searched
      split at searched
      · exact later searched
      · obtain ⟨hash, _, searched⟩ := (Result.bind_ok _ _ _).mp searched
        split at searched
        · obtain ⟨place, there, searched⟩ := (Result.bind_ok _ _ _).mp searched
          obtain ⟨same, compared, searched⟩ := (Result.bind_ok _ _ _).mp searched
          split at searched
          next equal =>
            obtain rfl := Option.some.inj (Except.ok.inj searched)
            rw [sameText] at compared
            split at compared
            next length =>
              obtain ⟨chars, raw, compared⟩ := (Result.bind_ok _ _ _).mp compared
              obtain ⟨first, taken, compared⟩ := (Result.bind_ok _ _ _).mp compared
              obtain rfl : first = text := by simpa [equal] using Except.ok.inj compared
              rw [firstBytes] at taken
              split at taken
              · exact ⟨by omega, place, chars, there, length, raw, Except.ok.inj taken⟩
              · cases taken
            next =>
              rw [equal] at compared
              cases compared
          next => exact later searched
        · exact later searched

/-- A call of staridize that does not find its text: it takes a free place, writes the text's two blocks,
after which the heap is `middle`, and then writes the place. -/
structure Entered (alar : ALAR) (w : AlarWorld) (stack : List Byte) (text : Option (List Byte))
    (length : Nat) (id : Atom) (alar' : ALAR) (w' : AlarWorld) (i ref : Nat) (middle : AlarWorld) :
    Prop where
  inside : i < alar.starIDMaxCount
  vacant : freePlace alar w alar.starIDMaxCount 0 = .ok i
  named : numToStarId stack i = .ok id
  grown : alar' = { alar with createdPlacesCount :=
    if i ≥ alar.createdPlacesCount then (i + 1) % 2 ^ 16 else alar.createdPlacesCount }
  written : ∃ chars, writeText w text length = .ok (chars, ref, middle)
  placed : ∃ (places : List StarPlace) (place : StarPlace), middle.memory alar.placelist = some (.object (.places places)) ∧
    places[i]? = some place ∧ w'.memory alar.placelist =
      some (.object (.places (places.set i ({ place with ptr := some ref }.setLen length))))
  calls : w'.calls = middle.calls

theorem asPlaces_some (o : AlarObject) (places : List StarPlace) (seen : asPlaces o = some places) :
    o = .places places := by
  cases o <;> cases seen
  rfl

theorem setElement_places {Element : Type} {w w' : AlarWorld} {p q i : Nat}
    {view : AlarObject → Option (List Element)} {wrap : List Element → AlarObject}
    {change : Element → Element} (other : ∀ places, view (.places places) = none)
    (places : List StarPlace) (there : w.memory q = some (.object (.places places)))
    (written : setElement w p view wrap i change = .ok w') :
    w'.memory q = some (.object (.places places)) := by
  obtain ⟨o, _, _, stored, seen, _, rfl⟩ := setElement_inv written
  have apart : q ≠ p := by
    rintro rfl
    rw [there, Option.some.injEq, Cell.object.injEq] at stored
    rw [← stored, other] at seen
    cases seen
  exact (store_there _ _ _ _ apart).trans there

theorem staridize_entered (stack : List Byte) (text : Option (List Byte)) (length : Nat)
    (missing : getStarIdOf alar w stack text length = .ok brokenAtom) (id : Atom) (alar' : ALAR)
    (w' : AlarWorld) (made : staridize alar w stack text length = .ok (id, alar', w')) :
    ∃ i ref middle, Entered alar w stack text length id alar' w' i ref middle := by
  rw [staridize, missing, Result.ok_bind, if_neg (by simp)] at made
  obtain ⟨i, vacant, made⟩ := (Result.bind_ok _ _ _).mp made
  split at made
  · cases made
  · obtain ⟨⟨chars, ref, middle⟩, written, made⟩ := (Result.bind_ok _ _ _).mp made
    obtain ⟨w₁, first, made⟩ := (Result.bind_ok _ _ _).mp made
    obtain ⟨w₂, second, made⟩ := (Result.bind_ok _ _ _).mp made
    obtain ⟨w₃, third, made⟩ := (Result.bind_ok _ _ _).mp made
    obtain ⟨w₄, fourth, made⟩ := (Result.bind_ok _ _ _).mp made
    obtain ⟨id', named, made⟩ := (Result.bind_ok _ _ _).mp made
    cases made
    refine ⟨i, ref, middle, by omega, vacant, named, rfl, ⟨chars, written⟩, ?_, ?_⟩
    · obtain ⟨o, places, place, there, seen, at', rfl⟩ := setElement_inv first
      obtain rfl := asPlaces_some o places seen
      have two := setElement_places (fun _ => rfl) _ (store_here _ _ _) second
      have three := setElement_places (fun _ => rfl) _ two third
      exact ⟨places, place, there, at', setElement_places (fun _ => rfl) _ three fourth⟩
    · rw [setElement_calls _ _ _ _ fourth, setElement_calls _ _ _ _ third, setElement_calls _ _ _ _ second,
        setElement_calls _ _ _ _ first]

variable {stack : List Byte} {text : Option (List Byte)} {length i ref : Nat} {id : Atom} {alar' : ALAR}
  {w' middle : AlarWorld}

theorem Entered.here (entered : Entered alar w stack text length id alar' w' i ref middle) :
    ∃ place : StarPlace, placeAt alar' w' i = .ok ({ place with ptr := some ref }.setLen length) := by
  obtain ⟨places, place, _, at', stored⟩ := entered.placed
  have inside := (List.getElem?_eq_some_iff.mp at').1
  refine ⟨place, ?_⟩
  rw [entered.grown]
  simp only [placeAt, element, read, stored, asPlaces, Result.ok_bind, List.getElem?_set_self inside]

theorem Entered.there (entered : Entered alar w stack text length id alar' w' i ref middle) (j : Nat)
    (other : j ≠ i) : placeAt alar' w' j = placeAt alar middle j := by
  obtain ⟨places, place, before, _, stored⟩ := entered.placed
  rw [entered.grown]
  simp only [placeAt, element, read, stored, before, asPlaces, Result.ok_bind,
    List.getElem?_set_ne other.symm]

theorem Entered.created (entered : Entered alar w stack text length id alar' w' i ref middle)
    (ushort : alar.starIDMaxCount < 2 ^ 16) : i < alar'.createdPlacesCount ∧
      alar'.createdPlacesCount = max alar.createdPlacesCount (i + 1) := by
  have inside := entered.inside
  have wrap : (i + 1) % 2 ^ 16 = i + 1 := Nat.mod_eq_of_lt (by omega)
  rw [entered.grown]
  dsimp only
  split <;> omega

theorem getNewStarId_ok (stack : List Byte) (few : alar.starIDMaxCount < 2 ^ 16) (id : Atom) (alar' : ALAR)
    (made : getNewStarId alar stack = .ok (id, alar')) :
    alar.createdPlacesCount < alar.starIDMaxCount ∧
      numToStarId stack alar.createdPlacesCount = .ok id ∧
      alar' = { alar with createdPlacesCount := alar.createdPlacesCount + 1 } := by
  rw [getNewStarId] at made
  split at made
  · cases made
  next room =>
    obtain ⟨id', named, same⟩ := (Result.bind_ok _ _ _).mp made
    cases same
    exact ⟨by omega, named, by rw [Nat.mod_eq_of_lt (by omega)]⟩

end Calls

section Cases

variable {reservations : Nat → Option Nat} {others : List PageManager.Chunk} {alar : ALAR}
  {w : AlarWorld} {texts : Nat → Option (List Byte)}

theorem Stocked.handOut (stocked : Stocked reservations others alar w texts)
    (room : alar.createdPlacesCount < alar.starIDMaxCount) :
    Stocked reservations others { alar with createdPlacesCount := alar.createdPlacesCount + 1 } w texts := by
  obtain ⟨held, places, hashes, flags, keeps, shelves⟩ := stocked
  exact ⟨held, places, hashes, flags, keeps, { shelves with
    created := fun i text holds => Nat.lt_succ_of_lt (shelves.created i text holds)
    few := room }⟩

theorem Stocked.few (stocked : Stocked reservations others alar w texts) :
    alar.createdPlacesCount ≤ alar.starIDMaxCount ∧ alar.starIDMaxCount < 2 ^ 16 := by
  obtain ⟨_, _, _, _, _, shelves⟩ := stocked
  exact ⟨shelves.few, shelves.ushort⟩

theorem Stocked.created (stocked : Stocked reservations others alar w texts) (i : Nat) (text : List Byte)
    (holds : texts i = some text) : i < alar.createdPlacesCount := by
  obtain ⟨_, _, _, _, _, shelves⟩ := stocked
  exact shelves.created i text holds

theorem Stocked.vacant (stocked : Stocked reservations others alar w texts) (i : Nat)
    (searched : freePlace alar w alar.starIDMaxCount 0 = .ok i) (inside : i < alar.starIDMaxCount) :
    texts i = none ∧ ∀ k, k < i → texts k ≠ none := by
  obtain ⟨held, places, hashes, flags, keeps, shelves⟩ := stocked
  obtain ⟨j, found, free, used⟩ := freePlace_ok keeps shelves alar.starIDMaxCount 0 (Nat.zero_add _)
  obtain rfl := Except.ok.inj (searched.symm.trans found)
  exact ⟨free inside, fun k => used k (Nat.zero_le k)⟩

theorem Stocked.staridize_cases (reserves : Reserves reservations)
    (stocked : Stocked reservations others alar w texts) (stack : List Byte) (text : Option (List Byte))
    (length : Nat) (short : length < 2 ^ 63) (id : Atom) (alar' : ALAR) (w' : AlarWorld)
    (made : ALAR.staridize alar w stack text length = .ok (id, alar', w')) :
    (getStarIdOf alar w stack text length = .ok id ∧ id ≠ brokenAtom ∧ alar' = alar ∧ w' = w ∧
      ∃ i held, texts i = some held ∧ numToStarId stack i = .ok id) ∨
    (getStarIdOf alar w stack text length = .ok brokenAtom ∧ ∃ i ref middle new,
      Entered alar w stack text length id alar' w' i ref middle ∧ texts i = none ∧
      (∀ k, k < i → texts k ≠ none) ∧
      Stocked reservations others alar' w' (Function.update texts i (some new))) := by
  obtain ⟨forFound, found, rest⟩ := (Result.bind_ok _ _ _).mp made
  by_cases missed : forFound = brokenAtom
  · rw [missed] at found
    obtain ⟨i, ref, middle, entered⟩ := staridize_entered stack text length found id alar' w' made
    obtain ⟨free, used⟩ := stocked.vacant i entered.vacant entered.inside
    refine .inr ⟨found, i, ref, middle, ?_⟩
    -- both places are the first free one
    have first (j : Nat) (free' : texts j = none) (used' : ∀ k, k < j → texts k ≠ none) : j = i := by
      rcases Nat.lt_trichotomy j i with before | same | after
      · exact (used j before free').elim
      · exact same
      · exact (used' i after free).elim
    cases text with
    | none =>
        have zero := staridize_null stack length _ made
        obtain ⟨j, _, _, free', used', stocked'⟩ := (staridize_enter reserves stocked stack none length
          (Nat.le_of_eq zero) short rfl (by simp)).holds _ made
        obtain rfl := first j free' used'
        exact ⟨_, entered, free, used, stocked'⟩
    | some raw =>
        have searched := found
        rw [getStarIdOf_key] at searched
        obtain ⟨key, keyed, _⟩ := (Result.bind_ok _ _ _).mp searched
        obtain ⟨j, small, named, ⟨here, _⟩ | ⟨_, free', used', stocked'⟩⟩ :=
          (staridize_stocked reserves stocked stack raw length short key keyed).holds _ made
        · obtain ⟨held, places, hashes, flags, keeps, shelves⟩ := stocked
          rcases getStarIdOf_first keeps shelves stack raw length key keyed with
            ⟨k, small', _, there⟩ | ⟨absent, _⟩
          · exact (numToStarId_known stack k small' _ (there.symm.trans found) rfl).elim
          · exact (absent j here.1).elim
        · obtain rfl := first j free' used'
          exact ⟨_, entered, free, used, stocked'⟩
  · rw [if_pos missed] at rest
    cases rest
    refine .inl ⟨found, missed, rfl, rfl, ?_⟩
    cases text with
    | none => exact (missed (Except.ok.inj found).symm).elim
    | some raw =>
        have searched := found
        rw [getStarIdOf_key] at searched
        obtain ⟨key, keyed, _⟩ := (Result.bind_ok _ _ _).mp searched
        obtain ⟨held, places, hashes, flags, keeps, shelves⟩ := stocked
        rcases getStarIdOf_first keeps shelves stack raw length key keyed with
          ⟨i, _, first, there⟩ | ⟨_, missing⟩
        · exact ⟨i, key, first.1, there.symm.trans found⟩
        · exact (missed (Except.ok.inj (found.symm.trans missing))).elim

end Cases

end ALAR

end ElySquare
