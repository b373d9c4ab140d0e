import ElySquare.Shared.Collected
import ElySquare.Shared.Simulation
import ElySquare.Meta.StarIdLifecycle

set_option autoImplicit false

namespace ElySquare

namespace ALAR

open Transition Interning

def RegistryCall.order : RegistryCall → Collected.Order (List Byte)
  | .staridize text length _ => .intern ((text.getD []).take length)
  | .mark i => .mark i
  | .sweepPlaces => .sweep

-- A text comes with its length, which leaves room for the NUL, and no sweep takes the length of a text
-- that lives.
def RegistryCall.Proper (s : Registry) (call : RegistryCall) : Prop :=
  call.Tidy s ∧ ∀ text length stack, call = .staridize text length stack → 1 ≤ length

def collected (reservations : Nat → Option Nat) : System Registry RegistryCall :=
  (registry reservations).restrict RegistryCall.Proper

structure Shows (reservations : Nat → Option Nat) (others : List PageManager.Chunk) (s : Registry)
    (r : Collected (List Byte)) : Prop where
  stocked : Stocked reservations others s.alar s.world r.table.textAt
  capacity : r.capacity = s.alar.starIDMaxCount
  marks : ∀ i, i ∈ r.marks ↔ isAlive s.alar s.world i = true

section Marks

theorem setMarkedAlive_marked (place : StarPlace) (mark : Bool) :
    (place.setMarkedAlive mark).isMarkedAlive = mark := by
  have clear : ~~~stringFlags.gcMarkRawMask &&& stringFlags.gcMarkRawMask = 0#64 := by decide
  cases mark with
  | false => simp [StarPlace.isMarkedAlive, StarPlace.setMarkedAlive, BitVec.and_assoc, clear]
  | true =>
      have set : (place.lenAndMark ||| stringFlags.gcMarkRawMask) &&& stringFlags.gcMarkRawMask =
          stringFlags.gcMarkRawMask := by
        ext i
        simp
        tauto
      simp [StarPlace.isMarkedAlive, StarPlace.setMarkedAlive, set]
      decide

variable {alar alar' : ALAR} {w w' middle : AlarWorld}

theorem marked_after (i : Nat) (mark : Bool)
    (written : setElement w alar.placelist asPlaces .places i (fun place => place.setMarkedAlive mark) =
      .ok w') (j : Nat) : isMarked alar w' j = if j = i then mark else isMarked alar w j := by
  obtain ⟨o, places, place, there, seen, at', rfl⟩ := setElement_inv written
  have inside := (List.getElem?_eq_some_iff.mp at').1
  have before : placeAt alar w j = (places[j]?).elim (.error (.invalidAccess alar.placelist)) .ok := by
    simp only [placeAt, element, read, there, seen, Result.ok_bind]
    cases places[j]? <;> rfl
  have after : placeAt alar (store w alar.placelist (.places (places.set i (place.setMarkedAlive mark)))) j =
      ((places.set i (place.setMarkedAlive mark))[j]?).elim (.error (.invalidAccess alar.placelist)) .ok := by
    simp only [placeAt, element, read, store_here, asPlaces, Result.ok_bind]
    cases (places.set i (place.setMarkedAlive mark))[j]? <;> rfl
  unfold isMarked
  rw [before, after]
  by_cases here : j = i
  · rw [if_pos here, here, List.getElem?_set_self inside]
    exact setMarkedAlive_marked place mark
  · rw [if_neg here, List.getElem?_set_ne (Ne.symm here)]

variable {reservations : Nat → Option Nat} {others : List PageManager.Chunk}
  {texts : Nat → Option (List Byte)} {stack : List Byte} {text : Option (List Byte)} {length i ref : Nat}
  {id : Atom}

theorem Entered.marked (reserves : Reserves reservations)
    (stocked : Stocked reservations others alar w texts)
    (entered : Entered alar w stack text length id alar' w' i ref middle) (short : length < 2 ^ 63)
    (j : Nat) : isMarked alar' w' j = if j = i then false else isMarked alar w j := by
  by_cases here : j = i
  · obtain ⟨place, there⟩ := entered.here
    rw [if_pos here, here, isMarked, there]
    exact setLen_unmarked _ length
  · obtain ⟨chars, written⟩ := entered.written
    have same := writeText_places reserves stocked text length short chars ref written
    have place : placeAt alar' w' j = placeAt alar w j := by
      rw [entered.there j here]
      simp only [placeAt, element, read, same]
    rw [if_neg here, isMarked, place]
    rfl

end Marks

section Steps

variable {reservations : Nat → Option Nat} {others : List PageManager.Chunk} {s t : Registry}
  {r : Collected (List Byte)}

theorem Shows.alive (shown : Shows reservations others s r) (i : Nat) :
    i ∈ r.marks ↔ (∃ text, r.table.textAt i = some text) ∧ isMarked s.alar s.world i = true := by
  rw [shown.marks, isAlive, shown.stocked.occupied, Bool.and_eq_true, Option.isSome_iff_exists]

theorem Shows.of_marks
    (stocked : Stocked reservations others t.alar t.world r.table.textAt)
    (capacity : r.capacity = t.alar.starIDMaxCount)
    (marks : ∀ i text, r.table.textAt i = some text → (i ∈ r.marks ↔ isMarked t.alar t.world i = true)) :
    Shows reservations others t r := by
  refine ⟨stocked, capacity, fun i => ?_⟩
  rw [isAlive, stocked.occupied, Bool.and_eq_true, Option.isSome_iff_exists]
  constructor
  · intro member
    obtain ⟨text, held⟩ := r.within i member
    exact ⟨⟨text, held⟩, (marks i text held).mp member⟩
  · rintro ⟨⟨text, held⟩, marked⟩
    exact (marks i text held).mpr marked

theorem Shows.staridize (reserves : Reserves reservations) (shown : Shows reservations others s r)
    (text : Option (List Byte)) (length : Nat) (stack : List Byte) (nonzero : 1 ≤ length)
    (short : length < 2 ^ 63) (id : Atom)
    (made : ALAR.staridize s.alar s.world stack text length = .ok (id, t.alar, t.world)) :
    ∃ r', Collected.Step r (.intern ((text.getD []).take length)) r' ∧ Shows reservations others t r' := by
  have stocked := shown.stocked
  cases text with
  | none =>
      have zero := staridize_null stack length _ made
      omega
  | some raw =>
      obtain ⟨forFound, found, _⟩ := (Result.bind_ok _ _ _).mp made
      have key := keyOf_explicit raw length nonzero (readable_of_ok _ _ _ _ _ nonzero _ found)
      obtain ⟨i, small, named, ⟨first, same⟩ | ⟨absent, free, used, stocked'⟩⟩ :=
        (staridize_stocked reserves stocked stack raw length short _ key).holds _ made
      · obtain ⟨alar, world⟩ := Prod.mk.inj same
        refine ⟨r, .again r _ i first.1, ?_, ?_, ?_⟩
        · rw [alar, world]
          exact stocked
        · rw [alar]
          exact shown.capacity
        · rw [alar, world]
          exact shown.marks
      · have missing : getStarIdOf s.alar s.world stack (some raw) length = .ok brokenAtom := by
          obtain ⟨held, places, hashes, flags, keeps, shelves⟩ := stocked
          rcases getStarIdOf_first keeps shelves stack raw length _ key with ⟨k, _, first, _⟩ | ⟨_, missing⟩
          · exact (absent k first.1).elim
          · exact missing
        obtain ⟨j, ref, middle, entered⟩ := staridize_entered stack (some raw) length missing id _ _ made
        obtain ⟨free', used'⟩ := stocked.vacant j entered.vacant entered.inside
        have here : i = j := Nat.le_antisymm (Nat.le_of_not_lt fun before => used j before free')
          (Nat.le_of_not_lt fun after => used' i after free)
        subst here
        have absent : r.table.Absent (raw.take length) := absent
        have next : r.Next i := ⟨shown.capacity ▸ entered.inside, free, used⟩
        refine ⟨r.enter i _ absent next, .enter r _ i absent next, .of_marks stocked' ?_ ?_⟩
        · rw [entered.grown]
          exact shown.capacity
        · intro j other held
          rw [entered.marked reserves stocked short j]
          by_cases here : j = i
          · rw [if_pos here, here]
            refine iff_of_false (fun member => ?_) (by simp)
            obtain ⟨_, held'⟩ := r.within i member
            rw [free] at held'
            cases held'
          · rw [if_neg here]
            rw [Collected.enter_there j here] at held
            exact (shown.alive j).trans (and_iff_right ⟨other, held⟩)

theorem Shows.mark (shown : Shows reservations others s r) (i : Nat)
    (occupied : isOccupied s.alar s.world i = true) (same : t.alar = s.alar)
    (marked : setElement s.world s.alar.placelist asPlaces .places i
      (fun place => place.setMarkedAlive true) = .ok t.world) :
    ∃ r', Collected.Step r (.mark i) r' ∧ Shows reservations others t r' := by
  have stocked := shown.stocked
  have used := occupied
  rw [stocked.occupied, Option.isSome_iff_exists] at used
  have stocked' := stocked.mark i _ occupied marked
  refine ⟨r.mark i used, .mark r i used, .of_marks (same ▸ stocked') (same ▸ shown.capacity) ?_⟩
  intro j text held
  rw [same, marked_after i true marked j]
  by_cases here : j = i
  · rw [if_pos here]
    exact iff_of_true (.inl here) rfl
  · rw [if_neg here]
    exact (or_iff_right here).trans ((shown.alive j).trans (and_iff_right ⟨text, held⟩))

theorem Shows.sweep (shown : Shows reservations others s r) (harmless : Harmless s.alar s.world) :
    ∃ world, sweepPlaces s.alar s.world = .ok (r.dead.ncard, world) ∧
      Shows reservations others ⟨s.alar, world⟩ r.sweep := by
  have stocked := shown.stocked
  obtain ⟨world, swept, done⟩ := sweepPlaces_swept stocked harmless
  have listed (i : Nat) (text : List Byte) (held : r.table.textAt i = some text) :
      i ∈ List.range s.alar.createdPlacesCount := List.mem_range.mpr (stocked.created i text held)
  have dead (i : Nat) (text : List Byte) (held : r.table.textAt i = some text) :
      isDead s.alar s.world i = true ↔ i ∉ r.marks := by
    rw [shown.alive, isDead, stocked.occupied, held]
    simp
  have number : ((List.range s.alar.createdPlacesCount).filter (isDead s.alar s.world)).length =
      r.dead.ncard := by
    have once := List.nodup_range.filter (isDead s.alar s.world) (l := List.range s.alar.createdPlacesCount)
    rw [← List.toFinset_card_of_nodup once, ← Set.ncard_coe_finset]
    congr 1
    ext i
    rw [Finset.mem_coe, List.mem_toFinset, List.mem_filter]
    cases held : r.table.textAt i with
    | none => simp [Collected.dead, isDead, stocked.occupied, held]
    | some text => simp [Collected.dead, held, dead i text held, listed i text held]
  have left : (fun i => if i ∈ List.range s.alar.createdPlacesCount ∧ isDead s.alar s.world i = true
      then none else r.table.textAt i) = r.sweep.table.textAt := by
    funext i
    simp only [Collected.sweep, Table.keep]
    cases held : r.table.textAt i with
    | none => simp
    | some text =>
        by_cases marked : i ∈ r.marks
        · rw [if_neg (fun both => (dead i text held).mp both.2 marked), if_pos marked]
        · rw [if_pos ⟨listed i text held, (dead i text held).mpr marked⟩, if_neg marked]
  refine ⟨world, number ▸ swept, .of_marks (left ▸ done.stocked) shown.capacity fun i text held => ?_⟩
  rw [← left] at held
  refine iff_of_false id ?_
  dsimp only at held
  split at held
  · cases held
  next lives =>
    -- the mark of a place that lives is taken
    obtain ⟨place, _, _, after, _⟩ := done.kept i text (listed i text held) held
      (Bool.eq_false_iff.mpr fun gone => lives ⟨listed i text held, gone⟩)
    rw [isMarked, after]
    simp only [setMarkedAlive_marked]
    exact Bool.false_ne_true

end Steps

structure Serves (s : Registry) (r : Collected (List Byte)) : Prop where
  read : ∀ i text, r.table.textAt i = some text → lenOf s.alar s.world (starIdOf i) = .ok text.length ∧
    getRaw s.alar s.world (starIdOf i) = .ok (text ++ [0#8])
  known : ∀ i raw length rest, Explicit length → length ≤ raw.length →
    r.table.textAt i = some (raw.take length) →
      getStarIdOf s.alar s.world (0#8 :: rest) (some raw) length = .ok (starIdOf i) ∧
      staridize s.alar s.world (0#8 :: rest) (some raw) length = .ok (starIdOf i, s.alar, s.world)
  missing : ∀ raw length rest, Explicit length → length ≤ raw.length →
    r.table.Absent (raw.take length) →
      getStarIdOf s.alar s.world (0#8 :: rest) (some raw) length = .ok brokenAtom
  full : ∀ raw length rest, Explicit length → length ≤ raw.length → r.table.Absent (raw.take length) →
    (∀ i < r.capacity, r.table.textAt i ≠ none) →
      staridize s.alar s.world (0#8 :: rest) (some raw) length =
        .error (.outOfMemory "ALAR of Thread is full!")
  next : ∀ raw length rest made i, Explicit length → HasRoom length → length ≤ raw.length →
    r.table.Absent (raw.take length) → r.Next i →
      staridize s.alar s.world (0#8 :: rest) (some raw) length = .ok made → made.1 = starIdOf i
  swept : Harmless s.alar s.world →
    ∃ world, sweepPlaces s.alar s.world = .ok (r.dead.ncard, world)

section Runs

variable {reservations : Nat → Option Nat} {others : List PageManager.Chunk} {s : Registry}
  {r : Collected (List Byte)}

theorem Shows.serves (reserves : Reserves reservations) (shown : Shows reservations others s r) :
    Serves s r := by
  have stocked := shown.stocked
  have few := stocked.few
  have below (i : Nat) (text : List Byte) (held : r.table.textAt i = some text) : i < 2 ^ 16 := by
    have := stocked.created i text held
    omega
  obtain ⟨held, places, hashes, flags, keeps, shelves⟩ := id stocked
  -- an absent text is not found
  have missing (raw : List Byte) (length : Nat) (rest : List Byte) (explicit : Explicit length)
      (readable : length ≤ raw.length) (absent : r.table.Absent (raw.take length)) :
      getStarIdOf s.alar s.world (0#8 :: rest) (some raw) length = .ok brokenAtom := by
    rcases getStarIdOf_first keeps shelves (0#8 :: rest) raw length _
      (keyOf_explicit raw length explicit.1 readable) with ⟨i, _, first, _⟩ | ⟨_, missing⟩
    · exact (absent i first.1).elim
    · exact missing
  constructor
  case read =>
    intro i text there
    have small := below i text there
    obtain ⟨place, stored, len, chars⟩ := placeAt_ok keeps shelves i text there
    have created := stocked.created i text there
    rw [lenOf, getRaw, starIdToNum_starIdOf i small, if_pos (.inr created), if_pos (.inr created), stored]
    exact ⟨congrArg Except.ok len, chars⟩
  case known =>
    intro i raw length rest explicit readable there
    have key := keyOf_explicit raw length explicit.1 readable
    have first : FirstAt r.table.textAt i (raw.take length) := ⟨there, fun k before again => by
      have := r.table.once i k _ there again
      omega⟩
    have named := numToStarId_ok rest i (below i _ there)
    have returned := staridize_first keeps shelves (0#8 :: rest) raw length _ key i first
    rw [named] at returned
    refine ⟨?_, returned⟩
    rcases getStarIdOf_first keeps shelves (0#8 :: rest) raw length _ key with
      ⟨j, _, there', found⟩ | ⟨absent, _⟩
    · rw [found, r.table.once j i _ there'.1 there, named]
    · exact (absent i there).elim
  case missing => exact missing
  case full =>
    intro raw length rest explicit readable absent all
    obtain ⟨i, searched, free, _⟩ := freePlace_ok keeps shelves s.alar.starIDMaxCount 0 (Nat.zero_add _)
    have past : i ≥ s.alar.starIDMaxCount := Nat.le_of_not_lt fun room =>
      all i (shown.capacity ▸ room) (free room)
    rw [ALAR.staridize, missing raw length rest explicit readable absent, Result.ok_bind, if_neg (by simp),
      searched, Result.ok_bind, if_pos past]
  case next =>
    intro raw length rest made i explicit _ readable absent next returned
    obtain ⟨j, small, named, ⟨first, _⟩ | ⟨_, free, used, _⟩⟩ := (staridize_stocked reserves stocked
      (0#8 :: rest) raw length explicit.2 _ (keyOf_explicit raw length explicit.1 readable)).holds _ returned
    · exact (absent j first.1).elim
    · have same : j = i := Nat.le_antisymm (Nat.le_of_not_lt fun before => used i before next.free)
        (Nat.le_of_not_lt fun before => next.first j before free)
      rw [numToStarId_ok rest j small, same] at named
      exact (Except.ok.inj named).symm
  case swept =>
    intro harmless
    obtain ⟨world, swept, _⟩ := shown.sweep harmless
    exact ⟨world, swept⟩

theorem Shows.step (reserves : Reserves reservations) (shown : Shows reservations others s r)
    (call : RegistryCall) {t : Registry} (taken : (collected reservations).step s call t) :
    ∃ r', Collected.Step r call.order r' ∧ Shows reservations others t r' := by
  obtain ⟨⟨⟨harmless, _⟩, explicit⟩, taken⟩ := taken
  cases call with
  | staridize text length stack =>
      obtain ⟨short, id, made⟩ := taken
      exact shown.staridize reserves text length stack (explicit text length stack rfl) short id made
  | mark i =>
      obtain ⟨occupied, same, marked⟩ := taken
      exact shown.mark i occupied same marked
  | sweepPlaces =>
      obtain ⟨alar, world⟩ := t
      obtain ⟨rfl, killed, swept⟩ := taken
      obtain ⟨_, swept', shown'⟩ := shown.sweep harmless
      obtain ⟨_, rfl⟩ := Prod.mk.inj (Except.ok.inj (swept.symm.trans swept'))
      exact ⟨r.sweep, .sweep r, shown'⟩

theorem registry_simulates (reserves : Reserves reservations) :
    (collected reservations).Simulates Collected.system (fun s r => ∃ others, Shows reservations others s r)
      fun _ call => call.order where
  start := by
    rintro s ⟨Memory, links, creating, after, others, live, bins, starIDMaxCount, sound, ushort, made⟩
    have sane := (construct_meets reserves creating others live bins sound starIDMaxCount ushort).holds _ made
    exact ⟨.new s.alar.starIDMaxCount, ⟨_, rfl⟩, _, .of_marks sane.stocked rfl fun i text held => by cases held⟩
  step := by
    rintro s r call t ⟨others, shown⟩ taken
    obtain ⟨r', move, shown'⟩ := shown.step reserves call taken
    exact ⟨r', move, others, shown'⟩

theorem registry_collected (reserves : Reserves reservations) (s : Registry)
    (reached : (collected reservations).Reachable s) : ∃ r : Collected (List Byte),
    Collected.system.Reachable r ∧ (∃ others, Shows reservations others s r) ∧ Serves s r ∧
      ∀ call t, (collected reservations).step s call t →
        ∃ r', Collected.Step r call.order r' ∧ ∃ others, Shows reservations others t r' := by
  have simulates := registry_simulates reserves
  obtain ⟨r, made, others, shown⟩ := simulates.reachable reached
  exact ⟨r, made, ⟨others, shown⟩, shown.serves reserves,
    fun call t taken => simulates.step s r call t ⟨others, shown⟩ taken⟩

end Runs

theorem registry_collected_survivor : ∃ (s : Registry) (r : Collected (List Byte)),
    (collected PageManager.rowOfRegions).Reachable s ∧ (∃ others, Shows PageManager.rowOfRegions others s r) ∧
      Serves s r ∧ ∃ i, r.table.textAt i = some [98#8] := by
  have run : Result.passes (PageManager.construct PageManager.rowOfRegions) (fun fresh =>
      Result.passes (MetaArena.construct fresh pageSize (Heap.empty : Heap AlarObject)) fun creating =>
      Result.passes (construct (some creating) 4) fun made =>
      Result.passes (staridize made.1 made.2.1 [0#8] (some [97#8]) 1) fun one =>
      Result.passes (staridize one.2.1 one.2.2 [0#8] (some [98#8]) 1) fun two =>
      Result.passes (setElement two.2.2 two.2.1.placelist asPlaces .places 1 fun place =>
        place.setMarkedAlive true) fun marked =>
      Result.passes (sweepPlaces two.2.1 marked) fun swept =>
      isOccupied two.2.1 two.2.2 1 && !isMarked two.2.1 marked 0 && swept.1 = 1 &&
        Result.passes (getStarIdOf two.2.1 swept.2 [0#8] (some [98#8]) 1) fun id =>
          id = 0x80000001#32) = true := by decide +kernel
  simp only [Result.passes_iff, Bool.and_eq_true, Bool.not_eq_true', decide_eq_true_eq] at run
  obtain ⟨fresh, first, creating, built, ⟨alar, world, after⟩, made, ⟨_, alar₁, world₁⟩, one,
    ⟨_, alar₂, world₂⟩, two, marked, mark, ⟨_, swept⟩, sweep,
    ⟨⟨occupied, unmarked⟩, rfl⟩, id, again, rfl⟩ := run
  have sound := MetaArena.firstPage_sound fresh first _ _ built
  have started : (collected PageManager.rowOfRegions).Reachable ⟨alar, world⟩ :=
    .start ⟨_, _, creating, after, _, _, _, 4, sound, by decide, made⟩
  have second : (collected PageManager.rowOfRegions).step ⟨alar, world⟩
      (.staridize (some [97#8]) 1 [0#8]) ⟨alar₁, world₁⟩ :=
    ⟨⟨⟨trivial, .inr (by decide)⟩, by rintro _ _ _ ⟨⟩; decide⟩, by decide, _, one⟩
  have third : (collected PageManager.rowOfRegions).step ⟨alar₁, world₁⟩
      (.staridize (some [98#8]) 1 [0#8]) ⟨alar₂, world₂⟩ :=
    ⟨⟨⟨trivial, .inr (by decide)⟩, by rintro _ _ _ ⟨⟩; decide⟩, by decide, _, two⟩
  have fourth : (collected PageManager.rowOfRegions).step ⟨alar₂, world₂⟩ (.mark 1) ⟨alar₂, marked⟩ :=
    ⟨⟨⟨trivial, trivial⟩, by rintro _ _ _ ⟨⟩⟩, occupied, rfl, mark⟩
  have harmless : Harmless alar₂ marked := by
    intro _ _ _ also
    rw [unmarked] at also
    cases also
  have fifth : (collected PageManager.rowOfRegions).step ⟨alar₂, marked⟩ .sweepPlaces ⟨alar₂, swept⟩ :=
    ⟨⟨⟨harmless, trivial⟩, by rintro _ _ _ ⟨⟩⟩, rfl, _, sweep⟩
  have reached := ((((started.step second).step third).step fourth).step fifth)
  obtain ⟨r, _, shown, serves, _⟩ := registry_collected rowOfRegions_reserves _ reached
  refine ⟨_, r, reached, shown, serves, ?_⟩
  by_contra none
  have missed := serves.missing [98#8] 1 [] ⟨by decide, by decide⟩ (by decide) fun i held => none ⟨i, held⟩
  rw [again] at missed
  cases missed

end ALAR

end ElySquare
