import Mathlib.Data.List.Forall2
import ElySquare.Meta.StarIdRun

set_option autoImplicit false

namespace ElySquare

namespace StarPlace

theorem setMarkedAlive_len (place : StarPlace) (mark : Bool) :
    (place.setMarkedAlive mark).len = place.len := by
  have clear : stringFlags.gcMarkRawMask &&& ~~~stringFlags.gcMarkRawMask = 0#64 := by decide
  cases mark with
  | false => simp only [len, setMarkedAlive, Bool.false_eq_true, if_false, BitVec.and_assoc, BitVec.and_self]
  | true =>
      simp only [len, setMarkedAlive, if_true, BitVec.and_or_distrib_right, clear, BitVec.or_zero]

theorem cleared_zero (place : StarPlace) (empty : place.len = 0) :
    (place.setMarkedAlive false).lenAndMark = 0#64 :=
  BitVec.eq_of_toNat_eq empty

end StarPlace

namespace ALAR

open Interning Transition

def isOccupied (alar : ALAR) (w : AlarWorld) (i : Nat) : Bool :=
  match flagAt alar w i with
  | .ok flag => decide (flag ≠ 0#8)
  | .error _ => false

def isMarked (alar : ALAR) (w : AlarWorld) (i : Nat) : Bool :=
  match placeAt alar w i with
  | .ok place => place.isMarkedAlive
  | .error _ => false

def isDead (alar : ALAR) (w : AlarWorld) (i : Nat) : Bool := isOccupied alar w i && !isMarked alar w i

def Frees (alar : ALAR) (w : AlarWorld) (i : Nat) (event : Loans.Event Nat Nat) : Prop :=
  ∃ place ptr, placeAt alar w i = .ok place ∧ textPtr w place = .ok ptr ∧ event = .returned ptr place.len

def Moved (alar : ALAR) (w w' : AlarWorld) (i : Nat) (change : StarPlace → StarPlace) : Prop :=
  ∃ place ptr, placeAt alar w i = .ok place ∧ placeAt alar w' i = .ok (change place) ∧
    textPtr w place = .ok ptr ∧ textPtr w' (change place) = .ok ptr

section Round

variable {reservations : Nat → Option Nat} {others : List PageManager.Chunk} {alar : ALAR}
  {w w' w'' : AlarWorld} {held held' : Nat → Option AlarObject} {texts texts' : Nat → Option (List Byte)}
  {places places' : List StarPlace} {hashes hashes' : List (BitVec 64)} {flags flags' : List Byte}
  {i : Nat}

theorem occupied_eq (keeps : Keeps reservations others [] w held)
    (shelves : Shelves alar held texts places hashes flags) (i : Nat) :
    isOccupied alar w i = (texts i).isSome := by
  cases at' : texts i with
  | some text => simp [isOccupied, flagAt_some keeps shelves i text at']
  | none =>
      by_cases inside : i < alar.starIDMaxCount
      · simp [isOccupied, flagAt_none keeps shelves i inside at']
      · have beyond : flags[i]? = none := List.getElem?_eq_none (by have := shelves.lengths; omega)
        simp only [isOccupied, flagAt, element, read_ok keeps _ _ shelves.idmap asFlags flags rfl,
          Result.ok_bind, beyond]
        rfl

theorem marked_eq (keeps : Keeps reservations others [] w held)
    (shelves : Shelves alar held texts places hashes flags) (i : Nat) (place : StarPlace)
    (at' : places[i]? = some place) : isMarked alar w i = place.isMarkedAlive := by
  have there : placeAt alar w i = .ok place :=
    element_ok keeps _ _ shelves.placelist asPlaces places rfl i place at'
  simp only [isMarked, there]

theorem moved_of_places (keeps : Keeps reservations others [] w held)
    (shelves : Shelves alar held texts places hashes flags) (keeps' : Keeps reservations others [] w' held')
    (shelves' : Shelves alar held' texts' places' hashes' flags') (i : Nat) (text : List Byte)
    (holds : texts i = some text) (change : StarPlace → StarPlace)
    (pointer : ∀ place, (change place).ptr = place.ptr) (at' : places'[i]? = places[i]?.map change)
    (refs : ∀ p q, held p = some (.ref q) → held' p = some (.ref q)) : Moved alar w w' i change := by
  obtain ⟨place, ref, ptr, here, points, _, there, _⟩ := (shelves.entries i text holds).stored
  rw [here] at at'
  refine ⟨place, ptr, element_ok keeps _ _ shelves.placelist asPlaces places rfl i place here,
    element_ok keeps' _ _ shelves'.placelist asPlaces places' rfl i _ at', ?_, ?_⟩
  · simp only [textPtr, points, read_ok keeps ref _ there asRef ptr rfl]
  · simp only [textPtr, pointer, points, read_ok keeps' ref _ (refs ref ptr there) asRef ptr rfl]

theorem Moved.trans {i : Nat} {first second : StarPlace → StarPlace} (left : Moved alar w w' i first)
    (right : Moved alar w' w'' i second) : Moved alar w w'' i (second ∘ first) := by
  obtain ⟨place, ptr, at₁, at₂, text₁, text₂⟩ := left
  obtain ⟨place', ptr', at₂', at₃, text₂', text₃⟩ := right
  obtain rfl := Except.ok.inj (at₂.symm.trans at₂')
  obtain rfl := Except.ok.inj (text₂.symm.trans text₂')
  exact ⟨place, ptr, at₁, at₃, text₁, text₃⟩

theorem Moved.marked {i : Nat} (moved : Moved alar w w' i id) :
    isMarked alar w' i = isMarked alar w i := by
  obtain ⟨place, _, before, after, _, _⟩ := moved
  simp only [isMarked, before, after, id]

theorem Moved.frees {i : Nat} (moved : Moved alar w w' i id) (event : Loans.Event Nat Nat)
    (frees : Frees alar w' i event) : Frees alar w i event := by
  obtain ⟨place, ptr, before, after, text, text'⟩ := moved
  obtain ⟨place', ptr', after', text'', rfl⟩ := frees
  obtain rfl := Except.ok.inj (after.symm.trans after')
  obtain rfl := Except.ok.inj (text'.symm.trans text'')
  exact ⟨place, ptr, before, text, rfl⟩

structure Swept (reservations : Nat → Option Nat) (others : List PageManager.Chunk) (alar : ALAR)
    (w : AlarWorld) (texts : Nat → Option (List Byte)) (range : List Nat) (w' : AlarWorld) : Prop where
  stocked : Stocked reservations others alar w'
    fun i => if i ∈ range ∧ isDead alar w i = true then none else texts i
  same : ∀ i text, i ∉ range → texts i = some text → Moved alar w w' i id
  kept : ∀ i text, i ∈ range → texts i = some text → isDead alar w i = false →
    Moved alar w w' i fun place => place.setMarkedAlive false
  returned : ∃ events, List.Forall₂ (Frees alar w) (range.filter (isDead alar w)) events ∧
    w'.calls = events.reverse ++ w.calls

theorem Stocked.moved_refl (stocked : Stocked reservations others alar w texts) (i : Nat)
    (text : List Byte) (holds : texts i = some text) : Moved alar w w i id := by
  obtain ⟨held, places, hashes, flags, keeps, shelves⟩ := stocked
  exact moved_of_places keeps shelves keeps shelves i text holds id (fun _ => rfl) (by simp)
    fun _ _ there => there

theorem Swept.nil (stocked : Stocked reservations others alar w texts) :
    Swept reservations others alar w texts [] w :=
  ⟨by simpa using stocked, fun i text _ holds => stocked.moved_refl i text holds,
    fun _ _ member => (by cases member), [], .nil, rfl⟩

theorem Stocked.occupied (stocked : Stocked reservations others alar w texts) (i : Nat) :
    isOccupied alar w i = (texts i).isSome := by
  obtain ⟨held, places, hashes, flags, keeps, shelves⟩ := stocked
  exact occupied_eq keeps shelves i

theorem Swept.dead (swept : Swept reservations others alar w texts [i] w')
    (stocked : Stocked reservations others alar w texts) (j : Nat) (other : j ≠ i) :
    isDead alar w' j = isDead alar w j := by
  have outside : j ∉ [i] := by simpa using other
  have occupied := swept.stocked.occupied j
  simp only [outside, false_and, if_false] at occupied
  rw [← stocked.occupied j] at occupied
  cases holds : texts j with
  | none =>
      have empty : isOccupied alar w j = false := by simp [stocked.occupied j, holds]
      simp [isDead, occupied, empty]
  | some text => simp only [isDead, occupied, (swept.same j text outside holds).marked]

theorem Swept.cons (stocked : Stocked reservations others alar w texts) (rest : List Nat)
    (new : i ∉ rest) (swept : Swept reservations others alar w texts [i] w')
    (swept' : Swept reservations others alar w'
      (fun j => if j ∈ [i] ∧ isDead alar w j = true then none else texts j) rest w'') :
    Swept reservations others alar w texts (i :: rest) w'' := by
  have dead (j : Nat) (member : j ∈ rest) : isDead alar w' j = isDead alar w j :=
    swept.dead stocked j fun same => new (same ▸ member)
  have filtered : rest.filter (isDead alar w') = rest.filter (isDead alar w) :=
    List.filter_congr dead
  refine ⟨?_, fun j text outside holds => ?_, fun j text inside holds alive => ?_, ?_⟩
  · convert swept'.stocked using 2 with j
    by_cases member : j ∈ rest
    · have other : j ≠ i := fun same => new (same ▸ member)
      simp [member, other, dead j member]
    · simp only [List.mem_cons, List.not_mem_nil, or_false, member, false_and, if_false]
  · obtain ⟨other, outside⟩ := not_or.mp (mt List.mem_cons.mpr outside)
    have first := swept.same j text (by simpa using other) holds
    exact first.trans (swept'.same j text outside (by simpa [other] using holds))
  · by_cases here : j = i
    · subst here
      have first := swept.kept j text List.mem_cons_self holds alive
      exact first.trans (swept'.same j text new (by simpa [alive] using holds))
    · have later := (List.mem_cons.mp inside).resolve_left here
      have first := swept.same j text (by simpa using here) holds
      exact first.trans (swept'.kept j text later (by simpa [here] using holds)
        ((dead j later).trans alive))
  · obtain ⟨events, frees, calls⟩ := swept.returned
    obtain ⟨events', frees', calls'⟩ := swept'.returned
    refine ⟨events ++ events', ?_, by rw [calls', calls, List.reverse_append, List.append_assoc]⟩
    have moved (j : Nat) (listed : j ∈ rest.filter (isDead alar w)) : Moved alar w w' j id := by
      obtain ⟨member, killed⟩ := List.mem_filter.mp listed
      have occupied := (Bool.and_eq_true_iff.mp killed).1
      rw [stocked.occupied j] at occupied
      obtain ⟨text, holds⟩ := Option.isSome_iff_exists.mp occupied
      refine swept.same j text ?_ holds
      simpa using fun same : j = i => new (same ▸ member)
    rw [filtered] at frees'
    rw [show i :: rest = [i] ++ rest from rfl, List.filter_append]
    exact List.rel_append frees (((List.forall₂_and_left _ _).mpr ⟨moved, frees'⟩).imp
      fun j event both => both.1.frees event both.2)

theorem setElement_calls {Element : Type} (p : Nat) (view : AlarObject → Option (List Element))
    (wrap : List Element → AlarObject) (change : Element → Element)
    (written : setElement w p view wrap i change = .ok w') : w'.calls = w.calls := by
  obtain ⟨array, _, stored⟩ := (Result.bind_ok _ _ _).mp written
  split at stored
  · cases stored
    rfl
  · cases stored

theorem texts_one (w : AlarWorld) (i : Nat) (texts : Nat → Option (List Byte)) :
    (fun j => if j ∈ [i] ∧ isDead alar w j = true then none else texts j) =
      if isDead alar w i = true then Function.update texts i none else texts := by
  funext j
  by_cases here : j = i <;> by_cases dead : isDead alar w i = true <;> simp [here, dead]

theorem sweepPlace_vacant (stocked : Stocked reservations others alar w texts)
    (inside : i < alar.starIDMaxCount) (empty : texts i = none) :
    sweepPlace alar w i = .ok (isDead alar w i, w) ∧
      Swept reservations others alar w texts [i] w := by
  have alive : isDead alar w i = false := by simp [isDead, stocked.occupied i, empty]
  have same (j : Nat) (text : List Byte) (holds : texts j = some text) := stocked.moved_refl j text holds
  have stocked' := stocked
  obtain ⟨held, places, hashes, flags, keeps, shelves⟩ := stocked
  refine ⟨?_, ?_, fun j text _ => same j text, fun j text member holds => ?_, ?_⟩
  · rw [sweepPlace, flagAt_none keeps shelves i inside empty, Result.ok_bind, if_pos rfl, alive]
  · rw [texts_one, if_neg (by simp [alive])]
    exact stocked'
  · rw [List.mem_singleton.mp member, empty] at holds
    cases holds
  · exact ⟨[], by simp [alive], rfl⟩

theorem sweepPlace_marked (stocked : Stocked reservations others alar w texts) (text : List Byte)
    (holds : texts i = some text) (marked : isMarked alar w i = true) :
    ∃ w', sweepPlace alar w i = .ok (isDead alar w i, w') ∧
      Swept reservations others alar w texts [i] w' := by
  have alive : isDead alar w i = false := by simp [isDead, marked]
  obtain ⟨held, places, hashes, flags, keeps, shelves⟩ := stocked
  obtain ⟨place, ref, ptr, at', _⟩ := (shelves.entries i text holds).stored
  have inside : i < places.length := (List.getElem?_eq_some_iff.mp at').1
  have there : placeAt alar w i = .ok place :=
    element_ok keeps _ _ shelves.placelist asPlaces places rfl i place at'
  rw [marked_eq keeps shelves i place at'] at marked
  obtain ⟨w', cleared, keeps'⟩ := setElement_ok keeps _ _ shelves.placelist asPlaces places rfl .places i
    inside (fun place => place.setMarkedAlive false) (by simp [Sized.size])
  rw [(List.getElem?_eq_some_iff.mp at').2] at keeps'
  have shelves' := shelves.replace i place (place.setMarkedAlive false) at' fun _ _ =>
    ⟨rfl, place.setMarkedAlive_len false⟩
  have refs (p q : Nat) (atP : held p = some (.ref q)) :
      Function.update held alar.placelist (some (.places (places.set i (place.setMarkedAlive false)))) p =
        some (.ref q) := by
    rw [Function.update_of_ne (ne_of_held atP shelves.placelist (by simp)), atP]
  refine ⟨w', ?_, ?_, fun j text' outside holds' => ?_, fun j text' member holds' _ => ?_, ?_⟩
  · rw [sweepPlace, flagAt_some keeps shelves i text holds, Result.ok_bind, if_neg (by decide), there,
      Result.ok_bind, if_pos marked, cleared, alive]
    rfl
  · rw [texts_one, if_neg (by simp [alive])]
    exact ⟨_, _, _, _, keeps', shelves'⟩
  · refine moved_of_places keeps shelves keeps' shelves' j text' holds' id (fun _ => rfl) ?_ refs
    have other : j ≠ i := by simpa using outside
    rw [List.getElem?_set_ne other.symm]
    simp
  · obtain rfl := List.mem_singleton.mp member
    refine moved_of_places keeps shelves keeps' shelves' j text holds _ (fun _ => rfl) ?_ refs
    rw [List.getElem?_set_self inside, at']
    rfl
  · exact ⟨[], by simp [alive], setElement_calls _ _ _ _ cleared⟩

-- The writes of a round at a dead place: the text's block goes back, the first place gets length 0, and
-- the flag is cleared.
theorem dead_writes (keeps : Keeps reservations others [] w held)
    (shelves : Shelves alar held texts places hashes flags) (text : List Byte)
    (holds : texts i = some text) (ptr : Nat) (block : blockOf held places i = some ptr)
    (chars : held ptr = some (.text (text ++ [0#8]))) (first : StarPlace) (zero : places[0]? = some first)
    (fits : ∀ text', Function.update texts i none 0 = some text' → first.lenAndMark = 0#64) :
    ∃ w₁ w₂ held', setElement (MetaArena.metarecycle w ptr text.length) alar.placelist asPlaces .places 0
        (fun place => { place with lenAndMark := 0#64 }) = .ok w₁ ∧
      setElement w₁ alar.idmap asFlags .flags i (fun _ => 0#8) = .ok w₂ ∧
      Keeps reservations others [] w₂ held' ∧
      Shelves alar held' (Function.update texts i none)
        (places.set 0 { first with lenAndMark := 0#64 }) hashes (flags.set i 0#8) ∧
      ∀ p q, held p = some (.ref q) → held' p = some (.ref q) := by
  obtain ⟨_, idmap, _⟩ := shelves.arrays_apart
  have apart : alar.placelist ≠ ptr := ne_of_held shelves.placelist chars (by simp)
  have apart' : alar.idmap ≠ ptr := ne_of_held shelves.idmap chars (by simp)
  have inside : i < flags.length := shelves.lengths.2.2 ▸ shelves.below i text holds
  obtain ⟨some_, atZero⟩ := List.getElem?_eq_some_iff.mp zero
  have keeps₁ := keeps.free ptr _ text.length chars (by simp [Sized.size])
  obtain ⟨w₁, done₁, keeps₂⟩ := setElement_ok keeps₁ _ _
    ((Function.update_of_ne apart ..).trans shelves.placelist) asPlaces places rfl .places 0 some_
    (fun place => { place with lenAndMark := 0#64 }) (by simp [Sized.size])
  obtain ⟨w₂, done₂, keeps₃⟩ := setElement_ok keeps₂ _ _
    ((Function.update_of_ne idmap ..).trans ((Function.update_of_ne apart' ..).trans shelves.idmap))
    asFlags flags rfl .flags i inside (fun _ => 0#8) (by simp [Sized.size])
  have shelves' := (shelves.vacate i text holds ptr block chars).replace 0 first
    { first with lenAndMark := 0#64 } zero fun text' holds' =>
      ⟨rfl, by rw [StarPlace.len, StarPlace.len, fits text' holds']⟩
  rw [Function.update_comm idmap] at shelves'
  rw [atZero] at keeps₃
  refine ⟨w₁, w₂, _, done₁, done₂, keeps₃, shelves', fun p q atP => ?_⟩
  rw [Function.update_of_ne (ne_of_held atP shelves.idmap (by simp)),
    Function.update_of_ne (ne_of_held atP shelves.placelist (by simp)),
    Function.update_of_ne (ne_of_held atP chars (by simp)), atP]

-- The round at a dead place. It also writes into the first place, which must be without a text then, or
-- with an empty one and no mark.
theorem sweepPlace_dead (stocked : Stocked reservations others alar w texts) (text : List Byte)
    (holds : texts i = some text) (unmarked : isMarked alar w i = false)
    (safe : i ≠ 0 → ∀ first, texts 0 = some first →
      ∃ place, placeAt alar w 0 = .ok place ∧ place.lenAndMark = 0#64) :
    ∃ w', sweepPlace alar w i = .ok (isDead alar w i, w') ∧
      Swept reservations others alar w texts [i] w' := by
  have dead : isDead alar w i = true := by simp [isDead, stocked.occupied i, holds, unmarked]
  obtain ⟨held, places, hashes, flags, keeps, shelves⟩ := stocked
  obtain ⟨place, ref, ptr, at', pointer, len, atRef, chars⟩ := (shelves.entries i text holds).stored
  have block : blockOf held places i = some ptr := by simp [blockOf, at', pointer, atRef, asRef]
  have placed (j : Nat) (place' : StarPlace) (atJ : places[j]? = some place') :
      placeAt alar w j = .ok place' := element_ok keeps _ _ shelves.placelist asPlaces places rfl j _ atJ
  have there := placed i place at'
  have points : textPtr w place = .ok ptr := by
    simp only [textPtr, pointer, read_ok keeps ref _ atRef asRef ptr rfl]
  rw [marked_eq keeps shelves i place at'] at unmarked
  have inside : i < places.length := (List.getElem?_eq_some_iff.mp at').1
  obtain ⟨first, zero⟩ : ∃ first, places[0]? = some first :=
    ⟨_, List.getElem?_eq_getElem (Nat.zero_lt_of_lt inside)⟩
  have fits (text' : List Byte) (holds' : Function.update texts i none 0 = some text') :
      first.lenAndMark = 0#64 := by
    have other : i ≠ 0 := by
      rintro rfl
      simp at holds'
    rw [Function.update_of_ne other.symm] at holds'
    obtain ⟨place', there', empty⟩ := safe other text' holds'
    rw [Except.ok.inj ((placed 0 first zero).symm.trans there'), empty]
  obtain ⟨w₁, w₂, held', done₁, done₂, keeps', shelves', refs⟩ :=
    dead_writes keeps shelves text holds ptr block chars first zero fits
  rw [← len] at done₁
  refine ⟨w₂, ?_, ?_, fun j text' outside holds' => ?_, fun j text' member _ alive => ?_, ?_⟩
  · rw [sweepPlace, flagAt_some keeps shelves i text holds, Result.ok_bind, if_neg (by decide), there,
      Result.ok_bind, if_neg (by simp [unmarked]), points, Result.ok_bind]
    dsimp only
    rw [done₁, Result.ok_bind, done₂, dead]
    rfl
  · rw [texts_one, if_pos dead]
    exact ⟨_, _, _, _, keeps', shelves'⟩
  · have other : j ≠ i := by simpa using outside
    refine moved_of_places keeps shelves keeps' shelves' j text' holds' id (fun _ => rfl) ?_ refs
    by_cases here : j = 0
    · subst here
      have empty := fits text' (by rwa [Function.update_of_ne other])
      rw [List.getElem?_set_self (List.getElem?_eq_some_iff.mp zero).1, zero, Option.map_some, ← empty]
      rfl
    · rw [List.getElem?_set_ne (Ne.symm here), Option.map_id, id]
  · rw [List.mem_singleton.mp member, dead] at alive
    cases alive
  · refine ⟨[.returned ptr place.len], ?_, ?_⟩
    · rw [List.filter_cons_of_pos dead]
      exact .cons ⟨place, ptr, there, points, rfl⟩ .nil
    · rw [setElement_calls _ _ _ _ done₂, setElement_calls _ _ _ _ done₁, (MetaArena.metarecycle_kept ..).2]
      rfl

theorem sweepPlace_swept (stocked : Stocked reservations others alar w texts)
    (inside : i < alar.starIDMaxCount)
    (safe : isDead alar w i = true → i ≠ 0 → ∀ first, texts 0 = some first →
      ∃ place, placeAt alar w 0 = .ok place ∧ place.lenAndMark = 0#64) :
    ∃ w', sweepPlace alar w i = .ok (isDead alar w i, w') ∧
      Swept reservations others alar w texts [i] w' := by
  cases holds : texts i with
  | none => exact ⟨w, sweepPlace_vacant stocked inside holds⟩
  | some text =>
      cases marked : isMarked alar w i with
      | true => exact sweepPlace_marked stocked text holds marked
      | false =>
          refine sweepPlace_dead stocked text holds marked (safe ?_)
          simp [isDead, stocked.occupied i, holds, marked]

theorem sweepFrom_cons (stocked : Stocked reservations others alar w texts)
    (swept : Swept reservations others alar w texts [i] w')
    (round : sweepPlace alar w i = .ok (isDead alar w i, w')) (rounds killed : Nat)
    (rest : ∀ killed, sweepFrom alar rounds (i + 1) killed w' =
      .ok (killed + ((List.range' (i + 1) rounds).filter (isDead alar w')).length, w'')) :
    sweepFrom alar (rounds + 1) i killed w =
      .ok (killed + ((List.range' i (rounds + 1)).filter (isDead alar w)).length, w'') := by
  have same : (List.range' (i + 1) rounds).filter (isDead alar w') =
      (List.range' (i + 1) rounds).filter (isDead alar w) :=
    List.filter_congr fun j member =>
      swept.dead stocked j (by have := (List.mem_range'_1.mp member).1; omega)
  rw [sweepFrom, round, Result.ok_bind]
  dsimp only
  rw [rest, same, List.range'_succ, List.filter_cons]
  by_cases dead : isDead alar w i = true
  · simp only [dead, if_true, List.length_cons, Nat.add_assoc, Nat.add_comm 1]
  · simp only [dead, if_false, Bool.false_eq_true]

theorem sweepFrom_swept (stocked : Stocked reservations others alar w texts) (rounds : Nat)
    (later : i ≠ 0) (within : i + rounds ≤ alar.starIDMaxCount)
    (safe : ∀ j, i ≤ j → isDead alar w j = true → ∀ first, texts 0 = some first →
      ∃ place, placeAt alar w 0 = .ok place ∧ place.lenAndMark = 0#64) :
    ∃ w', (∀ killed, sweepFrom alar rounds i killed w =
        .ok (killed + ((List.range' i rounds).filter (isDead alar w)).length, w')) ∧
      Swept reservations others alar w texts (List.range' i rounds) w' := by
  induction rounds generalizing i w texts with
  | zero => exact ⟨w, fun _ => rfl, .nil stocked⟩
  | succ rounds ih =>
      obtain ⟨w₁, round, swept⟩ := sweepPlace_swept stocked (show i < alar.starIDMaxCount by omega)
        fun dead _ => safe i (Nat.le_refl i) dead
      have first : (0 : Nat) ∉ [i] := by simpa using later.symm
      obtain ⟨w₂, rest, swept'⟩ := ih swept.stocked (Nat.succ_ne_zero i) (by omega)
        fun j after dead text holds => by
          rw [if_neg (fun both => first both.1)] at holds
          rw [swept.dead stocked j (by omega)] at dead
          obtain ⟨place, there, empty⟩ := safe j (by omega) dead text holds
          obtain ⟨place', _, before, now, _⟩ := swept.same 0 text first holds
          obtain rfl := Except.ok.inj (before.symm.trans there)
          exact ⟨_, now, empty⟩
      exact ⟨w₂, fun killed => sweepFrom_cons stocked swept round rounds killed rest,
        .cons stocked _ (by simp) swept swept'⟩

-- The condition for the marks: no place dies, or the first place is not one of those that live, or its
-- text is empty.
def Harmless (alar : ALAR) (w : AlarWorld) : Prop :=
  ∀ i, isDead alar w i = true → isOccupied alar w 0 = true → isMarked alar w 0 = true →
    ∀ place, placeAt alar w 0 = .ok place → place.len = 0

theorem sweepPlaces_swept (stocked : Stocked reservations others alar w texts)
    (harmless : Harmless alar w) :
    ∃ w', sweepPlaces alar w =
        .ok (((List.range alar.createdPlacesCount).filter (isDead alar w)).length, w') ∧
      Swept reservations others alar w texts (List.range alar.createdPlacesCount) w' := by
  have few : alar.createdPlacesCount ≤ alar.starIDMaxCount := by
    obtain ⟨_, _, _, _, _, shelves⟩ := stocked
    exact shelves.few
  rw [sweepPlaces, List.range_eq_range']
  cases count : alar.createdPlacesCount with
  | zero => exact ⟨w, rfl, .nil stocked⟩
  | succ rounds =>
      obtain ⟨w₁, round, swept⟩ := sweepPlace_swept stocked (show 0 < alar.starIDMaxCount by omega)
        fun _ none => (none rfl).elim
      obtain ⟨w₂, rest, swept'⟩ := sweepFrom_swept swept.stocked rounds Nat.one_ne_zero (by omega)
        fun j after dead text holds => by
          rw [swept.dead stocked j (by omega)] at dead
          by_cases killed : isDead alar w 0 = true
          · simp [killed] at holds
          · rw [if_neg (fun both => killed both.2)] at holds
            have occupied : isOccupied alar w 0 = true := by simp [stocked.occupied 0, holds]
            have marked : isMarked alar w 0 = true := by simpa [isDead, occupied] using killed
            obtain ⟨place, _, before, now, _⟩ :=
              swept.kept 0 text List.mem_cons_self holds (by simpa using killed)
            exact ⟨_, now, place.cleared_zero (harmless j dead occupied marked place before)⟩
      have counted := sweepFrom_cons stocked swept round rounds 0 rest
      rw [Nat.zero_add] at counted
      exact ⟨w₂, counted, .cons stocked _ (by simp) swept swept'⟩

end Round

section Zeroed

variable {reservations : Nat → Option Nat} {others : List PageManager.Chunk} {alar : ALAR}
  {w w' : AlarWorld} {texts : Nat → Option (List Byte)} {i : Nat}

theorem setElement_inv {Element : Type} {p : Nat} {view : AlarObject → Option (List Element)}
    {wrap : List Element → AlarObject} {change : Element → Element}
    (written : setElement w p view wrap i change = .ok w') :
    ∃ o array element, w.memory p = some (.object o) ∧ view o = some array ∧ array[i]? = some element ∧
      w' = store w p (wrap (array.set i (change element))) := by
  obtain ⟨array, readable, stored⟩ := (Result.bind_ok _ _ _).mp written
  unfold read at readable
  split at readable
  case h_1 o there =>
    split at readable
    case h_1 seen =>
      cases readable
      split at stored
      case h_1 element at' => exact ⟨o, _, element, there, seen, at', (Except.ok.inj stored).symm⟩
      case h_2 => cases stored
    case h_2 => cases readable
  case h_2 => cases readable

def Zeroed (alar : ALAR) (w : AlarWorld) : Prop :=
  ∃ place, placeAt alar w 0 = .ok place ∧ place.lenAndMark = 0#64

theorem sweepPlace_zeroed (killed : Bool) (dead : isDead alar w i = true)
    (round : sweepPlace alar w i = .ok (killed, w')) : Zeroed alar w' := by
  obtain ⟨occupied, unmarked⟩ := Bool.and_eq_true_iff.mp dead
  obtain ⟨flag, flagged, round⟩ := (Result.bind_ok _ _ _).mp round
  simp only [isOccupied, flagged, decide_eq_true_eq] at occupied
  rw [if_neg occupied] at round
  obtain ⟨place, there, round⟩ := (Result.bind_ok _ _ _).mp round
  simp only [isMarked, there, Bool.not_eq_eq_eq_not, Bool.not_true] at unmarked
  rw [if_neg (by simp [unmarked])] at round
  obtain ⟨ptr, _, round⟩ := (Result.bind_ok _ _ _).mp round
  obtain ⟨w₁, first, round⟩ := (Result.bind_ok _ _ _).mp round
  obtain ⟨w₂, second, round⟩ := (Result.bind_ok _ _ _).mp round
  cases round
  obtain ⟨_, array, element, _, _, at', rfl⟩ := setElement_inv first
  obtain ⟨o, flags, _, stored, seen, _, rfl⟩ := setElement_inv second
  have apart : alar.placelist ≠ alar.idmap := by
    intro same
    rw [← same, store_here] at stored
    cases stored
    cases seen
  have inside : 0 < array.length := (List.getElem?_eq_some_iff.mp at').1
  refine ⟨{ element with lenAndMark := 0#64 }, ?_, rfl⟩
  simp [placeAt, ALAR.element, read, store_here, store_there _ _ _ _ apart, asPlaces,
    List.getElem?_set_self inside]

theorem sweepPlace_keeps_zero (later : i ≠ 0) (killed : Bool) (zeroed : Zeroed alar w)
    (round : sweepPlace alar w i = .ok (killed, w')) : Zeroed alar w' := by
  by_cases dead : isDead alar w i = true
  · exact sweepPlace_zeroed killed dead round
  · obtain ⟨flag, flagged, round⟩ := (Result.bind_ok _ _ _).mp round
    by_cases vacant : flag = 0#8
    · rw [if_pos vacant] at round
      cases round
      exact zeroed
    · rw [if_neg vacant] at round
      obtain ⟨place, there, round⟩ := (Result.bind_ok _ _ _).mp round
      have marked : place.isMarkedAlive = true := by
        simpa [isDead, isOccupied, isMarked, flagged, vacant, there] using dead
      rw [if_pos marked] at round
      obtain ⟨w₁, written, round⟩ := (Result.bind_ok _ _ _).mp round
      cases round
      obtain ⟨o, array, element, stored, seen, _, rfl⟩ := setElement_inv written
      obtain ⟨first, at', empty⟩ := zeroed
      refine ⟨first, ?_, empty⟩
      simp only [placeAt, ALAR.element, read, stored, seen, Result.ok_bind] at at'
      simp only [placeAt, ALAR.element, read, store_here, asPlaces, Result.ok_bind,
        List.getElem?_set_ne later]
      exact at'

theorem sweepFrom_keeps_zero (rounds killed killed' : Nat) (later : i ≠ 0) (zeroed : Zeroed alar w)
    (swept : sweepFrom alar rounds i killed w = .ok (killed', w')) : Zeroed alar w' := by
  induction rounds generalizing i killed w with
  | zero =>
      cases swept
      exact zeroed
  | succ rounds ih =>
      obtain ⟨⟨dead, w₁⟩, round, rest⟩ := (Result.bind_ok _ _ _).mp swept
      exact ih _ (Nat.succ_ne_zero i) (sweepPlace_keeps_zero later dead zeroed round) rest

-- The rounds up to the first dead place keep the heap; its round writes the zero.
theorem sweepFrom_zeroed (stocked : Stocked reservations others alar w texts) (rounds killed killed' : Nat)
    (within : i + rounds ≤ alar.starIDMaxCount) (j : Nat) (above : i ≤ j) (below : j < i + rounds)
    (dead : isDead alar w j = true)
    (swept : sweepFrom alar rounds i killed w = .ok (killed', w')) : Zeroed alar w' := by
  induction rounds generalizing i killed w texts with
  | zero => omega
  | succ rounds ih =>
      obtain ⟨⟨dead', w₁⟩, round, rest⟩ := (Result.bind_ok _ _ _).mp swept
      by_cases here : isDead alar w i = true
      · exact sweepFrom_keeps_zero rounds _ _ (Nat.succ_ne_zero i) (sweepPlace_zeroed dead' here round) rest
      · obtain ⟨w₂, round', swept'⟩ := sweepPlace_swept stocked (by omega) fun now => (here now).elim
        obtain ⟨_, rfl⟩ := Prod.mk.inj (Except.ok.inj (round.symm.trans round'))
        have other : j ≠ i := fun same => here (same ▸ dead)
        exact ih swept'.stocked _ (by omega) (by omega) (by omega)
          ((swept'.dead stocked j other).trans dead) rest

end Zeroed

structure Kept (alar : ALAR) (w w' : AlarWorld) (i : Nat) : Prop where
  place : ∃ place chars, placeAt alar w i = .ok place ∧
    placeAt alar w' i = .ok (place.setMarkedAlive false) ∧
    (place.setMarkedAlive false).len = place.len ∧ rawOf w place = .ok chars ∧
    rawOf w' (place.setMarkedAlive false) = .ok chars
  hash : ∃ hash, hashAt alar w i = .ok hash ∧ hashAt alar w' i = .ok hash
  named : ∀ id, starIdToNum id = i →
    lenOf alar w' id = lenOf alar w id ∧ getRaw alar w' id = getRaw alar w id

def Reads (alar : ALAR) (w : AlarWorld) (i : Nat) (text : List Byte) : Prop :=
  ∃ place chars, placeAt alar w i = .ok place ∧ rawOf w place = .ok chars ∧ chars.take place.len = text

def isAlive (alar : ALAR) (w : AlarWorld) (i : Nat) : Bool := isOccupied alar w i && isMarked alar w i

def deadPlaces (alar : ALAR) (w : AlarWorld) : List Nat :=
  (List.range alar.starIDMaxCount).filter (isDead alar w)

/-- An empty text can have more than one place; its id is the first one's. -/
structure Sweeps (alar : ALAR) (w : AlarWorld) (killed : Nat) (w' : AlarWorld) : Prop where
  number : killed = (deadPlaces alar w).length
  freed : ∀ i, isOccupied alar w' i = isAlive alar w i
  blocks : ∃ events, List.Forall₂ (Frees alar w) (deadPlaces alar w) events ∧
    w'.calls = events.reverse ++ w.calls
  kept : ∀ i, isAlive alar w i = true → Kept alar w w' i
  again : ∀ i text raw length stack, isAlive alar w i = true → Reads alar w i text →
    keyOf raw length = .ok text →
    (text ≠ [] ∨ ∀ k, k < i → isAlive alar w k = true → ¬ Reads alar w k text) →
    staridize alar w' stack (some raw) length = numToStarId stack i >>= fun id => .ok (id, alar, w')

def SweepsExactly (alar : ALAR) (w : AlarWorld) : Prop :=
  ∃ killed w', sweepPlaces alar w = .ok (killed, w') ∧ Sweeps alar w killed w'

section Exact

variable {reservations : Nat → Option Nat} {others : List PageManager.Chunk} {alar : ALAR}
  {w w' : AlarWorld} {texts : Nat → Option (List Byte)}

theorem Stocked.reads (stocked : Stocked reservations others alar w texts) (i : Nat)
    (text text' : List Byte) (holds : texts i = some text) : Reads alar w i text' ↔ text' = text := by
  obtain ⟨held, places, hashes, flags, keeps, shelves⟩ := stocked
  obtain ⟨place, there, len, chars⟩ := placeAt_ok keeps shelves i text holds
  have taken : (text ++ [0#8]).take place.len = text := len ▸ List.take_left' rfl
  constructor
  · rintro ⟨place', chars', there', raw, rfl⟩
    obtain rfl := Except.ok.inj (there.symm.trans there')
    obtain rfl := Except.ok.inj (chars.symm.trans raw)
    exact taken
  · rintro rfl
    exact ⟨place, _, there, chars, taken⟩

theorem Stocked.deadPlaces (stocked : Stocked reservations others alar w texts) :
    deadPlaces alar w = (List.range alar.createdPlacesCount).filter (isDead alar w) := by
  have occupied := stocked.occupied
  obtain ⟨held, places, hashes, flags, keeps, shelves⟩ := stocked
  obtain ⟨more, total⟩ := Nat.exists_eq_add_of_le shelves.few
  have beyond : ((List.range more).map fun i => alar.createdPlacesCount + i).filter (isDead alar w) = [] := by
    refine List.filter_eq_nil_iff.mpr fun j listed => ?_
    obtain ⟨k, _, rfl⟩ := List.mem_map.mp listed
    have empty : texts (alar.createdPlacesCount + k) = none := by
      by_contra taken
      obtain ⟨text, holds⟩ := Option.ne_none_iff_exists'.mp taken
      have := shelves.created _ text holds
      omega
    simp [isDead, occupied, empty]
  rw [ALAR.deadPlaces, total, List.range_add, List.filter_append, beyond, List.append_nil]

theorem kept_of_moved (stocked : Stocked reservations others alar w texts)
    (texts' : Nat → Option (List Byte)) (stocked' : Stocked reservations others alar w' texts') (i : Nat)
    (text : List Byte) (holds : texts i = some text) (holds' : texts' i = some text)
    (moved : Moved alar w w' i fun place => place.setMarkedAlive false) : Kept alar w w' i := by
  obtain ⟨held, places, hashes, flags, keeps, shelves⟩ := stocked
  obtain ⟨held', places', hashes', flags', keeps', shelves'⟩ := stocked'
  obtain ⟨place, _, before, after, _⟩ := moved
  obtain ⟨place₁, there, _, chars⟩ := placeAt_ok keeps shelves i text holds
  obtain rfl := Except.ok.inj (before.symm.trans there)
  obtain ⟨place₂, there', _, chars'⟩ := placeAt_ok keeps' shelves' i text holds'
  obtain rfl := Except.ok.inj (after.symm.trans there')
  have len := place.setMarkedAlive_len false
  refine ⟨⟨place, _, before, after, len, chars, chars'⟩,
    ⟨_, hashAt_ok keeps shelves i text holds, hashAt_ok keeps' shelves' i text holds'⟩, fun id named => ?_⟩
  constructor
  · simp only [lenOf, named, before, after, Result.ok_bind, len]
  · simp only [getRaw, named, before, after, Result.ok_bind, chars, chars']

theorem sweeps_of_harmless (stocked : Stocked reservations others alar w texts)
    (harmless : Harmless alar w) : SweepsExactly alar w := by
  obtain ⟨w', swept, done⟩ := sweepPlaces_swept stocked harmless
  have listed (i : Nat) (text : List Byte) (holds : texts i = some text) :
      i ∈ List.range alar.createdPlacesCount := by
    obtain ⟨_, _, _, _, _, shelves⟩ := stocked
    exact List.mem_range.mpr (shelves.created i text holds)
  have alive (i : Nat) :
      isAlive alar w i = true ↔ (∃ text, texts i = some text) ∧ isDead alar w i = false := by
    rw [isAlive, isDead, stocked.occupied i]
    cases texts i <;> simp
  -- the texts that are left
  have left (i : Nat) (text : List Byte) :
      (if i ∈ List.range alar.createdPlacesCount ∧ isDead alar w i = true then none else texts i) =
        some text ↔ texts i = some text ∧ isDead alar w i = false := by
    cases dead : isDead alar w i with
    | false => simp
    | true =>
        have gone : texts i = some text → i < alar.createdPlacesCount := fun holds =>
          List.mem_range.mp (listed i text holds)
        simpa using fun before holds => absurd (gone holds) (Nat.not_lt.mpr before)
  refine ⟨_, w', swept, by rw [stocked.deadPlaces], fun i => ?_, ?_, fun i lives => ?_, ?_⟩
  · rw [done.stocked.occupied i]
    cases holds : texts i with
    | none => simp [isAlive, stocked.occupied i, holds]
    | some text =>
        have inside := listed i text holds
        cases marked : isMarked alar w i <;>
          simp [isAlive, isDead, stocked.occupied i, holds, inside, marked]
  · rw [stocked.deadPlaces]
    exact done.returned
  · obtain ⟨⟨text, holds⟩, lives⟩ := (alive i).mp lives
    exact kept_of_moved stocked _ done.stocked i text holds ((left i text).mpr ⟨holds, lives⟩)
      (done.kept i text (listed i text holds) holds lives)
  · intro i text raw length stack lives reads key single
    obtain ⟨⟨text', holds⟩, lives⟩ := (alive i).mp lives
    obtain rfl := (stocked.reads i text' text holds).mp reads
    obtain ⟨held', places', hashes', flags', keeps', shelves'⟩ := done.stocked
    refine staridize_first keeps' shelves' stack raw length text key i
      ⟨(left i text).mpr ⟨holds, lives⟩, fun k before again => ?_⟩
    obtain ⟨holds', lives'⟩ := (left k text).mp again
    rcases single with filled | first
    · have same := shelves'.once i k text filled ((left i text).mpr ⟨holds, lives⟩) again
      omega
    · exact first k before ((alive k).mpr ⟨⟨text, holds'⟩, lives'⟩)
        ((stocked.reads k text text holds').mpr rfl)

theorem harmless_of_sweeps (stocked : Stocked reservations others alar w texts)
    (exactly : SweepsExactly alar w) : Harmless alar w := by
  obtain ⟨killed, w', swept, done⟩ := exactly
  intro i dead occupied marked place there
  have few : alar.createdPlacesCount ≤ alar.starIDMaxCount ∧ i < alar.createdPlacesCount := by
    have used := (Bool.and_eq_true_iff.mp dead).1
    rw [stocked.occupied i] at used
    obtain ⟨text, holds⟩ := Option.isSome_iff_exists.mp used
    obtain ⟨_, _, _, _, _, shelves⟩ := stocked
    exact ⟨shelves.few, shelves.created i text holds⟩
  obtain ⟨first, now, empty⟩ := sweepFrom_zeroed stocked alar.createdPlacesCount 0 killed
    (by omega) i (Nat.zero_le i) (by omega) dead swept
  obtain ⟨place', _, before, after, len, _⟩ := (done.kept 0 (by simp [isAlive, occupied, marked])).place
  obtain rfl := Except.ok.inj (before.symm.trans there)
  obtain rfl := Except.ok.inj (after.symm.trans now)
  rw [← len, StarPlace.len, empty]
  rfl

end Exact

structure Registry where
  alar : ALAR
  world : AlarWorld

inductive RegistryCall
  | staridize (text : Option (List Byte)) (length : Nat) (stack : List Byte)
  | mark (i : Nat)
  | sweepPlaces
deriving DecidableEq, Repr

/-- Every run of calls that return, with marks set on any places in use, on a fresh registry in any
arena. -/
def registry (reservations : Nat → Option Nat) : System Registry RegistryCall where
  start s := ∃ (Memory : Type) (_ : LinkStore Memory) (creating after : World Memory)
    (others : List PageManager.Chunk) (live : List Block) (bins : Nat → List Nat) (starIDMaxCount : Nat),
    MetaArena.Sound reservations creating others live bins ∧ starIDMaxCount < 2 ^ 16 ∧
    construct (some creating) starIDMaxCount = .ok (s.alar, s.world, after)
  step s call t :=
    match call with
    | .staridize text length stack => length < 2 ^ 63 ∧ ∃ id,
        staridize s.alar s.world stack text length = .ok (id, t.alar, t.world)
    | .mark i => isOccupied s.alar s.world i = true ∧ t.alar = s.alar ∧
        setElement s.world s.alar.placelist asPlaces .places i (fun place => place.setMarkedAlive true) =
          .ok t.world
    | .sweepPlaces => t.alar = s.alar ∧ ∃ killed, sweepPlaces s.alar s.world = .ok (killed, t.world)

def RegistryCall.Harmless (s : Registry) : RegistryCall → Prop
  | .sweepPlaces => ALAR.Harmless s.alar s.world
  | _ => True

-- The NUL of a text of this length is in the text's block.
def HasRoom (length : Nat) : Prop := length = 0 ∨ length % alignQuantum ≠ 0

def RegistryCall.Roomy : RegistryCall → Prop
  | .staridize _ length _ => HasRoom length
  | _ => True

def RegistryCall.Tidy (s : Registry) (call : RegistryCall) : Prop := call.Harmless s ∧ call.Roomy

section Reachable

variable {reservations : Nat → Option Nat} {others : List PageManager.Chunk} {alar : ALAR}
  {w : AlarWorld} {texts : Nat → Option (List Byte)}

theorem Stocked.mark (stocked : Stocked reservations others alar w texts) (i : Nat) (w' : AlarWorld)
    (occupied : isOccupied alar w i = true)
    (marked : setElement w alar.placelist asPlaces .places i (fun place => place.setMarkedAlive true) =
      .ok w') : Stocked reservations others alar w' texts := by
  rw [stocked.occupied i] at occupied
  obtain ⟨text, holds⟩ := Option.isSome_iff_exists.mp occupied
  obtain ⟨held, places, hashes, flags, keeps, shelves⟩ := stocked
  obtain ⟨place, ref, ptr, at', _⟩ := (shelves.entries i text holds).stored
  obtain ⟨inside, there⟩ := List.getElem?_eq_some_iff.mp at'
  obtain ⟨w₁, written, keeps'⟩ := setElement_ok keeps _ _ shelves.placelist asPlaces places rfl .places i
    inside (fun place => place.setMarkedAlive true) (by simp [Sized.size])
  obtain rfl := Except.ok.inj (written.symm.trans marked)
  rw [there] at keeps'
  exact ⟨_, _, _, _, keeps', shelves.replace i place _ at' fun _ _ => ⟨rfl, place.setMarkedAlive_len true⟩⟩

def Registry.Stocked (reservations : Nat → Option Nat) (s : Registry) : Prop :=
  ∃ others texts, ALAR.Stocked reservations others s.alar s.world texts

theorem stocked_of_reachable (reserves : Reserves reservations) (s : Registry)
    (reached : ((registry reservations).restrict RegistryCall.Tidy).Reachable s) :
    s.Stocked reservations := by
  refine System.invariant _ (Registry.Stocked reservations) ?_ ?_ reached
  · rintro s ⟨Memory, links, creating, after, others, live, bins, starIDMaxCount, sound, ushort, made⟩
    have sane := (construct_meets reserves creating others live bins sound starIDMaxCount ushort).holds _ made
    exact ⟨_, _, sane.stocked⟩
  · rintro s call t ⟨others, texts, stocked⟩ ⟨⟨harmless, _⟩, taken⟩
    cases call with
    | staridize text length stack =>
        obtain ⟨short, id, made⟩ := taken
        obtain ⟨texts', _, stocked', _⟩ := stocked.staridize reserves stack text length short id _ _ made
        exact ⟨others, texts', stocked'⟩
    | mark i =>
        obtain ⟨occupied, same, marked⟩ := taken
        exact ⟨others, texts, same ▸ stocked.mark i _ occupied marked⟩
    | sweepPlaces =>
        obtain ⟨same, killed, swept⟩ := taken
        obtain ⟨w', swept', done⟩ := sweepPlaces_swept stocked harmless
        obtain ⟨_, rfl⟩ := Prod.mk.inj (Except.ok.inj (swept.symm.trans swept'))
        exact ⟨others, _, same ▸ done.stocked⟩

theorem sweepPlaces_exact (reserves : Reserves reservations) (s : Registry)
    (reached : ((registry reservations).restrict RegistryCall.Tidy).Reachable s) :
    SweepsExactly s.alar s.world ↔ Harmless s.alar s.world := by
  obtain ⟨others, texts, stocked⟩ := stocked_of_reachable reserves s reached
  exact ⟨harmless_of_sweeps stocked, sweeps_of_harmless stocked⟩

end Reachable

theorem marked_pair : ∃ s w',
    ((registry PageManager.rowOfRegions).restrict RegistryCall.Tidy).Reachable s ∧
    isAlive s.alar s.world 0 = true ∧ lenOf s.alar s.world 0x80000000#32 = .ok 1 ∧
    sweepPlaces s.alar s.world = .ok (1, w') ∧ lenOf s.alar w' 0x80000000#32 = .ok 0 ∧
    ∃ made, staridize s.alar w' [0#8] (some [97#8]) 1 = .ok made ∧ made.1 = 0x80000001#32 := by
  have run : Result.passes (PageManager.construct PageManager.rowOfRegions) (fun fresh =>
      Result.passes (MetaArena.construct fresh pageSize (Heap.empty : Heap AlarObject)) fun creating =>
      Result.passes (construct (some creating) 4) fun made =>
      Result.passes (staridize made.1 made.2.1 [0#8] (some [97#8]) 1) fun one =>
      Result.passes (staridize one.2.1 one.2.2 [0#8] (some [98#8]) 1) fun two =>
      Result.passes (setElement two.2.2 two.2.1.placelist asPlaces .places 0 fun place =>
        place.setMarkedAlive true) fun marked =>
      Result.passes (sweepPlaces two.2.1 marked) fun swept =>
      isOccupied two.2.1 two.2.2 0 && isAlive two.2.1 marked 0 &&
        Result.passes (lenOf two.2.1 marked 0x80000000#32) (fun len => len = 1) && swept.1 = 1 &&
        Result.passes (lenOf two.2.1 swept.2 0x80000000#32) (fun len => len = 0) &&
        Result.passes (staridize two.2.1 swept.2 [0#8] (some [97#8]) 1) fun made =>
          made.1 = 0x80000001#32) = true := by decide +kernel
  simp only [Result.passes_iff, Bool.and_eq_true, decide_eq_true_eq] at run
  obtain ⟨fresh, first, creating, built, ⟨alar, world, after⟩, made, ⟨_, alar₁, world₁⟩, one,
    ⟨_, alar₂, world₂⟩, two, marked, mark, ⟨_, swept⟩, sweep,
    ⟨⟨⟨⟨occupied, alive⟩, _, long, rfl⟩, rfl⟩, _, lost, rfl⟩, again⟩ := run
  have sound := MetaArena.firstPage_sound fresh first _ _ built
  have started : ((registry PageManager.rowOfRegions).restrict RegistryCall.Tidy).Reachable
      ⟨alar, world⟩ := .start ⟨_, _, creating, after, _, _, _, 4, sound, by decide, made⟩
  have second : ((registry PageManager.rowOfRegions).restrict RegistryCall.Tidy).step ⟨alar, world⟩
      (.staridize (some [97#8]) 1 [0#8]) ⟨alar₁, world₁⟩ :=
    ⟨⟨trivial, .inr (by decide)⟩, by decide, _, one⟩
  have third : ((registry PageManager.rowOfRegions).restrict RegistryCall.Tidy).step ⟨alar₁, world₁⟩
      (.staridize (some [98#8]) 1 [0#8]) ⟨alar₂, world₂⟩ :=
    ⟨⟨trivial, .inr (by decide)⟩, by decide, _, two⟩
  have fourth : ((registry PageManager.rowOfRegions).restrict RegistryCall.Tidy).step ⟨alar₂, world₂⟩
      (.mark 0) ⟨alar₂, marked⟩ := ⟨⟨trivial, trivial⟩, occupied, rfl, mark⟩
  exact ⟨⟨alar₂, marked⟩, swept, ((started.step second).step third).step fourth, alive, long, sweep, lost,
    again⟩

theorem sweepPlaces_exact_pair : ∃ s,
    ((registry PageManager.rowOfRegions).restrict RegistryCall.Tidy).Reachable s ∧
    isAlive s.alar s.world 0 = true ∧ (SweepsExactly s.alar s.world ↔ Harmless s.alar s.world) := by
  obtain ⟨s, _, reached, alive, _⟩ := marked_pair
  exact ⟨s, reached, alive, sweepPlaces_exact rowOfRegions_reserves s reached⟩

-- The sweep of a text that has no mark takes the length of the first text, which has one, so the first
-- text is interned again under a new id.
theorem sweep_forgets_length : ∃ s w', (registry PageManager.rowOfRegions).Reachable s ∧
    isAlive s.alar s.world 0 = true ∧ lenOf s.alar s.world 0x80000000#32 = .ok 1 ∧
    sweepPlaces s.alar s.world = .ok (1, w') ∧ lenOf s.alar w' 0x80000000#32 = .ok 0 ∧
    (∃ made, staridize s.alar w' [0#8] (some [97#8]) 1 = .ok made ∧ made.1 = 0x80000001#32) ∧
    ¬ SweepsExactly s.alar s.world := by
  obtain ⟨s, w', reached, alive, long, swept, lost, again⟩ := marked_pair
  refine ⟨s, w', System.restrict_reachable _ _ reached, alive, long, swept, lost, again, ?_⟩
  rintro ⟨killed, w'', swept', done⟩
  obtain ⟨_, rfl⟩ := Prod.mk.inj (Except.ok.inj (swept.symm.trans swept'))
  have kept := ((done.kept 0 alive).named 0x80000000#32 (by decide)).1
  rw [lost, long] at kept
  cases kept

end ALAR

end ElySquare
