import ElySquare.Meta.StarIdLifecycle

set_option autoImplicit false

namespace ElySquare

namespace ALAR

open Transition

def InUse (alar : ALAR) (w : AlarWorld) (i : Nat) : Prop :=
  i < alar.starIDMaxCount ∧ isOccupied alar w i = true

structure Guarded (alar : ALAR) (w : AlarWorld) (a : Atom) : Prop where
  own : ∀ w' : AlarWorld, (∀ p, p ≠ alar.placelist → w'.memory p = w.memory p) →
    (∀ i, InUse alar w i → placeAt alar w' i = placeAt alar w i) →
    getRaw alar w' a = getRaw alar w a ∧ lenOf alar w' a = lenOf alar w a
  blank : ¬ InUse alar w (starIdToNum a) →
    (∃ tail, getRaw alar w a = .ok (0#8 :: tail)) ∧ lenOf alar w a = .ok 0

section Reads

variable {reservations : Nat → Option Nat} {others : List PageManager.Chunk} {alar : ALAR}
  {w : AlarWorld} {texts : Nat → Option (List Byte)}

def replaced (places : List StarPlace) (i : Nat) (place : StarPlace) : List StarPlace :=
  (places ++ List.replicate (i + 1) StarPlace.zero).set i place

theorem replaced_here (places : List StarPlace) (i : Nat) (place : StarPlace) :
    (replaced places i place)[i]? = some place :=
  List.getElem?_set_self (by simp only [List.length_append, List.length_replicate]; omega)

theorem replaced_there (places : List StarPlace) (i : Nat) (place : StarPlace) (j : Nat) (other : j ≠ i)
    (inside : j < places.length) : (replaced places i place)[j]? = places[j]? := by
  rw [replaced, List.getElem?_set_ne other.symm, List.getElem?_append_left inside]

theorem placeAt_store (places : List StarPlace) (i : Nat) (place : StarPlace)
    (there : places[i]? = some place) :
    placeAt alar (store w alar.placelist (.places places)) i = .ok place := by
  simp only [placeAt, element, read, store_here, asPlaces, Result.ok_bind, there]

theorem lenOf_free (stocked : Stocked reservations others alar w texts) (a : Atom)
    (reads : a = brokenAtom ∨ starIdToNum a < alar.createdPlacesCount)
    (free : ¬ InUse alar w (starIdToNum a)) (place : StarPlace) :
    ∃ w' : AlarWorld, (∀ p, p ≠ alar.placelist → w'.memory p = w.memory p) ∧
      (∀ i, InUse alar w i → placeAt alar w' i = placeAt alar w i) ∧ lenOf alar w' a = .ok place.len := by
  obtain ⟨held, places, hashes, flags, keeps, shelves⟩ := stocked
  refine ⟨store w alar.placelist (.places (replaced places (starIdToNum a) place)),
    fun p other => store_there _ _ _ _ other, fun i used => ?_, ?_⟩
  · have inside : i < places.length := shelves.lengths.1 ▸ used.1
    have other : i ≠ starIdToNum a := fun same => free (same ▸ used)
    have there := List.getElem?_eq_getElem inside
    rw [placeAt_store _ i _ ((replaced_there places _ place i other inside).trans there)]
    exact (element_ok keeps _ _ shelves.placelist asPlaces places rfl i _ there).symm
  · rw [lenOf]
    rw [if_pos reads, placeAt_store _ _ _ (replaced_here places _ place)]
    rfl

theorem Stocked.unguarded (stocked : Stocked reservations others alar w texts) (a : Atom)
    (reads : a = brokenAtom ∨ starIdToNum a < alar.createdPlacesCount)
    (free : ¬ InUse alar w (starIdToNum a)) : ¬ Guarded alar w a := by
  intro guarded
  obtain ⟨w', elsewhere, same, long⟩ := lenOf_free stocked a reads free ⟨none, 1#64⟩
  have one := long.symm.trans ((guarded.own w' elsewhere same).2.trans (guarded.blank free).2)
  cases one

theorem brokenAtom_free (stocked : Stocked reservations others alar w texts) :
    ¬ InUse alar w (starIdToNum brokenAtom) := by
  have beyond : starIdToNum brokenAtom = 65535 := by decide
  have ushort := stocked.few.2
  rintro ⟨inside, _⟩
  omega

theorem Stocked.guarded_used (stocked : Stocked reservations others alar w texts) (a : Atom)
    (used : InUse alar w (starIdToNum a)) : Guarded alar w a := by
  refine ⟨fun w' elsewhere same => ?_, fun free => (free used).elim⟩
  have place := same _ used
  obtain ⟨held, places, hashes, flags, keeps, shelves⟩ := stocked
  have occupied := used.2
  rw [occupied_eq keeps shelves] at occupied
  obtain ⟨text, holds⟩ := Option.isSome_iff_exists.mp occupied
  obtain ⟨star, ref, ptr, at', pointer, len, atRef, chars⟩ := (shelves.entries _ text holds).stored
  have there : placeAt alar w (starIdToNum a) = .ok star :=
    element_ok keeps _ _ shelves.placelist asPlaces places rfl _ _ at'
  -- neither of its blocks is the array
  have kept (p : Nat) (o : AlarObject) (atP : held p = some o) (notPlaces : o ≠ .places places) :
      w'.memory p = some (.object o) :=
    (elsewhere p (ne_of_held atP shelves.placelist notPlaces)).trans (keeps.stored p o atP)
  have raw : rawOf w' star = rawOf w star := by
    simp only [rawOf, pointer, read, kept ref _ atRef (by simp), keeps.stored ref _ atRef, asRef,
      Result.ok_bind, kept ptr _ chars (by simp), keeps.stored ptr _ chars, asText]
  rw [getRaw, getRaw, lenOf, lenOf]
  rw [place, there, Result.ok_bind, Result.ok_bind, raw]
  exact ⟨rfl, rfl⟩

theorem Stocked.guarded_iff (stocked : Stocked reservations others alar w texts) (a : Atom) :
    Guarded alar w a ↔ a ≠ brokenAtom ∧
      (starIdToNum a < alar.createdPlacesCount → isOccupied alar w (starIdToNum a) = true) := by
  have few := stocked.few
  constructor
  · intro guarded
    refine ⟨?_, fun below => ?_⟩
    · rintro rfl
      exact stocked.unguarded brokenAtom (.inl rfl) (brokenAtom_free stocked) guarded
    · by_contra free
      exact stocked.unguarded a (.inr below) (fun used => free used.2) guarded
  · rintro ⟨known, occupied⟩
    by_cases below : starIdToNum a < alar.createdPlacesCount
    · exact stocked.guarded_used a ⟨by omega, occupied below⟩
    · have skips : ¬ (a = brokenAtom ∨ starIdToNum a < alar.createdPlacesCount) :=
        not_or.mpr ⟨known, below⟩
      have raw (w : AlarWorld) : getRaw alar w a = .ok [0#8, 0#8] := if_neg skips
      have len (w : AlarWorld) : lenOf alar w a = .ok 0 := if_neg skips
      exact ⟨fun w' _ _ => ⟨(raw w').trans (raw w).symm, (len w').trans (len w).symm⟩,
        fun _ => ⟨⟨_, raw w⟩, len w⟩⟩

end Reads

theorem reads_guarded {reservations : Nat → Option Nat} (reserves : Reserves reservations) (s : Lifecycle)
    (reached : (lifecycle reservations).Reachable s) (a : Atom) :
    Guarded s.alar s.world a ↔ a ≠ brokenAtom ∧
      (starIdToNum a < s.alar.createdPlacesCount →
        isOccupied s.alar s.world (starIdToNum a) = true) := by
  obtain ⟨⟨others, texts, stocked, _⟩, _⟩ := lifecycle_sane reserves reached
  exact stocked.guarded_iff a

theorem reads_guarded_text : ∃ s, (lifecycle PageManager.rowOfRegions).Reachable s ∧
    isOccupied s.alar s.world 0 = true ∧ Guarded s.alar s.world 0x80000000#32 := by
  obtain ⟨s, _, reached, occupied, _⟩ := one_cycle
  exact ⟨s, reached, occupied, (reads_guarded rowOfRegions_reserves s reached 0x80000000#32).mpr
    ⟨by decide, fun _ => occupied⟩⟩

-- The broken atom reads past the array, and the id of a swept text reads a place out of use.
theorem broken_and_swept_read : ∃ s, (lifecycle PageManager.rowOfRegions).Reachable s ∧
    ¬ Guarded s.alar s.world brokenAtom ∧ ¬ Guarded s.alar s.world 0x80000000#32 := by
  obtain ⟨s, t, reached, occupied, swept, taken, _⟩ := one_cycle
  have reached' := reached.step taken
  obtain ⟨⟨others, texts, stocked, unmarked⟩, _⟩ := lifecycle_sane rowOfRegions_reserves reached
  obtain ⟨⟨others', texts', stocked', _⟩, _⟩ := lifecycle_sane rowOfRegions_reserves reached'
  have created : 0 < t.alar.createdPlacesCount := by
    rw [stocked.occupied 0] at occupied
    obtain ⟨text, holds⟩ := Option.isSome_iff_exists.mp occupied
    rw [taken.1]
    exact stocked.created 0 text holds
  have free : isOccupied t.alar t.world 0 = false := by
    obtain ⟨w', events, swept', all⟩ := unmarked.sweep stocked
    obtain ⟨_, same⟩ := Prod.mk.inj (Except.ok.inj (swept.symm.trans swept'))
    rw [taken.1, same, all.stocked.occupied 0]
    rfl
  have zero : starIdToNum 0x80000000#32 = 0 := by decide
  refine ⟨t, reached', stocked'.unguarded _ (.inl rfl) (brokenAtom_free stocked'),
    stocked'.unguarded _ (.inr (zero ▸ created)) fun used => ?_⟩
  rw [InUse, zero, free] at used
  cases used.2

end ALAR

end ElySquare
