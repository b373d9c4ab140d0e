import ElySquare.Shared.Interning
import ElySquare.Meta.ObjectHeap
import ElySquare.Meta.StarIdNumber

set_option autoImplicit false

namespace ElySquare

-- The bytes asked for, so a text without its NUL.
instance : Sized AlarObject where
  size
    | .places places => ALAR.sizeofStarPlace * places.length
    | .hashes hashes => ALAR.sizeofUmore * hashes.length
    | .flags flags => flags.length
    | .text chars => chars.length - 1
    | .ref _ => ALAR.sizeofPointer

theorem StarPlace.setLen_len (place : StarPlace) (length : Nat) (small : length < 2 ^ 63) :
    (place.setLen length).len = length := by
  have mask : (~~~stringFlags.gcMarkRawMask).toNat = 2 ^ 63 - 1 := by decide
  rw [len, setLen, BitVec.and_assoc, BitVec.and_self, BitVec.toNat_and, mask,
    Nat.and_two_pow_sub_one_eq_mod, BitVec.toNat_ofNat]
  omega

namespace ALAR

open Interning

section Access

variable {reservations : Nat → Option Nat} {others : List PageManager.Chunk} {foreign : List Block}
  {w : AlarWorld} {held : Nat → Option AlarObject} {Element : Type}

theorem read_ok (keeps : Keeps reservations others foreign w held) (p : Nat) (o : AlarObject)
    (there : held p = some o) (view : AlarObject → Option Element) (element : Element)
    (viewed : view o = some element) : read w p view = .ok element := by
  simp only [read, keeps.stored p o there, viewed]

theorem element_ok (keeps : Keeps reservations others foreign w held) (p : Nat) (o : AlarObject)
    (there : held p = some o) (view : AlarObject → Option (List Element)) (array : List Element)
    (viewed : view o = some array) (i : Nat) (e : Element) (at' : array[i]? = some e) :
    element w p view i = .ok e := by
  simp only [element, read_ok keeps p o there view array viewed, Result.ok_bind, at']

theorem setElement_ok (keeps : Keeps reservations others foreign w held) (p : Nat) (o : AlarObject)
    (there : held p = some o) (view : AlarObject → Option (List Element)) (array : List Element)
    (viewed : view o = some array) (wrap : List Element → AlarObject) (i : Nat)
    (inside : i < array.length) (change : Element → Element)
    (fits : Sized.size (wrap (array.set i (change array[i]))) = Sized.size o) :
    ∃ w', setElement w p view wrap i change = .ok w' ∧
      Keeps reservations others foreign w'
        (Function.update held p (some (wrap (array.set i (change array[i]))))) := by
  refine ⟨_, ?_, keeps.put p o _ there fits⟩
  simp only [setElement, read_ok keeps p o there view array viewed, Result.ok_bind,
    List.getElem?_eq_getElem inside]

end Access

structure Entry (held : Nat → Option AlarObject) (places : List StarPlace) (hashes : List (BitVec 64))
    (flags : List Byte) (i : Nat) (text : List Byte) : Prop where
  short : text.length < 2 ^ 63
  stored : ∃ place ref ptr, places[i]? = some place ∧ place.ptr = some ref ∧ place.len = text.length ∧
    held ref = some (.ref ptr) ∧ held ptr = some (.text (text ++ [0#8]))
  hash : hashes[i]? = some (hashString text)
  flag : flags[i]? = some 1#8

structure Registers (alar : ALAR) (held : Nat → Option AlarObject) (table : Table (List Byte))
    (places : List StarPlace) (hashes : List (BitVec 64)) (flags : List Byte) : Prop where
  placelist : held alar.placelist = some (.places places)
  hashCache : held alar.hashCache = some (.hashes hashes)
  idmap : held alar.idmap = some (.flags flags)
  lengths : places.length = alar.starIDMaxCount ∧ hashes.length = alar.starIDMaxCount ∧
    flags.length = alar.starIDMaxCount
  entries : ∀ i text, table.textAt i = some text → Entry held places hashes flags i text
  vacant : ∀ i, i < alar.starIDMaxCount → table.textAt i = none → flags[i]? = some 0#8
  created : ∀ i text, table.textAt i = some text → i < alar.createdPlacesCount
  few : alar.createdPlacesCount ≤ alar.starIDMaxCount
  ushort : alar.starIDMaxCount < 2 ^ 16

def blockOf (held : Nat → Option AlarObject) (places : List StarPlace) (i : Nat) : Option Nat :=
  ((places[i]?.bind StarPlace.ptr).bind held).bind asRef

/-- How texts, at most one at each place, are laid out in the heap. Only the empty text may be there more
than once. -/
structure Shelves (alar : ALAR) (held : Nat → Option AlarObject) (texts : Nat → Option (List Byte))
    (places : List StarPlace) (hashes : List (BitVec 64)) (flags : List Byte) : Prop where
  placelist : held alar.placelist = some (.places places)
  hashCache : held alar.hashCache = some (.hashes hashes)
  idmap : held alar.idmap = some (.flags flags)
  lengths : places.length = alar.starIDMaxCount ∧ hashes.length = alar.starIDMaxCount ∧
    flags.length = alar.starIDMaxCount
  entries : ∀ i text, texts i = some text → Entry held places hashes flags i text
  vacant : ∀ i, i < alar.starIDMaxCount → texts i = none → flags[i]? = some 0#8
  created : ∀ i text, texts i = some text → i < alar.createdPlacesCount
  few : alar.createdPlacesCount ≤ alar.starIDMaxCount
  ushort : alar.starIDMaxCount < 2 ^ 16
  once : ∀ i j text, text ≠ [] → texts i = some text → texts j = some text → i = j
  apart : ∀ i j text text', texts i = some text → texts j = some text' →
    blockOf held places i = blockOf held places j → i = j

section Layout

variable {alar : ALAR} {held held' : Nat → Option AlarObject} {texts : Nat → Option (List Byte)}
  {table : Table (List Byte)} {places : List StarPlace} {hashes : List (BitVec 64)}
  {flags : List Byte}

theorem Entry.block {i : Nat} {text : List Byte} (entry : Entry held places hashes flags i text) :
    ∃ ptr, blockOf held places i = some ptr ∧ held ptr = some (.text (text ++ [0#8])) := by
  obtain ⟨place, ref, ptr, at', pointer, _, there, chars⟩ := entry.stored
  exact ⟨ptr, by simp [blockOf, at', pointer, there, asRef], chars⟩

-- In a table different places have different texts, so their blocks differ too.
theorem Registers.shelves (registers : Registers alar held table places hashes flags) :
    Shelves alar held table.textAt places hashes flags := by
  refine { registers with
    once := fun i j text _ => table.once i j text
    apart := fun i j text text' atI atJ same => ?_ }
  obtain ⟨ptr, block, chars⟩ := (registers.entries i text atI).block
  obtain ⟨ptr', block', chars'⟩ := (registers.entries j text' atJ).block
  rw [block, block', Option.some.injEq] at same
  rw [same, chars', Option.some.injEq, AlarObject.text.injEq] at chars
  exact table.once i j text atI ((List.append_cancel_right chars).symm ▸ atJ)

theorem Shelves.registers (shelves : Shelves alar held table.textAt places hashes flags) :
    Registers alar held table places hashes flags :=
  { shelves with }

theorem Entry.frame {i : Nat} {text : List Byte} (entry : Entry held places hashes flags i text)
    (refs : ∀ p ptr, held p = some (.ref ptr) → held' p = some (.ref ptr))
    (texts : ∀ p chars, held p = some (.text chars) → held' p = some (.text chars)) :
    Entry held' places hashes flags i text := by
  obtain ⟨place, ref, ptr, at', pointer, len, there, chars⟩ := entry.stored
  exact ⟨entry.short, ⟨place, ref, ptr, at', pointer, len, refs ref ptr there, texts ptr _ chars⟩,
    entry.hash, entry.flag⟩

theorem Entry.set {i k : Nat} {text : List Byte} (entry : Entry held places hashes flags i text)
    (other : i ≠ k) (place : StarPlace) (hash : BitVec 64) (flag : Byte) :
    Entry held (places.set k place) (hashes.set k hash) (flags.set k flag) i text := by
  obtain ⟨place', ref, ptr, at', rest⟩ := entry.stored
  refine ⟨entry.short, ⟨place', ref, ptr, ?_, rest⟩, ?_, ?_⟩
  · rw [List.getElem?_set_ne other.symm, at']
  · rw [List.getElem?_set_ne other.symm, entry.hash]
  · rw [List.getElem?_set_ne other.symm, entry.flag]

theorem Entry.block_frame {i : Nat} {text : List Byte} (entry : Entry held places hashes flags i text)
    (refs : ∀ p ptr, held p = some (.ref ptr) → held' p = some (.ref ptr)) :
    blockOf held' places i = blockOf held places i := by
  obtain ⟨place, ref, ptr, at', pointer, _, there, _⟩ := entry.stored
  simp [blockOf, at', pointer, there, refs ref ptr there]

theorem Shelves.apart_congr {places' : List StarPlace} {texts' : Nat → Option (List Byte)}
    (shelves : Shelves alar held texts places hashes flags)
    (old : ∀ i text, texts' i = some text → texts i = some text)
    (blocks : ∀ i text, texts i = some text → blockOf held' places' i = blockOf held places i)
    (i j : Nat) (text text' : List Byte) (atI : texts' i = some text) (atJ : texts' j = some text')
    (same : blockOf held' places' i = blockOf held' places' j) : i = j := by
  have oldI := old i text atI
  have oldJ := old j text' atJ
  rw [blocks i text oldI, blocks j text' oldJ] at same
  exact shelves.apart i j text text' oldI oldJ same

theorem once_update (i : Nat) (text : List Byte)
    (once : ∀ i j text, text ≠ [] → texts i = some text → texts j = some text → i = j)
    (absent : text ≠ [] → ∀ j, texts j ≠ some text) (j k : Nat) (text' : List Byte)
    (filled : text' ≠ []) (atJ : Function.update texts i (some text) j = some text')
    (atK : Function.update texts i (some text) k = some text') : j = k := by
  by_cases hereJ : j = i <;> by_cases hereK : k = i
  · exact hereJ.trans hereK.symm
  · rw [hereJ, Function.update_self, Option.some.injEq] at atJ
    rw [Function.update_of_ne hereK, ← atJ] at atK
    exact (absent (atJ ▸ filled) k atK).elim
  · rw [hereK, Function.update_self, Option.some.injEq] at atK
    rw [Function.update_of_ne hereJ, ← atK] at atJ
    exact (absent (atK ▸ filled) j atJ).elim
  · rw [Function.update_of_ne hereJ] at atJ
    rw [Function.update_of_ne hereK] at atK
    exact once j k text' filled atJ atK

theorem apart_update {block block' : Nat → Option Nat} (i : Nat) (text : List Byte)
    (apart : ∀ i j text text', texts i = some text → texts j = some text' → block i = block j → i = j)
    (fresh : ∀ j text', texts j = some text' → block j ≠ block' i)
    (away : ∀ j text', j ≠ i → texts j = some text' → block' j = block j) (j k : Nat)
    (text' text'' : List Byte) (atJ : Function.update texts i (some text) j = some text')
    (atK : Function.update texts i (some text) k = some text'') (same : block' j = block' k) : j = k := by
  by_cases hereJ : j = i <;> by_cases hereK : k = i
  · exact hereJ.trans hereK.symm
  · rw [Function.update_of_ne hereK] at atK
    rw [hereJ, away k text'' hereK atK] at same
    exact (fresh k text'' atK same.symm).elim
  · rw [Function.update_of_ne hereJ] at atJ
    rw [hereK, away j text' hereJ atJ] at same
    exact (fresh j text' atJ same).elim
  · rw [Function.update_of_ne hereJ] at atJ
    rw [Function.update_of_ne hereK] at atK
    rw [away j text' hereJ atJ, away k text'' hereK atK] at same
    exact apart j k text' text'' atJ atK same

theorem Shelves.grow (shelves : Shelves alar held texts places hashes flags)
    (more : ∀ p o, held p = some o → held' p = some o) :
    Shelves alar held' texts places hashes flags := by
  exact { shelves with
    placelist := more _ _ shelves.placelist
    hashCache := more _ _ shelves.hashCache
    idmap := more _ _ shelves.idmap
    entries := fun i text holds => (shelves.entries i text holds).frame (fun p _ => more p _)
      fun p _ => more p _
    apart := shelves.apart_congr (fun _ _ => id) fun i text holds =>
      (shelves.entries i text holds).block_frame fun p ptr => more p (.ref ptr) }

theorem ne_of_held {p q : Nat} {o o' : AlarObject} (atP : held p = some o) (atQ : held q = some o')
    (different : o ≠ o') : p ≠ q := by
  rintro rfl
  exact different (Option.some.inj (atP.symm.trans atQ))

theorem Shelves.arrays_apart (shelves : Shelves alar held texts places hashes flags) :
    alar.hashCache ≠ alar.placelist ∧ alar.idmap ≠ alar.placelist ∧ alar.idmap ≠ alar.hashCache :=
  ⟨ne_of_held shelves.hashCache shelves.placelist (by simp),
    ne_of_held shelves.idmap shelves.placelist (by simp),
    ne_of_held shelves.idmap shelves.hashCache (by simp)⟩

def withArrays (alar : ALAR) (held : Nat → Option AlarObject) (places : List StarPlace)
    (hashes : List (BitVec 64)) (flags : List Byte) : Nat → Option AlarObject :=
  Function.update (Function.update (Function.update held alar.placelist (some (.places places)))
    alar.hashCache (some (.hashes hashes))) alar.idmap (some (.flags flags))

section WithArrays

variable {places' : List StarPlace} {hashes' : List (BitVec 64)} {flags' : List Byte}

theorem Shelves.withArrays_arrays (shelves : Shelves alar held texts places hashes flags) :
    withArrays alar held places' hashes' flags' alar.placelist = some (.places places') ∧
      withArrays alar held places' hashes' flags' alar.hashCache = some (.hashes hashes') ∧
      withArrays alar held places' hashes' flags' alar.idmap = some (.flags flags') := by
  obtain ⟨hashCache, idmap, idmap'⟩ := shelves.arrays_apart
  unfold withArrays
  refine ⟨?_, ?_, Function.update_self ..⟩
  · rw [Function.update_of_ne idmap.symm, Function.update_of_ne hashCache.symm, Function.update_self]
  · rw [Function.update_of_ne idmap'.symm, Function.update_self]

theorem Shelves.withArrays_there (shelves : Shelves alar held texts places hashes flags) (p : Nat)
    (o : AlarObject) (there : held p = some o) (notPlaces : ∀ l, o ≠ .places l)
    (notHashes : ∀ l, o ≠ .hashes l) (notFlags : ∀ l, o ≠ .flags l) :
    withArrays alar held places' hashes' flags' p = some o := by
  unfold withArrays
  rw [Function.update_of_ne (ne_of_held there shelves.idmap (notFlags _)),
    Function.update_of_ne (ne_of_held there shelves.hashCache (notHashes _)),
    Function.update_of_ne (ne_of_held there shelves.placelist (notPlaces _)), there]

end WithArrays

theorem Shelves.enter (shelves : Shelves alar held texts places hashes flags) (i : Nat)
    (inside : i < alar.starIDMaxCount) (free : texts i = none) (text : List Byte)
    (absent : text ≠ [] → ∀ j, texts j ≠ some text) (short : text.length < 2 ^ 63) (ref ptr : Nat)
    (there : held ref = some (.ref ptr)) (chars : held ptr = some (.text (text ++ [0#8])))
    (fresh : ∀ j text', texts j = some text' → blockOf held places j ≠ some ptr)
    (place : StarPlace) (pointer : place.ptr = some ref) (len : place.len = text.length) :
    Shelves
      { alar with createdPlacesCount :=
          if i ≥ alar.createdPlacesCount then (i + 1) % 2 ^ 16 else alar.createdPlacesCount }
      (withArrays alar held (places.set i place) (hashes.set i (hashString text)) (flags.set i 1#8))
      (Function.update texts i (some text)) (places.set i place) (hashes.set i (hashString text))
      (flags.set i 1#8) := by
  obtain ⟨placesLength, hashesLength, flagsLength⟩ := shelves.lengths
  obtain ⟨atPlaces, atHashes, atFlags⟩ := shelves.withArrays_arrays
  have ushort := shelves.ushort
  have few := shelves.few
  have refs (p q : Nat) (atP : held p = some (.ref q)) :
      withArrays alar held (places.set i place) (hashes.set i (hashString text)) (flags.set i 1#8) p =
        some (.ref q) := shelves.withArrays_there p _ atP (by simp) (by simp) (by simp)
  have kept (p : Nat) (l : List Byte) (atP : held p = some (.text l)) :
      withArrays alar held (places.set i place) (hashes.set i (hashString text)) (flags.set i 1#8) p =
        some (.text l) := shelves.withArrays_there p _ atP (by simp) (by simp) (by simp)
  have elsewhere (j : Nat) (text' : List Byte) (other : j ≠ i)
      (holds : Function.update texts i (some text) j = some text') : texts j = some text' := by
    rwa [Function.update_of_ne other] at holds
  have here : blockOf (withArrays alar held (places.set i place) (hashes.set i (hashString text))
      (flags.set i 1#8)) (places.set i place) i = some ptr := by
    simp [blockOf, List.getElem?_set_self (show i < places.length by omega), pointer,
      refs ref ptr there, asRef]
  have away (j : Nat) (text' : List Byte) (other : j ≠ i) (holds : texts j = some text') :
      blockOf (withArrays alar held (places.set i place) (hashes.set i (hashString text))
        (flags.set i 1#8)) (places.set i place) j = blockOf held places j := by
    have same := (shelves.entries j text' holds).block_frame refs
    rw [← same, blockOf, blockOf, List.getElem?_set_ne other.symm]
  refine ⟨atPlaces, atHashes, atFlags, ?_, fun j text' holds => ?_, fun j below empty => ?_,
    fun j text' holds => ?_, ?_, ushort, once_update i text shelves.once absent,
    apart_update i text shelves.apart (fun j text' holds => ?_) away⟩
  · simp only [List.length_set]
    exact shelves.lengths
  · by_cases here : j = i
    · subst here
      rw [Function.update_self, Option.some.injEq] at holds
      subst holds
      refine ⟨short, ⟨place, ref, ptr, ?_, pointer, len, refs _ _ there, kept _ _ chars⟩, ?_, ?_⟩
      · rw [List.getElem?_set_self (by omega)]
      · rw [List.getElem?_set_self (by omega)]
      · rw [List.getElem?_set_self (by omega)]
    · exact ((shelves.entries j text' (elsewhere j text' here holds)).frame refs kept).set here _ _ _
  · have other : j ≠ i := fun same => by simp [same] at empty
    rw [Function.update_of_ne other] at empty
    rw [List.getElem?_set_ne other.symm]
    exact shelves.vacant j below empty
  · dsimp only
    by_cases here : j = i
    · split <;> omega
    · have old := shelves.created j text' (elsewhere j text' here holds)
      split <;> omega
  · dsimp only
    split <;> omega
  · rw [here]
    exact fresh j text' holds

theorem Shelves.replace (shelves : Shelves alar held texts places hashes flags) (i : Nat)
    (place place' : StarPlace) (at' : places[i]? = some place)
    (fits : ∀ text, texts i = some text → place'.ptr = place.ptr ∧ place'.len = place.len) :
    Shelves alar (Function.update held alar.placelist (some (.places (places.set i place')))) texts
      (places.set i place') hashes flags := by
  obtain ⟨hashCache, idmap, _⟩ := shelves.arrays_apart
  have inside : i < places.length := (List.getElem?_eq_some_iff.mp at').1
  have there (p : Nat) (o : AlarObject) (atP : held p = some o) (other : ∀ l, o ≠ .places l) :
      Function.update held alar.placelist (some (.places (places.set i place'))) p = some o := by
    rw [Function.update_of_ne (ne_of_held atP shelves.placelist (other _)), atP]
  have entries (j : Nat) (text : List Byte) (holds : texts j = some text) :
      Entry (Function.update held alar.placelist (some (.places (places.set i place'))))
        (places.set i place') hashes flags j text := by
    have entry := (shelves.entries j text holds).frame (fun p ptr atP => there p _ atP (by simp))
      fun p chars atP => there p _ atP (by simp)
    obtain ⟨old, ref, ptr, atJ, pointer, len, rest⟩ := entry.stored
    by_cases here : j = i
    · subst here
      rw [at', Option.some.injEq] at atJ
      subst atJ
      obtain ⟨samePtr, sameLen⟩ := fits text holds
      exact ⟨entry.short, ⟨place', ref, ptr, List.getElem?_set_self inside, samePtr ▸ pointer,
        sameLen ▸ len, rest⟩, entry.hash, entry.flag⟩
    · exact ⟨entry.short, ⟨old, ref, ptr, by rw [List.getElem?_set_ne (Ne.symm here), atJ], pointer, len,
        rest⟩, entry.hash, entry.flag⟩
  have blocks (j : Nat) (text : List Byte) (holds : texts j = some text) :
      blockOf (Function.update held alar.placelist (some (.places (places.set i place'))))
        (places.set i place') j = blockOf held places j := by
    rw [← (shelves.entries j text holds).block_frame fun p ptr atP => there p (.ref ptr) atP (by simp)]
    by_cases here : j = i
    · subst here
      simp [blockOf, at', List.getElem?_set_self inside, (fits text holds).1]
    · rw [blockOf, blockOf, List.getElem?_set_ne (Ne.symm here)]
  exact { shelves with
    placelist := Function.update_self ..
    hashCache := (Function.update_of_ne hashCache ..).trans shelves.hashCache
    idmap := (Function.update_of_ne idmap ..).trans shelves.idmap
    lengths := by simpa using shelves.lengths
    entries := entries
    apart := shelves.apart_congr (fun _ _ => id) blocks }

theorem Shelves.vacate (shelves : Shelves alar held texts places hashes flags) (i : Nat)
    (text : List Byte) (holds : texts i = some text) (ptr : Nat)
    (block : blockOf held places i = some ptr) (chars : held ptr = some (.text (text ++ [0#8]))) :
    Shelves alar (Function.update (Function.update held ptr none) alar.idmap
        (some (.flags (flags.set i 0#8))))
      (Function.update texts i none) places hashes (flags.set i 0#8) := by
  obtain ⟨_, idmap, idmap'⟩ := shelves.arrays_apart
  have elsewhere (j : Nat) (text' : List Byte)
      (holds' : Function.update texts i none j = some text') : j ≠ i ∧ texts j = some text' := by
    by_cases here : j = i
    · simp [here] at holds'
    · exact ⟨here, by rwa [Function.update_of_ne here] at holds'⟩
  have there (p : Nat) (o : AlarObject) (atP : held p = some o) (other : p ≠ ptr)
      (notFlags : ∀ l, o ≠ .flags l) :
      Function.update (Function.update held ptr none) alar.idmap (some (.flags (flags.set i 0#8))) p =
        some o := by
    rw [Function.update_of_ne (ne_of_held atP shelves.idmap (notFlags _)), Function.update_of_ne other,
      atP]
  have refs (p q : Nat) (atP : held p = some (.ref q)) := there p (.ref q) atP
    (ne_of_held atP chars (by simp)) (by simp)
  have arrays (p : Nat) (o : AlarObject) (atP : held p = some o) (notText : ∀ l, o ≠ .text l) : p ≠ ptr :=
    ne_of_held atP chars (notText _)
  refine { shelves with
    placelist := there _ _ shelves.placelist (arrays _ _ shelves.placelist (by simp)) (by simp)
    hashCache := there _ _ shelves.hashCache (arrays _ _ shelves.hashCache (by simp)) (by simp)
    idmap := Function.update_self ..
    lengths := by simpa using shelves.lengths
    entries := fun j text' holds' => ?_
    vacant := fun j below empty => ?_
    created := fun j text' holds' => shelves.created j text' (elsewhere j text' holds').2
    once := fun j k text' filled atJ atK =>
      shelves.once j k text' filled (elsewhere j text' atJ).2 (elsewhere k text' atK).2
    apart := shelves.apart_congr (fun j text' holds' => (elsewhere j text' holds').2) fun j text' old =>
      (shelves.entries j text' old).block_frame refs }
  · obtain ⟨other, old⟩ := elsewhere j text' holds'
    have entry := shelves.entries j text' old
    obtain ⟨place, ref, ptr', at', pointer, len, atRef, chars'⟩ := entry.stored
    have different : ptr' ≠ ptr := by
      rintro rfl
      refine other (shelves.apart j i text' text old holds (Eq.trans ?_ block.symm))
      simp [blockOf, at', pointer, atRef, asRef]
    refine ⟨entry.short, ⟨place, ref, ptr', at', pointer, len, refs _ _ atRef,
      there ptr' _ chars' different (by simp)⟩, entry.hash, ?_⟩
    rw [List.getElem?_set_ne other.symm, entry.flag]
  · by_cases here : j = i
    · rw [here, List.getElem?_set_self]
      rw [shelves.lengths.2.2, ← here]
      exact below
    · rw [Function.update_of_ne here] at empty
      rw [List.getElem?_set_ne (Ne.symm here)]
      exact shelves.vacant j below empty

theorem Shelves.below (shelves : Shelves alar held texts places hashes flags) (i : Nat)
    (text : List Byte) (holds : texts i = some text) : i < alar.starIDMaxCount :=
  Nat.lt_of_lt_of_le (shelves.created i text holds) shelves.few

end Layout

end ALAR

end ElySquare
