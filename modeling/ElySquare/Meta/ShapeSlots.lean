import ElySquare.Meta.ShapeAncestors

set_option autoImplicit false

namespace ElySquare

namespace Shape

open Transition

namespace Graph

def Titled (g : Graph) : Prop :=
  ∀ q ∈ g.order, ∀ entry ∈ g.entries q, ∀ c ∈ g.order, entry.targetShape = some c →
    entry.propertyAtom ≠ 0#32 → ∃ property,
      g.properties c = g.properties q ++ [property] ∧ property.nameAtom = entry.propertyAtom

def Distinct (g : Graph) : Prop :=
  ∀ p ∈ g.order, ((g.properties p).map PropertyDescriptor.nameAtom).Nodup

variable {g g' : Graph} {root : Nat} {call : Call}

theorem titled_iff : g.Titled ↔ g.Along fun above propertyAtom below => propertyAtom ≠ 0#32 →
    ∃ property, below = above ++ [property] ∧ property.nameAtom = propertyAtom :=
  Iff.rfl

theorem Spawned.titled (rooted : g.Rooted root) (titled : g.Titled) {q child : Nat}
    {propertyAtom : Atom} {offset : BitVec 16} {isReadonly isHidden isGetter isSetter : Bool}
    (spawned : g.Spawned g' q child (transiteTo child propertyAtom)
      (makePropertyInShape propertyAtom offset isReadonly isHidden isGetter isSetter)) : g'.Titled := by
  refine titled_iff.mpr (spawned.along rooted (titled_iff.mp titled) fun nonzero => ?_)
  rw [← spawned.longer]
  exact ⟨_, spawned.describes nonzero, rfl⟩

theorem Evolves.titled (rooted : g.Rooted root) (evolves : g.Evolves root call g')
    (titled : g.Titled) : g'.Titled := by
  cases evolves with
  | found => exact titled
  | spawned q _ _ _ _ _ _ _ child _ _ spawned => exact spawned.titled rooted titled
  | reflagged _ p _ flags _ => exact titled_iff.mpr (reflag_along (titled_iff.mp titled) p flags)
  | swept todo _ _ swept => exact titled_iff.mpr (swept.along (titled_iff.mp titled))

end Graph

def lookUp (properties : List PropertyDescriptor) (propertyAtom : Atom) : Option PropertyDescriptor :=
  properties.find? fun property => property.nameAtom = propertyAtom

section Lookup

variable (properties : List PropertyDescriptor) (property : PropertyDescriptor)

theorem lookUp_new (absent : lookUp properties property.nameAtom = none) :
    lookUp (properties ++ [property]) property.nameAtom = some property := by
  unfold lookUp at absent ⊢
  rw [List.find?_append, absent, Option.none_or]
  exact List.find?_cons_of_pos (decide_eq_true rfl)

theorem lookUp_other (propertyAtom : Atom) (other : propertyAtom ≠ property.nameAtom) :
    lookUp (properties ++ [property]) propertyAtom = lookUp properties propertyAtom := by
  unfold lookUp
  rw [List.find?_append, List.find?_cons_of_neg (by simpa using other.symm), List.find?_nil,
    Option.or_none]

theorem lookUp_none_iff (propertyAtom : Atom) :
    lookUp properties propertyAtom = none ↔
      propertyAtom ∉ properties.map PropertyDescriptor.nameAtom := by
  unfold lookUp
  simp

end Lookup

structure Honours (before after : ShapeWorld) (s : Nat) (r : Option Nat) (propertyAtom : Atom)
    (offset attributes : BitVec 16) : Prop where
  offset : findPropertyOffset after r propertyAtom = .ok offset
  attributes : ∃ property, getProperty after r propertyAtom = .ok (some property) ∧
    property.attributes = attributes
  others : ∀ other, other ≠ propertyAtom →
    getProperty after r other = getProperty before (some s) other ∧
      findPropertyOffset after r other = findPropertyOffset before (some s) other

-- The first transition of the shape for this name and these attributes, if there is one, was made
-- for this offset.
def SameSlot (w : ShapeWorld) (p : Nat) (propertyAtom : Atom) (offset attributes : BitVec 16) : Prop :=
  ∀ entry c property,
    (entriesOf w p).find? (fun entry => labelOf w entry = (propertyAtom, some attributes)) = some entry →
    entry.targetShape = some c → (propertiesOf w c).getLast? = some property →
    property.offsetIndex = offset

section Slots

variable {reservations : Nat → Option Nat} {others : List PageManager.Chunk} {foreign : List Block}
  {root : Nat} {w after : ShapeWorld} {g g' : Graph}

theorem Sane.getProperty_lookUp (sane : Sane reservations others foreign root w g) (p : Nat)
    (member : p ∈ g.order) (propertyAtom : Atom) :
    getProperty w (some p) propertyAtom = .ok (lookUp (g.properties p) propertyAtom) :=
  sane.getProperty_eq p member propertyAtom

theorem Sane.absent_iff (sane : Sane reservations others foreign root w g) (p : Nat)
    (member : p ∈ g.order) (propertyAtom : Atom) : hasProperty w (some p) propertyAtom = .ok false ↔
      lookUp (g.properties p) propertyAtom = none := by
  rw [sane.hasProperty_eq p member propertyAtom, Except.ok.injEq, Option.isSome_eq_false_iff,
    Option.isNone_iff_eq_none]
  rfl

theorem Sane.find_label (sane : Sane reservations others foreign root w g) (p : Nat)
    (member : p ∈ g.order) (propertyAtom : Atom) (attributes : BitVec 16) :
    (entriesOf w p).find? (fun entry => labelOf w entry = (propertyAtom, some attributes)) =
      (g.entries p).find? (g.matching propertyAtom attributes) := by
  rw [sane.entriesOf_eq p member]
  refine List.find?_congr fun entry listed => ?_
  rw [sane.label_eq p member entry listed, Bool.eq_iff_iff, decide_eq_true_eq]
  exact (Graph.matching_iff propertyAtom attributes entry).symm

theorem Sane.honours_iff (sane : Sane reservations others foreign root w g)
    (sane' : Sane reservations others foreign root after g') (p c : Nat) (member : p ∈ g.order)
    (member' : c ∈ g'.order) (property : PropertyDescriptor)
    (longer : g'.properties c = g.properties p ++ [property])
    (absent : lookUp (g.properties p) property.nameAtom = none) (offset : BitVec 16) :
    Honours w after p (some c) property.nameAtom offset property.attributes ↔
      property.offsetIndex = offset := by
  have found : getProperty after (some c) property.nameAtom = .ok (some property) := by
    rw [sane'.getProperty_lookUp c member', longer, lookUp_new _ property absent]
  have slot : findPropertyOffset after (some c) property.nameAtom = .ok property.offsetIndex := by
    unfold findPropertyOffset
    rw [found]
    rfl
  refine ⟨fun honours => ?_, fun same => ⟨?_, ⟨property, found, rfl⟩, fun other different => ?_⟩⟩
  · exact Except.ok.inj (slot.symm.trans honours.offset)
  · rw [slot, same]
  · have equal : getProperty after (some c) other = getProperty w (some p) other := by
      rw [sane'.getProperty_lookUp c member', sane.getProperty_lookUp p member, longer,
        lookUp_other _ property other different]
    unfold findPropertyOffset
    rw [equal]
    exact ⟨rfl, rfl⟩

theorem Sane.slot (reserves : Reserves reservations)
    (sane : Sane reservations others foreign root w g) (titled : g.Titled) (p : Nat)
    (member : p ∈ g.order) (propertyAtom : Atom) (nonzero : propertyAtom ≠ 0#32)
    (absent : lookUp (g.properties p) propertyAtom = none) (offset : BitVec 16)
    (isReadonly isHidden isGetter isSetter : Bool) (r : Option Nat)
    (done : transitionShape w (some p) propertyAtom offset isReadonly isHidden isGetter isSetter =
      .ok (r, after)) :
    Honours w after p r propertyAtom offset (attributesOf isReadonly isHidden isGetter isSetter) ↔
      SameSlot w p propertyAtom offset (attributesOf isReadonly isHidden isGetter isSetter) := by
  have lookup := sane.find_label p member propertyAtom
    (attributesOf isReadonly isHidden isGetter isSetter)
  rcases (transitionShape_meets reserves sane p member propertyAtom offset isReadonly isHidden isGetter
      isSetter).holds _ done with ⟨entry, there, same⟩ | ⟨none, child, g', made, sane', spawned⟩
  · cases same
    have listed := List.mem_of_find?_eq_some there
    have matched := (Graph.matching_iff _ _ _).mp (List.find?_some there)
    obtain ⟨c, inside, target, _⟩ := sane.rooted.targets p member entry listed
    obtain ⟨atom, label⟩ := Prod.mk.inj matched
    obtain ⟨property, longer, name⟩ := titled p member entry listed c inside target (atom ▸ nonzero)
    rw [atom] at name
    subst name
    have last : (g.properties c).getLast? = some property := by rw [longer, List.getLast?_concat]
    rw [target, Option.bind_some, last, Option.map_some, Option.some.injEq] at label
    rw [target, ← label, sane.honours_iff sane p c member inside property longer absent offset]
    rw [there, ← label] at lookup
    refine ⟨fun right entry' c' property' found target' last' => ?_, fun slot => ?_⟩
    · obtain rfl := Option.some.inj (lookup.symm.trans found)
      obtain rfl := Option.some.inj (target.symm.trans target')
      rw [sane.propertiesOf_eq c inside, last] at last'
      obtain rfl := Option.some.inj last'
      exact right
    · exact slot entry c property lookup target ((sane.propertiesOf_eq c inside).symm ▸ last)
  · dsimp only at made sane' spawned
    subst made
    have longer := spawned.describes nonzero
    refine iff_of_true
      ((sane.honours_iff sane' p child member spawned.member _ longer absent offset).mpr rfl) ?_
    intro entry c property found
    rw [lookup, none] at found
    cases found

end Slots

section Reachable

variable {reservations : Nat → Option Nat}

theorem titled_of_reachable (reserves : Reserves reservations) (s : Run)
    (reached : (system reservations).Reachable s) :
    ∃ others foreign g, Sane reservations others foreign s.root s.world g ∧ g.Titled := by
  refine graph_invariant reserves (fun _ _ => True) Graph.Titled ?_ ?_ s
    (System.reachable_restrict _ _ (fun _ _ _ _ => trivial) reached)
  · intro root g rooted order _
    exact Graph.titled_iff.mpr (rooted.along order)
  · intro s call others foreign g g' _ sane evolves titled
    exact evolves.titled sane.rooted titled

theorem slot_honoured (reserves : Reserves reservations) (s : Run)
    (reached : (system reservations).Reachable s) (p : Nat) (live : Live s.world p)
    (propertyAtom : Atom) (nonzero : propertyAtom ≠ 0#32)
    (absent : hasProperty s.world (some p) propertyAtom = .ok false) (offset : BitVec 16)
    (isReadonly isHidden isGetter isSetter : Bool) (r : Option Nat) (after : ShapeWorld)
    (done : transitionShape s.world (some p) propertyAtom offset isReadonly isHidden isGetter isSetter =
      .ok (r, after)) :
    Honours s.world after p r propertyAtom offset
        (attributesOf isReadonly isHidden isGetter isSetter) ↔
      SameSlot s.world p propertyAtom offset (attributesOf isReadonly isHidden isGetter isSetter) := by
  obtain ⟨others, foreign, g, sane, titled⟩ := titled_of_reachable reserves s reached
  have member := (sane.live_iff p).mp live
  exact sane.slot reserves titled p member propertyAtom nonzero
    ((sane.absent_iff p member propertyAtom).mp absent) offset isReadonly isHidden isGetter isSetter r done

def Fresh (w : ShapeWorld) : Call → Prop
  | .transitionShape p propertyAtom _ _ _ _ _ => hasProperty w (some p) propertyAtom = .ok false
  | _ => True

structure UniqueNames (w : ShapeWorld) : Prop where
  distinct : ∀ p, Live w p → ((propertiesOf w p).map PropertyDescriptor.nameAtom).Nodup
  only : ∀ p propertyAtom property, Live w p → getProperty w (some p) propertyAtom = .ok (some property) →
    ∀ other ∈ propertiesOf w p, other.nameAtom = propertyAtom → other = property

variable {others : List PageManager.Chunk} {foreign : List Block} {root : Nat} {w : ShapeWorld}
  {g g' : Graph} {call : Call}

theorem Sane.uniqueNames_iff (sane : Sane reservations others foreign root w g) :
    UniqueNames w ↔ g.Distinct := by
  refine ⟨fun unique p member => ?_, fun distinct => ⟨fun p live => ?_, ?_⟩⟩
  · rw [← sane.propertiesOf_eq p member]
    exact unique.distinct p ((sane.live_iff p).mpr member)
  · have member := (sane.live_iff p).mp live
    rw [sane.propertiesOf_eq p member]
    exact distinct p member
  · intro p propertyAtom property live found other listed name
    have member := (sane.live_iff p).mp live
    rw [sane.getProperty_lookUp p member, Except.ok.injEq] at found
    rw [sane.propertiesOf_eq p member] at listed
    have name' : property.nameAtom = propertyAtom := by simpa using List.find?_some found
    exact List.inj_on_of_nodup_map (distinct p member) listed (List.mem_of_find?_eq_some found)
      (name.trans name'.symm)

theorem Graph.Spawned.distinct_iff (distinct : g.Distinct) {q child : Nat} {propertyAtom : Atom}
    {offset : BitVec 16} {isReadonly isHidden isGetter isSetter : Bool} (member : q ∈ g.order)
    (nonzero : propertyAtom ≠ 0#32)
    (spawned : g.Spawned g' q child (transiteTo child propertyAtom)
      (makePropertyInShape propertyAtom offset isReadonly isHidden isGetter isSetter)) :
    g'.Distinct ↔ lookUp (g.properties q) propertyAtom = none := by
  have names : (g'.properties child).map PropertyDescriptor.nameAtom =
      (g.properties q).map PropertyDescriptor.nameAtom ++ [propertyAtom] := by
    rw [spawned.describes nonzero, List.map_append]
    rfl
  rw [lookUp_none_iff]
  constructor
  · intro distinct' listed
    have nodup := distinct' child spawned.member
    rw [names] at nodup
    exact (List.nodup_append.mp nodup).2.2 propertyAtom listed propertyAtom (by simp) rfl
  · intro absent p inside
    rcases spawned.old_or_new _ inside with old | rfl
    · rw [spawned.properties p old]
      exact distinct p old
    · rw [names]
      refine List.nodup_append.mpr ⟨distinct q member, List.nodup_singleton _, ?_⟩
      intro name listed name' new' same
      obtain rfl := List.mem_singleton.mp new'
      exact absent (same ▸ listed)

theorem Graph.Evolves.distinct (evolves : g.Evolves root call g') (distinct : g.Distinct)
    (named : call.Named)
    (fresh : ∀ p propertyAtom offset isReadonly isHidden isGetter isSetter,
      call = .transitionShape p propertyAtom offset isReadonly isHidden isGetter isSetter →
      p ∈ g.order → lookUp (g.properties p) propertyAtom = none) : g'.Distinct := by
  cases evolves with
  | found => exact distinct
  | spawned q member propertyAtom offset _ _ _ _ child _ _ spawned =>
      exact (spawned.distinct_iff distinct member named).mpr (fresh _ _ _ _ _ _ _ rfl member)
  | reflagged _ p _ flags _ =>
      intro q inside
      rw [reflag_properties]
      exact distinct q inside
  | swept todo _ _ swept =>
      intro q inside
      rw [swept.pruned.properties q inside]
      exact distinct q (swept.pruned.old q inside).1

theorem Sane.fresh (sane : Sane reservations others foreign root w g) (fresh : Fresh w call)
    (p : Nat) (propertyAtom : Atom) (offset : BitVec 16) (isReadonly isHidden isGetter isSetter : Bool)
    (same : call = .transitionShape p propertyAtom offset isReadonly isHidden isGetter isSetter)
    (member : p ∈ g.order) : lookUp (g.properties p) propertyAtom = none := by
  subst same
  exact (sane.absent_iff p member propertyAtom).mp fresh

def freshNames (reservations : Nat → Option Nat) : System Run Call :=
  (system reservations).restrict fun s call => call.Named ∧ Fresh s.world call

theorem distinct_of_reachable (reserves : Reserves reservations) (s : Run)
    (reached : (freshNames reservations).Reachable s) : ∃ others foreign g,
      Sane reservations others foreign s.root s.world g ∧ g.Titled ∧ g.Distinct := by
  refine graph_invariant reserves _ (fun g => g.Titled ∧ g.Distinct) ?_ ?_ s reached
  · intro root g rooted order _
    refine ⟨Graph.titled_iff.mpr (rooted.along order), fun p member => ?_⟩
    obtain rfl := List.mem_singleton.mp (order ▸ member)
    rw [rooted.bare]
    exact List.nodup_nil
  · rintro s call others foreign g g' ⟨named, fresh⟩ sane evolves ⟨titled, distinct⟩
    exact ⟨evolves.titled sane.rooted titled,
      evolves.distinct distinct named fun p propertyAtom => sane.fresh fresh p propertyAtom⟩

theorem Sane.transition_distinct_iff (reserves : Reserves reservations)
    (sane : Sane reservations others foreign root w g) (titled : g.Titled) (distinct : g.Distinct)
    (p : Nat) (member : p ∈ g.order) (propertyAtom : Atom) (nonzero : propertyAtom ≠ 0#32)
    (offset : BitVec 16) (isReadonly isHidden isGetter isSetter : Bool) (made : Option Nat × ShapeWorld)
    (done : transitionShape w (some p) propertyAtom offset isReadonly isHidden isGetter isSetter =
      .ok made) : UniqueNames made.2 ↔ lookUp (g.properties p) propertyAtom = none := by
  rcases (transitionShape_meets reserves sane p member propertyAtom offset isReadonly isHidden isGetter
      isSetter).holds _ done with ⟨entry, there, rfl⟩ | ⟨_, child, g', _, sane', spawned⟩
  · have listed := List.mem_of_find?_eq_some there
    obtain ⟨atom, _⟩ := Prod.mk.inj ((Graph.matching_iff _ _ _).mp (List.find?_some there))
    obtain ⟨c, inside, target, _⟩ := sane.rooted.targets p member entry listed
    obtain ⟨property, longer, name⟩ := titled p member entry listed c inside target (atom ▸ nonzero)
    refine iff_of_true (sane.uniqueNames_iff.mpr distinct) ((lookUp_none_iff _ _).mpr fun twice => ?_)
    have nodup := distinct c inside
    rw [longer, List.map_append] at nodup
    exact (List.nodup_append.mp nodup).2.2 propertyAtom twice propertyAtom (by simp [name, atom]) rfl
  · exact sane'.uniqueNames_iff.trans (spawned.distinct_iff distinct member nonzero)

theorem names_unique (reserves : Reserves reservations) (s : Run)
    (reached : (freshNames reservations).Reachable s) :
    UniqueNames s.world ∧ ∀ call t, call.Named → (system reservations).step s call t →
      (UniqueNames t.world ↔ Fresh s.world call) := by
  obtain ⟨others, foreign, g, sane, titled, distinct⟩ := distinct_of_reachable reserves s reached
  refine ⟨sane.uniqueNames_iff.mpr distinct, fun call t named taken => ?_⟩
  have always (fresh : Fresh s.world call) : UniqueNames t.world := by
    obtain ⟨g', sane', evolves⟩ := sane.step reserves taken
    exact sane'.uniqueNames_iff.mpr
      (evolves.distinct distinct named fun p propertyAtom => sane.fresh fresh p propertyAtom)
  refine ⟨fun unique => ?_, always⟩
  obtain ⟨allowed, _, fuel, done⟩ := taken
  cases call with
  | transitionShape p propertyAtom offset isReadonly isHidden isGetter isSetter =>
      have member := (sane.live_iff p).mp allowed
      obtain ⟨made, returned, same⟩ := (Result.bind_ok _ _ _).mp done
      rw [← Except.ok.inj same] at unique
      exact (sane.absent_iff p member propertyAtom).mpr ((sane.transition_distinct_iff reserves titled
        distinct p member propertyAtom named offset _ _ _ _ made returned).mp unique)
  | markShapeAlive p => trivial
  | setShapeFrozen p isFrozen => trivial
  | setShapeHashTableMode p isHashTableMode => trivial
  | sweepOrphanedShapes => trivial

end Reachable

theorem same_name : ∃ (s : Run) (child grandchild : Nat) (doubled : ShapeWorld),
    (freshNames PageManager.rowOfRegions).Reachable s ∧ Live s.world s.root ∧
    hasProperty s.world (some s.root) 5#32 = .ok false ∧
    (∀ offset, transitionShape s.world (some s.root) 5#32 offset false false false false =
      .ok (some child, s.world)) ∧
    findPropertyOffset s.world (some child) 5#32 = .ok 0#16 ∧ Live s.world child ∧
    transitionShape s.world (some child) 5#32 1#16 false false false false =
      .ok (some grandchild, doubled) ∧ Live doubled grandchild ∧
    propertiesOf doubled grandchild = [⟨5#32, 0#16, 0#16⟩, ⟨5#32, 1#16, 0#16⟩] ∧
    getProperty doubled (some grandchild) 5#32 = .ok (some ⟨5#32, 0#16, 0#16⟩) := by
  obtain ⟨manager, start⟩ := onePage_start
  obtain ⟨world, born, made, live, absent, done, rest⟩ : ∃ world born,
      createRootShape (MetaArena.onePage manager Heap.empty) = .ok (memoryChunkSize, world) ∧
      Live world memoryChunkSize ∧ hasProperty world (some memoryChunkSize) 5#32 = .ok false ∧
      perform 0 world (.transitionShape memoryChunkSize 5#32 0#16 false false false false) = .ok born ∧
      Live born memoryChunkSize ∧ hasProperty born (some memoryChunkSize) 5#32 = .ok false ∧
      (∀ offset, transitionShape born (some memoryChunkSize) 5#32 offset false false false false =
        .ok (some (memoryChunkSize + 96), born)) ∧
      findPropertyOffset born (some (memoryChunkSize + 96)) 5#32 = .ok 0#16 ∧
      Live born (memoryChunkSize + 96) ∧ ∃ doubled,
        transitionShape born (some (memoryChunkSize + 96)) 5#32 1#16 false false false false =
          .ok (some (memoryChunkSize + 208), doubled) ∧ Live doubled (memoryChunkSize + 208) ∧
        propertiesOf doubled (memoryChunkSize + 208) = [⟨5#32, 0#16, 0#16⟩, ⟨5#32, 1#16, 0#16⟩] ∧
        getProperty doubled (some (memoryChunkSize + 208)) 5#32 = .ok (some ⟨5#32, 0#16, 0#16⟩) :=
    ⟨_, _, rfl, rfl, rfl, rfl, rfl, rfl, fun _ => rfl, rfl, rfl, _, rfl, rfl, rfl, rfl⟩
  have started : (freshNames PageManager.rowOfRegions).Reachable ⟨world, memoryChunkSize⟩ :=
    .start (start _ _ made)
  have taken : (freshNames PageManager.rowOfRegions).step ⟨world, memoryChunkSize⟩
      (.transitionShape memoryChunkSize 5#32 0#16 false false false false) ⟨born, memoryChunkSize⟩ :=
    ⟨⟨show 5#32 ≠ 0#32 by decide, absent⟩, live, rfl, 0, done⟩
  obtain ⟨live', absent', again, slot, alive, doubled, twice⟩ := rest
  exact ⟨_, _, _, doubled, started.step taken, live', absent', again, slot, alive, twice⟩

theorem slot_honoured_again : ∃ (s : Run) (child : Nat),
    (system PageManager.rowOfRegions).Reachable s ∧
    transitionShape s.world (some s.root) 5#32 0#16 false false false false =
      .ok (some child, s.world) ∧
    (Honours s.world s.world s.root (some child) 5#32 0#16 (attributesOf false false false false) ↔
      SameSlot s.world s.root 5#32 0#16 (attributesOf false false false false)) := by
  obtain ⟨s, child, _, _, reached, live, absent, again, _⟩ := same_name
  have reached' := System.restrict_reachable _ _ reached
  exact ⟨s, child, reached', again 0#16, slot_honoured rowOfRegions_reserves s reached' s.root live 5#32
    (by decide) absent 0#16 false false false false (some child) s.world (again 0#16)⟩

-- For another offset the same shape is found, which has the first one.
theorem slot_ignored : ∃ (s : Run) (child : Nat), (system PageManager.rowOfRegions).Reachable s ∧
    Live s.world s.root ∧ hasProperty s.world (some s.root) 5#32 = .ok false ∧
    transitionShape s.world (some s.root) 5#32 1#16 false false false false =
      .ok (some child, s.world) ∧
    findPropertyOffset s.world (some child) 5#32 = .ok 0#16 ∧
    ¬ Honours s.world s.world s.root (some child) 5#32 1#16 (attributesOf false false false false) := by
  obtain ⟨s, child, _, _, reached, live, absent, again, slot, _⟩ := same_name
  refine ⟨s, child, System.restrict_reachable _ _ reached, live, absent, again 1#16, slot, fun honours => ?_⟩
  have same := Except.ok.inj (slot.symm.trans honours.offset)
  cases same

theorem names_unique_child : ∃ (s : Run) (child : Nat), (freshNames PageManager.rowOfRegions).Reachable s ∧
    findPropertyOffset s.world (some child) 5#32 = .ok 0#16 ∧ UniqueNames s.world ∧
    ∀ call t, call.Named → (system PageManager.rowOfRegions).step s call t →
      (UniqueNames t.world ↔ Fresh s.world call) := by
  obtain ⟨s, child, _, _, reached, _, _, _, slot, _⟩ := same_name
  exact ⟨s, child, reached, slot, names_unique rowOfRegions_reserves s reached⟩

-- A second transition for a name that the shape has already.
theorem name_doubled : ∃ (s : Run) (p : Nat), (named PageManager.rowOfRegions).Reachable s ∧
    Live s.world p ∧ propertiesOf s.world p = [⟨5#32, 0#16, 0#16⟩, ⟨5#32, 1#16, 0#16⟩] ∧
    getProperty s.world (some p) 5#32 = .ok (some ⟨5#32, 0#16, 0#16⟩) ∧ ¬ UniqueNames s.world := by
  obtain ⟨s, child, p, doubled, reached, _, _, _, _, alive, done, live, twice, first⟩ := same_name
  have reached' : (named PageManager.rowOfRegions).Reachable s :=
    System.restrict_weaken _ _ _ (fun _ _ both => both.1) reached
  have taken : (named PageManager.rowOfRegions).step s
      (.transitionShape child 5#32 1#16 false false false false) ⟨doubled, s.root⟩ :=
    ⟨show 5#32 ≠ 0#32 by decide, alive, rfl, 0, by simp [perform, done]⟩
  refine ⟨_, p, reached'.step taken, live, twice, first, fun unique => ?_⟩
  have distinct := unique.distinct p live
  rw [twice] at distinct
  simp at distinct

end Shape

end ElySquare
