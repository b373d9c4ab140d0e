import Mathlib.Data.List.Find
import ElySquare.Meta.ShapeRun

set_option autoImplicit false

namespace ElySquare

namespace Shape

open Transition

-- What the lookup compares: the name, and the attributes of the last property of the target.
def labelOf (w : ShapeWorld) (entry : TransitionEntry) : Atom × Option (BitVec 16) :=
  (entry.propertyAtom,
    entry.targetShape.bind fun c => (propertiesOf w c).getLast?.map PropertyDescriptor.attributes)

def Deterministic (w : ShapeWorld) : Prop :=
  ∀ q, Live w q → ((entriesOf w q).map (labelOf w)).Nodup

namespace Graph

def label (g : Graph) (entry : TransitionEntry) : Atom × Option (BitVec 16) :=
  (entry.propertyAtom,
    entry.targetShape.bind fun c => (g.properties c).getLast?.map PropertyDescriptor.attributes)

def Deterministic (g : Graph) : Prop := ∀ q ∈ g.order, ((g.entries q).map g.label).Nodup

variable {g g' : Graph} {root : Nat}

theorem matching_iff (propertyAtom : Atom) (attributes : BitVec 16) (entry : TransitionEntry) :
    g.matching propertyAtom attributes entry = true ↔ g.label entry = (propertyAtom, some attributes) := by
  unfold matching label
  cases entry.targetShape with
  | none => simp
  | some c => simp [Option.any_eq_true]

theorem label_congr (rooted : g.Rooted root) (q : Nat) (member : q ∈ g.order) (entry : TransitionEntry)
    (listed : entry ∈ g.entries q)
    (same : ∀ c ∈ g.order, entry.targetShape = some c → g'.properties c = g.properties c) :
    g'.label entry = g.label entry := by
  obtain ⟨c, inside, target, _⟩ := rooted.targets q member entry listed
  simp only [label, target, Option.bind_some, same c inside target]

theorem find_congr (rooted : g.Rooted root) (q : Nat) (member : q ∈ g.order)
    (same : ∀ c ∈ g.order, g'.properties c = g.properties c) (propertyAtom : Atom)
    (attributes : BitVec 16) : (g.entries q).find? (g'.matching propertyAtom attributes) =
      (g.entries q).find? (g.matching propertyAtom attributes) := by
  refine List.find?_congr fun entry listed => ?_
  rw [Bool.eq_iff_iff, matching_iff, matching_iff,
    label_congr rooted q member entry listed fun c inside _ => same c inside]

theorem Spawned.describes {p child : Nat} {propertyAtom : Atom} {offset : BitVec 16}
    {isReadonly isHidden isGetter isSetter : Bool} (nonzero : propertyAtom ≠ 0#32)
    (spawned : g.Spawned g' p child (transiteTo child propertyAtom)
      (makePropertyInShape propertyAtom offset isReadonly isHidden isGetter isSetter)) :
    g'.properties child = g.properties p ++
      [⟨propertyAtom, offset, attributesOf isReadonly isHidden isGetter isSetter⟩] := by
  rw [spawned.longer, makePropertyInShape, if_neg nonzero]

-- The label of a new entry: its attributes are computed a second time, with the same outcome.
theorem Spawned.label_eq {p child : Nat} {propertyAtom : Atom} {offset : BitVec 16}
    {isReadonly isHidden isGetter isSetter : Bool} (nonzero : propertyAtom ≠ 0#32)
    (spawned : g.Spawned g' p child (transiteTo child propertyAtom)
      (makePropertyInShape propertyAtom offset isReadonly isHidden isGetter isSetter)) :
    g'.label (transiteTo child propertyAtom) =
      (propertyAtom, some (attributesOf isReadonly isHidden isGetter isSetter)) := by
  simp [label, transiteTo, spawned.describes nonzero]

theorem Spawned.deterministic (rooted : g.Rooted root) (deterministic : g.Deterministic) {p child : Nat}
    (member : p ∈ g.order) {propertyAtom : Atom} {offset : BitVec 16}
    {isReadonly isHidden isGetter isSetter : Bool} (nonzero : propertyAtom ≠ 0#32)
    (absent : (g.entries p).find? (g.matching propertyAtom
      (attributesOf isReadonly isHidden isGetter isSetter)) = none)
    (spawned : g.Spawned g' p child (transiteTo child propertyAtom)
      (makePropertyInShape propertyAtom offset isReadonly isHidden isGetter isSetter)) :
    g'.Deterministic := by
  have same (q : Nat) (old : q ∈ g.order) : (g.entries q).map g'.label = (g.entries q).map g.label :=
    List.map_congr_left fun entry listed =>
      label_congr rooted q old entry listed fun c inside _ => spawned.properties c inside
  intro q inside
  rcases spawned.old_or_new _ inside with old | rfl
  · by_cases here : q = p
    · subst here
      rw [spawned.added, List.map_append, same q old, List.map_singleton, spawned.label_eq nonzero]
      refine List.nodup_append.mpr ⟨deterministic q old, List.nodup_singleton _, ?_⟩
      intro label listed label' new' equal
      obtain rfl := List.mem_singleton.mp new'
      obtain ⟨entry, there, labelled⟩ := List.mem_map.mp listed
      exact List.find?_eq_none.mp absent entry there ((matching_iff _ _ _).mpr (labelled.trans equal))
    · rw [spawned.entries q old here, same q old]
      exact deterministic q old
  · rw [spawned.blank]
    exact List.nodup_nil

theorem Swept.deterministic (rooted : g.Rooted root) (deterministic : g.Deterministic) {todo : List Nat}
    (swept : g.Swept g' todo) : g'.Deterministic := by
  intro q inside
  have old := List.mem_of_mem_filter (swept.pruned.order ▸ inside)
  have perm := swept.pruned.entries q inside
  refine (perm.map g'.label).nodup_iff.mpr ?_
  have same : ((g.entries q).filter fun entry => entry.targetShape.any (g.spares todo)).map g'.label =
      ((g.entries q).filter fun entry => entry.targetShape.any (g.spares todo)).map g.label := by
    refine List.map_congr_left fun entry listed => ?_
    obtain ⟨there, kept⟩ := List.mem_filter.mp listed
    refine label_congr rooted q old entry there fun c member target => swept.pruned.properties c ?_
    rw [swept.pruned.order]
    exact List.mem_filter.mpr ⟨member, by simpa [target] using kept⟩
  rw [same]
  exact (deterministic q old).sublist (List.filter_sublist.map _)

def Along (g : Graph)
    (relation : List PropertyDescriptor → Atom → List PropertyDescriptor → Prop) : Prop :=
  ∀ q ∈ g.order, ∀ entry ∈ g.entries q, ∀ c ∈ g.order, entry.targetShape = some c →
    relation (g.properties q) entry.propertyAtom (g.properties c)

section Along

variable {relation : List PropertyDescriptor → Atom → List PropertyDescriptor → Prop}

theorem Rooted.along (rooted : g.Rooted root) (order : g.order = [root]) : g.Along relation := by
  intro q member entry listed
  rw [rooted.lone order q member] at listed
  cases listed

theorem Spawned.along (rooted : g.Rooted root) (along : g.Along relation) {q child : Nat}
    {entry : TransitionEntry} {property : PropertyDescriptor}
    (spawned : g.Spawned g' q child entry property)
    (related : relation (g.properties q) entry.propertyAtom (g.properties q ++ [property])) :
    g'.Along relation := by
  intro p inside entry' listed c _ target
  rcases spawned.old_or_new _ inside with old | rfl
  · have earlier (listed : entry' ∈ g.entries p) :
        relation (g'.properties p) entry'.propertyAtom (g'.properties c) := by
      obtain ⟨c', member', target', _⟩ := rooted.targets p old entry' listed
      obtain rfl := Option.some.inj (target.symm.trans target')
      rw [spawned.properties c member', spawned.properties p old]
      exact along p old entry' listed c member' target
    by_cases here : p = q
    · subst here
      rw [spawned.added] at listed
      rcases List.mem_append.mp listed with listed | last
      · exact earlier listed
      · obtain rfl := List.mem_singleton.mp last
        obtain rfl := Option.some.inj (target.symm.trans spawned.target)
        rw [spawned.longer, spawned.properties p old]
        exact related
    · rw [spawned.entries p old here] at listed
      exact earlier listed
  · rw [spawned.blank] at listed
    cases listed

theorem reflag_along (along : g.Along relation) (p : Nat) (flags : BitVec 16) :
    (g.reflag p flags).Along relation := by
  intro q inside
  rw [reflag_properties, reflag_entries]
  exact along q inside

theorem Swept.along (along : g.Along relation) {todo : List Nat} (swept : g.Swept g' todo) :
    g'.Along relation := by
  intro q inside entry listed c inside' target
  have there := List.mem_filter.mp ((swept.pruned.entries q inside).mem_iff.mp listed)
  rw [swept.pruned.properties q inside, swept.pruned.properties c inside']
  exact along q (swept.pruned.old q inside).1 entry there.1 c (swept.pruned.old c inside').1 target

end Along

end Graph

-- A transition to the name 0 gets a blank descriptor, which no lookup finds again.
def Call.Named : Call → Prop
  | .transitionShape _ propertyAtom _ _ _ _ _ => propertyAtom ≠ 0#32
  | _ => True

section Evolves

variable {g g' : Graph} {root : Nat} {call : Call}

theorem Graph.Evolves.deterministic (rooted : g.Rooted root) (evolves : g.Evolves root call g')
    (named : call.Named) (deterministic : g.Deterministic) : g'.Deterministic := by
  cases evolves with
  | found => exact deterministic
  | spawned p member propertyAtom offset isReadonly isHidden isGetter isSetter child _ absent spawned =>
      exact spawned.deterministic rooted deterministic member named absent
  | reflagged _ p _ flags _ =>
      intro q inside
      unfold label
      rw [reflag_properties, reflag_entries]
      exact deterministic q inside
  | swept todo _ _ swept => exact swept.deterministic rooted deterministic

def Unswept (call : Call) : Prop := call ≠ .sweepOrphanedShapes

theorem Graph.Evolves.stays (evolves : g.Evolves root call g') (unswept : Unswept call) (p : Nat)
    (member : p ∈ g.order) : p ∈ g'.order := by
  cases evolves with
  | found => exact member
  | spawned q _ _ _ _ _ _ _ child _ _ spawned => exact spawned.stays _ member
  | reflagged => exact member
  | swept => exact (unswept rfl).elim

theorem Graph.Evolves.finds (rooted : g.Rooted root) (evolves : g.Evolves root call g')
    (unswept : Unswept call) (p : Nat) (member : p ∈ g.order) (propertyAtom : Atom)
    (attributes : BitVec 16) (entry : TransitionEntry)
    (there : (g.entries p).find? (g.matching propertyAtom attributes) = some entry) :
    (g'.entries p).find? (g'.matching propertyAtom attributes) = some entry := by
  cases evolves with
  | found => exact there
  | spawned q _ _ _ _ _ _ _ child _ _ spawned =>
      have same := find_congr rooted p member spawned.properties propertyAtom attributes
      rw [there] at same
      by_cases here : p = q
      · subst here
        rw [spawned.added, List.find?_append, same]
        rfl
      · rw [spawned.entries p member here, same]
  | reflagged _ q _ flags _ =>
      unfold matching
      rw [reflag_properties, reflag_entries]
      exact there
  | swept => exact (unswept rfl).elim

end Evolves

def named (reservations : Nat → Option Nat) : System Run Call :=
  (system reservations).restrict fun _ call => call.Named

structure Enlarged (before after : ShapeWorld) (p : Nat) (shape : Shape) : Prop where
  live : ∀ q, Live after q ↔ Live before q
  entries : ∀ q, Live before q → entriesOf after q = entriesOf before q
  properties : ∀ q, Live before q → propertiesOf after q = propertiesOf before q
  capacity : ∃ shape' slots, shapeAt after p = some shape' ∧
    shape'.transitionCapacity = getNextTransitionCapacity shape.transitionCapacity ∧
    readTransitions after shape'.transitionTable = .ok slots ∧
    slots.length = shape'.transitionCapacity ∧ slots.take shape.transitionCount = entriesOf before p

section Reachable

variable {reservations : Nat → Option Nat} {others : List PageManager.Chunk} {foreign : List Block}
  {root : Nat} {w : ShapeWorld} {g : Graph}

theorem Sane.label_eq (sane : Sane reservations others foreign root w g) (q : Nat)
    (member : q ∈ g.order) (entry : TransitionEntry) (listed : entry ∈ g.entries q) :
    labelOf w entry = g.label entry := by
  obtain ⟨c, inside, target, _⟩ := sane.rooted.targets q member entry listed
  simp only [labelOf, Graph.label, target, Option.bind_some, sane.propertiesOf_eq c inside]

theorem Sane.deterministic_iff (sane : Sane reservations others foreign root w g) :
    Deterministic w ↔ g.Deterministic := by
  have labels (q : Nat) (member : q ∈ g.order) :
      (entriesOf w q).map (labelOf w) = (g.entries q).map g.label := by
    rw [sane.entriesOf_eq q member]
    exact List.map_congr_left fun entry listed => sane.label_eq q member entry listed
  constructor
  · intro deterministic q member
    rw [← labels q member]
    exact deterministic q ((sane.live_iff q).mpr member)
  · intro deterministic q live
    have member := (sane.live_iff q).mp live
    rw [labels q member]
    exact deterministic q member

theorem deterministic_of_reachable (reserves : Reserves reservations) (s : Run)
    (reached : (named reservations).Reachable s) :
    ∃ others foreign g, Sane reservations others foreign s.root s.world g ∧ g.Deterministic := by
  refine graph_invariant reserves _ Graph.Deterministic ?_ ?_ s reached
  · intro root g rooted order _ q member
    rw [rooted.lone order q member]
    exact List.nodup_nil
  · intro s call others foreign g g' chosen sane evolves deterministic
    exact evolves.deterministic sane.rooted chosen deterministic

theorem Sane.enlarges (reserves : Reserves reservations)
    (sane : Sane reservations others foreign root w g) (p : Nat) (shape : Shape)
    (found : shapeAt w p = some shape) (tight : shape.transitionCount = shape.transitionCapacity)
    (after : ShapeWorld) (done : growTransitionTable w p = .ok after) : Enlarged w after p shape := by
  obtain ⟨held, stands⟩ := sane.heap
  have member : p ∈ g.order := (sane.live_iff p).mp (by rw [Live, found]; rfl)
  obtain rfl := Option.some.inj (found.symm.trans (sane.shapeAt_eq p member))
  have laid := stands.lays.laid p member
  have full : (g.node p).slack = [] := by
    rw [laid.transitionCount, laid.transitionCapacity] at tight
    exact List.length_eq_zero_iff.mp (by omega)
  obtain ⟨held', g', stands', alike, roomy, last, capacity⟩ :=
    (growTransitionTable_meets reserves stands p member).holds _ done
  have sane' : Sane reservations others foreign root after g' :=
    ⟨⟨held', stands'⟩, sane.linked.alike alike, sane.rooted.alike alike,
      last.trans (sane.last.trans (congrArg List.getLast? alike.order).symm)⟩
  have inside (q : Nat) (live : Live w q) : q ∈ g.order ∧ q ∈ g'.order := by
    have old := (sane.live_iff q).mp live
    exact ⟨old, alike.order ▸ old⟩
  refine ⟨fun q => ?_, fun q live => ?_, fun q live => ?_, ?_⟩
  · rw [sane'.live_iff, sane.live_iff, alike.order]
  · rw [sane'.entriesOf_eq q (inside q live).2, sane.entriesOf_eq q (inside q live).1, alike.entries]
  · rw [sane'.propertiesOf_eq q (inside q live).2, sane.propertiesOf_eq q (inside q live).1,
      alike.properties]
  · have member' : p ∈ g'.order := alike.order ▸ member
    have laid' := stands'.lays.laid p member'
    have entries : (g'.node p).entries = (g.node p).entries := congrFun alike.entries p
    obtain ⟨table, points⟩ := Option.ne_none_iff_exists'.mp (mt laid'.table.null.mp (by simp [roomy]))
    refine ⟨_, (g'.node p).entries ++ (g'.node p).slack, sane'.shapeAt_eq p member', capacity full, ?_, ?_, ?_⟩
    · rw [points]
      exact readTransitions_ok stands'.keeps table _ (laid'.table.there table points)
    · rw [laid'.transitionCapacity, List.length_append]
    · rw [sane.entriesOf_eq p member, laid.transitionCount, entries, List.take_left]
      rfl

theorem Sane.transition_found (reserves : Reserves reservations)
    (sane : Sane reservations others foreign root w g) (p : Nat) (member : p ∈ g.order)
    (propertyAtom : Atom) (offset : BitVec 16) (isReadonly isHidden isGetter isSetter : Bool)
    (nonzero : propertyAtom ≠ 0#32) (result : Option Nat) (after : ShapeWorld)
    (done : transitionShape w (some p) propertyAtom offset isReadonly isHidden isGetter isSetter =
      .ok (result, after)) :
    ∃ g' entry, Sane reservations others foreign root after g' ∧ p ∈ g'.order ∧
      (g'.entries p).find? (g'.matching propertyAtom
        (attributesOf isReadonly isHidden isGetter isSetter)) = some entry ∧
      result = entry.targetShape := by
  rcases (transitionShape_meets reserves sane p member propertyAtom offset isReadonly isHidden isGetter
      isSetter).holds _ done with ⟨entry, there, same⟩ | ⟨absent, child, g', made, sane', spawned⟩
  · cases same
    exact ⟨g, entry, sane, member, there, rfl⟩
  · refine ⟨g', transiteTo child propertyAtom, sane', spawned.stays _ member, ?_, made⟩
    rw [spawned.added, List.find?_append,
      Graph.find_congr sane.rooted p member spawned.properties propertyAtom, absent, Option.none_or]
    exact List.find?_cons_of_pos ((Graph.matching_iff _ _ _).mpr (spawned.label_eq nonzero))

theorem transitionShape_again (reserves : Reserves reservations)
    (sane : Sane reservations others foreign root w g) (p : Nat) (live : Live w p)
    (propertyAtom : Atom) (offset : BitVec 16) (isReadonly isHidden isGetter isSetter : Bool)
    (nonzero : propertyAtom ≠ 0#32) (result : Option Nat) (after : ShapeWorld)
    (done : transitionShape w (some p) propertyAtom offset isReadonly isHidden isGetter isSetter =
      .ok (result, after)) (t : Run) (later : (system reservations).Later Unswept ⟨after, root⟩ t) :
    transitionShape t.world (some p) propertyAtom offset isReadonly isHidden isGetter isSetter =
      .ok (result, t.world) := by
  obtain ⟨g₁, entry, sane₁, member₁, found₁, rfl⟩ := sane.transition_found reserves p
    ((sane.live_iff p).mp live) propertyAtom offset isReadonly isHidden isGetter isSetter nonzero result
    after done
  obtain ⟨g₂, sane₂, member₂, found₂⟩ := later.keeps
    (fun t => ∃ g', Sane reservations others foreign t.root t.world g' ∧ p ∈ g'.order ∧
      (g'.entries p).find? (g'.matching propertyAtom
        (attributesOf isReadonly isHidden isGetter isSetter)) = some entry)
    ⟨g₁, sane₁, member₁, found₁⟩ (by
      rintro before call t unswept ⟨g', sane', member', found'⟩ taken
      obtain ⟨g'', sane'', evolves⟩ := sane'.step reserves taken
      exact ⟨g'', sane'', evolves.stays unswept p member',
        evolves.finds sane'.rooted unswept p member' _ _ entry found'⟩)
  obtain ⟨held, stands⟩ := sane₂.heap
  exact transitionShape_found sane₂.rooted.branching stands p member₂ _ _ _ _ _ _ entry found₂

structure Sharing (reservations : Nat → Option Nat) (s : Run) : Prop where
  deterministic : Deterministic s.world
  again : ∀ p propertyAtom offset isReadonly isHidden isGetter isSetter result after t,
    Live s.world p → propertyAtom ≠ 0#32 →
    transitionShape s.world (some p) propertyAtom offset isReadonly isHidden isGetter isSetter =
      .ok (result, after) →
    (system reservations).Later Unswept ⟨after, s.root⟩ t →
    transitionShape t.world (some p) propertyAtom offset isReadonly isHidden isGetter isSetter =
      .ok (result, t.world)
  enlarges : ∀ p shape after, shapeAt s.world p = some shape →
    shape.transitionCount = shape.transitionCapacity → growTransitionTable s.world p = .ok after →
    Enlarged s.world after p shape

theorem transition_sharing (reserves : Reserves reservations) (s : Run)
    (reached : (named reservations).Reachable s) : Sharing reservations s := by
  obtain ⟨others, foreign, g, sane, deterministic⟩ := deterministic_of_reachable reserves s reached
  refine ⟨sane.deterministic_iff.mpr deterministic, ?_, fun p shape after found tight done =>
    sane.enlarges reserves p shape found tight after done⟩
  intro p propertyAtom offset isReadonly isHidden isGetter isSetter result after t live nonzero done later
  exact transitionShape_again reserves sane p live propertyAtom offset isReadonly isHidden isGetter
    isSetter nonzero result after done t later

end Reachable

theorem transition_sharing_child : ∃ s child, (named PageManager.rowOfRegions).Reachable s ∧
    child ≠ s.root ∧ Live s.world child ∧ Sharing PageManager.rowOfRegions s := by
  obtain ⟨world, born, initial, live, done, alive, _⟩ := first_transition
  have started : (named PageManager.rowOfRegions).Reachable ⟨world, memoryChunkSize⟩ := .start initial
  have taken : (named PageManager.rowOfRegions).step ⟨world, memoryChunkSize⟩
    (.transitionShape memoryChunkSize 5#32 0#16 false false false false) ⟨born, memoryChunkSize⟩ :=
    ⟨show 5#32 ≠ 0#32 by decide, live, rfl, 0, done⟩
  exact ⟨_, memoryChunkSize + 96, started.step taken, by simp, alive,
    transition_sharing rowOfRegions_reserves _ (started.step taken)⟩

end Shape

end ElySquare
