import ElySquare.Meta.ShapeSlots

set_option autoImplicit false

namespace ElySquare

namespace Shape

open Transition

structure Request where
  propertyAtom : Atom
  offset : BitVec 16
deriving DecidableEq, Repr

def Call.request : Call → Option Request
  | .transitionShape _ propertyAtom offset _ _ _ _ => some ⟨propertyAtom, offset⟩
  | _ => none

abbrev Requests := Nat → Option Request

-- A shape that was not alive before a call is made by it.
def remember (s : Run) (call : Call) (asked : Requests) : Requests := fun p =>
  if (shapeAt s.world p).isSome then asked p else call.request

def requested (reservations : Nat → Option Nat) : System (Run × Requests) Call :=
  (system reservations).recorded (fun _ => none) remember

inductive Path (s : Run × Requests) : Nat → List Request → Prop
  | root : Path s s.1.root []
  | child {p c : Nat} {path : List Request} {request : Request} (above : Path s p path)
      (parent : parentOf s.1.world c = some p) (made : s.2 c = some request) :
      Path s c (path ++ [request])

def ToldApart (w : ShapeWorld) (p : Nat) (path : List Request) (propertyAtom : Atom) : Prop :=
  findPropertyOffset w (some p) propertyAtom = .ok invalidIndex ↔
    ∀ request ∈ path, request.propertyAtom ≠ propertyAtom

-- The first transition that has added the name was not asked for the sentinel. The descriptor of
-- the name 0 is blank, whatever was asked for.
def Storable (path : List Request) (propertyAtom : Atom) : Prop :=
  propertyAtom = 0#32 ∨ ∀ request,
    path.find? (fun request => request.propertyAtom = propertyAtom) = some request →
      request.offset ≠ invalidIndex

def Request.stored (request : Request) : BitVec 16 :=
  if request.propertyAtom = 0#32 then 0#16 else request.offset

structure Request.Makes (request : Request) (property : PropertyDescriptor) : Prop where
  nameAtom : property.nameAtom = request.propertyAtom
  offsetIndex : property.offsetIndex = request.stored

theorem makePropertyInShape_made (propertyAtom : Atom) (offset : BitVec 16)
    (isReadonly isHidden isGetter isSetter : Bool) : Request.Makes ⟨propertyAtom, offset⟩
      (makePropertyInShape propertyAtom offset isReadonly isHidden isGetter isSetter) := by
  unfold makePropertyInShape
  split
  next zero => exact ⟨zero.symm, (if_pos zero).symm⟩
  next nonzero => exact ⟨rfl, (if_neg nonzero).symm⟩

section Slot

def slotOf (properties : List PropertyDescriptor) (propertyAtom : Atom) : Option (BitVec 16) :=
  (lookUp properties propertyAtom).map PropertyDescriptor.offsetIndex

-- An absent name is told from all that are present just when none has the sentinel's value.
theorem getD_told {Value : Type} (found : Option Value) (sentinel : Value) :
    (found.getD sentinel = sentinel ↔ found = none) ↔ found ≠ some sentinel := by
  cases found <;> simp

theorem slotOf_made (propertyAtom : Atom) {path : List Request} {properties : List PropertyDescriptor}
    (made : List.Forall₂ Request.Makes path properties) : slotOf properties propertyAtom =
      (path.find? fun request => request.propertyAtom = propertyAtom).map Request.stored := by
  induction made with
  | nil => rfl
  | @cons request property path properties first _ ih =>
    unfold slotOf lookUp at ih ⊢
    rw [List.find?_cons, List.find?_cons, first.nameAtom]
    by_cases here : request.propertyAtom = propertyAtom
    · simp [here, first.offsetIndex]
    · simp [here, ih]

theorem slotOf_none_iff (propertyAtom : Atom) {path : List Request}
    {properties : List PropertyDescriptor} (made : List.Forall₂ Request.Makes path properties) :
    slotOf properties propertyAtom = none ↔ ∀ request ∈ path, request.propertyAtom ≠ propertyAtom := by
  rw [slotOf_made propertyAtom made, Option.map_eq_none_iff, List.find?_eq_none]
  simp

theorem storable_iff (propertyAtom : Atom) {path : List Request}
    {properties : List PropertyDescriptor} (made : List.Forall₂ Request.Makes path properties) :
    slotOf properties propertyAtom ≠ some invalidIndex ↔ Storable path propertyAtom := by
  rw [slotOf_made propertyAtom made]
  unfold Storable
  cases found : path.find? fun request => request.propertyAtom = propertyAtom with
  | none => simp
  | some request =>
    have name : request.propertyAtom = propertyAtom := by simpa using List.find?_some found
    unfold Request.stored
    by_cases zero : propertyAtom = 0#32
    · simp [name, zero, invalidIndex]
    · simp [name, zero]

theorem slotOf_append (properties : List PropertyDescriptor) (property : PropertyDescriptor)
    (propertyAtom : Atom) : slotOf (properties ++ [property]) propertyAtom =
      (slotOf properties propertyAtom).or
        (if property.nameAtom = propertyAtom then some property.offsetIndex else none) := by
  unfold slotOf lookUp
  rw [List.find?_append, List.find?_singleton]
  cases properties.find? fun property => property.nameAtom = propertyAtom with
  | none => by_cases here : property.nameAtom = propertyAtom <;> simp [here]
  | some found => rfl

end Slot

def Graph.Recorded (g : Graph) (asked : Requests) : Prop :=
  ∀ c ∈ g.order, ∀ p, g.parent c = some p → ∃ request property,
    asked c = some request ∧ request.Makes property ∧ g.properties c = g.properties p ++ [property]

section Evolves

variable {g g' : Graph} {root : Nat} {call : Call} {asked asked' : Requests}

theorem Graph.Recorded.congr (recorded : g.Recorded asked) (old : ∀ c ∈ g'.order, c ∈ g.order)
    (parent : ∀ c ∈ g'.order, g'.parent c = g.parent c)
    (properties : ∀ c ∈ g'.order, g'.properties c = g.properties c)
    (inside : ∀ c p, c ∈ g'.order → g'.parent c = some p → p ∈ g'.order)
    (kept : ∀ c ∈ g.order, asked' c = asked c) : g'.Recorded asked' := by
  intro c member p above
  rw [properties c member, properties p (inside c p member above), kept c (old c member)]
  exact recorded c (old c member) p ((parent c member).symm.trans above)

theorem Graph.Spawned.recorded (rooted : g.Rooted root) (recorded : g.Recorded asked) {q child : Nat}
    {entry : TransitionEntry} {property : PropertyDescriptor} {request : Request}
    (member : q ∈ g.order) (spawned : g.Spawned g' q child entry property)
    (made : request.Makes property) (kept : ∀ c ∈ g.order, asked' c = asked c)
    (new : asked' child = some request) : g'.Recorded asked' := by
  intro c inside p above
  rcases spawned.old_or_new _ inside with old | rfl
  · rw [spawned.parent c old] at above
    rw [kept c old, spawned.properties c old,
      spawned.properties p (rooted.tree.parent_mem c p old above)]
    exact recorded c old p above
  · obtain rfl := Option.some.inj (spawned.above.symm.trans above)
    rw [spawned.properties q member]
    exact ⟨request, property, new, made, spawned.longer⟩

theorem Graph.Evolves.recorded {root' : Nat} (rooted : g.Rooted root) (rooted' : g'.Rooted root')
    (evolves : g.Evolves root call g') (recorded : g.Recorded asked)
    (kept : ∀ c ∈ g.order, asked' c = asked c) (new : ∀ c, c ∉ g.order → asked' c = call.request) :
    g'.Recorded asked' := by
  cases evolves with
  | found =>
      exact recorded.congr (fun _ => id) (fun _ _ => rfl) (fun _ _ => rfl) rooted.tree.parent_mem kept
  | spawned q member propertyAtom offset _ _ _ _ child _ _ spawned =>
      exact spawned.recorded rooted recorded member (makePropertyInShape_made ..) kept
        (new child spawned.fresh)
  | reflagged _ p _ flags _ =>
      exact recorded.congr (fun _ => id)
        (fun c _ => reflag_parent p flags c)
        (fun c _ => congrFun (reflag_properties p flags) c) rooted'.tree.parent_mem kept
  | swept todo _ _ swept =>
      exact recorded.congr (fun c member => (swept.pruned.old c member).1) swept.pruned.parent
        swept.pruned.properties rooted'.tree.parent_mem kept

end Evolves

section Lookup

variable {reservations : Nat → Option Nat} {others : List PageManager.Chunk} {foreign : List Block}
  {s : Run × Requests} {g : Graph}

theorem Sane.findPropertyOffset_slot {root : Nat} {w : ShapeWorld}
    (sane : Sane reservations others foreign root w g) (p : Nat) (member : p ∈ g.order)
    (propertyAtom : Atom) : findPropertyOffset w (some p) propertyAtom =
      .ok ((slotOf (g.properties p) propertyAtom).getD invalidIndex) := by
  unfold findPropertyOffset slotOf
  rw [sane.getProperty_lookUp p member, Result.ok_bind]
  cases lookUp (g.properties p) propertyAtom <;> rfl

theorem Sane.exists_path (sane : Sane reservations others foreign s.1.root s.1.world g)
    (recorded : g.Recorded s.2) (p : Nat) (member : p ∈ g.order) : ∃ path, Path s p path := by
  refine sane.rooted.tree.induct (fun p => ∃ path, Path s p path) ⟨[], .root⟩ ?_ p member
  rintro c member p _ above ⟨path, higher⟩
  obtain ⟨request, _, made, _⟩ := recorded c member p above
  exact ⟨path ++ [request], .child higher ((sane.parentOf_eq c member).trans above) made⟩

theorem Sane.path_made (sane : Sane reservations others foreign s.1.root s.1.world g)
    (recorded : g.Recorded s.2) (p : Nat) (member : p ∈ g.order) (path : List Request)
    (way : Path s p path) : List.Forall₂ Request.Makes path (g.properties p) := by
  induction way with
  | root =>
    rw [sane.rooted.bare]
    exact .nil
  | @child p c path request _ parent made ih =>
    rw [sane.parentOf_eq c member] at parent
    obtain ⟨request', property, made', makes, longer⟩ := recorded c member p parent
    obtain rfl := Option.some.inj (made.symm.trans made')
    rw [longer]
    exact List.rel_append (ih (sane.rooted.tree.parent_mem c p member parent)) (.cons makes .nil)

theorem Sane.told_iff (sane : Sane reservations others foreign s.1.root s.1.world g)
    (recorded : g.Recorded s.2) (p : Nat) (member : p ∈ g.order) (path : List Request)
    (way : Path s p path) (propertyAtom : Atom) : ToldApart s.1.world p path propertyAtom ↔
      slotOf (g.properties p) propertyAtom ≠ some invalidIndex := by
  unfold ToldApart
  rw [sane.findPropertyOffset_slot p member, Except.ok.injEq,
    ← slotOf_none_iff propertyAtom (sane.path_made recorded p member path way)]
  exact getD_told _ _

end Lookup

def Clear (w : ShapeWorld) : Prop :=
  ∀ p, Live w p → ∀ propertyAtom, slotOf (propertiesOf w p) propertyAtom ≠ some invalidIndex

def Graph.Clear (g : Graph) : Prop :=
  ∀ p ∈ g.order, ∀ propertyAtom, slotOf (g.properties p) propertyAtom ≠ some invalidIndex

-- A transition does not ask for the sentinel, unless nothing is stored under it: the name is 0, or
-- the shape has the name already, or the transition is found.
def Distinguishes (w : ShapeWorld) : Call → Prop
  | .transitionShape p propertyAtom offset isReadonly isHidden isGetter isSetter =>
      propertyAtom = 0#32 ∨ offset ≠ invalidIndex ∨ hasProperty w (some p) propertyAtom = .ok true ∨
        ∃ entry, sameTransition w p propertyAtom
          (attributesOf isReadonly isHidden isGetter isSetter) = .ok (some entry)
  | _ => True

theorem makePropertyInShape_clear_iff (propertyAtom : Atom) (offset : BitVec 16)
    (isReadonly isHidden isGetter isSetter : Bool) :
    (makePropertyInShape propertyAtom offset isReadonly isHidden isGetter isSetter).offsetIndex ≠
      invalidIndex ↔ propertyAtom = 0#32 ∨ offset ≠ invalidIndex := by
  rw [(makePropertyInShape_made ..).offsetIndex, Request.stored]
  by_cases zero : propertyAtom = 0#32
  · simp [zero, invalidIndex]
  · simp [zero]

section Clear

variable {reservations : Nat → Option Nat} {others : List PageManager.Chunk} {foreign : List Block}
  {root : Nat} {w : ShapeWorld} {g g' : Graph} {call : Call}

theorem Sane.clear_iff (sane : Sane reservations others foreign root w g) : Clear w ↔ g.Clear := by
  refine ⟨fun clear p member => ?_, fun clear p live => ?_⟩
  · rw [← sane.propertiesOf_eq p member]
    exact clear p ((sane.live_iff p).mpr member)
  · have member := (sane.live_iff p).mp live
    rw [sane.propertiesOf_eq p member]
    exact clear p member

theorem Graph.Spawned.clear_iff (clear : g.Clear) {q child : Nat} {entry : TransitionEntry}
    {property : PropertyDescriptor} (member : q ∈ g.order)
    (spawned : g.Spawned g' q child entry property) :
    g'.Clear ↔ property.offsetIndex ≠ invalidIndex ∨
      slotOf (g.properties q) property.nameAtom ≠ none := by
  constructor
  · intro clear'
    have last := clear' child spawned.member
      property.nameAtom
    rw [spawned.longer, slotOf_append, if_pos rfl] at last
    by_cases absent : slotOf (g.properties q) property.nameAtom = none
    · rw [absent, Option.none_or] at last
      exact .inl fun same => last (congrArg some same)
    · exact .inr absent
  · intro right p inside propertyAtom
    rcases spawned.old_or_new _ inside with old | rfl
    · rw [spawned.properties p old]
      exact clear p old propertyAtom
    · rw [spawned.longer, slotOf_append]
      have before := clear q member propertyAtom
      cases found : slotOf (g.properties q) propertyAtom with
      | some slot => rwa [found] at before
      | none =>
        rw [Option.none_or]
        split
        next here => simpa using right.resolve_right (fun present => present (here ▸ found))
        next => simp

theorem Graph.Evolves.clear (evolves : g.Evolves root call g') (silent : call.request = none)
    (clear : g.Clear) : g'.Clear := by
  cases evolves with
  | found => exact clear
  | spawned => cases silent
  | reflagged _ p _ flags _ =>
      intro q inside
      rw [reflag_properties]
      exact clear q inside
  | swept todo _ _ swept =>
      intro q inside
      rw [swept.pruned.properties q inside]
      exact clear q (swept.pruned.old q inside).1

theorem Sane.transition_clear_iff (reserves : Reserves reservations)
    (sane : Sane reservations others foreign root w g) (clear : g.Clear) (p : Nat)
    (member : p ∈ g.order) (propertyAtom : Atom) (offset : BitVec 16)
    (isReadonly isHidden isGetter isSetter : Bool) (made : Option Nat × ShapeWorld)
    (done : transitionShape w (some p) propertyAtom offset isReadonly isHidden isGetter isSetter =
      .ok made) : Clear made.2 ↔ Distinguishes w
        (.transitionShape p propertyAtom offset isReadonly isHidden isGetter isSetter) := by
  obtain ⟨held, stands⟩ := sane.heap
  have same := sameTransition_ok sane.rooted.branching stands p member propertyAtom
    (attributesOf isReadonly isHidden isGetter isSetter)
  rcases (transitionShape_meets reserves sane p member propertyAtom offset isReadonly isHidden isGetter
      isSetter).holds _ done with ⟨entry, there, rfl⟩ | ⟨absent, child, g', _, sane', spawned⟩
  · rw [there] at same
    exact iff_of_true (sane.clear_iff.mpr clear) (.inr (.inr (.inr ⟨entry, same⟩)))
  · have present : hasProperty w (some p) propertyAtom = .ok true ↔
        slotOf (g.properties p) propertyAtom ≠ none := by
      rw [sane.hasProperty_eq p member, Except.ok.injEq, Option.isSome_iff_ne_none]
      exact not_congr Option.map_eq_none_iff.symm
    rw [absent] at same
    rw [sane'.clear_iff, spawned.clear_iff clear member, makePropertyInShape_clear_iff,
      (makePropertyInShape_made ..).nameAtom]
    simp [Distinguishes, present, same, or_assoc]

theorem Sane.perform_clear_iff (reserves : Reserves reservations)
    (sane : Sane reservations others foreign root w g) (clear : Clear w) (allowed : Allowed w call)
    (fuel : Nat) (after : ShapeWorld) (done : perform fuel w call = .ok after) :
    Clear after ↔ Distinguishes w call := by
  have clear := sane.clear_iff.mp clear
  have silent (none : call.request = none) : Clear after := by
    obtain ⟨g', sane', evolves⟩ := (perform_meets reserves sane call allowed fuel).holds _ done
    exact sane'.clear_iff.mpr (evolves.clear none clear)
  cases call with
  | transitionShape p propertyAtom offset isReadonly isHidden isGetter isSetter =>
      obtain ⟨made, returned, same⟩ := (Result.bind_ok _ _ _).mp done
      rw [← Except.ok.inj same]
      exact sane.transition_clear_iff reserves clear p ((sane.live_iff p).mp allowed) propertyAtom offset
        isReadonly isHidden isGetter isSetter made returned
  | markShapeAlive p => exact iff_of_true (silent rfl) trivial
  | setShapeFrozen p isFrozen => exact iff_of_true (silent rfl) trivial
  | setShapeHashTableMode p isHashTableMode => exact iff_of_true (silent rfl) trivial
  | sweepOrphanedShapes => exact iff_of_true (silent rfl) trivial

end Clear

def AllTold (s : Run × Requests) : Prop :=
  ∀ p, Live s.1.world p → ∀ path, Path s p path → ∀ propertyAtom,
    ToldApart s.1.world p path propertyAtom

section Reachable

variable {reservations : Nat → Option Nat} {s : Run × Requests}

theorem recorded_of_reachable (reserves : Reserves reservations)
    (reached : (requested reservations).Reachable s) : ∃ others foreign g,
      Sane reservations others foreign s.1.root s.1.world g ∧ g.Recorded s.2 := by
  refine System.invariant (requested reservations) (fun s => ∃ others foreign g,
    Sane reservations others foreign s.1.root s.1.world g ∧ g.Recorded s.2) ?_ ?_ reached
  · rintro s ⟨initial, _⟩
    obtain ⟨others, foreign, g, sane, _, order⟩ := start_sane reserves s.1 initial
    refine ⟨others, foreign, g, sane, fun c member p above => ?_⟩
    rw [order] at member
    rw [List.mem_singleton.mp member, (sane.rooted.tree.orphan _ sane.rooted.tree.root_mem).mpr rfl] at above
    cases above
  · rintro s call t ⟨others, foreign, g, sane, recorded⟩ ⟨taken, asked⟩
    obtain ⟨g', sane', evolves⟩ := sane.step reserves taken
    refine ⟨others, foreign, g', sane',
      evolves.recorded sane.rooted sane'.rooted recorded (fun c member => ?_) fun c outside => ?_⟩
    · have live : (shapeAt s.1.world c).isSome := (sane.live_iff c).mpr member
      rw [asked, remember, if_pos live]
    · have dead : ¬ (shapeAt s.1.world c).isSome := fun live => outside ((sane.live_iff c).mp live)
      rw [asked, remember, if_neg dead]

theorem allTold_iff (reserves : Reserves reservations) (reached : (requested reservations).Reachable s) :
    AllTold s ↔ Clear s.1.world := by
  obtain ⟨others, foreign, g, sane, recorded⟩ := recorded_of_reachable reserves reached
  rw [sane.clear_iff]
  constructor
  · intro told p member propertyAtom
    obtain ⟨path, way⟩ := sane.exists_path recorded p member
    exact (sane.told_iff recorded p member path way propertyAtom).mp
      (told p ((sane.live_iff p).mpr member) path way propertyAtom)
  · intro clear p live path way propertyAtom
    have member := (sane.live_iff p).mp live
    exact (sane.told_iff recorded p member path way propertyAtom).mpr (clear p member propertyAtom)

theorem allTold_step (reserves : Reserves reservations)
    (reached : (requested reservations).Reachable s) (told : AllTold s) (call : Call) (t : Run × Requests)
    (taken : (requested reservations).step s call t) : AllTold t ↔ Distinguishes s.1.world call := by
  obtain ⟨others, foreign, g, sane, _⟩ := recorded_of_reachable reserves reached
  rw [allTold_iff reserves (reached.step taken)]
  obtain ⟨⟨allowed, _, fuel, done⟩, _⟩ := taken
  exact sane.perform_clear_iff reserves ((allTold_iff reserves reached).mp told) allowed fuel _ done

theorem allTold_start (reserves : Reserves reservations) (initial : (requested reservations).start s) :
    AllTold s := by
  refine (allTold_iff reserves (.start initial)).mpr ?_
  obtain ⟨others, foreign, g, sane, _, order⟩ := start_sane reserves s.1 initial.1
  refine sane.clear_iff.mpr fun p member propertyAtom => ?_
  rw [order] at member
  rw [List.mem_singleton.mp member, sane.rooted.bare]
  simp [slotOf, lookUp]

def distinguishing (reservations : Nat → Option Nat) : System (Run × Requests) Call :=
  (requested reservations).restrict fun s call => Distinguishes s.1.world call

theorem allTold_of_reachable (reserves : Reserves reservations)
    (reached : (distinguishing reservations).Reachable s) : AllTold s := by
  induction reached with
  | start initial => exact allTold_start reserves initial
  | step earlier taken told =>
    exact (allTold_step reserves (System.restrict_reachable _ _ earlier) told _ _ taken.2).mpr taken.1

theorem told_apart (reserves : Reserves reservations) :
    (∀ s, (system reservations).Reachable s → ∃ asked, (requested reservations).Reachable (s, asked)) ∧
    (∀ s, (requested reservations).Reachable s → ∀ p, Live s.1.world p →
      (∃ path, Path s p path) ∧ ∀ path, Path s p path → ∀ propertyAtom,
        (ToldApart s.1.world p path propertyAtom ↔ Storable path propertyAtom)) ∧
    ∀ s, (distinguishing reservations).Reachable s → AllTold s ∧ ∀ call t,
      (requested reservations).step s call t → (AllTold t ↔ Distinguishes s.1.world call) := by
  refine ⟨fun s reached => System.reachable_recorded _ _ _ reached, fun s reached p live => ?_,
    fun s reached => ?_⟩
  · obtain ⟨others, foreign, g, sane, recorded⟩ := recorded_of_reachable reserves reached
    have member := (sane.live_iff p).mp live
    refine ⟨sane.exists_path recorded p member, fun path way propertyAtom => ?_⟩
    rw [sane.told_iff recorded p member path way]
    exact storable_iff propertyAtom (sane.path_made recorded p member path way)
  · have told := allTold_of_reachable reserves reached
    exact ⟨told, allTold_step reserves (System.restrict_reachable _ _ reached) told⟩

end Reachable

theorem first_request (offset : BitVec 16) : ∃ (start s : Run × Requests) (child : Nat),
    (distinguishing PageManager.rowOfRegions).Reachable start ∧
    (requested PageManager.rowOfRegions).step start
      (.transitionShape start.1.root 5#32 offset false false false false) s ∧
    Live s.1.world child ∧ Path s child [⟨5#32, offset⟩] ∧
    findPropertyOffset s.1.world (some child) 5#32 = .ok offset := by
  obtain ⟨manager, initial⟩ := onePage_start
  obtain ⟨world, made, live, fresh, born, done, alive, above, slot⟩ : ∃ world,
      createRootShape (MetaArena.onePage manager Heap.empty) = .ok (memoryChunkSize, world) ∧
      Live world memoryChunkSize ∧ shapeAt world (memoryChunkSize + 96) = none ∧ ∃ born,
        perform 0 world (.transitionShape memoryChunkSize 5#32 offset false false false false) =
          .ok born ∧
        Live born (memoryChunkSize + 96) ∧
        parentOf born (memoryChunkSize + 96) = some memoryChunkSize ∧
        findPropertyOffset born (some (memoryChunkSize + 96)) 5#32 = .ok offset :=
    ⟨_, rfl, rfl, rfl, _, rfl, rfl, rfl, rfl⟩
  let call : Call := .transitionShape memoryChunkSize 5#32 offset false false false false
  let start : Run × Requests := (⟨world, memoryChunkSize⟩, fun _ => none)
  refine ⟨start, (⟨born, memoryChunkSize⟩, remember start.1 call start.2), memoryChunkSize + 96,
    .start ⟨initial _ _ made, rfl⟩, ⟨⟨live, rfl, 0, done⟩, rfl⟩, alive, ?_, slot⟩
  exact .child .root above (by simp [remember, start, call, fresh, Call.request])

theorem told_apart_child : ∃ (s : Run × Requests) (child : Nat),
    (distinguishing PageManager.rowOfRegions).Reachable s ∧ Live s.1.world child ∧
    Path s child [⟨5#32, 7#16⟩] ∧
    (ToldApart s.1.world child [⟨5#32, 7#16⟩] 5#32 ↔ Storable [⟨5#32, 7#16⟩] 5#32) ∧ AllTold s := by
  obtain ⟨start, s, child, started, taken, live, way, _⟩ := first_request 7#16
  have right : Distinguishes start.1.world
      (.transitionShape start.1.root 5#32 7#16 false false false false) := .inr (.inl (by decide))
  have reached : (distinguishing PageManager.rowOfRegions).Reachable s := started.step ⟨right, taken⟩
  obtain ⟨_, exact, all⟩ := told_apart rowOfRegions_reserves
  exact ⟨s, child, reached, live, way,
    (exact s (System.restrict_reachable _ _ reached) child live).2 _ way 5#32, (all s reached).1⟩

-- A property that was asked for with the offset 65535 is there, and the lookup says that it is not.
theorem present_as_absent : ∃ (s : Run × Requests) (child : Nat),
    (requested PageManager.rowOfRegions).Reachable s ∧ Live s.1.world child ∧
    Path s child [⟨5#32, invalidIndex⟩] ∧
    findPropertyOffset s.1.world (some child) 5#32 = .ok invalidIndex ∧
    ¬ ToldApart s.1.world child [⟨5#32, invalidIndex⟩] 5#32 := by
  obtain ⟨start, s, child, started, taken, live, way, slot⟩ := first_request invalidIndex
  refine ⟨s, child, (System.restrict_reachable _ _ started).step taken, live, way, slot, fun told => ?_⟩
  exact told.mp slot ⟨5#32, invalidIndex⟩ (List.mem_singleton.mpr rfl) rfl

end Shape

end ElySquare
