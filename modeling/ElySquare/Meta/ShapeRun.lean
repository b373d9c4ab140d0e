import ElySquare.Shared.Run
import ElySquare.Meta.MetaArenaHeap
import ElySquare.Meta.ShapeSweep

set_option autoImplicit false

namespace ElySquare

namespace Shape

open Linked Transition

-- The shape at an address. A killed shape's block starts with the link of a free list, so that
-- there is none.
def shapeAt (w : ShapeWorld) (p : Nat) : Option Shape :=
  match w.memory p with
  | some (.object (.shape shape)) => some shape
  | _ => none

theorem shapeAt_iff (w : ShapeWorld) (p : Nat) (shape : Shape) :
    shapeAt w p = some shape ↔ read w p = .ok shape := by
  unfold shapeAt read
  cases w.memory p with
  | none => simp
  | some cell =>
      cases cell with
      | freeNode next => simp
      | object value => cases value <;> simp

def Live (w : ShapeWorld) (p : Nat) : Prop := (shapeAt w p).isSome

def nextOf (w : ShapeWorld) (p : Nat) : Option Nat := (shapeAt w p).bind Shape.nextShapeInArena

def prevOf (w : ShapeWorld) (p : Nat) : Option Nat := (shapeAt w p).bind Shape.prevShapeInArena

def parentOf (w : ShapeWorld) (p : Nat) : Option Nat := (shapeAt w p).bind Shape.parentShape

def markedAlive (w : ShapeWorld) (p : Nat) : Bool := (shapeAt w p).any isShapeAlive

def entriesOf (w : ShapeWorld) (p : Nat) : List TransitionEntry :=
  match shapeAt w p with
  | none => []
  | some shape =>
    match usedEntries w shape with
    | .ok entries => entries
    | .error _ => []

def propertiesOf (w : ShapeWorld) (p : Nat) : List PropertyDescriptor :=
  match shapeAt w p with
  | none => []
  | some shape =>
    match usedProperties w shape with
    | .ok descriptors => descriptors
    | .error _ => []

structure Listed (w : ShapeWorld) (root : Nat) (order : List Nat) : Prop where
  linked : Doubly (nextOf w) (prevOf w) (some root) order
  last : w.metaArena.lastAllocatedShape = order.getLast?
  live : ∀ p, Live w p ↔ p ∈ order
  once : order.Nodup

structure Consistent (w : ShapeWorld) (root : Nat) (order : List Nat) : Prop where
  listed : Listed w root order
  parents : ∀ before p after, order = before ++ p :: after → p ≠ root →
    ∃ q ∈ before, parentOf w p = some q
  single : ∀ p, Live w p → ∀ q, parentOf w p = some q →
    (entriesOf w q).countP (fun entry => entry.targetShape = some p) = 1
  targets : ∀ q, Live w q → ∀ entry ∈ entriesOf w q,
    ∃ c, Live w c ∧ entry.targetShape = some c ∧ parentOf w c = some q
  counts : ∀ p shape, shapeAt w p = some shape →
    (entriesOf w p).length = shape.transitionCount ∧ shape.transitionCount ≤ shape.transitionCapacity
  depth : ∀ p shape, shapeAt w p = some shape → ∀ fuel, shape.propertyCount < fuel →
    getShapeChainDepth fuel w p = .ok shape.propertyCount

section Bridge

variable {reservations : Nat → Option Nat} {others : List PageManager.Chunk} {foreign : List Block}
  {root : Nat} {w : ShapeWorld} {g : Graph}

theorem shape_bucketed {shape : Shape} : ¬ Dropped (ShapeObject.shape shape) := by
  change ¬ numBuckets ≤ getBucketIndex (alignSize sizeofShape)
  decide

theorem Stands.shapeAt_eq {held : Nat → Option ShapeObject}
    (stands : Stands reservations others foreign w held g) (p : Nat) (member : p ∈ g.order) :
    shapeAt w p = some (g.node p).shape := by
  have stored := stands.keeps.stored p _ (stands.lays.laid p member).shape
  simp [shapeAt, stored]

theorem Stands.live_iff {held : Nat → Option ShapeObject}
    (stands : Stands reservations others foreign w held g) (p : Nat) : Live w p ↔ p ∈ g.order := by
  refine ⟨fun live => ?_, fun member => by rw [Live, stands.shapeAt_eq p member]; rfl⟩
  obtain ⟨shape, stored⟩ : ∃ shape, w.memory p = some (.object (.shape shape)) := by
    unfold Live shapeAt at live
    split at live
    next shape stored => exact ⟨shape, stored⟩
    next => cases live
  have there : held p = some (.shape shape) :=
    (stands.keeps.known p _ stored).resolve_right shape_bucketed
  obtain ⟨q, member, here | array | table⟩ := stands.covers p (by simp [there])
  · exact here ▸ member
  · simp [(stands.lays.laid q member).propArray.there p array] at there
  · simp [(stands.lays.laid q member).table.there p table] at there

theorem Stands.parentOf_eq {held : Nat → Option ShapeObject}
    (stands : Stands reservations others foreign w held g) (p : Nat) (member : p ∈ g.order) :
    parentOf w p = g.parent p := by
  rw [parentOf, stands.shapeAt_eq p member]
  rfl

theorem Stands.prevOf_eq {held : Nat → Option ShapeObject}
    (stands : Stands reservations others foreign w held g) (p : Nat) (member : p ∈ g.order) :
    prevOf w p = g.prev p := by
  rw [prevOf, stands.shapeAt_eq p member]
  rfl

theorem Stands.markedAlive_eq {held : Nat → Option ShapeObject}
    (stands : Stands reservations others foreign w held g) (p : Nat) (member : p ∈ g.order) :
    markedAlive w p = g.alive p := by
  rw [markedAlive, stands.shapeAt_eq p member]
  rfl

theorem Sane.shapeAt_eq (sane : Sane reservations others foreign root w g) (p : Nat)
    (member : p ∈ g.order) : shapeAt w p = some (g.node p).shape := by
  obtain ⟨held, stands⟩ := sane.heap
  exact stands.shapeAt_eq p member

theorem Sane.live_iff (sane : Sane reservations others foreign root w g) (p : Nat) :
    Live w p ↔ p ∈ g.order := by
  obtain ⟨held, stands⟩ := sane.heap
  exact stands.live_iff p

theorem Sane.entriesOf_eq (sane : Sane reservations others foreign root w g) (p : Nat)
    (member : p ∈ g.order) : entriesOf w p = g.entries p := by
  obtain ⟨held, stands⟩ := sane.heap
  simp only [entriesOf, sane.shapeAt_eq p member, usedEntries_ok stands p member]

theorem Sane.usedProperties_ok (sane : Sane reservations others foreign root w g) (p : Nat)
    (member : p ∈ g.order) : usedProperties w (g.node p).shape = .ok (g.properties p) := by
  obtain ⟨held, stands⟩ := sane.heap
  have laid := stands.lays.laid p member
  exact laid.usedProperties_ok _ laid.propertyCount rfl fun x there => stands.keeps.stored x _ there

theorem Sane.propertiesOf_eq (sane : Sane reservations others foreign root w g) (p : Nat)
    (member : p ∈ g.order) : propertiesOf w p = g.properties p := by
  simp only [propertiesOf, sane.shapeAt_eq p member, sane.usedProperties_ok p member]

theorem Sane.reads (sane : Sane reservations others foreign root w g) (p : Nat)
    (member : p ∈ g.order) : read w p = .ok (g.node p).shape := by
  obtain ⟨held, stands⟩ := sane.heap
  exact read_ok stands.keeps p _ (stands.lays.laid p member).shape

theorem Sane.parentOf_eq (sane : Sane reservations others foreign root w g) (p : Nat)
    (member : p ∈ g.order) : parentOf w p = g.parent p := by
  obtain ⟨held, stands⟩ := sane.heap
  exact stands.parentOf_eq p member

theorem Sane.markedAlive_eq (sane : Sane reservations others foreign root w g) (p : Nat)
    (member : p ∈ g.order) : markedAlive w p = g.alive p := by
  obtain ⟨held, stands⟩ := sane.heap
  exact stands.markedAlive_eq p member

theorem Sane.listed (sane : Sane reservations others foreign root w g) : Listed w root g.order := by
  refine ⟨?_, sane.last, sane.live_iff, sane.rooted.tree.distinct⟩
  rw [← sane.rooted.tree.first]
  refine Doubly.congr g.order sane.linked (fun p member => ?_) fun p member => ?_
  · rw [nextOf, sane.shapeAt_eq p member]
    rfl
  · obtain ⟨held, stands⟩ := sane.heap
    exact stands.prevOf_eq p member

theorem Sane.depth (sane : Sane reservations others foreign root w g) (p : Nat) (member : p ∈ g.order)
    (fuel : Nat) (enough : (g.properties p).length < fuel) :
    getShapeChainDepth fuel w p = .ok (g.properties p).length := by
  obtain ⟨held, stands⟩ := sane.heap
  induction fuel generalizing p with
  | zero => omega
  | succ fuel ih =>
      have laid := stands.lays.laid p member
      unfold getShapeChainDepth
      rw [read_ok stands.keeps p _ laid.shape, Result.ok_bind]
      cases above : (g.node p).shape.parentShape with
      | none =>
          obtain rfl := (sane.rooted.tree.orphan p member).mp above
          rw [sane.rooted.bare]
          rfl
      | some q =>
          obtain ⟨property, longer⟩ := sane.rooted.inherits p member q above
          have length : (g.properties p).length = (g.properties q).length + 1 := by
            rw [longer, List.length_append]
            rfl
          have few : (g.properties p).length ≤ uint16Max := laid.fewProperties
          dsimp only
          rw [ih q (sane.rooted.tree.parent_mem p q member above) (by omega), Result.ok_bind, length,
            Nat.mod_eq_of_lt (by unfold uint16Max at few; omega)]

theorem Sane.consistent (sane : Sane reservations others foreign root w g) :
    Consistent w root g.order := by
  obtain ⟨held, stands⟩ := sane.heap
  have tree := sane.rooted.tree
  refine ⟨sane.listed, fun before p after split below => ?_, fun p live q above => ?_,
    fun q live entry listed => ?_, fun p shape found => ?_, fun p shape found fuel enough => ?_⟩
  · have member : p ∈ g.order := split ▸ by simp
    obtain ⟨q, above⟩ := tree.exists_parent p member below
    exact ⟨q, tree.earlier before p after split q above, (sane.parentOf_eq p member).trans above⟩
  · have member := (sane.live_iff p).mp live
    rw [sane.parentOf_eq p member] at above
    rw [sane.entriesOf_eq q (tree.parent_mem p q member above)]
    exact sane.rooted.single p member q above
  · have member := (sane.live_iff q).mp live
    rw [sane.entriesOf_eq q member] at listed
    obtain ⟨c, inside, target, above⟩ := sane.rooted.targets q member entry listed
    exact ⟨c, (sane.live_iff c).mpr inside, target, (sane.parentOf_eq c inside).trans above⟩
  · have member := (sane.live_iff p).mp (by rw [Live, found]; rfl)
    have laid := stands.lays.laid p member
    obtain rfl := Option.some.inj (found.symm.trans (sane.shapeAt_eq p member))
    rw [sane.entriesOf_eq p member, laid.transitionCount, laid.transitionCapacity]
    exact ⟨rfl, Nat.le_add_right _ _⟩
  · have member := (sane.live_iff p).mp (by rw [Live, found]; rfl)
    have count := (stands.lays.laid p member).propertyCount
    obtain rfl := Option.some.inj (found.symm.trans (sane.shapeAt_eq p member))
    rw [count] at enough ⊢
    exact sane.depth p member fuel enough

end Bridge

-- The marked shapes are closed under parentShape.
def MarksClosed (w : ShapeWorld) : Prop :=
  ∀ p q, markedAlive w p = true → parentOf w p = some q → markedAlive w q = true

theorem sweepFrom_more (fuel extra : Nat) (w : ShapeWorld) (current killed : Nat) :
    sweepFrom fuel w current killed = .error .unfinished ∨
      sweepFrom (fuel + extra) w current killed = sweepFrom fuel w current killed := by
  induction fuel generalizing w current killed with
  | zero => exact .inl rfl
  | succ fuel ih =>
      rw [Nat.add_right_comm]
      unfold sweepFrom
      cases read w current with
      | error stop => exact .inr rfl
      | ok shape =>
          simp only [Result.ok_bind]
          cases shape.prevShapeInArena with
          | none => exact .inr rfl
          | some prev =>
              dsimp only
              split
              · cases forgetShape w (some current) with
                | error stop => exact .inr rfl
                | ok w₁ =>
                    simp only [Result.ok_bind]
                    cases killShape w₁ (some current) with
                    | error stop => exact .inr rfl
                    | ok w₂ => exact ih w₂ prev (killed + 1)
              · cases modify w current fun shape => { shape with
                  shapeFlags := shape.shapeFlags &&& ~~~shapeFlags.isMarkedAlive } with
                | error stop => exact .inr rfl
                | ok w₁ => exact ih w₁ prev killed

section Sweep

variable {reservations : Nat → Option Nat} {others : List PageManager.Chunk} {foreign : List Block}
  {idle : List Nat} {root : Nat} {rest : List Nat} {w : ShapeWorld} {g : Graph}

theorem Planted.closed (planted : Planted reservations others foreign idle root rest w g)
    (closed : MarksClosed w) : g.Closed rest := by
  obtain ⟨held, stands⟩ := planted.heap
  intro p member spared q above
  have inside := planted.branching.forest.parent_mem p q member above
  have todo : p ∈ rest := by
    by_contra outside
    rw [(planted.roots p member).mpr outside] at above
    cases above
  have marked : markedAlive w p = true := by
    rw [stands.markedAlive_eq p member]
    simpa [Graph.spares, todo] using spared
  have marked' := closed p q marked ((stands.parentOf_eq p member).trans above)
  rw [stands.markedAlive_eq q inside] at marked'
  simp [Graph.spares, marked']

theorem Planted.sweepOrphanedShapes_ok
    (planted : Planted reservations others foreign idle root rest w g) (closed : MarksClosed w)
    (fuel : Nat) (enough : g.order.length ≤ fuel) :
    ∃ killed w' g' rest', sweepOrphanedShapes fuel w = .ok (killed, w') ∧
      Planted reservations others foreign idle root rest' w' g' ∧ g.Swept g' rest ∧
      killed + g'.order.length = g.order.length := by
  obtain ⟨last, ending, _⟩ := planted.exists_last
  have few : rest.length < fuel := by
    rw [planted.order, List.length_append, List.length_cons] at enough
    omega
  obtain ⟨w', g', killed, rest', done, planted', swept, count⟩ := sweepFrom_ok fuel rest []
    (by rwa [List.append_nil]) last 0 ending few (planted.closed closed)
  refine ⟨killed, w', g', rest', ?_, planted', swept, by omega⟩
  unfold sweepOrphanedShapes
  rw [planted.last, ending]
  exact done

theorem sweepOrphanedShapes_ok (sane : Sane reservations others foreign root w g) (rest : List Nat)
    (split : g.order = root :: rest) (closed : MarksClosed w) (fuel : Nat)
    (enough : g.order.length ≤ fuel) :
    ∃ killed w' g', sweepOrphanedShapes fuel w = .ok (killed, w') ∧
      Sane reservations others foreign root w' g' ∧ g.Swept g' rest ∧
      killed + g'.order.length = g.order.length := by
  have planted := sane.planted rest split
  have top : root ∉ rest := (List.nodup_cons.mp planted.distinct).1
  obtain ⟨killed, w', g', rest', done, planted', swept, count⟩ :=
    planted.sweepOrphanedShapes_ok closed fuel enough
  have rooted := sane.rooted.prune _ (by simp [Graph.spares, top]) (planted.closed closed) swept.pruned
  exact ⟨killed, w', g', done, planted'.sane rooted, swept, count⟩

end Sweep

namespace Graph

def plant (g : Graph) (ptr : Nat) : Graph :=
  g.append ptr ⟨{ zero with shapeFlags := 0x01#16 }, [], [], []⟩

variable {g : Graph} {ptr : Nat}

theorem plant_here : (g.plant ptr).node ptr = ⟨{ zero with shapeFlags := 0x01#16 }, [], [], []⟩ :=
  append_here ..

theorem plant_parent_here : (g.plant ptr).parent ptr = none :=
  congrArg (·.shape.parentShape) plant_here

theorem plant_parent_there (p : Nat) (other : p ≠ ptr) : (g.plant ptr).parent p = g.parent p :=
  congrArg (·.shape.parentShape) (append_there _ _ _ _ other)

theorem plant_linked : ((g.plant ptr).among [ptr]).Linked := by
  have next : (g.plant ptr).next ptr = none := congrArg (·.shape.nextShapeInArena) plant_here
  have prev : (g.plant ptr).prev ptr = none := congrArg (·.shape.prevShapeInArena) plant_here
  exact ⟨⟨rfl, next⟩, prev, trivial⟩

theorem Branching.plant (branching : g.Branching) (fresh : ptr ∉ g.order) : (g.plant ptr).Branching := by
  have other (p : Nat) (inside : p ∈ g.order) : p ≠ ptr := fun same => fresh (same ▸ inside)
  have entries (p : Nat) (inside : p ∈ g.order) : (g.plant ptr).entries p = g.entries p :=
    congrArg Node.entries (append_there _ _ _ _ (other p inside))
  have blank : (g.plant ptr).entries ptr = [] := congrArg Node.entries plant_here
  refine ⟨branching.forest.grow ptr fresh (fun q above => ?_) fun p inside =>
    plant_parent_there p (other p inside), fun q inside entry listed => ?_, fun p inside q above => ?_⟩
  · rw [plant_parent_here] at above
    cases above
  · rcases List.mem_append.mp inside with old | new
    · rw [entries q old] at listed
      obtain ⟨c, member, target, above⟩ := branching.targets q old entry listed
      exact ⟨c, List.mem_append_left _ member, target, (plant_parent_there c (other c member)).trans above⟩
    · rw [List.mem_singleton.mp new, blank] at listed
      cases listed
  · rcases List.mem_append.mp inside with old | new
    · rw [plant_parent_there p (other p old)] at above
      rw [entries q (branching.forest.parent_mem p q old above)]
      exact branching.single p old q above
    · rw [List.mem_singleton.mp new, plant_parent_here] at above
      cases above

end Graph

section Root

variable {reservations : Nat → Option Nat} {others : List PageManager.Chunk} {foreign : List Block}
  {w : ShapeWorld}

theorem Stands.createRootShape_meets {held : Nat → Option ShapeObject} {g : Graph}
    (reserves : Reserves reservations) (stands : Stands reservations others foreign w held g) :
    Meets (createRootShape w) Stop.Starved fun made => ∃ held', made.1 ∉ g.order ∧
      Stands reservations others foreign made.2 held' (g.plant made.1) ∧
      made.2.metaArena.lastAllocatedShape = some made.1 := by
  refine Meets.bind (stands.keeps.metallocOr_meets reserves _ _ 3 (by decide) (by decide)) ?_
  rintro ⟨ptr, after⟩ ⟨fresh, _, _, given⟩
  have keeps := given (.shape { zero with shapeFlags := 0x01#16 }) rfl
  have absent : ptr ∉ g.order := fun inside => stands.lays.loose ptr fresh ptr inside (.inl rfl)
  refine (Meets.ok_iff _).mpr ⟨_, absent, ⟨keeps.setLast (some ptr), ?_, ?_⟩, rfl⟩
  · refine stands.lays.append ptr absent _ ?_ (fun x taken => ?_) fun x own => ?_
    · exact ⟨Function.update_self .., ⟨fun _ points => (by cases points), by simp [zero]⟩,
        ⟨fun _ points => (by cases points), by simp [zero]⟩, rfl, rfl, rfl, Nat.zero_le _, Nat.zero_le _⟩
    · have other : x ≠ ptr := by
        rintro rfl
        exact taken fresh
      exact Function.update_of_ne other ..
    · rcases own with rfl | points | points
      · exact fresh
      · cases points
      · cases points
  · refine stands.covers.append ptr absent _ fun x taken => ?_
    by_cases here : x = ptr
    · exact .inr (.inl here)
    · rw [Function.update_of_ne here] at taken
      exact .inl taken

theorem blank_stands (bins : Nat → List Nat)
    (sound : MetaArena.Sound reservations w others foreign bins)
    (blank : ∀ p o, w.memory p ≠ some (.object o)) :
    Stands reservations others foreign w (fun _ => none) ⟨[], fun _ => ⟨zero, [], [], []⟩⟩ := by
  have keeps : Keeps reservations others foreign w fun _ => none :=
    ⟨⟨foreign, bins, sound, fun b => by simp⟩, fun _ _ => rfl, fun _ _ there => (by cases there),
      fun p o there => (blank p o there).elim⟩
  exact ⟨keeps, ⟨fun _ member => (by cases member), fun _ member => by cases member⟩,
    fun _ taken => (taken rfl).elim⟩

theorem createRootShape_meets (reserves : Reserves reservations) (bins : Nat → List Nat)
    (sound : MetaArena.Sound reservations w others foreign bins)
    (blank : ∀ p o, w.memory p ≠ some (.object o)) :
    Meets (createRootShape w) Stop.Starved fun made =>
      ∃ g, Sane reservations others foreign made.1 made.2 g ∧ g.flags made.1 = 0x01#16 ∧
        g.order = [made.1] := by
  have stands := blank_stands bins sound blank
  refine (stands.createRootShape_meets reserves).weaken ?_
  rintro ⟨ptr, after⟩ ⟨held', fresh, stands', last⟩
  obtain ⟨_, targets, single⟩ := Graph.Branching.plant
    ⟨⟨List.nodup_nil, fun _ _ _ split => by simp at split⟩, fun _ inside => (by cases inside),
      fun _ inside => by cases inside⟩ fresh
  refine ⟨_, ⟨⟨held', stands'⟩, Graph.plant_linked, ⟨Grown.single ptr Graph.plant_parent_here, targets,
    single, congrArg Node.properties Graph.plant_here, fun p inside q above => ?_⟩, last⟩,
    congrArg (·.shape.shapeFlags) Graph.plant_here, rfl⟩
  obtain rfl := List.mem_singleton.mp inside
  rw [Graph.plant_parent_here] at above
  cases above

end Root

inductive Call
  | transitionShape (p : Nat) (propertyAtom : Atom) (offset : BitVec 16)
      (isReadonly isHidden isGetter isSetter : Bool)
  | markShapeAlive (p : Nat)
  | setShapeFrozen (p : Nat) (isFrozen : Bool)
  | setShapeHashTableMode (p : Nat) (isHashTableMode : Bool)
  | sweepOrphanedShapes
deriving DecidableEq, Repr

-- Calls are made on live shapes, and marks are closed when the sweep begins.
def Allowed (w : ShapeWorld) : Call → Prop
  | .transitionShape p _ _ _ _ _ _ => Live w p
  | .markShapeAlive p => Live w p
  | .setShapeFrozen p _ => Live w p
  | .setShapeHashTableMode p _ => Live w p
  | .sweepOrphanedShapes => MarksClosed w

-- The fuel bounds the rounds of the sweep.
def perform (fuel : Nat) (w : ShapeWorld) : Call → Result ShapeWorld
  | .transitionShape p propertyAtom offset isReadonly isHidden isGetter isSetter => do
    let (_, w) ← transitionShape w (some p) propertyAtom offset isReadonly isHidden isGetter isSetter
    .ok w
  | .markShapeAlive p => markShapeAlive w (some p)
  | .setShapeFrozen p isFrozen => setShapeFrozen w p isFrozen
  | .setShapeHashTableMode p isHashTableMode => setShapeHashTableMode w p isHashTableMode
  | .sweepOrphanedShapes => do
    let (_, w) ← sweepOrphanedShapes fuel w
    .ok w

section Perform

variable {reservations : Nat → Option Nat} {others : List PageManager.Chunk} {foreign : List Block}
  {root : Nat} {w : ShapeWorld} {g : Graph}

def Graph.Unversioned (g : Graph) : Prop := ∀ p ∈ g.order, g.flags p >>> 4 = 0#16

inductive Graph.Evolves (g : Graph) (root : Nat) : Call → Graph → Prop
  | found (p : Nat) (propertyAtom : Atom) (offset : BitVec 16)
      (isReadonly isHidden isGetter isSetter : Bool) (entry : TransitionEntry)
      (there : (g.entries p).find? (g.matching propertyAtom
        (attributesOf isReadonly isHidden isGetter isSetter)) = some entry) :
      Evolves g root (.transitionShape p propertyAtom offset isReadonly isHidden isGetter isSetter) g
  | spawned (p : Nat) (member : p ∈ g.order) (propertyAtom : Atom) (offset : BitVec 16)
      (isReadonly isHidden isGetter isSetter : Bool) (child : Nat) (g' : Graph)
      (absent : (g.entries p).find? (g.matching propertyAtom
        (attributesOf isReadonly isHidden isGetter isSetter)) = none)
      (spawned : g.Spawned g' p child (transiteTo child propertyAtom)
        (makePropertyInShape propertyAtom offset isReadonly isHidden isGetter isSetter)) :
      Evolves g root (.transitionShape p propertyAtom offset isReadonly isHidden isGetter isSetter) g'
  | reflagged (call : Call) (p : Nat) (member : p ∈ g.order) (flags : BitVec 16)
      (version : g.flags p >>> 4 = 0#16 → flags >>> 4 = 0#16) : Evolves g root call (g.reflag p flags)
  | swept (todo : List Nat) (g' : Graph) (split : g.order = root :: todo) (swept : g.Swept g' todo) :
      Evolves g root .sweepOrphanedShapes g'

theorem flag_version (flags flag : BitVec 16) (low : flag >>> 4 = 0#16) :
    (flags ||| flag) >>> 4 = flags >>> 4 ∧ (flags &&& ~~~flag) >>> 4 = flags >>> 4 := by
  constructor
  · rw [BitVec.ushiftRight_or_distrib, low, BitVec.or_zero]
  · have all : flags &&& flag ||| flags &&& ~~~flag = flags := by
      rw [← BitVec.and_or_distrib_left, BitVec.or_not_self, BitVec.and_allOnes]
    calc (flags &&& ~~~flag) >>> 4
        = (flags &&& flag ||| flags &&& ~~~flag) >>> 4 := by
          rw [BitVec.ushiftRight_or_distrib, BitVec.ushiftRight_and_distrib flags flag, low,
            BitVec.and_zero, BitVec.zero_or]
      _ = flags >>> 4 := by rw [all]

structure FlagCall (call : Call) (p : Nat) (change : BitVec 16 → BitVec 16) : Prop where
  performs : ∀ fuel w, perform fuel w call =
    modify w p fun shape => { shape with shapeFlags := change shape.shapeFlags }
  allowed : ∀ w, Allowed w call ↔ Live w p
  version : ∀ flags, change flags >>> 4 = flags >>> 4

theorem markShapeAlive_flagCall (p : Nat) :
    FlagCall (.markShapeAlive p) p fun flags => flags ||| shapeFlags.isMarkedAlive :=
  ⟨fun _ _ => rfl, fun _ => Iff.rfl, fun flags => (flag_version flags _ (by decide)).1⟩

theorem setFlag_version (flag : BitVec 16) (low : flag >>> 4 = 0#16) (on : Bool) (flags : BitVec 16) :
    (if on then flags ||| flag else flags &&& ~~~flag) >>> 4 = flags >>> 4 := by
  cases on
  · exact (flag_version flags flag low).2
  · exact (flag_version flags flag low).1

theorem setShapeFrozen_flagCall (p : Nat) (isFrozen : Bool) :
    FlagCall (.setShapeFrozen p isFrozen) p fun flags =>
      if isFrozen then flags ||| shapeFlags.isFrozen else flags &&& ~~~shapeFlags.isFrozen :=
  ⟨fun _ _ => rfl, fun _ => Iff.rfl, setFlag_version _ (by decide) isFrozen⟩

theorem setShapeHashTableMode_flagCall (p : Nat) (isHashTableMode : Bool) :
    FlagCall (.setShapeHashTableMode p isHashTableMode) p fun flags =>
      if isHashTableMode then flags ||| shapeFlags.isHashTableMode
      else flags &&& ~~~shapeFlags.isHashTableMode :=
  ⟨fun _ _ => rfl, fun _ => Iff.rfl, setFlag_version _ (by decide) isHashTableMode⟩

theorem Graph.Evolves.properties {g' : Graph} {call : Call} (evolves : g.Evolves root call g') (p : Nat)
    (member : p ∈ g.order) (inside : p ∈ g'.order) : g'.properties p = g.properties p := by
  cases evolves with
  | found => rfl
  | spawned q _ _ _ _ _ _ _ child _ _ spawned => exact spawned.properties p member
  | reflagged _ q _ flags _ => exact congrFun (reflag_properties q flags) p
  | swept todo _ _ swept => exact swept.pruned.properties p inside

theorem Graph.Evolves.unversioned {g' : Graph} {call : Call} (evolves : g.Evolves root call g')
    (zero : g.Unversioned) : g'.Unversioned := by
  intro p inside
  cases evolves with
  | found => exact zero p inside
  | spawned q _ _ _ _ _ _ _ child _ _ spawned =>
      rcases spawned.old_or_new _ inside with old | rfl
      · rw [spawned.flags p old]
        exact zero p old
      · rw [spawned.born, getShapeFlags]
        split <;> decide
  | reflagged _ q member flags version =>
      rw [reflag_flags]
      split
      · exact version (zero q member)
      · exact zero p inside
  | swept todo _ _ swept =>
      have before := zero p (List.mem_of_mem_filter (swept.pruned.order ▸ inside))
      rw [swept.flags p inside]
      split
      · exact (flag_version _ _ (by decide)).2.trans before
      · exact before

theorem FlagCall.evolves {call : Call} {p : Nat} {change : BitVec 16 → BitVec 16}
    (flags : FlagCall call p change) (sane : Sane reservations others foreign root w g)
    (allowed : Allowed w call) (fuel : Nat) : Meets (perform fuel w call) Stop.Starved
      fun w' => ∃ g', Sane reservations others foreign root w' g' ∧ g.Evolves root call g' := by
  have member := (sane.live_iff p).mp ((flags.allowed w).mp allowed)
  obtain ⟨w', done, sane'⟩ := sane.reflag p member change
  rw [flags.performs, done]
  refine (Meets.ok_iff _).mpr ⟨_, sane', .reflagged call p member _ fun zero => ?_⟩
  rw [flags.version, zero]

theorem sweepOrphanedShapes_more (fuel extra : Nat) (w : ShapeWorld) :
    sweepOrphanedShapes fuel w = .error .unfinished ∨
      sweepOrphanedShapes (fuel + extra) w = sweepOrphanedShapes fuel w := by
  unfold sweepOrphanedShapes
  cases w.metaArena.lastAllocatedShape with
  | none => exact .inr rfl
  | some last => exact sweepFrom_more fuel extra w last 0

theorem sweepOrphanedShapes_enough (fuel fuel' : Nat) (w : ShapeWorld) (outcome : Nat × ShapeWorld)
    (done : sweepOrphanedShapes fuel w = .ok outcome) (enough : fuel ≤ fuel') :
    sweepOrphanedShapes fuel' w = .ok outcome := by
  obtain ⟨extra, rfl⟩ := Nat.exists_eq_add_of_le enough
  rcases sweepOrphanedShapes_more fuel extra w with cut | same
  · rw [done] at cut
    cases cut
  · exact same.trans done

theorem sweepOrphanedShapes_meets (fuel extra : Nat) (w : ShapeWorld) (outcome : Nat × ShapeWorld)
    (done : sweepOrphanedShapes (fuel + extra) w = .ok outcome) :
    Meets (sweepOrphanedShapes fuel w) Stop.Starved fun swept => swept = outcome := by
  rcases sweepOrphanedShapes_more fuel extra w with cut | whole
  · rw [cut]
    exact (Meets.error_iff _).mpr trivial
  · rw [← whole, done]
    exact (Meets.ok_iff _).mpr rfl

theorem sweep_evolves (sane : Sane reservations others foreign root w g) (closed : MarksClosed w)
    (fuel : Nat) : Meets (sweepOrphanedShapes fuel w) Stop.Starved
      fun swept => ∃ g', Sane reservations others foreign root swept.2 g' ∧
        g.Evolves root .sweepOrphanedShapes g' := by
  obtain ⟨rest, split, _⟩ := sane.split
  obtain ⟨killed, w', g', done, sane', swept, _⟩ :=
    sweepOrphanedShapes_ok sane rest split closed (fuel + g.order.length) (Nat.le_add_left _ _)
  refine (sweepOrphanedShapes_meets _ _ w _ done).weaken ?_
  rintro _ rfl
  exact ⟨g', sane', .swept rest g' split swept⟩

theorem perform_meets (reserves : Reserves reservations)
    (sane : Sane reservations others foreign root w g) (call : Call) (allowed : Allowed w call)
    (fuel : Nat) : Meets (perform fuel w call) Stop.Starved
      fun w' => ∃ g', Sane reservations others foreign root w' g' ∧ g.Evolves root call g' := by
  cases call with
  | transitionShape p propertyAtom offset isReadonly isHidden isGetter isSetter =>
      have member := (sane.live_iff p).mp allowed
      refine Meets.bind (transitionShape_meets reserves sane p member propertyAtom offset isReadonly
        isHidden isGetter isSetter) ?_
      rintro ⟨result, w'⟩ (⟨entry, there, same⟩ | ⟨absent, child, g', _, sane', spawned⟩)
      · cases same
        exact (Meets.ok_iff _).mpr ⟨g, sane, .found _ _ _ _ _ _ _ entry there⟩
      · exact (Meets.ok_iff _).mpr ⟨g', sane', .spawned p member _ _ _ _ _ _ child g' absent spawned⟩
  | markShapeAlive p => exact (markShapeAlive_flagCall p).evolves sane allowed fuel
  | setShapeFrozen p isFrozen => exact (setShapeFrozen_flagCall p isFrozen).evolves sane allowed fuel
  | setShapeHashTableMode p isHashTableMode =>
      exact (setShapeHashTableMode_flagCall p isHashTableMode).evolves sane allowed fuel
  | sweepOrphanedShapes =>
      exact Meets.bind (sweep_evolves sane allowed fuel) fun _ post => (Meets.ok_iff _).mpr post

end Perform

structure Run where
  world : ShapeWorld
  root : Nat

/-- Every run of calls after createRootShape on a sound arena. Other blocks may be live on the arena, but
no shapes. -/
def system (reservations : Nat → Option Nat) : System Run Call where
  start s := ∃ (before : ShapeWorld) (others : List PageManager.Chunk) (foreign : List Block)
    (bins : Nat → List Nat), MetaArena.Sound reservations before others foreign bins ∧
    (∀ p o, before.memory p ≠ some (.object o)) ∧ createRootShape before = .ok (s.root, s.world)
  step s call t := Allowed s.world call ∧ t.root = s.root ∧ ∃ fuel, perform fuel s.world call = .ok t.world

def SaneRun (reservations : Nat → Option Nat) (s : Run) : Prop :=
  ∃ others foreign g, Sane reservations others foreign s.root s.world g ∧ g.Unversioned

section Reachable

variable {reservations : Nat → Option Nat}

theorem start_sane (reserves : Reserves reservations) (s : Run)
    (initial : (system reservations).start s) : ∃ others foreign g,
      Sane reservations others foreign s.root s.world g ∧ g.flags s.root = 0x01#16 ∧
        g.order = [s.root] := by
  obtain ⟨before, others, foreign, bins, sound, blank, made⟩ := initial
  obtain ⟨g, started⟩ := (createRootShape_meets reserves bins sound blank).holds _ made
  exact ⟨others, foreign, g, started⟩

theorem Sane.step {others : List PageManager.Chunk} {foreign : List Block} {s t : Run} {g : Graph}
    {call : Call} (reserves : Reserves reservations)
    (sane : Sane reservations others foreign s.root s.world g)
    (taken : (system reservations).step s call t) :
    ∃ g', Sane reservations others foreign t.root t.world g' ∧ g.Evolves s.root call g' := by
  obtain ⟨allowed, root, fuel, done⟩ := taken
  obtain ⟨g', sane', evolves⟩ := (perform_meets reserves sane call allowed fuel).holds _ done
  exact ⟨g', root ▸ sane', evolves⟩

theorem graph_invariant (reserves : Reserves reservations) (chosen : Run → Call → Prop)
    (property : Graph → Prop)
    (lone : ∀ root g, g.Rooted root → g.order = [root] → g.flags root = 0x01#16 → property g)
    (kept : ∀ s call others foreign g g', chosen s call →
      Sane reservations others foreign s.root s.world g → g.Evolves s.root call g' → property g →
      property g') (s : Run) (reached : ((system reservations).restrict chosen).Reachable s) :
    ∃ others foreign g, Sane reservations others foreign s.root s.world g ∧ property g := by
  induction reached with
  | start initial =>
      obtain ⟨others, foreign, g, sane, flags, order⟩ := start_sane reserves _ initial
      exact ⟨others, foreign, g, sane, lone _ g sane.rooted order flags⟩
  | step _ taken ih =>
      obtain ⟨others, foreign, g, sane, holds⟩ := ih
      obtain ⟨g', sane', evolves⟩ := sane.step reserves taken.2
      exact ⟨others, foreign, g', sane', kept _ _ others foreign g g' taken.1 sane evolves holds⟩

theorem sane_of_reachable (reserves : Reserves reservations) (s : Run)
    (reached : (system reservations).Reachable s) : SaneRun reservations s := by
  refine graph_invariant reserves (fun _ _ => True) Graph.Unversioned ?_ ?_ s
    (System.reachable_restrict _ _ (fun _ _ _ _ => trivial) reached)
  · intro root g _ order flags p member
    obtain rfl := List.mem_singleton.mp (order ▸ member)
    rw [flags]
    decide
  · intro s call others foreign g g' _ _ evolves zero
    exact evolves.unversioned zero

theorem shape_graph (reserves : Reserves reservations) (s : Run)
    (reached : (system reservations).Reachable s) :
    (∃ order, Consistent s.world s.root order) ∧
      ∀ call fuel stop, Allowed s.world call → perform fuel s.world call = .error stop →
        stop.Starved := by
  obtain ⟨others, foreign, g, sane, _⟩ := sane_of_reachable reserves s reached
  exact ⟨⟨g.order, sane.consistent⟩, fun call fuel stop allowed failed =>
    (perform_meets reserves sane call allowed fuel).fails stop failed⟩

theorem marks_closed_pair (reserves : Reserves reservations) (s : Run)
    (reached : (system reservations).Reachable s) (child : Nat) (next : nextOf s.world s.root = some child)
    (ended : nextOf s.world child = none) (top : parentOf s.world s.root = none)
    (unmarked : markedAlive s.world child = false) : MarksClosed s.world := by
  obtain ⟨_, _, g, sane, _⟩ := sane_of_reachable reserves s reached
  have order : g.order = [s.root, child] :=
    Chain.unique _ _ sane.listed.linked.forward ⟨rfl, next, ended⟩
  intro p q marked above
  have member : p ∈ g.order := (sane.live_iff p).mp (by
    unfold Live
    unfold markedAlive at marked
    cases found : shapeAt s.world p with
    | none => simp [found] at marked
    | some shape => rfl)
  simp only [order, List.mem_cons, List.not_mem_nil, or_false] at member
  rcases member with rfl | rfl
  · rw [top] at above
    cases above
  · rw [unmarked] at marked
    cases marked

end Reachable

theorem onePage_start : ∃ manager, ∀ root world,
    createRootShape (MetaArena.onePage manager Heap.empty) = .ok (root, world) →
      (system PageManager.rowOfRegions).start ⟨world, root⟩ := by
  obtain ⟨manager, sound⟩ := MetaArena.onePage_sound (Heap.empty : Heap ShapeObject)
  exact ⟨manager, fun root world made =>
    ⟨_, [], [], _, sound, fun _ _ there => (by cases there), made⟩⟩

theorem first_transition : ∃ world born : ShapeWorld,
    (system PageManager.rowOfRegions).start ⟨world, memoryChunkSize⟩ ∧ Live world memoryChunkSize ∧
    perform 0 world (.transitionShape memoryChunkSize 5#32 0#16 false false false false) = .ok born ∧
    Live born (memoryChunkSize + 96) ∧ markedAlive born (memoryChunkSize + 96) = false ∧
    nextOf born memoryChunkSize = some (memoryChunkSize + 96) ∧
    nextOf born (memoryChunkSize + 96) = none ∧ parentOf born memoryChunkSize = none ∧
    parentOf born (memoryChunkSize + 96) = some memoryChunkSize := by
  obtain ⟨manager, start⟩ := onePage_start
  exact ⟨_, _, start _ _ rfl, rfl, rfl, rfl, rfl, rfl, rfl, rfl, rfl⟩

theorem child_reached : ∃ s child, (system PageManager.rowOfRegions).Reachable s ∧
    child ≠ s.root ∧ Live s.world child ∧ MarksClosed s.world := by
  obtain ⟨world, born, initial, live, done, alive, unmarked, next, ended, top, _⟩ := first_transition
  have started : (system PageManager.rowOfRegions).Reachable ⟨world, memoryChunkSize⟩ := .start initial
  have taken : (system PageManager.rowOfRegions).step ⟨world, memoryChunkSize⟩
    (.transitionShape memoryChunkSize 5#32 0#16 false false false false) ⟨born, memoryChunkSize⟩ :=
    ⟨live, rfl, 0, done⟩
  exact ⟨_, memoryChunkSize + 96, started.step taken, by simp, alive,
    marks_closed_pair rowOfRegions_reserves _ (started.step taken) _ next ended top unmarked⟩

theorem shape_graph_child : ∃ s child, (system PageManager.rowOfRegions).Reachable s ∧
    child ≠ s.root ∧ Live s.world child ∧ (∃ order, Consistent s.world s.root order) ∧
      ∀ call fuel stop, Allowed s.world call → perform fuel s.world call = .error stop →
        stop.Starved := by
  obtain ⟨s, child, reached, other, live, _⟩ := child_reached
  exact ⟨s, child, reached, other, live, shape_graph rowOfRegions_reserves s reached⟩

def survives (w : ShapeWorld) (root p : Nat) : Bool := p = root || markedAlive w p

structure SweepExact (before after : ShapeWorld) (root killed : Nat) (order : List Nat) : Prop where
  listed : Listed before root order
  remaining : Listed after root (order.filter (survives before root))
  live : ∀ p, Live after p ↔ Live before p ∧ survives before root p = true
  removed : killed + (order.filter (survives before root)).length = order.length
  kept : ∀ p, Live after p → parentOf after p = parentOf before p ∧
    propertiesOf after p = propertiesOf before p ∧
    (shapeAt after p).any hasShapeAccessors = (shapeAt before p).any hasShapeAccessors
  entries : ∀ p, Live after p → (entriesOf after p).Perm
    ((entriesOf before p).filter fun entry => entry.targetShape.any (survives before root))
  cleared : ∀ p, Live after p → p ≠ root → markedAlive after p = false

theorem clear_mark (flags : BitVec 16) :
    flags &&& ~~~shapeFlags.isMarkedAlive &&& shapeFlags.isMarkedAlive = 0#16 ∧
      flags &&& ~~~shapeFlags.isMarkedAlive &&& shapeFlags.hasAccessors =
        flags &&& shapeFlags.hasAccessors := by
  have mark : ~~~shapeFlags.isMarkedAlive &&& shapeFlags.isMarkedAlive = 0#16 := by decide
  have accessors : ~~~shapeFlags.isMarkedAlive &&& shapeFlags.hasAccessors = shapeFlags.hasAccessors := by
    decide
  constructor
  · rw [BitVec.and_assoc, mark, BitVec.and_zero]
  · rw [BitVec.and_assoc, accessors]

section Exact

variable {reservations : Nat → Option Nat} {others : List PageManager.Chunk} {foreign : List Block}
  {root : Nat} {w w' : ShapeWorld} {g g' : Graph}

theorem Sane.exact (sane : Sane reservations others foreign root w g)
    (sane' : Sane reservations others foreign root w' g') (rest : List Nat)
    (split : g.order = root :: rest) (notRoot : root ∉ rest) (swept : g.Swept g' rest) (killed : Nat)
    (count : killed + g'.order.length = g.order.length) : SweepExact w w' root killed g.order := by
  have same (p : Nat) (member : p ∈ g.order) : g.spares rest p = survives w root p := by
    rw [survives, sane.markedAlive_eq p member, Graph.spares]
    by_cases here : p = root
    · simp [here, notRoot]
    · simp [here, (List.mem_cons.mp (split ▸ member)).resolve_left here]
  have pruned := swept.pruned.choice sane.rooted.branching fun p member => (same p member).symm
  have old (p : Nat) (live : Live w' p) : p ∈ g'.order ∧ p ∈ g.order := by
    have inside := (sane'.live_iff p).mp live
    exact ⟨inside, List.mem_of_mem_filter (pruned.order ▸ inside)⟩
  have flags (p : Nat) (inside : p ∈ g'.order) : (g'.node p).shape.shapeFlags =
      if p ∈ rest then (g.node p).shape.shapeFlags &&& ~~~shapeFlags.isMarkedAlive
      else (g.node p).shape.shapeFlags := swept.flags p inside
  refine ⟨sane.listed, pruned.order ▸ sane'.listed, fun p => ?_, pruned.order ▸ count, fun p live => ?_,
    fun p live => ?_, fun p live below => ?_⟩
  · rw [sane'.live_iff, pruned.order, List.mem_filter, sane.live_iff]
  · obtain ⟨inside, member⟩ := old p live
    rw [sane'.parentOf_eq p inside, sane.parentOf_eq p member, sane'.propertiesOf_eq p inside,
      sane.propertiesOf_eq p member, sane'.shapeAt_eq p inside, sane.shapeAt_eq p member]
    refine ⟨pruned.parent p inside, pruned.properties p inside, ?_⟩
    simp only [Option.any_some, hasShapeAccessors, flags p inside]
    split
    · rw [(clear_mark _).2]
    · rfl
  · obtain ⟨inside, member⟩ := old p live
    rw [sane'.entriesOf_eq p inside, sane.entriesOf_eq p member]
    exact pruned.entries p inside
  · obtain ⟨inside, member⟩ := old p live
    have todo := (List.mem_cons.mp (split ▸ member)).resolve_left below
    rw [markedAlive, sane'.shapeAt_eq p inside, Option.any_some, isShapeAlive, flags p inside, if_pos todo,
      (clear_mark _).1]
    decide

theorem Sane.sweeps (sane : Sane reservations others foreign root w g) (closed : MarksClosed w) :
    ∃ killed after, (∀ fuel, g.order.length ≤ fuel →
      sweepOrphanedShapes fuel w = .ok (killed, after)) ∧ SweepExact w after root killed g.order := by
  obtain ⟨rest, split, notRoot⟩ := sane.split
  obtain ⟨killed, after, g', done, sane', swept, count⟩ :=
    sweepOrphanedShapes_ok sane rest split closed g.order.length (Nat.le_refl _)
  exact ⟨killed, after, fun fuel => sweepOrphanedShapes_enough _ fuel w _ done,
    sane.exact sane' rest split notRoot swept killed count⟩

theorem sweep_exact (reserves : Reserves reservations) (s : Run)
    (reached : (system reservations).Reachable s) (closed : MarksClosed s.world) :
    ∃ killed after rounds order,
      (∀ fuel, rounds ≤ fuel → sweepOrphanedShapes fuel s.world = .ok (killed, after)) ∧
        SweepExact s.world after s.root killed order := by
  obtain ⟨others, foreign, g, sane, _⟩ := sane_of_reachable reserves s reached
  obtain ⟨killed, after, done, exact⟩ := sane.sweeps closed
  exact ⟨killed, after, g.order.length, g.order, done, exact⟩

end Exact

theorem sweep_exact_child : ∃ s child, (system PageManager.rowOfRegions).Reachable s ∧
    child ≠ s.root ∧ Live s.world child ∧ ∃ killed after rounds order,
      (∀ fuel, rounds ≤ fuel → sweepOrphanedShapes fuel s.world = .ok (killed, after)) ∧
        SweepExact s.world after s.root killed order := by
  obtain ⟨s, child, reached, other, live, closed⟩ := child_reached
  exact ⟨s, child, reached, other, live, sweep_exact rowOfRegions_reserves s reached closed⟩

end Shape

end ElySquare
