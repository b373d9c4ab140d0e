import ElySquare.Meta.ShapeSharing

set_option autoImplicit false

namespace ElySquare

namespace Shape

open Transition

/-- All calls on the shapes of one root: those of `Call`, epochs, and transitions that are made without a
look at the table first. -/
inductive GraphCall
  | createTransition (p : Nat) (propertyAtom : Atom) (offset : BitVec 16)
      (isReadonly isHidden isGetter isSetter : Bool)
  | setShapeEpoche (p : Nat) (int12ValueOfEpoche : BitVec 16)
  | on (call : Call)
deriving DecidableEq, Repr

def GraphAllowed (w : ShapeWorld) : GraphCall → Prop
  | .createTransition p _ _ _ _ _ _ => Live w p
  | .setShapeEpoche p _ => Live w p
  | .on call => Allowed w call

def performGraph (fuel : Nat) (w : ShapeWorld) : GraphCall → Result ShapeWorld
  | .createTransition p propertyAtom offset isReadonly isHidden isGetter isSetter => do
    let (_, w) ← createTransition w (some p) propertyAtom offset isReadonly isHidden isGetter isSetter
    .ok w
  | .setShapeEpoche p int12ValueOfEpoche => setShapeEpoche w (some p) int12ValueOfEpoche
  | .on call => perform fuel w call

def graphSystem (reservations : Nat → Option Nat) : System Run GraphCall where
  start := (system reservations).start
  step s call t := GraphAllowed s.world call ∧ t.root = s.root ∧
    ∃ fuel, performGraph fuel s.world call = .ok t.world

def KeepsAccessors (change : BitVec 16 → BitVec 16) : Prop :=
  ∀ flags, change flags &&& shapeFlags.hasAccessors = flags &&& shapeFlags.hasAccessors

inductive Graph.Alters (g : Graph) (root : Nat) : Graph → Prop
  | same : Alters g root g
  | spawned (p : Nat) (member : p ∈ g.order) (propertyAtom : Atom) (offset : BitVec 16)
      (isReadonly isHidden isGetter isSetter : Bool) (child : Nat) (g' : Graph)
      (spawned : g.Spawned g' p child (transiteTo child propertyAtom)
        (makePropertyInShape propertyAtom offset isReadonly isHidden isGetter isSetter)) :
      Alters g root g'
  | reflagged (p : Nat) (member : p ∈ g.order) (change : BitVec 16 → BitVec 16)
      (accessors : KeepsAccessors change) : Alters g root (g.reflag p (change (g.flags p)))
  | swept (todo : List Nat) (g' : Graph) (split : g.order = root :: todo) (swept : g.Swept g' todo) :
      Alters g root g'

section Words

variable (flag : BitVec 16)

theorem or_keepsAccessors (apart : flag &&& shapeFlags.hasAccessors = 0#16) :
    KeepsAccessors fun flags => flags ||| flag := by
  intro flags
  rw [BitVec.and_or_distrib_right, apart, BitVec.or_zero]

theorem andNot_keepsAccessors (apart : ~~~flag &&& shapeFlags.hasAccessors = shapeFlags.hasAccessors) :
    KeepsAccessors fun flags => flags &&& ~~~flag := by
  intro flags
  rw [BitVec.and_assoc, apart]

theorem setFlag_keepsAccessors (apart : flag &&& shapeFlags.hasAccessors = 0#16)
    (apart' : ~~~flag &&& shapeFlags.hasAccessors = shapeFlags.hasAccessors) (on : Bool) :
    KeepsAccessors fun flags => if on then flags ||| flag else flags &&& ~~~flag := by
  cases on
  · exact andNot_keepsAccessors flag apart'
  · exact or_keepsAccessors flag apart

theorem epoche_keepsAccessors (int12ValueOfEpoche : BitVec 16) :
    KeepsAccessors fun flags => flags ||| (int12ValueOfEpoche &&& shapeEpochRawMask) := by
  have apart : shapeEpochRawMask &&& shapeFlags.hasAccessors = 0#16 := by decide
  refine or_keepsAccessors _ ?_
  rw [BitVec.and_assoc, apart, BitVec.and_zero]

end Words

section Perform

variable {reservations : Nat → Option Nat} {others : List PageManager.Chunk} {foreign : List Block}
  {root : Nat} {w : ShapeWorld} {g : Graph}

theorem Sane.createTransition_meets (reserves : Reserves reservations)
    (sane : Sane reservations others foreign root w g) (p : Nat) (member : p ∈ g.order)
    (propertyAtom : Atom) (offset : BitVec 16) (isReadonly isHidden isGetter isSetter : Bool) :
    Meets (createTransition w (some p) propertyAtom offset isReadonly isHidden isGetter isSetter)
      Stop.Starved fun made => ∃ child g', Sane reservations others foreign root made.2 g' ∧
        g.Spawned g' p child (transiteTo child propertyAtom)
          (makePropertyInShape propertyAtom offset isReadonly isHidden isGetter isSetter) := by
  obtain ⟨rest, split, _⟩ := sane.split
  refine (Shape.createTransition_meets reserves (sane.planted rest split) p member propertyAtom offset
    isReadonly isHidden isGetter isSetter).weaken ?_
  rintro made ⟨child, g', _, planted, spawned⟩
  exact ⟨child, g', planted.sane (sane.rooted.spawn member spawned), spawned⟩

theorem Sane.alters_flags (sane : Sane reservations others foreign root w g) (p : Nat) (live : Live w p)
    (change : BitVec 16 → BitVec 16) (accessors : KeepsAccessors change) :
    Meets (modify w p fun shape => { shape with shapeFlags := change shape.shapeFlags }) Stop.Starved
      fun w' => ∃ g', Sane reservations others foreign root w' g' ∧ g.Alters root g' := by
  have member := (sane.live_iff p).mp live
  obtain ⟨w', done, sane'⟩ := sane.reflag p member change
  rw [done]
  exact (Meets.ok_iff _).mpr ⟨_, sane', .reflagged p member change accessors⟩

theorem Sane.alters (reserves : Reserves reservations)
    (sane : Sane reservations others foreign root w g) (call : Call) (allowed : Allowed w call)
    (fuel : Nat) : Meets (perform fuel w call) Stop.Starved
      fun w' => ∃ g', Sane reservations others foreign root w' g' ∧ g.Alters root g' := by
  cases call with
  | transitionShape p propertyAtom offset isReadonly isHidden isGetter isSetter =>
      have member := (sane.live_iff p).mp allowed
      refine Meets.bind (transitionShape_meets reserves sane p member propertyAtom offset isReadonly
        isHidden isGetter isSetter) ?_
      rintro ⟨result, w'⟩ (⟨entry, _, same⟩ | ⟨_, child, g', _, sane', spawned⟩)
      · cases same
        exact (Meets.ok_iff _).mpr ⟨g, sane, .same⟩
      · exact (Meets.ok_iff _).mpr ⟨g', sane', .spawned p member _ _ _ _ _ _ child g' spawned⟩
  | markShapeAlive p => exact sane.alters_flags p allowed _ (or_keepsAccessors _ (by decide))
  | setShapeFrozen p isFrozen =>
      exact sane.alters_flags p allowed _ (setFlag_keepsAccessors _ (by decide) (by decide) isFrozen)
  | setShapeHashTableMode p isHashTableMode =>
      exact sane.alters_flags p allowed _
        (setFlag_keepsAccessors _ (by decide) (by decide) isHashTableMode)
  | sweepOrphanedShapes =>
      obtain ⟨rest, split, _⟩ := sane.split
      obtain ⟨killed, w', g', done, sane', swept, _⟩ :=
        sweepOrphanedShapes_ok sane rest split allowed (fuel + g.order.length) (Nat.le_add_left _ _)
      refine Meets.bind (sweepOrphanedShapes_meets _ _ w _ done) ?_
      rintro _ rfl
      exact (Meets.ok_iff _).mpr ⟨g', sane', .swept rest g' split swept⟩

theorem performGraph_meets (reserves : Reserves reservations)
    (sane : Sane reservations others foreign root w g) (call : GraphCall) (allowed : GraphAllowed w call)
    (fuel : Nat) : Meets (performGraph fuel w call) Stop.Starved
      fun w' => ∃ g', Sane reservations others foreign root w' g' ∧ g.Alters root g' := by
  cases call with
  | createTransition p propertyAtom offset isReadonly isHidden isGetter isSetter =>
      have member := (sane.live_iff p).mp allowed
      refine Meets.bind (sane.createTransition_meets reserves p member propertyAtom offset isReadonly
        isHidden isGetter isSetter) ?_
      rintro made ⟨child, g', sane', spawned⟩
      exact (Meets.ok_iff _).mpr ⟨g', sane', .spawned p member _ _ _ _ _ _ child g' spawned⟩
  | setShapeEpoche p int12ValueOfEpoche =>
      exact sane.alters_flags p allowed _ (epoche_keepsAccessors int12ValueOfEpoche)
  | on call => exact sane.alters reserves call allowed fuel

end Perform

namespace Graph

def Described (g : Graph) : Prop :=
  g.Along fun above propertyAtom below => ∃ offset isReadonly isHidden isGetter isSetter,
    below = above ++ [makePropertyInShape propertyAtom offset isReadonly isHidden isGetter isSetter]

end Graph

def IsAccessor (property : PropertyDescriptor) : Prop :=
  property.attributes &&& accessFlags.isGetter ≠ 0#16 ∨
    property.attributes &&& accessFlags.isSetter ≠ 0#16

def Graph.AccessorsRight (g : Graph) : Prop :=
  ∀ p ∈ g.order, g.flags p &&& shapeFlags.hasAccessors ≠ 0#16 ↔
    ∃ property ∈ g.properties p, IsAccessor property

section Kept

variable {g g' : Graph} {root : Nat}

theorem Graph.Alters.described (rooted : g.Rooted root) (alters : g.Alters root g')
    (described : g.Described) : g'.Described := by
  cases alters with
  | same => exact described
  | spawned q _ propertyAtom offset isReadonly isHidden isGetter isSetter child _ spawned =>
      exact spawned.along rooted described ⟨offset, isReadonly, isHidden, isGetter, isSetter, rfl⟩
  | reflagged p _ change _ => exact Graph.reflag_along described p _
  | swept todo _ _ swept => exact swept.along described

-- A new shape has the flag if its parent has it or its last property is an accessor.
theorem getShapeFlags_accessors (parent : Shape) (property : PropertyDescriptor) :
    getShapeFlags parent property.attributes &&& shapeFlags.hasAccessors ≠ 0#16 ↔
      IsAccessor property ∨ parent.shapeFlags &&& shapeFlags.hasAccessors ≠ 0#16 := by
  unfold getShapeFlags IsAccessor
  rw [or_assoc]
  split
  next holds => exact iff_of_true (by decide) holds
  next fails => exact iff_of_false (by decide) fails

theorem Graph.Alters.accessors (alters : g.Alters root g') (right : g.AccessorsRight) :
    g'.AccessorsRight := by
  cases alters with
  | same => exact right
  | spawned q member propertyAtom offset isReadonly isHidden isGetter isSetter child _ spawned =>
      intro p inside
      rcases spawned.old_or_new _ inside with old | rfl
      · rw [spawned.flags p old, spawned.properties p old]
        exact right p old
      · have above : (g.node q).shape.shapeFlags &&& shapeFlags.hasAccessors ≠ 0#16 ↔ _ := right q member
        rw [spawned.born, getShapeFlags_accessors, above, spawned.longer, or_comm]
        simp only [List.mem_append, List.mem_singleton, or_and_right, exists_or, exists_eq_left]
  | reflagged q member change accessors =>
      intro p inside
      rw [reflag_properties, reflag_flags]
      split
      next here =>
        subst here
        rw [accessors]
        exact right p inside
      next => exact right p inside
  | swept todo _ _ swept =>
      intro p inside
      have kept : g'.flags p &&& shapeFlags.hasAccessors = g.flags p &&& shapeFlags.hasAccessors := by
        rw [swept.flags p inside]
        split
        · exact andNot_keepsAccessors _ (by decide) _
        · rfl
      rw [kept, swept.pruned.properties p inside]
      exact right p (swept.pruned.old p inside).1

end Kept

section Reachable

variable {reservations : Nat → Option Nat}

theorem alters_invariant (reserves : Reserves reservations) (property : Graph → Prop)
    (lone : ∀ root g, g.Rooted root → g.order = [root] → g.flags root = 0x01#16 → property g)
    (kept : ∀ root g g', g.Rooted root → g.Alters root g' → property g → property g') (s : Run)
    (reached : (graphSystem reservations).Reachable s) :
    ∃ others foreign g, Sane reservations others foreign s.root s.world g ∧ property g := by
  induction reached with
  | start initial =>
      obtain ⟨others, foreign, g, sane, flags, order⟩ := start_sane reserves _ initial
      exact ⟨others, foreign, g, sane, lone _ g sane.rooted order flags⟩
  | step _ taken ih =>
      obtain ⟨others, foreign, g, sane, holds⟩ := ih
      obtain ⟨allowed, root, fuel, done⟩ := taken
      obtain ⟨g', sane', alters⟩ := (performGraph_meets reserves sane _ allowed fuel).holds _ done
      exact ⟨others, foreign, g', root ▸ sane', kept _ g g' sane.rooted alters holds⟩

theorem described_of_reachable (reserves : Reserves reservations) (s : Run)
    (reached : (graphSystem reservations).Reachable s) :
    ∃ others foreign g, Sane reservations others foreign s.root s.world g ∧ g.Described :=
  alters_invariant reserves Graph.Described (fun _ _ rooted order _ => rooted.along order)
    (fun _ _ _ rooted alters described => alters.described rooted described) s reached

theorem accessors_of_reachable (reserves : Reserves reservations) (s : Run)
    (reached : (graphSystem reservations).Reachable s) :
    ∃ others foreign g, Sane reservations others foreign s.root s.world g ∧ g.AccessorsRight := by
  refine alters_invariant reserves Graph.AccessorsRight ?_
    (fun _ _ _ _ alters right => alters.accessors right) s reached
  intro root g rooted order flags p member
  obtain rfl := List.mem_singleton.mp (order ▸ member)
  rw [flags, rooted.bare]
  exact iff_of_false (by decide) (by simp)

theorem accessor_flag (reserves : Reserves reservations) (s : Run)
    (reached : (graphSystem reservations).Reachable s) (p : Nat) (live : Live s.world p) :
    (shapeAt s.world p).any hasShapeAccessors = true ↔
      ∃ property ∈ propertiesOf s.world p, IsAccessor property := by
  obtain ⟨others, foreign, g, sane, right⟩ := accessors_of_reachable reserves s reached
  have member := (sane.live_iff p).mp live
  rw [sane.shapeAt_eq p member, sane.propertiesOf_eq p member, ← right p member]
  simp [hasShapeAccessors, Graph.flags]

theorem accessor_flag_getter : ∃ (s : Run) (p : Nat), (graphSystem PageManager.rowOfRegions).Reachable s ∧
    propertiesOf s.world p = [⟨5#32, 0#16, accessFlags.isGetter⟩] ∧
    ((shapeAt s.world p).any hasShapeAccessors = true ↔
      ∃ property ∈ propertiesOf s.world p, IsAccessor property) := by
  obtain ⟨manager, start⟩ := onePage_start
  obtain ⟨world, made, live, born, done, alive, set, done', alive', properties⟩ : ∃ world,
      createRootShape (MetaArena.onePage manager Heap.empty) = .ok (memoryChunkSize, world) ∧
      Live world memoryChunkSize ∧ ∃ born,
        perform 0 world (.transitionShape memoryChunkSize 5#32 0#16 false false true false) = .ok born ∧
        Live born (memoryChunkSize + 96) ∧ ∃ set,
          setShapeEpoche born (some (memoryChunkSize + 96)) 0xFFFF#16 = .ok set ∧
          Live set (memoryChunkSize + 96) ∧
          propertiesOf set (memoryChunkSize + 96) = [⟨5#32, 0#16, accessFlags.isGetter⟩] :=
    ⟨_, rfl, rfl, _, rfl, rfl, _, rfl, rfl, rfl⟩
  have started : (graphSystem PageManager.rowOfRegions).Reachable ⟨world, memoryChunkSize⟩ :=
    .start (start _ _ made)
  have first : (graphSystem PageManager.rowOfRegions).step ⟨world, memoryChunkSize⟩
      (.on (.transitionShape memoryChunkSize 5#32 0#16 false false true false))
      ⟨born, memoryChunkSize⟩ := ⟨live, rfl, 0, done⟩
  have second : (graphSystem PageManager.rowOfRegions).step ⟨born, memoryChunkSize⟩
      (.setShapeEpoche (memoryChunkSize + 96) 0xFFFF#16) ⟨set, memoryChunkSize⟩ :=
    ⟨alive, rfl, 0, done'⟩
  have reached := (started.step first).step second
  exact ⟨_, _, reached, properties, accessor_flag rowOfRegions_reserves _ reached _ alive'⟩

structure Untouched (before after : ShapeWorld) : Prop where
  live : ∀ p, Live after p ↔ Live before p
  entries : ∀ p, entriesOf after p = entriesOf before p
  properties : ∀ p, propertiesOf after p = propertiesOf before p
  next : ∀ p, nextOf after p = nextOf before p
  prev : ∀ p, prevOf after p = prevOf before p
  last : after.metaArena.lastAllocatedShape = before.metaArena.lastAllocatedShape

theorem Untouched.refl (w : ShapeWorld) : Untouched w w :=
  ⟨fun _ => Iff.rfl, fun _ => rfl, fun _ => rfl, fun _ => rfl, fun _ => rfl, rfl⟩

theorem Graph.Described.label_blank {g : Graph} {root : Nat} (rooted : g.Rooted root)
    (described : g.Described) (q : Nat) (member : q ∈ g.order) (entry : TransitionEntry)
    (listed : entry ∈ g.entries q) (unnamed : entry.propertyAtom = 0#32) :
    g.label entry = (0#32, some 0#16) := by
  obtain ⟨c, inside, target, _⟩ := rooted.targets q member entry listed
  obtain ⟨offset, isReadonly, isHidden, isGetter, isSetter, longer⟩ :=
    described q member entry listed c inside target
  rw [unnamed, makePropertyInShape, if_pos rfl] at longer
  simp [label, unnamed, target, longer, zeroProperty]

theorem Sane.spawned_touched {others : List PageManager.Chunk} {foreign : List Block} {root : Nat}
    {w after : ShapeWorld} {g g' : Graph} (sane : Sane reservations others foreign root w g)
    (sane' : Sane reservations others foreign root after g') {p child : Nat} {entry : TransitionEntry}
    {property : PropertyDescriptor} (spawned : g.Spawned g' p child entry property) :
    ¬ Untouched w after := by
  intro untouched
  have live := (untouched.live child).mp ((sane'.live_iff child).mpr spawned.member)
  exact spawned.fresh ((sane.live_iff child).mp live)

-- A shape is made for the invalid name 0 too, unless it is found: the refusal of makePropertyInShape
-- has no effect but the blank descriptor.
theorem refusal_iff (reserves : Reserves reservations) (s : Run)
    (reached : (graphSystem reservations).Reachable s) (p : Nat) (live : Live s.world p)
    (offset : BitVec 16) (isReadonly isHidden isGetter isSetter : Bool) (r : Option Nat)
    (after : ShapeWorld) :
    (createTransition s.world (some p) 0#32 offset isReadonly isHidden isGetter isSetter =
      .ok (r, after) → ¬ Untouched s.world after) ∧
    (transitionShape s.world (some p) 0#32 offset isReadonly isHidden isGetter isSetter =
      .ok (r, after) → (Untouched s.world after ↔
        attributesOf isReadonly isHidden isGetter isSetter = 0#16 ∧
          ∃ entry ∈ entriesOf s.world p, entry.propertyAtom = 0#32)) := by
  obtain ⟨others, foreign, g, sane, described⟩ := described_of_reachable reserves s reached
  have member := (sane.live_iff p).mp live
  refine ⟨fun done => ?_, fun done => ?_⟩
  · obtain ⟨child, g', sane', spawned⟩ := (sane.createTransition_meets reserves p member 0#32 offset
      isReadonly isHidden isGetter isSetter).holds _ done
    exact sane.spawned_touched sane' spawned
  · rw [sane.entriesOf_eq p member]
    rcases (transitionShape_meets reserves sane p member 0#32 offset isReadonly isHidden isGetter
        isSetter).holds _ done with ⟨entry, there, same⟩ | ⟨absent, child, g', _, sane', spawned⟩
    · cases same
      have listed := List.mem_of_find?_eq_some there
      have matched := (Graph.matching_iff _ _ _).mp (List.find?_some there)
      obtain ⟨unnamed, _⟩ := Prod.mk.inj matched
      rw [described.label_blank sane.rooted p member entry listed unnamed, Prod.mk.injEq,
        Option.some.injEq] at matched
      exact iff_of_true (Untouched.refl _) ⟨matched.2.symm, entry, listed, unnamed⟩
    · refine iff_of_false (sane.spawned_touched sane' spawned) ?_
      rintro ⟨plain, entry, listed, unnamed⟩
      rw [plain] at absent
      exact List.find?_eq_none.mp absent entry listed ((Graph.matching_iff _ _ _).mpr
        (described.label_blank sane.rooted p member entry listed unnamed))

end Reachable

theorem refused_twice : ∃ (s : Run) (child grandchild : Nat) (born doubled : ShapeWorld),
    (graphSystem PageManager.rowOfRegions).Reachable s ∧ Live s.world s.root ∧
    transitionShape s.world (some s.root) 0#32 0#16 false false true false = .ok (some child, born) ∧
    Live born child ∧ ¬ Live s.world child ∧
    transitionShape born (some s.root) 0#32 0#16 false false true false =
      .ok (some grandchild, doubled) ∧
    Live doubled grandchild ∧ ¬ Live born grandchild := by
  obtain ⟨manager, start⟩ := onePage_start
  obtain ⟨world, made, live, born, doubled, rest⟩ : ∃ world,
      createRootShape (MetaArena.onePage manager Heap.empty) = .ok (memoryChunkSize, world) ∧
      Live world memoryChunkSize ∧ ∃ born doubled,
        transitionShape world (some memoryChunkSize) 0#32 0#16 false false true false =
          .ok (some (memoryChunkSize + 96), born) ∧
        Live born (memoryChunkSize + 96) ∧ ¬ Live world (memoryChunkSize + 96) ∧
        transitionShape born (some memoryChunkSize) 0#32 0#16 false false true false =
          .ok (some (memoryChunkSize + 176), doubled) ∧
        Live doubled (memoryChunkSize + 176) ∧ ¬ Live born (memoryChunkSize + 176) := by
    refine ⟨_, rfl, rfl, _, _, rfl, rfl, Bool.false_ne_true, rfl, rfl, Bool.false_ne_true⟩
  exact ⟨⟨world, memoryChunkSize⟩, _, _, born, doubled,
    .start (start _ _ made), live, rest⟩

theorem refused_but_made : ∃ (s : Run) (r : Option Nat) (after : ShapeWorld),
    (graphSystem PageManager.rowOfRegions).Reachable s ∧ Live s.world s.root ∧
    transitionShape s.world (some s.root) 0#32 0#16 false false true false = .ok (r, after) ∧
    ¬ Untouched s.world after := by
  obtain ⟨s, child, _, born, _, reached, live, done, alive, absent, _⟩ := refused_twice
  exact ⟨s, _, born, reached, live, done, fun untouched => absent ((untouched.live child).mp alive)⟩

theorem refusal_of_getter : ∃ (s : Run) (r : Option Nat) (after : ShapeWorld),
    (graphSystem PageManager.rowOfRegions).Reachable s ∧
    transitionShape s.world (some s.root) 0#32 0#16 false false true false = .ok (r, after) ∧
    (Untouched s.world after ↔ attributesOf false false true false = 0#16 ∧
      ∃ entry ∈ entriesOf s.world s.root, entry.propertyAtom = 0#32) := by
  obtain ⟨s, r, after, reached, live, done, _⟩ := refused_but_made
  exact ⟨s, r, after, reached, done, (refusal_iff rowOfRegions_reserves s reached s.root live 0#16
    false false true false r after).2 done⟩

end Shape

end ElySquare
