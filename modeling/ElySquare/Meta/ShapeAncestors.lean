import Mathlib.Logic.Relation
import ElySquare.Meta.ShapeSharing

set_option autoImplicit false

namespace ElySquare

namespace Shape

open Transition

def Ancestor (w : ShapeWorld) (a d : Nat) : Prop :=
  Relation.ReflTransGen (fun p q => parentOf w p = some q) d a

section Lineage

variable {reservations : Nat → Option Nat} {others : List PageManager.Chunk} {foreign : List Block}
  {root : Nat} {w : ShapeWorld} {g : Graph}

theorem Sane.ancestor (sane : Sane reservations others foreign root w g) (a d : Nat) (member : d ∈ g.order)
    (above : Ancestor w a d) : a ∈ g.order ∧ g.properties a <+: g.properties d := by
  induction above with
  | refl => exact ⟨member, List.prefix_refl _⟩
  | @tail b a _ parent ih =>
      obtain ⟨inside, shorter⟩ := ih
      rw [sane.parentOf_eq b inside] at parent
      obtain ⟨property, longer⟩ := sane.rooted.inherits b inside a parent
      refine ⟨sane.rooted.tree.parent_mem b a inside parent, List.IsPrefix.trans ?_ shorter⟩
      rw [longer]
      exact List.prefix_append _ _

theorem Sane.ancestor_root (sane : Sane reservations others foreign root w g) (p : Nat)
    (member : p ∈ g.order) : Ancestor w root p := by
  refine sane.rooted.tree.induct (fun p => Ancestor w root p) .refl ?_ p member
  intro p member q _ above higher
  exact .head ((sane.parentOf_eq p member).trans above) higher

theorem Sane.getProperty_eq (sane : Sane reservations others foreign root w g) (p : Nat)
    (member : p ∈ g.order) (propertyAtom : Atom) : getProperty w (some p) propertyAtom =
      .ok ((g.properties p).find? fun property => property.nameAtom = propertyAtom) := by
  unfold getProperty
  dsimp only
  rw [sane.reads p member, Result.ok_bind, sane.usedProperties_ok p member, Result.ok_bind]

theorem Sane.hasProperty_eq (sane : Sane reservations others foreign root w g) (p : Nat)
    (member : p ∈ g.order) (propertyAtom : Atom) : hasProperty w (some p) propertyAtom =
      .ok ((g.properties p).find? fun property => property.nameAtom = propertyAtom).isSome := by
  unfold hasProperty
  dsimp only
  rw [sane.getProperty_eq p member, Result.ok_bind]

theorem Sane.later (reserves : Reserves reservations) (s t : Run)
    (sane : Sane reservations others foreign s.root s.world g)
    (later : (system reservations).Later Unswept s t) :
    ∃ g', Sane reservations others foreign t.root t.world g' ∧
      ∀ p ∈ g.order, p ∈ g'.order ∧ g'.properties p = g.properties p := by
  refine later.keeps (fun t => ∃ g', Sane reservations others foreign t.root t.world g' ∧
    ∀ p ∈ g.order, p ∈ g'.order ∧ g'.properties p = g.properties p)
    ⟨g, sane, fun p member => ⟨member, rfl⟩⟩ ?_
  rintro before call t unswept ⟨g', sane', kept⟩ taken
  obtain ⟨g'', sane'', evolves⟩ := sane'.step reserves taken
  refine ⟨g'', sane'', fun p member => ?_⟩
  obtain ⟨inside, same⟩ := kept p member
  have stays := evolves.stays unswept p inside
  exact ⟨stays, (evolves.properties p inside stays).trans same⟩

theorem Sane.forgets (sane : Sane reservations others foreign root w g) (p : Nat) (member : p ∈ g.order) :
    ∃ w', forgetShape w (some p) = .ok w' := by
  obtain ⟨rest, split, _⟩ := sane.split
  have planted := sane.planted rest split
  rcases List.mem_cons.mp (split ▸ member) with rfl | inside
  · have prev : (g.node p).shape.prevShapeInArena = none :=
      Linked.Doubly.prev_eq [] rest p planted.linked
    have orphan : (g.node p).shape.parentShape = none := (sane.rooted.tree.orphan p member).mpr rfl
    unfold forgetShape
    dsimp only
    rw [sane.reads p member, Result.ok_bind, prev]
    exact ⟨w, if_pos orphan⟩
  · obtain ⟨earlier, after, rfl⟩ := List.append_of_mem inside
    have above := List.getLast?_eq_some_getLast (List.cons_ne_nil root earlier)
    obtain ⟨_, w', _, _, _, _, done, _⟩ := planted.forget _ above
    exact ⟨w', done⟩

end Lineage

section Layout

variable {reservations : Nat → Option Nat}

structure Inherits (s t : ShapeWorld) (a d : Nat) : Prop where
  longer : propertiesOf s a <+: propertiesOf t d
  property : ∀ propertyAtom, hasProperty s (some a) propertyAtom = .ok true → ∃ property,
    getProperty s (some a) propertyAtom = .ok (some property) ∧
      getProperty t (some d) propertyAtom = .ok (some property) ∧
      findPropertyOffset s (some a) propertyAtom = .ok property.offsetIndex ∧
      findPropertyOffset t (some d) propertyAtom = .ok property.offsetIndex

theorem layout_stability (reserves : Reserves reservations) (s t : Run)
    (reached : (system reservations).Reachable s) (later : (system reservations).Later Unswept s t)
    (a d : Nat) (live : Live s.world a) (live' : Live t.world d) (above : Ancestor t.world a d) :
    Inherits s.world t.world a d := by
  obtain ⟨others, foreign, g, sane, _⟩ := sane_of_reachable reserves s reached
  obtain ⟨g', sane', kept⟩ := sane.later reserves s t later
  have member := (sane.live_iff a).mp live
  have member' := (sane'.live_iff d).mp live'
  obtain ⟨inside, longer⟩ := sane'.ancestor a d member' above
  rw [(kept a member).2] at longer
  refine ⟨?_, fun propertyAtom has => ?_⟩
  · rw [sane.propertiesOf_eq a member, sane'.propertiesOf_eq d member']
    exact longer
  · rw [sane.hasProperty_eq a member, Except.ok.injEq, Option.isSome_iff_exists] at has
    obtain ⟨property, found⟩ := has
    have found' : (g'.properties d).find? (fun property => property.nameAtom = propertyAtom) =
        some property := by
      obtain ⟨rest, longer⟩ := longer
      rw [← longer, List.find?_append, found, Option.some_or]
    unfold findPropertyOffset
    rw [sane.getProperty_eq a member, sane'.getProperty_eq d member', found, found']
    exact ⟨property, rfl, rfl, rfl, rfl⟩

end Layout

theorem second_transition : ∃ world born grown marked swept : ShapeWorld,
    (system PageManager.rowOfRegions).start ⟨world, memoryChunkSize⟩ ∧ Live world memoryChunkSize ∧
    perform 0 world (.transitionShape memoryChunkSize 5#32 0#16 false false false false) = .ok born ∧
    Live born (memoryChunkSize + 96) ∧
    perform 0 born (.transitionShape (memoryChunkSize + 96) 6#32 1#16 false false false false) =
      .ok grown ∧
    Live grown (memoryChunkSize + 208) ∧
    perform 0 grown (.markShapeAlive (memoryChunkSize + 208)) = .ok marked ∧
    Live marked (memoryChunkSize + 208) ∧
    parentOf marked (memoryChunkSize + 208) = some (memoryChunkSize + 96) ∧
    sweepOrphanedShapes 3 marked = .ok (1, swept) ∧ Live swept (memoryChunkSize + 208) ∧
    parentOf swept (memoryChunkSize + 208) = some (memoryChunkSize + 96) ∧
    shapeAt swept (memoryChunkSize + 96) = none ∧
    sweepOrphanedShapes 2 swept = .error (.invalidAccess (memoryChunkSize + 96)) := by
  obtain ⟨manager, start⟩ := onePage_start
  exact ⟨_, _, _, _, _, start _ _ rfl, rfl, rfl, rfl, rfl, rfl, rfl, rfl, rfl, rfl, rfl, rfl, rfl, rfl⟩

theorem grandchild_reached : ∃ (s t : Run) (a d : Nat), (system PageManager.rowOfRegions).Reachable s ∧
    (system PageManager.rowOfRegions).Later Unswept s t ∧ a ≠ d ∧ Live s.world a ∧ Live t.world d ∧
    parentOf t.world d = some a ∧ ∃ after, sweepOrphanedShapes 3 t.world = .ok (1, after) ∧
      Live after d ∧ parentOf after d = some a ∧ shapeAt after a = none ∧
      sweepOrphanedShapes 2 after = .error (.invalidAccess a) := by
  obtain ⟨world, born, grown, marked, swept, initial, live, done, alive, done', alive', mark, rest⟩ :=
    second_transition
  have started : (system PageManager.rowOfRegions).Reachable ⟨world, memoryChunkSize⟩ := .start initial
  have first : (system PageManager.rowOfRegions).step ⟨world, memoryChunkSize⟩
    (.transitionShape memoryChunkSize 5#32 0#16 false false false false) ⟨born, memoryChunkSize⟩ :=
    ⟨live, rfl, 0, done⟩
  have second : (system PageManager.rowOfRegions).step ⟨born, memoryChunkSize⟩
    (.transitionShape (memoryChunkSize + 96) 6#32 1#16 false false false false)
    ⟨grown, memoryChunkSize⟩ := ⟨alive, rfl, 0, done'⟩
  have third : (system PageManager.rowOfRegions).step ⟨grown, memoryChunkSize⟩
    (.markShapeAlive (memoryChunkSize + 208)) ⟨marked, memoryChunkSize⟩ := ⟨alive', rfl, 0, mark⟩
  exact ⟨_, ⟨marked, memoryChunkSize⟩, _, _, started.step first,
    .step (.step (.now _) Call.noConfusion second) Call.noConfusion third, by simp, alive, rest.1,
    rest.2.1, swept, rest.2.2⟩

theorem layout_stability_grandchild : ∃ (s t : Run) (a d : Nat),
    (system PageManager.rowOfRegions).Reachable s ∧ a ≠ d ∧ Live s.world a ∧ Ancestor t.world a d ∧
      Inherits s.world t.world a d := by
  obtain ⟨s, t, a, d, reached, later, different, live, live', above, _⟩ := grandchild_reached
  exact ⟨s, t, a, d, reached, different, live, .single above,
    layout_stability rowOfRegions_reserves s t reached later a d live live' (.single above)⟩

structure Whole (w : ShapeWorld) (root : Nat) : Prop where
  chain : ∀ p, Live w p → Ancestor w root p
  alive : ∀ p q, Live w p → Ancestor w q p → Live w q
  forgets : ∀ p, Live w p → ∃ w', forgetShape w (some p) = .ok w'

-- A sweep that begins with a shape marked whose parent is not leaves that shape with a dead
-- parent, and the next sweep reads it.
theorem sweep_leaves_dangling : ∃ (s : Run) (after : ShapeWorld) (a d : Nat),
    (system PageManager.rowOfRegions).Reachable s ∧ sweepOrphanedShapes 3 s.world = .ok (1, after) ∧
      Live after d ∧ parentOf after d = some a ∧ ¬ Live after a ∧ ¬ Whole after s.root ∧
      sweepOrphanedShapes 2 after = .error (.invalidAccess a) := by
  obtain ⟨s, t, a, d, reached, later, _, _, _, _, after, swept, live, above, dead, broken⟩ :=
    grandchild_reached
  have gone : ¬ Live after a := by
    unfold Live
    rw [dead]
    decide
  exact ⟨t, after, a, d, later.reachable reached, swept, live, above, gone,
    fun whole => gone (whole.alive d a live (.single above)), broken⟩

theorem sweep_keeps_ancestors {reservations : Nat → Option Nat} (reserves : Reserves reservations)
    (s : Run) (reached : (system reservations).Reachable s) (closed : MarksClosed s.world) (fuel : Nat)
    (killed : Nat) (after : ShapeWorld) (swept : sweepOrphanedShapes fuel s.world = .ok (killed, after))
    (t : Run) (later : (system reservations).Later (fun _ => True) ⟨after, s.root⟩ t) :
    Whole t.world t.root ∧ (MarksClosed t.world → ∃ rounds killed' after', ∀ fuel, rounds ≤ fuel →
      sweepOrphanedShapes fuel t.world = .ok (killed', after')) := by
  have taken : (system reservations).step s .sweepOrphanedShapes ⟨after, s.root⟩ :=
    ⟨closed, rfl, fuel, by simp [perform, swept]⟩
  have reached' := later.reachable (reached.step taken)
  obtain ⟨others, foreign, g, sane, _⟩ := sane_of_reachable reserves t reached'
  refine ⟨⟨fun p live => ?_, fun p q live above => ?_, fun p live => ?_⟩, fun closed' => ?_⟩
  · exact sane.ancestor_root p ((sane.live_iff p).mp live)
  · exact (sane.live_iff q).mpr (sane.ancestor q p ((sane.live_iff p).mp live) above).1
  · exact sane.forgets p ((sane.live_iff p).mp live)
  · obtain ⟨killed', after', done, _⟩ := sane.sweeps closed'
    exact ⟨_, killed', after', done⟩

theorem sweep_keeps_ancestors_child : ∃ (s : Run) (child killed : Nat) (after : ShapeWorld) (fuel : Nat),
    (system PageManager.rowOfRegions).Reachable s ∧ child ≠ s.root ∧ Live s.world child ∧
      sweepOrphanedShapes fuel s.world = .ok (killed, after) ∧ Whole after s.root := by
  obtain ⟨s, child, reached, other, live, closed⟩ := child_reached
  obtain ⟨_, _, g, sane, _⟩ := sane_of_reachable rowOfRegions_reserves s reached
  obtain ⟨killed, after, done, _⟩ := sane.sweeps closed
  have swept := done g.order.length (Nat.le_refl _)
  exact ⟨s, child, killed, after, g.order.length, reached, other, live, swept,
    (sweep_keeps_ancestors rowOfRegions_reserves s reached closed _ killed after swept _
      (.now _)).1⟩

end Shape

end ElySquare
