import ElySquare.Meta.ShapeForest

set_option autoImplicit false

namespace ElySquare

namespace Shape

open Transition

/-- An arena of which only the layout of its shapes is known. Sweeps keep this whatever is marked, though
they may leave shapes whose parents are gone. -/
structure Intact (reservations : Nat → Option Nat) (others : List PageManager.Chunk)
    (foreign : List Block) (w : ShapeWorld) (g : Graph) : Prop where
  heap : ∃ held, Stands reservations others foreign w held g
  last : g.order ≠ [] → ∃ last ∈ g.order, w.metaArena.lastAllocatedShape = some last

def versionOf (w : ShapeWorld) (p : Nat) : BitVec 16 :=
  match shapeAt w p with
  | none => 0#16
  | some shape => shape.shapeFlags >>> 4

namespace Graph

def version (g : Graph) (p : Nat) : BitVec 16 := if p ∈ g.order then g.flags p >>> 4 else 0#16

def KeepsVersions (g g' : Graph) : Prop := ∀ p ∈ g'.order, g'.version p = g.version p

variable {g g' g'' : Graph}

theorem version_of_mem (p : Nat) (member : p ∈ g.order) : g.version p = g.flags p >>> 4 :=
  if_pos member

theorem KeepsVersions.refl (g : Graph) : g.KeepsVersions g := fun _ _ => rfl

theorem keepsVersions_of_subset (inside : ∀ p ∈ g'.order, p ∈ g.order)
    (same : ∀ p ∈ g'.order, g'.flags p >>> 4 = g.flags p >>> 4) : g.KeepsVersions g' := by
  intro p member
  rw [version_of_mem p member, version_of_mem p (inside p member)]
  exact same p member

theorem KeepsVersions.trans (first : g.KeepsVersions g') (second : g'.KeepsVersions g'')
    (inside : ∀ p ∈ g''.order, p ∈ g'.order) : g.KeepsVersions g'' :=
  fun p member => (second p member).trans (first p (inside p member))

theorem reflag_keepsVersions (p : Nat) (flags : BitVec 16) (same : flags >>> 4 = g.flags p >>> 4) :
    g.KeepsVersions (g.reflag p flags) := by
  apply keepsVersions_of_subset
  · exact fun _ member => member
  · intro q _
    rw [reflag_flags]
    split
    next here => rw [same, here]
    next => rfl

theorem Spawned.keepsVersions {q child : Nat} {entry : TransitionEntry} {property : PropertyDescriptor}
    (spawned : g.Spawned g' q child entry property) : g.KeepsVersions g' := by
  intro p member
  rw [version_of_mem p member]
  rcases spawned.old_or_new _ member with old | rfl
  · rw [version_of_mem p old, spawned.flags p old]
  · have none : g.version p = 0#16 := if_neg spawned.fresh
    rw [none, spawned.born]
    unfold getShapeFlags
    split
    · rfl
    · rfl

theorem plant_keepsVersions (ptr : Nat) (fresh : ptr ∉ g.order) : g.KeepsVersions (g.plant ptr) := by
  intro p member
  rw [version_of_mem p member]
  rcases List.mem_append.mp member with old | new
  · have other : p ≠ ptr := fun here => fresh (here ▸ old)
    have same : (g.plant ptr).flags p = g.flags p :=
      congrArg (·.shape.shapeFlags) (append_there _ _ _ _ other)
    rw [version_of_mem p old, same]
  · obtain rfl := List.mem_singleton.mp new
    have born : (g.plant p).flags p = 0x01#16 := congrArg (·.shape.shapeFlags) plant_here
    have none : g.version p = 0#16 := if_neg fresh
    rw [none, born]
    rfl

end Graph

section Returns

variable {reservations : Nat → Option Nat} {others : List PageManager.Chunk} {foreign : List Block}
  {w w' : ShapeWorld} {held : Nat → Option ShapeObject} {g : Graph}

theorem Stands.of_read (stands : Stands reservations others foreign w held g) (p : Nat) (shape : Shape)
    (found : read w p = .ok shape) : p ∈ g.order ∧ shape = (g.node p).shape := by
  have live : Live w p := by
    unfold Live
    rw [(shapeAt_iff w p shape).mpr found]
    rfl
  have member := (stands.live_iff p).mp live
  rw [read_ok stands.keeps p _ (stands.lays.laid p member).shape] at found
  exact ⟨member, (Except.ok.inj found).symm⟩

theorem Stands.of_modify (stands : Stands reservations others foreign w held g) (p : Nat)
    (change : Shape → Shape) (done : modify w p change = .ok w') : p ∈ g.order := by
  obtain ⟨shape, found, _⟩ := (Result.bind_ok _ _ _).mp done
  exact (stands.of_read p shape found).1

theorem Stands.of_unlink (stands : Stands reservations others foreign w held g) (p b : Nat)
    (done : Shape.unlink w (g.node p).shape b = .ok w') : ∃ held',
      w'.metaArena = w.metaArena ∧ Stands reservations others foreign w' held' (g.unlink p b) := by
  have members : b ∈ g.order ∧ ∀ n, g.next p = some n → n ∈ g.order := by
    unfold Shape.unlink at done
    unfold Graph.next
    cases next : (g.node p).shape.nextShapeInArena with
    | none =>
        rw [next] at done
        exact ⟨stands.of_modify b _ done, fun n none => (by cases none)⟩
    | some n =>
        rw [next] at done
        obtain ⟨w₁, linked, ended⟩ := (Result.bind_ok _ _ _).mp done
        have inside := stands.of_modify n _ linked
        obtain ⟨w₁', held₁, done₁, _, stands₁⟩ := stands.reshape n inside
          (fun shape => { shape with prevShapeInArena := some b }) rfl
        obtain rfl := Except.ok.inj (linked.symm.trans done₁)
        refine ⟨stands₁.of_modify b _ ended, fun n' same => ?_⟩
        obtain rfl := Option.some.inj same
        exact inside
  obtain ⟨w₁, held', done', arena, stands'⟩ := stands.unlink p b members.1 members.2
  obtain rfl := Except.ok.inj (done.symm.trans done')
  exact ⟨held', arena, stands'⟩

theorem Stands.of_forgetTransition (stands : Stands reservations others foreign w held g) (p q : Nat)
    (done : Shape.forgetTransition w p q = .ok w') : ∃ held' entries slack,
      w'.metaArena = w.metaArena ∧ Stands reservations others foreign w' held' (g.set q
        ⟨{ (g.node q).shape with transitionCount := entries.length }, (g.node q).properties, entries,
          slack⟩) := by
  have there : q ∈ g.order ∧ entryOf p (g.entries q) ≠ none := by
    unfold Shape.forgetTransition at done
    obtain ⟨parentShape, found, done⟩ := (Result.bind_ok _ _ _).mp done
    obtain ⟨member, rfl⟩ := stands.of_read q parentShape found
    dsimp only at done
    rw [usedEntries_ok stands q member, Result.ok_bind] at done
    refine ⟨member, fun none => ?_⟩
    rw [none] at done
    cases done
  obtain ⟨i, index⟩ := Option.ne_none_iff_exists'.mp there.2
  obtain ⟨before, entry, after, split, rfl, _⟩ := entryOf_some p _ i index
  obtain ⟨w₁, held', entries, slack, done', arena, _, stands'⟩ :=
    stands.forgetTransition_at p q there.1 before entry after split index
  obtain rfl := Except.ok.inj (done.symm.trans done')
  exact ⟨held', entries, slack, arena, stands'⟩

theorem Stands.of_forgetShape (stands : Stands reservations others foreign w held g) (p b : Nat)
    (above : (g.node p).shape.prevShapeInArena = some b) (done : forgetShape w (some p) = .ok w') :
    ∃ held' g', Stands reservations others foreign w' held' g' ∧ g'.order = g.order ∧
      g'.flags = g.flags ∧ w'.metaArena.lastAllocatedShape =
        if some p = w.metaArena.lastAllocatedShape then some b else w.metaArena.lastAllocatedShape := by
  unfold forgetShape at done
  dsimp only at done
  obtain ⟨shape, found, done⟩ := (Result.bind_ok _ _ _).mp done
  obtain ⟨member, rfl⟩ := stands.of_read p shape found
  rw [above] at done
  dsimp only at done
  obtain ⟨w₁, unlinked, forgotten⟩ := (Result.bind_ok _ _ _).mp done
  generalize retracted : (if some p = w.metaArena.lastAllocatedShape then
    setLastAllocatedShape w (some b) else w) = w₀ at unlinked
  have start : Stands reservations others foreign w₀ held g ∧ w₀.metaArena.lastAllocatedShape =
      if some p = w.metaArena.lastAllocatedShape then some b else w.metaArena.lastAllocatedShape := by
    rw [← retracted]
    split
    · exact ⟨stands.setLast (some b), rfl⟩
    · exact ⟨stands, rfl⟩
  obtain ⟨held₁, arena₁, stands₁⟩ := start.1.of_unlink p b unlinked
  cases parent : (g.node p).shape.parentShape with
  | none =>
      rw [parent] at forgotten
      cases forgotten
  | some q =>
      rw [parent] at forgotten
      obtain ⟨held₂, entries, slack, arena₂, stands₂⟩ := stands₁.of_forgetTransition p q forgotten
      refine ⟨held₂, g.forget p b q entries slack, stands₂, Graph.unlink_order, funext fun x => ?_, ?_⟩
      · exact (Graph.forget_unlink (·.shape.shapeFlags) (fun _ _ _ _ => rfl) x).trans
          (Graph.unlink_view (·.shape.shapeFlags) (fun _ _ => rfl) (fun _ _ => rfl) x)
      · rw [arena₂, arena₁]
        exact start.2

theorem Intact.reflag (intact : Intact reservations others foreign w g) (p : Nat)
    (change : BitVec 16 → BitVec 16)
    (done : modify w p (fun shape => { shape with shapeFlags := change shape.shapeFlags }) = .ok w') :
    Intact reservations others foreign w' (g.reflag p (change (g.flags p))) := by
  obtain ⟨held, stands⟩ := intact.heap
  obtain ⟨w₁, held', done', arena, stands'⟩ := stands.reshape p (stands.of_modify p _ done)
    (fun shape => { shape with shapeFlags := change shape.shapeFlags }) rfl
  obtain rfl := Except.ok.inj (done.symm.trans done')
  refine ⟨⟨held', stands'⟩, ?_⟩
  rw [arena]
  exact intact.last

theorem Stands.of_sweepFrom (stands : Stands reservations others foreign w held g) (fuel current killed : Nat)
    (outcome : Nat × ShapeWorld) (done : sweepFrom fuel w current killed = .ok outcome) :
    current ∈ g.order := by
  cases fuel with
  | zero => cases done
  | succ fuel =>
      unfold sweepFrom at done
      obtain ⟨shape, found, _⟩ := (Result.bind_ok _ _ _).mp done
      exact (stands.of_read current shape found).1

-- A round that removes a shape. The next round reads the one before it, so that this one is alive.
theorem Intact.remove (intact : Intact reservations others foreign w g) (p b : Nat)
    (above : (g.node p).shape.prevShapeInArena = some b) {w₁ w₂ : ShapeWorld}
    (forgotten : forgetShape w (some p) = .ok w₁) (gone : killShape w₁ (some p) = .ok w₂)
    (fuel killed : Nat) (outcome : Nat × ShapeWorld)
    (later : sweepFrom fuel w₂ b killed = .ok outcome) : ∃ g₂,
      Intact reservations others foreign w₂ g₂ ∧ (∀ x ∈ g₂.order, x ∈ g.order) ∧ g₂.flags = g.flags := by
  obtain ⟨held, stands⟩ := intact.heap
  obtain ⟨held₁, g₁, stands₁, order, flags, last₁⟩ := stands.of_forgetShape p b above forgotten
  have member : p ∈ g₁.order := by
    unfold killShape at gone
    obtain ⟨shape, found, _⟩ := (Result.bind_ok _ _ _).mp gone
    exact (stands₁.of_read p shape found).1
  obtain ⟨w₂', held₂, gone', last₂, stands₂⟩ := killShape_ok stands₁ p member
  obtain rfl := Except.ok.inj (gone.symm.trans gone')
  refine ⟨g₁.drop p, ⟨⟨held₂, stands₂⟩, fun _ => ?_⟩, fun x inside => ?_, flags⟩
  · rw [last₂, last₁]
    obtain ⟨last, there, ending⟩ := intact.last (List.ne_nil_of_mem (order ▸ member))
    by_cases here : some p = w.metaArena.lastAllocatedShape
    · rw [if_pos here]
      exact ⟨b, stands₂.of_sweepFrom fuel b killed outcome later, rfl⟩
    · rw [if_neg here]
      refine ⟨last, List.mem_filter.mpr ⟨order ▸ there, decide_eq_true fun same => here ?_⟩, ending⟩
      rw [ending, same]
  · exact order ▸ List.mem_of_mem_filter inside

theorem Intact.sweepFrom (fuel : Nat) (intact : Intact reservations others foreign w g)
    (current killed : Nat) (outcome : Nat × ShapeWorld)
    (done : sweepFrom fuel w current killed = .ok outcome) : ∃ g',
      Intact reservations others foreign outcome.2 g' ∧ (∀ x ∈ g'.order, x ∈ g.order) ∧
        g.KeepsVersions g' := by
  induction fuel generalizing w g current killed with
  | zero => cases done
  | succ fuel ih =>
      obtain ⟨held, stands⟩ := intact.heap
      unfold Shape.sweepFrom at done
      obtain ⟨shape, found, done⟩ := (Result.bind_ok _ _ _).mp done
      obtain ⟨member, rfl⟩ := stands.of_read current shape found
      cases above : (g.node current).shape.prevShapeInArena with
      | none =>
          rw [above] at done
          cases done
          exact ⟨g, intact, fun _ inside => inside, .refl g⟩
      | some b =>
          rw [above] at done
          dsimp only at done
          split at done
          next =>
            obtain ⟨w₁, forgotten, done⟩ := (Result.bind_ok _ _ _).mp done
            obtain ⟨w₂, gone, done⟩ := (Result.bind_ok _ _ _).mp done
            obtain ⟨g₂, intact₂, inside₂, flags⟩ :=
              intact.remove current b above forgotten gone fuel _ outcome done
            obtain ⟨g', intact', inside', keeps⟩ := ih intact₂ b _ done
            have keeps₂ := Graph.keepsVersions_of_subset inside₂ fun x _ => by rw [flags]
            exact ⟨g', intact', fun x listed => inside₂ x (inside' x listed), keeps₂.trans keeps inside'⟩
          next =>
            obtain ⟨w₁, cleared, done⟩ := (Result.bind_ok _ _ _).mp done
            have intact₁ := intact.reflag current
              (fun flags => flags &&& ~~~shapeFlags.isMarkedAlive) cleared
            obtain ⟨g', intact', inside', keeps⟩ := ih intact₁ b killed done
            have keeps₁ := Graph.reflag_keepsVersions current _
              (flag_version (g.flags current) shapeFlags.isMarkedAlive (by decide)).2
            exact ⟨g', intact', inside', keeps₁.trans keeps inside'⟩

theorem Intact.createRootShape (reserves : Reserves reservations)
    (intact : Intact reservations others foreign w g) (made : Nat × ShapeWorld)
    (done : createRootShape w = .ok made) : ∃ g',
      Intact reservations others foreign made.2 g' ∧ g.KeepsVersions g' := by
  obtain ⟨held, stands⟩ := intact.heap
  obtain ⟨held', fresh, stands', last⟩ := (stands.createRootShape_meets reserves).holds _ done
  refine ⟨g.plant made.1, ⟨⟨held', stands'⟩, fun _ => ⟨made.1, ?_, last⟩⟩,
    Graph.plant_keepsVersions made.1 fresh⟩
  exact List.mem_append_right _ (List.mem_singleton.mpr rfl)

theorem Intact.transitionShape (reserves : Reserves reservations)
    (intact : Intact reservations others foreign w g) (p : Nat) (propertyAtom : Atom)
    (offset : BitVec 16) (isReadonly isHidden isGetter isSetter : Bool) (made : Option Nat × ShapeWorld)
    (done : transitionShape w (some p) propertyAtom offset isReadonly isHidden isGetter isSetter =
      .ok made) : ∃ g', Intact reservations others foreign made.2 g' ∧ g.KeepsVersions g' := by
  obtain ⟨held, stands⟩ := intact.heap
  unfold Shape.transitionShape at done
  dsimp only at done
  obtain ⟨found, same, done⟩ := (Result.bind_ok _ _ _).mp done
  cases found with
  | some transition =>
      cases done
      exact ⟨g, intact, .refl g⟩
  | none =>
      have member : p ∈ g.order := by
        unfold sameTransition at same
        obtain ⟨shape, there, _⟩ := (Result.bind_ok _ _ _).mp same
        exact (stands.of_read p shape there).1
      obtain ⟨last, inside, ending⟩ := intact.last (List.ne_nil_of_mem member)
      obtain ⟨child, g₁, array, flags, slack, created⟩ := (stands.createTransition_meets reserves p last
        member inside ending propertyAtom offset isReadonly isHidden isGetter isSetter).holds _ done
      refine ⟨_, ⟨created.heap, fun _ => ⟨child, ?_, created.last⟩⟩, created.spawned.keepsVersions⟩
      rw [created.spawned.order]
      exact List.mem_append_right _ (List.mem_singleton.mpr rfl)

theorem Intact.perform (reserves : Reserves reservations)
    (intact : Intact reservations others foreign w g) (call : Call) (fuel : Nat)
    (done : perform fuel w call = .ok w') : ∃ g',
      Intact reservations others foreign w' g' ∧ g.KeepsVersions g' := by
  have reflagged (p : Nat) (change : BitVec 16 → BitVec 16) (flags : FlagCall call p change) :
      ∃ g', Intact reservations others foreign w' g' ∧ g.KeepsVersions g' := by
    rw [flags.performs] at done
    exact ⟨_, intact.reflag p change done, Graph.reflag_keepsVersions p _ (flags.version _)⟩
  cases call with
  | transitionShape p propertyAtom offset isReadonly isHidden isGetter isSetter =>
      obtain ⟨made, returned, same⟩ := (Result.bind_ok _ _ _).mp done
      cases same
      exact intact.transitionShape reserves p propertyAtom offset isReadonly isHidden isGetter isSetter
        made returned
  | markShapeAlive p => exact reflagged p _ (markShapeAlive_flagCall p)
  | setShapeFrozen p isFrozen => exact reflagged p _ (setShapeFrozen_flagCall p isFrozen)
  | setShapeHashTableMode p isHashTableMode =>
      exact reflagged p _ (setShapeHashTableMode_flagCall p isHashTableMode)
  | sweepOrphanedShapes =>
      obtain ⟨swept, returned, same⟩ := (Result.bind_ok _ _ _).mp done
      cases same
      unfold Shape.sweepOrphanedShapes at returned
      cases last : w.metaArena.lastAllocatedShape with
      | none =>
          rw [last] at returned
          cases returned
          exact ⟨g, intact, .refl g⟩
      | some last' =>
          rw [last] at returned
          obtain ⟨g', intact', _, keeps⟩ := intact.sweepFrom fuel last' 0 swept returned
          exact ⟨g', intact', keeps⟩

theorem Intact.versionOf_eq (intact : Intact reservations others foreign w g) (p : Nat) :
    versionOf w p = g.version p := by
  obtain ⟨held, stands⟩ := intact.heap
  unfold versionOf
  by_cases member : p ∈ g.order
  · rw [stands.shapeAt_eq p member, Graph.version_of_mem p member]
    rfl
  · have dead : shapeAt w p = none := by
      have gone := mt (stands.live_iff p).mp member
      unfold Live at gone
      simpa using gone
    rw [dead]
    exact (if_neg member).symm

end Returns

end Shape

end ElySquare
