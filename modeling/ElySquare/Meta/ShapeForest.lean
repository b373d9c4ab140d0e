import ElySquare.Meta.ShapeRun

set_option autoImplicit false

namespace ElySquare

namespace Shape

open Linked Transition

inductive ForestCall
  | createRootShape
  | on (call : Call)
deriving DecidableEq, Repr

def Unplanted (reservations : Nat → Option Nat) (w : ShapeWorld) : Prop :=
  ∃ others foreign bins, MetaArena.Sound reservations w others foreign bins ∧
    (∀ p o, w.memory p ≠ some (.object o)) ∧ w.metaArena.lastAllocatedShape = none

def forestSystem (reservations : Nat → Option Nat) : System ShapeWorld ForestCall where
  start := Unplanted reservations
  step w call w' :=
    match call with
    | .createRootShape => ∃ root, createRootShape w = .ok (root, w')
    | .on call => Allowed w call ∧ ∃ fuel, perform fuel w call = .ok w'

def OnlyRoots (w : ShapeWorld) : Prop := ∀ p, Live w p → parentOf w p = none

def RootsFirst (w : ShapeWorld) (call : ForestCall) : Prop := call = .createRootShape → OnlyRoots w

-- The loop of the sweep comes to `p` and looks at its mark: `p` is on the way back from the last
-- allocated shape, and not the shape that ends it.
def Visited (w : ShapeWorld) (p : Nat) : Prop :=
  ∃ cells, Chain (prevOf w) w.metaArena.lastAllocatedShape cells ∧ p ∈ cells ∧ prevOf w p ≠ none

structure SweepReaches (w : ShapeWorld) : Prop where
  visited : ∀ p, Live w p → parentOf w p ≠ none → Visited w p
  removes : (∀ p, parentOf w p ≠ none → markedAlive w p = false) → ∃ killed after rounds,
    (∀ fuel, rounds ≤ fuel → sweepOrphanedShapes fuel w = .ok (killed, after)) ∧
      ∀ p, Live after p ↔ Live w p ∧ parentOf w p = none

section Reaches

variable {reservations : Nat → Option Nat} {others : List PageManager.Chunk} {foreign : List Block}
  {idle : List Nat} {root : Nat} {rest : List Nat} {w : ShapeWorld} {g : Graph}

theorem Planted.below_iff (planted : Planted reservations others foreign idle root rest w g) (p : Nat) :
    Live w p ∧ parentOf w p ≠ none ↔ p ∈ rest := by
  obtain ⟨held, stands⟩ := planted.heap
  constructor
  · rintro ⟨live, below⟩
    have member := (stands.live_iff p).mp live
    rw [stands.parentOf_eq p member, Ne, planted.roots p member] at below
    exact Classical.not_not.mp below
  · intro inside
    have member : p ∈ g.order := planted.order ▸ List.mem_append_right _ (List.mem_cons_of_mem _ inside)
    refine ⟨(stands.live_iff p).mpr member, ?_⟩
    rw [stands.parentOf_eq p member, Ne, planted.roots p member]
    exact fun outside => outside inside

theorem Planted.only_roots (planted : Planted reservations others foreign idle root [] w g) :
    OnlyRoots w := by
  intro p live
  by_contra below
  exact List.not_mem_nil ((planted.below_iff p).mp ⟨live, below⟩)

theorem Planted.visited (planted : Planted reservations others foreign idle root rest w g) (p : Nat)
    (inside : p ∈ rest) : Visited w p := by
  obtain ⟨held, stands⟩ := planted.heap
  have same (x : Nat) (listed : x ∈ root :: rest) : prevOf w x = g.prev x :=
    stands.prevOf_eq x (planted.order ▸ List.mem_append_right _ listed)
  refine ⟨(root :: rest).reverse, ?_, by simp [inside], ?_⟩
  · rw [planted.last]
    exact (planted.linked.backward.congr _ same).chain
  · obtain ⟨before, after, rfl⟩ := List.append_of_mem inside
    rw [same p (by simp)]
    have prev : g.prev p = (root :: before).getLast? :=
      Linked.Doubly.prev_eq (root :: before) after p planted.linked
    simp [prev]

theorem Planted.sweeps (planted : Planted reservations others foreign idle root rest w g)
    (closed : MarksClosed w) : ∃ killed after rounds,
      (∀ fuel, rounds ≤ fuel → sweepOrphanedShapes fuel w = .ok (killed, after)) ∧
        ∀ p, Live after p ↔ Live w p ∧ (parentOf w p = none ∨ markedAlive w p = true) := by
  obtain ⟨held, stands⟩ := planted.heap
  obtain ⟨killed, after, g', rest', done, planted', swept, _⟩ :=
    planted.sweepOrphanedShapes_ok closed g.order.length (Nat.le_refl _)
  obtain ⟨held', stands'⟩ := planted'.heap
  refine ⟨killed, after, g.order.length, fun fuel => sweepOrphanedShapes_enough _ fuel w _ done,
    fun p => ?_⟩
  rw [stands'.live_iff, swept.pruned.order, List.mem_filter, stands.live_iff]
  refine and_congr_right fun member => ?_
  rw [stands.parentOf_eq p member, planted.roots p member, stands.markedAlive_eq p member]
  simp [Graph.spares]

theorem Planted.reaches (planted : Planted reservations others foreign idle root rest w g) :
    SweepReaches w := by
  refine ⟨fun p live below => planted.visited p ((planted.below_iff p).mp ⟨live, below⟩),
    fun unmarked => ?_⟩
  have closed : MarksClosed w := fun p q marked above => by
    rw [unmarked p (by simp [above])] at marked
    cases marked
  obtain ⟨killed, after, rounds, done, left⟩ := planted.sweeps closed
  refine ⟨killed, after, rounds, done, fun p => (left p).trans (and_congr_right fun _ => ?_)⟩
  refine ⟨fun kept => kept.elim id fun marked => ?_, .inl⟩
  by_contra below
  rw [unmarked p below] at marked
  cases marked

theorem Unplanted.dead (unplanted : Unplanted reservations w) (p : Nat) : ¬ Live w p := by
  obtain ⟨_, _, _, _, blank, _⟩ := unplanted
  unfold Live shapeAt
  split
  next shape stored => exact (blank p _ stored).elim
  next => simp

theorem Unplanted.sweeps (unplanted : Unplanted reservations w) (fuel : Nat) :
    sweepOrphanedShapes fuel w = .ok (0, w) := by
  obtain ⟨_, _, _, _, _, last⟩ := unplanted
  unfold sweepOrphanedShapes
  rw [last]

theorem Unplanted.reaches (unplanted : Unplanted reservations w) : SweepReaches w :=
  ⟨fun p live => (unplanted.dead p live).elim, fun _ => ⟨0, w, 0, fun fuel _ => unplanted.sweeps fuel,
    fun p => iff_of_false (unplanted.dead p) fun both => unplanted.dead p both.1⟩⟩

end Reaches

section Perform

variable {reservations : Nat → Option Nat} {others : List PageManager.Chunk} {foreign : List Block}
  {idle : List Nat} {root : Nat} {rest : List Nat} {w : ShapeWorld} {g : Graph}

-- A root that is made when only roots are alive: the one before it is no longer in the list.
theorem Planted.createRootShape_meets (reserves : Reserves reservations)
    (planted : Planted reservations others foreign idle root [] w g) :
    Meets (createRootShape w) Stop.Starved fun made => ∃ g',
      Planted reservations others foreign (idle ++ [root]) made.1 [] made.2 g' := by
  obtain ⟨held, stands⟩ := planted.heap
  refine (stands.createRootShape_meets reserves).weaken ?_
  rintro ⟨ptr, after⟩ ⟨held', fresh, stands', last⟩
  refine ⟨g.plant ptr, ⟨held', stands'⟩, ?_, Graph.plant_linked, planted.branching.plant fresh,
    fun p inside => iff_of_true ?_ List.not_mem_nil, last⟩
  · exact congrArg (· ++ [ptr]) planted.order
  · rcases List.mem_append.mp inside with old | new
    · have other : p ≠ ptr := by
        rintro rfl
        exact fresh old
      rw [Graph.plant_parent_there p other]
      exact (planted.roots p old).mpr List.not_mem_nil
    · rw [List.mem_singleton.mp new, Graph.plant_parent_here]

theorem Planted.perform_meets (reserves : Reserves reservations)
    (planted : Planted reservations others foreign idle root rest w g) (call : Call)
    (allowed : Allowed w call) (fuel : Nat) : Meets (perform fuel w call) Stop.Starved fun w' =>
      ∃ rest' g', Planted reservations others foreign idle root rest' w' g' := by
  obtain ⟨held, stands⟩ := planted.heap
  have reflagged (p : Nat) (change : BitVec 16 → BitVec 16) (flags : FlagCall call p change) :
      Meets (perform fuel w call) Stop.Starved fun w' => ∃ rest' g',
        Planted reservations others foreign idle root rest' w' g' := by
    obtain ⟨w', done, planted'⟩ :=
      planted.reflag p ((stands.live_iff p).mp ((flags.allowed w).mp allowed)) change
    rw [flags.performs, done]
    exact (Meets.ok_iff _).mpr ⟨rest, _, planted'⟩
  cases call with
  | transitionShape p propertyAtom offset isReadonly isHidden isGetter isSetter =>
      refine Meets.bind (planted.transitionShape_meets reserves p ((stands.live_iff p).mp allowed)
        propertyAtom offset isReadonly isHidden isGetter isSetter) ?_
      rintro ⟨result, w'⟩ (⟨entry, _, same⟩ | ⟨_, child, g', _, planted', _⟩)
      · cases same
        exact (Meets.ok_iff _).mpr ⟨rest, g, planted⟩
      · exact (Meets.ok_iff _).mpr ⟨rest ++ [child], g', planted'⟩
  | markShapeAlive p => exact reflagged p _ (markShapeAlive_flagCall p)
  | setShapeFrozen p isFrozen => exact reflagged p _ (setShapeFrozen_flagCall p isFrozen)
  | setShapeHashTableMode p isHashTableMode =>
      exact reflagged p _ (setShapeHashTableMode_flagCall p isHashTableMode)
  | sweepOrphanedShapes =>
      obtain ⟨killed, w', g', rest', done, planted', _, _⟩ :=
        planted.sweepOrphanedShapes_ok allowed (fuel + g.order.length) (Nat.le_add_left _ _)
      refine Meets.bind (sweepOrphanedShapes_meets _ _ w _ done) ?_
      rintro _ rfl
      exact (Meets.ok_iff _).mpr ⟨rest', g', planted'⟩

end Perform

def Forested (reservations : Nat → Option Nat) (w : ShapeWorld) : Prop :=
  Unplanted reservations w ∨ ∃ others foreign idle root rest g,
    Planted reservations others foreign idle root rest w g

section Runs

variable {reservations : Nat → Option Nat} {w : ShapeWorld}

theorem Forested.reaches (forested : Forested reservations w) : SweepReaches w := by
  rcases forested with unplanted | ⟨_, _, _, _, _, _, planted⟩
  · exact unplanted.reaches
  · exact planted.reaches

theorem Forested.createRootShape (reserves : Reserves reservations)
    (forested : Forested reservations w) (only : OnlyRoots w) (root : Nat) (after : ShapeWorld)
    (made : createRootShape w = .ok (root, after)) : Forested reservations after := by
  right
  rcases forested with ⟨others, foreign, bins, sound, blank, _⟩ |
    ⟨others, foreign, idle, first, rest, g, planted⟩
  · obtain ⟨g, sane, _, order⟩ := (createRootShape_meets reserves bins sound blank).holds _ made
    exact ⟨others, foreign, [], root, [], g, sane.planted [] order⟩
  · have none : rest = [] := List.eq_nil_iff_forall_not_mem.mpr fun p inside => by
      obtain ⟨live, below⟩ := (planted.below_iff p).mpr inside
      exact below (only p live)
    subst none
    obtain ⟨g', planted'⟩ := (planted.createRootShape_meets reserves).holds _ made
    exact ⟨others, foreign, idle ++ [first], root, [], g', planted'⟩

theorem Forested.perform (reserves : Reserves reservations) (forested : Forested reservations w)
    (call : Call) (allowed : Allowed w call) (fuel : Nat) (after : ShapeWorld)
    (done : perform fuel w call = .ok after) : Forested reservations after := by
  rcases forested with unplanted | ⟨others, foreign, idle, root, rest, g, planted⟩
  · cases call with
    | sweepOrphanedShapes =>
        unfold Shape.perform at done
        dsimp only at done
        rw [unplanted.sweeps, Result.ok_bind] at done
        cases done
        exact .inl unplanted
    | transitionShape p _ _ _ _ _ _ => exact (unplanted.dead p allowed).elim
    | markShapeAlive p => exact (unplanted.dead p allowed).elim
    | setShapeFrozen p _ => exact (unplanted.dead p allowed).elim
    | setShapeHashTableMode p _ => exact (unplanted.dead p allowed).elim
  · obtain ⟨rest', g', planted'⟩ := (planted.perform_meets reserves call allowed fuel).holds _ done
    exact .inr ⟨others, foreign, idle, root, rest', g', planted'⟩

theorem forested_of_reachable (reserves : Reserves reservations) (w : ShapeWorld)
    (reached : ((forestSystem reservations).restrict RootsFirst).Reachable w) :
    Forested reservations w := by
  refine System.invariant _ (Forested reservations) (fun _ => .inl) ?_ reached
  rintro w (_ | call) w' forested ⟨first, taken⟩
  · obtain ⟨root, made⟩ := taken
    exact forested.createRootShape reserves (first rfl) root w' made
  · obtain ⟨allowed, fuel, done⟩ := taken
    exact forested.perform reserves call allowed fuel w' done

-- The way back from a new root ends at once, so that shapes below the others are not visited.
theorem Forested.only_roots (reserves : Reserves reservations) (forested : Forested reservations w)
    (root : Nat) (after : ShapeWorld) (made : Shape.createRootShape w = .ok (root, after))
    (reaches : SweepReaches after) : OnlyRoots w := by
  intro p live
  rcases forested with unplanted | ⟨others, foreign, idle, _, rest, g, planted⟩
  · exact (unplanted.dead p live).elim
  · obtain ⟨held, stands⟩ := planted.heap
    have member := (stands.live_iff p).mp live
    obtain ⟨held', fresh, stands', last⟩ := (stands.createRootShape_meets reserves).holds _ made
    have other : p ≠ root := fun here => fresh (here ▸ member)
    have inside : p ∈ (g.plant root).order := List.mem_append_left _ member
    have top : root ∈ (g.plant root).order := List.mem_append_right _ (List.mem_singleton.mpr rfl)
    by_contra below
    rw [stands.parentOf_eq p member] at below
    obtain ⟨cells, chain, listed, _⟩ := reaches.visited p ((stands'.live_iff p).mpr inside)
      (by rwa [stands'.parentOf_eq p inside, Graph.plant_parent_there p other])
    have ended : prevOf after root = none :=
      (stands'.prevOf_eq root top).trans Graph.plant_linked.backward.1
    rw [last] at chain
    rw [Chain.unique cells [root] chain ⟨rfl, ended⟩] at listed
    exact other (List.mem_singleton.mp listed)

theorem sweep_reaches (reserves : Reserves reservations) (w : ShapeWorld)
    (reached : ((forestSystem reservations).restrict RootsFirst).Reachable w) :
    SweepReaches w ∧ ∀ root after, createRootShape w = .ok (root, after) →
      (SweepReaches after ↔ OnlyRoots w) := by
  have forested := forested_of_reachable reserves w reached
  refine ⟨forested.reaches, fun root after made => ⟨forested.only_roots reserves root after made,
    fun only => ?_⟩⟩
  exact (forested.createRootShape reserves only root after made).reaches

end Runs

theorem sweep_reaches_pair : ∃ w child,
    ((forestSystem PageManager.rowOfRegions).restrict RootsFirst).Reachable w ∧
    parentOf w child = some memoryChunkSize ∧ SweepReaches w ∧
    ∀ root after, createRootShape w = .ok (root, after) → (SweepReaches after ↔ OnlyRoots w) := by
  obtain ⟨manager, sound⟩ := MetaArena.onePage_sound (Heap.empty : Heap ShapeObject)
  have blank : ∀ p o, (MetaArena.onePage manager Heap.empty : ShapeWorld).memory p ≠ some (.object o) :=
    fun _ _ there => by cases there
  obtain ⟨first, second, born, made, made', live, done, above⟩ : ∃ first second born,
      createRootShape (MetaArena.onePage manager Heap.empty) = .ok (memoryChunkSize, first) ∧
      createRootShape first = .ok (memoryChunkSize + 64, second) ∧ Live second memoryChunkSize ∧
      perform 0 second (.transitionShape memoryChunkSize 5#32 0#16 false false false false) = .ok born ∧
      parentOf born (memoryChunkSize + 160) = some memoryChunkSize :=
    ⟨_, _, _, rfl, rfl, rfl, rfl, rfl⟩
  have unplanted : Unplanted PageManager.rowOfRegions (MetaArena.onePage manager Heap.empty) :=
    ⟨[], [], _, sound, blank, rfl⟩
  have rooted : ((forestSystem PageManager.rowOfRegions).restrict RootsFirst).step
      (MetaArena.onePage manager Heap.empty) .createRootShape first :=
    ⟨fun _ p live => (unplanted.dead p live).elim, _, made⟩
  obtain ⟨g, sane, _, order⟩ :=
    (createRootShape_meets rowOfRegions_reserves _ sound blank).holds _ made
  have again : ((forestSystem PageManager.rowOfRegions).restrict RootsFirst).step first
      .createRootShape second := ⟨fun _ => (sane.planted [] order).only_roots, _, made'⟩
  have spawned : ((forestSystem PageManager.rowOfRegions).restrict RootsFirst).step second
      (.on (.transitionShape memoryChunkSize 5#32 0#16 false false false false)) born :=
    ⟨fun same => (by cases same), live, 0, done⟩
  have reached := (((System.Reachable.start unplanted).step rooted).step again).step spawned
  exact ⟨born, memoryChunkSize + 160, reached, above, sweep_reaches rowOfRegions_reserves born reached⟩

-- A shape below the first root is lost when the second is made: the sweep ends at once.
theorem sweep_loses_tree : ∃ w child, (forestSystem PageManager.rowOfRegions).Reachable w ∧
    (∀ p, parentOf w p ≠ none → markedAlive w p = false) ∧
    Live w child ∧ parentOf w child = some memoryChunkSize ∧
    (∀ fuel, sweepOrphanedShapes (fuel + 1) w = .ok (0, w)) ∧ ¬ SweepReaches w := by
  obtain ⟨manager, sound⟩ := MetaArena.onePage_sound (Heap.empty : Heap ShapeObject)
  have blank : ∀ p o, (MetaArena.onePage manager Heap.empty : ShapeWorld).memory p ≠ some (.object o) :=
    fun _ _ there => by cases there
  obtain ⟨first, born, root, second, made, live, done, next, ended, made', alive, above, dead, top, top',
      swept⟩ : ∃ first born root second,
      createRootShape (MetaArena.onePage manager Heap.empty) = .ok (memoryChunkSize, first) ∧
      Live first memoryChunkSize ∧
      perform 0 first (.transitionShape memoryChunkSize 5#32 0#16 false false false false) = .ok born ∧
      nextOf born memoryChunkSize = some (memoryChunkSize + 96) ∧
      nextOf born (memoryChunkSize + 96) = none ∧
      createRootShape born = .ok (root, second) ∧ Live second (memoryChunkSize + 96) ∧
      parentOf second (memoryChunkSize + 96) = some memoryChunkSize ∧
      markedAlive second (memoryChunkSize + 96) = false ∧ parentOf second memoryChunkSize = none ∧
      parentOf second root = none ∧ ∀ fuel, sweepOrphanedShapes (fuel + 1) second = .ok (0, second) :=
    ⟨_, _, _, _, rfl, rfl, rfl, rfl, rfl, rfl, rfl, rfl, rfl, rfl, rfl, fun _ => rfl⟩
  have unplanted : Unplanted PageManager.rowOfRegions (MetaArena.onePage manager Heap.empty) :=
    ⟨[], [], _, sound, blank, rfl⟩
  have rooted : (forestSystem PageManager.rowOfRegions).step (MetaArena.onePage manager Heap.empty)
      .createRootShape first := ⟨_, made⟩
  have spawned : (forestSystem PageManager.rowOfRegions).step first
      (.on (.transitionShape memoryChunkSize 5#32 0#16 false false false false)) born := ⟨live, 0, done⟩
  have again : (forestSystem PageManager.rowOfRegions).step born .createRootShape second := ⟨_, made'⟩
  have reached := (((System.Reachable.start unplanted).step rooted).step spawned).step again
  -- the shapes are the first root, the one below it, and the second root
  obtain ⟨_, sane, _, _⟩ := (createRootShape_meets rowOfRegions_reserves _ sound blank).holds _ made
  obtain ⟨g, sane', _⟩ := (perform_meets rowOfRegions_reserves sane
    (.transitionShape memoryChunkSize 5#32 0#16 false false false false) live 0).holds _ done
  have order : g.order = [memoryChunkSize, memoryChunkSize + 96] :=
    Chain.unique _ _ sane'.listed.linked.forward ⟨rfl, next, ended⟩
  obtain ⟨held, stands⟩ := sane'.heap
  obtain ⟨_, _, stands', _⟩ := (stands.createRootShape_meets rowOfRegions_reserves).holds _ made'
  have unmarked (p : Nat) (below : parentOf second p ≠ none) : markedAlive second p = false := by
    have inside : p ∈ (g.plant root).order := (stands'.live_iff p).mp (by
      unfold Live
      unfold parentOf at below
      cases found : shapeAt second p with
      | none => simp [found] at below
      | some shape => rfl)
    simp only [Graph.plant, Graph.append_order, order, List.cons_append, List.nil_append, List.mem_cons,
      List.not_mem_nil, or_false] at inside
    rcases inside with rfl | rfl | rfl
    · exact (below top).elim
    · exact dead
    · exact (below top').elim
  refine ⟨second, _, reached, unmarked, alive, above, swept, fun reaches => ?_⟩
  obtain ⟨killed, after, rounds, removed, left⟩ := reaches.removes unmarked
  obtain ⟨_, rfl⟩ := Prod.mk.inj
    (Except.ok.inj ((removed (rounds + 1) (Nat.le_add_right _ _)).symm.trans (swept rounds)))
  have orphan := ((left _).mp alive).2
  rw [above] at orphan
  cases orphan

end Shape

end ElySquare
