import ElySquare.Meta.MetaArenaPages
import ElySquare.Meta.ShapeRun

set_option autoImplicit false

namespace ElySquare

namespace Shape

open PageManager (Granted)
open MetaArena (Client metalloc metallocOr)
open Transition

structure Resource (property : ShapeWorld → Prop) : Prop where
  framed : ∀ w after : ShapeWorld, after.manager = w.manager →
    after.metaArena.arena = w.metaArena.arena → property w → property after
  metalloc : ∀ w size alignment ptr after, metalloc w size alignment = .ok (ptr, after) → property w →
    property after

def Retains (property : ShapeWorld → Prop) (result : Result ShapeWorld) : Prop :=
  Meets result (fun _ => True) property

def RetainsWith {α : Type} (property : ShapeWorld → Prop) (result : Result (α × ShapeWorld)) : Prop :=
  Meets result (fun _ => True) fun made => property made.2

section Retains

variable {property : ShapeWorld → Prop} {w : ShapeWorld}

theorem meets_any {α : Type} (result : Result α) : Meets result (fun _ => True) fun _ => True :=
  ⟨fun _ _ => trivial, fun _ _ => trivial⟩

theorem retains_after {α : Type} {result : Result α} {next : α → Result ShapeWorld}
    (rest : ∀ value, Retains property (next value)) : Retains property (result >>= next) :=
  (meets_any result).bind fun value _ => rest value

theorem retainsWith_after {α β : Type} {result : Result α} {next : α → Result (β × ShapeWorld)}
    (rest : ∀ value, RetainsWith property (next value)) : RetainsWith property (result >>= next) :=
  (meets_any result).bind fun value _ => rest value

theorem retains_ok (holds : property w) : Retains property (.ok w) := (Meets.ok_iff w).mpr holds

theorem retainsWith_ok {α : Type} (value : α) (holds : property w) : RetainsWith property (.ok (value, w)) :=
  (Meets.ok_iff _).mpr holds

theorem retains_error (stop : Stop) : Retains property (.error stop) := (Meets.error_iff stop).mpr trivial

theorem retainsWith_error {α : Type} (stop : Stop) : RetainsWith (α := α) property (.error stop) :=
  (Meets.error_iff stop).mpr trivial

namespace Resource

variable (resource : Resource property) (holds : property w)

include resource holds

theorem store (p : Nat) (value : ShapeObject) : property (store w p value) :=
  resource.framed w _ rfl rfl holds

theorem setLast (last : Option Nat) : property (setLastAllocatedShape w last) :=
  resource.framed w _ rfl rfl holds

theorem metarecycle (ptr size : Nat) : property (MetaArena.metarecycle w ptr size) := by
  by_cases zero : ptr = 0
  · refine resource.framed w _ ?_ ?_ holds <;> (unfold MetaArena.metarecycle; rw [if_pos zero])
  · rcases MetaArena.metarecycle_cases w ptr size zero with ⟨_, same⟩ | ⟨_, pushed⟩
    · rw [same]
      exact resource.framed w _ rfl rfl holds
    · rw [pushed]
      exact resource.framed w _ rfl rfl holds

theorem metallocOr (message : String) (size alignment : Nat) :
    RetainsWith property (metallocOr message w size alignment) := by
  have granted : RetainsWith property (MetaArena.metalloc w size alignment) :=
    ⟨fun made done => resource.metalloc w size alignment made.1 made.2 done holds, fun _ _ => trivial⟩
  refine Meets.bind granted ?_
  rintro ⟨ptr, after⟩ kept
  exact Meets.ite (fun _ => retainsWith_error _) fun _ => retainsWith_ok ptr kept

theorem modify (p : Nat) (change : Shape → Shape) : Retains property (modify w p change) :=
  retains_after fun _ => retains_ok (resource.store holds p _)

theorem writeProperty (p : Option Nat) (i : Nat) (descriptor : PropertyDescriptor) :
    Retains property (writeProperty w p i descriptor) :=
  retains_after fun _ => Meets.ite (fun _ => retains_ok (resource.store holds _ _)) fun _ => retains_error _

theorem writeTransition (p : Option Nat) (i : Nat) (entry : TransitionEntry) :
    Retains property (writeTransition w p i entry) :=
  retains_after fun _ => Meets.ite (fun _ => retains_ok (resource.store holds _ _)) fun _ => retains_error _

theorem makeShape (parent : Nat) (atomFlags : BitVec 16) :
    RetainsWith property (makeShape w parent atomFlags) := by
  refine Meets.bind (resource.metallocOr holds _ _ _) ?_
  rintro ⟨child, w₁⟩ holds
  have holds := resource.store holds child (.shape { zero with parentShape := some parent })
  dsimp only
  split
  · exact retainsWith_error _
  refine Meets.bind (resource.modify holds _ _) fun w₂ holds => ?_
  refine Meets.bind (resource.modify holds _ _) fun w₃ holds => retainsWith_after fun parentShape => ?_
  refine Meets.bind (resource.modify holds _ _) fun w₄ holds => ?_
  refine Meets.bind (resource.metallocOr holds _ _ _) ?_
  rintro ⟨propArray, w₅⟩ holds
  refine retainsWith_after fun copied => ?_
  refine Meets.bind (resource.modify (resource.store holds _ _) _ _) fun w₆ holds => ?_
  exact retainsWith_ok child (resource.setLast holds _)

theorem growTransitionTable (currentShape : Nat) :
    Retains property (growTransitionTable w currentShape) := by
  refine retains_after fun shape => Meets.ite (fun _ => retains_ok holds) fun _ => Meets.ite (fun _ => ?_) fun _ => ?_
  · refine Meets.bind (resource.metallocOr holds _ _ _) ?_
    rintro ⟨ptr, w₁⟩ holds
    exact resource.modify (resource.store holds _ _) _ _
  · refine Meets.ite (fun _ => retains_error _) fun _ => ?_
    refine Meets.bind (resource.metallocOr holds _ _ _) ?_
    rintro ⟨ptr, w₁⟩ holds
    refine retains_after fun entries => retains_after fun copied => ?_
    refine Meets.bind (resource.modify (resource.store holds _ _) _ _) fun w₂ holds => ?_
    have holds := resource.metarecycle holds (shape.transitionTable.getD 0)
      (sizeofTransitionEntry * shape.transitionCapacity)
    exact Meets.ite (fun _ => retains_error _) fun _ => resource.modify holds _ _

theorem createTransition (currentShape : Option Nat) (propertyAtom : Atom) (offset : BitVec 16)
    (isReadonly isHidden isGetter isSetter : Bool) :
    RetainsWith property
      (createTransition w currentShape propertyAtom offset isReadonly isHidden isGetter isSetter) := by
  cases currentShape with
  | none => exact retainsWith_ok none holds
  | some p =>
      refine retainsWith_after fun shape => ?_
      refine Meets.bind (resource.growTransitionTable holds p) fun w₁ holds => retainsWith_after fun shape' => ?_
      refine Meets.ite (fun _ => retainsWith_error _) fun _ => ?_
      refine Meets.bind (resource.makeShape holds _ _) ?_
      rintro ⟨child, w₂⟩ holds
      refine retainsWith_after fun childShape => ?_
      refine Meets.bind (resource.writeProperty holds _ _ _) fun w₃ holds => retainsWith_after fun shape'' => ?_
      refine Meets.bind (resource.writeTransition holds _ _ _) fun w₄ holds => ?_
      refine Meets.bind (resource.modify holds _ _) fun w₅ holds => ?_
      exact retainsWith_ok _ holds

theorem transitionShape (currentShape : Option Nat) (propertyAtom : Atom) (offset : BitVec 16)
    (isReadonly isHidden isGetter isSetter : Bool) :
    RetainsWith property
      (transitionShape w currentShape propertyAtom offset isReadonly isHidden isGetter isSetter) := by
  cases currentShape with
  | none => exact retainsWith_ok none holds
  | some p =>
      refine retainsWith_after fun found => ?_
      cases found with
      | some transition => exact retainsWith_ok _ holds
      | none => exact resource.createTransition holds (some p) propertyAtom offset _ _ _ _

theorem killShape (shape : Option Nat) : Retains property (killShape w shape) := by
  cases shape with
  | none => exact retains_ok holds
  | some p =>
      refine retains_after fun shape => retains_ok (resource.metarecycle ?_ _ _)
      split
      · refine resource.metarecycle ?_ _ _
        split
        · exact resource.metarecycle holds _ _
        · exact holds
      · split
        · exact resource.metarecycle holds _ _
        · exact holds

theorem unlink (shape : Shape) (prev : Nat) : Retains property (unlink w shape prev) := by
  unfold Shape.unlink
  split
  · exact Meets.bind (retains_ok holds) fun w₁ holds => resource.modify holds _ _
  · exact Meets.bind (resource.modify holds _ _) fun w₁ holds => resource.modify holds _ _

theorem forgetTransition (p parent : Nat) : Retains property (forgetTransition w p parent) := by
  refine retains_after fun parentShape => retains_after fun entries => ?_
  split
  · exact retains_error _
  · split
    · exact retains_error _
    · exact Meets.bind (resource.writeTransition holds _ _ _) fun w₁ holds => resource.modify holds _ _

theorem forgetShape (shape : Option Nat) : Retains property (forgetShape w shape) := by
  cases shape with
  | none => exact retains_ok holds
  | some p =>
      refine retains_after fun shape => ?_
      dsimp only
      split
      · exact Meets.ite (fun _ => retains_ok holds) fun _ => retains_error _
      · have holds (prev : Nat) : property (if some p = w.metaArena.lastAllocatedShape then
            setLastAllocatedShape w (some prev) else w) := by
          split
          · exact resource.setLast holds _
          · exact holds
        refine Meets.bind (resource.unlink (holds _) _ _) fun w₁ holds => ?_
        split
        · exact retains_error _
        · exact resource.forgetTransition holds _ _

theorem sweepFrom (fuel current killed : Nat) : RetainsWith property (sweepFrom fuel w current killed) := by
  induction fuel generalizing w current killed with
  | zero => exact retainsWith_error _
  | succ fuel ih =>
      refine retainsWith_after fun shape => ?_
      split
      · exact retainsWith_ok killed holds
      · refine Meets.ite (fun _ => ?_) fun _ => ?_
        · refine Meets.bind (resource.forgetShape holds _) fun w₁ holds => ?_
          exact Meets.bind (resource.killShape holds _) fun w₂ holds => ih holds _ _
        · exact Meets.bind (resource.modify holds _ _) fun w₁ holds => ih holds _ _

theorem perform (fuel : Nat) (call : Call) : Retains property (perform fuel w call) := by
  cases call with
  | transitionShape p propertyAtom offset isReadonly isHidden isGetter isSetter =>
      exact Meets.bind (resource.transitionShape holds (some p) propertyAtom offset _ _ _ _)
        fun _ holds => retains_ok holds
  | markShapeAlive p => exact resource.modify holds _ _
  | setShapeFrozen p isFrozen => exact resource.modify holds _ _
  | setShapeHashTableMode p isHashTableMode => exact resource.modify holds _ _
  | sweepOrphanedShapes =>
      have swept : RetainsWith property (sweepOrphanedShapes fuel w) := by
        unfold sweepOrphanedShapes
        split
        · exact retainsWith_ok 0 holds
        · exact resource.sweepFrom holds _ _ _
      exact Meets.bind swept fun _ holds => retains_ok holds

theorem createRootShape : RetainsWith property (createRootShape w) := by
  refine Meets.bind (resource.metallocOr holds _ _ _) ?_
  rintro ⟨ptr, w₁⟩ holds
  exact retainsWith_ok ptr (resource.setLast (resource.store holds _ _) _)

end Resource

end Retains

section Reachable

variable {reservations : Nat → Option Nat} {others : List PageManager.Chunk}

theorem client_resource (reserves : Reserves reservations) :
    Resource (Client reservations others) :=
  ⟨fun _ after manager arena client => client.framed after manager arena,
    fun _ size alignment ptr after made client => client.metalloc reserves size alignment ptr after made⟩

def bootSystem (reservations : Nat → Option Nat) (size : Nat) : System Run Call where
  start s := ∃ (pages : PageManager.Run) (before : ShapeWorld),
    (PageManager.system reservations).Reachable pages ∧
    MetaArena.construct pages.manager size Heap.empty = .ok before ∧
    createRootShape before = .ok (s.root, s.world)
  step := (system reservations).step

theorem boot_reachable (reserves : Reserves reservations) {size : Nat}
    (rounds : size + pageSize - 1 < 2 ^ 64) (s : Run)
    (reached : (bootSystem reservations size).Reachable s) : (system reservations).Reachable s ∧
      ∃ others foreign g, Sane reservations others foreign s.root s.world g ∧
        Client reservations others s.world := by
  induction reached with
  | start initial =>
      obtain ⟨pages, before, reached, built, made⟩ := initial
      have ledger := PageManager.ledger_of_reachable reservations reserves.regions pages reached
      have sound := MetaArena.Sound.construct_sound reserves size rounds _ _ ledger before built
      have empty : before.memory = Heap.empty := by
        obtain ⟨_, _, rest⟩ := (Result.bind_ok _ _ _).mp built
        cases rest
        rfl
      have blank (p : Nat) (o : ShapeObject) : before.memory p ≠ some (.object o) := by
        rw [empty]
        nofun
      have client := Client.construct reserves ⟨_, reached, .refl _⟩ size _ before built
      have made' := ((client_resource reserves).createRootShape client).holds _ made
      obtain ⟨g, sane, _⟩ := (createRootShape_meets reserves _ sound blank).holds _ made
      exact ⟨.start ⟨before, _, _, _, sound, blank, made⟩, _, _, g, sane, made'⟩
  | step _ taken ih =>
      obtain ⟨plain, others, foreign, g, sane, client⟩ := ih
      obtain ⟨g', sane', _⟩ := sane.step reserves taken
      refine ⟨plain.step taken, others, foreign, g', sane', ?_⟩
      obtain ⟨_, _, fuel, done⟩ := taken
      exact ((client_resource reserves).perform client fuel _).holds _ done

def ShapeByte (w : ShapeWorld) (x : Nat) : Prop :=
  ∃ p shape, shapeAt w p = some shape ∧
    ((p ≤ x ∧ x < p + sizeofShape) ∨
    (∃ a, shape.propArray = some a ∧ a ≤ x ∧
      x < a + sizeofPropertyDescriptor * shape.propertyCount) ∨
    ∃ t, shape.transitionTable = some t ∧ t ≤ x ∧
      x < t + sizeofTransitionEntry * shape.transitionCapacity)

theorem Sane.byte_live {foreign : List Block} {root : Nat} {w : ShapeWorld} {g : Graph}
    (sane : Sane reservations others foreign root w g) (x : Nat) (byte : ShapeByte w x) :
    ∃ live bins, MetaArena.Sound reservations w others live bins ∧ MetaArena.LiveByte live x := by
  obtain ⟨held, stands⟩ := sane.heap
  obtain ⟨live, bins, sound, listed⟩ := stands.keeps.blocks
  refine ⟨live, bins, sound, ?_⟩
  have block (p : Nat) (o : ShapeObject) (there : held p = some o) (above : p ≤ x)
      (below : x < p + Sized.size o) : MetaArena.LiveByte live x := by
    have alive : ⟨p, Sized.size o⟩ ∈ live := (listed _).mpr (.inr ⟨o, there, rfl⟩)
    have size := (alignSize_bounds _ (sound.small _ alive)).2.2.1
    exact ⟨_, alive, above, by dsimp only at size ⊢; omega⟩
  obtain ⟨p, shape, found, part⟩ := byte
  have member := (sane.live_iff p).mp (by rw [Live, found]; rfl)
  obtain rfl := Option.some.inj (found.symm.trans (sane.shapeAt_eq p member))
  have laid := stands.lays.laid p member
  rcases part with ⟨above, below⟩ | ⟨a, array, above, below⟩ | ⟨t, table, above, below⟩
  · exact block p _ laid.shape above below
  · rw [laid.propertyCount] at below
    exact block a _ (laid.propArray.there a array) above below
  · rw [laid.transitionCapacity, ← List.length_append] at below
    exact block t _ (laid.table.there t table) above below

theorem shapes_committed (reserves : Reserves reservations) {size : Nat}
    (rounds : size + pageSize - 1 < 2 ^ 64) (os : Os) (granted : Nat → Bool) (s : Run)
    (reached : (bootSystem reservations size).Reachable s)
    (all : Granted granted s.world.manager.osCalls) (x : Nat) (byte : ShapeByte s.world x) :
    (os.after granted s.world.manager.osCalls).protection (x / pageSize) = .readWrite := by
  obtain ⟨_, others, foreign, g, sane, client⟩ := boot_reachable reserves rounds s reached
  obtain ⟨live, bins, sound, b, alive, above, below⟩ := sane.byte_live x byte
  obtain ⟨c, member, first, last⟩ := sound.chunk_of b alive
  exact client.writable reserves os granted all c member x (by omega) (by omega)

end Reachable

theorem shapes_committed_child : ∃ s, (bootSystem PageManager.rowOfRegions pageSize).Reachable s ∧
    ShapeByte s.world (memoryChunkSize + 167) ∧
    (Os.after ⟨fun _ => .noAccess⟩ (fun _ => true) s.world.manager.osCalls).protection
      ((memoryChunkSize + 167) / pageSize) = .readWrite := by
  obtain ⟨fresh, manager, first, built⟩ := MetaArena.onePage_built (Heap.empty : Heap ShapeObject)
  obtain ⟨world, made, live, born, done, shape, found, array, count⟩ : ∃ world,
      createRootShape (MetaArena.onePage manager Heap.empty) = .ok (memoryChunkSize, world) ∧
      Live world memoryChunkSize ∧ ∃ born,
        perform 0 world (.transitionShape memoryChunkSize 5#32 0#16 false false false false) = .ok born ∧
        ∃ shape, shapeAt born (memoryChunkSize + 96) = some shape ∧
          shape.propArray = some (memoryChunkSize + 160) ∧ shape.propertyCount = 1 :=
    ⟨_, rfl, rfl, _, rfl, _, rfl, rfl, rfl⟩
  have started : (bootSystem PageManager.rowOfRegions pageSize).Reachable ⟨world, memoryChunkSize⟩ :=
    .start ⟨⟨fresh, []⟩, _, .start ⟨_, first, rfl⟩, built, made⟩
  have taken : (bootSystem PageManager.rowOfRegions pageSize).step ⟨world, memoryChunkSize⟩
      (.transitionShape memoryChunkSize 5#32 0#16 false false false false) ⟨born, memoryChunkSize⟩ :=
    ⟨live, rfl, 0, done⟩
  have reached := started.step taken
  have byte : ShapeByte born (memoryChunkSize + 167) :=
    ⟨_, shape, found, .inr (.inl ⟨_, array, by omega, by rw [count]; decide⟩)⟩
  exact ⟨_, reached, byte, shapes_committed rowOfRegions_reserves (by decide) _ _ _ reached
    (fun _ _ _ _ => rfl) _ byte⟩

end Shape

end ElySquare
