import ElySquare.Meta.ShapeRun

set_option autoImplicit false

namespace ElySquare

/-- FieldPIC and MethodPIC: `found` is the offset of the one and the fnPtr of the other. -/
structure PIC where
  cachedShape : Option Nat
  expectedVersion : BitVec 16
  found : Nat
deriving DecidableEq, Repr

namespace PIC

open Shape Transition

def empty : PIC := ⟨none, 0#16, 0⟩

-- The fast and the slow path of both macros. `lookup` is the uncached lookup in the object.
def through (lookup : ShapeWorld → Option Nat → Result Nat) (w : ShapeWorld) (shape : Option Nat)
    (pic : PIC) : Result (Nat × PIC) := do
  let currentVersion ← getShapeEpoche w shape
  if shape = pic.cachedShape ∧ currentVersion = pic.expectedVersion then .ok (pic.found, pic)
  else do
    let found ← lookup w shape
    .ok (found, ⟨shape, currentVersion, found⟩)

-- getOffsetOf(fieldName), for an object with the given shape.
def getOffsetOf (fieldName : Atom) (w : ShapeWorld) (shape : Option Nat) : Result Nat := do
  let offset ← findPropertyOffset w shape fieldName
  .ok offset.toNat

-- getMethodPointerOf(methodName): some function of the properties of the shape.
def getMethodPointerOf (methodOf : Option (List PropertyDescriptor) → Nat) (w : ShapeWorld)
    (shape : Option Nat) : Result Nat :=
  match shape with
  | none => .ok (methodOf none)
  | some p => do
    let descriptors ← usedProperties w (← read w p)
    .ok (methodOf (some descriptors))

def dictGetField (fieldName : Atom) (w : ShapeWorld) (shape : Option Nat) (pic : PIC) :
    Result (Nat × PIC) := through (getOffsetOf fieldName) w shape pic

def callMethod (methodOf : Option (List PropertyDescriptor) → Nat) (w : ShapeWorld)
    (shape : Option Nat) (pic : PIC) : Result (Nat × PIC) :=
  through (getMethodPointerOf methodOf) w shape pic

inductive Site
  | field (fieldName : Atom)
  | method (methodOf : Option (List PropertyDescriptor) → Nat)

def Site.uncached (site : Site) (w : ShapeWorld) (shape : Option Nat) : Result Nat :=
  match site with
  | .field fieldName => getOffsetOf fieldName w shape
  | .method methodOf => getMethodPointerOf methodOf w shape

def Site.use (site : Site) (w : ShapeWorld) (shape : Option Nat) (pic : PIC) : Result (Nat × PIC) :=
  match site with
  | .field fieldName => dictGetField fieldName w shape pic
  | .method methodOf => callMethod methodOf w shape pic

theorem Site.use_eq (site : Site) : site.use = through site.uncached := by
  cases site <;> rfl

def Site.valueAt (site : Site) (layout : Option (List PropertyDescriptor)) : Nat :=
  match site with
  | .field fieldName =>
    match (layout.getD []).find? fun property => property.nameAtom = fieldName with
    | some property => property.offsetIndex.toNat
    | none => invalidIndex.toNat
  | .method methodOf => methodOf layout

def Current (w : ShapeWorld) (shape : Option Nat) : Prop := ∀ p, shape = some p → Live w p

structure State where
  run : Run
  pic : PIC

inductive SiteCall
  | arena (call : Call)
  | use (shape : Option Nat)

def system (reservations : Nat → Option Nat) (site : Site) : System State SiteCall where
  start s := (Shape.system reservations).start s.run ∧ s.pic = empty
  step s call t :=
    match call with
    | .arena call => (Shape.system reservations).step s.run call t.run ∧ t.pic = s.pic
    | .use shape => Current s.run.world shape ∧ t.run = s.run ∧
        ∃ found, site.use s.run.world shape s.pic = .ok (found, t.pic)

def Transparent (site : Site) (s : State) : Prop :=
  ∀ shape, Current s.run.world shape → ∃ found pic, site.use s.run.world shape s.pic = .ok (found, pic) ∧
    site.uncached s.run.world shape = .ok found

-- The call gives a new shape the address of a dead one that the site has cached.
def Revives (s : State) : SiteCall → Prop
  | .arena call => ∃ p fuel after, s.pic.cachedShape = some p ∧ ¬ Live s.run.world p ∧
      perform fuel s.run.world call = .ok after ∧ Live after p
  | .use _ => False

section Lookup

variable {reservations : Nat → Option Nat} {others : List PageManager.Chunk} {foreign : List Block}
  {root : Nat} {w : ShapeWorld} {g : Graph}

theorem Site.uncached_none (site : Site) (w : ShapeWorld) :
    site.uncached w none = .ok (site.valueAt none) := by
  cases site <;> rfl

theorem Site.uncached_ok (site : Site) (sane : Sane reservations others foreign root w g) (p : Nat)
    (member : p ∈ g.order) : site.uncached w (some p) = .ok (site.valueAt (some (g.properties p))) := by
  cases site with
  | field fieldName =>
      simp only [uncached, getOffsetOf, findPropertyOffset, getProperty, sane.reads p member, Result.ok_bind,
        sane.usedProperties_ok p member, valueAt, Option.getD_some]
      cases (g.properties p).find? fun property => property.nameAtom = fieldName <;> rfl
  | method methodOf =>
      simp only [uncached, getMethodPointerOf, sane.reads p member, Result.ok_bind,
        sane.usedProperties_ok p member, valueAt]

theorem getShapeEpoche_ok (sane : Sane reservations others foreign root w g)
    (zero : g.Unversioned) (p : Nat) (member : p ∈ g.order) : getShapeEpoche w (some p) = .ok 0#16 := by
  rw [getShapeEpoche, sane.reads p member, Result.ok_bind]
  exact congrArg Except.ok (zero p member)

/-- An entry is faithful when a hit on it gives what the lookup gives, and its version is the one that
every shape has. -/
structure Faithful (site : Site) (w : ShapeWorld) (pic : PIC) : Prop where
  found : Current w pic.cachedShape → getShapeEpoche w pic.cachedShape = .ok pic.expectedVersion →
    site.uncached w pic.cachedShape = .ok pic.found
  version : ∀ p, pic.cachedShape = some p → pic.expectedVersion = 0#16

theorem Faithful.empty (site : Site) (w : ShapeWorld) : Faithful site w empty :=
  ⟨fun _ version => by simp [PIC.empty, getShapeEpoche] at version, fun _ cached => by cases cached⟩

theorem lookup_ok (site : Site) (sane : Sane reservations others foreign root w g)
    (zero : g.Unversioned) (shape : Option Nat) (current : Current w shape) :
    ∃ found version, site.uncached w shape = .ok found ∧ getShapeEpoche w shape = .ok version ∧
      ∀ p, shape = some p → version = 0#16 := by
  cases shape with
  | none => exact ⟨_, _, site.uncached_none w, rfl, fun p here => by cases here⟩
  | some p =>
      have member := (sane.live_iff p).mp (current p rfl)
      exact ⟨_, _, site.uncached_ok sane p member, getShapeEpoche_ok sane zero p member, fun _ _ => rfl⟩

theorem use_faithful (site : Site) (sane : Sane reservations others foreign root w g)
    (zero : g.Unversioned) (pic : PIC) (faithful : Faithful site w pic) (shape : Option Nat)
    (current : Current w shape) : ∃ found pic', site.use w shape pic = .ok (found, pic') ∧
      site.uncached w shape = .ok found ∧ Faithful site w pic' := by
  obtain ⟨found, version, looked, epoch, versions⟩ := lookup_ok site sane zero shape current
  rw [site.use_eq, through, epoch, Result.ok_bind]
  by_cases hit : shape = pic.cachedShape ∧ version = pic.expectedVersion
  · obtain ⟨rfl, rfl⟩ := hit
    rw [if_pos ⟨rfl, rfl⟩]
    exact ⟨pic.found, pic, rfl, faithful.found current epoch, faithful⟩
  · rw [if_neg hit, looked]
    exact ⟨found, _, rfl, rfl, ⟨fun _ _ => looked, versions⟩⟩

theorem perform_faithful (reserves : Reserves reservations) (site : Site)
    (sane : Sane reservations others foreign root w g) (zero : g.Unversioned) (pic : PIC)
    (faithful : Faithful site w pic) (call : Call) (allowed : Allowed w call) (fuel : Nat)
    (w' : ShapeWorld) (done : perform fuel w call = .ok w')
    (stays : ∀ p, pic.cachedShape = some p → ¬ Live w p → ¬ Live w' p) : Faithful site w' pic := by
  obtain ⟨g', sane', evolves⟩ := (perform_meets reserves sane call allowed fuel).holds _ done
  refine ⟨fun current epoch => ?_, faithful.version⟩
  cases cached : pic.cachedShape with
  | none =>
      rw [cached] at epoch
      have found := faithful.found (fun p here => by simp [cached] at here) (by rw [cached]; exact epoch)
      rw [cached, site.uncached_none] at found
      rw [site.uncached_none, found]
  | some p =>
      have live' := current p cached
      have live : Live w p := by
        by_contra dead
        exact stays p cached dead live'
      have member := (sane.live_iff p).mp live
      have member' := (sane'.live_iff p).mp live'
      have found := faithful.found
        (fun q here => by rw [cached] at here; obtain rfl := Option.some.inj here; exact live)
        (by rw [cached, faithful.version p cached]; exact getShapeEpoche_ok sane zero p member)
      rw [cached, site.uncached_ok sane p member] at found
      rw [site.uncached_ok sane' p member', evolves.properties p member member', found]

end Lookup

section Reachable

variable {reservations : Nat → Option Nat}

theorem run_reached (site : Site) (s : State) (reached : (system reservations site).Reachable s) :
    (Shape.system reservations).Reachable s.run := by
  refine System.invariant _ (fun s : State => (Shape.system reservations).Reachable s.run) ?_ ?_ reached
  · exact fun s initial => .start initial.1
  · intro s call t earlier taken
    cases call with
    | arena call => exact earlier.step taken.1
    | use shape => exact taken.2.1 ▸ earlier

def steady (reservations : Nat → Option Nat) (site : Site) : System State SiteCall :=
  (system reservations site).restrict fun s call => ¬ Revives s call

theorem faithful_of_reachable (reserves : Reserves reservations) (site : Site) (s : State)
    (reached : (steady reservations site).Reachable s) : Faithful site s.run.world s.pic := by
  have both : (system reservations site).Reachable s ∧ Faithful site s.run.world s.pic := by
    refine System.invariant _ (fun s : State => (system reservations site).Reachable s ∧
      Faithful site s.run.world s.pic) ?_ ?_ reached
    · exact fun s initial => ⟨.start initial, initial.2 ▸ Faithful.empty site _⟩
    · rintro s call t ⟨earlier, faithful⟩ ⟨steady, taken⟩
      refine ⟨earlier.step taken, ?_⟩
      obtain ⟨others, foreign, g, sane, zero⟩ := sane_of_reachable reserves _ (run_reached site s earlier)
      cases call with
      | arena call =>
          obtain ⟨⟨allowed, _, fuel, done⟩, same⟩ := taken
          rw [same]
          exact perform_faithful reserves site sane zero s.pic faithful call allowed fuel _ done
            fun p cached dead live => steady ⟨p, fuel, _, cached, dead, done, live⟩
      | use shape =>
          obtain ⟨current, same, found, used⟩ := taken
          obtain ⟨_, _, used', _, faithful'⟩ := use_faithful site sane zero s.pic faithful shape current
          obtain ⟨_, rfl⟩ := Prod.mk.inj (Except.ok.inj (used.symm.trans used'))
          exact same ▸ faithful'
  exact both.2

theorem Faithful.transparent (reserves : Reserves reservations) (site : Site) (s : State)
    (reached : (system reservations site).Reachable s) (faithful : Faithful site s.run.world s.pic) :
    Transparent site s := by
  obtain ⟨others, foreign, g, sane, zero⟩ := sane_of_reachable reserves _ (run_reached site s reached)
  intro shape current
  obtain ⟨found, pic, used, looked, _⟩ := use_faithful site sane zero s.pic faithful shape current
  exact ⟨found, pic, used, looked⟩

theorem inline_cache (reserves : Reserves reservations) (site : Site) :
    (∀ s, (steady reservations site).Reachable s → Transparent site s) ∧
      ∀ s call t p, (steady reservations site).Reachable s →
        (system reservations site).step s (.arena call) t → s.pic.cachedShape = some p →
        ¬ Live s.run.world p → Live t.run.world p →
        (Transparent site t ↔ site.uncached t.run.world (some p) = .ok s.pic.found) := by
  have general (s : State) (reached : (steady reservations site).Reachable s) :=
    (system reservations site).restrict_reachable _ reached
  refine ⟨fun s reached => (faithful_of_reachable reserves site s reached).transparent reserves site s
    (general s reached), fun s call t p reached taken cached dead live => ?_⟩
  have faithful := faithful_of_reachable reserves site s reached
  have reached' := (general s reached).step taken
  obtain ⟨others, foreign, g, sane, zero⟩ := sane_of_reachable reserves _ (run_reached site t reached')
  have same : t.pic = s.pic := taken.2
  have version := faithful.version p cached
  have epoch := getShapeEpoche_ok sane zero p ((sane.live_iff p).mp live)
  constructor
  · intro transparent
    obtain ⟨found, pic, used, looked⟩ :=
      transparent (some p) fun q here => Option.some.inj here ▸ live
    rw [site.use_eq, through, epoch, Result.ok_bind, if_pos ⟨by rw [same, cached], by rw [same, version]⟩]
      at used
    obtain ⟨rfl, _⟩ := Prod.mk.inj (Except.ok.inj used)
    rw [looked, same]
  · intro looked
    refine Faithful.transparent reserves site t reached' ⟨fun _ _ => ?_, fun q here => ?_⟩
    · rw [same, cached]
      exact looked
    · rw [same, version]

end Reachable

-- A field is read, the shape is swept, and the next shape, with the same field elsewhere, is born
-- at its address.
theorem reuse_reached : ∃ s call t p, (steady PageManager.rowOfRegions (.field 5#32)).Reachable s ∧
    (system PageManager.rowOfRegions (.field 5#32)).step s (.arena call) t ∧
    s.pic.cachedShape = some p ∧ ¬ Live s.run.world p ∧ Live t.run.world p ∧ s.pic.found = 0 ∧
    dictGetField 5#32 t.run.world (some p) t.pic = .ok (0, t.pic) ∧
    Site.uncached (.field 5#32) t.run.world (some p) = .ok 7 := by
  obtain ⟨manager, start⟩ := onePage_start
  obtain ⟨world, born, swept, again, pic, made, live, done, alive, used, unmarked, next, ended, top,
      sweep, dead, live', done', alive', cached, stale, hit, fresh⟩ : ∃ world born swept again pic,
      createRootShape (MetaArena.onePage manager Heap.empty) = .ok (memoryChunkSize, world) ∧
      Live world memoryChunkSize ∧
      perform 0 world (.transitionShape memoryChunkSize 5#32 0#16 false false false false) = .ok born ∧
      Live born (memoryChunkSize + 96) ∧
      dictGetField 5#32 born (some (memoryChunkSize + 96)) empty = .ok (0, pic) ∧
      markedAlive born (memoryChunkSize + 96) = false ∧
      nextOf born memoryChunkSize = some (memoryChunkSize + 96) ∧
      nextOf born (memoryChunkSize + 96) = none ∧ parentOf born memoryChunkSize = none ∧
      perform 2 born .sweepOrphanedShapes = .ok swept ∧
      shapeAt swept (memoryChunkSize + 96) = none ∧ Live swept memoryChunkSize ∧
      perform 0 swept (.transitionShape memoryChunkSize 5#32 7#16 false false false false) = .ok again ∧
      Live again (memoryChunkSize + 96) ∧ pic.cachedShape = some (memoryChunkSize + 96) ∧ pic.found = 0 ∧
      dictGetField 5#32 again (some (memoryChunkSize + 96)) pic = .ok (0, pic) ∧
      Site.uncached (.field 5#32) again (some (memoryChunkSize + 96)) = .ok 7 :=
    ⟨_, _, _, _, _, rfl, rfl, rfl, rfl, rfl, rfl, rfl, rfl, rfl, rfl, rfl, rfl, rfl, rfl, rfl, rfl, rfl, rfl⟩
  have onward (before : State) (call : SiteCall) (after : State)
      (reached : (steady PageManager.rowOfRegions (.field 5#32)).Reachable before)
      (stays : ¬ Revives before call)
      (taken : (system PageManager.rowOfRegions (.field 5#32)).step before call after) :
      (steady PageManager.rowOfRegions (.field 5#32)).Reachable after := reached.step ⟨stays, taken⟩
  have first : (steady PageManager.rowOfRegions (.field 5#32)).Reachable
      ⟨⟨world, memoryChunkSize⟩, empty⟩ :=
    .start ⟨start _ _ made, rfl⟩
  have second := onward _ (.arena (.transitionShape memoryChunkSize 5#32 0#16 false false false false))
    ⟨⟨born, memoryChunkSize⟩, empty⟩ first (fun ⟨_, _, _, holds, _⟩ => (by cases holds))
    ⟨⟨live, rfl, 0, done⟩, rfl⟩
  have third := onward _ (.use (some (memoryChunkSize + 96))) ⟨⟨born, memoryChunkSize⟩, pic⟩ second id
    ⟨fun _ here => Option.some.inj here ▸ alive, rfl, 0, used⟩
  have closed := Shape.marks_closed_pair rowOfRegions_reserves _
    (run_reached _ _ (System.restrict_reachable _ _ third)) _ next ended top unmarked
  have fourth := onward _ (.arena .sweepOrphanedShapes) ⟨⟨swept, memoryChunkSize⟩, pic⟩ third
    (fun ⟨p, _, _, holds, gone, _⟩ => gone (Option.some.inj (cached.symm.trans holds) ▸ alive))
    ⟨⟨closed, rfl, 2, sweep⟩, rfl⟩
  refine ⟨_, .transitionShape memoryChunkSize 5#32 7#16 false false false false,
    ⟨⟨again, memoryChunkSize⟩, pic⟩, memoryChunkSize + 96, fourth, ⟨⟨live', rfl, 0, done'⟩, rfl⟩, cached, ?_,
    alive', stale, hit, fresh⟩
  simp [Live, dead]

-- The site then uses offset 0, where the field is at offset 7.
theorem field_hits_reused_shape : ∃ s p,
    (system PageManager.rowOfRegions (.field 5#32)).Reachable s ∧ Live s.run.world p ∧
      dictGetField 5#32 s.run.world (some p) s.pic = .ok (0, s.pic) ∧
      getOffsetOf 5#32 s.run.world (some p) = .ok 7 := by
  obtain ⟨s, call, t, p, reached, taken, _, _, live, _, hit, fresh⟩ := reuse_reached
  exact ⟨t, p, (System.restrict_reachable _ _ reached).step taken, live, hit, fresh⟩

theorem inline_cache_reuse : ∃ s call t, (steady PageManager.rowOfRegions (.field 5#32)).Reachable s ∧
    Transparent (.field 5#32) s ∧
    (system PageManager.rowOfRegions (.field 5#32)).step s (.arena call) t ∧
    ¬ Transparent (.field 5#32) t := by
  obtain ⟨s, call, t, p, reached, taken, cached, dead, live, stale, _, fresh⟩ := reuse_reached
  obtain ⟨holds, exact⟩ := inline_cache rowOfRegions_reserves (.field 5#32)
  refine ⟨s, call, t, reached, holds s reached, taken, fun transparent => ?_⟩
  have same := (exact s call t p reached taken cached dead live).mp transparent
  rw [fresh, stale] at same
  cases same

end PIC

end ElySquare
