import ElySquare.Meta.InlineCache
import ElySquare.Meta.ShapeCalls

set_option autoImplicit false

namespace ElySquare

namespace PIC

open Shape Transition

structure Program (Index : Type) where
  run : Run
  pics : Index → PIC

inductive ProgramCall (Index : Type)
  | arena (call : GraphCall)
  | use (i : Index) (shape : Option Nat)

section Sites

variable {Index : Type} [DecidableEq Index]

def programSystem (reservations : Nat → Option Nat) (sites : Index → Site) :
    System (Program Index) (ProgramCall Index) where
  start s := (graphSystem reservations).start s.run ∧ s.pics = fun _ => empty
  step s call t :=
    match call with
    | .arena call => (graphSystem reservations).step s.run call t.run ∧ t.pics = s.pics
    | .use i shape => Current s.run.world shape ∧ t.run = s.run ∧ ∃ found pic,
        (sites i).use s.run.world shape (s.pics i) = .ok (found, pic) ∧
          t.pics = Function.update s.pics i pic

def Hits (w : ShapeWorld) (pic : PIC) : Prop :=
  ∃ p, pic.cachedShape = some p ∧ Live w p ∧ getShapeEpoche w (some p) = .ok pic.expectedVersion

-- A call on the shapes after which a site would be served that would not have been before: the cached
-- address has become a shape's again, with the version that was cached.
def Renews (s : Program Index) : ProgramCall Index → Prop
  | .arena call => ∃ i fuel after, performGraph fuel s.run.world call = .ok after ∧
      ¬ Hits s.run.world (s.pics i) ∧ Hits after (s.pics i)
  | .use _ _ => False

def settled (reservations : Nat → Option Nat) (sites : Index → Site) :
    System (Program Index) (ProgramCall Index) :=
  (programSystem reservations sites).restrict fun s call => ¬ Renews s call

end Sites

theorem alters_properties {root : Nat} {g g' : Graph} (alters : g.Alters root g') (p : Nat)
    (member : p ∈ g.order) (inside : p ∈ g'.order) : g'.properties p = g.properties p := by
  cases alters with
  | same => rfl
  | spawned q _ _ _ _ _ _ _ child _ spawned => exact spawned.properties p member
  | reflagged q _ change _ => exact congrFun (Graph.reflag_properties q _) p
  | swept todo _ _ swept => exact swept.pruned.properties p inside

def Serves (site : Site) (w : ShapeWorld) (pic : PIC) : Prop :=
  (pic.cachedShape = none → pic.expectedVersion = 4095#16 → site.uncached w none = .ok pic.found) ∧
    ∀ p, pic.cachedShape = some p → Live w p → getShapeEpoche w (some p) = .ok pic.expectedVersion →
      site.uncached w (some p) = .ok pic.found

section Lookup

variable {reservations : Nat → Option Nat} {others : List PageManager.Chunk} {foreign : List Block}
  {root : Nat} {w w' : ShapeWorld} {g g' : Graph}

theorem Serves.empty (site : Site) (w : ShapeWorld) : Serves site w empty :=
  ⟨fun _ version => by simp [PIC.empty] at version, fun _ cached => by cases cached⟩

theorem lookup_total (site : Site) (sane : Sane reservations others foreign root w g) (shape : Option Nat)
    (current : Current w shape) :
    ∃ found version, site.uncached w shape = .ok found ∧ getShapeEpoche w shape = .ok version := by
  cases shape with
  | none => exact ⟨_, _, site.uncached_none w, rfl⟩
  | some p =>
      have member := (sane.live_iff p).mp (current p rfl)
      refine ⟨_, (g.node p).shape.shapeFlags >>> 4, site.uncached_ok sane p member, ?_⟩
      rw [getShapeEpoche, sane.reads p member, Result.ok_bind]

theorem use_serves (site : Site) (sane : Sane reservations others foreign root w g) (pic : PIC)
    (serves : Serves site w pic) (shape : Option Nat) (current : Current w shape) :
    ∃ found pic', site.use w shape pic = .ok (found, pic') ∧ site.uncached w shape = .ok found ∧
      Serves site w pic' := by
  obtain ⟨found, version, looked, epoch⟩ := lookup_total site sane shape current
  rw [site.use_eq, through, epoch, Result.ok_bind]
  by_cases hit : shape = pic.cachedShape ∧ version = pic.expectedVersion
  · obtain ⟨rfl, rfl⟩ := hit
    rw [if_pos ⟨rfl, rfl⟩]
    refine ⟨pic.found, pic, rfl, ?_, serves⟩
    cases cached : pic.cachedShape with
    | none =>
        rw [cached] at epoch
        exact serves.1 cached (Except.ok.inj epoch).symm
    | some p => exact serves.2 p cached (current p cached) (cached ▸ epoch)
  · rw [if_neg hit, looked]
    refine ⟨found, _, rfl, rfl, fun none _ => ?_, fun p here _ _ => ?_⟩
    · exact none ▸ looked
    · exact here ▸ looked

theorem performGraph_serves (reserves : Reserves reservations) (site : Site)
    (sane : Sane reservations others foreign root w g) (pic : PIC) (serves : Serves site w pic)
    (call : GraphCall) (allowed : GraphAllowed w call) (fuel : Nat)
    (done : performGraph fuel w call = .ok w') (stays : Hits w' pic → Hits w pic) :
    Serves site w' pic := by
  obtain ⟨g', sane', alters⟩ := (performGraph_meets reserves sane call allowed fuel).holds _ done
  refine ⟨fun none version => ?_, fun p cached live epoch => ?_⟩
  · rw [site.uncached_none, ← site.uncached_none w]
    exact serves.1 none version
  · obtain ⟨q, cached', live', epoch'⟩ := stays ⟨p, cached, live, epoch⟩
    cases cached.symm.trans cached'
    have member := (sane.live_iff p).mp live'
    have member' := (sane'.live_iff p).mp live
    have found := serves.2 p cached live' epoch'
    rw [site.uncached_ok sane p member] at found
    rw [site.uncached_ok sane' p member', alters_properties alters p member member', found]

end Lookup

section Reachable

variable {Index : Type} [DecidableEq Index] {reservations : Nat → Option Nat} {sites : Index → Site}

theorem shapes_reached (s : Program Index) (reached : (programSystem reservations sites).Reachable s) :
    (graphSystem reservations).Reachable s.run := by
  refine System.invariant _ (fun s : Program Index => (graphSystem reservations).Reachable s.run) ?_ ?_
    reached
  · exact fun s initial => .start initial.1
  · intro s call t earlier taken
    cases call with
    | arena call => exact earlier.step taken.1
    | use i shape => exact taken.2.1 ▸ earlier

theorem serves_of_reachable (reserves : Reserves reservations) (s : Program Index)
    (reached : (settled reservations sites).Reachable s) :
    (programSystem reservations sites).Reachable s ∧ ∀ i, Serves (sites i) s.run.world (s.pics i) := by
  refine System.invariant _ (fun s : Program Index => (programSystem reservations sites).Reachable s ∧
    ∀ i, Serves (sites i) s.run.world (s.pics i)) ?_ ?_ reached
  · refine fun s initial => ⟨.start initial, fun i => ?_⟩
    rw [initial.2]
    exact Serves.empty (sites i) _
  · rintro s call t ⟨earlier, serves⟩ ⟨settled, taken⟩
    refine ⟨earlier.step taken, fun i => ?_⟩
    obtain ⟨others, foreign, g, sane, _⟩ := described_of_reachable reserves _ (shapes_reached s earlier)
    cases call with
    | arena call =>
        obtain ⟨⟨allowed, _, fuel, done⟩, same⟩ := taken
        rw [same]
        refine performGraph_serves reserves (sites i) sane (s.pics i) (serves i) call allowed fuel done
          fun hits => ?_
        by_contra stale
        exact settled ⟨i, fuel, _, done, stale, hits⟩
    | use j shape =>
        obtain ⟨current, same, found, pic, used, stored⟩ := taken
        rw [same, stored]
        by_cases here : i = j
        · subst here
          obtain ⟨_, _, used', _, serves'⟩ := use_serves (sites i) sane (s.pics i) (serves i) shape current
          obtain ⟨_, rfl⟩ := Prod.mk.inj (Except.ok.inj (used.symm.trans used'))
          rw [Function.update_self]
          exact serves'
        · rw [Function.update_of_ne here]
          exact serves i

theorem Serves.transparent (reserves : Reserves reservations) (s : Program Index)
    (reached : (programSystem reservations sites).Reachable s) (i : Index)
    (serves : Serves (sites i) s.run.world (s.pics i)) : Transparent (sites i) ⟨s.run, s.pics i⟩ := by
  obtain ⟨others, foreign, g, sane, _⟩ := described_of_reachable reserves _ (shapes_reached s reached)
  intro shape current
  obtain ⟨found, pic, used, looked, _⟩ := use_serves (sites i) sane (s.pics i) serves shape current
  exact ⟨found, pic, used, looked⟩

theorem cache_sites (reserves : Reserves reservations) (sites : Index → Site) (s : Program Index)
    (reached : (settled reservations sites).Reachable s) :
    (∀ i, Transparent (sites i) ⟨s.run, s.pics i⟩) ∧
    ∀ call t i p, (programSystem reservations sites).step s (.arena call) t →
      (s.pics i).cachedShape = some p → Hits t.run.world (t.pics i) →
      (Transparent (sites i) ⟨t.run, t.pics i⟩ ↔
        (sites i).uncached t.run.world (some p) = .ok (s.pics i).found) := by
  obtain ⟨earlier, serves⟩ := serves_of_reachable reserves s reached
  refine ⟨fun i => (serves i).transparent reserves s earlier i, fun call t i p taken cached hits => ?_⟩
  have reached' := earlier.step taken
  obtain ⟨others, foreign, g, sane, _⟩ := described_of_reachable reserves _ (shapes_reached t reached')
  have same : t.pics = s.pics := taken.2
  obtain ⟨q, cached', live, epoch⟩ := hits
  rw [same] at cached' epoch
  cases cached.symm.trans cached'
  constructor
  · intro transparent
    obtain ⟨found, pic, used, looked⟩ :=
      transparent (some p) fun q here => Option.some.inj here ▸ live
    rw [(sites i).use_eq, through, epoch, Result.ok_bind, same, if_pos ⟨cached.symm, rfl⟩] at used
    obtain ⟨rfl, _⟩ := Prod.mk.inj (Except.ok.inj used)
    exact looked
  · intro looked
    refine Serves.transparent reserves t reached' i ⟨fun none => ?_, fun q here _ _ => ?_⟩
    · rw [same, cached] at none
      cases none
    · rw [same] at here ⊢
      cases cached.symm.trans here
      exact looked

end Reachable

theorem use_caches (site : Site) (w : ShapeWorld) (shape : Option Nat) (pic pic' : PIC) (found : Nat)
    (used : site.use w shape pic = .ok (found, pic')) : pic'.cachedShape = shape := by
  rw [site.use_eq, through] at used
  obtain ⟨version, _, used⟩ := (Result.bind_ok _ _ _).mp used
  by_cases hit : shape = pic.cachedShape ∧ version = pic.expectedVersion
  · rw [if_pos hit] at used
    cases used
    exact hit.1.symm
  · rw [if_neg hit] at used
    obtain ⟨_, _, used⟩ := (Result.bind_ok _ _ _).mp used
    cases used
    rfl

def twoFields (first : Bool) : Site := .field (if first then 5#32 else 6#32)

theorem cache_sites_pair : ∃ (s : Program Bool) (child : Nat), Live s.run.world child ∧
    (s.pics true).cachedShape = some child ∧ ∀ i, Transparent (twoFields i) ⟨s.run, s.pics i⟩ := by
  obtain ⟨world, born, initial, live, done, alive, _⟩ := first_transition
  have first : (settled PageManager.rowOfRegions twoFields).Reachable
      ⟨⟨world, memoryChunkSize⟩, fun _ => empty⟩ := .start ⟨initial, rfl⟩
  have second : (settled PageManager.rowOfRegions twoFields).step
      ⟨⟨world, memoryChunkSize⟩, fun _ => empty⟩
      (.arena (.on (.transitionShape memoryChunkSize 5#32 0#16 false false false false)))
      ⟨⟨born, memoryChunkSize⟩, fun _ => empty⟩ :=
    ⟨fun ⟨_, _, _, _, _, _, cached, _⟩ => (by cases cached), ⟨live, rfl, 0, done⟩, rfl⟩
  have current : Current born (some (memoryChunkSize + 96)) := fun _ here => Option.some.inj here ▸ alive
  obtain ⟨others, foreign, g, sane, _⟩ := described_of_reachable rowOfRegions_reserves _
    (shapes_reached _ (serves_of_reachable rowOfRegions_reserves _ (first.step second)).1)
  obtain ⟨found, pic, used, _⟩ :=
    use_serves (twoFields true) sane empty (Serves.empty _ _) (some (memoryChunkSize + 96)) current
  have third : (settled PageManager.rowOfRegions twoFields).step
      ⟨⟨born, memoryChunkSize⟩, fun _ => empty⟩ (.use true (some (memoryChunkSize + 96)))
      ⟨⟨born, memoryChunkSize⟩, Function.update (fun _ => empty) true pic⟩ :=
    ⟨id, current, rfl, found, pic, used, rfl⟩
  refine ⟨_, memoryChunkSize + 96, alive, ?_,
    (cache_sites rowOfRegions_reserves twoFields _ ((first.step second).step third)).1⟩
  exact use_caches _ _ _ _ _ _ used

end PIC

end ElySquare
