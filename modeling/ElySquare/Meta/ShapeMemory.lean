import ElySquare.Meta.ShapeRun

set_option autoImplicit false

namespace ElySquare

namespace Shape

open Linked Transition

inductive Part
  | shape
  | propArray
  | transitionTable
deriving DecidableEq, Repr

def blockOf (shape : Shape) (p : Nat) : Part → Option Nat
  | .shape => some p
  | .propArray => shape.propArray
  | .transitionTable => shape.transitionTable

def Owns (w : ShapeWorld) (p : Nat) (part : Part) (x : Nat) : Prop :=
  ∃ shape, shapeAt w p = some shape ∧ blockOf shape p part = some x

def OnFreeList (w : ShapeWorld) (i x : Nat) : Prop :=
  ∃ cells, Chain (MetaArena.follow w.memory) (w.metaArena.freeListHead i) cells ∧ x ∈ cells

inductive Place
  | owned
  | free
  | abandoned
deriving DecidableEq, Repr

-- Where a block is that metalloc gave out for `size`: with a live shape, on the list of the bucket
-- of its rounded size, or given back and too large for every bucket.
def At (w : ShapeWorld) (x size : Nat) : Place → Prop
  | .owned => ∃ p part, Owns w p part x
  | .free => getBucketIndex (alignSize size) < numBuckets ∧
      OnFreeList w (getBucketIndex (alignSize size)) x
  | .abandoned => numBuckets ≤ getBucketIndex (alignSize size) ∧
      ∃ size', Loans.last w.calls x = some (.returned x size')

structure Conserved (w : ShapeWorld) : Prop where
  place : ∀ x size, .lent x size ∈ w.calls → ∃! place, At w x size place
  single : ∀ x p part q part', Owns w p part x → Owns w q part' x → p = q ∧ part = part'
  obtained : ∀ x p part, Owns w p part x → ∃ size, Loans.last w.calls x = some (.lent x size)
  lists : ∀ x size i, .lent x size ∈ w.calls → i < numBuckets → OnFreeList w i x →
    i = getBucketIndex (alignSize size)
  recycles : ∀ later x size earlier, w.calls = later ++ .returned x size :: earlier →
    ∃ used, Loans.last earlier x = some (.lent x used) ∧ alignSize used = alignSize size

section Memory

variable {reservations : Nat → Option Nat} {others : List PageManager.Chunk} {root : Nat}
  {w : ShapeWorld} {g : Graph} {held : Nat → Option ShapeObject}

theorem Sane.owns_iff (sane : Sane reservations others [] root w g) (p x : Nat) :
    (∃ part, Owns w p part x) ↔ p ∈ g.order ∧ (g.node p).Owns p x := by
  constructor
  · rintro ⟨part, shape, found, points⟩
    have member : p ∈ g.order := (sane.live_iff p).mp (by rw [Live, found]; rfl)
    obtain rfl := Option.some.inj (found.symm.trans (sane.shapeAt_eq p member))
    refine ⟨member, ?_⟩
    cases part with
    | shape => exact .inl (Option.some.inj points).symm
    | propArray => exact .inr (.inl points)
    | transitionTable => exact .inr (.inr points)
  · rintro ⟨member, here | array | table⟩
    · exact ⟨.shape, _, sane.shapeAt_eq p member, congrArg some here.symm⟩
    · exact ⟨.propArray, _, sane.shapeAt_eq p member, array⟩
    · exact ⟨.transitionTable, _, sane.shapeAt_eq p member, table⟩

theorem Sane.single (sane : Sane reservations others [] root w g) (x p : Nat) (part : Part) (q : Nat)
    (part' : Part) (own : Owns w p part x) (own' : Owns w q part' x) : p = q ∧ part = part' := by
  obtain ⟨held, stands⟩ := sane.heap
  obtain ⟨member, ownP⟩ := (sane.owns_iff p x).mp ⟨part, own⟩
  obtain ⟨member', ownQ⟩ := (sane.owns_iff q x).mp ⟨part', own'⟩
  obtain rfl := stands.lays.owned p member q member' x ownP ownQ
  refine ⟨rfl, ?_⟩
  obtain ⟨kindP, kindT, kindX⟩ := (stands.lays.laid p member).kinds
  obtain ⟨shape, found, points⟩ := own
  obtain ⟨shape', found', points'⟩ := own'
  obtain rfl := Option.some.inj (found.symm.trans (sane.shapeAt_eq p member))
  obtain rfl := Option.some.inj (found'.symm.trans (sane.shapeAt_eq p member))
  cases part <;> cases part' <;> simp only [blockOf, Option.some.injEq] at points points'
  · rfl
  · exact (kindP (points ▸ points')).elim
  · exact (kindT (points ▸ points')).elim
  · exact (kindP (points' ▸ points)).elim
  · rfl
  · exact (kindX x points points').elim
  · exact (kindT (points' ▸ points)).elim
  · exact (kindX x points' points).elim
  · rfl

theorem Sane.owned_iff (sane : Sane reservations others [] root w g) : ∃ live bins,
    MetaArena.Sound reservations w others live bins ∧
    ∀ x, (∃ p part, Owns w p part x) ↔ ∃ size, Loans.last w.calls x = some (.lent x size) := by
  obtain ⟨held, stands⟩ := sane.heap
  obtain ⟨live, bins, sound, listed⟩ := stands.keeps.blocks
  refine ⟨live, bins, sound, fun x => ⟨?_, ?_⟩⟩
  · rintro ⟨p, part, own⟩
    obtain ⟨member, own'⟩ := (sane.owns_iff p x).mp ⟨part, own⟩
    obtain ⟨o, there⟩ :=
      Option.ne_none_iff_exists'.mp ((stands.lays.laid p member).taken x own')
    have alive : ⟨x, Sized.size o⟩ ∈ live := (listed _).mpr (.inr ⟨o, there, rfl⟩)
    exact ⟨_, (sound.booked.inUse _).mp alive⟩
  · rintro ⟨size, out⟩
    have alive := (sound.booked.inUse ⟨x, size⟩).mpr out
    rcases (listed _).mp alive with foreign | ⟨o, there, _⟩
    · cases foreign
    · obtain ⟨p, member, own⟩ := stands.covers x (by rw [there]; exact Option.some_ne_none o)
      obtain ⟨part, own'⟩ := (sane.owns_iff p x).mpr ⟨member, own⟩
      exact ⟨p, part, own'⟩

theorem onFreeList_iff {live : List Block} {bins : Nat → List Nat}
    (sound : MetaArena.Sound reservations w others live bins) (i x : Nat) (bound : i < numBuckets) :
    OnFreeList w i x ↔ ∃ size, Loans.last w.calls x = some (.returned x size) ∧
      alignSize size = 16 * (i + 1) := by
  rw [← sound.booked.listed i x bound]
  constructor
  · rintro ⟨cells, chain, member⟩
    rwa [Chain.unique _ _ chain (sound.linked i bound)] at member
  · exact fun member => ⟨_, sound.linked i bound, member⟩

theorem Sane.conserved (sane : Sane reservations others [] root w g) : Conserved w := by
  obtain ⟨live, bins, sound, owned⟩ := sane.owned_iff
  have legal := sound.booked.legal
  have large (x : Nat) (event : Loans.Event Nat Nat) (found : Loans.last w.calls x = some event) :=
    (sound.booked.inside x event found).1
  refine ⟨fun x size given => ?_, sane.single, fun x p part own => (owned x).mp ⟨p, part, own⟩,
    fun x size i given bound free => ?_, fun later x size earlier split =>
    legal.lawful _ later _ earlier split⟩
  · obtain ⟨newest, found, same⟩ := legal.same_class _ given
    have key := Loans.last_key found
    cases newest with
    | lent y used =>
        obtain rfl : y = x := key
        refine ⟨.owned, (owned y).mpr ⟨used, found⟩, fun place here => ?_⟩
        cases place with
        | owned => rfl
        | free =>
            obtain ⟨size', found', _⟩ := (onFreeList_iff sound _ y here.1).mp here.2
            cases found.symm.trans found'
        | abandoned =>
            obtain ⟨_, size', found'⟩ := here
            cases found.symm.trans found'
    | returned y used =>
        obtain rfl : y = x := key
        change alignSize used = alignSize size at same
        have away (own : ∃ p part, Owns w p part y) : False := by
          obtain ⟨size', found'⟩ := (owned y).mp own
          cases found.symm.trans found'
        have rounds := (getBucketIndex_eq used (large y (.returned y used) found)
          (getBucketIndex (alignSize size))).mp (by rw [same])
        by_cases bound : getBucketIndex (alignSize size) < numBuckets
        · refine ⟨.free, ⟨bound, (onFreeList_iff sound _ y bound).mpr
            ⟨used, found, rounds⟩⟩, fun place here => ?_⟩
          cases place with
          | owned => exact (away here).elim
          | free => rfl
          | abandoned => exact absurd bound (Nat.not_lt.mpr here.1)
        · refine ⟨.abandoned, ⟨Nat.not_lt.mp bound, used, found⟩, fun place here => ?_⟩
          cases place with
          | owned => exact (away here).elim
          | free => exact absurd here.1 bound
          | abandoned => rfl
  · obtain ⟨newest, found, same⟩ := legal.same_class _ given
    obtain ⟨used, found', rounds⟩ := (onFreeList_iff sound i x bound).mp free
    obtain rfl := Option.some.inj (found.symm.trans found')
    change alignSize used = alignSize size at same
    rw [← same]
    exact ((getBucketIndex_eq used (large x (.returned x used) found) i).mpr rounds).symm

end Memory

def soleSystem (reservations : Nat → Option Nat) : System Run Call where
  start s := ∃ (before : ShapeWorld) (others : List PageManager.Chunk) (bins : Nat → List Nat),
    MetaArena.Sound reservations before others [] bins ∧
    (∀ p o, before.memory p ≠ some (.object o)) ∧ createRootShape before = .ok (s.root, s.world)
  step := (system reservations).step

section Runs

variable {reservations : Nat → Option Nat}

theorem sole_reachable (s : Run) (reached : (soleSystem reservations).Reachable s) :
    (system reservations).Reachable s := by
  induction reached with
  | start initial =>
      obtain ⟨before, others, bins, begun⟩ := initial
      exact .start ⟨before, others, [], bins, begun⟩
  | step _ taken ih => exact .step ih taken

theorem sole_sane (reserves : Reserves reservations) (s : Run)
    (reached : (soleSystem reservations).Reachable s) :
    ∃ others g, Sane reservations others [] s.root s.world g := by
  induction reached with
  | start initial =>
      obtain ⟨before, others, bins, sound, blank, made⟩ := initial
      obtain ⟨g, sane, _⟩ := (createRootShape_meets reserves bins sound blank).holds _ made
      exact ⟨others, g, sane⟩
  | step _ taken ih =>
      obtain ⟨others, g, sane⟩ := ih
      obtain ⟨g', sane', _⟩ := sane.step reserves taken
      exact ⟨others, g', sane'⟩

theorem shape_memory (reserves : Reserves reservations) (s : Run)
    (reached : (soleSystem reservations).Reachable s) : Conserved s.world := by
  obtain ⟨_, _, sane⟩ := sole_sane reserves s reached
  exact sane.conserved

end Runs

theorem shape_memory_swept : ∃ s, (soleSystem PageManager.rowOfRegions).Reachable s ∧
    .returned (memoryChunkSize + 96) 64 ∈ s.world.calls ∧ Conserved s.world := by
  obtain ⟨manager, sound⟩ := MetaArena.onePage_sound (Heap.empty : Heap ShapeObject)
  obtain ⟨world, born, swept, made, live, done, unmarked, next, ended, top, sweep, calls⟩ :
      ∃ world born swept,
      createRootShape (MetaArena.onePage manager Heap.empty) = .ok (memoryChunkSize, world) ∧
      Live world memoryChunkSize ∧
      perform 0 world (.transitionShape memoryChunkSize 5#32 0#16 false false false false) = .ok born ∧
      markedAlive born (memoryChunkSize + 96) = false ∧
      nextOf born memoryChunkSize = some (memoryChunkSize + 96) ∧
      nextOf born (memoryChunkSize + 96) = none ∧ parentOf born memoryChunkSize = none ∧
      perform 2 born .sweepOrphanedShapes = .ok swept ∧
      swept.calls = [.returned (memoryChunkSize + 96) 64, .returned (memoryChunkSize + 160) 8,
        .lent (memoryChunkSize + 160) 8, .lent (memoryChunkSize + 96) 64,
        .lent (memoryChunkSize + 64) 32, .lent memoryChunkSize 64] :=
    ⟨_, _, _, rfl, rfl, rfl, rfl, rfl, rfl, rfl, rfl, rfl⟩
  have first : (soleSystem PageManager.rowOfRegions).Reachable ⟨world, memoryChunkSize⟩ :=
    .start ⟨_, [], _, sound, fun _ _ h => (by cases h), made⟩
  have spawned : (soleSystem PageManager.rowOfRegions).step ⟨world, memoryChunkSize⟩
    (.transitionShape memoryChunkSize 5#32 0#16 false false false false) ⟨born, memoryChunkSize⟩ :=
    ⟨live, rfl, 0, done⟩
  have second := first.step spawned
  have closed := marks_closed_pair rowOfRegions_reserves _ (sole_reachable _ second) _ next
    ended top unmarked
  have removed : (soleSystem PageManager.rowOfRegions).step ⟨born, memoryChunkSize⟩
    .sweepOrphanedShapes ⟨swept, memoryChunkSize⟩ := ⟨closed, rfl, 2, sweep⟩
  have third := second.step removed
  refine ⟨_, third, ?_, shape_memory rowOfRegions_reserves _ third⟩
  rw [calls]
  exact List.mem_cons_self

end Shape

end ElySquare
