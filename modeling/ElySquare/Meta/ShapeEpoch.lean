import ElySquare.Meta.ShapeIntact

set_option autoImplicit false

namespace ElySquare

namespace Shape

open Transition

inductive EpochCall
  | createRootShape
  | setShapeEpoche (p : Nat) (int12ValueOfEpoche : BitVec 16)
  | on (call : Call)
deriving DecidableEq, Repr

def performEpoch (fuel : Nat) (w : ShapeWorld) : EpochCall → Result ShapeWorld
  | .createRootShape => do
    let (_, w) ← createRootShape w
    .ok w
  | .setShapeEpoche p int12ValueOfEpoche => setShapeEpoche w (some p) int12ValueOfEpoche
  | .on call => perform fuel w call

structure Versioned where
  world : ShapeWorld
  epoch : Nat → BitVec 16

def Versioned.next (s : Versioned) : EpochCall → Nat → BitVec 16
  | .setShapeEpoche q int12ValueOfEpoche, p =>
    if p = q then int12ValueOfEpoche &&& 0xFFF#16 else s.epoch p
  | _, p => if (shapeAt s.world p).isSome then s.epoch p else 0#16

/-- Every run of calls that return, sweeps with any marks and roots at any time included. -/
def epochSystem (reservations : Nat → Option Nat) : System Versioned EpochCall where
  start s := Unplanted reservations s.world
  step s call t := (∃ fuel, performEpoch fuel s.world call = .ok t.world) ∧ t.epoch = s.next call

def EpochsRight (s : Versioned) : Prop :=
  ∀ p, Live s.world p → getShapeEpoche s.world (some p) = .ok (s.epoch p)

structure FlagsKept (before after : ShapeWorld) : Prop where
  alive : ∀ p, (shapeAt after p).any isShapeAlive = (shapeAt before p).any isShapeAlive
  accessors : ∀ p, (shapeAt after p).any hasShapeAccessors = (shapeAt before p).any hasShapeAccessors
  frozen : ∀ p, (shapeAt after p).any isShapeFrozen = (shapeAt before p).any isShapeFrozen
  hashTable : ∀ p,
    (shapeAt after p).any isShapeHashTableMode = (shapeAt before p).any isShapeHashTableMode

-- Bits 12, 13 and 15 of an epoch are not looked at. Of the others only the bits 0, 2, 4, 7 and 14
-- get into the flags, and there bit 14 is bit 10 of the epoch that is read back.
def Settable (s : Versioned) : EpochCall → Prop
  | .setShapeEpoche p int12ValueOfEpoche =>
    int12ValueOfEpoche &&& 0x4FFF#16 = s.epoch p ∨ int12ValueOfEpoche &&& 0x4FFF#16 = 0x4400#16
  | _ => True

section Words

variable (epoch int12ValueOfEpoche : BitVec 16)

theorem word_eq_iff (x y : BitVec 16) : x = y ↔ ∀ i < 16, x.getLsbD i = y.getLsbD i :=
  ⟨fun same _ _ => same ▸ rfl, fun same => BitVec.eq_of_getLsbD_eq fun i inside => same i inside⟩

theorem read_back_iff (before : epoch = 0#16 ∨ epoch = 0x400#16) :
    epoch ||| (int12ValueOfEpoche &&& shapeEpochRawMask) >>> 4 = int12ValueOfEpoche &&& 0xFFF#16 ↔
      int12ValueOfEpoche &&& 0x4FFF#16 = epoch ∨ int12ValueOfEpoche &&& 0x4FFF#16 = 0x4400#16 := by
  unfold shapeEpochRawMask
  simp only [word_eq_iff, Nat.forall_lt_succ_left, BitVec.getLsbD_or, BitVec.getLsbD_and,
    BitVec.getLsbD_ushiftRight, BitVec.getLsbD_ofNat]
  rcases before with rfl | rfl
  · simp [Nat.testBit, -BitVec.getLsbD_eq_getElem]
    grind
  · simp [Nat.testBit, -BitVec.getLsbD_eq_getElem]
    grind

theorem masked (mask : BitVec 16) (inside : 0x4FFF#16 &&& mask = mask) :
    int12ValueOfEpoche &&& mask = (int12ValueOfEpoche &&& 0x4FFF#16) &&& mask := by
  rw [BitVec.and_assoc, inside]

theorem settable_flag (before : epoch = 0#16 ∨ epoch = 0x400#16)
    (settable : int12ValueOfEpoche &&& 0x4FFF#16 = epoch ∨ int12ValueOfEpoche &&& 0x4FFF#16 = 0x4400#16)
    (flag : BitVec 16) (low : flag &&& 0xF#16 = flag) :
    int12ValueOfEpoche &&& shapeEpochRawMask &&& flag = 0#16 := by
  have none : int12ValueOfEpoche &&& shapeEpochRawMask &&& 0xF#16 = 0#16 := by
    rw [masked int12ValueOfEpoche shapeEpochRawMask (by decide)]
    rcases settable with same | same
    · rw [same]
      rcases before with rfl | rfl
      · decide
      · decide
    · rw [same]
      decide
  rw [← low, BitVec.and_comm flag, ← BitVec.and_assoc, none, BitVec.zero_and]

theorem settable_epoch (before : epoch = 0#16 ∨ epoch = 0x400#16)
    (settable : int12ValueOfEpoche &&& 0x4FFF#16 = epoch ∨ int12ValueOfEpoche &&& 0x4FFF#16 = 0x4400#16) :
    int12ValueOfEpoche &&& 0xFFF#16 = 0#16 ∨ int12ValueOfEpoche &&& 0xFFF#16 = 0x400#16 := by
  rw [masked int12ValueOfEpoche 0xFFF#16 (by decide)]
  rcases settable with same | same
  · rw [same]
    rcases before with rfl | rfl
    · left; decide
    · right; decide
  · right
    rw [same]
    decide

end Words

section Worlds

variable {w w' : ShapeWorld}

theorem modify_shapeAt (p : Nat) (change : Shape → Shape) (done : modify w p change = .ok w') :
    ∃ shape, shapeAt w p = some shape ∧ shapeAt w' p = some (change shape) ∧
      ∀ q, q ≠ p → shapeAt w' q = shapeAt w q := by
  obtain ⟨shape, found, stored⟩ := (Result.bind_ok _ _ _).mp done
  cases stored
  refine ⟨shape, (shapeAt_iff w p shape).mpr found, ?_, fun q other => ?_⟩
  · unfold shapeAt
    rw [store_here]
  · unfold shapeAt
    rw [store_there w p _ q other]

theorem getShapeEpoche_eq (p : Nat) (live : Live w p) :
    getShapeEpoche w (some p) = .ok (versionOf w p) := by
  obtain ⟨shape, found⟩ := Option.isSome_iff_exists.mp live
  have there := (shapeAt_iff w p shape).mp found
  unfold getShapeEpoche versionOf
  dsimp only
  rw [there, Result.ok_bind, found]

structure SetsBits (before after : ShapeWorld) (p : Nat) (bits : BitVec 16) : Prop where
  live : ∀ q, Live after q ↔ Live before q
  target : Live before p
  version : versionOf after p = versionOf before p ||| bits >>> 4
  others : ∀ q, q ≠ p → versionOf after q = versionOf before q
  flags : ∀ flag : BitVec 16, bits &&& flag = 0#16 → ∀ q,
    (shapeAt after q).map (fun shape => shape.shapeFlags &&& flag) =
      (shapeAt before q).map fun shape => shape.shapeFlags &&& flag

theorem setShapeEpoche_sets (p : Nat) (int12ValueOfEpoche : BitVec 16)
    (done : setShapeEpoche w (some p) int12ValueOfEpoche = .ok w') :
    SetsBits w w' p (int12ValueOfEpoche &&& shapeEpochRawMask) := by
  obtain ⟨shape, found, found', others⟩ := modify_shapeAt p _ done
  refine ⟨fun q => ?_, ?_, ?_, fun q other => ?_, fun flag clear q => ?_⟩
  · unfold Live
    by_cases here : q = p
    · rw [here, found, found']
      rfl
    · rw [others q here]
  · unfold Live
    rw [found]
    rfl
  · unfold versionOf
    rw [found, found']
    exact BitVec.ushiftRight_or_distrib ..
  · unfold versionOf
    rw [others q other]
  · by_cases here : q = p
    · rw [here, found, found', Option.map_some, Option.map_some, BitVec.and_or_distrib_right, clear,
        BitVec.or_zero]
    · rw [others q here]

theorem SetsBits.flagsKept {p : Nat} {bits : BitVec 16} (sets : SetsBits w w' p bits)
    (clear : ∀ flag : BitVec 16, flag &&& 0xF#16 = flag → bits &&& flag = 0#16) : FlagsKept w w' := by
  have kept (flag : BitVec 16) (low : flag &&& 0xF#16 = flag) (q : Nat) :
      (shapeAt w' q).any (fun shape => shape.shapeFlags &&& flag ≠ 0#16) =
        (shapeAt w q).any fun shape => shape.shapeFlags &&& flag ≠ 0#16 := by
    have same := congrArg (fun masked => masked.any fun value => value ≠ 0#16)
      (sets.flags flag (clear flag low) q)
    simpa only [Option.any_map] using same
  exact ⟨kept _ (by decide), kept _ (by decide), kept _ (by decide), kept _ (by decide)⟩

end Worlds

section Runs

variable {reservations : Nat → Option Nat}

structure Versions (reservations : Nat → Option Nat) (s : Versioned) : Prop where
  intact : ∃ others foreign g, Intact reservations others foreign s.world g
  right : ∀ p, Live s.world p → versionOf s.world p = s.epoch p
  few : ∀ p, Live s.world p → s.epoch p = 0#16 ∨ s.epoch p = 0x400#16

theorem Versions.start (s : Versioned) (unplanted : Unplanted reservations s.world) :
    Versions reservations s := by
  have dead (p : Nat) : ¬ Live s.world p := unplanted.dead p
  obtain ⟨others, foreign, bins, sound, blank, _⟩ := unplanted
  have intact : Intact reservations others foreign s.world ⟨[], fun _ => ⟨zero, [], [], []⟩⟩ :=
    ⟨⟨_, blank_stands bins sound blank⟩, fun some_ => (some_ rfl).elim⟩
  exact ⟨⟨others, foreign, _, intact⟩, fun p live => (dead p live).elim, fun p live => (dead p live).elim⟩

theorem Versions.evolve {s t : Versioned} (versions : Versions reservations s)
    {others : List PageManager.Chunk} {foreign : List Block} {g g' : Graph}
    (intact : Intact reservations others foreign s.world g)
    (intact' : Intact reservations others foreign t.world g') (keeps : g.KeepsVersions g')
    (next : ∀ p, t.epoch p = if (shapeAt s.world p).isSome then s.epoch p else 0#16) :
    Versions reservations t := by
  have same (p : Nat) (live : Live t.world p) : versionOf t.world p = versionOf s.world p := by
    obtain ⟨held', stands'⟩ := intact'.heap
    rw [intact'.versionOf_eq p, intact.versionOf_eq p]
    exact keeps p ((stands'.live_iff p).mp live)
  refine ⟨⟨others, foreign, g', intact'⟩, fun p live => ?_, fun p live => ?_⟩
  · rw [same p live, next p]
    by_cases old : (shapeAt s.world p).isSome
    · rw [if_pos old]
      exact versions.right p old
    · rw [if_neg old]
      unfold versionOf
      rw [Option.not_isSome_iff_eq_none.mp old]
  · rw [next p]
    by_cases old : (shapeAt s.world p).isSome
    · rw [if_pos old]
      exact versions.few p old
    · rw [if_neg old]
      exact .inl rfl

theorem Versions.set_iff {s t : Versioned} (versions : Versions reservations s) (p : Nat)
    (int12ValueOfEpoche : BitVec 16)
    (done : setShapeEpoche s.world (some p) int12ValueOfEpoche = .ok t.world)
    (next : t.epoch = s.next (.setShapeEpoche p int12ValueOfEpoche)) :
    EpochsRight t ∧ FlagsKept s.world t.world ↔ Settable s (.setShapeEpoche p int12ValueOfEpoche) := by
  have sets := setShapeEpoche_sets p int12ValueOfEpoche done
  have few := versions.few p sets.target
  have live := (sets.live p).mpr sets.target
  have here : t.epoch p = int12ValueOfEpoche &&& 0xFFF#16 := by
    rw [next]
    exact if_pos rfl
  have readBack := read_back_iff (s.epoch p) int12ValueOfEpoche few
  rw [← versions.right p sets.target, ← sets.version, versions.right p sets.target] at readBack
  refine ⟨fun right => ?_, fun settable => ⟨fun q live' => ?_, ?_⟩⟩
  · have same := right.1 p live
    rw [getShapeEpoche_eq p live, Except.ok.injEq, here] at same
    exact readBack.mp same
  · rw [getShapeEpoche_eq q live', Except.ok.injEq]
    by_cases target : q = p
    · rw [target, here]
      exact readBack.mpr settable
    · rw [sets.others q target, versions.right q ((sets.live q).mp live'), next]
      exact (if_neg target).symm
  · exact sets.flagsKept (settable_flag (s.epoch p) int12ValueOfEpoche few settable)

theorem Versions.set {s t : Versioned} (versions : Versions reservations s) (p : Nat)
    (int12ValueOfEpoche : BitVec 16)
    (done : setShapeEpoche s.world (some p) int12ValueOfEpoche = .ok t.world)
    (next : t.epoch = s.next (.setShapeEpoche p int12ValueOfEpoche))
    (settable : Settable s (.setShapeEpoche p int12ValueOfEpoche)) : Versions reservations t := by
  have sets := setShapeEpoche_sets p int12ValueOfEpoche done
  have right := ((versions.set_iff p int12ValueOfEpoche done next).mpr settable).1
  obtain ⟨others, foreign, g, intact⟩ := versions.intact
  refine ⟨⟨others, foreign, _, intact.reflag p
    (fun flags => flags ||| (int12ValueOfEpoche &&& shapeEpochRawMask)) done⟩, fun q live => ?_,
    fun q live => ?_⟩
  · have same := right q live
    rwa [getShapeEpoche_eq q live, Except.ok.injEq] at same
  · rw [next]
    by_cases target : q = p
    · have here : s.next (.setShapeEpoche p int12ValueOfEpoche) q = int12ValueOfEpoche &&& 0xFFF#16 :=
        if_pos target
      rw [here]
      exact settable_epoch (s.epoch p) int12ValueOfEpoche (versions.few p sets.target) settable
    · have there : s.next (.setShapeEpoche p int12ValueOfEpoche) q = s.epoch q := if_neg target
      rw [there]
      exact versions.few q ((sets.live q).mp live)

theorem Versions.step (reserves : Reserves reservations) {s t : Versioned}
    (versions : Versions reservations s) (call : EpochCall) (settable : Settable s call)
    (taken : (epochSystem reservations).step s call t) : Versions reservations t := by
  obtain ⟨⟨fuel, done⟩, next⟩ := taken
  obtain ⟨others, foreign, g, intact⟩ := versions.intact
  cases call with
  | createRootShape =>
      obtain ⟨made, returned, same⟩ := (Result.bind_ok _ _ _).mp done
      obtain ⟨g', intact', keeps⟩ := intact.createRootShape reserves made returned
      rw [Except.ok.inj same] at intact'
      exact versions.evolve intact intact' keeps fun p => congrFun next p
  | setShapeEpoche p int12ValueOfEpoche => exact versions.set p int12ValueOfEpoche done next settable
  | on call =>
      obtain ⟨g', intact', keeps⟩ := intact.perform reserves call fuel done
      exact versions.evolve intact intact' keeps fun p => congrFun next p

theorem versions_of_reachable (reserves : Reserves reservations) (s : Versioned)
    (reached : ((epochSystem reservations).restrict Settable).Reachable s) :
    Versions reservations s := by
  induction reached with
  | start unplanted => exact .start _ unplanted
  | step _ taken ih => exact ih.step reserves _ taken.1 taken.2

theorem epochs_right (reserves : Reserves reservations) (s : Versioned)
    (reached : ((epochSystem reservations).restrict Settable).Reachable s) :
    EpochsRight s ∧ ∀ p int12ValueOfEpoche t,
      (epochSystem reservations).step s (.setShapeEpoche p int12ValueOfEpoche) t →
      (EpochsRight t ∧ FlagsKept s.world t.world ↔ Settable s (.setShapeEpoche p int12ValueOfEpoche)) := by
  have versions := versions_of_reachable reserves s reached
  refine ⟨fun p live => ?_, fun p int12ValueOfEpoche t taken => ?_⟩
  · rw [getShapeEpoche_eq p live, versions.right p live]
  · obtain ⟨⟨_, done⟩, next⟩ := taken
    exact versions.set_iff p int12ValueOfEpoche done next

end Runs

theorem unversioned_child : ∃ (s : Versioned) (child : Nat) (fits spills swept kept : ShapeWorld),
    ((epochSystem PageManager.rowOfRegions).restrict Settable).Reachable s ∧ s.epoch child = 0#16 ∧
    setShapeEpoche s.world (some child) 0x4400#16 = .ok fits ∧ Live fits child ∧
    setShapeEpoche s.world (some child) 1#16 = .ok spills ∧ Live spills child ∧
    getShapeEpoche spills (some child) = .ok 0#16 ∧ markedAlive s.world child = false ∧
    markedAlive spills child = true ∧ sweepOrphanedShapes 2 s.world = .ok (1, swept) ∧
    sweepOrphanedShapes 2 spills = .ok (0, kept) ∧ Live kept child := by
  obtain ⟨manager, sound⟩ := MetaArena.onePage_sound (Heap.empty : Heap ShapeObject)
  obtain ⟨world, born, made, done, runs⟩ : ∃ world born,
      createRootShape (MetaArena.onePage manager Heap.empty) = .ok (memoryChunkSize, world) ∧
      perform 0 world (.transitionShape memoryChunkSize 5#32 0#16 false false false false) = .ok born ∧
      ∃ fits spills swept kept,
        setShapeEpoche born (some (memoryChunkSize + 96)) 0x4400#16 = .ok fits ∧
        Live fits (memoryChunkSize + 96) ∧
        setShapeEpoche born (some (memoryChunkSize + 96)) 1#16 = .ok spills ∧
        Live spills (memoryChunkSize + 96) ∧
        getShapeEpoche spills (some (memoryChunkSize + 96)) = .ok 0#16 ∧
        markedAlive born (memoryChunkSize + 96) = false ∧
        markedAlive spills (memoryChunkSize + 96) = true ∧
        sweepOrphanedShapes 2 born = .ok (1, swept) ∧ sweepOrphanedShapes 2 spills = .ok (0, kept) ∧
        Live kept (memoryChunkSize + 96) :=
    ⟨_, _, rfl, rfl, _, _, _, _, rfl, rfl, rfl, rfl, rfl, rfl, rfl, rfl, rfl, rfl⟩
  have unset (w : ShapeWorld) (call : EpochCall) (other : ∀ p value, call ≠ .setShapeEpoche p value) :
      (fun _ => 0#16) = Versioned.next ⟨w, fun _ => 0#16⟩ call := by
    funext p
    cases call with
    | createRootShape => exact (ite_self _).symm
    | setShapeEpoche q value => exact (other q value rfl).elim
    | on call => exact (ite_self _).symm
  have started : ((epochSystem PageManager.rowOfRegions).restrict Settable).Reachable
      ⟨MetaArena.onePage manager Heap.empty, fun _ => 0#16⟩ :=
    .start ⟨[], [], _, sound, fun _ _ there => (by cases there), rfl⟩
  have rooted : ((epochSystem PageManager.rowOfRegions).restrict Settable).step
      ⟨MetaArena.onePage manager Heap.empty, fun _ => 0#16⟩ .createRootShape ⟨world, fun _ => 0#16⟩ :=
    ⟨trivial, ⟨0, by simp [performEpoch, made]⟩, unset _ _ (by simp)⟩
  have spawned : ((epochSystem PageManager.rowOfRegions).restrict Settable).step
      ⟨world, fun _ => 0#16⟩ (.on (.transitionShape memoryChunkSize 5#32 0#16 false false false false))
      ⟨born, fun _ => 0#16⟩ :=
    ⟨trivial, ⟨0, done⟩, unset _ _ (by simp)⟩
  obtain ⟨fits, spills, swept, kept, runs⟩ := runs
  exact ⟨_, memoryChunkSize + 96, fits, spills, swept, kept, (started.step rooted).step spawned, rfl, runs⟩

theorem epochs_right_child : ∃ s child,
    ((epochSystem PageManager.rowOfRegions).restrict Settable).Reachable s ∧ Live s.world child ∧
    s.epoch child = 0x400#16 ∧ EpochsRight s ∧ ∀ p int12ValueOfEpoche t,
      (epochSystem PageManager.rowOfRegions).step s (.setShapeEpoche p int12ValueOfEpoche) t →
      (EpochsRight t ∧ FlagsKept s.world t.world ↔
        Settable s (.setShapeEpoche p int12ValueOfEpoche)) := by
  obtain ⟨s, child, fits, _, _, _, reached, _, done, live, _⟩ := unversioned_child
  have taken : ((epochSystem PageManager.rowOfRegions).restrict Settable).step s
      (.setShapeEpoche child 0x4400#16) ⟨fits, s.next (.setShapeEpoche child 0x4400#16)⟩ :=
    ⟨.inr (by decide), ⟨0, done⟩, rfl⟩
  have reached' := reached.step taken
  have epoch : s.next (.setShapeEpoche child 0x4400#16) child = 0x400#16 := if_pos rfl
  exact ⟨_, child, reached', live, epoch, epochs_right rowOfRegions_reserves _ reached'⟩

-- The epoch 1 marks the shape as alive, and 0 is read back.
theorem epoch_marks_alive : ∃ (s t : Versioned) (child : Nat) (swept kept : ShapeWorld),
    (epochSystem PageManager.rowOfRegions).Reachable s ∧
    (epochSystem PageManager.rowOfRegions).step s (.setShapeEpoche child 1#16) t ∧
    t.epoch child = 1#16 ∧ getShapeEpoche t.world (some child) = .ok 0#16 ∧ ¬ EpochsRight t ∧
    markedAlive s.world child = false ∧ markedAlive t.world child = true ∧
    ¬ FlagsKept s.world t.world ∧ sweepOrphanedShapes 2 s.world = .ok (1, swept) ∧
    sweepOrphanedShapes 2 t.world = .ok (0, kept) ∧ Live kept child := by
  obtain ⟨s, child, _, spills, swept, kept, reached, _, _, _, done, live, read, dead, alive, sweeps⟩ :=
    unversioned_child
  have epoch : s.next (.setShapeEpoche child 1#16) child = 1#16 := if_pos rfl
  refine ⟨s, ⟨spills, s.next (.setShapeEpoche child 1#16)⟩, child, swept, kept,
    System.restrict_reachable _ _ reached, ⟨⟨0, done⟩, rfl⟩, epoch, read, fun right => ?_, dead, alive,
    fun flags => ?_, sweeps⟩
  · have zero := Except.ok.inj ((right child live).symm.trans read)
    have one_zero : 1#16 = 0#16 := epoch.symm.trans zero
    cases one_zero
  · have same : markedAlive spills child = markedAlive s.world child := flags.alive child
    rw [alive, dead] at same
    cases same

end Shape

end ElySquare
