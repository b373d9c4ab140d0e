import ElySquare.Allocators.ArenaLimits
import ElySquare.Meta.MetaArenaHeap

set_option autoImplicit false

namespace ElySquare

theorem alignSize_wraps (size : Nat) (word : size < 2 ^ 64) (large : 2 ^ 64 ≤ size + alignQuantum - 1) :
    alignSize size = 0 := by
  have actual : (if size < minBlockSize then minBlockSize else size) = size := by
    unfold minBlockSize alignQuantum at *
    exact if_neg (by omega)
  have masked := Align.maskUp_eq 64 4 size (by decide)
  unfold alignSize
  rw [actual]
  refine masked.trans ?_
  unfold alignQuantum at large
  rw [show size + 2 ^ 4 + (2 ^ 64 - 1) = size + 15 - 2 ^ 64 + 2 * 2 ^ 64 by omega,
    Nat.add_mul_mod_self_right, Nat.mod_eq_of_lt (by omega), Nat.div_eq_of_lt (by omega), Nat.zero_mul]

theorem alignSize_room (size : Nat) (room : size + alignQuantum - 1 < 2 ^ 64) :
    16 ≤ alignSize size ∧ size ≤ alignSize size ∧ alignSize size < max size 1 + 16 := by
  have actual : (if size < minBlockSize then minBlockSize else size) = max size 16 := by
    unfold minBlockSize alignQuantum
    split <;> omega
  unfold alignQuantum at room
  have rounded : alignSize size = (max size 16 + 15) / 16 * 16 := by
    unfold alignSize
    rw [actual]
    exact Align.maskUp_two_pow 64 4 (max size 16) (by omega) (by omega)
  rw [rounded]
  exact ⟨by omega, by omega, by omega⟩

def World.resized {Memory : Type} (w : World Memory) (size : Nat) : World Memory :=
  { w with metaArena := { w.metaArena with arena := { w.metaArena.arena with defaultSize := size } } }

namespace MetaArena

open Transition Linked

inductive Run.Wide : Run → Call → Run → Prop
  | metalloc (s : Run) (size k ptr : Nat) (world : World RawMemory) (word : size < 2 ^ 64)
      (fine : k ≤ 12) (made : MetaArena.metalloc s.world size (2 ^ k) = .ok (ptr, world)) :
      Wide s (.metalloc size (2 ^ k)) ⟨world, s.others, ⟨ptr, size⟩ :: s.live, s.recycled⟩
  | other (s t : Run) (call : Call) (taken : Run.Step s call t) : Wide s call t

def limits (reservations : Nat → Option Nat) : System Run Call where
  start s := ∃ pages memory world size, (PageManager.system reservations).Reachable pages ∧
    size < 2 ^ 64 ∧ construct pages.manager size memory = .ok world ∧ s = ⟨world, pages.live, [], []⟩
  step := Run.Wide

-- The size can be rounded up, the node that is taken is aligned, and the arena can serve what it is
-- asked for.
def Guaranteed (w : World RawMemory) (size alignment : Nat) : Prop :=
  size + alignQuantum - 1 < 2 ^ 64 ∧ (∀ node, cached w size = some node → alignment ∣ node) ∧
    (cached w size = none →
      Arena.Servable w.metaArena.arena w.manager (alignSize size) alignment)

structure Granted (s : Run) (after : World RawMemory) (ptr size alignment : Nat) : Prop where
  aligned : alignment ∣ ptr
  usable : ∃ c ∈ after.metaArena.arena.chunks, c.data ≤ ptr ∧ ptr + size ≤ c.data + c.capacity
  own : ∀ b ∈ s.live, ∀ x, Range.Has ⟨ptr, size⟩ x → ¬ b.range.Has x

def guaranteed (reservations : Nat → Option Nat) : System Run Call :=
  (limits reservations).restrict fun s call => ∀ size alignment : Nat,
    call = .metalloc size alignment → Guaranteed s.world size alignment

theorem Run.guaranteed_metalloc {reservations : Nat → Option Nat} {s : Run} {size k ptr : Nat}
    {world : World RawMemory} (word : size < 2 ^ 64) (fine : k ≤ 12)
    (made : MetaArena.metalloc s.world size (2 ^ k) = .ok (ptr, world))
    (promised : Guaranteed s.world size (2 ^ k)) :
    (guaranteed reservations).step s (.metalloc size (2 ^ k))
      ⟨world, s.others, ⟨ptr, size⟩ :: s.live, s.recycled⟩ :=
  ⟨fun _ _ same => by cases same; exact promised, .metalloc s size k ptr world word fine made⟩

theorem Run.guaranteed_metarecycle {reservations : Nat → Option Nat} {s : Run} (b : Block)
    (alive : b ∈ s.live) : (guaranteed reservations).step s (.metarecycle b.ptr b.size)
      ⟨MetaArena.metarecycle s.world b.ptr b.size, s.others, s.live.erase b, b :: s.recycled⟩ :=
  ⟨fun _ _ same => Call.noConfusion same, .other _ _ _ (.metarecycle s b b.size alive rfl)⟩

structure Steady (reservations : Nat → Option Nat) (s : Run) : Prop where
  held : Held reservations { s with world := s.world.resized 0 }
  size : s.world.metaArena.arena.defaultSize < 2 ^ 64

section Steps

variable {reservations : Nat → Option Nat} {s : Run}

theorem Steady.sized (steady : Steady reservations s) :
    Arena.Sized reservations s.world.manager s.world.metaArena.arena s.others ∧
      ∀ c ∈ s.world.metaArena.arena.chunks, c.offset ≤ c.capacity := by
  obtain ⟨⟨bins, sound, _⟩, size⟩ := steady
  exact ⟨⟨⟨sound.arena.ledger, sound.arena.last⟩, sound.arena.capacity, size⟩, sound.arena.fits⟩

theorem bucket_room (size : Nat) (word : size < 2 ^ 64)
    (inside : getBucketIndex (alignSize size) < numBuckets) :
    size + alignQuantum - 1 < 2 ^ 64 ∧ alignSize size = 16 * (getBucketIndex (alignSize size) + 1) := by
  have room : size + alignQuantum - 1 < 2 ^ 64 := by
    by_contra wraps
    rw [alignSize_wraps size word (Nat.le_of_not_lt wraps)] at inside
    exact absurd inside (by decide)
  exact ⟨room, (getBucketIndex_eq size (alignSize_room size room).1 _).mp rfl⟩

structure Taken (reservations : Nat → Option Nat) (s : Run) (size ptr : Nat) (world : World RawMemory) :
    Prop where
  room : size + alignQuantum - 1 < 2 ^ 64
  arena : world.metaArena.arena = s.world.metaArena.arena
  inside : s.world.metaArena.arena.Inside ⟨ptr, alignSize size⟩
  apart : ∀ b ∈ s.live, Range.Apart b.range ⟨ptr, alignSize size⟩
  steady : Steady reservations ⟨world, s.others, ⟨ptr, size⟩ :: s.live, s.recycled⟩

theorem Steady.take (steady : Steady reservations s) (size k node ptr : Nat) (world : World RawMemory)
    (word : size < 2 ^ 64) (taken : cached s.world size = some node)
    (made : MetaArena.metalloc s.world size (2 ^ k) = .ok (ptr, world)) :
    ptr = node ∧ Taken reservations s size ptr world := by
  obtain ⟨⟨bins, sound, recycled⟩, default⟩ := steady
  obtain ⟨inside, picked, same⟩ := metalloc_cached s.world size (2 ^ k) node taken
  obtain ⟨room, rounds⟩ := bucket_room size word inside
  have smaller := (alignSize_room size room).2.1
  generalize getBucketIndex (alignSize size) = i at *
  unfold numBuckets at inside
  obtain ⟨rest, cells, read⟩ := sound.head_listed i node inside picked
  have follows : LinkStore.next s.world.memory node = .ok (follow s.world.memory node) := read
  rw [same, follows, Result.ok_bind, Except.ok.injEq, Prod.mk.injEq] at made
  obtain ⟨rfl, rfl⟩ := made
  have isNode : (⟨node, alignSize size⟩ : Range) ∈ nodeRanges bins :=
    ⟨i, node, inside, by simp [cells], by rw [rounds]⟩
  have popped := sound.pop_sound i node size rest inside cells (by omega) rounds
  refine ⟨rfl, room, rfl, sound.inside _ (.inr isNode), fun b alive => ?_,
    ⟨_, popped, fun j q bound listed => recycled j q bound (mem_pop bins i node rest cells j q listed)⟩,
    default⟩
  have member : b.range ∈ liveRanges s.live := ⟨b, alive, rfl⟩
  exact sound.apart _ (.inl member) _ (.inr isNode) fun equal =>
    Set.disjoint_left.mp sound.separate member (equal ▸ isNode)

theorem Steady.serve (reserves : Reserves reservations) (steady : Steady reservations s)
    (size k ptr : Nat) (world : World RawMemory) (room : size + alignQuantum - 1 < 2 ^ 64) (fine : k ≤ 12)
    (empty : cached s.world size = none)
    (made : MetaArena.metalloc s.world size (2 ^ k) = .ok (ptr, world))
    (servable : Arena.Servable s.world.metaArena.arena s.world.manager (alignSize size) (2 ^ k)) :
    Arena.Served s.world.metaArena.arena world.metaArena.arena ⟨ptr, alignSize size⟩ (2 ^ k) ∧
      Steady reservations ⟨world, s.others, ⟨ptr, size⟩ :: s.live, s.recycled⟩ := by
  obtain ⟨sized, fits⟩ := steady.sized
  obtain ⟨⟨bins, sound, recycled⟩, default⟩ := steady
  obtain ⟨large, smaller, _⟩ := alignSize_room size room
  obtain ⟨quantum, word⟩ := alignSize_dvd size
  rw [metalloc_bumped s.world size (2 ^ k) empty] at made
  obtain ⟨⟨node, arena, manager⟩, given, rest⟩ := (Result.bind_ok _ _ _).mp made
  simp only [Except.ok.injEq, Prod.mk.injEq] at rest
  obtain ⟨rfl, rfl⟩ := rest
  have served := sized.alloc_served reserves fits word (by omega) given servable
  have sized' := sized.alloc reserves _ _ node given
  obtain ⟨aligned, offsets⟩ := served.quantum sound.arena.aligned quantum
  have arenaSound : Arena.Sound reservations manager { arena with defaultSize := 0 } s.others :=
    ⟨⟨⟨sized'.ledger, sized'.last⟩, sized'.capacity, served.fits⟩, offsets, show 0 + pageSize - 1 < 2 ^ 64 by decide⟩
  obtain ⟨c, member, above, below⟩ := served.inside
  have filled := served.fits c member
  have capacity := sized'.capacity c member
  have reach := (sized'.toOwner.within reserves c member).2.2.1
  unfold Range.finish at below
  unfold memoryChunkSize at reach
  dsimp only at above below
  have placed := sound.placed_sound manager { arena with defaultSize := 0 } node size (by omega) large
    arenaSound aligned ⟨served.placed, served.inside, served.grown⟩
  exact ⟨served, ⟨bins, placed, recycled⟩, sized'.size⟩

theorem metarecycle_resized (w : World RawMemory) (ptr size default : Nat) :
    metarecycle (w.resized default) ptr size = (metarecycle w ptr size).resized default ∧
      (metarecycle w ptr size).metaArena.arena = w.metaArena.arena := by
  unfold metarecycle
  by_cases zero : ptr = 0
  · rw [if_pos zero, if_pos zero]
    exact ⟨rfl, rfl⟩
  · rw [if_neg zero, if_neg zero]
    by_cases large : getBucketIndex (alignSize size) ≥ numBuckets
    · rw [if_pos large, if_pos large]
      exact ⟨rfl, rfl⟩
    · rw [if_neg large, if_neg large]
      exact ⟨rfl, rfl⟩

theorem Steady.step (reserves : Reserves reservations) (t : Run) (call : Call)
    (steady : Steady reservations s) (taken : Run.Wide s call t)
    (promised : ∀ size alignment : Nat, call = .metalloc size alignment →
      Guaranteed s.world size alignment) : Steady reservations t := by
  have metalloc (size k ptr : Nat) (world : World RawMemory) (word : size < 2 ^ 64) (fine : k ≤ 12)
      (same : call = .metalloc size (2 ^ k))
      (made : MetaArena.metalloc s.world size (2 ^ k) = .ok (ptr, world)) :
      Steady reservations ⟨world, s.others, ⟨ptr, size⟩ :: s.live, s.recycled⟩ := by
    obtain ⟨room, _, bump⟩ := promised size (2 ^ k) same
    cases empty : cached s.world size with
    | none =>
        exact (steady.serve reserves size k ptr world room fine empty made (bump empty)).2
    | some node => exact (steady.take size k node ptr world word empty made).2.steady
  -- the other calls do the same whatever the arena was built with
  have other (t : Run) (call : Call)
      (taken : Run.Step { s with world := s.world.resized 0 } call
        { t with world := t.world.resized 0 })
      (size : t.world.metaArena.arena.defaultSize = s.world.metaArena.arena.defaultSize) :
      Steady reservations t :=
    ⟨held_step reserves _ _ call steady.held taken, size ▸ steady.size⟩
  cases taken with
  | metalloc size k ptr world word fine made => exact metalloc size k ptr world word fine rfl made
  | other _ _ taken =>
      cases taken with
      | metalloc size k ptr world small fine made =>
          exact metalloc size k ptr world (by omega) (by omega) rfl made
      | metarecycle b size alive same =>
          obtain ⟨resized, arena⟩ := metarecycle_resized s.world b.ptr size 0
          refine other _ (.metarecycle b.ptr size) ?_ (congrArg Arena.defaultSize arena)
          have taken := Run.Step.metarecycle { s with world := s.world.resized 0 } b size alive same
          rwa [resized] at taken
      | write memory frame =>
          exact other _ .write (.write { s with world := s.world.resized 0 } memory frame) rfl
      | request fuel pageCount ptr manager made =>
          exact other _ (.request pageCount)
            (.request { s with world := s.world.resized 0 } fuel pageCount ptr manager made) rfl
      | release chunk manager alive made =>
          exact other _ (.release chunk)
            (.release { s with world := s.world.resized 0 } chunk manager alive made) rfl

theorem steady_of_reachable (reserves : Reserves reservations) (s : Run)
    (reached : (guaranteed reservations).Reachable s) : Steady reservations s := by
  refine System.invariant (guaranteed reservations) (Steady reservations) ?_
    (fun s call t steady taken => steady.step reserves t call taken.2 taken.1) reached
  rintro s ⟨pages, memory, world, size, pagesReached, word, made, rfl⟩
  have ledger := PageManager.ledger_of_reachable reservations reserves.regions pages pagesReached
  obtain ⟨⟨arena, grown⟩, new, rest⟩ := (Result.bind_ok _ _ _).mp made
  cases rest
  obtain ⟨bounded, rfl, blank⟩ := Arena.construct_bounded reserves size ledger grown new
  have arenaSound : Arena.Sound reservations grown { arena with defaultSize := 0 } pages.live :=
    ⟨⟨⟨bounded.ledger, bounded.last⟩, bounded.capacity, bounded.fits⟩,
      fun c member => blank c member ▸ Nat.dvd_zero _, show 0 + pageSize - 1 < 2 ^ 64 by decide⟩
  exact ⟨⟨_, .blank arenaSound (fun _ => rfl) rfl, fun _ _ _ listed => by cases listed⟩, word⟩

theorem Granted.of_block (size alignment ptr : Nat) (world : World RawMemory) (aligned : alignment ∣ ptr)
    (smaller : size ≤ alignSize size) (inside : world.metaArena.arena.Inside ⟨ptr, alignSize size⟩)
    (fits : ∀ c ∈ world.metaArena.arena.chunks, c.offset ≤ c.capacity)
    (apart : ∀ b ∈ s.live, Range.Apart b.range ⟨ptr, alignSize size⟩) :
    Granted s world ptr size alignment := by
  obtain ⟨c, member, above, below⟩ := inside
  have filled := fits c member
  unfold Range.finish at below
  dsimp only at above below
  refine ⟨aligned, ⟨c, member, above, by omega⟩, fun b alive x has has' => ?_⟩
  have apart := apart b alive
  unfold Range.Apart at apart
  unfold Range.Has Range.finish at *
  dsimp only at *
  omega

theorem Granted.bound {size alignment ptr : Nat} {world : World RawMemory}
    (reserves : Reserves reservations) (granted : Granted s world ptr size alignment)
    (sized : Arena.Sized reservations world.manager world.metaArena.arena s.others) :
    ptr + size ≤ 2 ^ 64 ∧ pageSize ≤ ptr := by
  obtain ⟨_, ⟨c, member, above, below⟩, _⟩ := granted
  obtain ⟨page, positive, _, mapped⟩ := sized.toOwner.within reserves c member
  have capacity := sized.capacity c member
  have first := Nat.le_of_dvd positive page
  exact ⟨by omega, by omega⟩

theorem Steady.servable_of_granted (reserves : Reserves reservations) (steady : Steady reservations s)
    (size k ptr : Nat) (world : World RawMemory) (room : size + alignQuantum - 1 < 2 ^ 64) (fine : k ≤ 12)
    (made : MetaArena.bump s.world size (2 ^ k) = .ok (ptr, world)) (granted : Granted s world ptr size (2 ^ k)) :
    Arena.Servable s.world.metaArena.arena s.world.manager (alignSize size) (2 ^ k) := by
  obtain ⟨sized, _⟩ := steady.sized
  obtain ⟨large, _, near⟩ := alignSize_room size room
  obtain ⟨quantum, word⟩ := alignSize_dvd size
  obtain ⟨⟨node, arena, manager⟩, given, rest⟩ := (Result.bind_ok _ _ _).mp made
  simp only [Except.ok.injEq, Prod.mk.injEq] at rest
  obtain ⟨rfl, rfl⟩ := rest
  have sized' := sized.alloc reserves _ _ node given
  obtain ⟨below, _⟩ := granted.bound reserves sized'
  obtain ⟨c, start, outcome⟩ := sized.alloc_outcome reserves word (by omega) given
  have member := List.mem_of_getElem? outcome.current
  obtain ⟨page, positive, reach, _⟩ := sized'.toOwner.within reserves c member
  have capacity := sized'.capacity c member
  have base := Nat.le_of_dvd positive page
  have place := outcome.ptr
  have offset := outcome.offset
  unfold pageSize at base
  rw [Nat.mod_eq_of_lt (by omega)] at offset
  refine outcome.servable.mpr ⟨?_, Nat.dvd_trans (Nat.pow_dvd_pow 2 fine) page⟩
  rcases outcome.near with fits | rfl
  · omega
  · -- the range starts where the chunk does
    have pages : 0 < c.pages :=
      sized'.ledger.positive c.region (List.mem_append_left _ (List.mem_map_of_mem member))
    unfold pageSize at capacity
    rcases Nat.eq_zero_or_pos size with rfl | some
    · have least : alignSize 0 = 16 := by decide
      omega
    · obtain ⟨d, inD, above', below'⟩ := granted.usable
      obtain rfl := sized'.chunk_unique inD member c.data (by omega) (by omega)
      omega

theorem metalloc_guarantee (reserves : Reserves reservations) (s : Run)
    (reached : (guaranteed reservations).Reachable s) (size k ptr : Nat) (word : size < 2 ^ 64)
    (fine : k ≤ 12) (world : World RawMemory)
    (made : MetaArena.metalloc s.world size (2 ^ k) = .ok (ptr, world)) :
    Granted s world ptr size (2 ^ k) ↔ Guaranteed s.world size (2 ^ k) := by
  have steady := steady_of_reachable reserves s reached
  obtain ⟨sized, fits⟩ := steady.sized
  cases empty : cached s.world size with
  | some node =>
      obtain ⟨rfl, taken⟩ := steady.take size k node ptr world word empty made
      have smaller := (alignSize_room size taken.room).2.1
      refine ⟨fun granted => ⟨taken.room, fun node same => ?_, fun none => ?_⟩, fun ⟨_, aligned, _⟩ => ?_⟩
      · obtain rfl := Option.some.inj (empty.symm.trans same)
        exact granted.aligned
      · rw [empty] at none
        cases none
      · exact .of_block size _ ptr world (aligned ptr empty) smaller (taken.arena ▸ taken.inside)
          (taken.arena ▸ fits) taken.apart
  | none =>
      have bumped := made
      rw [metalloc_bumped s.world size (2 ^ k) empty] at bumped
      by_cases room : size + alignQuantum - 1 < 2 ^ 64
      · refine ⟨fun granted => ⟨room, fun node same => ?_, fun _ =>
          steady.servable_of_granted reserves size k ptr world room fine bumped granted⟩,
          fun ⟨_, _, servable⟩ => ?_⟩
        · rw [empty] at same
          cases same
        · obtain ⟨served, _⟩ := steady.serve reserves size k ptr world room fine empty made (servable empty)
          refine .of_block size _ ptr world served.aligned (alignSize_room size room).2.1 served.inside
            served.fits fun b alive => ?_
          obtain ⟨⟨bins, sound, _⟩, _⟩ := steady
          exact (served.grown b.range (sound.inside b.range (.inl ⟨b, alive, rfl⟩))).2
      · refine iff_of_false (fun granted => ?_) fun promised => room promised.1
        obtain ⟨⟨node, arena, manager⟩, given, rest⟩ := (Result.bind_ok _ _ _).mp bumped
        cases rest
        obtain ⟨below, above⟩ := granted.bound reserves (sized.alloc reserves _ _ ptr given)
        unfold alignQuantum at room
        unfold pageSize at above
        omega

end Steps

-- Two blocks on a page, of which the second came back: its list hands it out for any alignment.
theorem second_recycled : ∃ (s : Run) (node : Nat), (guaranteed PageManager.rowOfRegions).Reachable s ∧
    cached s.world 16 = some node ∧ 2 ^ 4 ∣ node ∧ ¬ 2 ^ 12 ∣ node ∧
    ∀ alignment, ∃ world, MetaArena.metalloc s.world 16 alignment = .ok (node, world) := by
  let memory : RawMemory := fun _ => 0#8
  obtain ⟨fresh, manager, first, built⟩ := onePage_built memory
  have started : (guaranteed PageManager.rowOfRegions).Reachable ⟨onePage manager memory, [], [], []⟩ :=
    .start ⟨⟨_, []⟩, memory, _, pageSize, .start ⟨_, first, rfl⟩, by decide, built, rfl⟩
  obtain ⟨one, two, made, arena, blank, made', back, again⟩ : ∃ one two,
      MetaArena.metalloc (onePage manager memory) 32 (2 ^ 4) = .ok (memoryChunkSize, one) ∧
      one.metaArena.arena = ⟨[⟨memoryChunkSize, pageSize, 32, 1⟩], 0, pageSize⟩ ∧
      (∀ i, one.metaArena.freeListHead i = none) ∧
      MetaArena.metalloc one 16 (2 ^ 4) = .ok (memoryChunkSize + 32, two) ∧
      cached (metarecycle two (memoryChunkSize + 32) 16) 16 = some (memoryChunkSize + 32) ∧
      ∀ alignment, ∃ world, MetaArena.metalloc (metarecycle two (memoryChunkSize + 32) 16) 16 alignment =
        .ok (memoryChunkSize + 32, world) :=
    ⟨_, _, rfl, rfl, fun _ => rfl, rfl, rfl, fun _ => ⟨_, rfl⟩⟩
  have serves (w : World RawMemory) (offset size : Nat)
      (arena : w.metaArena.arena = ⟨[⟨memoryChunkSize, pageSize, offset, 1⟩], 0, pageSize⟩)
      (stays : Arena.alignForward offset (2 ^ 4) = offset)
      (room : offset + alignSize size ≤ pageSize) (small : size + alignQuantum - 1 < 2 ^ 64)
      (blank : ∀ i, w.metaArena.freeListHead i = none) : Guaranteed w size (2 ^ 4) := by
    have bound : pageSize < 2 ^ 64 := by decide
    refine ⟨small, fun node taken => ?_, fun _ c found => ?_⟩
    · have picked := (metalloc_cached w size 1 node taken).2.1
      rw [blank] at picked
      cases picked
    · rw [arena] at found
      cases found
      dsimp only
      rw [stays, Nat.mod_eq_of_lt (by omega), if_pos room]
      exact ⟨by omega, by decide⟩
  have first := started.step (Run.guaranteed_metalloc (by decide) (by decide) made
    (serves _ 0 32 rfl (by decide) (by decide) (by decide) fun _ => rfl))
  have second := first.step (Run.guaranteed_metalloc (by decide) (by decide) made'
    (serves one 32 16 arena (by decide) (by decide) (by decide) blank))
  have third := second.step (Run.guaranteed_metarecycle ⟨memoryChunkSize + 32, 16⟩ List.mem_cons_self)
  exact ⟨_, _, third, back, by decide, by decide, again⟩

theorem recycled_unaligned : ∃ (s : Run) (ptr : Nat) (world : World RawMemory),
    (limits PageManager.rowOfRegions).Reachable s ∧
      MetaArena.metalloc s.world 16 (2 ^ 12) = .ok (ptr, world) ∧ ¬ Granted s world ptr 16 (2 ^ 12) := by
  obtain ⟨s, node, reached, _, _, unaligned, again⟩ := second_recycled
  obtain ⟨world, made⟩ := again (2 ^ 12)
  exact ⟨s, node, world, System.restrict_reachable _ _ reached, made,
    fun granted => unaligned granted.aligned⟩

theorem recycled_granted : ∃ (s : Run) (ptr : Nat) (world : World RawMemory),
    (guaranteed PageManager.rowOfRegions).Reachable s ∧
      MetaArena.metalloc s.world 16 (2 ^ 4) = .ok (ptr, world) ∧ Granted s world ptr 16 (2 ^ 4) := by
  obtain ⟨s, node, reached, back, aligned, _, again⟩ := second_recycled
  obtain ⟨world, made⟩ := again (2 ^ 4)
  refine ⟨s, node, world, reached, made, (metalloc_guarantee rowOfRegions_reserves s reached
    16 4 node (by decide) (by decide) world made).mpr ⟨by decide, fun other same => ?_, fun none => ?_⟩⟩
  · obtain rfl := Option.some.inj (back.symm.trans same)
    exact aligned
  · rw [back] at none
    cases none

end MetaArena

end ElySquare
