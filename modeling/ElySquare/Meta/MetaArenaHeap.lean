import ElySquare.Shared.LittleEndian
import ElySquare.Allocators.ArenaRun
import ElySquare.Meta.MetaArenaInvariant

set_option autoImplicit false

namespace ElySquare

-- Memory by bytes: a free list's link is a pointer in the first eight bytes of its node.
def RawMemory : Type := Nat → BitVec 8

def asPointer (value : Nat) : Option Nat := if value = 0 then none else some value

def asWord (pointer : Option Nat) : Nat := pointer.getD 0

instance : LinkStore RawMemory where
  next m p := .ok (asPointer (LittleEndian.read m p 8))
  setNext m p v := LittleEndian.write m p 8 (asWord v)

theorem raw_next_eq (m : RawMemory) (p : Nat) :
    LinkStore.next m p = .ok (asPointer (LittleEndian.read m p 8)) := rfl

theorem raw_next_congr (left right : RawMemory) (p : Nat)
    (same : ∀ x, p ≤ x → x < p + 8 → left x = right x) :
    LinkStore.next left p = LinkStore.next right p := by
  rw [raw_next_eq, raw_next_eq, LittleEndian.read_congr left right p 8 same]

theorem asPointer_asWord (v : Option Nat) (valid : ∀ q, v = some q → 0 < q ∧ q < 2 ^ 64) :
    asWord v < 2 ^ 64 ∧ asPointer (asWord v) = v := by
  cases v with
  | none => exact ⟨Nat.two_pow_pos 64, rfl⟩
  | some q =>
      obtain ⟨positive, small⟩ := valid q rfl
      exact ⟨small, if_neg (Nat.ne_of_gt positive)⟩

instance : LawfulLinks RawMemory where
  next_here m p v valid := by
    obtain ⟨small, back⟩ := asPointer_asWord v valid
    rw [raw_next_eq]
    have written := LittleEndian.read_write m p 8 (asWord v) small
    exact congrArg Except.ok ((congrArg asPointer written).trans back)
  next_there m p v q apart :=
    raw_next_congr _ _ q fun x above below =>
      LittleEndian.write_outside m p 8 (asWord v) x (by omega)

namespace MetaArena

open Linked Transition

/-- A meta arena in a program: `others` are the page chunks that other parts of the program hold,
`recycled` all blocks that were ever given back. -/
structure Run where
  world : World RawMemory
  others : List PageManager.Chunk
  live : List Block
  recycled : List Block

inductive Call
  | metalloc (size alignment : Nat)
  | metarecycle (ptr size : Nat)
  | write
  | request (pageCount : Nat)
  | release (chunk : PageManager.Chunk)
deriving DecidableEq, Repr

def LiveByte (live : List Block) (x : Nat) : Prop :=
  ∃ b ∈ live, b.ptr ≤ x ∧ x < b.ptr + alignSize b.size

inductive Run.Step : Run → Call → Run → Prop
  | metalloc (s : Run) (size k ptr : Nat) (world : World RawMemory) (small : size < 2 ^ 63)
      (fine : k ≤ 4) (made : MetaArena.metalloc s.world size (2 ^ k) = .ok (ptr, world)) :
      Step s (.metalloc size (2 ^ k)) ⟨world, s.others, ⟨ptr, size⟩ :: s.live, s.recycled⟩
  | metarecycle (s : Run) (b : Block) (size : Nat) (alive : b ∈ s.live)
      (same : alignSize size = alignSize b.size) :
      Step s (.metarecycle b.ptr size)
        ⟨MetaArena.metarecycle s.world b.ptr size, s.others, s.live.erase b, b :: s.recycled⟩
  -- the owners of the live blocks write what they like, there
  | write (s : Run) (memory : RawMemory)
      (frame : ∀ x, ¬ LiveByte s.live x → memory x = s.world.memory x) :
      Step s .write ⟨{ s.world with memory := memory }, s.others, s.live, s.recycled⟩
  | request (s : Run) (fuel pageCount ptr : Nat) (manager : PageManager)
      (made : s.world.manager.requestPageChunk fuel pageCount = .ok (some ptr, manager)) :
      Step s (.request pageCount)
        ⟨{ s.world with manager := manager }, ⟨ptr, pageCount⟩ :: s.others, s.live, s.recycled⟩
  | release (s : Run) (chunk : PageManager.Chunk) (manager : PageManager) (alive : chunk ∈ s.others)
      (made : s.world.manager.releasePageChunk chunk.ptr chunk.pages = .ok manager) :
      Step s (.release chunk)
        ⟨{ s.world with manager := manager }, s.others.erase chunk, s.live, s.recycled⟩

def system (reservations : Nat → Option Nat) (size : Nat) : System Run Call where
  start s := ∃ pages memory world, (PageManager.system reservations).Reachable pages ∧
    construct pages.manager size memory = .ok world ∧ s = ⟨world, pages.live, [], []⟩
  step := Run.Step

def InChunk (arena : Arena) (r : Range) : Prop :=
  ∃ c ∈ arena.chunks, c.data ≤ r.start ∧ r.finish ≤ c.data + c.capacity

structure Intact (s : Run) (bins : Nat → List Nat) : Prop where
  inChunk : ∀ r ∈ liveRanges s.live ∪ nodeRanges bins, InChunk s.world.metaArena.arena r
  apart : ∀ r ∈ liveRanges s.live ∪ nodeRanges bins, ∀ t ∈ liveRanges s.live ∪ nodeRanges bins,
    r ≠ t → Range.Apart r t
  separate : Disjoint (liveRanges s.live) (nodeRanges bins)
  distinct : (s.live.map Block.ptr).Nodup
  aligned : ∀ b ∈ s.live, 16 ∣ b.ptr ∧ b.size ≤ alignSize b.size
  linked : ∀ i, i < numBuckets →
    Chain (follow s.world.memory) (s.world.metaArena.freeListHead i) (bins i) ∧ (bins i).Nodup
  nodes : ∀ i p, i < numBuckets → p ∈ bins i →
    (∃ b ∈ s.recycled, b.ptr = p ∧ alignSize b.size = 16 * (i + 1)) ∧
      (∀ j, j < numBuckets → p ∈ bins j → j = i) ∧ p ∉ s.live.map Block.ptr

def Recycled (s : Run) (bins : Nat → List Nat) : Prop :=
  ∀ i p, i < numBuckets → p ∈ bins i →
    ∃ b ∈ s.recycled, b.ptr = p ∧ alignSize b.size = 16 * (i + 1)

theorem Sound.intact {reservations : Nat → Option Nat} {s : Run} {bins : Nat → List Nat}
    (sound : Sound reservations s.world s.others s.live bins) (recycled : Recycled s bins) :
    Intact s bins := by
  refine ⟨?_, sound.apart, sound.separate, sound.distinct, ?_, ?_, ?_⟩
  · intro r member
    obtain ⟨c, inside, above, below⟩ := sound.inside r member
    exact ⟨c, inside, above, Nat.le_trans below (Nat.add_le_add_left (sound.arena.fits c inside) _)⟩
  · intro b alive
    exact ⟨(sound.placed b.range (.inl ⟨b, alive, rfl⟩)).1,
      (alignSize_bounds b.size (sound.small b alive)).2.2.1⟩
  · exact fun i small => ⟨sound.linked i small, (sound.linked i small).nodup⟩
  · intro i p small listed
    have node : (⟨p, 16 * (i + 1)⟩ : Range) ∈ nodeRanges bins := ⟨i, p, small, listed, rfl⟩
    refine ⟨recycled i p small listed, fun j small' listed' => ?_, fun alive => ?_⟩
    · have again : (⟨p, 16 * (j + 1)⟩ : Range) ∈ nodeRanges bins := ⟨j, p, small', listed', rfl⟩
      have same := sound.start_inj _ _ (.inr node) (.inr again) rfl
      simp only [Range.mk.injEq] at same
      omega
    · obtain ⟨b, member, same⟩ := List.mem_map.mp alive
      have twice := sound.start_inj b.range _ (.inl ⟨b, member, rfl⟩) (.inr node) same
      exact Set.disjoint_left.mp sound.separate ⟨b, member, rfl⟩ (twice ▸ node)

section Steps

variable {reservations : Nat → Option Nat} {size : Nat}

def Held (reservations : Nat → Option Nat) (s : Run) : Prop :=
  ∃ bins, Sound reservations s.world s.others s.live bins ∧ Recycled s bins

theorem held_start (reserves : Reserves reservations) (rounds : size + pageSize - 1 < 2 ^ 64)
    (s : Run) (started : (system reservations size).start s) : Held reservations s := by
  obtain ⟨pages, memory, world, reached, made, rfl⟩ := started
  have ledger := PageManager.ledger_of_reachable reservations reserves.regions pages reached
  exact ⟨_, Sound.construct_sound reserves size rounds _ memory ledger world made,
    fun _ _ _ listed => by cases listed⟩

theorem held_step (reserves : Reserves reservations) (s t : Run) (call : Call)
    (held : Held reservations s) (taken : Run.Step s call t) : Held reservations t := by
  obtain ⟨bins, sound, recycled⟩ := held
  cases taken with
  | metalloc size k ptr world small fine made =>
      obtain ⟨_, bins', sound', fewer⟩ := sound.metalloc_spec reserves size k small fine ptr world made
      exact ⟨bins', sound', fun i p inside listed => recycled i p inside (fewer i p listed)⟩
  | metarecycle b size alive same =>
      obtain ⟨bins', sound', from'⟩ := sound.metarecycle_spec b alive size same
      refine ⟨bins', sound', fun i p inside listed => ?_⟩
      rcases from' i p inside listed with old | ⟨rfl, rounds⟩
      · obtain ⟨c, given, shape⟩ := recycled i p inside old
        exact ⟨c, List.mem_cons_of_mem _ given, shape⟩
      · exact ⟨b, List.mem_cons_self, rfl, rounds⟩
  | write memory frame =>
      refine ⟨bins, sound.write_sound memory fun i p inside listed => ?_, recycled⟩
      have node : (⟨p, 16 * (i + 1)⟩ : Range) ∈ nodeRanges bins := ⟨i, p, inside, listed, rfl⟩
      refine raw_next_congr _ _ p fun x above below => frame x ?_
      rintro ⟨b, alive, first, last⟩
      have range : b.range ∈ liveRanges s.live := ⟨b, alive, rfl⟩
      have apart := sound.apart b.range (.inl range) _ (.inr node) fun same =>
        Set.disjoint_left.mp sound.separate range (same ▸ node)
      unfold Range.Apart Range.finish Block.range at apart
      dsimp only at apart
      omega
  | request fuel pageCount ptr manager made =>
      have arena := sound.arena.request_other reserves fuel pageCount ptr manager made
      exact ⟨bins, { sound with arena := arena }, recycled⟩
  | release chunk manager alive made =>
      have arena := sound.arena.release_other reserves chunk alive manager made
      exact ⟨bins, { sound with arena := arena }, recycled⟩

theorem held_of_reachable (reserves : Reserves reservations) (rounds : size + pageSize - 1 < 2 ^ 64)
    (s : Run) (reached : (system reservations size).Reachable s) : Held reservations s :=
  System.invariant _ (Held reservations) (held_start reserves rounds)
    (fun s call t held taken => held_step reserves s t call held taken) reached

end Steps

theorem firstPage_sound {Memory : Type} [LinkStore Memory] (fresh : PageManager)
    (first : PageManager.construct PageManager.rowOfRegions = .ok fresh) (memory : Memory)
    (after : World Memory) (built : construct fresh pageSize memory = .ok after) :
    Sound PageManager.rowOfRegions after [] [] fun _ => [] := by
  have ledger := PageManager.Ledger.construct_ledger rowOfRegions_reserves.regions _ first
  exact Sound.construct_sound rowOfRegions_reserves pageSize (by decide) fresh memory ledger _ built

def onePage {Memory : Type} (manager : PageManager) (memory : Memory) : World Memory :=
  ⟨manager, ⟨⟨[⟨memoryChunkSize, pageSize, 0, 1⟩], 0, pageSize⟩, none, fun _ => none⟩, memory, []⟩

theorem onePage_built {Memory : Type} [LinkStore Memory] (memory : Memory) : ∃ fresh manager,
    PageManager.construct PageManager.rowOfRegions = .ok fresh ∧
      construct fresh pageSize memory = .ok (onePage manager memory) :=
  ⟨_, _, rfl, rfl⟩

theorem onePage_sound {Memory : Type} [LinkStore Memory] (memory : Memory) :
    ∃ manager, Sound PageManager.rowOfRegions (onePage manager memory) [] [] fun _ => [] := by
  obtain ⟨fresh, manager, first, built⟩ := onePage_built memory
  exact ⟨manager, firstPage_sound fresh first memory _ built⟩

def zeroedMemory : RawMemory := fun _ => 0#8

theorem onePage_recycled : ∃ s, (system PageManager.rowOfRegions pageSize).Reachable s ∧
    s.world.calls = [.returned memoryChunkSize 16, .lent memoryChunkSize 16] ∧
    ∃ world, metalloc s.world 16 (2 ^ 4) = .ok (memoryChunkSize, world) ∧
      Loans.lentCount world.calls = 2 := by
  obtain ⟨fresh, manager, first, built⟩ := onePage_built zeroedMemory
  obtain ⟨w₁, w₂, made, calls, again⟩ : ∃ w₁ w₂,
      metalloc (onePage manager zeroedMemory) 16 (2 ^ 4) = .ok (memoryChunkSize, w₁) ∧
      (metarecycle w₁ memoryChunkSize 16).calls =
        [.returned memoryChunkSize 16, .lent memoryChunkSize 16] ∧
      metalloc (metarecycle w₁ memoryChunkSize 16) 16 (2 ^ 4) = .ok (memoryChunkSize, w₂) ∧
      Loans.lentCount w₂.calls = 2 := ⟨_, _, rfl, rfl, rfl, rfl⟩
  have started : (system PageManager.rowOfRegions pageSize).Reachable ⟨_, [], [], []⟩ :=
    .start ⟨⟨_, []⟩, _, _, .start ⟨_, first, rfl⟩, built, rfl⟩
  have lent := started.step (.metalloc _ 16 4 _ _ (by decide) (by decide) made)
  have back := lent.step (.metarecycle _ ⟨memoryChunkSize, 16⟩ 16 List.mem_cons_self rfl)
  exact ⟨_, back, calls, _, again⟩

section Wrapped

theorem metalloc_large (w : World RawMemory) (data : Nat)
    (arena : w.metaArena.arena.chunks[w.metaArena.arena.current]? = some ⟨data, pageSize, 0, 1⟩)
    (next : Nat) (after : PageManager)
    (default : 8192 ≤ w.metaArena.arena.defaultSize)
    (made : Arena.newChunk w.manager w.metaArena.arena.defaultSize =
      .ok (⟨next, pageSize, 0, 1⟩, after)) :
    ∃ world, metalloc w 8192 (2 ^ 4) = .ok (next, world) ∧
      world.metaArena.arena.chunks =
        w.metaArena.arena.chunks.take (w.metaArena.arena.current + 1) ++ [⟨next, pageSize, 8192, 1⟩] := by
  have aligned : alignSize 8192 = 8192 := by decide
  have bucket : ¬ getBucketIndex 8192 < numBuckets := by decide
  have allocated := Arena.alloc_large _ w.manager data arena default next after made
  unfold metalloc bump
  simp only [aligned, if_neg bucket, allocated, Result.ok_bind]
  exact ⟨_, rfl, rfl⟩

theorem wrapped_overruns (size : Nat) (bound : size < 2 ^ 64)
    (wraps : 2 ^ 64 ≤ size + pageSize - 1) :
    ∃ s, (system PageManager.rowOfRegions size).Reachable s ∧
      (∃ ptr, s.live = [⟨ptr, 8192⟩]) ∧
      (∀ c ∈ s.world.metaArena.arena.chunks, c.capacity = pageSize) ∧ ∀ bins, ¬ Intact s bins := by
  obtain ⟨fresh, data, manager, next, manager', first, new, new'⟩ :=
    Arena.single_chunks size (pagesOf_wrapped size bound wraps)
  let world : World RawMemory := ⟨manager, ⟨⟨[⟨data, pageSize, 0, 1⟩], 0, size⟩, none, fun _ => none⟩,
    fun _ => 0#8, []⟩
  have built : construct fresh size (fun _ => 0#8) = .ok world := by
    unfold construct Arena.construct
    rw [new]
    rfl
  have started : (system PageManager.rowOfRegions size).Reachable ⟨world, [], [], []⟩ :=
    .start ⟨⟨_, []⟩, _, world, .start ⟨_, first, rfl⟩, built, rfl⟩
  have large : 8192 ≤ size := by
    unfold pageSize at wraps
    omega
  obtain ⟨after, made, chunks⟩ := metalloc_large world data rfl next manager' large new'
  have small : ∀ c ∈ after.metaArena.arena.chunks, c.capacity = pageSize := by
    rw [chunks]
    simp [world]
  refine ⟨⟨after, [], [⟨next, 8192⟩], []⟩,
    .step started (.metalloc _ 8192 4 next after (by decide) (by decide) made), ⟨next, rfl⟩, small, ?_⟩
  intro bins intact
  have range : (⟨next, alignSize 8192⟩ : Range) ∈ liveRanges [⟨next, 8192⟩] :=
    ⟨⟨next, 8192⟩, List.mem_singleton.mpr rfl, rfl⟩
  obtain ⟨c, inside, above, below⟩ := intact.inChunk _ (.inl range)
  have aligned : alignSize 8192 = 8192 := by decide
  rw [small c inside, aligned] at below
  unfold Range.finish pageSize at below
  dsimp only at above below
  omega

end Wrapped

theorem metaArena_intact (size : Nat) (bound : size < 2 ^ 64) :
    (∀ reservations, Reserves reservations → ∀ s, (system reservations size).Reachable s →
      ∃ bins, Intact s bins) ↔ size ≤ 2 ^ 64 - pageSize := by
  constructor
  · intro always
    by_contra large
    obtain ⟨s, reached, _, _, broken⟩ := wrapped_overruns size bound (by unfold pageSize at *; omega)
    obtain ⟨bins, intact⟩ := always _ rowOfRegions_reserves s reached
    exact broken bins intact
  · intro rounds reservations reserves s reached
    obtain ⟨bins, sound, recycled⟩ :=
      held_of_reachable reserves (by unfold pageSize at *; omega) s reached
    exact ⟨bins, sound.intact recycled⟩

theorem metaArena_intact_page : (∀ reservations, Reserves reservations → ∀ s,
    (system reservations 4096).Reachable s → ∃ bins, Intact s bins) ↔ 4096 ≤ 2 ^ 64 - pageSize :=
  metaArena_intact 4096 (by decide)

theorem metalloc_overruns_chunk : ∃ s,
    (system PageManager.rowOfRegions (2 ^ 64 - 1)).Reachable s ∧ (∃ ptr, s.live = [⟨ptr, 8192⟩]) ∧
      (∀ c ∈ s.world.metaArena.arena.chunks, c.capacity = pageSize) ∧ ∀ bins, ¬ Intact s bins :=
  wrapped_overruns (2 ^ 64 - 1) (by decide) (by decide)

end MetaArena

end ElySquare
