import ElySquare.Shared.Lifo
import ElySquare.Allocators.BlockPool

set_option autoImplicit false

namespace ElySquare

namespace BlockAllocator

open Linked Pool Transition

def Call.order (s : Run) : Call → Lifo.Order Nat
  | .alloc size => if size > s.pool.blockSize then .rest else .take
  | .uncheckedAlloc => .take
  | .free ptr => .give ptr
  | .write => .rest

structure Mirrors (count : Nat) (s : Run) (blocks : Lifo Nat) : Prop where
  all : blocks.all = slots s.pool.chunk s.pool.blockSize count
  listed : Chain (MetaArena.follow s.pool.memory) s.pool.freeList blocks.free
  live : blocks.live = s.live

theorem slots_take (base stride : Nat) {some all : Nat} (few : some ≤ all) :
    (slots base stride all).take some = slots base stride some := by
  induction some generalizing base all with
  | zero => rfl
  | succ some ih =>
      cases all with
      | zero => cases few
      | succ all => simp [slots, ih (base + stride) (Nat.le_of_succ_le_succ few)]

section Steps

variable {count alignment : Nat} {s t : Run} {blocks : Lifo Nat}

theorem Mirrors.take (mirrors : Mirrors count s blocks) :
    Mirrors count ⟨{ s.pool with freeList := s.pool.freeList.bind (MetaArena.follow s.pool.memory) },
      s.pool.freeList.toList ++ s.live⟩ blocks.take := by
  obtain ⟨all, listed, live⟩ := mirrors
  refine ⟨blocks.take_all.trans all, ?_, ?_⟩
  · rw [Lifo.take_free]
    cases free : blocks.free with
    | nil =>
        rw [free] at listed
        have none : s.pool.freeList = none := listed
        dsimp only
        rw [none]
        rfl
    | cons cell rest =>
        rw [free] at listed
        dsimp only
        rw [listed.1, Option.bind_some]
        exact listed.2
  · rw [Lifo.take_live, ← listed.head_eq, live]

theorem Mirrors.step (kept : Kept count alignment s blocks.free) (mirrors : Mirrors count s blocks)
    (call : Call) (taken : Run.Step s call t) :
    ∃ blocks', Lifo.Step blocks (call.order s) blocks' ∧ Kept count alignment t blocks'.free ∧
      Mirrors count t blocks' := by
  obtain ⟨cells, kept'⟩ := kept.step call taken
  have mirrored (blocks' : Lifo Nat) (mirrors' : Mirrors count t blocks') :
      Kept count alignment t blocks'.free ∧ Mirrors count t blocks' :=
    ⟨kept'.shared.linked.unique _ _ mirrors'.listed ▸ kept', mirrors'⟩
  cases taken with
  | alloc size ptr pool made =>
      unfold alloc at made
      simp only [Call.order]
      by_cases large : size > s.pool.blockSize
      · rw [if_pos large] at made ⊢
        cases made
        exact ⟨blocks, .rest _, mirrored _ mirrors⟩
      · rw [if_neg large] at made ⊢
        rw [uncheckedAlloc_eq] at made
        cases made
        exact ⟨_, .take _, mirrored _ mirrors.take⟩
  | uncheckedAlloc ptr pool made =>
      rw [uncheckedAlloc_eq] at made
      cases made
      exact ⟨_, .take _, mirrored _ mirrors.take⟩
  | free ptr alive =>
      have given := (kept.free ptr alive).shared.linked
      have fields : (s.pool.free ptr).chunk = s.pool.chunk ∧
          (s.pool.free ptr).blockSize = s.pool.blockSize := by
        unfold BlockAllocator.free
        split <;> exact ⟨rfl, rfl⟩
      refine ⟨_, .give _ ptr (mirrors.live ▸ alive), mirrored _ ⟨?_, given, ?_⟩⟩
      · rw [fields.1, fields.2]
        exact mirrors.all
      · exact congrArg (·.erase ptr) mirrors.live
  | write memory frame =>
      exact ⟨blocks, .rest _, mirrored _ ⟨mirrors.all, (kept.write memory frame).shared.linked, mirrors.live⟩⟩

end Steps

section Runs

variable {reservations : Nat → Option Nat} {elemSize blocksCount k : Nat}

def observed (reservations : Nat → Option Nat) (elemSize blocksCount align : Nat) :
    System (Run × Lifo.Usage Nat) Call :=
  (system reservations elemSize blocksCount align).recorded ⟨∅, 0⟩ fun s _ usage => usage.with s.live

theorem pool_simulates (reserves : Reserves reservations) (some : 1 ≤ elemSize) (blocks : 1 ≤ blocksCount)
    (fine : k ≤ 12) (room : roundedSize elemSize (2 ^ k) * blocksCount < 2 ^ 64) :
    (system reservations elemSize blocksCount (2 ^ k)).Simulates Lifo.system
      (fun s blocks => Kept blocksCount (2 ^ k) s blocks.free ∧ Mirrors blocksCount s blocks)
      (fun s call => call.order s) where
  start := by
    rintro ⟨pool, _⟩ ⟨run, memory, after, reached, made, rfl⟩
    have one : roundedSize elemSize (2 ^ k) ≤ roundedSize elemSize (2 ^ k) * blocksCount :=
      Nat.le_mul_of_pos_right _ blocks
    have fits := (rounded_room fine (Nat.lt_of_le_of_lt one room)).2
    rw [← blockSizeOf_eq fine fits] at room
    have kept := construct_kept reserves (PageManager.ledger_of_reachable _ reserves.regions run reached)
      made room (Nat.pow_dvd_pow 2 fine) (blockSizeOf_dvd fine some fits)
    exact ⟨.new _, ⟨_, rfl⟩, kept, rfl, kept.shared.linked, rfl⟩
  step := by
    rintro s blocks call t ⟨kept, mirrors⟩ taken
    exact mirrors.step kept call taken

theorem block_footprint (reserves : Reserves reservations) (some : 1 ≤ elemSize) (blocks : 1 ≤ blocksCount)
    (fine : k ≤ 12) (room : roundedSize elemSize (2 ^ k) * blocksCount < 2 ^ 64) (s : Run)
    (usage : Lifo.Usage Nat)
    (reached : (observed reservations elemSize blocksCount (2 ^ k)).Reachable (s, usage)) :
    ∃ blocks : Lifo Nat, Lifo.system.Reachable blocks ∧ Mirrors blocksCount s blocks ∧
      blocks.opened = (usage.with s.live).peak ∧
      (∀ p, p ∈ (usage.with s.live).seen ↔ ∃ i < blocks.opened, p = slot s.pool i) ∧
      ∀ call t, Run.Step s call t →
        ∃ blocks', Lifo.Step blocks (call.order s) blocks' ∧ Mirrors blocksCount t blocks' := by
  have simulates := pool_simulates reserves some blocks fine room
  have recorded := simulates.recorded ⟨∅, 0⟩ (fun s _ usage => usage.with s.live)
    (fun blocks _ usage => Lifo.Usage.with usage blocks.live) fun s blocks _ usage holds => by
      rw [holds.2.live]
  obtain ⟨⟨blocks, _⟩, made, ⟨kept, mirrors⟩, rfl⟩ := recorded.reachable reached
  have tight := Lifo.tight_of_reachable made
  have within := tight.within
  rw [mirrors.all, length_slots] at within
  refine ⟨blocks, ?_, mirrors, ?_, fun p => ?_, fun call t taken => ?_⟩
  · exact System.recorded_reachable made
  · rw [← mirrors.live]
    exact tight.peak.symm
  · rw [← mirrors.live, tight.seen, List.mem_toFinset, mirrors.all,
      slots_take _ _ within, mem_slots]
    rfl
  · obtain ⟨blocks', step, _, mirrors'⟩ := mirrors.step kept call taken
    exact ⟨blocks', step, mirrors'⟩

theorem block_footprint_pair : ∃ (s : Run) (blocks : Lifo Nat), s.live = [memoryChunkSize] ∧
    Mirrors 2 s blocks ∧ blocks.opened = 1 ∧ ∀ call t, Run.Step s call t →
      ∃ blocks', Lifo.Step blocks (call.order s) blocks' ∧ Mirrors 2 t blocks' := by
  let memory : RawMemory := fun _ => 0#8
  let pool : BlockAllocator RawMemory := ⟨memoryChunkSize, pageSize, 16, 1, some memoryChunkSize,
    linkBlocks memoryChunkSize 16 1 1 memoryChunkSize memory⟩
  obtain ⟨fresh, manager, first, built⟩ := pairs_built memory
  have started : (observed PageManager.rowOfRegions 16 2 (2 ^ 4)).Reachable (⟨pool, []⟩, ⟨∅, 0⟩) :=
    .start ⟨⟨⟨fresh, []⟩, memory, manager, .start ⟨_, first, rfl⟩, built, rfl⟩, rfl⟩
  have taken := Run.Step.uncheckedAlloc ⟨pool, []⟩ _ _ (uncheckedAlloc_eq pool)
  obtain ⟨blocks, _, mirrors, opened, _, steps⟩ := block_footprint rowOfRegions_reserves (by decide)
    (by decide) (k := 4) (by decide) (by decide) _ _
    (started.step (show (observed _ _ _ _).step _ _ (_, _) from ⟨taken, rfl⟩))
  exact ⟨_, blocks, rfl, mirrors, opened, steps⟩

end Runs

end BlockAllocator

end ElySquare
