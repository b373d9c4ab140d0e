import ElySquare.Allocators.BlockPool

set_option autoImplicit false

namespace ElySquare

namespace BlockAllocator

open Linked Transition Pool

structure Furnished (pool : BlockAllocator RawMemory) (elemSize count align : Nat) (cells : List Nat) :
    Prop where
  linked : Chain (MetaArena.follow pool.memory) pool.freeList cells
  count : cells.length = count
  large : elemSize ≤ pool.blockSize
  inside : ∀ p ∈ cells, pool.chunk ≤ p ∧ p + pool.blockSize ≤ pool.chunk + pool.chunkSize
  apart : cells.Pairwise (Apart pool.blockSize)
  aligned : ∀ p ∈ cells, align ∣ p

def Right (manager : PageManager) (memory : RawMemory) (elemSize blocksCount align : Nat) : Prop :=
  (2 ^ 64 ≤ roundedSize elemSize align * blocksCount ∧
      ∃ stop, construct manager memory elemSize blocksCount align = .error stop) ∨
    ∃ pool after cells, construct manager memory elemSize blocksCount align = .ok (pool, after) ∧
      Furnished pool elemSize blocksCount align cells

-- The last 64 bits of the product, which are rounded up to no page at all.
def NoPages (elemSize blocksCount align : Nat) : Prop :=
  let size := if elemSize + align - 1 < 2 ^ 64 then roundedSize elemSize align else sizeofFreeBlock
  size * blocksCount % 2 ^ 64 = 0 ∨ 2 ^ 64 - pageSize < size * blocksCount % 2 ^ 64

-- There are blocks, and either the pages for them can be counted in a word, or a product that cannot
-- be is rounded to no page. Blocks for elements of no size are not aligned to more than eight bytes.
def Sizable (elemSize blocksCount align : Nat) : Prop :=
  0 < blocksCount ∧
    ((roundedSize elemSize align * blocksCount + pageSize - 1 < 2 ^ 64 ∧
        (elemSize = 0 → blocksCount = 1 ∨ align ≤ sizeofFreeBlock)) ∨
      (2 ^ 64 ≤ roundedSize elemSize align * blocksCount ∧ NoPages elemSize blocksCount align))

section Limits

variable {reservations : Nat → Option Nat} {manager : PageManager} {memory : RawMemory}
  {elemSize blocksCount k : Nat}

theorem blockSizeOf_cases (fine : k ≤ 12) (word : elemSize < 2 ^ 64) :
    blockSizeOf elemSize (2 ^ k) =
      if elemSize + 2 ^ k - 1 < 2 ^ 64 then roundedSize elemSize (2 ^ k) else sizeofFreeBlock := by
  by_cases room : elemSize + 2 ^ k - 1 < 2 ^ 64
  · rw [if_pos room, blockSizeOf_eq fine room]
  · rw [if_neg room, blockSizeOf_wraps fine word (Nat.not_lt.mp room)]

theorem noPages_iff (fine : k ≤ 12) (word : elemSize < 2 ^ 64) :
    NoPages elemSize blocksCount (2 ^ k) ↔ requestedPages elemSize blocksCount (2 ^ k) = 0 := by
  unfold NoPages requestedPages pageSize
  dsimp only
  rw [← blockSizeOf_cases fine word]
  have bound := Nat.mod_lt (blockSizeOf elemSize (2 ^ k) * blocksCount) (Nat.two_pow_pos 64)
  generalize blockSizeOf elemSize (2 ^ k) * blocksCount % 2 ^ 64 = low at *
  omega

theorem requestedPages_some (fine : k ≤ 12) (blocks : 0 < blocksCount)
    (room : roundedSize elemSize (2 ^ k) * blocksCount + pageSize - 1 < 2 ^ 64) :
    requestedPages elemSize blocksCount (2 ^ k) ≠ 0 := by
  have one : roundedSize elemSize (2 ^ k) ≤ roundedSize elemSize (2 ^ k) * blocksCount :=
    Nat.le_mul_of_pos_right _ blocks
  have wide := blockSizeOf_wide elemSize (2 ^ k)
  unfold requestedPages pageSize at *
  rw [blockSizeOf_eq fine (rounded_room fine (by omega)).2] at *
  have product : roundedSize elemSize (2 ^ k) * blocksCount < 2 ^ 64 := by omega
  rw [Nat.mod_eq_of_lt product]
  omega

theorem construct_refuses (manager : PageManager) (memory : RawMemory) (align : Nat) (none : requestedPages elemSize blocksCount align = 0) :
    ∃ stop, construct manager memory elemSize blocksCount align = .error stop := by
  rw [construct_eq, none]
  exact ⟨_, rfl⟩

theorem construct_returns (memory : RawMemory) (align chunk : Nat) (after : PageManager)
    (pages : requestedPages elemSize blocksCount align ≠ 0)
    (granted : manager.requestPageChunk Arena.requestRounds (requestedPages elemSize blocksCount align) =
      .ok (some chunk, after)) :
    ∃ pool, construct manager memory elemSize blocksCount align = .ok (pool, after) := by
  have some : blocksCount ≠ 0 := by
    rintro rfl
    exact pages (requestedPages_zero elemSize align)
  rw [construct_eq, granted, Result.ok_bind]
  dsimp only
  rw [if_neg some]
  exact ⟨_, rfl⟩

theorem small_alignment (base : Nat) (first : 2 ^ k ∣ base) (second : 2 ^ k ∣ base + sizeofFreeBlock) :
    2 ^ k ≤ sizeofFreeBlock :=
  Nat.le_of_dvd (by decide) ((Nat.dvd_add_right first).mp second)

theorem blockSizeOf_zero (fine : k ≤ 12) : blockSizeOf 0 (2 ^ k) = sizeofFreeBlock := by
  have positive := Nat.two_pow_pos k
  have power := Nat.pow_le_pow_right (n := 2) (by omega) fine
  have none : Align.maskUp 64 0 (2 ^ k) = 0 :=
    Align.maskUp_of_dvd 64 k 0 (by omega) (Nat.dvd_zero _) (by omega)
  unfold blockSizeOf
  rw [none]
  rfl

variable {others : List PageManager.Chunk} {pool : BlockAllocator RawMemory} {after : PageManager}

theorem Furnished.fits (reserves : Reserves reservations)
    (ledger : PageManager.Ledger reservations manager others) (fine : k ≤ 12) (word : elemSize < 2 ^ 64)
    (made : construct manager memory elemSize blocksCount (2 ^ k) = .ok (pool, after)) {cells : List Nat}
    (furnished : Furnished pool elemSize blocksCount (2 ^ k) cells) :
    pool.blockSize = roundedSize elemSize (2 ^ k) ∧
      roundedSize elemSize (2 ^ k) * blocksCount + pageSize - 1 < 2 ^ 64 := by
  have power := Nat.pow_le_pow_right (n := 2) (by omega) fine
  obtain ⟨_, made⟩ := construct_made made
  have filled := packed furnished.inside furnished.apart
  have reach := (made.within reserves ledger).2.2.1
  have large := furnished.large
  have room : elemSize + 2 ^ k - 1 < 2 ^ 64 := by
    by_contra wraps
    rw [made.blockSize, blockSizeOf_wraps fine word (Nat.not_lt.mp wraps)] at large
    unfold sizeofFreeBlock at large
    omega
  have size := made.blockSize.trans (blockSizeOf_eq fine room)
  rw [furnished.count, Nat.mul_comm, size] at filled
  unfold memoryChunkSize at reach
  unfold pageSize
  exact ⟨size, by omega⟩

theorem Furnished.zero (reserves : Reserves reservations)
    (ledger : PageManager.Ledger reservations manager others) (fine : k ≤ 12)
    (made : construct manager memory 0 blocksCount (2 ^ k) = .ok (pool, after)) {cells : List Nat}
    (furnished : Furnished pool 0 blocksCount (2 ^ k) cells) :
    blocksCount = 1 ∨ 2 ^ k ≤ sizeofFreeBlock := by
  obtain ⟨size, room⟩ := furnished.fits reserves ledger fine (Nat.two_pow_pos 64) made
  unfold pageSize at room
  rw [← size, (construct_made made).2.blockSize] at room
  have kept := construct_kept reserves ledger made (by omega) (Nat.one_dvd _) (Nat.one_dvd _)
  obtain rfl := furnished.linked.unique _ _ kept.shared.linked
  obtain ⟨some, made⟩ := construct_made made
  by_cases one : blocksCount = 1
  · exact .inl one
  · have first := furnished.aligned _ (mem_slots.mpr ⟨0, by omega, rfl⟩)
    have second := furnished.aligned _ (mem_slots.mpr ⟨1, by omega, rfl⟩)
    rw [Nat.zero_mul, Nat.add_zero] at first
    rw [Nat.one_mul, made.blockSize, blockSizeOf_zero fine] at second
    exact .inr (small_alignment pool.chunk first second)

theorem furnished_of_sizable (reserves : Reserves reservations)
    (ledger : PageManager.Ledger reservations manager others) (fine : k ≤ 12)
    (made : construct manager memory elemSize blocksCount (2 ^ k) = .ok (pool, after))
    (room : roundedSize elemSize (2 ^ k) * blocksCount + pageSize - 1 < 2 ^ 64)
    (zero : elemSize = 0 → blocksCount = 1 ∨ 2 ^ k ≤ sizeofFreeBlock) :
    ∃ cells, Furnished pool elemSize blocksCount (2 ^ k) cells := by
  have blocks : 0 < blocksCount := Nat.pos_of_ne_zero (construct_made made).1
  have one : roundedSize elemSize (2 ^ k) ≤ roundedSize elemSize (2 ^ k) * blocksCount :=
    Nat.le_mul_of_pos_right _ blocks
  unfold pageSize at room
  obtain ⟨large, fits⟩ := rounded_room fine (by omega : roundedSize elemSize (2 ^ k) < 2 ^ 64)
  have size := blockSizeOf_eq fine fits
  have kept := construct_kept reserves ledger made (size ▸ by omega) (Nat.one_dvd _) (Nat.one_dvd _)
  obtain ⟨_, made⟩ := construct_made made
  have base : 2 ^ k ∣ pool.chunk :=
    Nat.dvd_trans (Nat.pow_dvd_pow 2 fine) (made.within reserves ledger).1
  refine ⟨_, kept.shared.linked, length_slots, ?_, fun p member => kept.within p member, slots_apart,
    fun p member => ?_⟩
  · rw [made.blockSize, size]
    exact large
  · -- every block but the first is as aligned as the size of a block
    rcases Nat.eq_zero_or_pos elemSize with rfl | some
    · rcases zero rfl with rfl | small
      · obtain ⟨i, first, rfl⟩ := mem_slots.mp member
        obtain rfl : i = 0 := by omega
        rwa [Nat.zero_mul, Nat.add_zero]
      · refine slots_dvd base ?_ member
        have power : k ≤ 3 := (Nat.pow_le_pow_iff_right (by decide : 1 < 2)).mp small
        rw [made.blockSize, blockSizeOf_zero fine]
        exact Nat.pow_dvd_pow 2 power
    · exact slots_dvd base (made.blockSize ▸ blockSizeOf_dvd fine some fits) member

end Limits

theorem construct_right {reservations : Nat → Option Nat} (reserves : Reserves reservations)
    (pages : PageManager.Run) (reached : (PageManager.system reservations).Reachable pages)
    (memory : RawMemory) (elemSize blocksCount k : Nat) (word : elemSize < 2 ^ 64) (fine : k ≤ 12)
    (granted : requestedPages elemSize blocksCount (2 ^ k) ≠ 0 → ∃ chunk after,
      pages.manager.requestPageChunk Arena.requestRounds (requestedPages elemSize blocksCount (2 ^ k)) =
        .ok (some chunk, after)) :
    Right pages.manager memory elemSize blocksCount (2 ^ k) ↔ Sizable elemSize blocksCount (2 ^ k) := by
  have ledger := PageManager.ledger_of_reachable _ reserves.regions pages reached
  unfold Sizable
  rw [noPages_iff fine word]
  by_cases none : requestedPages elemSize blocksCount (2 ^ k) = 0
  · obtain ⟨stop, refused⟩ := construct_refuses pages.manager memory _ none
    constructor
    · rintro (⟨large, _⟩ | ⟨pool, after, cells, made, _⟩)
      · refine ⟨Nat.pos_of_ne_zero ?_, .inr ⟨large, none⟩⟩
        rintro rfl
        rw [Nat.mul_zero] at large
        exact absurd large (by decide)
      · rw [refused] at made
        cases made
    · rintro ⟨blocks, ⟨room, _⟩ | ⟨large, _⟩⟩
      · exact absurd none (requestedPages_some fine blocks room)
      · exact .inl ⟨large, stop, refused⟩
  · obtain ⟨chunk, after, granted⟩ := granted none
    obtain ⟨pool, made⟩ := construct_returns memory _ chunk after none granted
    have blocks := Nat.pos_of_ne_zero (construct_made made).1
    constructor
    · rintro (⟨_, stop, refused⟩ | ⟨pool', after', cells, made', furnished⟩)
      · rw [made] at refused
        cases refused
      · refine ⟨blocks, .inl ⟨(furnished.fits reserves ledger fine word made').2, ?_⟩⟩
        rintro rfl
        exact furnished.zero reserves ledger fine made'
    · rintro ⟨_, ⟨room, zero⟩ | ⟨_, refused⟩⟩
      · obtain ⟨cells, furnished⟩ := furnished_of_sizable reserves ledger fine made room zero
        exact .inr ⟨pool, after, cells, made, furnished⟩
      · exact absurd refused none

theorem misbuilt : ∃ fresh, PageManager.construct PageManager.rowOfRegions = .ok fresh ∧
    (∀ memory, ¬ Right fresh memory 16 0 (2 ^ 4)) ∧
    (∃ chunk after, fresh.requestPageChunk Arena.requestRounds (requestedPages (2 ^ 64 - 1) 1 (2 ^ 4)) =
      .ok (some chunk, after)) ∧
    ∀ memory, ¬ Right fresh memory (2 ^ 64 - 1) 1 (2 ^ 4) := by
  obtain ⟨fresh, new, chunk, after, granted⟩ : ∃ fresh,
      PageManager.construct PageManager.rowOfRegions = .ok fresh ∧ ∃ chunk after,
        fresh.requestPageChunk Arena.requestRounds (requestedPages (2 ^ 64 - 1) 1 (2 ^ 4)) =
          .ok (some chunk, after) := ⟨_, rfl, _, _, rfl⟩
  refine ⟨fresh, new, fun memory right => ?_, ⟨chunk, after, granted⟩, fun memory right => ?_⟩
  · obtain ⟨stop, refused⟩ := construct_refuses fresh memory (2 ^ 4)
      (requestedPages_zero 16 (2 ^ 4))
    rcases right with ⟨large, _⟩ | ⟨pool, after, cells, made, _⟩
    · exact absurd large (by decide)
    · rw [refused] at made
      cases made
  · rcases right with ⟨_, stop, refused⟩ | ⟨pool, after', cells, made, furnished⟩
    · obtain ⟨pool, made⟩ := construct_returns memory (2 ^ 4) chunk after (by decide) granted
      rw [made] at refused
      cases refused
    · have large := furnished.large
      rw [(construct_made made).2.blockSize] at large
      exact absurd large (by decide)

theorem pair_right : ∃ fresh, PageManager.construct PageManager.rowOfRegions = .ok fresh ∧
    Right fresh (fun _ => 0#8) 16 2 (2 ^ 4) := by
  obtain ⟨fresh, new, granted⟩ : ∃ fresh, PageManager.construct PageManager.rowOfRegions = .ok fresh ∧
      ∃ chunk after, fresh.requestPageChunk Arena.requestRounds (requestedPages 16 2 (2 ^ 4)) =
        .ok (some chunk, after) := ⟨_, rfl, _, _, rfl⟩
  exact ⟨fresh, new, (construct_right rowOfRegions_reserves ⟨fresh, []⟩ (.start ⟨fresh, new, rfl⟩) _ 16 2 4
    (by decide) (by decide) fun _ => granted).mpr
      ⟨by decide, .inl ⟨by decide, fun zero => absurd zero (by decide)⟩⟩⟩

end BlockAllocator

end ElySquare
