import ElySquare.Allocators.BuddyBytes
import ElySquare.Allocators.BuddyFit

set_option autoImplicit false

namespace ElySquare.Buddy

open Dyadic Transition

section Blocks

variable {Memory : Type} [HeaderStore Memory]

def CoversChunk (a : BuddyAllocator Memory) : Prop :=
  ∀ x, x ∈ freeSpace a ↔ x < a.pages * pageSize

def blockOf (a : BuddyAllocator Memory) (ptr : Nat) : Block :=
  ⟨ptrToOffset a (ptr - headerSize), (header a.memory (ptrToOffset a (ptr - headerSize))).order⟩

theorem blockOf_pointer (a : BuddyAllocator Memory) (b : Block)
    (order : (header a.memory b.offset).order = b.order) : blockOf a (pointer a b) = b := by
  have offset : ptrToOffset a (pointer a b - headerSize) = b.offset := by
    unfold ptrToOffset pointer
    omega
  unfold blockOf
  rw [offset, order]

end Blocks

/-- Calls that cut no block of the smallest order, and owners that write to their own blocks. -/
inductive WriterStep : Run Bytes → Act → Run Bytes → Prop
  | call (s t : Run Bytes) (call : Call) (notTiny : NotTiny s call) (taken : Run.Step s call t) :
      WriterStep s (.call call) t
  | write (s : Run Bytes) (e : Allocation) (i : Nat) (byte : BitVec 8) (alive : e ∈ s.live)
      (inside : headerSize + i < 2 ^ sizeToOrder e.size) :
      WriterStep s (.write e.ptr i byte) (writeByte s e.ptr i byte)

def writers (chunkptr size : Nat) : System (Run Bytes) Act where
  start s := ∃ memory : Bytes, s = ⟨construct chunkptr size memory, []⟩
  step := WriterStep

def HandsOutInside (chunkptr size : Nat) : Prop :=
  ∀ s, (writers chunkptr size).Reachable s → ∀ request ptr, NotTiny s (.alloc request) →
    (alloc s.allocator request).1 = some ptr →
      (blockOf (alloc s.allocator request).2 ptr).finish ≤ pagesOf size * pageSize

theorem construct_free (chunkptr size : Nat) (memory : Bytes) :
    binBlocks (construct chunkptr size memory) = {⟨0, startOrder size⟩} := by
  have related := related_start bytes_lawful (by decide) (show minOrder ≤ 5 by decide) (by decide)
    chunkptr size memory
  rw [related.consistent.binBlocks_eq, Pool.construct, Pool.free_push]
  ext b
  simp [Pool.free, freeBlocks, startOrder]

theorem covers_start_iff (chunkptr size : Nat) (memory : Bytes) :
    CoversChunk (construct chunkptr size memory) ↔ 2 ^ startOrder size = pagesOf size * pageSize := by
  have pages : (construct chunkptr size memory).pages = pagesOf size := rfl
  have space (x : Nat) : x ∈ freeSpace (construct chunkptr size memory) ↔ x < 2 ^ startOrder size := by
    unfold freeSpace
    rw [construct_free]
    simp [Block.Covers, Block.finish]
  unfold CoversChunk
  rw [pages]
  constructor
  · intro covers
    have first := (space _).not.mp (mt (covers _).mp (Nat.lt_irrefl (pagesOf size * pageSize)))
    have second := (covers _).not.mp (mt (space _).mp (Nat.lt_irrefl (2 ^ startOrder size)))
    omega
  · intro same x
    rw [space, same]

theorem startOrder_eq_iff (size : Nat) :
    2 ^ startOrder size = pagesOf size * pageSize ↔ ∃ k, k ≤ 10 ∧ pagesOf size = 2 ^ k := by
  have low := startOrder_ge size
  have high := sizeToOrder_le (pagesOf size * pageSize)
  change 12 ≤ startOrder size at low
  change startOrder size ≤ maxOrder at high
  have page : pageSize = 2 ^ 12 := rfl
  unfold maxOrder at high
  constructor
  · intro same
    refine ⟨startOrder size - 12, by omega, ?_⟩
    have split : 2 ^ startOrder size = 2 ^ (startOrder size - 12) * 2 ^ 12 := by
      rw [← Nat.pow_add, Nat.sub_add_cancel low]
    rw [split, page] at same
    exact (Nat.eq_of_mul_eq_mul_right (Nat.two_pow_pos 12) same).symm
  · rintro ⟨k, small, power⟩
    refine Nat.le_antisymm (pagesOf_power size k power) (size_le_two_pow _ (.inr ?_))
    rw [power, page, ← Nat.pow_add]
    exact Nat.pow_le_pow_right (by omega) (by unfold maxOrder; omega)

theorem Related.writer {size : Nat} {s : Run Bytes} {p : Pool} (related : Related 5 size s p) (e : Allocation)
    (alive : e ∈ s.live) (i : Nat) (byte : BitVec 8) (inside : headerSize + i < 2 ^ sizeToOrder e.size) :
    Related 5 size (writeByte s e.ptr i byte) p := by
  obtain ⟨b, inUse, ptr, order⟩ := related.tracks.block e alive
  have offset : ptrToOffset s.allocator e.ptr = b.offset + headerSize := by
    rw [ptr]
    unfold ptrToOffset pointer
    omega
  rw [← order] at inside
  refine related.write e.ptr i byte b inUse ?_ (by omega)
  unfold Block.Covers Block.finish
  omega

theorem writers_related (chunkptr size : Nat) (s : Run Bytes)
    (reached : (writers chunkptr size).Reachable s) : ∃ p, Related 5 size s p := by
  refine System.invariant _ (fun s => ∃ p, Related 5 size s p) ?_ ?_ reached
  · rintro s ⟨memory, rfl⟩
    exact ⟨_, related_start bytes_lawful (by decide) (by decide) (by decide) chunkptr size memory⟩
  · rintro s act t ⟨p, related⟩ taken
    cases taken with
    | call t call notTiny taken =>
        exact related_step bytes_lawful (by decide) size s t p call related notTiny.allowed taken
    | write e i byte alive inside => exact ⟨p, related.writer e alive i byte inside⟩

theorem alloc_inside {size : Nat} {s : Run Bytes} {p : Pool} (related : Related 5 size s p)
    (request ptr : Nat) (allowed : Allowed 5 s (.alloc request))
    (made : (alloc s.allocator request).1 = some ptr) :
    (blockOf (alloc s.allocator request).2 ptr).finish ≤ 2 ^ startOrder size := by
  obtain ⟨result, _, base⟩ := alloc_represents bytes_lawful (by decide) related.represents request allowed
  have consistent := (related_alloc bytes_lawful (by decide) size s p request related allowed).consistent
  rw [made] at result
  obtain ⟨b, given, rfl⟩ := Option.map_eq_some_iff.mp result.symm
  have inUse : b ∈ (p.alloc request).2.live := by
    rw [(alloc_live p request).1, given]
    exact List.mem_cons_self
  have same : s.allocator.base + b.offset + headerSize = pointer (alloc s.allocator request).2 b := by
    rw [pointer, base]
  rw [same, blockOf_pointer _ b (consistent.usedHeader b inUse).1]
  exact consistent.tiling.inside b (.inr inUse)

theorem hands_out_inside (chunkptr size : Nat)
    (covered : 2 ^ startOrder size ≤ pagesOf size * pageSize) : HandsOutInside chunkptr size := by
  intro s reached request ptr notTiny made
  obtain ⟨p, related⟩ := writers_related chunkptr size s reached
  exact Nat.le_trans (alloc_inside related request ptr notTiny.allowed made) covered

theorem pool_covers_chunk (chunkptr size : Nat) :
    ((∀ memory : Bytes, CoversChunk (construct chunkptr size memory)) ∧
      HandsOutInside chunkptr size) ↔ ∃ k, k ≤ 10 ∧ pagesOf size = 2 ^ k := by
  rw [← startOrder_eq_iff]
  constructor
  · rintro ⟨covers, _⟩
    exact (covers_start_iff chunkptr size fun _ => 0#8).mp (covers _)
  · intro same
    exact ⟨fun memory => (covers_start_iff chunkptr size memory).mpr same,
      hands_out_inside chunkptr size (Nat.le_of_eq same)⟩

def threePages : BuddyAllocator Bytes := construct 4096 12288 fun _ => 0#8

def threePagesUsed : Run Bytes := allocated (allocated ⟨threePages, []⟩ 8192) 4096

theorem threePagesUsed_reachable : (writers 4096 12288).Reachable threePagesUsed :=
  .step (.step (.start ⟨fun _ => 0#8, rfl⟩) (.call _ _ (.alloc 8192) (.inl (by decide)) (.alloc _ 8192)))
    (.call _ _ (.alloc 4096) (.inl (by decide)) (.alloc _ 4096))

-- One more page is handed out behind the end of that chunk.
theorem three_pages_exceeded : (alloc threePagesUsed.allocator 4096).1 = some 16400 ∧
    ¬ HandsOutInside 4096 12288 := by
  have made : (alloc threePagesUsed.allocator 4096).1 = some 16400 := by decide +kernel
  have block : (blockOf (alloc threePagesUsed.allocator 4096).2 16400).finish = 16384 := by
    decide +kernel
  refine ⟨made, fun inside => ?_⟩
  have within := inside threePagesUsed threePagesUsed_reachable 4096 16400 (.inl (by decide)) made
  rw [block] at within
  exact absurd within (by decide)

end ElySquare.Buddy
