import ElySquare.Allocators.BuddyInvariant

set_option autoImplicit false

namespace ElySquare.Buddy

open Dyadic Linked Transition

-- The pools whose start block fits the chunk.
def Whole (size : Nat) : Prop := (∃ k, pagesOf size = 2 ^ k) ∨ 2 ^ maxOrder ≤ size

theorem pagesOf_power (size k : Nat) (power : pagesOf size = 2 ^ k) :
    2 ^ startOrder size ≤ pagesOf size * pageSize := by
  have bytes : pagesOf size * pageSize = 2 ^ (k + 12) := by
    rw [power, Nat.pow_add]
    rfl
  unfold startOrder
  rw [bytes]
  exact Nat.pow_le_pow_right (by omega) (sizeToOrder_le_of_le _ _ (by unfold minOrder; omega)
    (Nat.le_refl _))

theorem Whole.startOrder_le {size : Nat} (whole : Whole size) (bound : size < 2 ^ 64) :
    2 ^ startOrder size ≤ pagesOf size * pageSize := by
  obtain ⟨k, power⟩ | large := whole
  · exact pagesOf_power size k power
  rcases Nat.lt_or_ge (size + pageSize - 1) (2 ^ 64) with room | wraps
  · have top := Nat.pow_le_pow_right (n := 2) (by omega) (sizeToOrder_le (pagesOf size * pageSize))
    have bytes := pagesOf_ge size room
    unfold startOrder
    omega
  · exact pagesOf_power size 0 (pagesOf_wrapped size bound wraps)

variable {Memory : Type} [HeaderStore Memory]

-- The free blocks of a state: those its bins list.
def binBlocks (a : BuddyAllocator Memory) : Set Block :=
  { b | ∃ i cells, i < binCount ∧ b.order = i + minOrder ∧ b.offset ∈ cells ∧
    Chain (fun o => link (header a.memory o).nextOffset) (link (a.bins i)) cells }

-- The live blocks of a state: those its live pointers lead to.
def liveBlocks (s : Run Memory) : Set Block :=
  { b | pointer s.allocator b ∈ s.live.map Allocation.ptr ∧
    (header s.allocator.memory b.offset).order = b.order }

theorem Consistent.binBlocks_eq {a : BuddyAllocator Memory} {size : Nat} {live : List Allocation}
    {free used : Set Block} (consistent : Consistent a (startOrder size) live free used) :
    binBlocks a = free := by
  ext b
  constructor
  · rintro ⟨i, cells, inside, order, member, chain⟩
    obtain ⟨listed, doubly, _, exact⟩ := consistent.bins i inside
    rw [Chain.unique cells listed chain doubly.forward] at member
    have block := (exact b.offset).mp member
    rwa [← order] at block
  · intro member
    obtain ⟨low, high⟩ := consistent.orders b (.inl member)
    have small : b.order ≤ maxOrder := Nat.le_trans high (sizeToOrder_le _)
    have span : binCount + minOrder = maxOrder + 1 := by decide
    obtain ⟨listed, doubly, _, exact⟩ := consistent.bins (b.order - minOrder) (by omega)
    refine ⟨_, listed, by omega, by omega, (exact b.offset).mpr ?_, doubly.forward⟩
    rwa [Nat.sub_add_cancel low]

theorem Consistent.liveBlocks_eq {s : Run Memory} {top : Nat} {free used : Set Block}
    (consistent : Consistent s.allocator top s.live free used) : liveBlocks s = used := by
  ext b
  constructor
  · rintro ⟨alive, order⟩
    obtain ⟨c, member, same⟩ := (consistent.pointers _).mp alive
    have offset := pointer_inj s.allocator b c same
    have orderC := (consistent.usedHeader c member).1
    have : b = c := by
      cases b
      cases c
      simp_all
    exact this ▸ member
  · intro member
    exact ⟨(consistent.pointers _).mpr ⟨b, member, rfl⟩, (consistent.usedHeader b member).1⟩

theorem buddy_coalescing (chunkptr size : Nat) (bound : size < 2 ^ 64) (whole : Whole size)
    (s : Run Headers) (reached : (system Headers chunkptr size).Reachable s) :
    (∀ b ∈ binBlocks s.allocator, b.order < startOrder size → b.buddy ∉ binBlocks s.allocator) ∧
    (∀ chunkptr' t, (system Headers chunkptr' size).Reachable t → liveBlocks t = liveBlocks s →
      binBlocks t.allocator = binBlocks s.allocator) ∧
    (s.live = [] → binBlocks s.allocator = {⟨0, startOrder size⟩}) := by
  have covered := whole.startOrder_le bound
  have shown (chunkptr : Nat) (s : Run Headers)
      (reached : (system Headers chunkptr size).Reachable s) :
      Consistent s.allocator (startOrder size) s.live (binBlocks s.allocator) (liveBlocks s) ∧
        Coalesced (startOrder size) (binBlocks s.allocator) := by
    obtain ⟨p, related⟩ := related_of_run chunkptr size s reached
    have consistent := related.consistent
    have coalesced := related.coalesced
    rw [related.top, related.arena] at coalesced
    rw [consistent.binBlocks_eq, consistent.liveBlocks_eq]
    exact ⟨consistent, coalesced covered⟩
  obtain ⟨consistent, coalesced⟩ := shown chunkptr s reached
  refine ⟨coalesced, ?_, ?_⟩
  · intro chunkptr' t reached' same
    obtain ⟨consistent', coalesced'⟩ := shown chunkptr' t reached'
    rw [same] at consistent'
    exact Coalesced.free_unique consistent'.tiling consistent.tiling coalesced' coalesced
      consistent'.separate consistent.separate
  · intro released
    refine Coalesced.free_of_no_live consistent.tiling coalesced ?_
    refine Set.eq_empty_of_forall_notMem fun b member => ?_
    have alive := member.1
    simp [released] at alive

theorem buddy_coalescing_hundred :
    (∀ b ∈ binBlocks poolWithHundred.allocator, b.order < startOrder 4096 →
      b.buddy ∉ binBlocks poolWithHundred.allocator) ∧
    (∀ chunkptr' t, (system Headers chunkptr' 4096).Reachable t →
      liveBlocks t = liveBlocks poolWithHundred →
      binBlocks t.allocator = binBlocks poolWithHundred.allocator) ∧
    (poolWithHundred.live = [] → binBlocks poolWithHundred.allocator = {⟨0, startOrder 4096⟩}) :=
  buddy_coalescing 4096 4096 (by decide) (.inl ⟨0, by decide⟩) poolWithHundred
    poolWithHundred_reachable

end ElySquare.Buddy
