import ElySquare.Allocators.BuddyCoalescing

set_option autoImplicit false

namespace ElySquare.Buddy

open Dyadic Transition

def Allocation.Payload (e : Allocation) (x : Nat) : Prop := e.ptr ≤ x ∧ x < e.ptr + e.size

def BlockBytes (a : BuddyAllocator Headers) (b : Block) (x : Nat) : Prop :=
  a.base + b.offset ≤ x ∧ x < a.base + b.finish

def HeaderBytes (a : BuddyAllocator Headers) (b : Block) (x : Nat) : Prop :=
  a.base + b.offset ≤ x ∧ x < a.base + b.offset + headerSize

-- The sizes whose order leaves no room for the header, and those that wrap in alloc's guard.
def Cramped (size : Nat) : Prop :=
  (∃ k, minOrder ≤ k ∧ k < maxOrder ∧ size ≤ 2 ^ k ∧ 2 ^ k < size + headerSize) ∨
    2 ^ 64 ≤ size + headerSize

def Roomy (_ : Run Headers) : Call → Prop
  | .alloc size => ¬ Cramped size
  | .free _ => True

theorem header_fits_iff (size : Nat) (accepted : weCantPutIt size = false) :
    headerSize + size ≤ 2 ^ sizeToOrder size ↔ ¬ Cramped size := by
  have positive : 0 < headerSize := by decide
  have top := Nat.pow_le_pow_right (n := 2) (by omega) (sizeToOrder_le size)
  constructor
  · rintro fits (⟨k, low, _, small, tight⟩ | wraps)
    · have := Nat.pow_le_pow_right (n := 2) (by omega) (sizeToOrder_le_of_le size k low small)
      omega
    · have : 2 ^ maxOrder < 2 ^ 64 := by decide
      omega
  · intro roomy
    unfold Cramped at roomy
    push Not at roomy
    obtain ⟨tight, bounded⟩ := roomy
    have guard : size + headerSize ≤ 2 ^ maxOrder := by
      unfold weCantPutIt at accepted
      rw [Nat.mod_eq_of_lt bounded] at accepted
      simpa using accepted
    have holds := size_le_two_pow size (.inr (by omega))
    rcases Nat.lt_or_ge (sizeToOrder size) maxOrder with below | above
    · have := tight _ (sizeToOrder_ge size) below holds
      omega
    · rw [Nat.le_antisymm (sizeToOrder_le size) above]
      omega

theorem payload_within_iff (a : BuddyAllocator Headers) (b : Block) (size : Nat) (positive : 0 < size) :
    (∀ x, (⟨pointer a b, size⟩ : Allocation).Payload x → BlockBytes a b x) ↔
      headerSize + size ≤ 2 ^ b.order := by
  unfold Allocation.Payload BlockBytes Block.finish pointer
  constructor
  · intro within
    have last := within (a.base + b.offset + headerSize + size - 1) (by dsimp only; omega)
    omega
  · rintro fits x ⟨first, last⟩
    dsimp only at *
    omega

theorem alloc_accepts (a : BuddyAllocator Headers) (size ptr : Nat) (made : (alloc a size).1 = some ptr) :
    0 < size ∧ weCantPutIt size = false := by
  unfold alloc at made
  split at made
  · simp at made
  next accepted =>
    push Not at accepted
    exact ⟨Nat.pos_of_ne_zero accepted.1, Bool.eq_false_of_not_eq_true accepted.2⟩

theorem Related.owns {low size : Nat} {s : Run Headers} {p : Pool} (related : Related low size s p)
    (e : Allocation) (member : e ∈ s.live) :
    ∃ b ∈ liveBlocks s, e.ptr = pointer s.allocator b ∧ b.order = sizeToOrder e.size := by
  rw [related.consistent.liveBlocks_eq]
  exact related.tracks.block e member

structure Contained (s : Run Headers) : Prop where
  inside : ∀ e ∈ s.live, ∃ b ∈ liveBlocks s, e.ptr = pointer s.allocator b ∧
    ∀ x, e.Payload x → BlockBytes s.allocator b x
  apart : ∀ e ∈ s.live, ∀ f ∈ s.live, e ≠ f → ∀ x, e.Payload x → ¬ f.Payload x
  headers : ∀ e ∈ s.live, ∀ b ∈ binBlocks s.allocator ∪ liveBlocks s, ∀ x,
    e.Payload x → ¬ HeaderBytes s.allocator b x

theorem Consistent.bytes_apart {a : BuddyAllocator Headers} {top : Nat} {live : List Allocation}
    {free used : Set Block} (consistent : Consistent a top live free used) (b c : Block)
    (hb : b ∈ free ∪ used) (hc : c ∈ free ∪ used) (x : Nat) (inB : BlockBytes a b x)
    (inC : BlockBytes a c x) : b = c := by
  unfold BlockBytes at *
  refine consistent.tiling.apart b hb c hc (x - a.base) ?_ ?_ <;> unfold Block.Covers <;> omega

theorem Consistent.header_within {a : BuddyAllocator Headers} {top : Nat} {live : List Allocation}
    {free used : Set Block} (consistent : Consistent a top live free used) (b : Block)
    (member : b ∈ free ∪ used) (x : Nat) (inHeader : HeaderBytes a b x) : BlockBytes a b x := by
  have order := (consistent.orders b member).1
  have size := Nat.pow_le_pow_right (n := 2) (by omega) order
  have : headerSize = 2 ^ minOrder := by decide
  unfold HeaderBytes at inHeader
  unfold BlockBytes Block.finish
  omega

theorem contained_of_fits {low size : Nat} {s : Run Headers} {p : Pool}
    (related : Related low size s p)
    (fits : ∀ e ∈ s.live, 0 < e.size ∧ headerSize + e.size ≤ 2 ^ sizeToOrder e.size) :
    Contained s := by
  have consistent := related.consistent
  rw [← consistent.liveBlocks_eq, ← consistent.binBlocks_eq] at consistent
  have inside (e : Allocation) (member : e ∈ s.live) : ∃ b ∈ liveBlocks s,
      e.ptr = pointer s.allocator b ∧ ∀ x, e.Payload x → BlockBytes s.allocator b x := by
    obtain ⟨b, live, ptr, order⟩ := related.owns e member
    obtain ⟨positive, room⟩ := fits e member
    have within := (payload_within_iff s.allocator b e.size positive).mpr (order ▸ room)
    rw [← ptr] at within
    exact ⟨b, live, ptr, within⟩
  have distinct : ∀ e ∈ s.live, ∀ f ∈ s.live, e.ptr = f.ptr → e = f :=
    fun e he f hf same => List.inj_on_of_nodup_map consistent.distinct he hf same
  refine ⟨inside, ?_, ?_⟩
  · intro e he f hf different x inE inF
    obtain ⟨b, liveB, ptrB, withinB⟩ := inside e he
    obtain ⟨c, liveC, ptrC, withinC⟩ := inside f hf
    have same := consistent.bytes_apart b c (.inr liveB) (.inr liveC) x (withinB x inE) (withinC x inF)
    exact different (distinct e he f hf (ptrB.trans (same ▸ ptrC.symm)))
  · intro e he c member x inE inHeader
    obtain ⟨b, liveB, ptrB, withinB⟩ := inside e he
    have same := consistent.bytes_apart b c (.inr liveB) member x (withinB x inE)
      (consistent.header_within c member x inHeader)
    subst same
    unfold Allocation.Payload at inE
    unfold HeaderBytes at inHeader
    unfold pointer at ptrB
    omega

theorem fits_of_reachable (chunkptr size : Nat) (s : Run Headers)
    (reached : ((system Headers chunkptr size).restrict Roomy).Reachable s) :
    ∀ e ∈ s.live, 0 < e.size ∧ headerSize + e.size ≤ 2 ^ sizeToOrder e.size := by
  refine System.invariant _
    (fun s => ∀ e ∈ s.live, 0 < e.size ∧ headerSize + e.size ≤ 2 ^ sizeToOrder e.size) ?_ ?_ reached
  · rintro s ⟨memory, rfl⟩ e ⟨⟩
  · rintro s call t fits ⟨roomy, taken⟩
    cases taken with
    | alloc request =>
        intro e member
        cases made : (alloc s.allocator request).1 with
        | none =>
            rw [made] at member
            exact fits e member
        | some ptr =>
            rw [made] at member
            rcases List.mem_cons.mp member with rfl | old
            · obtain ⟨positive, accepted⟩ := alloc_accepts s.allocator request ptr made
              exact ⟨positive, (header_fits_iff request accepted).mpr roomy⟩
            · exact fits e old
    | free ptr alive => exact fun e member => fits e (List.mem_of_mem_filter member)

theorem buddy_payload (chunkptr size : Nat) :
    (∀ s, (system Headers chunkptr size).Reachable s → ∀ request ptr t,
      (alloc s.allocator request).1 = some ptr → Run.Step s (.alloc request) t →
      ∃ b ∈ liveBlocks t, ptr = pointer t.allocator b ∧
        ((∀ x, (⟨ptr, request⟩ : Allocation).Payload x → BlockBytes t.allocator b x) ↔
          ¬ Cramped request)) ∧
    (∀ s, ((system Headers chunkptr size).restrict Roomy).Reachable s → Contained s) := by
  constructor
  · intro s reached request ptr t made taken
    obtain ⟨p, related⟩ := related_of_run chunkptr size t (.step reached taken)
    obtain ⟨positive, accepted⟩ := alloc_accepts s.allocator request ptr made
    have member : (⟨ptr, request⟩ : Allocation) ∈ t.live := by
      cases taken
      rw [made]
      exact List.mem_cons_self
    obtain ⟨b, live, rfl, order⟩ := related.owns _ member
    refine ⟨b, live, rfl, ?_⟩
    rw [payload_within_iff t.allocator b request positive, order, header_fits_iff request accepted]
  · intro s reached
    obtain ⟨p, related⟩ := related_of_run chunkptr size s (System.restrict_reachable _ _ reached)
    exact contained_of_fits related (fits_of_reachable chunkptr size s reached)

def poolWithSixteen : Run Headers :=
  ⟨(alloc (construct 4096 4096 blankHeaders) 16).2, [⟨4112, 16⟩]⟩

theorem poolWithSixteen_reachable : (system Headers 4096 4096).Reachable poolWithSixteen := by
  have step := Run.Step.alloc ⟨construct 4096 4096 blankHeaders, []⟩ 16
  have result : (alloc (construct 4096 4096 blankHeaders) 16).1 = some 4112 := by
    decide +kernel
  rw [result] at step
  exact .step (.start ⟨_, rfl⟩) step

theorem poolWithSixteen_blocks : liveBlocks poolWithSixteen = {⟨0, 4⟩} := by
  have base : poolWithSixteen.allocator.base = 4096 := by decide +kernel
  have order : (header poolWithSixteen.allocator.memory 0).order = 4 := by decide +kernel
  have live : poolWithSixteen.live = [⟨4112, 16⟩] := rfl
  ext ⟨offset, k⟩
  simp only [liveBlocks, pointer, base, live, headerSize, List.map_cons, List.map_nil,
    List.mem_singleton, Set.mem_ofPred_eq, Set.mem_singleton_iff, Block.mk.injEq]
  constructor
  · rintro ⟨here, rfl⟩
    have : offset = 0 := by omega
    exact ⟨this, this ▸ order⟩
  · rintro ⟨rfl, rfl⟩
    exact ⟨rfl, order⟩

-- The 16 bytes start where the block of order 4 ends.
theorem alloc_sixteen_overruns : ∃ s, (system Headers 4096 4096).Reachable s ∧
    s.live = [⟨4112, 16⟩] ∧ liveBlocks s = {⟨0, 4⟩} ∧ ¬ Contained s := by
  refine ⟨poolWithSixteen, poolWithSixteen_reachable, rfl, poolWithSixteen_blocks, fun contained => ?_⟩
  obtain ⟨b, live, _, within⟩ := contained.inside ⟨4112, 16⟩ (List.mem_singleton.mpr rfl)
  rw [poolWithSixteen_blocks] at live
  obtain rfl := Set.mem_singleton_iff.mp live
  have base : poolWithSixteen.allocator.base = 4096 := by decide +kernel
  have last := (within 4127 ⟨by decide, by decide⟩).2
  rw [base] at last
  exact absurd last (by decide)

end ElySquare.Buddy
