import ElySquare.Shared.Run
import ElySquare.Allocators.BuddyRefinement

set_option autoImplicit false

namespace ElySquare.Buddy

open Dyadic Linked Transition

-- Headers as records, each attached to the offset of its block: the links of a free block of the smallest
-- order do not reach the header behind it, as they do in Bytes.
def Headers : Type := Nat → Header

instance : HeaderStore Headers where
  header m o := m o
  setOrder m o k := Function.update m o { m o with order := k }
  setFree m o f := Function.update m o { m o with isFree := f }
  setNext m o v := Function.update m o { m o with nextOffset := v }
  setPrev m o v := Function.update m o { m o with prevOffset := v }

theorem headers_lawful : LawfulStore Headers 1 := by
  have other (o x : Nat) (apart : Apart 1 o x) : x ≠ o := by
    rcases apart with h | h <;> omega
  refine ⟨by decide, ?_, ?_, ?_, ?_, ?_, ?_, ?_, ?_⟩
  all_goals intros
  iterate 4 exact Function.update_self _ _ _
  all_goals exact Function.update_of_ne (other _ _ (by assumption)) _ _

structure Allocation where
  ptr : Nat
  size : Nat
deriving DecidableEq, Repr

structure Run (Memory : Type) where
  allocator : BuddyAllocator Memory
  live : List Allocation

inductive Call
  | alloc (size : Nat)
  | free (ptr : Nat)
deriving DecidableEq, Repr

variable {Memory : Type} [HeaderStore Memory] {extent low : Nat}

def handOut (live : List Allocation) (size : Nat) : Option Nat → List Allocation
  | none => live
  | some ptr => ⟨ptr, size⟩ :: live

inductive Run.Step : Run Memory → Call → Run Memory → Prop
  | alloc (s : Run Memory) (size : Nat) :
      Step s (.alloc size)
        ⟨(Buddy.alloc s.allocator size).2, handOut s.live size (Buddy.alloc s.allocator size).1⟩
  | free (s : Run Memory) (ptr : Nat) (alive : ptr ∈ s.live.map Allocation.ptr) :
      Step s (.free ptr) ⟨Buddy.free s.allocator ptr, s.live.filter (·.ptr ≠ ptr)⟩

/-- Every run of a pool built with `size` on the chunk at `chunkptr`, whatever the chunk held. -/
def system (Memory : Type) [HeaderStore Memory] (chunkptr size : Nat) : System (Run Memory) Call where
  start s := ∃ memory : Memory, s = ⟨construct chunkptr size memory, []⟩
  step := Run.Step

def startOrder (size : Nat) : Nat := sizeToOrder (pagesOf size * pageSize)

def pointer (a : BuddyAllocator Memory) (b : Block) : Nat := a.base + b.offset + headerSize

-- The allocations of the run are the pool's blocks in use, each of the order its size asks for.
def Tracks (s : Run Memory) (p : Pool) : Prop :=
  s.live.map (fun e => (e.ptr, sizeToOrder e.size)) =
    p.live.map (fun b => (pointer s.allocator b, b.order))

structure Related (low size : Nat) (s : Run Memory) (p : Pool) : Prop where
  represents : Represents low s.allocator p
  tracks : Tracks s p
  top : p.top = startOrder size
  arena : p.arena = pagesOf size * pageSize
  coalesced : 2 ^ p.top ≤ p.arena → Coalesced p.top p.free

section

omit [HeaderStore Memory]

theorem Tracks.ptr_mem {s : Run Memory} {p : Pool} (tracks : Tracks s p) (ptr : Nat) :
    ptr ∈ s.live.map Allocation.ptr ↔ ∃ b ∈ p.live, ptr = pointer s.allocator b := by
  have names := congrArg (List.map Prod.fst) tracks
  simp only [List.map_map] at names
  have left : (Prod.fst ∘ fun e : Allocation => (e.ptr, sizeToOrder e.size)) = Allocation.ptr := rfl
  rw [left] at names
  rw [names]
  simp [eq_comm]

theorem Tracks.block {s : Run Memory} {p : Pool} (tracks : Tracks s p) (e : Allocation) (alive : e ∈ s.live) :
    ∃ b ∈ p.live, e.ptr = pointer s.allocator b ∧ b.order = sizeToOrder e.size := by
  have mapped := List.mem_map_of_mem (f := fun e : Allocation => (e.ptr, sizeToOrder e.size)) alive
  rw [tracks] at mapped
  obtain ⟨b, inUse, same⟩ := List.mem_map.mp mapped
  simp only [Prod.mk.injEq] at same
  exact ⟨b, inUse, same.1.symm, same.2⟩

theorem pointer_inj (a : BuddyAllocator Memory) (b c : Block)
    (same : pointer a b = pointer a c) : b.offset = c.offset := by
  unfold pointer at same
  omega

theorem Tracks.filter {s : Run Memory} {p : Pool} (tracks : Tracks s p)
    (valid : p.Valid low p.inUse) (b : Block) (member : b ∈ p.live) :
    (s.live.filter (·.ptr ≠ pointer s.allocator b)).map (fun e => (e.ptr, sizeToOrder e.size)) =
      (p.live.filter (· ≠ b)).map (fun c => (pointer s.allocator c, c.order)) := by
  have cut := congrArg (List.filter fun pair => decide (pair.1 ≠ pointer s.allocator b)) tracks
  rw [List.filter_map, List.filter_map] at cut
  have same : p.live.filter (fun c => decide (pointer s.allocator c ≠ pointer s.allocator b)) =
      p.live.filter (· ≠ b) := by
    apply List.filter_congr
    intro c inside
    have : pointer s.allocator c = pointer s.allocator b ↔ c = b :=
      ⟨fun h => valid.tiling.offset_inj c b (.inr inside) (.inr member) (pointer_inj _ _ _ h),
        fun h => h ▸ rfl⟩
    simp [this]
  rw [← same]
  exact cut

end

def Allowed (low : Nat) (s : Run Memory) : Call → Prop
  | .alloc size => low ≤ sizeToOrder size ∨ size = 0 ∨ s.allocator.activeBinsBitmap = 0#32
  | .free _ => True

theorem related_start (laws : LawfulStore Memory extent) (room : extent ≤ 2 ^ low)
    (low_ge : minOrder ≤ low) (low_le : low ≤ 12) (chunkptr size : Nat) (memory : Memory) :
    Related low size ⟨construct chunkptr size memory, []⟩ (Pool.construct size) := by
  refine ⟨construct_represents laws room low_ge low_le chunkptr size memory, rfl, rfl, rfl, ?_⟩
  intro _
  have only : (Pool.construct size).free = {⟨0, startOrder size⟩} := by
    rw [Pool.construct, Pool.free_push]
    ext b
    simp [Pool.free, freeBlocks, startOrder]
  rw [only]
  rintro b rfl below
  exact (Nat.lt_irrefl _ below).elim

theorem alloc_top_arena (p : Pool) (size : Nat) :
    (p.alloc size).2.top = p.top ∧ (p.alloc size).2.arena = p.arena := by
  unfold Pool.alloc
  dsimp only
  split
  · exact ⟨rfl, rfl⟩
  split
  · exact ⟨rfl, rfl⟩
  split
  · exact ⟨rfl, rfl⟩
  · obtain ⟨top, arena, _⟩ := Pool.split_fields (p.take ⟨_, _⟩) _ _ (sizeToOrder size)
    exact ⟨top, arena⟩

theorem alloc_live (p : Pool) (size : Nat) :
    (p.alloc size).2.live = (p.alloc size).1.toList ++ p.live ∧
      ∀ b, (p.alloc size).1 = some b → b.order = sizeToOrder size := by
  unfold Pool.alloc
  dsimp only
  split
  · simp
  split
  · simp
  split
  · simp
  · rw [(Pool.split_fields _ _ _ _).2.2]
    refine ⟨rfl, ?_⟩
    rintro b ⟨⟩
    rfl

theorem related_alloc (laws : LawfulStore Memory extent) (room : extent ≤ 2 ^ low) (size : Nat)
    (s : Run Memory) (p : Pool) (request : Nat) (related : Related low size s p)
    (allowed : Allowed low s (.alloc request)) :
    Related low size ⟨(alloc s.allocator request).2,
      handOut s.live request (alloc s.allocator request).1⟩ (p.alloc request).2 := by
  obtain ⟨represents, tracks, top, arena, coalesced⟩ := related
  obtain ⟨result, represents', base⟩ := alloc_represents laws room represents request allowed
  obtain ⟨top', arena'⟩ := alloc_top_arena p request
  obtain ⟨live, order⟩ := alloc_live p request
  refine ⟨represents', ?_, top'.trans top, arena'.trans arena, ?_⟩
  · unfold Tracks pointer at *
    simp only [base, live]
    rw [result]
    cases made : (p.alloc request).1 with
    | none => exact tracks
    | some b =>
        simp only [Option.map_some, handOut, List.map_cons, tracks, Option.toList_some,
          List.singleton_append, order b made]
  · rw [top', arena']
    exact fun covered => top' ▸ Pool.coalesced_alloc represents.valid (coalesced covered) request

theorem related_free (laws : LawfulStore Memory extent) (room : extent ≤ 2 ^ low) (size : Nat)
    (s : Run Memory) (p : Pool) (b : Block) (member : b ∈ p.live) (related : Related low size s p) :
    Related low size ⟨free s.allocator (pointer s.allocator b),
      s.live.filter (·.ptr ≠ pointer s.allocator b)⟩ (p.release b) := by
  obtain ⟨represents, tracks, top, arena, coalesced⟩ := related
  obtain ⟨represents', base⟩ := free_represents laws room represents b member
  obtain ⟨top', arena', live⟩ := Pool.merge_fields (maxOrder - b.order)
    { p with live := p.live.filter (· ≠ b) } b
  refine ⟨represents', ?_, top'.trans top, arena'.trans arena, ?_⟩
  · have cut := tracks.filter represents.valid b member
    have same : pointer (Buddy.free s.allocator (pointer s.allocator b)) =
        pointer s.allocator := by
      funext c
      unfold pointer
      rw [base]
    unfold Tracks
    dsimp only
    rw [same, Pool.release, live]
    exact cut
  · intro covered
    rw [Pool.release, top', arena'] at covered
    exact Pool.coalesced_release represents.valid (coalesced covered) covered b member

theorem related_step (laws : LawfulStore Memory extent) (room : extent ≤ 2 ^ low) (size : Nat)
    (s t : Run Memory) (p : Pool) (call : Call) (related : Related low size s p)
    (allowed : Allowed low s call) (taken : Run.Step s call t) : ∃ q, Related low size t q := by
  cases taken with
  | alloc request => exact ⟨_, related_alloc laws room size s p request related allowed⟩
  | free ptr alive =>
      obtain ⟨b, member, rfl⟩ := (related.tracks.ptr_mem ptr).mp alive
      exact ⟨_, related_free laws room size s p b member related⟩

theorem related_of_reachable (laws : LawfulStore Memory extent) (room : extent ≤ 2 ^ low)
    (low_ge : minOrder ≤ low) (low_le : low ≤ 12) (chunkptr size : Nat) (s : Run Memory)
    (reached : ((system Memory chunkptr size).restrict (Allowed low)).Reachable s) :
    ∃ p, Related low size s p := by
  refine System.invariant _ (fun s => ∃ p, Related low size s p) ?_ ?_ reached
  · rintro s ⟨memory, rfl⟩
    exact ⟨_, related_start laws room low_ge low_le chunkptr size memory⟩
  · rintro s call t ⟨p, related⟩ ⟨allowed, taken⟩
    exact related_step laws room size s t p call related allowed taken

-- Every call is allowed at the smallest order, so with headers as records every run is covered.
theorem related_of_run (chunkptr size : Nat) (s : Run Headers)
    (reached : (system Headers chunkptr size).Reachable s) : ∃ p, Related minOrder size s p := by
  refine related_of_reachable headers_lawful (by decide) (Nat.le_refl _) (by decide) chunkptr size s
    (System.reachable_restrict _ _ (fun before call after _ => ?_) reached)
  cases call with
  | alloc size => exact .inl (sizeToOrder_ge size)
  | free ptr => trivial

/-- The state of the pool, read from its headers, links, bins and bitmap: `free` and `used` are the current
blocks, and `used` are those the live pointers belong to. -/
structure Consistent (a : BuddyAllocator Memory) (top : Nat) (live : List Allocation)
    (free used : Set Block) : Prop where
  tiling : Tiling top (free ∪ used)
  separate : Disjoint free used
  orders : ∀ b ∈ free ∪ used, minOrder ≤ b.order ∧ b.order ≤ top
  pointers : ∀ ptr, ptr ∈ live.map Allocation.ptr ↔ ∃ b ∈ used, ptr = pointer a b
  distinct : (live.map Allocation.ptr).Nodup
  freeHeader : ∀ b ∈ free,
    (header a.memory b.offset).order = b.order ∧ (header a.memory b.offset).isFree = true
  usedHeader : ∀ b ∈ used,
    (header a.memory b.offset).order = b.order ∧ (header a.memory b.offset).isFree = false
  bins : ∀ i, i < binCount → ∃ cells : List Nat,
    Doubly (fun o => link (header a.memory o).nextOffset)
      (fun o => link (header a.memory o).prevOffset) (link (a.bins i)) cells ∧
    cells.Nodup ∧ ∀ o, o ∈ cells ↔ (⟨o, i + minOrder⟩ : Block) ∈ free
  bitmap : ∀ i, a.activeBinsBitmap.getLsbD i = true ↔ i < binCount ∧ a.bins i ≠ nullOffset

theorem Related.consistent {size : Nat} {s : Run Memory} {p : Pool} (related : Related low size s p) :
    Consistent s.allocator (startOrder size) s.live p.free p.inUse := by
  obtain ⟨represents, tracks, top, _, _⟩ := related
  obtain ⟨valid, lists, holding, _, liveNodup⟩ := represents
  have span : binCount + minOrder = maxOrder + 1 := by decide
  have index (i : Nat) : getIndexByOrder (i + minOrder) = i := Nat.add_sub_cancel _ _
  refine ⟨top ▸ valid.tiling, valid.separate, fun b member => ⟨valid.order_ge b member,
    top ▸ valid.tiling.order_le b member⟩, tracks.ptr_mem, ?_, lists.headers, holding, ?_, ?_⟩
  · have names := congrArg (List.map Prod.fst) tracks
    simp only [List.map_map] at names
    have left : (Prod.fst ∘ fun e : Allocation => (e.ptr, sizeToOrder e.size)) = Allocation.ptr := rfl
    rw [left] at names
    rw [names]
    refine liveNodup.map_on fun b hb c hc same => ?_
    exact valid.tiling.offset_inj b c (.inr hb) (.inr hc) (pointer_inj s.allocator b c same)
  · intro i inside
    have list := lists.linked (i + minOrder) (Nat.le_add_left _ _) (by omega)
    rw [index] at list
    exact ⟨_, list, list.forward.nodup, fun o => Iff.rfl⟩
  · intro i
    rw [lists.bitmap i]
    refine and_congr_right fun inside => ?_
    rcases lists.head_block (i + minOrder) (Nat.le_add_left _ _) (by omega) with
      ⟨null, empty⟩ | ⟨head, block⟩
    · rw [index] at null
      simp [null, empty]
    · rw [index] at head block
      have real := Nat.ne_of_lt (lists.offsets _ block)
      have nonempty : p.bins (i + minOrder) ≠ [] := fun empty => by simp [empty] at head
      simp [real, nonempty]

theorem buddy_consistent (chunkptr size : Nat) (s : Run Headers)
    (reached : (system Headers chunkptr size).Reachable s) :
    ∃ free used, Consistent s.allocator (startOrder size) s.live free used := by
  obtain ⟨p, related⟩ := related_of_run chunkptr size s reached
  exact ⟨_, _, related.consistent⟩

def blankHeaders : Headers := fun _ => ⟨0, false, 0, 0⟩

def poolWithHundred : Run Headers :=
  ⟨(alloc (construct 4096 4096 blankHeaders) 100).2, [⟨4112, 100⟩]⟩

theorem poolWithHundred_reachable : (system Headers 4096 4096).Reachable poolWithHundred := by
  have step := Run.Step.alloc ⟨construct 4096 4096 blankHeaders, []⟩ 100
  have result : (alloc (construct 4096 4096 blankHeaders) 100).1 = some 4112 := by
    decide +kernel
  rw [result] at step
  exact .step (.start ⟨_, rfl⟩) step

theorem buddy_consistent_hundred :
    ∃ free used, Consistent poolWithHundred.allocator (startOrder 4096) [⟨4112, 100⟩] free used :=
  buddy_consistent 4096 4096 poolWithHundred poolWithHundred_reachable

end ElySquare.Buddy
