import ElySquare.Shared.Pool
import ElySquare.Meta.MetaArenaHeap
import ElySquare.Allocators.BlockAllocator

set_option autoImplicit false

namespace ElySquare

theorem follow_congr (left right : RawMemory) (p : Nat)
    (same : ∀ x, p ≤ x → x < p + 8 → left x = right x) :
    MetaArena.follow left p = MetaArena.follow right p := by
  unfold MetaArena.follow
  rw [raw_next_congr left right p same]

theorem follow_setNext (memory : RawMemory) (p : Nat) (next : Option Nat)
    (valid : ∀ q, next = some q → 0 < q ∧ q < 2 ^ 64) :
    MetaArena.follow (LinkStore.setNext memory p next) p = next := by
  unfold MetaArena.follow
  rw [LawfulLinks.next_here memory p next valid]

theorem setNext_outside (memory : RawMemory) (p x : Nat) (next : Option Nat)
    (outside : x < p ∨ p + 8 ≤ x) : (LinkStore.setNext memory p next : RawMemory) x = memory x :=
  LittleEndian.write_outside memory p 8 (asWord next) x outside

namespace BlockAllocator

open Linked Transition Pool

def roundedSize (elemSize align : Nat) : Nat :=
  max ((elemSize + align - 1) / align * align) sizeofFreeBlock

def blockSizeOf (elemSize align : Nat) : Nat :=
  let alignedSize := Align.maskUp 64 elemSize align
  if alignedSize < sizeofFreeBlock then sizeofFreeBlock else alignedSize

def requestedPages (elemSize blocksCount align : Nat) : Nat :=
  (blockSizeOf elemSize align * blocksCount % 2 ^ 64 + pageSize - 1) % 2 ^ 64 / pageSize

section Construct

variable {elemSize blocksCount k : Nat}

theorem blockSizeOf_wide (elemSize align : Nat) : 8 ≤ blockSizeOf elemSize align := by
  unfold blockSizeOf sizeofFreeBlock
  dsimp only
  split <;> omega

theorem blockSizeOf_eq (fine : k ≤ 12) (room : elemSize + 2 ^ k - 1 < 2 ^ 64) :
    blockSizeOf elemSize (2 ^ k) = roundedSize elemSize (2 ^ k) := by
  unfold blockSizeOf roundedSize sizeofFreeBlock
  dsimp only
  rw [Align.maskUp_two_pow 64 k elemSize (by omega) room]
  split <;> omega

theorem rounded_room (fine : k ≤ 12) (room : roundedSize elemSize (2 ^ k) < 2 ^ 64) :
    elemSize ≤ roundedSize elemSize (2 ^ k) ∧ elemSize + 2 ^ k - 1 < 2 ^ 64 := by
  have positive := Nat.two_pow_pos k
  have split := Nat.div_add_mod' (elemSize + 2 ^ k - 1) (2 ^ k)
  have rest := Nat.mod_lt (elemSize + 2 ^ k - 1) positive
  have word : 2 ^ 64 = 2 ^ (64 - k) * 2 ^ k := by rw [← Nat.pow_add, Nat.sub_add_cancel (by omega)]
  have rounded := Nat.le_max_left ((elemSize + 2 ^ k - 1) / 2 ^ k * 2 ^ k) sizeofFreeBlock
  -- the last multiple below the end of the word leaves room for one more
  have below : ((elemSize + 2 ^ k - 1) / 2 ^ k + 1) * 2 ^ k ≤ 2 ^ (64 - k) * 2 ^ k :=
    Nat.mul_le_mul_right _ (Nat.lt_of_mul_lt_mul_right
      (word ▸ Nat.lt_of_le_of_lt rounded room : _ * 2 ^ k < 2 ^ (64 - k) * 2 ^ k))
  rw [Nat.add_mul, Nat.one_mul, ← word] at below
  unfold roundedSize at *
  exact ⟨by omega, by omega⟩

-- A size that is rounded past the end of the word leaves the smallest block.
theorem blockSizeOf_wraps (fine : k ≤ 12) (word : elemSize < 2 ^ 64)
    (wraps : 2 ^ 64 ≤ elemSize + 2 ^ k - 1) : blockSizeOf elemSize (2 ^ k) = sizeofFreeBlock := by
  have power := Nat.pow_le_pow_right (n := 2) (by omega) fine
  have positive := Nat.two_pow_pos k
  have none : Align.maskUp 64 elemSize (2 ^ k) = 0 := by
    rw [Align.maskUp_eq 64 k elemSize (by omega),
      show elemSize + 2 ^ k + (2 ^ 64 - 1) = elemSize + 2 ^ k - 1 - 2 ^ 64 + 2 * 2 ^ 64 by omega,
      Nat.add_mul_mod_self_right, Nat.mod_eq_of_lt (by omega), Nat.div_eq_of_lt (by omega), Nat.zero_mul]
  unfold blockSizeOf
  rw [none]
  rfl

theorem blockSizeOf_dvd (fine : k ≤ 12) (some : 1 ≤ elemSize)
    (room : elemSize + 2 ^ k - 1 < 2 ^ 64) : 2 ^ k ∣ blockSizeOf elemSize (2 ^ k) := by
  have aligned := Align.dvd_maskUp 64 k elemSize (by omega)
  have large := Align.le_maskUp 64 k elemSize (by omega) room
  unfold blockSizeOf sizeofFreeBlock
  dsimp only
  split
  next small =>
    -- a power of two that is smaller than eight divides it
    have power := Nat.le_of_dvd (by omega) aligned
    have low : k ≤ 3 := by
      by_contra high
      have := Nat.pow_le_pow_right (n := 2) (by omega) (Nat.not_le.mp high)
      omega
    exact Nat.pow_dvd_pow 2 low
  · exact aligned

theorem construct_eq {Memory : Type} [LinkStore Memory] (manager : PageManager) (memory : Memory)
    (elemSize blocksCount align : Nat) :
    construct manager memory elemSize blocksCount align =
      manager.requestPageChunk Arena.requestRounds (requestedPages elemSize blocksCount align) >>=
        fun (ptr, manager) =>
          match ptr with
          | none => .error (.outOfMemory "ERROR ALLOCATION OF BLOCK ALLOCATOR")
          | some chunk =>
            if blocksCount = 0 then
              .ok (⟨chunk, requestedPages elemSize blocksCount align * pageSize,
                blockSizeOf elemSize align, requestedPages elemSize blocksCount align, none, memory⟩,
                manager)
            else
              .ok (⟨chunk, requestedPages elemSize blocksCount align * pageSize,
                blockSizeOf elemSize align, requestedPages elemSize blocksCount align, some chunk,
                linkBlocks chunk (blockSizeOf elemSize align) (blocksCount - 1) 1 chunk memory⟩,
                manager) := rfl

end Construct

theorem linkBlocks_chain (chunk stride rounds i current : Nat) (memory : RawMemory)
    (wide : 8 ≤ stride) (positive : 0 < current) (here : current + stride = chunk + i * stride)
    (room : current + stride * (rounds + 1) ≤ 2 ^ 64) :
    Chain (MetaArena.follow (linkBlocks chunk stride rounds i current memory)) (some current)
        (slots current stride (rounds + 1)) ∧
      ∀ x, x < current ∨ current + stride * (rounds + 1) ≤ x →
        linkBlocks chunk stride rounds i current memory x = memory x := by
  induction rounds generalizing i current memory with
  | zero =>
      refine ⟨⟨rfl, follow_setNext memory current none fun _ same => by cases same⟩, fun x outside => ?_⟩
      exact setNext_outside memory current x none (by omega)
  | succ rounds ih =>
      have more : stride * (rounds + 1 + 1) = stride + stride * (rounds + 1) := by
        rw [Nat.mul_add, Nat.mul_one, Nat.add_comm]
      have one : stride ≤ stride * (rounds + 1) := Nat.le_mul_of_pos_right _ (Nat.succ_pos _)
      have next : chunk + i * stride % 2 ^ 64 = current + stride := by
        rw [Nat.mod_eq_of_lt (by omega), here]
      unfold linkBlocks
      dsimp only
      rw [next]
      obtain ⟨rest, outside⟩ := ih (i + 1) (current + stride)
        (LinkStore.setNext memory current (some (current + stride))) (by omega)
        (by rw [Nat.add_mul]; omega) (by omega)
      have link := follow_setNext memory current (some (current + stride)) fun q same => by
        cases same
        omega
      refine ⟨⟨rfl, ?_⟩, fun x beyond => ?_⟩
      · rw [follow_congr _ _ current fun x above below => outside x (.inl (by omega)), link]
        exact rest
      · rw [outside x (by omega)]
        exact setNext_outside memory current x _ (by omega)

structure Run where
  pool : BlockAllocator RawMemory
  live : List Nat

inductive Call
  | alloc (size : Nat)
  | uncheckedAlloc
  | free (ptr : Nat)
  | write
deriving DecidableEq, Repr

-- The bytes of the pool that nobody may write to.
def Run.Reserved (s : Run) (x : Nat) : Prop :=
  s.pool.chunk ≤ x ∧ x < s.pool.chunk + s.pool.chunkSize ∧
    ∀ p ∈ s.live, ¬ (p ≤ x ∧ x < p + s.pool.blockSize)

inductive Run.Step : Run → Call → Run → Prop
  | alloc (s : Run) (size : Nat) (ptr : Option Nat) (pool : BlockAllocator RawMemory)
      (made : s.pool.alloc size = .ok (ptr, pool)) :
      Step s (.alloc size) ⟨pool, ptr.toList ++ s.live⟩
  | uncheckedAlloc (s : Run) (ptr : Option Nat) (pool : BlockAllocator RawMemory)
      (made : s.pool.uncheckedAlloc = .ok (ptr, pool)) :
      Step s .uncheckedAlloc ⟨pool, ptr.toList ++ s.live⟩
  | free (s : Run) (ptr : Nat) (alive : ptr ∈ s.live) :
      Step s (.free ptr) ⟨s.pool.free ptr, s.live.erase ptr⟩
  -- the owners of the live blocks write what they like, and so does the rest of the program elsewhere
  | write (s : Run) (memory : RawMemory)
      (frame : ∀ x, s.Reserved x → memory x = s.pool.memory x) :
      Step s .write ⟨{ s.pool with memory := memory }, s.live⟩

def system (reservations : Nat → Option Nat) (elemSize blocksCount align : Nat) : System Run Call where
  start s := ∃ pages memory after, (PageManager.system reservations).Reachable pages ∧
    construct pages.manager memory elemSize blocksCount align = .ok (s.pool, after) ∧ s.live = []
  step := Run.Step

structure Laid (chunk chunkSize blockSize count alignment : Nat) : Prop where
  positive : 0 < chunk
  mapped : chunk + chunkSize ≤ 2 ^ 64
  wide : 8 ≤ blockSize
  room : blockSize * count ≤ chunkSize
  base : alignment ∣ chunk
  stride : alignment ∣ blockSize

def Shared (pool : BlockAllocator RawMemory) (count : Nat) (free live : List Nat) : Prop :=
  Shares (MetaArena.follow pool.memory) pool.freeList (slots pool.chunk pool.blockSize count) free live

structure Kept (count alignment : Nat) (s : Run) (free : List Nat) : Prop
    extends Laid s.pool.chunk s.pool.chunkSize s.pool.blockSize count alignment where
  shared : Shared s.pool count free s.live

section Built

variable {manager after : PageManager} {memory : RawMemory} {elemSize blocksCount align : Nat}
  {pool : BlockAllocator RawMemory}

structure Made (manager : PageManager) (memory : RawMemory) (elemSize blocksCount align : Nat)
    (pool : BlockAllocator RawMemory) (after : PageManager) : Prop where
  granted : manager.requestPageChunk Arena.requestRounds (requestedPages elemSize blocksCount align) =
    .ok (some pool.chunk, after)
  pages : requestedPages elemSize blocksCount align ≠ 0
  chunkSize : pool.chunkSize = requestedPages elemSize blocksCount align * pageSize
  blockSize : pool.blockSize = blockSizeOf elemSize align
  freeList : pool.freeList = some pool.chunk
  memory : pool.memory = linkBlocks pool.chunk pool.blockSize (blocksCount - 1) 1 pool.chunk memory

theorem requestedPages_zero (elemSize align : Nat) : requestedPages elemSize 0 align = 0 := by
  unfold requestedPages pageSize
  rw [Nat.mul_zero]
  rfl

theorem construct_made (made : construct manager memory elemSize blocksCount align = .ok (pool, after)) :
    blocksCount ≠ 0 ∧ Made manager memory elemSize blocksCount align pool after := by
  rw [construct_eq] at made
  obtain ⟨⟨ptr, grown⟩, granted, rest⟩ := (Result.bind_ok _ _ _).mp made
  have pages : requestedPages elemSize blocksCount align ≠ 0 := by
    intro none
    rw [none] at granted
    unfold Arena.requestRounds PageManager.requestPageChunk at granted
    rw [if_pos rfl] at granted
    cases granted
    cases rest
  have some : blocksCount ≠ 0 := by
    rintro rfl
    exact pages (requestedPages_zero elemSize align)
  obtain ⟨chunk, rfl⟩ := PageManager.Ledger.request_some _ _ ptr grown pages granted
  dsimp only at rest
  rw [if_neg some] at rest
  cases rest
  exact ⟨some, granted, pages, rfl, rfl, rfl, rfl⟩

theorem requestedPages_room (pages : requestedPages elemSize blocksCount align ≠ 0)
    (room : blockSizeOf elemSize align * blocksCount < 2 ^ 64) :
    blockSizeOf elemSize align * blocksCount ≤
      requestedPages elemSize blocksCount align * pageSize := by
  unfold requestedPages pageSize at *
  rw [Nat.mod_eq_of_lt room] at *
  omega

theorem Made.within {reservations : Nat → Option Nat} {others : List PageManager.Chunk}
    (reserves : Reserves reservations) (ledger : PageManager.Ledger reservations manager others)
    (made : Made manager memory elemSize blocksCount align pool after) :
    pageSize ∣ pool.chunk ∧ 0 < pool.chunk ∧ pool.chunkSize ≤ memoryChunkSize ∧
      pool.chunk + pool.chunkSize ≤ 2 ^ 64 := by
  rw [made.chunkSize]
  exact reserves.within (ledger.request_ledger reserves.regions _ _ _ _ made.granted).1
    ⟨pool.chunk, requestedPages elemSize blocksCount align⟩ List.mem_cons_self

theorem construct_kept {reservations : Nat → Option Nat} {others : List PageManager.Chunk}
    (reserves : Reserves reservations) (ledger : PageManager.Ledger reservations manager others)
    (made : construct manager memory elemSize blocksCount align = .ok (pool, after))
    (room : blockSizeOf elemSize align * blocksCount < 2 ^ 64) {alignment : Nat}
    (pages : alignment ∣ pageSize) (rounds : alignment ∣ blockSizeOf elemSize align) :
    Kept blocksCount alignment ⟨pool, []⟩ (slots pool.chunk pool.blockSize blocksCount) := by
  obtain ⟨some, made⟩ := construct_made made
  obtain ⟨page, positive, _, mapped⟩ := made.within reserves ledger
  have fits := requestedPages_room made.pages room
  rw [← made.chunkSize, ← made.blockSize] at fits
  have wide : 8 ≤ pool.blockSize := made.blockSize ▸ blockSizeOf_wide elemSize align
  refine ⟨⟨positive, mapped, wide, fits, Nat.dvd_trans pages page, made.blockSize ▸ rounds⟩, ?_, .of_eq (List.append_nil _)⟩
  have all : blocksCount - 1 + 1 = blocksCount := Nat.sub_add_cancel (Nat.pos_of_ne_zero some)
  have listed := (linkBlocks_chain pool.chunk pool.blockSize (blocksCount - 1) 1 pool.chunk memory wide
    positive (by omega) (by rw [all]; omega)).1
  rwa [← made.memory, ← made.freeList, all] at listed

end Built

section Steps

variable {count alignment : Nat} {s t : Run} {cells : List Nat}

namespace Kept

theorem within (kept : Kept count alignment s cells) (p : Nat)
    (member : p ∈ slots s.pool.chunk s.pool.blockSize count) :
    s.pool.chunk ≤ p ∧ p + s.pool.blockSize ≤ s.pool.chunk + s.pool.chunkSize := by
  obtain ⟨above, below⟩ := slots_within member
  exact ⟨above, Nat.le_trans below (Nat.add_le_add_left kept.room _)⟩

theorem once (kept : Kept count alignment s cells) : cells.Nodup ∧ s.live.Nodup ∧ ∀ p ∈ cells, p ∉ s.live :=
  kept.shared.once (Apart.nodup (Nat.lt_of_lt_of_le (by decide) kept.wide) slots_apart)

theorem apart (kept : Kept count alignment s cells) (p q : Nat) (alive : p ∈ s.live) (listed : q ∈ cells) :
    Apart s.pool.blockSize p q :=
  .of_ne slots_apart ((kept.shared.mem_iff p).mpr (.inr alive)) ((kept.shared.mem_iff q).mpr (.inl listed))
    fun equal => kept.once.2.2 q listed (equal ▸ alive)

end Kept

theorem uncheckedAlloc_eq (pool : BlockAllocator RawMemory) :
    pool.uncheckedAlloc = .ok (pool.freeList,
      { pool with freeList := pool.freeList.bind (MetaArena.follow pool.memory) }) := by
  obtain ⟨_, _, _, _, freeList, memory⟩ := pool
  cases freeList with
  | none => rfl
  | some p =>
      have read : MetaArena.follow memory p = asPointer (LittleEndian.read memory p 8) := by
        unfold MetaArena.follow
        rw [raw_next_eq]
      unfold uncheckedAlloc
      dsimp only
      rw [raw_next_eq, Result.ok_bind, Option.bind_some, read]

theorem Kept.take (kept : Kept count alignment s cells) : ∃ rest,
    Kept count alignment ⟨{ s.pool with freeList := s.pool.freeList.bind (MetaArena.follow s.pool.memory) },
      s.pool.freeList.toList ++ s.live⟩ rest := by
  obtain ⟨laid, shared⟩ := kept
  unfold Shared at shared
  cases first : s.pool.freeList with
  | none =>
      rw [first] at shared
      exact ⟨cells, laid, shared⟩
  | some p =>
      rw [first] at shared
      obtain ⟨rest, _, taken⟩ := shared.take p
      refine ⟨rest, laid, ?_⟩
      unfold Shared
      dsimp only
      rw [Option.bind_some, Option.toList_some]
      exact taken

theorem Kept.free (kept : Kept count alignment s cells) (p : Nat) (alive : p ∈ s.live) :
    Kept count alignment ⟨s.pool.free p, s.live.erase p⟩ (p :: cells) := by
  have slot := (kept.shared.mem_iff p).mpr (.inr alive)
  have bounds := kept.within p slot
  have nonzero : p ≠ 0 := by
    have := kept.positive
    omega
  have valid : ∀ q, s.pool.freeList = some q → 0 < q ∧ q < 2 ^ 64 := by
    intro q first
    have head := kept.shared.linked.head_eq.symm.trans first
    have bounds := kept.within q ((kept.shared.mem_iff q).mpr (.inl (List.mem_of_head? head)))
    have := kept.positive
    have := kept.mapped
    have := kept.wide
    omega
  have same : ∀ q ∈ cells, MetaArena.follow (LinkStore.setNext s.pool.memory p s.pool.freeList) q =
      MetaArena.follow s.pool.memory q := by
    intro q inFree
    have separate := kept.apart p q alive inFree
    have := kept.wide
    unfold Apart at separate
    exact follow_congr _ _ q fun x above below => setNext_outside s.pool.memory p x _ (by omega)
  unfold BlockAllocator.free
  rw [if_neg nonzero]
  exact ⟨kept.toLaid,
    kept.shared.give p alive (follow_setNext s.pool.memory p _ valid) same⟩

theorem Kept.write (kept : Kept count alignment s cells) (memory : RawMemory)
    (frame : ∀ x, s.Reserved x → memory x = s.pool.memory x) :
    Kept count alignment ⟨{ s.pool with memory := memory }, s.live⟩ cells := by
  refine ⟨kept.toLaid, kept.shared.congr fun q inFree => ?_⟩
  have slot := (kept.shared.mem_iff q).mpr (.inl inFree)
  have bounds := kept.within q slot
  have wide := kept.wide
  refine follow_congr _ _ q fun x above below => frame x ⟨by omega, by omega, fun p alive => ?_⟩
  have separate := kept.apart p q alive inFree
  unfold Apart at separate
  omega

theorem Kept.step (call : Call) (kept : Kept count alignment s cells) (taken : Run.Step s call t) :
    ∃ cells', Kept count alignment t cells' := by
  cases taken with
  | alloc size ptr pool made =>
      unfold alloc at made
      by_cases large : size > s.pool.blockSize
      · rw [if_pos large] at made
        cases made
        exact ⟨cells, kept⟩
      · rw [if_neg large, uncheckedAlloc_eq] at made
        cases made
        exact kept.take
  | uncheckedAlloc ptr pool made =>
      rw [uncheckedAlloc_eq] at made
      cases made
      exact kept.take
  | free ptr alive => exact ⟨_, kept.free ptr alive⟩
  | write memory frame => exact ⟨cells, kept.write memory frame⟩

theorem kept_of_reachable {reservations : Nat → Option Nat} (reserves : Reserves reservations)
    (elemSize blocksCount align : Nat) (room : blockSizeOf elemSize align * blocksCount < 2 ^ 64)
    (pages : alignment ∣ pageSize) (rounds : alignment ∣ blockSizeOf elemSize align) (s : Run)
    (reached : (system reservations elemSize blocksCount align).Reachable s) :
    ∃ cells, Kept blocksCount alignment s cells := by
  refine System.invariant _ (fun s => ∃ cells, Kept blocksCount alignment s cells) ?_
    (fun s call t ⟨_, kept⟩ taken => kept.step call taken) reached
  rintro ⟨pool, _⟩ ⟨run, memory, after, reached, made, rfl⟩
  exact ⟨_, construct_kept reserves (PageManager.ledger_of_reachable _ reserves.regions run reached)
    made room pages rounds⟩

end Steps

def slot (pool : BlockAllocator RawMemory) (i : Nat) : Nat := pool.chunk + i * pool.blockSize

structure Exact (s : Run) (count alignment : Nat) (free : List Nat) : Prop where
  linked : Chain (MetaArena.follow s.pool.memory) s.pool.freeList free
  once : free.Nodup ∧ s.live.Nodup
  either : ∀ p ∈ free, p ∉ s.live
  slots : ∀ p, (p ∈ free ∨ p ∈ s.live) ↔ ∃ i < count, p = slot s.pool i
  apart : ∀ i < count, ∀ j < count, i ≠ j → Apart s.pool.blockSize (slot s.pool i) (slot s.pool j)
  inside : ∀ i < count, s.pool.chunk ≤ slot s.pool i ∧
    slot s.pool i + s.pool.blockSize ≤ s.pool.chunk + s.pool.chunkSize
  aligned : ∀ i < count, alignment ∣ slot s.pool i

theorem Kept.exact {count alignment : Nat} {s : Run} {cells : List Nat}
    (kept : Kept count alignment s cells) : Exact s count alignment cells := by
  have member (i : Nat) (small : i < count) :
      slot s.pool i ∈ slots s.pool.chunk s.pool.blockSize count := mem_slots.mpr ⟨i, small, rfl⟩
  obtain ⟨freeOnce, liveOnce, either⟩ := kept.once
  refine ⟨kept.shared.linked, ⟨freeOnce, liveOnce⟩, either,
    fun p => (kept.shared.mem_iff p).symm.trans mem_slots, fun i inI j inJ other => ?_,
    fun i small => kept.within _ (member i small),
    fun i small => slots_dvd kept.base kept.stride (member i small)⟩
  refine .of_ne slots_apart (member i inI) (member j inJ) fun equal => other ?_
  exact Nat.eq_of_mul_eq_mul_right (Nat.lt_of_lt_of_le (by decide) kept.wide) (Nat.add_left_cancel equal)

theorem pool_exact {reservations : Nat → Option Nat} (reserves : Reserves reservations)
    (elemSize blocksCount k : Nat) (some : 1 ≤ elemSize) (blocks : 1 ≤ blocksCount) (fine : k ≤ 12)
    (room : roundedSize elemSize (2 ^ k) * blocksCount < 2 ^ 64) (s : Run)
    (reached : (system reservations elemSize blocksCount (2 ^ k)).Reachable s) :
    (∃ free, Exact s blocksCount (2 ^ k) free) ∧ ∀ size ≤ s.pool.blockSize,
      ((∃ after, s.pool.alloc size = .ok (none, after)) ↔ s.live.length = blocksCount) := by
  have one : roundedSize elemSize (2 ^ k) ≤ roundedSize elemSize (2 ^ k) * blocksCount :=
    Nat.le_mul_of_pos_right _ blocks
  have fits := (rounded_room fine (Nat.lt_of_le_of_lt one room)).2
  rw [← blockSizeOf_eq fine fits] at room
  obtain ⟨cells, kept⟩ := kept_of_reachable reserves elemSize blocksCount (2 ^ k) room
    (Nat.pow_dvd_pow 2 fine) (blockSizeOf_dvd fine some fits) s reached
  refine ⟨⟨cells, kept.exact⟩, fun size small => ?_⟩
  have exhausted := kept.shared.exhausted
  rw [length_slots] at exhausted
  rw [← exhausted]
  unfold alloc
  rw [if_neg (Nat.not_lt.mpr small), uncheckedAlloc_eq]
  constructor
  · rintro ⟨after, made⟩
    exact congrArg Prod.fst (Except.ok.inj made)
  · intro none
    rw [none]
    exact ⟨_, rfl⟩

theorem pairs_built (memory : RawMemory) : ∃ fresh manager,
    PageManager.construct PageManager.rowOfRegions = .ok fresh ∧
      construct fresh memory 16 2 (2 ^ 4) = .ok (⟨memoryChunkSize, pageSize, 16, 1, some memoryChunkSize,
        linkBlocks memoryChunkSize 16 1 1 memoryChunkSize memory⟩, manager) :=
  ⟨_, _, rfl, rfl⟩

theorem pool_exact_pair : ∃ s : Run, (system PageManager.rowOfRegions 16 2 (2 ^ 4)).Reachable s ∧
    s.live = [memoryChunkSize] ∧ (∃ free, Exact s 2 (2 ^ 4) free) ∧
    ∀ size ≤ s.pool.blockSize, ((∃ after, s.pool.alloc size = .ok (none, after)) ↔ s.live.length = 2) := by
  let memory : RawMemory := fun _ => 0#8
  obtain ⟨fresh, manager, first, built⟩ := pairs_built memory
  have started : (system PageManager.rowOfRegions 16 2 (2 ^ 4)).Reachable ⟨_, []⟩ :=
    .start ⟨⟨fresh, []⟩, memory, manager, .start ⟨_, first, rfl⟩, built, rfl⟩
  have taken := started.step (.uncheckedAlloc _ _ _ (uncheckedAlloc_eq _))
  exact ⟨_, taken, rfl, pool_exact rowOfRegions_reserves 16 2 4 (by decide) (by decide) (by decide)
    (by decide) _ taken⟩

end BlockAllocator

end ElySquare
