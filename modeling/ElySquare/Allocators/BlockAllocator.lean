import ElySquare.Meta.MetaArena

set_option autoImplicit false

namespace ElySquare

structure BlockAllocator (Memory : Type) where
  chunk : Nat
  chunkSize : Nat
  blockSize : Nat
  pagesCount : Nat
  freeList : Option Nat
  memory : Memory

namespace BlockAllocator

-- sizeof(FreeBlock).
def sizeofFreeBlock : Nat := 8

variable {Memory : Type} [LinkStore Memory]

-- The loop of the constructor from round `i` on, and the end of the list.
def linkBlocks (chunk blockSize : Nat) : Nat → Nat → Nat → Memory → Memory
  | 0, _, current, memory => LinkStore.setNext memory current none
  | rounds + 1, i, current, memory =>
    let next := chunk + i * blockSize % 2 ^ 64
    linkBlocks chunk blockSize rounds (i + 1) next (LinkStore.setNext memory current (some next))

def construct (manager : PageManager) (memory : Memory) (elemSize blocksCount align : Nat) :
    Result (BlockAllocator Memory × PageManager) := do
  let alignedSize := Align.maskUp 64 elemSize align
  let blockSize := if alignedSize < sizeofFreeBlock then sizeofFreeBlock else alignedSize
  let totalSize := blockSize * blocksCount % 2 ^ 64
  let pages := (totalSize + pageSize - 1) % 2 ^ 64 / pageSize
  let (ptr, manager) ← manager.requestPageChunk Arena.requestRounds pages
  match ptr with
  | none => .error (.outOfMemory "ERROR ALLOCATION OF BLOCK ALLOCATOR")
  | some chunk =>
    if blocksCount = 0 then
      .ok (⟨chunk, pages * pageSize, blockSize, pages, none, memory⟩, manager)
    else
      let memory := linkBlocks chunk blockSize (blocksCount - 1) 1 chunk memory
      .ok (⟨chunk, pages * pageSize, blockSize, pages, some chunk, memory⟩, manager)

def destroy (b : BlockAllocator Memory) (manager : PageManager) : Result PageManager :=
  manager.releasePageChunk b.chunk b.pagesCount

def uncheckedAlloc (b : BlockAllocator Memory) : Result (Option Nat × BlockAllocator Memory) :=
  match b.freeList with
  | none => .ok (none, b)
  | some ptr => do
    let next ← LinkStore.next b.memory ptr
    .ok (some ptr, { b with freeList := next })

def alloc (b : BlockAllocator Memory) (size : Nat) : Result (Option Nat × BlockAllocator Memory) :=
  if size > b.blockSize then .ok (none, b) else uncheckedAlloc b

def free (b : BlockAllocator Memory) (ptr : Nat) : BlockAllocator Memory :=
  if ptr = 0 then b
  else { b with memory := LinkStore.setNext b.memory ptr b.freeList, freeList := some ptr }

theorem construct_spec (manager : PageManager) (memory : Memory) (elemSize blocksCount align : Nat)
    (b : BlockAllocator Memory) (after : PageManager)
    (made : construct manager memory elemSize blocksCount align = .ok (b, after)) :
    manager.requestPageChunk Arena.requestRounds b.pagesCount = .ok (some b.chunk, after) := by
  unfold construct at made
  generalize (if Align.maskUp 64 elemSize align < sizeofFreeBlock then sizeofFreeBlock
    else Align.maskUp 64 elemSize align) = blockSize at made
  generalize (blockSize * blocksCount % 2 ^ 64 + pageSize - 1) % 2 ^ 64 / pageSize = pages at made
  obtain ⟨⟨ptr, grown⟩, granted, rest⟩ := (Result.bind_ok _ _ _).mp made
  cases ptr with
  | none => simp at rest
  | some chunk =>
      by_cases empty : blocksCount = 0
      · simp only [if_pos empty, Except.ok.injEq, Prod.mk.injEq] at rest
        obtain ⟨rfl, rfl⟩ := rest
        exact granted
      · simp only [if_neg empty, Except.ok.injEq, Prod.mk.injEq] at rest
        obtain ⟨rfl, rfl⟩ := rest
        exact granted

theorem uncheckedAlloc_chunk (b after : BlockAllocator Memory) (ptr : Option Nat)
    (made : b.uncheckedAlloc = .ok (ptr, after)) :
    after.chunk = b.chunk ∧ after.pagesCount = b.pagesCount := by
  unfold uncheckedAlloc at made
  cases first : b.freeList with
  | none =>
      simp only [first, Except.ok.injEq, Prod.mk.injEq] at made
      exact ⟨made.2 ▸ rfl, made.2 ▸ rfl⟩
  | some block =>
      simp only [first] at made
      obtain ⟨next, _, rest⟩ := (Result.bind_ok _ _ _).mp made
      simp only [Except.ok.injEq, Prod.mk.injEq] at rest
      exact ⟨rest.2 ▸ rfl, rest.2 ▸ rfl⟩

theorem alloc_chunk (b after : BlockAllocator Memory) (size : Nat) (ptr : Option Nat)
    (made : b.alloc size = .ok (ptr, after)) :
    after.chunk = b.chunk ∧ after.pagesCount = b.pagesCount := by
  unfold alloc at made
  split at made
  · cases made
    exact ⟨rfl, rfl⟩
  · exact uncheckedAlloc_chunk b after ptr made

theorem free_chunk (b : BlockAllocator Memory) (ptr : Nat) :
    (b.free ptr).chunk = b.chunk ∧ (b.free ptr).pagesCount = b.pagesCount := by
  unfold free
  split <;> exact ⟨rfl, rfl⟩

end BlockAllocator

end ElySquare
