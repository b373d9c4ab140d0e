import ElySquare.Shared.Align
import ElySquare.Allocators.PageManager

set_option autoImplicit false

namespace ElySquare

structure Arena.Chunk where
  data : Nat
  capacity : Nat
  offset : Nat
  pages : Nat
deriving DecidableEq, Repr

/-- `chunks` is the list from `head`, and `current` is the position of the chunk that `current` points
to. -/
structure Arena where
  chunks : List Arena.Chunk
  current : Nat
  defaultSize : Nat
deriving DecidableEq, Repr

namespace Arena

def alignForward (address alignment : Nat) : Nat := Align.maskUp 64 address alignment

-- Two rounds are enough for every request that one segment can serve, and no number of rounds is
-- for the others.
def requestRounds : Nat := 2

def newChunk (manager : PageManager) (bytes : Nat) : Result (Chunk × PageManager) := do
  let pages := pagesOf bytes
  let (data, manager) ← manager.requestPageChunk requestRounds pages
  .ok (⟨data.getD 0, pages * pageSize, 0, pages⟩, manager)

def construct (manager : PageManager) (defaultChunkSize : Nat) : Result (Arena × PageManager) := do
  let (chunk, manager) ← newChunk manager defaultChunkSize
  .ok (⟨[chunk], 0, defaultChunkSize⟩, manager)

-- The branch that does not fit links the new chunk after the current one and makes it current.
def alloc (arena : Arena) (manager : PageManager) (bytes alignment : Nat) :
    Result (Nat × Arena × PageManager) :=
  match arena.chunks[arena.current]? with
  | none => .error (.invalidAccess 0)
  | some chunk =>
    let alignedOffset := alignForward chunk.offset alignment
    if (alignedOffset + bytes) % 2 ^ 64 > chunk.capacity then do
      let nextChunkSize := if bytes ≤ arena.defaultSize then arena.defaultSize else bytes
      let (chunk, manager) ← newChunk manager nextChunkSize
      let alignedOffset := alignForward chunk.offset alignment
      .ok (chunk.data + alignedOffset,
        { arena with
          chunks := arena.chunks.take (arena.current + 1) ++
            [{ chunk with offset := (alignedOffset + bytes) % 2 ^ 64 }]
          current := arena.current + 1 },
        manager)
    else
      .ok (chunk.data + alignedOffset,
        { arena with
          chunks := arena.chunks.set arena.current
            { chunk with offset := (alignedOffset + bytes) % 2 ^ 64 } },
        manager)

def nextChunkSize (arena : Arena) (bytes : Nat) : Nat :=
  if bytes ≤ arena.defaultSize then arena.defaultSize else bytes

theorem alloc_fits (arena : Arena) (manager : PageManager) (bytes alignment : Nat) (c : Chunk)
    (found : arena.chunks[arena.current]? = some c)
    (fits : (alignForward c.offset alignment + bytes) % 2 ^ 64 ≤ c.capacity) :
    arena.alloc manager bytes alignment = .ok (c.data + alignForward c.offset alignment, { arena with
      chunks := arena.chunks.set arena.current
        { c with offset := (alignForward c.offset alignment + bytes) % 2 ^ 64 } }, manager) := by
  unfold alloc
  simp only [found, if_neg (Nat.not_lt.mpr fits)]

theorem alloc_full (arena : Arena) (manager : PageManager) (bytes alignment : Nat) (c : Chunk)
    (found : arena.chunks[arena.current]? = some c)
    (full : c.capacity < (alignForward c.offset alignment + bytes) % 2 ^ 64) :
    arena.alloc manager bytes alignment = (newChunk manager (nextChunkSize arena bytes)).bind
      fun made => .ok (made.1.data + alignForward made.1.offset alignment, { arena with
        chunks := arena.chunks.take (arena.current + 1) ++
          [{ made.1 with offset := (alignForward made.1.offset alignment + bytes) % 2 ^ 64 }]
        current := arena.current + 1 }, made.2) := by
  unfold alloc
  simp only [found, if_pos full]
  rfl

-- One element is reserved, whatever the count.
def allocof (arena : Arena) (manager : PageManager) (size alignment _count : Nat) :
    Result (Nat × Arena × PageManager) :=
  arena.alloc manager size alignment

-- `delete` of the chunks one after the other, as clearChunks and popToMarker do it.
def deleteChunks (manager : PageManager) : List Chunk → Result PageManager
  | [] => .ok manager
  | chunk :: rest =>
    if chunk.data = 0 then deleteChunks manager rest
    else do
      let manager ← manager.releasePageChunk chunk.data chunk.pages
      deleteChunks manager rest

structure Marker where
  chunk : Option Nat
  offset : Nat
deriving DecidableEq, Repr

def getMarker (arena : Arena) : Marker :=
  ⟨some arena.current, (arena.chunks[arena.current]?).elim 0 Chunk.offset⟩

def popToMarker (arena : Arena) (manager : PageManager) (marker : Marker) :
    Result (Arena × PageManager) :=
  match marker.chunk with
  | none => .ok (arena, manager)
  | some k =>
    match arena.chunks[k]? with
    | none => .error (.invalidAccess 0)
    | some chunk => do
      let manager ← deleteChunks manager (arena.chunks.drop (k + 1))
      .ok ({ arena with
        chunks := arena.chunks.take k ++ [{ chunk with offset := marker.offset }]
        current := k }, manager)

def clear (arena : Arena) (manager : PageManager) : Result (Arena × PageManager) := do
  let manager ← deleteChunks manager arena.chunks
  let (chunk, manager) ← newChunk manager arena.defaultSize
  .ok ({ arena with chunks := [chunk], current := 0 }, manager)

end Arena

end ElySquare
