import Mathlib.Logic.Function.Basic
import ElySquare.Shared.Loans
import ElySquare.Allocators.Arena

set_option autoImplicit false

namespace ElySquare

def alignQuantum : Nat := 16

def minBlockSize : Nat := alignQuantum

def numBuckets : Nat := 128

def alignSize (size : Nat) : Nat :=
  let actual := if size < minBlockSize then minBlockSize else size
  Align.maskUp 64 actual alignQuantum

def getBucketIndex (alignedSize : Nat) : Nat := (alignedSize / alignQuantum + (2 ^ 64 - 1)) % 2 ^ 64

structure MetaArena where
  arena : Arena
  lastAllocatedShape : Option Nat
  freeListHead : Nat → Option Nat

/-- Memory that a FreeList can be laid over: `next` reads the field of the node at an address. -/
class LinkStore (Memory : Type) where
  next : Memory → Nat → Result (Option Nat)
  setNext : Memory → Nat → Option Nat → Memory

/-- What a call on a meta arena reads and writes. `calls` lists the calls of metalloc and metarecycle with
their sizes, the newest first; no code reads it. -/
structure World (Memory : Type) where
  manager : PageManager
  metaArena : MetaArena
  memory : Memory
  calls : List (Loans.Event Nat Nat)

namespace MetaArena

variable {Memory : Type} [LinkStore Memory]

def construct (manager : PageManager) (size : Nat) (memory : Memory) : Result (World Memory) := do
  let (arena, manager) ← Arena.construct manager size
  .ok ⟨manager, ⟨arena, none, fun _ => none⟩, memory, []⟩

def bump (w : World Memory) (size alignment : Nat) : Result (Nat × World Memory) := do
  let actualSize := alignSize size
  let (node, arena, manager) ← w.metaArena.arena.alloc w.manager actualSize alignment
  .ok (node, { w with
    manager := manager
    metaArena := { w.metaArena with arena := arena }
    calls := .lent node size :: w.calls })

def metalloc (w : World Memory) (size alignment : Nat) : Result (Nat × World Memory) :=
  let actualSize := alignSize size
  let bucketIdx := getBucketIndex actualSize
  if bucketIdx < numBuckets then
    match w.metaArena.freeListHead bucketIdx with
    | some node => do
        let next ← LinkStore.next w.memory node
        .ok (node, { w with
          metaArena := { w.metaArena with
            freeListHead := Function.update w.metaArena.freeListHead bucketIdx next }
          calls := .lent node size :: w.calls })
    | none => bump w size alignment
  else bump w size alignment

-- metalloc and the check that its callers make of its result.
def metallocOr (message : String) (w : World Memory) (size alignment : Nat) :
    Result (Nat × World Memory) := do
  let (ptr, w) ← metalloc w size alignment
  if ptr = 0 then .error (.outOfMemory message) else .ok (ptr, w)

def cached (w : World Memory) (size : Nat) : Option Nat :=
  if getBucketIndex (alignSize size) < numBuckets then
    w.metaArena.freeListHead (getBucketIndex (alignSize size))
  else none

theorem metalloc_cached (w : World Memory) (size alignment node : Nat)
    (taken : cached w size = some node) :
    getBucketIndex (alignSize size) < numBuckets ∧
      w.metaArena.freeListHead (getBucketIndex (alignSize size)) = some node ∧
      metalloc w size alignment = LinkStore.next w.memory node >>= fun next =>
        .ok (node, { w with
          metaArena := { w.metaArena with
            freeListHead := Function.update w.metaArena.freeListHead
              (getBucketIndex (alignSize size)) next }
          calls := .lent node size :: w.calls }) := by
  unfold cached at taken
  by_cases inside : getBucketIndex (alignSize size) < numBuckets
  · rw [if_pos inside] at taken
    refine ⟨inside, taken, ?_⟩
    unfold metalloc
    simp only [if_pos inside, taken]
  · rw [if_neg inside] at taken
    cases taken

theorem metalloc_bumped (w : World Memory) (size alignment : Nat) (empty : cached w size = none) :
    metalloc w size alignment = bump w size alignment := by
  unfold cached at empty
  unfold metalloc
  by_cases inside : getBucketIndex (alignSize size) < numBuckets
  · rw [if_pos inside] at empty
    simp only [if_pos inside, empty]
  · simp only [if_neg inside]

theorem metalloc_cases (w : World Memory) (size alignment : Nat) :
    (∃ node, getBucketIndex (alignSize size) < numBuckets ∧
      w.metaArena.freeListHead (getBucketIndex (alignSize size)) = some node ∧
      metalloc w size alignment = LinkStore.next w.memory node >>= fun next =>
        .ok (node, { w with
          metaArena := { w.metaArena with
            freeListHead := Function.update w.metaArena.freeListHead
              (getBucketIndex (alignSize size)) next }
          calls := .lent node size :: w.calls })) ∨
    metalloc w size alignment = bump w size alignment := by
  cases taken : cached w size with
  | none => exact .inr (metalloc_bumped w size alignment taken)
  | some node => exact .inl ⟨node, metalloc_cached w size alignment node taken⟩

def metarecycle (w : World Memory) (ptr size : Nat) : World Memory :=
  let w := { w with calls := .returned ptr size :: w.calls }
  if ptr = 0 then w
  else
    let actualSize := alignSize size
    let bucketIdx := getBucketIndex actualSize
    if bucketIdx ≥ numBuckets then w
    else { w with
      memory := LinkStore.setNext w.memory ptr (w.metaArena.freeListHead bucketIdx)
      metaArena := { w.metaArena with
        freeListHead := Function.update w.metaArena.freeListHead bucketIdx (some ptr) } }

theorem metalloc_kept (w : World Memory) (size alignment ptr : Nat) (after : World Memory)
    (made : metalloc w size alignment = .ok (ptr, after)) :
    after.metaArena.lastAllocatedShape = w.metaArena.lastAllocatedShape ∧
      after.calls = .lent ptr size :: w.calls := by
  rcases metalloc_cases w size alignment with ⟨node, _, _, taken⟩ | bumped
  · rw [taken] at made
    obtain ⟨next, _, rest⟩ := (Result.bind_ok _ _ _).mp made
    cases rest
    exact ⟨rfl, rfl⟩
  · rw [bumped] at made
    obtain ⟨_, _, rest⟩ := (Result.bind_ok _ _ _).mp made
    cases rest
    exact ⟨rfl, rfl⟩

theorem metarecycle_cases (w : World Memory) (ptr size : Nat) (nonzero : ptr ≠ 0) :
    (numBuckets ≤ getBucketIndex (alignSize size) ∧
      metarecycle w ptr size = { w with calls := .returned ptr size :: w.calls }) ∨
    (getBucketIndex (alignSize size) < numBuckets ∧ metarecycle w ptr size = { w with
      calls := .returned ptr size :: w.calls
      memory := LinkStore.setNext w.memory ptr
        (w.metaArena.freeListHead (getBucketIndex (alignSize size)))
      metaArena := { w.metaArena with
        freeListHead := Function.update w.metaArena.freeListHead
          (getBucketIndex (alignSize size)) (some ptr) } }) := by
  unfold metarecycle
  dsimp only
  rw [if_neg nonzero]
  by_cases large : getBucketIndex (alignSize size) ≥ numBuckets
  · exact .inl ⟨large, if_pos large⟩
  · exact .inr ⟨Nat.lt_of_not_le large, if_neg large⟩

theorem metarecycle_kept (w : World Memory) (ptr size : Nat) :
    (metarecycle w ptr size).metaArena.lastAllocatedShape = w.metaArena.lastAllocatedShape ∧
      (metarecycle w ptr size).calls = .returned ptr size :: w.calls := by
  by_cases zero : ptr = 0
  · unfold metarecycle
    rw [if_pos zero]
    exact ⟨rfl, rfl⟩
  · rcases metarecycle_cases w ptr size zero with ⟨_, same⟩ | ⟨_, pushed⟩
    · rw [same]
      exact ⟨rfl, rfl⟩
    · rw [pushed]
      exact ⟨rfl, rfl⟩

end MetaArena

end ElySquare
