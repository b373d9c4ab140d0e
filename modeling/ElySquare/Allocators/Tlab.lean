import ElySquare.Allocators.Arena
import ElySquare.Allocators.BuddyRefinement

set_option autoImplicit false

namespace ElySquare

namespace Buddy

variable {Memory : Type} [HeaderStore Memory]

def create (manager : PageManager) (memory : Memory) (size : Nat) :
    Result (BuddyAllocator Memory × PageManager) := do
  let (chunkptr, manager) ← manager.requestPageChunk Arena.requestRounds (pagesOf size)
  match chunkptr with
  | none => .error (.outOfMemory "Failed to allocate BuddyAllocator")
  | some chunkptr => .ok (construct chunkptr size memory, manager)

def destroy (a : BuddyAllocator Memory) (manager : PageManager) : Result PageManager :=
  manager.releasePageChunk a.base a.pages

theorem create_spec (manager : PageManager) (memory : Memory) (size : Nat)
    (a : BuddyAllocator Memory) (after : PageManager)
    (made : create manager memory size = .ok (a, after)) :
    manager.requestPageChunk Arena.requestRounds a.pages = .ok (some a.base, after) := by
  unfold create at made
  obtain ⟨⟨chunkptr, grown⟩, granted, rest⟩ := (Result.bind_ok _ _ _).mp made
  cases chunkptr with
  | none => cases rest
  | some chunkptr =>
      cases rest
      exact granted

theorem alloc_base_pages (a : BuddyAllocator Memory) (size : Nat) :
    (alloc a size).2.base = a.base ∧ (alloc a size).2.pages = a.pages := by
  unfold alloc
  split
  · exact ⟨rfl, rfl⟩
  dsimp only
  split
  · exact ⟨rfl, rfl⟩
  · split
    · simpa using split_base_pages (removeFreeBlock a _ _) _ _ _
    · simp

theorem free_base_pages (a : BuddyAllocator Memory) (ptr : Nat) :
    (free a ptr).base = a.base ∧ (free a ptr).pages = a.pages := by
  unfold free
  split
  · exact ⟨rfl, rfl⟩
  · exact mergeUp_base_pages _ _ _ _

end Buddy

structure TLAB (Memory : Type) where
  allocator : Buddy.BuddyAllocator Memory

namespace TLAB

variable {Memory : Type} [Buddy.HeaderStore Memory]

def construct (manager : PageManager) (memory : Memory) (capacityBytes : Nat) :
    Result (TLAB Memory × PageManager) := do
  let (allocator, manager) ← Buddy.create manager memory capacityBytes
  .ok (⟨allocator⟩, manager)

def alloc (t : TLAB Memory) (size : Nat) : Option Nat × TLAB Memory :=
  let (ptr, allocator) := Buddy.alloc t.allocator size
  (ptr, ⟨allocator⟩)

def free (t : TLAB Memory) (ptr : Nat) : TLAB Memory := ⟨Buddy.free t.allocator ptr⟩

-- The body of ~TLAB, which calls the destructor of the member.
def destroy (t : TLAB Memory) (manager : PageManager) : Result PageManager :=
  Buddy.destroy t.allocator manager

-- What C++ runs after the body: the destructor of the member.
def destroyMembers (t : TLAB Memory) (manager : PageManager) : Result PageManager :=
  Buddy.destroy t.allocator manager

theorem construct_spec (manager : PageManager) (memory : Memory) (capacityBytes : Nat)
    (t : TLAB Memory) (after : PageManager)
    (made : construct manager memory capacityBytes = .ok (t, after)) :
    manager.requestPageChunk Arena.requestRounds t.allocator.pages =
      .ok (some t.allocator.base, after) := by
  unfold construct at made
  obtain ⟨⟨allocator, grown⟩, created, rest⟩ := (Result.bind_ok _ _ _).mp made
  cases rest
  exact Buddy.create_spec manager memory capacityBytes allocator after created

end TLAB

end ElySquare
