import ElySquare.Allocators.PageExchange
import ElySquare.Allocators.PageProtection

set_option autoImplicit false

namespace ElySquare

namespace PageManager

open Transition

def Serves (reservations : Nat → Option Nat) (manager : PageManager) (live : List Chunk) : Prop :=
  ∃ held, (system reservations).Reachable ⟨manager, held⟩ ∧ held.Perm live

namespace Serves

variable {reservations : Nat → Option Nat} {manager : PageManager} {live live' : List Chunk}

theorem perm (serves : Serves reservations manager live) (same : live.Perm live') :
    Serves reservations manager live' := by
  obtain ⟨held, reached, perm⟩ := serves
  exact ⟨held, reached, perm.trans same⟩

theorem ledger (regions : Regions reservations) (serves : Serves reservations manager live) :
    Ledger reservations manager live := by
  obtain ⟨held, reached, perm⟩ := serves
  exact (ledger_of_reachable reservations regions _ reached).perm _ perm

theorem request (reserves : Reserves reservations) (serves : Serves reservations manager live)
    (fuel pageCount ptr : Nat) (after : PageManager)
    (made : requestPageChunk fuel manager pageCount = .ok (some ptr, after)) :
    Serves reservations after (⟨ptr, pageCount⟩ :: live) := by
  have ledger' := ((serves.ledger reserves.regions).request_ledger reserves.regions _ _ _ _ made).1
  have positive := ledger'.positive _ List.mem_cons_self
  have size := (reserves.within ledger' _ List.mem_cons_self).2.2.1
  obtain ⟨held, reached, perm⟩ := serves
  refine ⟨⟨ptr, pageCount⟩ :: held, reached.step (.request _ pageCount fuel ptr after positive ?_ made),
    perm.cons _⟩
  unfold memoryChunkSize pageSize at size
  unfold cagePagesCount
  dsimp only at size
  omega

theorem release (serves : Serves reservations manager live) (c : Chunk) (alive : c ∈ live)
    (after : PageManager) (made : releasePageChunk manager c.ptr c.pages = .ok after) :
    Serves reservations after (live.erase c) := by
  obtain ⟨held, reached, perm⟩ := serves
  exact ⟨held.erase c, reached.step (.release _ c after (perm.mem_iff.mpr alive) made), perm.erase c⟩

theorem writable (reserves : Reserves reservations) (serves : Serves reservations manager live) (os : Os)
    (granted : Nat → Bool) (all : Granted granted manager.osCalls) (c : Chunk) (alive : c ∈ live)
    (address : Nat) (owner : c.Owns address) :
    (os.after granted manager.osCalls).protection (address / pageSize) = .readWrite := by
  have aligned := (reserves.within (serves.ledger reserves.regions) c alive).1
  obtain ⟨held, reached, perm⟩ := serves
  have accessible : PageManager.Protected os granted ⟨manager, held⟩ :=
    (protected_of_reachable reserves _ reached).2 all
  refine accessible c (perm.mem_iff.mpr alive) _ ((covers_pages _ _ _ aligned).mpr ?_)
  obtain ⟨first, start⟩ := aligned
  unfold Chunk.Owns Chunk.finish at owner
  unfold pageSize at *
  omega

end Serves

end PageManager

namespace Arena

open PageManager (Serves)

variable {reservations : Nat → Option Nat} {manager : PageManager} {arena : Arena}
  {others : List PageManager.Chunk}

theorem newChunk_serves (reserves : Reserves reservations) (serves : Serves reservations manager others)
    (size : Nat) (chunk : Chunk) (after : PageManager)
    (made : newChunk manager size = .ok (chunk, after)) :
    Serves reservations after (chunk.region :: others) := by
  obtain ⟨shape, granted⟩ := newChunk_spec size chunk after made
  have pages : chunk.pages = pagesOf size := congrArg Chunk.pages shape
  have same : chunk.region = ⟨chunk.data, pagesOf size⟩ := by
    rw [← pages]
    rfl
  rw [same]
  exact serves.request reserves requestRounds (pagesOf size) chunk.data after granted

theorem regions_append (chunk : Chunk) (offset : Nat) :
    (chunk.region :: (arena.regions ++ others)).Perm
      ((arena.chunks ++ [{ chunk with offset := offset }]).map Chunk.region ++ others) := by
  rw [List.map_append, List.append_assoc]
  exact List.perm_middle.symm

theorem Owner.alloc_serves (owner : Owner reservations manager arena others)
    (reserves : Reserves reservations) (serves : Serves reservations manager (arena.regions ++ others))
    (bytes alignment ptr : Nat) (after : Arena) (manager' : PageManager)
    (made : arena.alloc manager bytes alignment = .ok (ptr, after, manager')) :
    Serves reservations manager' (after.regions ++ others) := by
  obtain ⟨c, found, ⟨_, rfl, _, rfl⟩ | ⟨_, chunk, new, _, rfl⟩⟩ :=
    owner.alloc_branches bytes alignment ptr after manager' made
  · unfold regions
    rw [set_regions found]
    exact serves
  · exact (newChunk_serves reserves serves _ chunk manager' new).perm (regions_append chunk _)

end Arena

end ElySquare
