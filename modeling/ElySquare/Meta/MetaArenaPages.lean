import ElySquare.Allocators.PageClients
import ElySquare.Meta.MetaArenaHeap

set_option autoImplicit false

namespace ElySquare

namespace MetaArena

open PageManager (Serves)
open Transition

def destroy {Memory : Type} (w : World Memory) : Result PageManager :=
  w.metaArena.arena.destroy w.manager

structure Client {Memory : Type} (reservations : Nat → Option Nat) (others : List PageManager.Chunk)
    (w : World Memory) : Prop where
  last : w.metaArena.arena.current + 1 = w.metaArena.arena.chunks.length
  serves : Serves reservations w.manager (w.metaArena.arena.regions ++ others)

namespace Client

variable {Memory : Type} {reservations : Nat → Option Nat} {others : List PageManager.Chunk}
  {w : World Memory}

theorem owner (client : Client reservations others w) (reserves : Reserves reservations) :
    Arena.Owner reservations w.manager w.metaArena.arena others :=
  ⟨client.serves.ledger reserves.regions, client.last⟩

theorem framed (client : Client reservations others w) (after : World Memory)
    (manager : after.manager = w.manager) (arena : after.metaArena.arena = w.metaArena.arena) :
    Client reservations others after := by
  refine ⟨?_, ?_⟩
  · rw [arena]
    exact client.last
  · rw [manager, arena]
    exact client.serves

theorem metalloc [LinkStore Memory] (client : Client reservations others w)
    (reserves : Reserves reservations) (size alignment ptr : Nat) (after : World Memory)
    (made : MetaArena.metalloc w size alignment = .ok (ptr, after)) :
    Client reservations others after := by
  rcases metalloc_cases w size alignment with ⟨node, _, _, taken⟩ | bumped
  · rw [taken] at made
    obtain ⟨_, _, rest⟩ := (Result.bind_ok _ _ _).mp made
    cases rest
    exact client.framed _ rfl rfl
  · rw [bumped] at made
    obtain ⟨⟨node, arena, manager⟩, given, rest⟩ := (Result.bind_ok _ _ _).mp made
    cases rest
    have owner := client.owner reserves
    exact ⟨(owner.alloc reserves _ _ _ _ _ given).1.last,
      owner.alloc_serves reserves client.serves _ _ _ _ _ given⟩

theorem metarecycle [LinkStore Memory] (client : Client reservations others w) (ptr size : Nat) :
    Client reservations others (MetaArena.metarecycle w ptr size) := by
  by_cases zero : ptr = 0
  · refine client.framed _ ?_ ?_ <;> (unfold MetaArena.metarecycle; rw [if_pos zero])
  · rcases metarecycle_cases w ptr size zero with ⟨_, same⟩ | ⟨_, pushed⟩
    · rw [same]
      exact client.framed _ rfl rfl
    · rw [pushed]
      exact client.framed _ rfl rfl

theorem construct [LinkStore Memory] {manager : PageManager} (reserves : Reserves reservations)
    (serves : Serves reservations manager others) (size : Nat) (memory : Memory) (after : World Memory)
    (made : MetaArena.construct manager size memory = .ok after) : Client reservations others after := by
  obtain ⟨⟨arena, grown⟩, new, rest⟩ := (Result.bind_ok _ _ _).mp made
  cases rest
  obtain ⟨⟨chunk, grown'⟩, new', rest⟩ := (Result.bind_ok _ _ _).mp new
  cases rest
  exact ⟨rfl, Arena.newChunk_serves reserves serves size chunk grown new'⟩

theorem writable (client : Client reservations others w) (reserves : Reserves reservations) (os : Os)
    (granted : Nat → Bool) (all : PageManager.Granted granted w.manager.osCalls) (c : Arena.Chunk)
    (member : c ∈ w.metaArena.arena.chunks) (x : Nat) (above : c.data ≤ x)
    (below : x < c.data + c.pages * pageSize) :
    (os.after granted w.manager.osCalls).protection (x / pageSize) = .readWrite :=
  client.serves.writable reserves os granted all c.region
    (List.mem_append_left _ (List.mem_map_of_mem member)) x ⟨above, below⟩

theorem destroys (client : Client reservations others w) (reserves : Reserves reservations) :
    ∃ after, MetaArena.destroy w = .ok after ∧ PageManager.Ledger reservations after others := by
  have owner := client.owner reserves
  obtain ⟨after, made⟩ := Arena.deleteChunks_returns reserves _ owner.ledger
  exact ⟨after, made, (owner.destroy reserves after made).1⟩

end Client

theorem Sound.chunk_of {Memory : Type} [LinkStore Memory] {reservations : Nat → Option Nat}
    {w : World Memory} {others : List PageManager.Chunk} {live : List Block} {bins : Nat → List Nat}
    (sound : Sound reservations w others live bins) (b : Block) (alive : b ∈ live) :
    ∃ c ∈ w.metaArena.arena.chunks, c.data ≤ b.ptr ∧
      b.ptr + alignSize b.size ≤ c.data + c.pages * pageSize := by
  obtain ⟨c, member, above, below⟩ := sound.inside b.range (.inl ⟨b, alive, rfl⟩)
  refine ⟨c, member, above, below.trans ?_⟩
  rw [← sound.arena.capacity c member]
  exact Nat.add_le_add_left (sound.arena.fits c member) _

section Reachable

variable {reservations : Nat → Option Nat} {size : Nat}

theorem client_of_reachable (reserves : Reserves reservations) (rounds : size + pageSize - 1 < 2 ^ 64)
    (s : Run) (reached : (system reservations size).Reachable s) :
    Held reservations s ∧ Client reservations s.others s.world := by
  refine System.invariant _ (fun s => Held reservations s ∧ Client reservations s.others s.world) ?_ ?_
    reached
  · intro s started
    refine ⟨held_start reserves rounds s started, ?_⟩
    obtain ⟨pages, memory, world, reached, made, rfl⟩ := started
    exact Client.construct reserves ⟨_, reached, .refl _⟩ size memory world made
  · rintro s call t ⟨held, client⟩ taken
    refine ⟨held_step reserves s t call held taken, ?_⟩
    cases taken with
    | metalloc size k ptr world small fine made =>
        exact client.metalloc reserves size (2 ^ k) ptr world made
    | metarecycle b size alive same => exact client.metarecycle b.ptr size
    | write memory frame => exact client.framed _ rfl rfl
    | request fuel pageCount ptr manager made =>
        exact ⟨client.last, (client.serves.request reserves _ _ _ _ made).perm List.perm_middle.symm⟩
    | release chunk manager alive made =>
        have inside : chunk ∈ s.world.metaArena.arena.regions ++ s.others :=
          List.mem_append_right _ alive
        refine ⟨client.last, (client.serves.release chunk inside manager made).perm ?_⟩
        have moved : (s.world.metaArena.arena.regions ++ s.others).Perm
            (chunk :: (s.world.metaArena.arena.regions ++ s.others.erase chunk)) :=
          ((List.perm_cons_erase alive).append_left _).trans List.perm_middle
        exact ((List.perm_cons_erase inside).symm.trans moved).cons_inv

theorem blocks_committed (reserves : Reserves reservations) (rounds : size + pageSize - 1 < 2 ^ 64)
    (os : Os) (granted : Nat → Bool) (s : Run) (reached : (system reservations size).Reachable s) :
    (PageManager.Granted granted s.world.manager.osCalls → ∀ x, LiveByte s.live x →
      (os.after granted s.world.manager.osCalls).protection (x / pageSize) = .readWrite) ∧
    ∃ after, destroy s.world = .ok after ∧ ∀ segment ∈ after.segments, ∀ idx, idx < cagePagesCount →
      (PageManager.pageBit segment.bitmap idx = true ↔
        ∃ c ∈ s.others, c.Owns (segment.baseAddress + idx * pageSize)) := by
  obtain ⟨⟨bins, sound, _⟩, client⟩ := client_of_reachable reserves rounds s reached
  refine ⟨fun all x => ?_, ?_⟩
  · rintro ⟨b, alive, above, below⟩
    obtain ⟨c, member, first, last⟩ := sound.chunk_of b alive
    exact client.writable reserves os granted all c member x (by omega) (by omega)
  · obtain ⟨after, made, ledger⟩ := client.destroys reserves
    exact ⟨after, made, ledger.bits⟩

end Reachable

theorem blocks_committed_page : ∃ s, (system PageManager.rowOfRegions pageSize).Reachable s ∧
    LiveByte s.live memoryChunkSize ∧
    (Os.after ⟨fun _ => .noAccess⟩ (fun _ => true) s.world.manager.osCalls).protection
      (memoryChunkSize / pageSize) = .readWrite := by
  obtain ⟨s, back, _, world, again, _⟩ := onePage_recycled
  have reached := back.step (.metalloc _ 16 4 _ _ (by decide) (by decide) again)
  have alive : LiveByte (⟨memoryChunkSize, 16⟩ :: s.live) memoryChunkSize :=
    ⟨_, List.mem_cons_self, Nat.le_refl _, by decide⟩
  exact ⟨_, reached, alive, (blocks_committed rowOfRegions_reserves (by decide) _ _ _ reached).1
    (fun _ _ _ _ => rfl) _ alive⟩

end MetaArena

end ElySquare
