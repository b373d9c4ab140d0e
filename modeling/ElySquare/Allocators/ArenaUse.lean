import ElySquare.Allocators.ArenaRun
import ElySquare.Allocators.PageExchange

set_option autoImplicit false

namespace ElySquare.Arena

open Transition
open Trade (Reading)

structure Use where
  arena : Arena
  manager : PageManager
  others : List PageManager.Chunk
  markers : List Position
  handed : List Range

inductive UseCall
  | allocof (size alignment count : Nat)
  | on (call : Call)
deriving DecidableEq, Repr

inductive Use.Step : Use → UseCall → Use → Prop
  | alloc (s : Use) (bytes k ptr : Nat) (arena : Arena) (manager : PageManager)
      (word : bytes < 2 ^ 64) (power : k < 64)
      (made : s.arena.alloc s.manager bytes (2 ^ k) = .ok (ptr, arena, manager)) :
      Step s (.on (.alloc bytes (2 ^ k)))
        ⟨arena, manager, s.others, s.markers, ⟨ptr, bytes⟩ :: s.handed⟩
  | allocof (s : Use) (size k count ptr : Nat) (arena : Arena) (manager : PageManager)
      (word : size < 2 ^ 64) (power : k < 64)
      (made : s.arena.allocof s.manager size (2 ^ k) count = .ok (ptr, arena, manager)) :
      Step s (.allocof size (2 ^ k) count)
        ⟨arena, manager, s.others, s.markers, ⟨ptr, count * size⟩ :: s.handed⟩
  | getMarker (s : Use) (p : Position) (taken : s.arena.getMarker = p.marker) :
      Step s (.on .getMarker) { s with markers := p :: s.markers }
  | popToMarker (s : Use) (p : Position) (arena : Arena) (manager : PageManager)
      (valid : p ∈ s.markers)
      (made : s.arena.popToMarker s.manager p.marker = .ok (arena, manager)) :
      Step s (.on (.popToMarker p.marker))
        ⟨arena, manager, s.others, s.markers.filter fun q => q.UpTo p, s.handed⟩
  | popToNull (s : Use) (offset : Nat) (arena : Arena) (manager : PageManager)
      (made : s.arena.popToMarker s.manager ⟨none, offset⟩ = .ok (arena, manager)) :
      Step s (.on (.popToMarker ⟨none, offset⟩)) { s with arena := arena, manager := manager }
  | clear (s : Use) (arena : Arena) (manager : PageManager)
      (made : s.arena.clear s.manager = .ok (arena, manager)) :
      Step s (.on .clear) ⟨arena, manager, s.others, [], s.handed⟩
  | request (s : Use) (fuel pageCount ptr : Nat) (manager : PageManager)
      (made : s.manager.requestPageChunk fuel pageCount = .ok (some ptr, manager)) :
      Step s (.on (.request pageCount))
        { s with manager := manager, others := ⟨ptr, pageCount⟩ :: s.others }
  | release (s : Use) (chunk : PageManager.Chunk) (manager : PageManager) (alive : chunk ∈ s.others)
      (made : s.manager.releasePageChunk chunk.ptr chunk.pages = .ok manager) :
      Step s (.on (.release chunk)) { s with manager := manager, others := s.others.erase chunk }

def uses (reservations : Nat → Option Nat) : System Use UseCall where
  start s := ∃ pages arena manager size, (PageManager.system reservations).Reachable pages ∧
    size < 2 ^ 64 ∧ construct pages.manager size = .ok (arena, manager) ∧
    s = ⟨arena, manager, pages.live, [], []⟩
  step := Use.Step

structure Sized (reservations : Nat → Option Nat) (manager : PageManager) (arena : Arena)
    (others : List PageManager.Chunk) : Prop extends Owner reservations manager arena others where
  capacity : ∀ c ∈ arena.chunks, c.capacity = c.pages * pageSize
  size : arena.defaultSize < 2 ^ 64

section Owners

variable {reservations : Nat → Option Nat}

theorem Sized.alloc {manager manager' : PageManager} {arena arena' : Arena}
    {others : List PageManager.Chunk} (sized : Sized reservations manager arena others)
    (reserves : Reserves reservations) (bytes alignment ptr : Nat)
    (made : arena.alloc manager bytes alignment = .ok (ptr, arena', manager')) :
    Sized reservations manager' arena' others := by
  have owner' := (sized.toOwner.alloc reserves bytes alignment ptr arena' manager' made).1
  obtain ⟨c, filled, found, rfl, rfl⟩ | ⟨size, chunk, filled, new, rfl⟩ :=
    sized.toOwner.alloc_cases bytes alignment ptr arena' manager' made
  · exact ⟨owner', set_all c filled _ sized.capacity (sized.capacity c (List.mem_of_getElem? found)),
      sized.size⟩
  · obtain ⟨capacity, _, _⟩ := newChunk_ledger reserves.regions sized.ledger size chunk manager' new
    exact ⟨owner', append_all _ _ sized.capacity capacity, sized.size⟩

theorem Sized.popToMarker {manager manager' : PageManager} {arena arena' : Arena}
    {others : List PageManager.Chunk} (sized : Sized reservations manager arena others)
    (reserves : Reserves reservations) (marker : Marker)
    (made : arena.popToMarker manager marker = .ok (arena', manager')) :
    Sized reservations manager' arena' others := by
  have owner' := (sized.toOwner.popToMarker reserves marker arena' manager' made).1
  unfold Arena.popToMarker at made
  cases chunk : marker.chunk with
  | none =>
      simp only [chunk] at made
      cases made
      exact sized
  | some k =>
      simp only [chunk] at made
      cases found : arena.chunks[k]? with
      | none => simp [found] at made
      | some c =>
          simp only [found] at made
          obtain ⟨_, _, rest⟩ := (Result.bind_ok _ _ _).mp made
          cases rest
          refine ⟨owner', fun d inside => ?_, sized.size⟩
          rcases List.mem_append.mp inside with before | here
          · exact sized.capacity d (List.mem_of_mem_take before)
          · rw [List.mem_singleton.mp here]
            exact sized.capacity c (List.mem_of_getElem? found)

theorem Sized.clear {manager manager' : PageManager} {arena arena' : Arena}
    {others : List PageManager.Chunk} (sized : Sized reservations manager arena others)
    (reserves : Reserves reservations) (made : arena.clear manager = .ok (arena', manager')) :
    Sized reservations manager' arena' others := by
  have owner' := (sized.toOwner.clear reserves arena' manager' made).1
  unfold Arena.clear at made
  obtain ⟨emptied, _, made⟩ := (Result.bind_ok _ _ _).mp made
  obtain ⟨⟨chunk, grown⟩, new, made⟩ := (Result.bind_ok _ _ _).mp made
  cases made
  obtain ⟨shape, _⟩ := newChunk_spec _ chunk manager' new
  refine ⟨owner', fun d member => ?_, sized.size⟩
  rw [List.mem_singleton.mp member, shape]

theorem Sized.step (reserves : Reserves reservations) {s t : Use} {call : UseCall}
    (sized : Sized reservations s.manager s.arena s.others) (taken : Use.Step s call t) :
    Sized reservations t.manager t.arena t.others := by
  cases taken with
  | alloc bytes k ptr arena manager _ _ made => exact sized.alloc reserves _ _ ptr made
  | allocof size k count ptr arena manager _ _ made => exact sized.alloc reserves _ _ ptr made
  | getMarker p taken => exact sized
  | popToMarker p arena manager valid made => exact sized.popToMarker reserves _ made
  | popToNull offset arena manager made => exact sized.popToMarker reserves _ made
  | clear arena manager made => exact sized.clear reserves made
  | request fuel pageCount ptr manager made =>
      exact ⟨sized.toOwner.request_other reserves fuel pageCount ptr manager made, sized.capacity,
        sized.size⟩
  | release chunk manager alive made =>
      exact ⟨sized.toOwner.release_other reserves chunk alive manager made, sized.capacity, sized.size⟩

theorem sized_of_reachable (reserves : Reserves reservations) (s : Use)
    (reached : (uses reservations).Reachable s) : Sized reservations s.manager s.arena s.others := by
  refine System.invariant _ (fun s => Sized reservations s.manager s.arena s.others) ?_
    (fun s call t sized taken => sized.step reserves taken) reached
  rintro s ⟨pages, arena, manager, size, pagesReached, bound, made, rfl⟩
  have ledger := PageManager.ledger_of_reachable reservations reserves.regions pages pagesReached
  obtain ⟨bounded, rfl, _⟩ := construct_bounded reserves size ledger manager made
  exact ⟨bounded.toOwner, bounded.capacity, bound⟩

end Owners

inductive Program
  | done
  | alloc (bytes alignment : Nat)
  | andThen (first second : Program)
  | marked (body : Program)
deriving DecidableEq, Repr

def Program.run : Program → Arena → PageManager → Result (Arena × PageManager)
  | .done, arena, manager => .ok (arena, manager)
  | .alloc bytes alignment, arena, manager => do
    let (_, arena, manager) ← arena.alloc manager bytes alignment
    .ok (arena, manager)
  | .andThen first second, arena, manager => do
    let (arena, manager) ← first.run arena manager
    second.run arena manager
  | .marked body, arena, manager => do
    let marker := arena.getMarker
    let (arena, manager) ← body.run arena manager
    arena.popToMarker manager marker

structure Extends (arena arena' : Arena) : Prop where
  chunks : ∃ before c offset added, arena.chunks = before ++ [c] ∧
    arena'.chunks = before ++ { c with offset := offset } :: added
  defaultSize : arena'.defaultSize = arena.defaultSize

theorem Extends.refl {reservations : Nat → Option Nat} {manager : PageManager} {arena : Arena}
    {others : List PageManager.Chunk} (owner : Owner reservations manager arena others) :
    Extends arena arena := by
  obtain ⟨before, c, split, _⟩ := owner.split
  exact ⟨⟨before, c, c.offset, [], split, split⟩, rfl⟩

theorem Extends.trans {arena arena' arena'' : Arena} (first : Extends arena arena')
    (second : Extends arena' arena'') : Extends arena arena'' := by
  obtain ⟨⟨before, c, offset, added, start, middle⟩, size⟩ := first
  obtain ⟨⟨before', c', offset', added', middle', finish⟩, size'⟩ := second
  refine ⟨⟨before, c, ?_⟩, size'.trans size⟩
  rw [middle] at middle'
  rcases List.eq_nil_or_concat added with rfl | ⟨init, last, rfl⟩
  · obtain ⟨rfl, same⟩ := List.append_inj' middle' rfl
    obtain rfl := List.cons.inj same |>.1
    exact ⟨offset', added', start, finish⟩
  · rw [List.concat_eq_append, ← List.cons_append, ← List.append_assoc] at middle'
    obtain ⟨rfl, _⟩ := List.append_inj' middle' rfl
    exact ⟨offset, _, start, by rw [finish, List.append_assoc, List.cons_append]⟩

theorem Extends.regions {arena arena' : Arena} (extends' : Extends arena arena')
    (c : PageManager.Chunk) (member : c ∈ arena.regions) : c ∈ arena'.regions := by
  obtain ⟨⟨before, d, offset, added, start, finish⟩, _⟩ := extends'
  unfold Arena.regions at *
  rw [start, List.map_append] at member
  rw [finish, List.map_append]
  refine List.mem_append.mpr ((List.mem_append.mp member).imp_right fun last => ?_)
  rw [List.mem_singleton.mp last]
  exact List.mem_cons_self

def Foreign (arena : Arena) (c : PageManager.Chunk) : Prop :=
  ∀ d ∈ arena.regions, PageManager.Chunk.Apart c d

theorem Extends.foreign {arena arena' : Arena} (extends' : Extends arena arena')
    (c : PageManager.Chunk) (foreign : arena'.Foreign c) : arena.Foreign c :=
  fun d member => foreign d (extends'.regions d member)

structure Ran (reservations : Nat → Option Nat) (others : List PageManager.Chunk) (arena : Arena)
    (manager : PageManager) (arena' : Arena) (manager' : PageManager) : Prop where
  owner : Owner reservations manager' arena' others
  extends' : Extends arena arena'
  exchange : PageManager.trade.ExchangeOf arena.Foreign manager.osCalls manager'.osCalls arena.regions
    arena'.regions

section Ran

variable {reservations : Nat → Option Nat} {others : List PageManager.Chunk}
  {arena arena' arena'' : Arena} {manager manager' manager'' : PageManager}

theorem Ran.refl (owner : Owner reservations manager arena others) :
    Ran reservations others arena manager arena manager :=
  ⟨owner, .refl owner, .perm _ (.refl _)⟩

theorem Ran.trans (first : Ran reservations others arena manager arena' manager')
    (second : Ran reservations others arena' manager' arena'' manager'') :
    Ran reservations others arena manager arena'' manager'' :=
  ⟨second.owner, first.extends'.trans second.extends',
    first.exchange.trans second.exchange first.extends'.foreign⟩

theorem Owner.alloc_ran (owner : Owner reservations manager arena others)
    (reserves : Reserves reservations) (bytes alignment ptr : Nat)
    (made : arena.alloc manager bytes alignment = .ok (ptr, arena', manager')) :
    Ran reservations others arena manager arena' manager' := by
  obtain ⟨owner', _⟩ := owner.alloc reserves bytes alignment ptr arena' manager' made
  obtain ⟨before, d, split, place⟩ := owner.split
  obtain ⟨c, filled, found, rfl, rfl⟩ | ⟨size, chunk, filled, new, rfl⟩ :=
    owner.alloc_cases bytes alignment ptr arena' manager' made
  · refine ⟨owner', ⟨⟨before, d, filled, [], split, ?_⟩, rfl⟩, .perm _ ?_⟩
    · rw [split, place, List.getElem?_append_right (Nat.le_refl _), Nat.sub_self] at found
      obtain rfl := Option.some.inj found
      dsimp only
      rw [split, place, List.set_append_right _ _ (Nat.le_refl _), Nat.sub_self]
      rfl
    · unfold regions
      rw [set_regions found]
  · obtain ⟨shape, granted⟩ := newChunk_spec size chunk manager' new
    have traded := PageManager.request_traded _ _ _ _ _ granted
    obtain ⟨_, _, ledger⟩ := newChunk_ledger reserves.regions owner.ledger size chunk manager' new
    have apart := (List.pairwise_cons.mp ledger.apart).1
    have region : (⟨chunk.data, pagesOf size⟩ : PageManager.Chunk) = chunk.region := by
      rw [shape]
      rfl
    refine ⟨owner', ⟨⟨before, d, d.offset, [{ chunk with offset := filled }], split, ?_⟩, rfl⟩, _, _,
      traded, ?_, ?_⟩
    · rw [split, List.append_assoc]
      rfl
    · rw [region]
      unfold regions
      rw [List.map_append]
      exact (List.perm_append_singleton _ _).symm
    · intro e member f inside
      rw [List.mem_singleton.mp member, region]
      exact apart f (List.mem_append_left _ inside)

theorem Ran.pop (ran : Ran reservations others arena manager arena' manager')
    (reserves : Reserves reservations) (owner : Owner reservations manager arena others) :
    ∃ manager'', arena'.popToMarker manager' arena.getMarker = .ok (arena, manager'') ∧
      Ran reservations others arena manager arena manager'' := by
  obtain ⟨owner', ⟨⟨before, c, offset, added, start, finish⟩, size⟩, exchange⟩ := ran
  have place : arena.current = before.length := by
    have last := owner.last
    rw [start, List.length_append] at last
    exact Nat.succ.inj last
  have here : arena'.chunks[before.length]? = some { c with offset := offset } := by
    rw [finish, List.getElem?_append_right (Nat.le_refl _), Nat.sub_self]
    rfl
  have marker : arena.getMarker = ⟨some before.length, c.offset⟩ := by
    unfold getMarker
    rw [place, start, List.getElem?_append_right (Nat.le_refl _), Nat.sub_self]
    rfl
  have later : arena'.chunks.drop (before.length + 1) = added := by
    rw [finish, List.drop_append]
    simp
  have earlier : arena'.chunks.take before.length = before := by
    rw [finish, List.take_left]
  have back : { arena' with
      chunks := arena'.chunks.take before.length ++
        [{ { c with offset := offset } with offset := c.offset }]
      current := before.length } = arena := by
    cases arena
    simp only at start place size
    rw [earlier, size, start, place]
  have regions : arena'.regions = arena.regions ++ added.map Chunk.region := by
    unfold Arena.regions
    rw [start, finish, List.map_append, List.map_append, List.append_assoc]
    rfl
  have ledger : PageManager.Ledger reservations manager'
      (added.map Chunk.region ++ (arena.regions ++ others)) := by
    refine owner'.ledger.perm _ ?_
    change (arena'.regions ++ others).Perm _
    rw [regions, List.append_assoc]
    exact List.perm_append_comm_assoc _ _ _
  obtain ⟨manager'', deleted⟩ := deleteChunks_returns reserves added ledger
  have popped : arena'.popToMarker manager' arena.getMarker = .ok (arena, manager'') := by
    rw [marker]
    unfold popToMarker
    simp only [here, later, deleted, Result.ok_bind, back]
  have mapped (d : Chunk) (member : d ∈ added) : d.data ≠ 0 :=
    owner'.mapped reserves d (by rw [finish]; simp [member])
  refine ⟨manager'', popped, (owner'.popToMarker reserves _ arena manager'' popped).1, .refl owner,
    exchange.trans ⟨_, _, deleteChunks_traded added mapped manager'' deleted, ?_,
      fun _ member => by cases member⟩ fun _ kept => kept⟩
  rw [regions, List.nil_append]
  exact List.perm_append_comm.trans ((List.reverse_perm _).symm.append_right _)

theorem Program.run_ran (reserves : Reserves reservations) (program : Program)
    (owner : Owner reservations manager arena others)
    (done : program.run arena manager = .ok (arena', manager')) :
    Ran reservations others arena manager arena' manager' := by
  induction program generalizing arena manager arena' manager' with
  | done =>
      cases done
      exact .refl owner
  | alloc bytes alignment =>
      obtain ⟨⟨ptr, result⟩, made, same⟩ := (Result.bind_ok _ _ _).mp done
      cases same
      exact owner.alloc_ran reserves bytes alignment ptr made
  | andThen first second first_ih second_ih =>
      obtain ⟨⟨middle, released⟩, ran, rest⟩ := (Result.bind_ok _ _ _).mp done
      have front := first_ih owner ran
      exact front.trans (second_ih front.owner rest)
  | marked body ih =>
      obtain ⟨⟨middle, released⟩, ran, rest⟩ := (Result.bind_ok _ _ _).mp done
      obtain ⟨manager'', popped, whole⟩ := (ih owner ran).pop reserves owner
      cases popped.symm.trans rest
      exact whole

theorem pop_inverse (reserves : Reserves reservations) (s : Use)
    (reached : (uses reservations).Reachable s) (body : Program) (arena : Arena) (manager : PageManager)
    (done : body.run s.arena s.manager = .ok (arena, manager)) :
    ∃ manager', arena.popToMarker manager s.arena.getMarker = .ok (s.arena, manager') ∧
      PageManager.Ledger reservations manager' (s.arena.regions ++ s.others) ∧
      (PageManager.released s.manager manager').Perm (PageManager.requested s.manager manager') ∧
      ∀ c ∈ PageManager.released s.manager manager', s.arena.Foreign c := by
  have owner := (sized_of_reachable reserves s reached).toOwner
  obtain ⟨manager', popped, whole⟩ := (body.run_ran reserves owner done).pop reserves owner
  exact ⟨manager', popped, whole.owner.ledger, whole.exchange.round_trip⟩

end Ran

theorem page_reached : ∃ data manager next manager',
    (uses PageManager.rowOfRegions).Reachable
      ⟨⟨[⟨data, pageSize, 0, 1⟩], 0, pageSize⟩, manager, [], [], []⟩ ∧
    newChunk manager pageSize = .ok (⟨next, pageSize, 0, 1⟩, manager') := by
  obtain ⟨fresh, data, manager, next, manager', first, new, new'⟩ := single_chunks pageSize (by decide)
  have built : construct fresh pageSize = .ok (⟨[⟨data, pageSize, 0, 1⟩], 0, pageSize⟩, manager) := by
    unfold construct
    rw [new]
    rfl
  exact ⟨data, manager, next, manager', .start ⟨⟨_, []⟩, _, _, pageSize, .start ⟨_, first, rfl⟩,
    by decide, built, rfl⟩, new'⟩

theorem pop_inverse_grown : ∃ (s : Use) (body : Program) (arena : Arena) (manager manager' : PageManager),
    (uses PageManager.rowOfRegions).Reachable s ∧ arena.chunks.length = s.arena.chunks.length + 1 ∧
    body.run s.arena s.manager = .ok (arena, manager) ∧
    arena.popToMarker manager s.arena.getMarker = .ok (s.arena, manager') := by
  obtain ⟨data, manager, next, after, reached, new⟩ := page_reached
  have start : alignForward 0 (2 ^ 4) = 0 := by decide
  have stays : alignForward pageSize (2 ^ 4) = pageSize := by decide
  have small := alloc_fits ⟨[⟨data, pageSize, 0, 1⟩], 0, pageSize⟩ manager 16 (2 ^ 4) _ rfl
    (by rw [start]; exact show (0 + 16) % 2 ^ 64 ≤ pageSize by decide)
  have whole := alloc_fits ⟨[⟨data, pageSize, 0, 1⟩], 0, pageSize⟩ manager pageSize (2 ^ 4) _ rfl
    (by rw [start]; exact show (0 + pageSize) % 2 ^ 64 ≤ pageSize by decide)
  have grown := alloc_full ⟨[⟨data, pageSize, pageSize, 1⟩], 0, pageSize⟩ manager pageSize (2 ^ 4) _ rfl
    (by rw [stays]; exact show pageSize < (pageSize + pageSize) % 2 ^ 64 by decide)
  have same : nextChunkSize ⟨[⟨data, pageSize, pageSize, 1⟩], 0, pageSize⟩ pageSize = pageSize := rfl
  rw [same, new] at grown
  have run : Program.run (.andThen (.marked (.alloc 16 (2 ^ 4)))
      (.andThen (.alloc pageSize (2 ^ 4)) (.alloc pageSize (2 ^ 4))))
      ⟨[⟨data, pageSize, 0, 1⟩], 0, pageSize⟩ manager =
      .ok (⟨[⟨data, pageSize, pageSize, 1⟩, ⟨next, pageSize, pageSize, 1⟩], 1, pageSize⟩, after) := by
    have popped : Program.run (.marked (.alloc 16 (2 ^ 4))) ⟨[⟨data, pageSize, 0, 1⟩], 0, pageSize⟩
        manager = .ok (⟨[⟨data, pageSize, 0, 1⟩], 0, pageSize⟩, manager) := by
      unfold Program.run Program.run
      rw [small]
      rfl
    have filled : Program.run (.alloc pageSize (2 ^ 4)) ⟨[⟨data, pageSize, 0, 1⟩], 0, pageSize⟩
        manager = .ok (⟨[⟨data, pageSize, pageSize, 1⟩], 0, pageSize⟩, manager) := by
      unfold Program.run
      rw [whole, start]
      rfl
    have added : Program.run (.alloc pageSize (2 ^ 4)) ⟨[⟨data, pageSize, pageSize, 1⟩], 0, pageSize⟩
        manager = .ok (⟨[⟨data, pageSize, pageSize, 1⟩, ⟨next, pageSize, pageSize, 1⟩], 1, pageSize⟩,
          after) := by
      unfold Program.run
      rw [grown]
      change Except.ok _ = _
      simp only [start]
      rfl
    exact (Result.bind_ok _ _ _).mpr ⟨_, popped, (Result.bind_ok _ _ _).mpr ⟨_, filled, added⟩⟩
  obtain ⟨manager', popped, _⟩ := pop_inverse rowOfRegions_reserves _ reached _ _ _ run
  exact ⟨_, _, _, _, manager', reached, rfl, run, popped⟩

end ElySquare.Arena
