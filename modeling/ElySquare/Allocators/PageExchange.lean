import ElySquare.Shared.Trade
import ElySquare.Allocators.ArenaInvariant
import ElySquare.Allocators.BlockAllocator
import ElySquare.Allocators.PageLog
import ElySquare.Allocators.Tlab

set_option autoImplicit false

namespace ElySquare

open Trade (Reading)

namespace PageManager

-- requestPageChunk commits the pages it returns, and releasePageChunk decommits those it is given.
def OsCall.requested : OsCall → Option Chunk
  | .commit address bytes => some ⟨address, bytes / pageSize⟩
  | _ => none

def OsCall.released : OsCall → Option Chunk
  | .decommit address bytes => some ⟨address, bytes / pageSize⟩
  | _ => none

def trade : Reading OsCall Chunk := ⟨OsCall.requested, OsCall.released⟩

def requested (before after : PageManager) : List Chunk :=
  trade.askedSince before.osCalls after.osCalls

def released (before after : PageManager) : List Chunk :=
  trade.returnedSince before.osCalls after.osCalls

def Traded (before after : PageManager) (asked returned : List Chunk) : Prop :=
  trade.Traded before.osCalls after.osCalls asked returned

def Exchange (before after : PageManager) (owned owned' : List Chunk) : Prop :=
  trade.Exchange before.osCalls after.osCalls owned owned'

theorem Traded.eq {before after : PageManager} {asked returned : List Chunk}
    (traded : Traded before after asked returned) :
    requested before after = asked ∧ released before after = returned := Reading.Traded.eq traded

theorem Opened.calls {log log' : List OsCall} (opened : Opened log log') :
    ∃ calls, log' = calls ++ log ∧ calls.filterMap OsCall.requested = [] ∧
      calls.filterMap OsCall.released = [] := by
  induction opened with
  | none => exact ⟨[], rfl, rfl, rfl⟩
  | segment start _ ih =>
      obtain ⟨calls, rfl, asked, returned⟩ := ih
      exact ⟨.store start _ :: .reserve start _ :: calls, rfl, asked, returned⟩

theorem pages_eq (pages : Nat) : pages * pageSize / pageSize = pages :=
  Nat.mul_div_cancel _ (by decide)

theorem request_traded (manager : PageManager) (fuel pageCount ptr : Nat) (after : PageManager)
    (made : requestPageChunk fuel manager pageCount = .ok (some ptr, after)) :
    Traded manager after [⟨ptr, pageCount⟩] [] := by
  obtain ⟨earlier, opened, log⟩ := request_log manager fuel pageCount ptr after made
  obtain ⟨calls, rfl, asked, returned⟩ := opened.calls
  refine ⟨.commit ptr (pageCount * pageSize) :: calls, log, ?_, returned⟩
  simp [trade, OsCall.requested, pages_eq, asked]

theorem release_traded (manager : PageManager) (address pageCount : Nat) (after : PageManager)
    (made : releasePageChunk manager address pageCount = .ok after) :
    Traded manager after [] [⟨address, pageCount⟩] := by
  refine ⟨[.decommit address (pageCount * pageSize)], release_log _ _ _ _ made, rfl, ?_⟩
  simp [trade, OsCall.released, pages_eq]

theorem request_exchange {owned : List Chunk} (manager : PageManager) (fuel pageCount ptr : Nat)
    (after : PageManager) (made : requestPageChunk fuel manager pageCount = .ok (some ptr, after)) :
    Exchange manager after owned (⟨ptr, pageCount⟩ :: owned) :=
  Reading.Exchange.ask _ (request_traded manager fuel pageCount ptr after made)

theorem release_exchange {owned : List Chunk} (manager : PageManager) (c : Chunk) (after : PageManager)
    (made : releasePageChunk manager c.ptr c.pages = .ok after) :
    Exchange manager after (c :: owned) owned :=
  Reading.Exchange.giveBack c (release_traded manager c.ptr c.pages after made)

end PageManager

namespace Arena

open PageManager (Exchange)

variable {reservations : Nat → Option Nat} {manager : PageManager} {arena : Arena}
  {others owned : List PageManager.Chunk}

def regions (arena : Arena) : List PageManager.Chunk := arena.chunks.map Chunk.region

def destroy (arena : Arena) (manager : PageManager) : Result PageManager :=
  deleteChunks manager arena.chunks

theorem newChunk_exchange (size : Nat) (chunk : Chunk) (after : PageManager)
    (made : newChunk manager size = .ok (chunk, after)) :
    Exchange manager after owned (chunk.region :: owned) := by
  obtain ⟨shape, granted⟩ := newChunk_spec size chunk after made
  rw [show chunk.region = ⟨chunk.data, pagesOf size⟩ by rw [shape]; rfl]
  exact PageManager.request_exchange _ _ _ _ _ granted

theorem deleteChunks_traded (chunks : List Chunk) (mapped : ∀ c ∈ chunks, c.data ≠ 0)
    (after : PageManager) (made : deleteChunks manager chunks = .ok after) :
    PageManager.Traded manager after [] (chunks.map Chunk.region).reverse := by
  induction chunks generalizing manager with
  | nil =>
      cases made
      exact .none _
  | cons chunk rest ih =>
      unfold deleteChunks at made
      rw [if_neg (mapped chunk List.mem_cons_self)] at made
      obtain ⟨released, release, made⟩ := (Result.bind_ok _ _ _).mp made
      have traded := (PageManager.release_traded manager _ _ released release).trans
        (ih (fun c member => mapped c (List.mem_cons_of_mem _ member)) made)
      rw [List.map_cons, List.reverse_cons]
      exact traded

theorem deleteChunks_exchange (chunks : List Chunk) (mapped : ∀ c ∈ chunks, c.data ≠ 0)
    (after : PageManager) (made : deleteChunks manager chunks = .ok after) :
    Exchange manager after (chunks.map Chunk.region ++ owned) owned := by
  refine ⟨_, _, deleteChunks_traded chunks mapped after made, ?_⟩
  rw [List.nil_append]
  exact (List.reverse_perm _).symm.append_right owned

namespace Owner

theorem mapped (owner : Owner reservations manager arena others) (reserves : Reserves reservations)
    (c : Chunk) (member : c ∈ arena.chunks) : c.data ≠ 0 :=
  Nat.ne_of_gt (owner.within reserves c member).2.1

theorem construct (reserves : Reserves reservations)
    (ledger : PageManager.Ledger reservations manager others) (size : Nat) (after : PageManager)
    (made : Arena.construct manager size = .ok (arena, after)) :
    Owner reservations after arena others ∧ Exchange manager after [] arena.regions := by
  unfold Arena.construct at made
  obtain ⟨⟨chunk, grown⟩, new, rest⟩ := (Result.bind_ok _ _ _).mp made
  cases rest
  obtain ⟨_, _, ledger'⟩ := newChunk_ledger reserves.regions ledger size chunk after new
  exact ⟨⟨ledger', rfl⟩, newChunk_exchange size chunk after new⟩

theorem alloc_cases (owner : Owner reservations manager arena others) (bytes alignment ptr : Nat)
    (arena' : Arena) (after : PageManager)
    (made : arena.alloc manager bytes alignment = .ok (ptr, arena', after)) :
    (∃ c filled, arena.chunks[arena.current]? = some c ∧ after = manager ∧ arena' = { arena with
        chunks := arena.chunks.set arena.current { c with offset := filled } }) ∨
    (∃ size chunk filled, newChunk manager size = .ok (chunk, after) ∧ arena' = { arena with
        chunks := arena.chunks ++ [{ chunk with offset := filled }]
        current := arena.current + 1 }) := by
  obtain ⟨c, found, ⟨_, rfl, _, rfl⟩ | ⟨_, chunk, new, _, rfl⟩⟩ :=
    owner.alloc_branches bytes alignment ptr arena' after made
  · exact .inl ⟨c, _, found, rfl, rfl⟩
  · exact .inr ⟨_, chunk, _, new, rfl⟩

theorem alloc (owner : Owner reservations manager arena others) (reserves : Reserves reservations)
    (bytes alignment ptr : Nat) (arena' : Arena) (after : PageManager)
    (made : arena.alloc manager bytes alignment = .ok (ptr, arena', after)) :
    Owner reservations after arena' others ∧ Exchange manager after arena.regions arena'.regions := by
  obtain ⟨c, filled, found, rfl, rfl⟩ | ⟨size, chunk, filled, new, rfl⟩ :=
    owner.alloc_cases bytes alignment ptr arena' after made
  · refine ⟨owner.set c found filled, .perm _ ?_⟩
    unfold regions
    rw [set_regions found]
  · refine ⟨owner.grow reserves size chunk after new filled, ?_⟩
    refine (newChunk_exchange size chunk after new).trans (.perm _ ?_)
    unfold regions
    rw [List.map_append]
    exact (List.perm_append_singleton _ _).symm

theorem popToMarker (owner : Owner reservations manager arena others)
    (reserves : Reserves reservations) (marker : Marker) (arena' : Arena) (after : PageManager)
    (made : arena.popToMarker manager marker = .ok (arena', after)) :
    Owner reservations after arena' others ∧ Exchange manager after arena.regions arena'.regions := by
  unfold Arena.popToMarker at made
  cases chunk : marker.chunk with
  | none =>
      simp only [chunk] at made
      cases made
      exact ⟨owner, .perm _ (.refl _)⟩
  | some k =>
      simp only [chunk] at made
      cases found : arena.chunks[k]? with
      | none => simp [found] at made
      | some c =>
          simp only [found] at made
          obtain ⟨_, deleted, rest⟩ := (Result.bind_ok _ _ _).mp made
          cases rest
          refine ⟨owner.cut reserves k c found marker.offset after deleted, ?_⟩
          have mapped (d : Chunk) (later : d ∈ arena.chunks.drop (k + 1)) : d.data ≠ 0 :=
            owner.mapped reserves d (List.mem_of_mem_drop later)
          refine Reading.Exchange.trans (.perm _ ?_) (deleteChunks_exchange _ mapped after deleted)
          obtain ⟨inside, rfl⟩ := List.getElem?_eq_some_iff.mp found
          unfold regions
          conv_lhs => rw [← List.take_append_drop (k + 1) arena.chunks]
          rw [List.take_succ_eq_append_getElem inside]
          simp only [List.map_append, List.map_cons, List.map_nil]
          exact List.perm_append_comm

theorem destroy (owner : Owner reservations manager arena others) (reserves : Reserves reservations)
    (after : PageManager) (made : arena.destroy manager = .ok after) :
    PageManager.Ledger reservations after others ∧ Exchange manager after arena.regions [] := by
  refine ⟨deleteChunks_ledger reserves _ owner.ledger after made, ?_⟩
  have given : Exchange manager after (arena.regions ++ []) [] :=
    deleteChunks_exchange _ (owner.mapped reserves) after made
  rwa [List.append_nil] at given

theorem clear (owner : Owner reservations manager arena others) (reserves : Reserves reservations)
    (arena' : Arena) (after : PageManager) (made : arena.clear manager = .ok (arena', after)) :
    Owner reservations after arena' others ∧ Exchange manager after arena.regions arena'.regions := by
  unfold Arena.clear at made
  obtain ⟨emptied, deleted, made⟩ := (Result.bind_ok _ _ _).mp made
  obtain ⟨⟨chunk, grown⟩, new, rest⟩ := (Result.bind_ok _ _ _).mp made
  cases rest
  have ledger := deleteChunks_ledger reserves _ owner.ledger emptied deleted
  obtain ⟨_, _, ledger'⟩ := newChunk_ledger reserves.regions ledger _ chunk after new
  refine ⟨⟨ledger', rfl⟩, ?_⟩
  exact (owner.destroy reserves emptied deleted).2.trans (newChunk_exchange _ chunk after new)

end Owner

end Arena

end ElySquare
