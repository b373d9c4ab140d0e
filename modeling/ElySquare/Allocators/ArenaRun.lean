import ElySquare.Shared.Run
import ElySquare.Allocators.ArenaInvariant

set_option autoImplicit false

namespace ElySquare.Arena

open Transition

structure Position where
  chunk : Nat
  offset : Nat
deriving DecidableEq, Repr

namespace Position

def marker (p : Position) : Marker := ⟨some p.chunk, p.offset⟩

def UpTo (p q : Position) : Prop := p.chunk < q.chunk ∨ p.chunk = q.chunk ∧ p.offset ≤ q.offset

instance (p q : Position) : Decidable (UpTo p q) := inferInstanceAs (Decidable (_ ∨ _))

end Position

def position (arena : Arena) : Position :=
  ⟨arena.current, (arena.chunks[arena.current]?).elim 0 Chunk.offset⟩

structure Handed where
  range : Range
  alignment : Nat
  position : Position
deriving DecidableEq, Repr

/-- An arena in a program: `others` are the page chunks that other parts of the program hold, `live` the
ranges handed out and neither popped nor cleared, `markers` the markers taken since the last clear that no
pop has gone past. -/
structure Run where
  arena : Arena
  manager : PageManager
  others : List PageManager.Chunk
  live : List Handed
  markers : List Position

inductive Call
  | alloc (bytes alignment : Nat)
  | getMarker
  | popToMarker (marker : Marker)
  | clear
  | request (pageCount : Nat)
  | release (chunk : PageManager.Chunk)
deriving DecidableEq, Repr

inductive Run.Step : Run → Call → Run → Prop
  | alloc (s : Run) (bytes k ptr : Nat) (arena : Arena) (manager : PageManager)
      (small : bytes < 2 ^ 63) (fine : k ≤ 12)
      (made : s.arena.alloc s.manager bytes (2 ^ k) = .ok (ptr, arena, manager)) :
      Step s (.alloc bytes (2 ^ k))
        ⟨arena, manager, s.others, ⟨⟨ptr, bytes⟩, 2 ^ k, arena.position⟩ :: s.live, s.markers⟩
  | getMarker (s : Run) (p : Position) (taken : s.arena.getMarker = p.marker) :
      Step s .getMarker { s with markers := p :: s.markers }
  | popToMarker (s : Run) (p : Position) (arena : Arena) (manager : PageManager)
      (valid : p ∈ s.markers)
      (made : s.arena.popToMarker s.manager p.marker = .ok (arena, manager)) :
      Step s (.popToMarker p.marker)
        ⟨arena, manager, s.others, s.live.filter fun h => h.position.UpTo p,
          s.markers.filter fun q => q.UpTo p⟩
  -- a marker that was never set
  | popToNull (s : Run) (offset : Nat) (arena : Arena) (manager : PageManager)
      (made : s.arena.popToMarker s.manager ⟨none, offset⟩ = .ok (arena, manager)) :
      Step s (.popToMarker ⟨none, offset⟩) { s with arena := arena, manager := manager }
  | clear (s : Run) (arena : Arena) (manager : PageManager)
      (made : s.arena.clear s.manager = .ok (arena, manager)) :
      Step s .clear ⟨arena, manager, s.others, [], []⟩
  | request (s : Run) (fuel pageCount ptr : Nat) (manager : PageManager)
      (made : s.manager.requestPageChunk fuel pageCount = .ok (some ptr, manager)) :
      Step s (.request pageCount)
        { s with manager := manager, others := ⟨ptr, pageCount⟩ :: s.others }
  | release (s : Run) (chunk : PageManager.Chunk) (manager : PageManager) (alive : chunk ∈ s.others)
      (made : s.manager.releasePageChunk chunk.ptr chunk.pages = .ok manager) :
      Step s (.release chunk) { s with manager := manager, others := s.others.erase chunk }

def system (reservations : Nat → Option Nat) (size : Nat) : System Run Call where
  start s := ∃ pages arena manager, (PageManager.system reservations).Reachable pages ∧
    construct pages.manager size = .ok (arena, manager) ∧ s = ⟨arena, manager, pages.live, [], []⟩
  step := Run.Step

structure Separated (s : Run) : Prop where
  last : s.arena.current + 1 = s.arena.chunks.length
  fits : ∀ c ∈ s.arena.chunks, c.offset ≤ c.capacity
  inside : ∀ h ∈ s.live, h.alignment ∣ h.range.start ∧
    ∃ c, s.arena.chunks[h.position.chunk]? = some c ∧ c.data ≤ h.range.start ∧
      h.range.finish ≤ c.data + c.capacity
  apart : s.live.Pairwise fun h g => Range.Apart h.range g.range

def Handed.Below (h : Handed) (arena : Arena) : Prop :=
  h.alignment ∣ h.range.start ∧ ∃ c, arena.chunks[h.position.chunk]? = some c ∧
    c.data ≤ h.range.start ∧ h.range.finish ≤ c.data + h.position.offset ∧
    h.position.offset ≤ c.offset

def Position.Reached (p : Position) (arena : Arena) : Prop :=
  ∃ c, arena.chunks[p.chunk]? = some c ∧ p.offset ≤ c.offset

structure Held (reservations : Nat → Option Nat) (s : Run) : Prop where
  bounded : Bounded reservations s.manager s.arena s.others
  rounds : s.arena.defaultSize + pageSize - 1 < 2 ^ 64
  below : ∀ h ∈ s.live, h.Below s.arena
  apart : s.live.Pairwise fun h g => Range.Apart h.range g.range
  reached : ∀ p ∈ s.markers, p.Reached s.arena

section Updates

variable {arena : Arena}

theorem Handed.Below.inside {h : Handed} (below : h.Below arena) : arena.Inside h.range := by
  obtain ⟨_, c, found, first, last, reach⟩ := below
  exact ⟨c, List.mem_of_getElem? found, first,
    Nat.le_trans last (Nat.add_le_add_left reach _)⟩

theorem Handed.Below.move {h : Handed} {after : Arena} (below : h.Below arena)
    (kept : ∀ c, arena.chunks[h.position.chunk]? = some c → ∃ d,
      after.chunks[h.position.chunk]? = some d ∧ d.data = c.data ∧
        (h.position.offset ≤ c.offset → h.position.offset ≤ d.offset)) : h.Below after := by
  obtain ⟨aligned, c, found, first, last, reach⟩ := below
  obtain ⟨d, found', same, more⟩ := kept c found
  exact ⟨aligned, d, found', same ▸ first, same ▸ last, more reach⟩

theorem Position.Reached.move {p : Position} {after : Arena} (reached : p.Reached arena)
    (kept : ∀ c, arena.chunks[p.chunk]? = some c → ∃ d,
      after.chunks[p.chunk]? = some d ∧ d.data = c.data ∧
        (p.offset ≤ c.offset → p.offset ≤ d.offset)) : p.Reached after := by
  obtain ⟨c, found, reach⟩ := reached
  obtain ⟨d, found', _, more⟩ := kept c found
  exact ⟨d, found', more reach⟩

theorem set_kept (c : Chunk) (current : arena.chunks[arena.current]? = some c) (offset : Nat)
    (more : c.offset ≤ offset) (p : Position) (d : Chunk) (found : arena.chunks[p.chunk]? = some d) :
    ∃ e, (arena.chunks.set arena.current { c with offset := offset })[p.chunk]? = some e ∧
      e.data = d.data ∧ (p.offset ≤ d.offset → p.offset ≤ e.offset) := by
  by_cases same : arena.current = p.chunk
  · rw [← same] at found ⊢
    obtain rfl : c = d := Option.some.inj (current.symm.trans found)
    have present := (List.getElem?_eq_some_iff.mp found).1
    exact ⟨_, List.getElem?_set_self present, rfl, fun reach => Nat.le_trans reach more⟩
  · exact ⟨d, (List.getElem?_set_ne same).trans found, rfl, id⟩

theorem append_kept (c : Chunk) (p : Position) (d : Chunk)
    (found : arena.chunks[p.chunk]? = some d) :
    ∃ e, (arena.chunks ++ [c])[p.chunk]? = some e ∧ e.data = d.data ∧
      (p.offset ≤ d.offset → p.offset ≤ e.offset) := by
  have present := (List.getElem?_eq_some_iff.mp found).1
  exact ⟨d, (List.getElem?_append_left present).trans found, rfl, id⟩

theorem cut_kept (q : Position) (c : Chunk) (marked : arena.chunks[q.chunk]? = some c) (p : Position)
    (before : p.UpTo q) (d : Chunk) (found : arena.chunks[p.chunk]? = some d) :
    ∃ e, (arena.chunks.take q.chunk ++ [{ c with offset := q.offset }])[p.chunk]? = some e ∧
      e.data = d.data ∧ (p.offset ≤ d.offset → p.offset ≤ e.offset) := by
  have present := (List.getElem?_eq_some_iff.mp marked).1
  have length : (arena.chunks.take q.chunk).length = q.chunk := by
    rw [List.length_take, Nat.min_eq_left (Nat.le_of_lt present)]
  rcases before with earlier | ⟨same, less⟩
  · refine ⟨d, ?_, rfl, id⟩
    rw [List.getElem?_append_left (by omega), List.getElem?_take_of_lt earlier, found]
  · rw [same] at found ⊢
    obtain rfl : c = d := Option.some.inj (marked.symm.trans found)
    refine ⟨{ c with offset := q.offset }, ?_, rfl, fun _ => less⟩
    rw [List.getElem?_append_right (by omega), length, Nat.sub_self]
    rfl

end Updates

section Steps

variable {reservations : Nat → Option Nat} {s : Run}

theorem Held.live_inside (held : Held reservations s) (h : Handed) (alive : h ∈ s.live) :
    s.arena.Inside h.range := (held.below h alive).inside

theorem Held.bump (held : Held reservations s) (reserves : Reserves reservations) (k : Nat)
    (fine : k ≤ 12) (bytes : Nat) (c : Chunk) (found : s.arena.chunks[s.arena.current]? = some c)
    (offset : Nat) (above : c.offset ≤ offset) (multiple : 2 ^ k ∣ offset)
    (room : offset + bytes ≤ c.capacity) (after : Arena) (bumped : after = { s.arena with
      chunks := s.arena.chunks.set s.arena.current { c with offset := offset + bytes } }) :
    Held reservations ⟨after, s.manager, s.others,
      ⟨⟨c.data + offset, bytes⟩, 2 ^ k, after.position⟩ :: s.live, s.markers⟩ := by
  subst bumped
  have member := List.mem_of_getElem? found
  have page := (held.bounded.placed reserves c member).1
  have present := (List.getElem?_eq_some_iff.mp found).1
  have here : (s.arena.chunks.set s.arena.current { c with offset := offset + bytes })[
      s.arena.current]? = some { c with offset := offset + bytes } := List.getElem?_set_self present
  have more : c.offset ≤ offset + bytes := Nat.le_trans above (Nat.le_add_right _ _)
  refine ⟨held.bounded.set c found _ room, held.rounds, ?_, ?_, fun p marked =>
    (held.reached p marked).move fun d at' => set_kept c found _ more p d at'⟩
  · intro h alive
    rcases List.mem_cons.mp alive with rfl | old
    · refine ⟨Nat.dvd_add (Nat.dvd_trans (Nat.pow_dvd_pow 2 fine) page) multiple, _, here,
        Nat.le_add_right _ _, ?_, ?_⟩
      · simp only [Range.finish, position, here, Option.elim_some]
        omega
      · simp only [position, here, Option.elim_some]
        exact Nat.le_refl _
    · exact (held.below h old).move fun d at' => set_kept c found _ more h.position d at'
  · have fresh := held.bounded.bump_fresh reserves c found offset bytes above room
    exact List.pairwise_cons.mpr
      ⟨fun h alive => (fresh.grown h.range (held.live_inside h alive)).2.symm, held.apart⟩

theorem Held.grow (held : Held reservations s) (reserves : Reserves reservations) (k : Nat)
    (fine : k ≤ 12) (bytes size : Nat) (chunk : Chunk) (manager : PageManager)
    (new : newChunk s.manager size = .ok (chunk, manager))
    (room : bytes ≤ chunk.capacity) (after : Arena) (grown : after = { s.arena with
      chunks := s.arena.chunks ++ [{ chunk with offset := bytes }]
      current := s.arena.current + 1 }) :
    Held reservations ⟨after, manager, s.others,
      ⟨⟨chunk.data, bytes⟩, 2 ^ k, after.position⟩ :: s.live, s.markers⟩ := by
  subst grown
  have bounded := held.bounded.grow reserves size chunk manager new bytes room
  obtain ⟨page, fresh⟩ := held.bounded.grow_fresh reserves size chunk manager new bytes room
  have here : (s.arena.chunks ++ [{ chunk with offset := bytes }])[s.arena.current + 1]? =
      some { chunk with offset := bytes } := by
    rw [held.bounded.last]
    simp
  refine ⟨bounded, held.rounds, ?_, ?_, fun p marked =>
    (held.reached p marked).move fun d at' => append_kept _ p d at'⟩
  · intro h alive
    rcases List.mem_cons.mp alive with rfl | old
    · refine ⟨Nat.dvd_trans (Nat.pow_dvd_pow 2 fine) page, _, here, Nat.le_refl _, ?_, ?_⟩
      · simp only [Range.finish, position, here, Option.elim_some]
        exact Nat.le_refl _
      · simp only [position, here, Option.elim_some]
        exact Nat.le_refl _
    · exact (held.below h old).move fun d at' => append_kept _ h.position d at'
  · exact List.pairwise_cons.mpr
      ⟨fun h alive => (fresh.grown h.range (held.live_inside h alive)).2.symm, held.apart⟩

theorem popToMarker_cases (arena : Arena) (manager : PageManager) (p : Position) (c : Chunk)
    (found : arena.chunks[p.chunk]? = some c) (after : Arena) (manager' : PageManager)
    (made : arena.popToMarker manager p.marker = .ok (after, manager')) :
    deleteChunks manager (arena.chunks.drop (p.chunk + 1)) = .ok manager' ∧ after = { arena with
      chunks := arena.chunks.take p.chunk ++ [{ c with offset := p.offset }]
      current := p.chunk } := by
  simp only [popToMarker, Position.marker, found] at made
  obtain ⟨rest, deleted, made⟩ := (Result.bind_ok _ _ _).mp made
  simp only [Except.ok.injEq, Prod.mk.injEq] at made
  obtain ⟨rfl, rfl⟩ := made
  exact ⟨deleted, rfl⟩

theorem Held.pop (held : Held reservations s) (reserves : Reserves reservations) (p : Position)
    (valid : p ∈ s.markers) (after : Arena) (manager : PageManager)
    (made : s.arena.popToMarker s.manager p.marker = .ok (after, manager)) :
    Held reservations ⟨after, manager, s.others, s.live.filter fun h => h.position.UpTo p,
      s.markers.filter fun q => q.UpTo p⟩ := by
  obtain ⟨c, found, less⟩ := held.reached p valid
  obtain ⟨deleted, rfl⟩ := popToMarker_cases _ _ p c found after manager made
  refine ⟨held.bounded.cut reserves p.chunk c found p.offset less manager deleted, held.rounds,
    fun h alive => ?_, held.apart.filter _, fun q marked => ?_⟩
  · obtain ⟨old, before⟩ := List.mem_filter.mp alive
    exact (held.below h old).move fun d at' =>
      cut_kept p c found h.position (of_decide_eq_true before) d at'
  · obtain ⟨old, before⟩ := List.mem_filter.mp marked
    exact (held.reached q old).move fun d at' =>
      cut_kept p c found q (of_decide_eq_true before) d at'

theorem Held.mark (held : Held reservations s) (p : Position)
    (taken : s.arena.getMarker = p.marker) :
    Held reservations { s with markers := p :: s.markers } := by
  refine ⟨held.bounded, held.rounds, held.below, held.apart, fun q marked => ?_⟩
  rcases List.mem_cons.mp marked with rfl | old
  · have present : s.arena.current < s.arena.chunks.length := by
      rw [← held.bounded.last]
      exact Nat.lt_succ_self _
    simp only [getMarker, Position.marker, List.getElem?_eq_getElem present, Option.elim_some,
      Marker.mk.injEq, Option.some.injEq] at taken
    obtain ⟨chunk, offset⟩ := taken
    refine ⟨s.arena.chunks[s.arena.current], ?_, Nat.le_of_eq offset.symm⟩
    rw [← chunk]
    exact List.getElem?_eq_getElem present
  · exact held.reached q old

theorem Held.clear (held : Held reservations s) (reserves : Reserves reservations) (after : Arena)
    (manager : PageManager) (made : s.arena.clear s.manager = .ok (after, manager)) :
    Held reservations ⟨after, manager, s.others, [], []⟩ := by
  unfold Arena.clear at made
  obtain ⟨rest, deleted, made⟩ := (Result.bind_ok _ _ _).mp made
  obtain ⟨⟨chunk, grown⟩, new, made⟩ := (Result.bind_ok _ _ _).mp made
  simp only [Except.ok.injEq, Prod.mk.injEq] at made
  obtain ⟨rfl, rfl⟩ := made
  have ledger := deleteChunks_ledger reserves _ held.bounded.ledger rest deleted
  refine ⟨renew_bounded reserves _ _ ledger chunk grown new, held.rounds, ?_, List.Pairwise.nil, ?_⟩
  · simp
  · simp

theorem held_step (reserves : Reserves reservations) (t : Run) (call : Call)
    (held : Held reservations s) (taken : Run.Step s call t) : Held reservations t := by
  cases taken with
  | alloc bytes k ptr arena manager small fine made =>
      obtain ⟨c, offset, found, above, multiple, _, room, rfl, rfl, bumped⟩ |
        ⟨size, chunk, new, _, room, rfl, grown⟩ :=
        held.bounded.alloc_cases reserves held.rounds bytes k (Nat.le_of_lt small) fine ptr arena
          manager made
      · exact held.bump reserves k fine bytes c found offset above multiple room arena bumped
      · exact held.grow reserves k fine bytes size chunk manager new room arena grown
  | getMarker p taken => exact held.mark p taken
  | popToMarker p arena manager valid made => exact held.pop reserves p valid arena manager made
  | popToNull offset arena manager made =>
      cases made
      exact held
  | clear arena manager made => exact held.clear reserves arena manager made
  | request fuel pageCount ptr manager made =>
      have owner := held.bounded.request_other reserves fuel pageCount ptr manager made
      exact ⟨⟨owner, held.bounded.capacity, held.bounded.fits⟩, held.rounds, held.below, held.apart,
        held.reached⟩
  | release chunk manager alive made =>
      have owner := held.bounded.release_other reserves chunk alive manager made
      exact ⟨⟨owner, held.bounded.capacity, held.bounded.fits⟩, held.rounds, held.below, held.apart,
        held.reached⟩

theorem held_of_reachable (reserves : Reserves reservations) (size : Nat)
    (rounds : size + pageSize - 1 < 2 ^ 64) (s : Run)
    (reached : (system reservations size).Reachable s) : Held reservations s := by
  refine System.invariant _ (Held reservations) ?_
    (fun s call t held taken => held_step reserves t call held taken) reached
  rintro s ⟨pages, arena, manager, pagesReached, made, rfl⟩
  have ledger := PageManager.ledger_of_reachable reservations reserves.regions pages pagesReached
  obtain ⟨bounded, rfl, _⟩ := construct_bounded reserves size ledger manager made
  exact ⟨bounded, rounds, by simp, List.Pairwise.nil, by simp⟩

theorem Held.separated (held : Held reservations s) : Separated s := by
  refine ⟨held.bounded.last, held.bounded.fits, fun h alive => ?_, held.apart⟩
  obtain ⟨aligned, c, found, first, last, reach⟩ := held.below h alive
  have fits := held.bounded.fits c (List.mem_of_getElem? found)
  exact ⟨aligned, c, found, first, by omega⟩

end Steps

section Wrapped

variable {reservations : Nat → Option Nat} {manager : PageManager} {live : List PageManager.Chunk}

theorem newChunk_wrapped (regions : PageManager.Regions reservations)
    (ledger : PageManager.Ledger reservations manager live) (size : Nat) (single : pagesOf size = 1)
    (answered : reservations manager.segments.length ≠ none) :
    ∃ data after, newChunk manager size = .ok (⟨data, pageSize, 0, 1⟩, after) ∧
      PageManager.Ledger reservations after (⟨data, 1⟩ :: live) ∧
      after.segments.length ≤ manager.segments.length + 2 := by
  obtain ⟨data, after, granted⟩ := ledger.request_returns regions 0 1 (by decide) (by decide) answered
  obtain ⟨ledger', _, few⟩ := ledger.request_ledger regions 2 1 data after granted
  refine ⟨data, after, ?_, ledger', few⟩
  unfold newChunk requestRounds
  rw [single]
  dsimp only
  rw [granted]
  rfl

theorem single_chunks (size : Nat) (single : pagesOf size = 1) :
    ∃ fresh data manager next manager',
      PageManager.construct PageManager.rowOfRegions = .ok fresh ∧
      newChunk fresh size = .ok (⟨data, pageSize, 0, 1⟩, manager) ∧
      newChunk manager size = .ok (⟨next, pageSize, 0, 1⟩, manager') := by
  obtain ⟨fresh, first, one⟩ := PageManager.rowOfRegions_construct
  have ledger := PageManager.Ledger.construct_ledger PageManager.rowOfRegions_regions _ first
  obtain ⟨data, manager, new, ledger', few⟩ := newChunk_wrapped PageManager.rowOfRegions_regions
    ledger size single (by rw [one]; exact Option.some_ne_none _)
  have answered : PageManager.rowOfRegions manager.segments.length ≠ none := by
    unfold PageManager.rowOfRegions
    rw [if_pos (by omega)]
    exact Option.some_ne_none _
  obtain ⟨next, manager', new', _, _⟩ := newChunk_wrapped PageManager.rowOfRegions_regions ledger'
    size single answered
  exact ⟨fresh, data, manager, next, manager', first, new, new'⟩

theorem alloc_large (arena : Arena) (manager : PageManager) (data : Nat)
    (first : arena.chunks[arena.current]? = some ⟨data, pageSize, 0, 1⟩)
    (default : 8192 ≤ arena.defaultSize) (next : Nat) (after : PageManager)
    (made : newChunk manager arena.defaultSize = .ok (⟨next, pageSize, 0, 1⟩, after)) :
    arena.alloc manager 8192 (2 ^ 4) = .ok (next, { arena with
      chunks := arena.chunks.take (arena.current + 1) ++ [⟨next, pageSize, 8192, 1⟩]
      current := arena.current + 1 }, after) := by
  have start : alignForward 0 (2 ^ 4) = 0 := by decide
  have size : nextChunkSize arena 8192 = arena.defaultSize := if_pos default
  have full := alloc_full arena manager 8192 (2 ^ 4) _ first
    (by rw [start]; exact show pageSize < (0 + 8192) % 2 ^ 64 by decide)
  rw [size, made] at full
  refine full.trans ?_
  rw [Except.bind, start]
  rfl

theorem wrapped_overruns (size : Nat) (bound : size < 2 ^ 64)
    (wraps : 2 ^ 64 ≤ size + pageSize - 1) :
    ∃ s, (system PageManager.rowOfRegions size).Reachable s ∧
      (∃ c ∈ s.arena.chunks, c.capacity = 4096 ∧ c.offset = 8192) ∧ ¬ Separated s := by
  obtain ⟨fresh, data, manager, next, manager', first, new, new'⟩ := single_chunks size (pagesOf_wrapped size bound wraps)
  have built : construct fresh size = .ok (⟨[⟨data, pageSize, 0, 1⟩], 0, size⟩, manager) := by
    unfold construct
    rw [new]
    rfl
  have large : 8192 ≤ size := by
    unfold pageSize at wraps
    omega
  have started : (system PageManager.rowOfRegions size).Reachable
      ⟨⟨[⟨data, pageSize, 0, 1⟩], 0, size⟩, manager, [], [], []⟩ :=
    .start ⟨⟨_, []⟩, _, _, .start ⟨_, first, rfl⟩, built, rfl⟩
  have made := alloc_large ⟨[⟨data, pageSize, 0, 1⟩], 0, size⟩ manager data rfl large next manager' new'
  refine ⟨_, .step started (.alloc _ 8192 4 next _ manager' (by decide) (by decide) made), ?_, ?_⟩
  · exact ⟨⟨next, pageSize, 8192, 1⟩, by simp, rfl, rfl⟩
  · intro separated
    have fits := separated.fits ⟨next, pageSize, 8192, 1⟩ (by simp)
    simp [pageSize] at fits

end Wrapped

theorem arena_separation (size : Nat) (bound : size < 2 ^ 64) :
    (∀ reservations, Reserves reservations → ∀ s, (system reservations size).Reachable s →
      Separated s) ↔ size ≤ 2 ^ 64 - pageSize := by
  constructor
  · intro always
    by_contra large
    obtain ⟨s, reached, _, broken⟩ :=
      wrapped_overruns size bound (by unfold pageSize at *; omega)
    exact broken (always _ rowOfRegions_reserves s reached)
  · intro rounds reservations reserves s reached
    exact (held_of_reachable reserves size (by unfold pageSize at *; omega) s reached).separated

theorem arena_separation_default : (∀ reservations, Reserves reservations → ∀ s,
    (system reservations 1048576).Reachable s → Separated s) ↔ 1048576 ≤ 2 ^ 64 - pageSize :=
  arena_separation 1048576 (by decide)

-- Built with the largest size_t the arena has one page, and so has the chunk that it adds for 8192
-- bytes: its offset is past its capacity.
theorem alloc_overruns_chunk : ∃ s, (system PageManager.rowOfRegions (2 ^ 64 - 1)).Reachable s ∧
    (∃ c ∈ s.arena.chunks, c.capacity = 4096 ∧ c.offset = 8192) ∧ ¬ Separated s :=
  wrapped_overruns (2 ^ 64 - 1) (by decide) (by decide)

end ElySquare.Arena
