import ElySquare.Allocators.ArenaUse
import ElySquare.Allocators.PageSegments

set_option autoImplicit false

namespace ElySquare

namespace PageManager

-- Where a request for `pageCount` pages would be served: at the first run of free pages, or at the
-- start of a new segment.
def offered (manager : PageManager) (pageCount : Nat) : Option Nat :=
  match findRun pageCount manager.current (manager.segments.drop manager.current) with
  | some (k, start) => some (commitAndReturn manager pageCount k start).1
  | none => manager.reservations manager.segments.length

theorem blank_first (pageCount start : Nat) (positive : 0 < pageCount)
    (scanned : scanWords pageCount 0 0 0 (List.replicate bitmapWords 0#64) = some start) : start = 0 := by
  have first := (scanWords_some positive start).mp scanned
  have run : HasRun ⟨0, List.replicate bitmapWords 0#64⟩ pageCount := ⟨start, first.run⟩
  have bound := run.bound List.length_replicate
  by_contra later
  exact first.least 0 (Nat.pos_of_ne_zero later) (blank_run pageCount bound)

theorem request_offered (manager : PageManager) (pageCount ptr : Nat) (after : PageManager)
    (made : manager.requestPageChunk Arena.requestRounds pageCount = .ok (some ptr, after)) :
    manager.offered pageCount = some ptr := by
  have nonzero : pageCount ≠ 0 := by
    rintro rfl
    cases made
  unfold offered
  unfold Arena.requestRounds requestPageChunk at made
  rw [if_neg nonzero] at made
  cases run : findRun pageCount manager.current (manager.segments.drop manager.current) with
  | some place =>
      rw [run] at made
      simp only [Except.ok.injEq, Prod.mk.injEq] at made
      exact made.1
  | none =>
      rw [run] at made
      obtain ⟨grown, new, again⟩ := (Result.bind_ok _ _ _).mp made
      obtain ⟨start, answer⟩ := newSegment_some manager grown new
      have shape := new
      rw [newSegment_eq manager start answer, Except.ok.injEq] at shape
      subst shape
      rw [answer]
      rcases request_cases again with ⟨zero, _⟩ | ⟨_, k, first, run', found, _⟩ | ⟨_, _, _, third⟩
      · exact (nonzero zero).elim
      · dsimp only at run'
        rw [List.drop_left] at run'
        unfold findRun at run'
        cases scanned : scanWords pageCount 0 0 0 (List.replicate bitmapWords 0#64) with
        | none =>
            rw [scanned] at run'
            cases run'
        | some first' =>
            rw [scanned, Option.some.injEq, Prod.mk.injEq] at run'
            obtain ⟨rfl, rfl⟩ := run'
            obtain rfl := blank_first pageCount first' (Nat.pos_of_ne_zero nonzero) scanned
            rw [Option.some.inj found]
            simp [commitAndReturn]
      · cases third

end PageManager

def Range.Has (r : Range) (x : Nat) : Prop := r.start ≤ x ∧ x < r.finish

namespace Arena

open Transition

structure Placed (after : Arena) (ptr bytes alignment : Nat) : Prop where
  inside : ∃ c, after.chunks[after.current]? = some c ∧ c.data ≤ ptr ∧
    ptr + bytes ≤ c.data + c.capacity ∧ c.offset ≤ c.capacity
  aligned : alignment ∣ ptr

-- The end of the range does not wrap around when it is compared with the capacity; or, when a new
-- chunk is needed, its size does not wrap around when it is rounded up to pages. The base of the
-- chunk is a multiple of the alignment.
def Servable (arena : Arena) (manager : PageManager) (bytes alignment : Nat) : Prop :=
  ∀ c, arena.chunks[arena.current]? = some c →
    if (alignForward c.offset alignment + bytes) % 2 ^ 64 ≤ c.capacity then
      alignForward c.offset alignment + bytes < 2 ^ 64 ∧ alignment ∣ c.data
    else
      (nextChunkSize arena bytes + pageSize - 1 < 2 ^ 64 ∨ bytes ≤ pageSize) ∧
        ∀ base, manager.offered (pagesOf (nextChunkSize arena bytes)) = some base → alignment ∣ base

section Limits

variable {reservations : Nat → Option Nat} {manager manager' : PageManager} {arena after : Arena}
  {others : List PageManager.Chunk} {bytes k ptr : Nat}

theorem nextChunkSize_bounds (size : arena.defaultSize < 2 ^ 64) (word : bytes < 2 ^ 64) :
    bytes ≤ nextChunkSize arena bytes ∧ nextChunkSize arena bytes < 2 ^ 64 := by
  unfold nextChunkSize
  split
  next less => exact ⟨less, size⟩
  next => exact ⟨Nat.le_refl _, word⟩

theorem dvd_alignForward (offset : Nat) (power : k < 64) : 2 ^ k ∣ alignForward offset (2 ^ k) :=
  Align.dvd_maskUp 64 k offset power

theorem alignForward_zero (power : k < 64) : alignForward 0 (2 ^ k) = 0 := by
  have bound : 2 ^ k < 2 ^ 64 := Nat.pow_lt_pow_right (by omega) power
  exact Align.maskUp_of_dvd 64 k 0 power (Nat.dvd_zero _) (by omega)

theorem room_iff (size : arena.defaultSize < 2 ^ 64) (word : bytes < 2 ^ 64) :
    bytes ≤ pagesOf (nextChunkSize arena bytes) * pageSize ↔
      nextChunkSize arena bytes + pageSize - 1 < 2 ^ 64 ∨ bytes ≤ pageSize := by
  obtain ⟨more, bound⟩ := nextChunkSize_bounds size word
  constructor
  · intro room
    by_contra wraps
    obtain ⟨wraps, large⟩ := not_or.mp wraps
    rw [pagesOf_wrapped _ bound (by omega), Nat.one_mul] at room
    exact large room
  · rintro (rounds | page)
    · exact Nat.le_trans more (pagesOf_ge _ rounds)
    · exact Nat.le_trans page (Nat.le_mul_of_pos_left _ (pagesOf_pos _))

theorem Sized.alloc_branches (sized : Sized reservations manager arena others) (word : bytes < 2 ^ 64)
    (power : k < 64) (made : arena.alloc manager bytes (2 ^ k) = .ok (ptr, after, manager')) :
    ∃ c, arena.chunks[arena.current]? = some c ∧
      (((alignForward c.offset (2 ^ k) + bytes) % 2 ^ 64 ≤ c.capacity ∧ manager' = manager ∧
        ptr = c.data + alignForward c.offset (2 ^ k) ∧ after = { arena with
          chunks := arena.chunks.set arena.current
            { c with offset := (alignForward c.offset (2 ^ k) + bytes) % 2 ^ 64 } }) ∨
      (c.capacity < (alignForward c.offset (2 ^ k) + bytes) % 2 ^ 64 ∧ ∃ chunk,
        newChunk manager (nextChunkSize arena bytes) = .ok (chunk, manager') ∧ ptr = chunk.data ∧
        after = { arena with
          chunks := arena.chunks ++ [{ chunk with offset := bytes }]
          current := arena.current + 1 })) := by
  obtain ⟨c, found, branches⟩ := sized.toOwner.alloc_branches bytes (2 ^ k) ptr after manager' made
  rw [alignForward_zero power, Nat.zero_add, Nat.mod_eq_of_lt word] at branches
  exact ⟨c, found, branches⟩

structure Outcome (arena : Arena) (manager : PageManager) (after : Arena) (ptr bytes alignment : Nat)
    (c : Chunk) (start : Nat) : Prop where
  current : after.chunks[after.current]? = some c
  ptr : ptr = c.data + start
  aligned : alignment ∣ start
  offset : c.offset = (start + bytes) % 2 ^ 64
  near : c.offset ≤ c.capacity ∨ start = 0
  servable : Servable arena manager bytes alignment ↔ start + bytes ≤ c.capacity ∧ alignment ∣ c.data

theorem Sized.alloc_outcome (sized : Sized reservations manager arena others)
    (reserves : Reserves reservations) (word : bytes < 2 ^ 64) (power : k < 64)
    (made : arena.alloc manager bytes (2 ^ k) = .ok (ptr, after, manager')) :
    ∃ c start, Outcome arena manager after ptr bytes (2 ^ k) c start := by
  obtain ⟨c, found, ⟨fits, _, rfl, rfl⟩ | ⟨full, chunk, new, rfl, rfl⟩⟩ :=
    sized.alloc_branches word power made
  · have present := (List.getElem?_eq_some_iff.mp found).1
    have member := List.mem_of_getElem? found
    have small : c.capacity < 2 ^ 64 := by
      obtain ⟨_, positive, _, mapped⟩ := sized.toOwner.within reserves c member
      have capacity := sized.capacity c member
      omega
    refine ⟨_, _, List.getElem?_set_self present, rfl, dvd_alignForward c.offset power, rfl, .inl fits,
      ?_⟩
    have ends : alignForward c.offset (2 ^ k) + bytes < 2 ^ 64 ↔
        alignForward c.offset (2 ^ k) + bytes ≤ c.capacity := by
      refine ⟨fun less => ?_, fun less => Nat.lt_of_le_of_lt less small⟩
      rwa [Nat.mod_eq_of_lt less] at fits
    dsimp only
    rw [← ends]
    refine ⟨fun servable => ?_, fun right d found' => ?_⟩
    · have holds := servable c found
      rwa [if_pos fits] at holds
    · obtain rfl := Option.some.inj (found.symm.trans found')
      rwa [if_pos fits]
  · obtain ⟨shape, granted⟩ := newChunk_spec _ chunk manager' new
    have capacity : chunk.capacity = _ := congrArg Chunk.capacity shape
    have offered := manager.request_offered _ _ _ granted
    refine ⟨{ chunk with offset := bytes }, 0, ?_, rfl, Nat.dvd_zero _, ?_, .inr rfl, ?_⟩
    · rw [sized.last, List.getElem?_append_right (Nat.le_refl _), Nat.sub_self]
      rfl
    · rw [Nat.zero_add, Nat.mod_eq_of_lt word]
    · dsimp only
      rw [Nat.zero_add, capacity, room_iff sized.size word]
      refine ⟨fun servable => ?_, fun right d found' => ?_⟩
      · have holds := servable c found
        rw [if_neg (Nat.not_le.mpr full)] at holds
        exact ⟨holds.1, holds.2 _ offered⟩
      · obtain rfl := Option.some.inj (found.symm.trans found')
        rw [if_neg (Nat.not_le.mpr full)]
        refine ⟨right.1, fun base same => ?_⟩
        obtain rfl := Option.some.inj (offered.symm.trans same)
        exact right.2

structure Served (arena after : Arena) (range : Range) (alignment : Nat) : Prop
    extends Fresh arena after range where
  fits : ∀ c ∈ after.chunks, c.offset ≤ c.capacity
  quantum : (∀ c ∈ arena.chunks, 2 ^ 4 ∣ c.offset) → 2 ^ 4 ∣ range.size →
    2 ^ 4 ∣ range.start ∧ ∀ c ∈ after.chunks, 2 ^ 4 ∣ c.offset
  aligned : alignment ∣ range.start

theorem quantum_alignForward (offset : Nat) (power : k < 64) (room : offset + 2 ^ k - 1 < 2 ^ 64)
    (quantum : 2 ^ 4 ∣ offset) : 2 ^ 4 ∣ alignForward offset (2 ^ k) := by
  rcases Nat.lt_or_ge 4 k with coarse | fine
  · exact Nat.dvd_trans (Nat.pow_dvd_pow 2 (Nat.le_of_lt coarse)) (dvd_alignForward offset power)
  · have multiple := Nat.dvd_trans (Nat.pow_dvd_pow 2 fine) quantum
    rwa [alignForward, Align.maskUp_of_dvd 64 k offset power multiple room]

theorem Sized.alloc_served (sized : Sized reservations manager arena others)
    (reserves : Reserves reservations) (fits : ∀ c ∈ arena.chunks, c.offset ≤ c.capacity)
    (word : bytes < 2 ^ 64) (power : k < 64)
    (made : arena.alloc manager bytes (2 ^ k) = .ok (ptr, after, manager'))
    (servable : Servable arena manager bytes (2 ^ k)) :
    Served arena after ⟨ptr, bytes⟩ (2 ^ k) := by
  have page16 : 2 ^ 4 ∣ pageSize := by decide
  have bounded : Bounded reservations manager arena others := ⟨sized.toOwner, sized.capacity, fits⟩
  obtain ⟨c, found, ⟨room, rfl, rfl, rfl⟩ | ⟨full, chunk, new, rfl, rfl⟩⟩ :=
    sized.alloc_branches word power made
  · have member := List.mem_of_getElem? found
    have holds := servable c found
    rw [if_pos room] at holds
    rw [Nat.mod_eq_of_lt holds.1] at room made ⊢
    obtain ⟨page, _, reach, _⟩ := bounded.placed reserves c member
    have filled := fits c member
    have bound : 2 ^ k ≤ 2 ^ 63 := Nat.pow_le_pow_right (by omega) (by omega)
    unfold memoryChunkSize at reach
    have rounds : c.offset + 2 ^ k - 1 < 2 ^ 64 := by omega
    have above : c.offset ≤ alignForward c.offset (2 ^ k) := Align.le_maskUp 64 k c.offset power rounds
    refine ⟨bounded.bump_fresh reserves c found _ _ above room, (bounded.set c found _ room).fits,
      fun quantum whole => ?_, Nat.dvd_add holds.2 (dvd_alignForward c.offset power)⟩
    have start := quantum_alignForward c.offset power rounds (quantum c member)
    exact ⟨Nat.dvd_add (Nat.dvd_trans page16 page) start, set_all c _ _ quantum (Nat.dvd_add start whole)⟩
  · have holds := servable c found
    rw [if_neg (Nat.not_le.mpr full)] at holds
    obtain ⟨shape, granted⟩ := newChunk_spec _ chunk manager' new
    have capacity : chunk.capacity = _ := congrArg Chunk.capacity shape
    have room : bytes ≤ chunk.capacity := capacity ▸ (room_iff sized.size word).mpr holds.1
    obtain ⟨page, fresh⟩ := bounded.grow_fresh reserves _ chunk manager' new bytes room
    exact ⟨fresh, (bounded.grow reserves _ chunk manager' new bytes room).fits,
      fun quantum whole => ⟨Nat.dvd_trans page16 page, append_all _ _ quantum whole⟩,
      holds.2 _ (manager.request_offered _ _ _ granted)⟩

theorem alloc_limits (reserves : Reserves reservations) (s : Use)
    (reached : (uses reservations).Reachable s) (word : bytes < 2 ^ 64) (power : k < 64)
    (made : s.arena.alloc s.manager bytes (2 ^ k) = .ok (ptr, after, manager')) :
    Placed after ptr bytes (2 ^ k) ↔ Servable s.arena s.manager bytes (2 ^ k) := by
  have sized := sized_of_reachable reserves s reached
  obtain ⟨c, start, current, rfl, aligned, offset, _, servable⟩ :=
    sized.alloc_outcome reserves word power made
  have member := List.mem_of_getElem? current
  have sized' := sized.alloc reserves bytes (2 ^ k) _ made
  have capacity := sized'.capacity c member
  have mapped := (sized'.toOwner.within reserves c member).2.2.1
  rw [servable]
  constructor
  · rintro ⟨⟨d, found, _, inside, _⟩, multiple⟩
    obtain rfl := Option.some.inj (current.symm.trans found)
    exact ⟨by omega, (Nat.dvd_add_left aligned).mp multiple⟩
  · rintro ⟨inside, multiple⟩
    unfold memoryChunkSize at mapped
    rw [Nat.mod_eq_of_lt (by omega)] at offset
    exact ⟨⟨c, current, Nat.le_add_right _ _, by omega, by omega⟩, Nat.dvd_add multiple aligned⟩

end Limits

-- A second request whose end wraps around: it is found to fit, and the arena has more room than before.
theorem end_wraps : ∃ (s : Use) (ptr : Nat) (after : Arena) (manager : PageManager),
    (uses PageManager.rowOfRegions).Reachable s ∧ s.arena.position.offset = 16 ∧
    s.arena.alloc s.manager (2 ^ 64 - 8) (2 ^ 4) = .ok (ptr, after, manager) ∧
    after.position.offset = 8 ∧ ¬ Placed after ptr (2 ^ 64 - 8) (2 ^ 4) := by
  obtain ⟨data, manager, _, _, reached, _⟩ := page_reached
  have start : alignForward 0 (2 ^ 4) = 0 := by decide
  have stays : alignForward 16 (2 ^ 4) = 16 := by decide
  have first := alloc_fits ⟨[⟨data, pageSize, 0, 1⟩], 0, pageSize⟩ manager 16 (2 ^ 4) _ rfl
    (by rw [start]; exact show (0 + 16) % 2 ^ 64 ≤ pageSize by decide)
  rw [start] at first
  have second := alloc_fits ⟨[⟨data, pageSize, 16, 1⟩], 0, pageSize⟩ manager (2 ^ 64 - 8) (2 ^ 4) _ rfl
    (by rw [stays]; exact show (16 + (2 ^ 64 - 8)) % 2 ^ 64 ≤ pageSize by decide)
  rw [stays] at second
  refine ⟨_, _, _, _, reached.step (.alloc _ 16 4 _ _ _ (by decide) (by decide) first), rfl, second, rfl, ?_⟩
  rintro ⟨⟨c, found, _, inside, _⟩, _⟩
  cases found
  unfold pageSize at inside
  dsimp only at inside
  omega

theorem alloc_limits_page : ∃ (s : Use) (ptr : Nat) (after : Arena) (manager : PageManager),
    (uses PageManager.rowOfRegions).Reachable s ∧
    s.arena.alloc s.manager 16 (2 ^ 4) = .ok (ptr, after, manager) ∧
    (Placed after ptr 16 (2 ^ 4) ↔ Servable s.arena s.manager 16 (2 ^ 4)) := by
  obtain ⟨data, manager, _, _, reached, _⟩ := page_reached
  have start : alignForward 0 (2 ^ 4) = 0 := by decide
  have made := alloc_fits ⟨[⟨data, pageSize, 0, 1⟩], 0, pageSize⟩ manager 16 (2 ^ 4) _ rfl
    (by rw [start]; exact show (0 + 16) % 2 ^ 64 ≤ pageSize by decide)
  exact ⟨_, _, _, _, reached, made,
    alloc_limits rowOfRegions_reserves _ reached (by decide) (by decide) made⟩

def Use.Whole (s : Use) : UseCall → Prop
  | .on (.alloc bytes alignment) => Servable s.arena s.manager bytes alignment
  | .allocof size alignment count => count ≤ 1 ∧ Servable s.arena s.manager size alignment
  | .on (.popToMarker _) => False
  | .on .clear => False
  | _ => True

def filling (reservations : Nat → Option Nat) : System Use UseCall :=
  (uses reservations).restrict Use.Whole

structure ArrayKept (reservations : Nat → Option Nat) (t : Use) (array : Range) : Prop where
  inside : ∃ c ∈ t.arena.chunks, ∀ x, array.Has x → c.data ≤ x ∧ x < c.data + c.capacity
  apart : ∀ u, (filling reservations).Later (fun _ => True) t u →
    ∀ r ∈ Trade.since t.handed u.handed, ∀ x, array.Has x → ¬ r.Has x

def Covered (arena : Arena) (array : Range) : Prop :=
  ∃ c ∈ arena.chunks, c.data ≤ array.start ∧ array.finish ≤ c.data + c.offset ∧ c.offset ≤ c.capacity

section Arrays

variable {reservations : Nat → Option Nat} {manager manager' : PageManager} {arena after : Arena}
  {others : List PageManager.Chunk} {bytes k ptr : Nat} {array : Range}

theorem Sized.covered_alloc (sized : Sized reservations manager arena others)
    (reserves : Reserves reservations) (word : bytes < 2 ^ 64) (power : k < 64)
    (made : arena.alloc manager bytes (2 ^ k) = .ok (ptr, after, manager'))
    (servable : Servable arena manager bytes (2 ^ k)) (covered : arena.Covered array) :
    after.Covered array ∧ ∀ x, array.Has x → ¬ Range.Has ⟨ptr, bytes⟩ x := by
  obtain ⟨d, member, first, last, fits⟩ := covered
  have capacity := sized.capacity d member
  obtain ⟨_, _, reach, _⟩ := sized.toOwner.within reserves d member
  obtain ⟨c, found, ⟨room, _, rfl, rfl⟩ | ⟨full, chunk, new, rfl, rfl⟩⟩ :=
    sized.alloc_branches word power made
  · have holds := servable c found
    rw [if_pos room] at holds
    rw [Nat.mod_eq_of_lt holds.1] at room
    obtain ⟨j, at'⟩ := List.getElem?_of_mem member
    by_cases same : j = arena.current
    · subst same
      obtain rfl := Option.some.inj (found.symm.trans at')
      have above : c.offset ≤ alignForward c.offset (2 ^ k) := by
        have bound : 2 ^ k ≤ 2 ^ 63 := Nat.pow_le_pow_right (by omega) (by omega)
        unfold memoryChunkSize at reach
        exact Align.le_maskUp 64 k c.offset power (by omega)
      refine ⟨⟨_, List.mem_set (List.getElem?_eq_some_iff.mp at').1 _, first, ?_, ?_⟩, ?_⟩
      · dsimp only
        rw [Nat.mod_eq_of_lt holds.1]
        omega
      · dsimp only
        rwa [Nat.mod_eq_of_lt holds.1]
      · rintro x ⟨_, below⟩ ⟨from', _⟩
        dsimp only at from'
        omega
    · have apart := sized.toOwner.regions_apart j arena.current d c at' found same
      have capacity' := sized.capacity c (List.mem_of_getElem? found)
      refine ⟨⟨d, List.mem_of_getElem? ((List.getElem?_set_ne (Ne.symm same)).trans at'), first, last,
        fits⟩, ?_⟩
      rintro x ⟨above, below⟩ ⟨from', to'⟩
      unfold PageManager.Chunk.Apart PageManager.Chunk.finish Chunk.region at apart
      unfold Range.finish at to'
      dsimp only at *
      omega
  · have holds := servable c found
    rw [if_neg (Nat.not_le.mpr full)] at holds
    obtain ⟨shape, _⟩ := newChunk_spec _ chunk manager' new
    have room := (room_iff sized.size word).mpr holds.1
    have pages : chunk.pages = pagesOf (nextChunkSize arena bytes) := congrArg Chunk.pages shape
    rw [← pages] at room
    obtain ⟨_, _, ledger⟩ := newChunk_ledger reserves.regions sized.ledger _ chunk manager' new
    have apart := (List.pairwise_cons.mp ledger.apart).1 d.region
      (List.mem_append_left _ (List.mem_map_of_mem member))
    refine ⟨⟨d, List.mem_append_left _ member, first, last, fits⟩, ?_⟩
    rintro x ⟨above, below⟩ ⟨from', to'⟩
    unfold PageManager.Chunk.Apart PageManager.Chunk.finish Chunk.region at apart
    unfold Range.finish at to'
    dsimp only at *
    omega

theorem Sized.served_covered (sized : Sized reservations manager arena others)
    (reserves : Reserves reservations) (word : bytes < 2 ^ 64) (power : k < 64)
    (made : arena.alloc manager bytes (2 ^ k) = .ok (ptr, after, manager'))
    (servable : Servable arena manager bytes (2 ^ k)) : after.Covered ⟨ptr, bytes⟩ := by
  obtain ⟨c, start, current, rfl, _, offset, _, iff⟩ := sized.alloc_outcome reserves word power made
  have room := (iff.mp servable).1
  have member := List.mem_of_getElem? current
  have sized' := sized.alloc reserves bytes (2 ^ k) _ made
  have capacity := sized'.capacity c member
  have mapped := (sized'.toOwner.within reserves c member).2.2.1
  unfold memoryChunkSize at mapped
  rw [Nat.mod_eq_of_lt (by omega)] at offset
  refine ⟨c, member, Nat.le_add_right _ _, ?_, by omega⟩
  unfold Range.finish
  dsimp only
  omega

theorem Covered.kept (reserves : Reserves reservations) {t : Use}
    (sized : Sized reservations t.manager t.arena t.others) (covered : t.arena.Covered array) (u : Use)
    (later : (filling reservations).Later (fun _ => True) t u) :
    ∀ r ∈ Trade.since t.handed u.handed, ∀ x, array.Has x → ¬ r.Has x := by
  suffices kept : Sized reservations u.manager u.arena u.others ∧ u.arena.Covered array ∧
      ∃ new, u.handed = new ++ t.handed ∧ ∀ r ∈ new, ∀ x, array.Has x → ¬ r.Has x by
    obtain ⟨_, _, new, handed, apart⟩ := kept
    rw [handed, Trade.since_append]
    exact apart
  refine later.keeps (fun u => Sized reservations u.manager u.arena u.others ∧ u.arena.Covered array ∧
    ∃ new, u.handed = new ++ t.handed ∧ ∀ r ∈ new, ∀ x, array.Has x → ¬ r.Has x)
    ⟨sized, covered, [], rfl, fun _ member => by cases member⟩ ?_
  rintro s call u _ ⟨sized, covered, new, handed, apart⟩ ⟨whole, taken⟩
  refine ⟨sized.step reserves taken, ?_⟩
  have more (r : Range) (missed : ∀ x, array.Has x → ¬ r.Has x) :
      ∃ new', r :: s.handed = new' ++ t.handed ∧ ∀ r ∈ new', ∀ x, array.Has x → ¬ r.Has x :=
    ⟨r :: new, by rw [handed]; rfl, List.forall_mem_cons.mpr ⟨missed, apart⟩⟩
  cases taken with
  | alloc bytes k ptr arena manager word power made =>
      obtain ⟨covered', missed⟩ := sized.covered_alloc reserves word power made whole covered
      exact ⟨covered', more _ missed⟩
  | allocof size k count ptr arena manager word power made =>
      obtain ⟨covered', missed⟩ := sized.covered_alloc reserves word power made whole.2 covered
      refine ⟨covered', more _ fun x has has' => missed x has ⟨has'.1, Nat.lt_of_lt_of_le has'.2 ?_⟩⟩
      have less := Nat.mul_le_mul_right size whole.1
      rw [Nat.one_mul] at less
      exact Nat.add_le_add_left less ptr
  | getMarker p taken => exact ⟨covered, new, handed, apart⟩
  | popToMarker p arena manager valid made => exact whole.elim
  | popToNull offset arena manager made => exact whole.elim
  | clear arena manager made => exact whole.elim
  | request fuel pageCount ptr manager made => exact ⟨covered, new, handed, apart⟩
  | release chunk manager alive made => exact ⟨covered, new, handed, apart⟩

theorem Sized.chunk_unique (sized : Sized reservations manager arena others) {c d : Chunk}
    (inC : c ∈ arena.chunks) (inD : d ∈ arena.chunks) (x : Nat)
    (hasC : c.data ≤ x ∧ x < c.data + c.capacity) (hasD : d.data ≤ x ∧ x < d.data + d.capacity) :
    c = d := by
  have capacity := sized.capacity c inC
  have capacity' := sized.capacity d inD
  obtain ⟨i, atI⟩ := List.getElem?_of_mem inC
  obtain ⟨j, atJ⟩ := List.getElem?_of_mem inD
  by_cases same : i = j
  · subst same
    exact Option.some.inj (atI.symm.trans atJ)
  · have apart := sized.toOwner.regions_apart i j c d atI atJ same
    unfold PageManager.Chunk.Apart PageManager.Chunk.finish Chunk.region at apart
    dsimp only at apart
    omega

theorem Outcome.inside_current {c d : Chunk} {start total : Nat} (reserves : Reserves reservations)
    (sized : Sized reservations manager after others)
    (outcome : Outcome arena manager' after ptr bytes (2 ^ k) c start) (positive : 1 ≤ bytes)
    (wide : bytes ≤ total) (member : d ∈ after.chunks)
    (inside : ∀ x, Range.Has ⟨ptr, total⟩ x → d.data ≤ x ∧ x < d.data + d.capacity) :
    start + total ≤ c.capacity := by
  obtain ⟨current, rfl, _, offset, near, _⟩ := outcome
  have member' := List.mem_of_getElem? current
  obtain ⟨_, _, _, mapped⟩ := sized.toOwner.within reserves d member
  have base := (sized.toOwner.within reserves c member').2.1
  have capacity := sized.capacity d member
  have capacity' := sized.capacity c member'
  have first := inside (c.data + start) ⟨Nat.le_refl _, by unfold Range.finish; dsimp only; omega⟩
  have last := inside (c.data + start + total - 1)
    ⟨by dsimp only; omega, by unfold Range.finish; dsimp only; omega⟩
  have below : start < c.capacity := by
    have pages : 0 < c.pages :=
      sized.ledger.positive c.region (List.mem_append_left _ (List.mem_map_of_mem member'))
    rcases near with fits | rfl
    · rcases Nat.lt_or_ge (start + bytes) (2 ^ 64) with small | large
      · rw [offset, Nat.mod_eq_of_lt small] at fits
        omega
      · omega
    · unfold pageSize at capacity'
      omega
  obtain rfl := sized.chunk_unique member member' (c.data + start) first (by omega)
  omega

theorem next_byte (manager : PageManager) {c : Chunk} (current : arena.chunks[arena.current]? = some c)
    (room : c.offset + 1 ≤ c.capacity) (small : c.capacity < 2 ^ 64) :
    (∃ after, arena.alloc manager 1 (2 ^ 0) = .ok (c.data + c.offset, after, manager)) ∧
      Servable arena manager 1 (2 ^ 0) := by
  have stays : alignForward c.offset (2 ^ 0) = c.offset :=
    Align.maskUp_of_dvd 64 0 c.offset (by decide) (Nat.one_dvd _) (by omega)
  have fits : (alignForward c.offset (2 ^ 0) + 1) % 2 ^ 64 ≤ c.capacity := by
    rw [stays, Nat.mod_eq_of_lt (by omega)]
    exact room
  have made := alloc_fits arena manager 1 (2 ^ 0) c current fits
  rw [stays] at made
  refine ⟨⟨_, made⟩, fun d found => ?_⟩
  obtain rfl := Option.some.inj (current.symm.trans found)
  rw [if_pos fits, stays]
  exact ⟨by omega, Nat.one_dvd _⟩

theorem not_kept {t : Use} {c : Chunk} (current : t.arena.chunks[t.arena.current]? = some c)
    (room : c.offset + 1 ≤ c.capacity) (small : c.capacity < 2 ^ 64)
    (has : array.Has (c.data + c.offset)) : ¬ ArrayKept reservations t array := by
  intro kept
  obtain ⟨⟨again, next⟩, servable⟩ := next_byte t.manager current room small
  have taken : (filling reservations).step t (.on (.alloc 1 (2 ^ 0)))
      ⟨again, t.manager, t.others, t.markers, ⟨c.data + c.offset, 1⟩ :: t.handed⟩ :=
    ⟨servable, .alloc t 1 0 _ again t.manager (by decide) (by decide) next⟩
  refine kept.apart _ (.step (.now _) trivial taken) ⟨c.data + c.offset, 1⟩ ?_ (c.data + c.offset) has
    ⟨Nat.le_refl _, Nat.lt_succ_self _⟩
  exact (Trade.since_append [_] t.handed) ▸ List.mem_singleton.mpr rfl

theorem array_reserved (reserves : Reserves reservations) (s : Use)
    (reached : (uses reservations).Reachable s) (size count : Nat) (positive : 1 ≤ size)
    (fine : k ≤ 12) (small : count * size < 2 ^ 63)
    (made : s.arena.allocof s.manager size (2 ^ k) count = .ok (ptr, after, manager')) :
    ArrayKept reservations
        ⟨after, manager', s.others, s.markers, ⟨ptr, count * size⟩ :: s.handed⟩ ⟨ptr, count * size⟩ ↔
      count = 0 ∨ count = 1 ∧ Servable s.arena s.manager size (2 ^ k) := by
  have sized := sized_of_reachable reserves s reached
  have sized' := sized.alloc reserves size (2 ^ k) ptr made
  have power : k < 64 := by omega
  rcases Nat.eq_zero_or_pos count with rfl | some
  · have empty (x : Nat) : ¬ Range.Has ⟨ptr, 0 * size⟩ x := by
      rintro ⟨above, below⟩
      unfold Range.finish at below
      dsimp only at *
      omega
    obtain ⟨before, c, split, _⟩ := sized'.toOwner.split
    exact iff_of_true ⟨⟨c, by rw [split]; simp, fun x has => (empty x has).elim⟩,
      fun _ _ _ _ x has => (empty x has).elim⟩ (.inl rfl)
  · have wide : size ≤ count * size := Nat.le_mul_of_pos_left size some
    have word : size < 2 ^ 64 := by omega
    obtain ⟨c, start, outcome⟩ := sized.alloc_outcome reserves word power made
    have member := List.mem_of_getElem? outcome.current
    have capacity := sized'.capacity c member
    obtain ⟨page, _, reach, mapped⟩ := sized'.toOwner.within reserves c member
    have aligned : 2 ^ k ∣ c.data := Nat.dvd_trans (Nat.pow_dvd_pow 2 fine) page
    constructor
    · intro kept
      obtain ⟨d, inD, inside⟩ := kept.inside
      have room := outcome.inside_current reserves sized' positive wide inD inside
      refine .inr ⟨?_, outcome.servable.mpr ⟨by omega, aligned⟩⟩
      by_contra several
      have two : 2 * size ≤ count * size := Nat.mul_le_mul_right size (by omega)
      unfold memoryChunkSize at reach
      have offset : c.offset = start + size := by
        rw [outcome.offset, Nat.mod_eq_of_lt (by omega)]
      have place := outcome.ptr
      refine not_kept outcome.current (by omega) (by omega) ?_ kept
      unfold Range.Has Range.finish
      dsimp only
      omega
    · rintro (rfl | ⟨rfl, servable⟩)
      · exact (Nat.lt_irrefl _ some).elim
      · rw [Nat.one_mul]
        have covered := sized.served_covered reserves word power made servable
        refine ⟨⟨c, member, ?_⟩, covered.kept reserves sized'⟩
        have room := (outcome.servable.mp servable).1
        have place := outcome.ptr
        rintro x ⟨above, below⟩
        unfold Range.finish at below
        dsimp only at *
        omega

end Arrays

theorem array_made (count : Nat) : ∃ (s : Use) (ptr : Nat) (after : Arena) (manager : PageManager),
    (uses PageManager.rowOfRegions).Reachable s ∧
    s.arena.allocof s.manager 8 (2 ^ 3) count = .ok (ptr, after, manager) ∧
    after.chunks[after.current]? = some ⟨ptr, pageSize, 8, 1⟩ := by
  obtain ⟨data, manager, _, _, reached, _⟩ := page_reached
  have start : alignForward 0 (2 ^ 3) = 0 := by decide
  have made := alloc_fits ⟨[⟨data, pageSize, 0, 1⟩], 0, pageSize⟩ manager 8 (2 ^ 3) _ rfl
    (by rw [start]; exact show (0 + 8) % 2 ^ 64 ≤ pageSize by decide)
  rw [start] at made
  exact ⟨_, _, _, manager, reached, made, rfl⟩

-- The second of two elements is handed out again.
theorem second_element_lost : ∃ (s : Use) (ptr : Nat) (after : Arena) (manager : PageManager),
    (uses PageManager.rowOfRegions).Reachable s ∧
    s.arena.allocof s.manager 8 (2 ^ 3) 2 = .ok (ptr, after, manager) ∧
    (∃ again, after.alloc manager 1 (2 ^ 0) = .ok (ptr + 8, again, manager)) ∧
    ¬ ArrayKept PageManager.rowOfRegions
      ⟨after, manager, s.others, s.markers, ⟨ptr, 2 * 8⟩ :: s.handed⟩ ⟨ptr, 2 * 8⟩ := by
  obtain ⟨s, ptr, after, manager, reached, made, current⟩ := array_made 2
  have room : 8 + 1 ≤ pageSize := by decide
  have small : pageSize < 2 ^ 64 := by decide
  refine ⟨s, ptr, after, manager, reached, made, (next_byte manager current room small).1,
    not_kept current room small ?_⟩
  unfold Range.Has Range.finish
  dsimp only
  omega

theorem array_reserved_single : ∃ (s : Use) (ptr : Nat) (after : Arena) (manager : PageManager),
    (uses PageManager.rowOfRegions).Reachable s ∧
    (ArrayKept PageManager.rowOfRegions
        ⟨after, manager, s.others, s.markers, ⟨ptr, 1 * 8⟩ :: s.handed⟩ ⟨ptr, 1 * 8⟩ ↔
      1 = 0 ∨ 1 = 1 ∧ Servable s.arena s.manager 8 (2 ^ 3)) := by
  obtain ⟨s, ptr, after, manager, reached, made, _⟩ := array_made 1
  exact ⟨s, ptr, after, manager, reached, array_reserved rowOfRegions_reserves s reached 8 1 (by decide)
    (by decide) (by decide) made⟩

end Arena

end ElySquare
