import ElySquare.Allocators.Arena
import ElySquare.Allocators.PageOwnership

set_option autoImplicit false

namespace ElySquare

structure Range where
  start : Nat
  size : Nat
deriving DecidableEq, Repr

namespace Range

def finish (r : Range) : Nat := r.start + r.size

def Apart (r s : Range) : Prop := r.finish ≤ s.start ∨ s.finish ≤ r.start

theorem Apart.symm {r s : Range} (apart : Apart r s) : Apart s r := Or.symm apart

end Range

/-- What reservePages returns: page-aligned regions of the address space, none twice. -/
structure Reserves (reservations : Nat → Option Nat) : Prop where
  regions : PageManager.Regions reservations
  aligned : ∀ k base, reservations k = some base → pageSize ∣ base
  mapped : ∀ k base, reservations k = some base → 0 < base ∧ base + memoryChunkSize ≤ 2 ^ 64

theorem rowOfRegions_reserves : Reserves PageManager.rowOfRegions := by
  refine ⟨PageManager.rowOfRegions_regions, fun k base answer => ?_, fun k base answer => ?_⟩
  · obtain ⟨rfl, _⟩ := PageManager.rowOfRegions_eq k base answer
    exact Nat.dvd_trans (by decide : pageSize ∣ memoryChunkSize) (Nat.dvd_mul_left _ _)
  · obtain ⟨rfl, small⟩ := PageManager.rowOfRegions_eq k base answer
    unfold memoryChunkSize
    omega

theorem Reserves.within {reservations : Nat → Option Nat} {manager : PageManager}
    {live : List PageManager.Chunk} (reserves : Reserves reservations)
    (ledger : PageManager.Ledger reservations manager live) (c : PageManager.Chunk)
    (member : c ∈ live) :
    pageSize ∣ c.ptr ∧ 0 < c.ptr ∧ c.pages * pageSize ≤ memoryChunkSize ∧
      c.ptr + c.pages * pageSize ≤ 2 ^ 64 := by
  obtain ⟨segment, inSegments, start, ptr, bound⟩ := ledger.placed c member
  obtain ⟨k, found⟩ := List.getElem?_of_mem inSegments
  have answer := ledger.bases k segment found
  have aligned := reserves.aligned k _ answer
  have mapped := reserves.mapped k _ answer
  unfold memoryChunkSize at *
  unfold cagePagesCount at bound
  refine ⟨?_, by omega, by unfold pageSize; omega, ?_⟩
  · rw [ptr]
    exact Nat.dvd_add aligned (Nat.dvd_mul_left _ _)
  · rw [ptr]
    unfold pageSize
    omega

namespace Arena

def Chunk.region (c : Chunk) : PageManager.Chunk := ⟨c.data, c.pages⟩

def Inside (arena : Arena) (r : Range) : Prop :=
  ∃ c ∈ arena.chunks, c.data ≤ r.start ∧ r.finish ≤ c.data + c.offset

/-- An arena that owns its chunks, next to `others` that share the page manager with it. -/
structure Owner (reservations : Nat → Option Nat) (manager : PageManager) (arena : Arena)
    (others : List PageManager.Chunk) : Prop where
  ledger : PageManager.Ledger reservations manager (arena.chunks.map Chunk.region ++ others)
  last : arena.current + 1 = arena.chunks.length

structure Bounded (reservations : Nat → Option Nat) (manager : PageManager) (arena : Arena)
    (others : List PageManager.Chunk) : Prop extends Owner reservations manager arena others where
  capacity : ∀ c ∈ arena.chunks, c.capacity = c.pages * pageSize
  fits : ∀ c ∈ arena.chunks, c.offset ≤ c.capacity

structure Sound (reservations : Nat → Option Nat) (manager : PageManager) (arena : Arena)
    (others : List PageManager.Chunk) : Prop extends Bounded reservations manager arena others where
  aligned : ∀ c ∈ arena.chunks, 2 ^ 4 ∣ c.offset
  rounds : arena.defaultSize + pageSize - 1 < 2 ^ 64

theorem alignForward_spec (offset k : Nat) (fine : k ≤ 12) (room : offset ≤ 2 ^ 63) :
    offset ≤ alignForward offset (2 ^ k) ∧ alignForward offset (2 ^ k) < offset + 2 ^ 12 ∧
      2 ^ k ∣ alignForward offset (2 ^ k) := by
  have power := Nat.pow_le_pow_right (n := 2) (by omega) fine
  have positive := Nat.two_pow_pos k
  have rounded := Align.maskUp_two_pow 64 k offset (by omega) (by omega)
  have split := Nat.div_add_mod' (offset + 2 ^ k - 1) (2 ^ k)
  have rest := Nat.mod_lt (offset + 2 ^ k - 1) positive
  unfold alignForward
  rw [rounded]
  refine ⟨by omega, by omega, Nat.dvd_mul_left _ _⟩

theorem alignForward_aligned (offset k : Nat) (fine : k ≤ 12) (aligned : 2 ^ k ∣ offset)
    (room : offset ≤ 2 ^ 63) : alignForward offset (2 ^ k) = offset := by
  have power := Nat.pow_le_pow_right (n := 2) (by omega) fine
  exact Align.maskUp_of_dvd 64 k offset (by omega) aligned (by omega)

variable {reservations : Nat → Option Nat} {manager : PageManager} {arena : Arena}
  {others : List PageManager.Chunk}

theorem newChunk_spec (bytes : Nat) (chunk : Chunk) (after : PageManager)
    (made : newChunk manager bytes = .ok (chunk, after)) :
    chunk = ⟨chunk.data, pagesOf bytes * pageSize, 0, pagesOf bytes⟩ ∧
      manager.requestPageChunk requestRounds (pagesOf bytes) = .ok (some chunk.data, after) := by
  unfold newChunk at made
  obtain ⟨⟨data, grown⟩, granted, rest⟩ := (Result.bind_ok _ _ _).mp made
  obtain ⟨address, rfl⟩ := PageManager.Ledger.request_some _ _ data grown
    (Nat.ne_of_gt (pagesOf_pos bytes)) granted
  simp only [Except.ok.injEq, Prod.mk.injEq] at rest
  obtain ⟨rfl, rfl⟩ := rest
  exact ⟨rfl, granted⟩

theorem newChunk_ledger (regions : PageManager.Regions reservations)
    (ledger : PageManager.Ledger reservations manager others) (size : Nat) (chunk : Chunk)
    (after : PageManager) (made : newChunk manager size = .ok (chunk, after)) :
    chunk.capacity = chunk.pages * pageSize ∧ chunk.offset = 0 ∧
      PageManager.Ledger reservations after (chunk.region :: others) := by
  obtain ⟨shape, granted⟩ := newChunk_spec size chunk after made
  have pages : chunk.pages = pagesOf size := congrArg Chunk.pages shape
  have ledger' := (ledger.request_ledger regions _ _ _ _ granted).1
  rw [← pages] at ledger'
  exact ⟨by rw [shape], congrArg Chunk.offset shape, ledger'⟩

theorem deleteChunks_ledger (reserves : Reserves reservations) (chunks : List Chunk)
    (ledger : PageManager.Ledger reservations manager (chunks.map Chunk.region ++ others))
    (after : PageManager) (made : deleteChunks manager chunks = .ok after) :
    PageManager.Ledger reservations after others := by
  induction chunks generalizing manager with
  | nil =>
      cases made
      exact ledger
  | cons chunk rest ih =>
      have first : chunk.region ∈ (chunk :: rest).map Chunk.region ++ others := by simp
      have mapped : chunk.data ≠ 0 := Nat.ne_of_gt (reserves.within ledger chunk.region first).2.1
      unfold deleteChunks at made
      rw [if_neg mapped] at made
      obtain ⟨released, release, made⟩ := (Result.bind_ok _ _ _).mp made
      obtain ⟨_, release', ledger', _⟩ := ledger.release_spec reserves.regions chunk.region first
      cases release.symm.trans release'
      rw [List.map_cons, List.cons_append, List.erase_cons_head] at ledger'
      exact ih ledger' made

theorem deleteChunks_returns (reserves : Reserves reservations) (chunks : List Chunk)
    (ledger : PageManager.Ledger reservations manager (chunks.map Chunk.region ++ others)) :
    ∃ after, deleteChunks manager chunks = .ok after := by
  induction chunks generalizing manager with
  | nil => exact ⟨manager, rfl⟩
  | cons chunk rest ih =>
      have first : chunk.region ∈ (chunk :: rest).map Chunk.region ++ others := by simp
      have mapped : chunk.data ≠ 0 := Nat.ne_of_gt (reserves.within ledger chunk.region first).2.1
      obtain ⟨released, release, ledger', _⟩ := ledger.release_spec reserves.regions chunk.region first
      rw [List.map_cons, List.cons_append, List.erase_cons_head] at ledger'
      obtain ⟨after, done⟩ := ih ledger'
      refine ⟨after, ?_⟩
      unfold deleteChunks
      rw [if_neg mapped]
      exact (Result.bind_ok _ _ _).mpr ⟨released, release, done⟩

theorem newChunk_room (size : Nat) (rounds : size + pageSize - 1 < 2 ^ 64) (chunk : Chunk)
    (after : PageManager) (made : newChunk manager size = .ok (chunk, after)) :
    chunk.offset = 0 ∧ size ≤ chunk.capacity := by
  obtain ⟨shape, _⟩ := newChunk_spec size chunk after made
  have capacity : chunk.capacity = _ := congrArg Chunk.capacity shape
  rw [capacity]
  exact ⟨congrArg Chunk.offset shape, pagesOf_ge size rounds⟩

theorem set_all (c : Chunk) (offset : Nat) (property : Chunk → Prop)
    (old : ∀ d ∈ arena.chunks, property d) (new : property { c with offset := offset }) :
    ∀ d ∈ arena.chunks.set arena.current { c with offset := offset }, property d := by
  intro d inside
  rcases List.mem_or_eq_of_mem_set inside with before | rfl
  · exact old d before
  · exact new

theorem set_regions {c : Chunk} (found : arena.chunks[arena.current]? = some c) (offset : Nat) :
    (arena.chunks.set arena.current { c with offset := offset }).map Chunk.region =
      arena.chunks.map Chunk.region := by
  obtain ⟨inside, rfl⟩ := List.getElem?_eq_some_iff.mp found
  have mapped : arena.current < (arena.chunks.map Chunk.region).length := by simpa using inside
  have here : Chunk.region { arena.chunks[arena.current] with offset := offset } =
      (arena.chunks.map Chunk.region)[arena.current] := by
    rw [List.getElem_map]
    rfl
  rw [List.map_set, here, List.set_getElem_self]

theorem append_all (c : Chunk) (property : Chunk → Prop) (old : ∀ d ∈ arena.chunks, property d)
    (new : property c) : ∀ d ∈ arena.chunks ++ [c], property d := by
  intro d inside
  rcases List.mem_append.mp inside with before | here
  · exact old d before
  · exact List.mem_singleton.mp here ▸ new

namespace Owner

theorem within (owner : Owner reservations manager arena others) (reserves : Reserves reservations)
    (c : Chunk) (member : c ∈ arena.chunks) :
    pageSize ∣ c.data ∧ 0 < c.data ∧ c.pages * pageSize ≤ memoryChunkSize ∧
      c.data + c.pages * pageSize ≤ 2 ^ 64 :=
  reserves.within owner.ledger c.region (List.mem_append_left _ (List.mem_map_of_mem member))

theorem regions_apart (owner : Owner reservations manager arena others) (i j : Nat) (c d : Chunk)
    (atI : arena.chunks[i]? = some c) (atJ : arena.chunks[j]? = some d) (different : i ≠ j) :
    PageManager.Chunk.Apart c.region d.region := by
  have apart := (List.pairwise_append.mp owner.ledger.apart).1
  obtain ⟨inI, rfl⟩ := List.getElem?_eq_some_iff.mp atI
  obtain ⟨inJ, rfl⟩ := List.getElem?_eq_some_iff.mp atJ
  have sorted := List.pairwise_iff_getElem.mp (List.pairwise_map.mp apart)
  rcases Nat.lt_or_gt_of_ne different with less | more
  · exact sorted i j inI inJ less
  · exact (sorted j i inJ inI more).symm

theorem request_other (owner : Owner reservations manager arena others)
    (reserves : Reserves reservations) (fuel pageCount ptr : Nat) (after : PageManager)
    (made : manager.requestPageChunk fuel pageCount = .ok (some ptr, after)) :
    Owner reservations after arena (⟨ptr, pageCount⟩ :: others) := by
  have ledger := (owner.ledger.request_ledger reserves.regions fuel pageCount ptr after made).1
  exact ⟨ledger.perm _ List.perm_middle.symm, owner.last⟩

theorem release_other (owner : Owner reservations manager arena others)
    (reserves : Reserves reservations) (c : PageManager.Chunk) (alive : c ∈ others)
    (after : PageManager) (made : manager.releasePageChunk c.ptr c.pages = .ok after) :
    Owner reservations after arena (others.erase c) := by
  have inside : c ∈ arena.chunks.map Chunk.region ++ others := List.mem_append_right _ alive
  obtain ⟨done, released, ledger, _⟩ := owner.ledger.release_spec reserves.regions c inside
  rw [made] at released
  cases released
  have same : (arena.chunks.map Chunk.region ++ others).Perm
      (c :: (arena.chunks.map Chunk.region ++ others.erase c)) :=
    ((List.perm_cons_erase alive).append_left _).trans List.perm_middle
  exact ⟨ledger.perm _ ((List.perm_cons_erase inside).symm.trans same).cons_inv, owner.last⟩

theorem set (owner : Owner reservations manager arena others) (c : Chunk)
    (found : arena.chunks[arena.current]? = some c) (offset : Nat) :
    Owner reservations manager
      { arena with chunks := arena.chunks.set arena.current { c with offset := offset } } others := by
  refine ⟨?_, ?_⟩
  · rw [set_regions found]
    exact owner.ledger
  · rw [List.length_set]
    exact owner.last

theorem grow (owner : Owner reservations manager arena others) (reserves : Reserves reservations)
    (size : Nat) (chunk : Chunk) (after : PageManager)
    (made : newChunk manager size = .ok (chunk, after)) (offset : Nat) :
    Owner reservations after { arena with
      chunks := arena.chunks ++ [{ chunk with offset := offset }]
      current := arena.current + 1 } others := by
  obtain ⟨_, _, ledger⟩ := newChunk_ledger reserves.regions owner.ledger size chunk after made
  refine ⟨?_, ?_⟩
  · refine ledger.perm _ ?_
    rw [List.map_append, List.append_assoc]
    exact List.perm_middle.symm
  · rw [List.length_append, ← owner.last]
    rfl

theorem cut (owner : Owner reservations manager arena others) (reserves : Reserves reservations)
    (k : Nat) (c : Chunk) (found : arena.chunks[k]? = some c) (offset : Nat) (after : PageManager)
    (made : deleteChunks manager (arena.chunks.drop (k + 1)) = .ok after) :
    Owner reservations after { arena with
      chunks := arena.chunks.take k ++ [{ c with offset := offset }]
      current := k } others := by
  obtain ⟨inside, rfl⟩ := List.getElem?_eq_some_iff.mp found
  have kept : (arena.chunks.take k ++ [{ arena.chunks[k] with offset := offset }]).map Chunk.region =
      (arena.chunks.take (k + 1)).map Chunk.region := by
    rw [List.take_succ_eq_append_getElem inside, List.map_append, List.map_append]
    rfl
  have all : (arena.chunks.map Chunk.region ++ others).Perm
      ((arena.chunks.drop (k + 1)).map Chunk.region ++
        ((arena.chunks.take (k + 1)).map Chunk.region ++ others)) := by
    conv_lhs => rw [← List.take_append_drop (k + 1) arena.chunks, List.map_append, List.append_assoc]
    exact List.perm_append_comm_assoc _ _ _
  refine ⟨?_, ?_⟩
  · rw [kept]
    exact deleteChunks_ledger reserves _ (owner.ledger.perm _ all) after made
  · rw [List.length_append, List.length_take, Nat.min_eq_left (Nat.le_of_lt inside)]
    rfl

theorem split (owner : Owner reservations manager arena others) :
    ∃ before c, arena.chunks = before ++ [c] ∧ arena.current = before.length := by
  have last := owner.last
  rcases List.eq_nil_or_concat arena.chunks with none | ⟨before, c, split⟩
  · rw [none] at last
    cases last
  · rw [split, List.length_concat] at last
    exact ⟨before, c, split.trans List.concat_eq_append, Nat.succ.inj last⟩

theorem alloc_branches (owner : Owner reservations manager arena others)
    (bytes alignment ptr : Nat) (after : Arena) (manager' : PageManager)
    (made : arena.alloc manager bytes alignment = .ok (ptr, after, manager')) :
    ∃ c, arena.chunks[arena.current]? = some c ∧
      (((alignForward c.offset alignment + bytes) % 2 ^ 64 ≤ c.capacity ∧ manager' = manager ∧
        ptr = c.data + alignForward c.offset alignment ∧ after = { arena with
          chunks := arena.chunks.set arena.current
            { c with offset := (alignForward c.offset alignment + bytes) % 2 ^ 64 } }) ∨
      (c.capacity < (alignForward c.offset alignment + bytes) % 2 ^ 64 ∧ ∃ chunk,
        newChunk manager (nextChunkSize arena bytes) = .ok (chunk, manager') ∧
        ptr = chunk.data + alignForward 0 alignment ∧ after = { arena with
          chunks := arena.chunks ++
            [{ chunk with offset := (alignForward 0 alignment + bytes) % 2 ^ 64 }]
          current := arena.current + 1 })) := by
  obtain ⟨before, c, split, place⟩ := owner.split
  have found : arena.chunks[arena.current]? = some c := by
    rw [split, place, List.getElem?_append_right (Nat.le_refl _), Nat.sub_self]
    rfl
  refine ⟨c, found, ?_⟩
  rcases Nat.lt_or_ge c.capacity ((alignForward c.offset alignment + bytes) % 2 ^ 64) with full | fits
  · rw [alloc_full arena manager bytes alignment c found full] at made
    obtain ⟨⟨chunk, grown⟩, new, rest⟩ := (Result.bind_ok _ _ _).mp made
    obtain ⟨shape, _⟩ := newChunk_spec _ chunk grown new
    have blank : chunk.offset = 0 := congrArg Chunk.offset shape
    have whole : arena.chunks.take (arena.current + 1) = arena.chunks := by
      rw [owner.last, List.take_length]
    simp only [blank, whole, Except.ok.injEq, Prod.mk.injEq] at rest
    obtain ⟨rfl, rfl, rfl⟩ := rest
    exact .inr ⟨full, chunk, new, rfl, rfl⟩
  · rw [alloc_fits arena manager bytes alignment c found fits] at made
    simp only [Except.ok.injEq, Prod.mk.injEq] at made
    obtain ⟨rfl, rfl, rfl⟩ := made
    exact .inl ⟨fits, rfl, rfl, rfl⟩

end Owner

namespace Bounded

theorem placed (bounded : Bounded reservations manager arena others)
    (reserves : Reserves reservations) (c : Chunk) (member : c ∈ arena.chunks) :
    pageSize ∣ c.data ∧ 0 < c.data ∧ c.capacity ≤ memoryChunkSize ∧ c.data + c.capacity ≤ 2 ^ 64 := by
  rw [bounded.capacity c member]
  exact bounded.within reserves c member

theorem end_apart (bounded : Bounded reservations manager arena others) (k : Nat) (c : Chunk)
    (found : arena.chunks[k]? = some c) (bytes : Nat) (room : c.offset + bytes ≤ c.capacity)
    (r : Range) (inside : arena.Inside r) : Range.Apart r ⟨c.data + c.offset, bytes⟩ := by
  obtain ⟨d, member, above, below⟩ := inside
  obtain ⟨j, at'⟩ := List.getElem?_of_mem member
  by_cases same : j = k
  · subst same
    obtain rfl : d = c := Option.some.inj (at'.symm.trans found)
    exact .inl below
  · have apart := bounded.regions_apart j k d c at' found same
    have capacity := bounded.capacity c (List.mem_of_getElem? found)
    have capacity' := bounded.capacity d member
    have fits := bounded.fits d member
    unfold PageManager.Chunk.Apart PageManager.Chunk.finish Chunk.region at apart
    unfold Range.Apart Range.finish at *
    dsimp only at *
    omega

theorem set (bounded : Bounded reservations manager arena others) (c : Chunk)
    (found : arena.chunks[arena.current]? = some c) (offset : Nat) (fits : offset ≤ c.capacity) :
    Bounded reservations manager
      { arena with chunks := arena.chunks.set arena.current { c with offset := offset } } others :=
  ⟨bounded.toOwner.set c found offset,
    set_all c offset _ bounded.capacity (bounded.capacity c (List.mem_of_getElem? found)),
    set_all c offset _ bounded.fits fits⟩

theorem grow (bounded : Bounded reservations manager arena others) (reserves : Reserves reservations)
    (size : Nat) (chunk : Chunk) (after : PageManager)
    (made : newChunk manager size = .ok (chunk, after)) (offset : Nat)
    (fits : offset ≤ chunk.capacity) :
    Bounded reservations after { arena with
      chunks := arena.chunks ++ [{ chunk with offset := offset }]
      current := arena.current + 1 } others := by
  obtain ⟨capacity, _, _⟩ := newChunk_ledger reserves.regions bounded.ledger size chunk after made
  exact ⟨bounded.toOwner.grow reserves size chunk after made offset,
    append_all _ _ bounded.capacity capacity, append_all _ _ bounded.fits fits⟩

theorem cut (bounded : Bounded reservations manager arena others) (reserves : Reserves reservations)
    (k : Nat) (c : Chunk) (found : arena.chunks[k]? = some c) (offset : Nat)
    (less : offset ≤ c.offset) (after : PageManager)
    (made : deleteChunks manager (arena.chunks.drop (k + 1)) = .ok after) :
    Bounded reservations after { arena with
      chunks := arena.chunks.take k ++ [{ c with offset := offset }]
      current := k } others := by
  have member := List.mem_of_getElem? found
  have all (property : Chunk → Prop) (old : ∀ d ∈ arena.chunks, property d)
      (new : property { c with offset := offset }) :
      ∀ d ∈ arena.chunks.take k ++ [{ c with offset := offset }], property d := by
    intro d inside
    rcases List.mem_append.mp inside with before | here
    · exact old d (List.mem_of_mem_take before)
    · exact List.mem_singleton.mp here ▸ new
  exact ⟨bounded.toOwner.cut reserves k c found offset after made,
    all _ bounded.capacity (bounded.capacity c member),
    all _ bounded.fits (Nat.le_trans less (bounded.fits c member))⟩

theorem alloc_cases (bounded : Bounded reservations manager arena others)
    (reserves : Reserves reservations) (rounds : arena.defaultSize + pageSize - 1 < 2 ^ 64)
    (bytes k : Nat) (small : bytes ≤ 2 ^ 63) (fine : k ≤ 12) (ptr : Nat) (after : Arena)
    (manager' : PageManager) (made : arena.alloc manager bytes (2 ^ k) = .ok (ptr, after, manager')) :
    (∃ c offset, arena.chunks[arena.current]? = some c ∧ c.offset ≤ offset ∧ 2 ^ k ∣ offset ∧
      (2 ^ k ∣ c.offset → offset = c.offset) ∧ offset + bytes ≤ c.capacity ∧
      ptr = c.data + offset ∧ manager' = manager ∧ after = { arena with
        chunks := arena.chunks.set arena.current { c with offset := offset + bytes } }) ∨
    (∃ size chunk, newChunk manager size = .ok (chunk, manager') ∧ chunk.offset = 0 ∧
      bytes ≤ chunk.capacity ∧ ptr = chunk.data ∧ after = { arena with
        chunks := arena.chunks ++ [{ chunk with offset := bytes }]
        current := arena.current + 1 }) := by
  obtain ⟨c, found, branches⟩ := bounded.toOwner.alloc_branches bytes (2 ^ k) ptr after manager' made
  have member := List.mem_of_getElem? found
  have reach := (bounded.placed reserves c member).2.2.1
  have fits := bounded.fits c member
  have room : c.offset ≤ 2 ^ 63 := by unfold memoryChunkSize at reach; omega
  obtain ⟨above, near, multiple⟩ := alignForward_spec c.offset k fine room
  have stays := fun aligned => alignForward_aligned c.offset k fine aligned room
  generalize alignForward c.offset (2 ^ k) = offset at *
  have sum : (offset + bytes) % 2 ^ 64 = offset + bytes :=
    Nat.mod_eq_of_lt (by unfold memoryChunkSize at reach; omega)
  rw [sum] at branches
  obtain ⟨enough, rfl, rfl, rfl⟩ | ⟨_, chunk, new, rfl, rfl⟩ := branches
  · exact .inl ⟨c, offset, found, above, multiple, stays, enough, rfl, rfl, rfl⟩
  · have next : bytes ≤ nextChunkSize arena bytes ∧ nextChunkSize arena bytes + pageSize - 1 < 2 ^ 64 := by
      unfold nextChunkSize
      split
      next default => exact ⟨default, rounds⟩
      next large => exact ⟨Nat.le_refl _, by unfold pageSize; omega⟩
    obtain ⟨blank, whole⟩ := newChunk_room _ next.2 chunk manager' new
    have zero : alignForward 0 (2 ^ k) = 0 :=
      alignForward_aligned 0 k fine (Nat.dvd_zero _) (by omega)
    rw [zero, Nat.zero_add, Nat.mod_eq_of_lt (by omega), Nat.add_zero]
    exact .inr ⟨_, chunk, new, blank, Nat.le_trans next.1 whole, rfl, rfl⟩

end Bounded

theorem Inside.set {c : Chunk} (found : arena.chunks[arena.current]? = some c) (offset : Nat)
    (more : c.offset ≤ offset) (r : Range) (inside : arena.Inside r) :
    Inside { arena with chunks := arena.chunks.set arena.current { c with offset := offset } } r := by
  obtain ⟨d, member, above, below⟩ := inside
  obtain ⟨j, at'⟩ := List.getElem?_of_mem member
  by_cases same : arena.current = j
  · subst same
    obtain rfl : d = c := Option.some.inj (at'.symm.trans found)
    obtain ⟨present, _⟩ := List.getElem?_eq_some_iff.mp found
    exact ⟨{ d with offset := offset }, List.mem_set present _, above,
      Nat.le_trans below (Nat.add_le_add_left more _)⟩
  · refine ⟨d, List.mem_of_getElem? (i := j) ?_, above, below⟩
    rw [← at']
    exact List.getElem?_set_ne same

namespace Sound

theorem request_other (sound : Sound reservations manager arena others)
    (reserves : Reserves reservations) (fuel pageCount ptr : Nat) (after : PageManager)
    (made : manager.requestPageChunk fuel pageCount = .ok (some ptr, after)) :
    Sound reservations after arena (⟨ptr, pageCount⟩ :: others) :=
  ⟨⟨sound.toOwner.request_other reserves fuel pageCount ptr after made, sound.capacity, sound.fits⟩,
    sound.aligned, sound.rounds⟩

theorem release_other (sound : Sound reservations manager arena others)
    (reserves : Reserves reservations) (c : PageManager.Chunk) (alive : c ∈ others)
    (after : PageManager) (made : manager.releasePageChunk c.ptr c.pages = .ok after) :
    Sound reservations after arena (others.erase c) :=
  ⟨⟨sound.toOwner.release_other reserves c alive after made, sound.capacity, sound.fits⟩,
    sound.aligned, sound.rounds⟩

end Sound

structure Fresh (arena after : Arena) (range : Range) : Prop where
  placed : 0 < range.start ∧ range.finish ≤ 2 ^ 64
  inside : after.Inside range
  grown : ∀ r, arena.Inside r → after.Inside r ∧ Range.Apart r range

theorem Bounded.bump_fresh (bounded : Bounded reservations manager arena others)
    (reserves : Reserves reservations) (c : Chunk) (found : arena.chunks[arena.current]? = some c)
    (offset bytes : Nat) (above : c.offset ≤ offset) (room : offset + bytes ≤ c.capacity) :
    Fresh arena { arena with
      chunks := arena.chunks.set arena.current { c with offset := offset + bytes } }
      ⟨c.data + offset, bytes⟩ := by
  obtain ⟨_, positive, _, mapped⟩ := bounded.placed reserves c (List.mem_of_getElem? found)
  have present := (List.getElem?_eq_some_iff.mp found).1
  refine ⟨⟨by dsimp only; omega, ?_⟩, ⟨_, List.mem_set present _, Nat.le_add_right _ _, ?_⟩,
    fun r inside => ⟨inside.set found _ (Nat.le_trans above (Nat.le_add_right _ _)), ?_⟩⟩
  · unfold Range.finish
    dsimp only
    omega
  · unfold Range.finish
    dsimp only
    omega
  · have apart := bounded.end_apart _ c found (offset - c.offset + bytes) (by omega) r inside
    unfold Range.Apart Range.finish at *
    dsimp only at *
    omega

theorem Bounded.grow_fresh (bounded : Bounded reservations manager arena others)
    (reserves : Reserves reservations) (size : Nat) (chunk : Chunk) (after : PageManager)
    (made : newChunk manager size = .ok (chunk, after)) (bytes : Nat) (room : bytes ≤ chunk.capacity) :
    pageSize ∣ chunk.data ∧ Fresh arena { arena with
      chunks := arena.chunks ++ [{ chunk with offset := bytes }]
      current := arena.current + 1 } ⟨chunk.data, bytes⟩ := by
  have bounded' := bounded.grow reserves size chunk after made bytes room
  -- the same chunk before its first allocation
  have blank := bounded.grow reserves size chunk after made 0 (Nat.zero_le _)
  have last : (arena.chunks ++ [{ chunk with offset := 0 }])[arena.chunks.length]? =
      some { chunk with offset := 0 } := by simp
  have at' : { chunk with offset := bytes } ∈ arena.chunks ++ [{ chunk with offset := bytes }] :=
    List.mem_append_right _ (List.mem_singleton.mpr rfl)
  obtain ⟨page, positive, _, mapped⟩ := bounded'.placed reserves _ at'
  refine ⟨page, ⟨positive, Nat.le_trans (Nat.add_le_add_left room _) mapped⟩,
    ⟨_, at', Nat.le_refl _, Nat.le_refl _⟩, ?_⟩
  rintro r ⟨d, inD, bounds⟩
  refine ⟨⟨d, List.mem_append_left _ inD, bounds⟩, ?_⟩
  exact blank.end_apart _ _ last bytes (by simpa using room) r ⟨d, List.mem_append_left _ inD, bounds⟩

theorem alloc_spec (reserves : Reserves reservations) (sound : Sound reservations manager arena others)
    (bytes k : Nat) (small : bytes ≤ 2 ^ 63) (whole : 2 ^ 4 ∣ bytes) (fine : k ≤ 4) (ptr : Nat)
    (after : Arena) (manager' : PageManager)
    (made : arena.alloc manager bytes (2 ^ k) = .ok (ptr, after, manager')) :
    Sound reservations manager' after others ∧ 2 ^ 4 ∣ ptr ∧ Fresh arena after ⟨ptr, bytes⟩ := by
  have page16 : 2 ^ 4 ∣ pageSize := by decide
  have bounded := sound.toBounded
  obtain ⟨c, offset, found, above, _, stays, room, rfl, rfl, rfl⟩ |
    ⟨size, chunk, new, fresh, room, rfl, rfl⟩ :=
    bounded.alloc_cases reserves sound.rounds bytes k small (by omega) ptr after manager' made
  · have member := List.mem_of_getElem? found
    have page := (bounded.placed reserves c member).1
    have quantum := sound.aligned c member
    obtain rfl := stays (Nat.dvd_trans (Nat.pow_dvd_pow 2 fine) quantum)
    exact ⟨⟨bounded.set c found _ room, set_all c _ _ sound.aligned (Nat.dvd_add quantum whole), sound.rounds⟩,
      Nat.dvd_add (Nat.dvd_trans page16 page) quantum, bounded.bump_fresh reserves c found _ _ above room⟩
  · obtain ⟨page, fresh⟩ := bounded.grow_fresh reserves size chunk manager' new bytes room
    exact ⟨⟨bounded.grow reserves size chunk manager' new bytes room,
      append_all _ _ sound.aligned whole, sound.rounds⟩, Nat.dvd_trans page16 page, fresh⟩

theorem renew_bounded (reserves : Reserves reservations) (size defaultSize : Nat)
    (ledger : PageManager.Ledger reservations manager others) (chunk : Chunk) (after : PageManager)
    (made : newChunk manager size = .ok (chunk, after)) :
    Bounded reservations after ⟨[chunk], 0, defaultSize⟩ others := by
  obtain ⟨capacity, blank, ledger'⟩ := newChunk_ledger reserves.regions ledger size chunk after made
  refine ⟨⟨ledger', rfl⟩, ?_, ?_⟩
  · simp [capacity]
  · simp [blank]

theorem construct_bounded (reserves : Reserves reservations) (size : Nat)
    (ledger : PageManager.Ledger reservations manager others) (after : PageManager)
    (made : construct manager size = .ok (arena, after)) :
    Bounded reservations after arena others ∧ arena.defaultSize = size ∧
      ∀ c ∈ arena.chunks, c.offset = 0 := by
  unfold construct at made
  obtain ⟨⟨chunk, grown⟩, new, rest⟩ := (Result.bind_ok _ _ _).mp made
  simp only [Except.ok.injEq, Prod.mk.injEq] at rest
  obtain ⟨rfl, rfl⟩ := rest
  obtain ⟨_, blank, _⟩ := newChunk_ledger reserves.regions ledger size chunk grown new
  exact ⟨renew_bounded reserves size size ledger chunk grown new, rfl, by simp [blank]⟩

theorem construct_sound (reserves : Reserves reservations) (size : Nat)
    (rounds : size + pageSize - 1 < 2 ^ 64)
    (ledger : PageManager.Ledger reservations manager others) (after : PageManager)
    (made : construct manager size = .ok (arena, after)) : Sound reservations after arena others := by
  obtain ⟨bounded, rfl, blank⟩ := construct_bounded reserves size ledger after made
  exact ⟨bounded, fun c member => blank c member ▸ Nat.dvd_zero _, rounds⟩

end Arena

end ElySquare
