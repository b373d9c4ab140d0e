import Mathlib.Data.List.Pairwise
import Mathlib.Data.List.Perm.Basic
import ElySquare.Shared.Run
import ElySquare.Allocators.PageScan

set_option autoImplicit false

namespace ElySquare.PageManager

open Transition

structure Chunk where
  ptr : Nat
  pages : Nat
deriving DecidableEq, Repr

namespace Chunk

def finish (c : Chunk) : Nat := c.ptr + c.pages * pageSize

def Owns (c : Chunk) (address : Nat) : Prop := c.ptr ≤ address ∧ address < c.finish

def Apart (c d : Chunk) : Prop := c.finish ≤ d.ptr ∨ d.finish ≤ c.ptr

theorem Apart.symm {c d : Chunk} (apart : Apart c d) : Apart d c := Or.symm apart

instance : Std.Symm Apart := ⟨fun _ _ => Apart.symm⟩

theorem Apart.not_owns {c d : Chunk} (apart : Apart c d) (address : Nat) (owner : c.Owns address) :
    ¬ d.Owns address := by
  unfold Apart Owns at *
  omega

theorem owns_page (base start pages idx : Nat) :
    (⟨base + start * pageSize, pages⟩ : Chunk).Owns (base + idx * pageSize) ↔
      start ≤ idx ∧ idx < start + pages := by
  unfold Owns finish pageSize
  dsimp only
  omega

end Chunk

structure Run where
  manager : PageManager
  live : List Chunk

inductive Call
  | request (pageCount : Nat)
  | release (chunk : Chunk)
deriving DecidableEq, Repr

inductive Run.Step : Run → Call → Run → Prop
  | request (s : Run) (pageCount fuel ptr : Nat) (manager : PageManager) (positive : 1 ≤ pageCount)
      (bound : pageCount ≤ cagePagesCount)
      (made : requestPageChunk fuel s.manager pageCount = .ok (some ptr, manager)) :
      Step s (.request pageCount) ⟨manager, ⟨ptr, pageCount⟩ :: s.live⟩
  | release (s : Run) (chunk : Chunk) (manager : PageManager) (alive : chunk ∈ s.live)
      (made : releasePageChunk s.manager chunk.ptr chunk.pages = .ok manager) :
      Step s (.release chunk) ⟨manager, s.live.erase chunk⟩

def system (reservations : Nat → Option Nat) : System Run Call where
  start s := ∃ manager, construct reservations = .ok manager ∧ s = ⟨manager, []⟩
  step := Run.Step

-- What reservePages promises: the regions it returns have no byte in common.
def Regions (reservations : Nat → Option Nat) : Prop :=
  ∀ j k base other, j ≠ k → reservations j = some base → reservations k = some other →
    base + memoryChunkSize ≤ other ∨ other + memoryChunkSize ≤ base

section Bits

variable (bitmap : List (BitVec 64))

theorem setPage_length (idx : Nat) : (setPage bitmap idx).length = bitmap.length := by
  simp [setPage]

theorem clearPage_length (idx : Nat) : (clearPage bitmap idx).length = bitmap.length := by
  simp [clearPage]

theorem pageBit_modify (change : BitVec 64 → BitVec 64) (idx j : Nat)
    (inside : idx < 64 * bitmap.length) :
    pageBit (bitmap.modify (idx / 64) change) j =
      if idx / 64 = j / 64 then (change (bitmap.getD (j / 64) 0#64)).getLsbD (j % 64)
      else pageBit bitmap j := by
  have present : idx / 64 < bitmap.length := by omega
  unfold pageBit
  simp only [List.getD_eq_getElem?_getD, List.getElem?_modify]
  split
  next same =>
    rw [← same, List.getElem?_eq_getElem present]
    rfl
  next different => cases bitmap[j / 64]? <;> rfl

theorem pageBit_setPage (idx j : Nat) (inside : idx < 64 * bitmap.length) :
    pageBit (setPage bitmap idx) j = (decide (j = idx) || pageBit bitmap j) := by
  unfold setPage
  rw [pageBit_modify bitmap _ idx j inside]
  split
  next same =>
    rw [BitVec.getLsbD_or, ← BitVec.twoPow_eq, BitVec.getLsbD_twoPow, Bool.or_comm]
    congr 1
    have : idx % 64 < 64 := Nat.mod_lt _ (by omega)
    simp only [this, decide_true, Bool.true_and, decide_eq_decide]
    omega
  next different =>
    have other : j ≠ idx := fun h => different (h ▸ rfl)
    simp [other]

theorem pageBit_clearPage (idx j : Nat) (inside : idx < 64 * bitmap.length) :
    pageBit (clearPage bitmap idx) j = (!decide (j = idx) && pageBit bitmap j) := by
  unfold clearPage
  rw [pageBit_modify bitmap _ idx j inside]
  split
  next same =>
    have small : j % 64 < 64 := Nat.mod_lt _ (by omega)
    have small' : idx % 64 < 64 := Nat.mod_lt _ (by omega)
    rw [BitVec.getLsbD_and, BitVec.getLsbD_not, ← BitVec.twoPow_eq, BitVec.getLsbD_twoPow,
      Bool.and_comm]
    congr 1
    simp only [small, small', decide_true, Bool.true_and, Bool.not_eq_eq_eq_not, Bool.not_not,
      decide_eq_decide]
    omega
  next different =>
    have other : j ≠ idx := fun h => different (h ▸ rfl)
    simp [other]

theorem foldl_pages (change : List (BitVec 64) → Nat → List (BitVec 64))
    (keeps : ∀ bitmap idx, (change bitmap idx).length = bitmap.length) (start count : Nat) :
    ((List.range count).foldl (fun bitmap j => change bitmap (start + j)) bitmap).length =
      bitmap.length := by
  induction count with
  | zero => rfl
  | succ count ih => rw [List.range_succ, List.foldl_append, List.foldl_cons, List.foldl_nil, keeps, ih]

theorem setPages_length (start count : Nat) : (setPages bitmap start count).length = bitmap.length :=
  foldl_pages bitmap setPage setPage_length start count

theorem clearPages_length (start count : Nat) :
    (clearPages bitmap start count).length = bitmap.length :=
  foldl_pages bitmap clearPage clearPage_length start count

theorem pageBit_setPages (start count j : Nat) (inside : start + count ≤ 64 * bitmap.length) :
    pageBit (setPages bitmap start count) j = true ↔
      (start ≤ j ∧ j < start + count) ∨ pageBit bitmap j = true := by
  induction count with
  | zero =>
      have none : ¬ (start ≤ j ∧ j < start + 0) := by omega
      simp only [none, false_or]
      rfl
  | succ count ih =>
      have step : setPages bitmap start (count + 1) =
          setPage (setPages bitmap start count) (start + count) := by
        unfold setPages
        rw [List.range_succ, List.foldl_append]
        rfl
      rw [step, pageBit_setPage _ _ _ (by rw [setPages_length]; omega), Bool.or_eq_true,
        decide_eq_true_eq, ih (by omega), ← or_assoc]
      refine or_congr_left ?_
      omega

theorem pageBit_clearPages (start count j : Nat) (inside : start + count ≤ 64 * bitmap.length) :
    pageBit (clearPages bitmap start count) j = true ↔
      ¬ (start ≤ j ∧ j < start + count) ∧ pageBit bitmap j = true := by
  induction count with
  | zero =>
      have none : ¬ (start ≤ j ∧ j < start + 0) := by omega
      simp only [none, not_false_iff, true_and]
      rfl
  | succ count ih =>
      have step : clearPages bitmap start (count + 1) =
          clearPage (clearPages bitmap start count) (start + count) := by
        unfold clearPages
        rw [List.range_succ, List.foldl_append]
        rfl
      rw [step, pageBit_clearPage _ _ _ (by rw [clearPages_length]; omega), Bool.and_eq_true,
        Bool.not_eq_true', decide_eq_false_iff_not, ih (by omega), ← and_assoc]
      refine and_congr_left fun _ => ?_
      omega

end Bits

def Placed (segment : CageSegment) (c : Chunk) : Prop :=
  ∃ start, c.ptr = segment.baseAddress + start * pageSize ∧ start + c.pages ≤ cagePagesCount

structure Ledger (reservations : Nat → Option Nat) (manager : PageManager) (live : List Chunk) :
    Prop where
  answers : manager.reservations = reservations
  last : manager.segments ≠ [] → manager.current + 1 = manager.segments.length
  words : ∀ segment ∈ manager.segments, segment.bitmap.length = bitmapWords
  bases : ∀ k segment, manager.segments[k]? = some segment →
    reservations k = some segment.baseAddress
  positive : ∀ c ∈ live, 0 < c.pages
  placed : ∀ c ∈ live, ∃ segment ∈ manager.segments, Placed segment c
  apart : live.Pairwise Chunk.Apart
  bits : ∀ segment ∈ manager.segments, ∀ idx, idx < cagePagesCount →
    (pageBit segment.bitmap idx = true ↔
      ∃ c ∈ live, c.Owns (segment.baseAddress + idx * pageSize))

theorem Placed.holds {segment : CageSegment} {c : Chunk} (placed : Placed segment c)
    (positive : 0 < c.pages) : Holds segment c.ptr := by
  obtain ⟨start, ptr, bound⟩ := placed
  unfold Holds memoryChunkSize
  unfold cagePagesCount at bound
  unfold pageSize at ptr
  omega

theorem Placed.within {segment : CageSegment} {c : Chunk} (placed : Placed segment c) :
    segment.baseAddress ≤ c.ptr ∧ c.finish ≤ segment.baseAddress + memoryChunkSize := by
  obtain ⟨start, ptr, bound⟩ := placed
  unfold Chunk.finish memoryChunkSize
  unfold cagePagesCount at bound
  unfold pageSize at *
  omega

namespace Ledger

variable {reservations : Nat → Option Nat} {manager : PageManager} {live : List Chunk}

theorem region_eq (regions : Regions reservations) (ledger : Ledger reservations manager live)
    (j k : Nat) (left right : CageSegment) (atJ : manager.segments[j]? = some left)
    (atK : manager.segments[k]? = some right) (address : Nat) (inLeft : Holds left address)
    (inRight : Holds right address) : j = k := by
  by_contra different
  have apart := regions j k _ _ different (ledger.bases j left atJ) (ledger.bases k right atK)
  unfold Holds at *
  omega

theorem owner_segment (regions : Regions reservations) (ledger : Ledger reservations manager live)
    (j k : Nat) (left right : CageSegment) (atJ : manager.segments[j]? = some left)
    (atK : manager.segments[k]? = some right) (c : Chunk) (placed : Placed left c) (idx : Nat)
    (inside : idx < cagePagesCount) (owner : c.Owns (right.baseAddress + idx * pageSize)) :
    j = k := by
  have within := placed.within
  refine ledger.region_eq regions j k left right atJ atK (right.baseAddress + idx * pageSize) ?_ ?_
  · unfold Chunk.Owns at owner
    unfold Holds
    omega
  · unfold Holds memoryChunkSize
    unfold cagePagesCount at inside
    unfold pageSize
    omega

theorem blank_bit (idx : Nat) : pageBit (List.replicate bitmapWords 0#64) idx = false := by
  simp [pageBit]

-- A fresh segment has no chunk in it, since the regions of the others miss its own.
theorem newSegment_ledger (regions : Regions reservations)
    (ledger : Ledger reservations manager live) (after : PageManager)
    (made : newSegment manager = .ok after) :
    Ledger reservations after live ∧ ∃ start,
      after.segments = manager.segments ++ [⟨start, List.replicate bitmapWords 0#64⟩] ∧
      after.current = manager.segments.length := by
  unfold newSegment at made
  rw [ledger.answers] at made
  cases answer : reservations manager.segments.length with
  | none => simp [answer] at made
  | some start =>
      simp only [answer, Except.ok.injEq] at made
      subst made
      refine ⟨⟨rfl, fun _ => by simp, ?_, ?_, ledger.positive, ?_, ledger.apart, ?_⟩, start, rfl, rfl⟩
      · intro segment member
        rcases List.mem_append.mp member with old | fresh
        · exact ledger.words segment old
        · rw [List.mem_singleton.mp fresh]
          exact List.length_replicate
      · intro k segment found
        rw [List.getElem?_append] at found
        split at found
        · exact ledger.bases k segment found
        next past =>
          obtain ⟨bound, rfl⟩ := List.getElem?_eq_some_iff.mp found
          have same : k = manager.segments.length := by
            rw [List.length_singleton] at bound
            omega
          rw [List.getElem_singleton, same]
          exact answer
      · intro c member
        obtain ⟨segment, inside, placed⟩ := ledger.placed c member
        exact ⟨segment, List.mem_append_left _ inside, placed⟩
      · intro segment member idx inside
        rcases List.mem_append.mp member with old | fresh
        · exact ledger.bits segment old idx inside
        · rw [List.mem_singleton.mp fresh]
          dsimp only
          rw [show (0 : BitVec 64) = 0#64 from rfl, blank_bit]
          refine iff_of_false Bool.noConfusion ?_
          rintro ⟨c, alive, owner⟩
          obtain ⟨home, inHome, placed⟩ := ledger.placed c alive
          obtain ⟨j, found⟩ := List.getElem?_of_mem inHome
          have earlier : j < manager.segments.length := (List.getElem?_eq_some_iff.mp found).1
          have within := placed.within
          have apart := regions j manager.segments.length _ _ (Nat.ne_of_lt earlier)
            (ledger.bases j home found) answer
          unfold Chunk.Owns at owner
          unfold memoryChunkSize at *
          unfold cagePagesCount at inside
          unfold pageSize at *
          omega

theorem construct_ledger (regions : Regions reservations) (after : PageManager)
    (made : construct reservations = .ok after) : Ledger reservations after [] := by
  have empty : Ledger reservations ⟨[], 0, reservations, []⟩ [] := by
    refine ⟨rfl, fun h => (h rfl).elim, ?_, ?_, ?_, ?_, List.Pairwise.nil, ?_⟩ <;> simp
  exact (newSegment_ledger regions empty after made).1

theorem findRun_some (pageCount k j start : Nat) (segments : List CageSegment)
    (found : findRun pageCount k segments = some (j, start)) :
    ∃ segment, segments[j - k]? = some segment ∧ k ≤ j ∧
      scanWords pageCount 0 0 0 segment.bitmap = some start := by
  induction segments generalizing k with
  | nil => simp [findRun] at found
  | cons segment rest ih =>
      unfold findRun at found
      split at found
      next first =>
        cases found
        exact ⟨segment, by simp, Nat.le_refl _, first⟩
      next =>
        obtain ⟨later, at', bound, first⟩ := ih (k + 1) found
        refine ⟨later, ?_, by omega, first⟩
        rw [show j - k = (j - (k + 1)) + 1 by omega]
        exact at'

theorem run_apart (regions : Regions reservations) (ledger : Ledger reservations manager live)
    (k start pageCount : Nat) (segment : CageSegment) (found : manager.segments[k]? = some segment)
    (free : FirstRun.Run (PageFree segment.bitmap) pageCount start)
    (nonempty : 0 < pageCount) (inside : start + pageCount ≤ cagePagesCount) (c : Chunk)
    (alive : c ∈ live) : Chunk.Apart ⟨segment.baseAddress + start * pageSize, pageCount⟩ c := by
  have member := List.mem_of_getElem? found
  obtain ⟨home, inHome, placed⟩ := ledger.placed c alive
  obtain ⟨j, foundHome⟩ := List.getElem?_of_mem inHome
  by_cases same : j = k
  · subst same
    obtain rfl : home = segment := Option.some.inj (foundHome.symm.trans found)
    obtain ⟨first, ptr, bound⟩ := placed
    have positive := ledger.positive c alive
    -- a common page would be set, as the chunk's, and clear, as the run's
    have clear (page : Nat) (inRun : start ≤ page ∧ page < start + pageCount)
        (inChunk : first ≤ page ∧ page < first + c.pages) : False := by
      have set := (ledger.bits home member page (by omega)).mpr ⟨c, alive, by
        have owner := (Chunk.owns_page home.baseAddress first c.pages page).mpr inChunk
        rwa [← ptr] at owner⟩
      rw [(free page inRun.1 inRun.2).2] at set
      cases set
    by_contra close
    unfold Chunk.Apart Chunk.finish pageSize at close
    unfold pageSize at ptr
    dsimp only at close
    exact clear (max start first) (by omega) (by omega)
  · have apart := regions j k _ _ same (ledger.bases j home foundHome) (ledger.bases k segment found)
    have within := placed.within
    unfold Chunk.Apart
    unfold Chunk.finish memoryChunkSize at *
    unfold cagePagesCount at inside
    unfold pageSize at *
    dsimp only
    omega

theorem scan_run (ledger : Ledger reservations manager live) (pageCount start : Nat)
    (positive : 0 < pageCount) (segment : CageSegment) (member : segment ∈ manager.segments)
    (scanned : scanWords pageCount 0 0 0 segment.bitmap = some start) :
    FirstRun.Run (PageFree segment.bitmap) pageCount start ∧ start + pageCount ≤ cagePagesCount := by
  have first := (scanWords_some positive start).mp scanned
  have end_ := (first.run (start + pageCount - 1) (by omega) (by omega)).1
  rw [ledger.words segment member] at end_
  refine ⟨first.run, ?_⟩
  unfold bitmapWords at end_
  unfold cagePagesCount
  omega

theorem modify_cases (segments : List CageSegment) (k : Nat) (segment : CageSegment)
    (found : segments[k]? = some segment) (change : CageSegment → CageSegment)
    (property : CageSegment → Prop) (here : property (change segment))
    (there : ∀ j other, segments[j]? = some other → j ≠ k → property other) :
    ∀ other ∈ segments.modify k change, property other := by
  intro other member
  obtain ⟨j, atJ⟩ := List.getElem?_of_mem member
  rw [List.getElem?_modify] at atJ
  by_cases same : k = j
  · subst same
    simp only [found, if_true, Option.map_eq_map, Option.map_some, Option.some.injEq] at atJ
    exact atJ ▸ here
  · simp only [if_neg same, Option.map_eq_map, Option.map_id'] at atJ
    exact there j other atJ (Ne.symm same)

theorem update_ledger (ledger : Ledger reservations manager live) (k : Nat) (segment : CageSegment)
    (found : manager.segments[k]? = some segment) (change : CageSegment → CageSegment)
    (bitmap : List (BitVec 64)) (changed : change segment = ⟨segment.baseAddress, bitmap⟩)
    (length : bitmap.length = bitmapWords) (calls : List OsCall) (live' : List Chunk)
    (positive : ∀ c ∈ live', 0 < c.pages)
    (placed : ∀ c ∈ live', ∃ segment ∈ manager.segments, Placed segment c)
    (apart : live'.Pairwise Chunk.Apart)
    (here : ∀ idx, idx < cagePagesCount → (pageBit bitmap idx = true ↔
      ∃ c ∈ live', c.Owns (segment.baseAddress + idx * pageSize)))
    (there : ∀ j other, manager.segments[j]? = some other → j ≠ k → ∀ idx, idx < cagePagesCount →
      ((∃ c ∈ live, c.Owns (other.baseAddress + idx * pageSize)) ↔
        ∃ c ∈ live', c.Owns (other.baseAddress + idx * pageSize))) :
    Ledger reservations
      { manager with segments := manager.segments.modify k change, osCalls := calls } live' := by
  have base (j : Nat) (other : CageSegment) (at' : (manager.segments.modify k change)[j]? = some other) :
      ∃ old, manager.segments[j]? = some old ∧ old.baseAddress = other.baseAddress := by
    rw [List.getElem?_modify] at at'
    by_cases same : k = j
    · subst same
      simp only [found, if_true, Option.map_eq_map, Option.map_some, Option.some.injEq, changed] at at'
      exact ⟨segment, found, at' ▸ rfl⟩
    · simp only [if_neg same, Option.map_eq_map, Option.map_id'] at at'
      exact ⟨other, at', rfl⟩
  refine ⟨ledger.answers, ?_, ?_, ?_, positive, ?_, apart, ?_⟩
  · intro nonempty
    rw [List.length_modify]
    exact ledger.last fun none => nonempty (by simp [none])
  · refine modify_cases _ k segment found _ _ ?_ fun j other at' _ =>
      ledger.words other (List.mem_of_getElem? at')
    rw [changed]
    exact length
  · intro j other at'
    obtain ⟨old, atOld, same⟩ := base j other at'
    rw [← same]
    exact ledger.bases j old atOld
  · intro c member
    obtain ⟨home, inHome, start, ptr, bound⟩ := placed c member
    obtain ⟨j, atHome⟩ := List.getElem?_of_mem inHome
    by_cases same : j = k
    · subst same
      obtain rfl : home = segment := Option.some.inj (atHome.symm.trans found)
      refine ⟨change home, List.mem_of_getElem? (i := j) ?_, start, ?_, bound⟩
      · rw [List.getElem?_modify_eq, found]
        rfl
      · rw [changed]
        exact ptr
    · refine ⟨home, List.mem_of_getElem? (i := j) ?_, start, ptr, bound⟩
      simpa only [List.getElem?_modify, if_neg (Ne.symm same), Option.map_eq_map, Option.map_id']
        using atHome
  · refine modify_cases _ k segment found _ _ ?_ fun j other at' different idx inside => ?_
    · rw [changed]
      exact here
    · rw [ledger.bits other (List.mem_of_getElem? at') idx inside]
      exact there j other at' different idx inside

theorem commit_ledger (regions : Regions reservations) (ledger : Ledger reservations manager live)
    (pageCount k start : Nat) (positive : 0 < pageCount) (segment : CageSegment)
    (found : manager.segments[k]? = some segment)
    (scanned : scanWords pageCount 0 0 0 segment.bitmap = some start) :
    Ledger reservations (commitAndReturn manager pageCount k start).2
      (⟨(commitAndReturn manager pageCount k start).1, pageCount⟩ :: live) := by
  have member := List.mem_of_getElem? found
  obtain ⟨free, inside⟩ := ledger.scan_run pageCount start positive segment member scanned
  have words := ledger.words segment member
  have room : start + pageCount ≤ 64 * segment.bitmap.length := by
    rw [words]
    exact inside
  have ptr : (commitAndReturn manager pageCount k start).1 =
      segment.baseAddress + start * pageSize := by
    simp [commitAndReturn, found]
  have chunkPlaced : Placed segment ⟨segment.baseAddress + start * pageSize, pageCount⟩ :=
    ⟨start, rfl, inside⟩
  rw [ptr]
  refine ledger.update_ledger k segment found _ (setPages segment.bitmap start pageCount) rfl
    ((setPages_length _ _ _).trans words) _ _ ?_ ?_ ?_ ?_ ?_
  · exact List.forall_mem_cons.mpr ⟨positive, ledger.positive⟩
  · exact List.forall_mem_cons.mpr ⟨⟨segment, member, chunkPlaced⟩, ledger.placed⟩
  · exact List.pairwise_cons.mpr
      ⟨ledger.run_apart regions k start pageCount segment found free positive inside, ledger.apart⟩
  · intro idx small
    rw [pageBit_setPages _ _ _ _ room, ledger.bits segment member idx small, List.exists_mem_cons_iff,
      Chunk.owns_page]
  · intro j other at' different idx small
    rw [List.exists_mem_cons_iff]
    refine (or_iff_right fun owner => different ?_).symm
    exact (ledger.owner_segment regions k j segment other found at' _ chunkPlaced idx small owner).symm

theorem request_some (fuel pageCount : Nat) (ptr : Option Nat) (after : PageManager)
    (nonzero : pageCount ≠ 0) (made : requestPageChunk fuel manager pageCount = .ok (ptr, after)) :
    ∃ address, ptr = some address := by
  induction fuel generalizing manager with
  | zero => simp [requestPageChunk] at made
  | succ fuel ih =>
      rcases request_cases made with ⟨zero, _⟩ | ⟨_, _, _, _, found, _⟩ | ⟨_, grown, _, again⟩
      · exact (nonzero zero).elim
      · exact ⟨_, found⟩
      · exact ih again

theorem request_ledger (regions : Regions reservations) (ledger : Ledger reservations manager live)
    (fuel pageCount ptr : Nat) (after : PageManager)
    (made : requestPageChunk fuel manager pageCount = .ok (some ptr, after)) :
    Ledger reservations after (⟨ptr, pageCount⟩ :: live) ∧
      manager.segments.length ≤ after.segments.length ∧
      after.segments.length ≤ manager.segments.length + fuel := by
  induction fuel generalizing manager with
  | zero => simp [requestPageChunk] at made
  | succ fuel ih =>
      rcases request_cases made with
        ⟨_, none, _⟩ | ⟨nonzero, k, start, run, found, rfl⟩ | ⟨_, grown, new, again⟩
      · cases none
      · cases found
        obtain ⟨segment, at', later, scanned⟩ := findRun_some _ _ _ _ _ run
        rw [List.getElem?_drop, Nat.add_sub_cancel' later] at at'
        refine ⟨ledger.commit_ledger regions pageCount k start (Nat.pos_of_ne_zero nonzero) segment at'
          scanned, ?_, ?_⟩ <;> simp [commitAndReturn]
      · obtain ⟨ledger', start, segments, _⟩ := newSegment_ledger regions ledger grown new
        obtain ⟨ledger'', more, few⟩ := ih ledger' again
        rw [segments, List.length_append, List.length_singleton] at more few
        exact ⟨ledger'', by omega, by omega⟩

-- A fresh segment serves every request of at most its size, so one new segment is enough.
theorem request_returns (regions : Regions reservations) (ledger : Ledger reservations manager live)
    (fuel pageCount : Nat) (positive : 0 < pageCount) (bound : pageCount ≤ cagePagesCount)
    (answered : reservations manager.segments.length ≠ none) :
    ∃ ptr after, requestPageChunk (fuel + 2) manager pageCount = .ok (some ptr, after) := by
  have nonzero : pageCount ≠ 0 := Nat.ne_of_gt positive
  unfold requestPageChunk
  rw [if_neg nonzero]
  cases findRun pageCount manager.current (manager.segments.drop manager.current) with
  | some place => exact ⟨_, _, rfl⟩
  | none =>
      obtain ⟨base, answer⟩ := Option.ne_none_iff_exists'.mp answered
      have new : ∃ grown, newSegment manager = .ok grown := by
        unfold newSegment
        rw [ledger.answers, answer]
        exact ⟨_, rfl⟩
      obtain ⟨grown, new⟩ := new
      obtain ⟨_, start, segments, current⟩ := newSegment_ledger regions ledger grown new
      have serves : scanWords pageCount 0 0 0 (List.replicate bitmapWords 0#64) ≠ none := by
        intro none
        refine (scanWords_none positive).mp none 0 fun j _ small => ⟨?_, blank_bit j⟩
        rw [List.length_replicate]
        unfold bitmapWords
        unfold cagePagesCount at bound
        omega
      obtain ⟨first, scanned⟩ := Option.ne_none_iff_exists'.mp serves
      have tail : grown.segments.drop grown.current =
          [⟨start, List.replicate bitmapWords 0#64⟩] := by
        rw [segments, current, List.drop_left]
      simp only [new, Result.ok_bind]
      unfold requestPageChunk
      rw [if_neg nonzero, tail]
      simp only [findRun, scanned]
      exact ⟨_, _, rfl⟩

theorem release_spec (regions : Regions reservations) (ledger : Ledger reservations manager live)
    (c : Chunk) (alive : c ∈ live) : ∃ after,
      releasePageChunk manager c.ptr c.pages = .ok after ∧
      Ledger reservations after (live.erase c) ∧
      after.segments.length = manager.segments.length := by
  obtain ⟨segment, member, placed⟩ := ledger.placed c alive
  obtain ⟨k, found⟩ := List.getElem?_of_mem member
  have positive := ledger.positive c alive
  have holds := placed.holds positive
  have located : manager.segments.findIdx? (fun segment => Holds segment c.ptr) = some k := by
    obtain ⟨inside, rfl⟩ := List.getElem?_eq_some_iff.mp found
    refine List.findIdx?_eq_some_iff_getElem.mpr ⟨inside, by simpa using holds, fun j earlier => ?_⟩
    have other : manager.segments[j]? = some manager.segments[j] := List.getElem?_eq_getElem _
    have different := Nat.ne_of_lt earlier
    simpa using fun also => different (ledger.region_eq regions j k _ _ other found c.ptr also holds)
  obtain ⟨start, ptr, bound⟩ := placed
  have first : (c.ptr - segment.baseAddress) / pageSize = start := by
    rw [ptr, Nat.add_sub_cancel_left]
    exact Nat.mul_div_cancel _ (by decide)
  have words := ledger.words segment member
  have room : start + c.pages ≤ 64 * segment.bitmap.length := by
    rw [words]
    exact bound
  have sorted : (c :: live.erase c).Pairwise Chunk.Apart :=
    ((List.perm_cons_erase alive).pairwise_iff Chunk.Apart.symm).mp ledger.apart
  obtain ⟨others, apart⟩ := List.pairwise_cons.mp sorted
  have owners (address : Nat) : (∃ d ∈ live, d.Owns address) ↔
      c.Owns address ∨ ∃ d ∈ live.erase c, d.Owns address := by
    have split := List.exists_mem_cons_iff (fun d : Chunk => d.Owns address) c (live.erase c)
    rw [← split]
    exact exists_congr fun d => and_congr_left fun _ => (List.perm_cons_erase alive).mem_iff
  have kept (d : Chunk) (inside : d ∈ live.erase c) : d ∈ live := List.mem_of_mem_erase inside
  refine ⟨_, by rw [releasePageChunk, located], ?_, by simp⟩
  refine ledger.update_ledger k segment found _ (clearPages segment.bitmap start c.pages)
    (by rw [first]) ((clearPages_length _ _ _).trans words) _ _
    (fun d inside => ledger.positive d (kept d inside))
    (fun d inside => ledger.placed d (kept d inside)) apart ?_ ?_
  · intro idx small
    have page := Chunk.owns_page segment.baseAddress start c.pages idx
    rw [← ptr] at page
    rw [pageBit_clearPages _ _ _ _ room, ledger.bits segment member idx small, owners, ← page]
    constructor
    · rintro ⟨notC, owned | other⟩
      · exact (notC owned).elim
      · exact other
    · rintro ⟨d, inside, owner⟩
      exact ⟨fun owned => (others d inside).not_owns _ owned owner, .inr ⟨d, inside, owner⟩⟩
  · intro j other at' different idx small
    rw [owners]
    refine or_iff_right fun owner => different ?_
    exact (ledger.owner_segment regions k j segment other found at' c ⟨start, ptr, bound⟩ idx small
      owner).symm

theorem perm (ledger : Ledger reservations manager live) (live' : List Chunk)
    (same : live.Perm live') : Ledger reservations manager live' := by
  refine ⟨ledger.answers, ledger.last, ledger.words, ledger.bases,
    fun c member => ledger.positive c (same.mem_iff.mpr member),
    fun c member => ledger.placed c (same.mem_iff.mpr member),
    (same.pairwise_iff Chunk.Apart.symm).mp ledger.apart, fun segment member idx small => ?_⟩
  rw [ledger.bits segment member idx small]
  exact exists_congr fun c => and_congr_left fun _ => same.mem_iff

theorem segment_eq {manager' : PageManager} {live' : List Chunk}
    (ledger : Ledger reservations manager live) (ledger' : Ledger reservations manager' live')
    (same : ∀ c, c ∈ live ↔ c ∈ live') (k : Nat) (segment segment' : CageSegment)
    (found : manager.segments[k]? = some segment) (found' : manager'.segments[k]? = some segment') :
    segment = segment' := by
  have member := List.mem_of_getElem? found
  have member' := List.mem_of_getElem? found'
  have base : segment.baseAddress = segment'.baseAddress :=
    Option.some.inj ((ledger.bases k segment found).symm.trans (ledger'.bases k segment' found'))
  have words := ledger.words segment member
  have words' := ledger'.words segment' member'
  have bitmap : segment.bitmap = segment'.bitmap := by
    refine bitmap_ext _ _ (words.trans words'.symm) fun idx => ?_
    rcases Nat.lt_or_ge idx cagePagesCount with small | large
    · rw [Bool.eq_iff_iff, ledger.bits segment member idx small,
        ledger'.bits segment' member' idx small, base]
      exact exists_congr fun c => and_congr_left fun _ => same c
    · rw [pageBit_outside _ idx (by rw [words]; exact large),
        pageBit_outside _ idx (by rw [words']; exact large)]
  cases segment
  cases segment'
  simp_all

end Ledger

theorem ledger_of_reachable (reservations : Nat → Option Nat) (regions : Regions reservations)
    (s : Run) (reached : (system reservations).Reachable s) :
    Ledger reservations s.manager s.live := by
  refine System.invariant _ (fun s => Ledger reservations s.manager s.live) ?_ ?_ reached
  · rintro s ⟨manager, made, rfl⟩
    exact Ledger.construct_ledger regions manager made
  · rintro s call t ledger taken
    cases taken with
    | request n fuel ptr manager positive bound made =>
        exact (ledger.request_ledger regions fuel n ptr manager made).1
    | release c manager alive made =>
        obtain ⟨after, done, ledger', _⟩ := ledger.release_spec regions c alive
        rw [made] at done
        cases done
        exact ledger'

structure Owned (s : Run) : Prop where
  apart : s.live.Pairwise Chunk.Apart
  inside : ∀ c ∈ s.live, 0 < c.pages ∧ ∃ segment ∈ s.manager.segments,
    segment.baseAddress ≤ c.ptr ∧ c.finish ≤ segment.baseAddress + memoryChunkSize
  bits : ∀ segment ∈ s.manager.segments, segment.bitmap.length = bitmapWords ∧
    ∀ idx, idx < cagePagesCount → (pageBit segment.bitmap idx = true ↔
      ∃! c, c ∈ s.live ∧ c.Owns (segment.baseAddress + idx * pageSize))

theorem Ledger.owned {reservations : Nat → Option Nat} {s : Run}
    (ledger : Ledger reservations s.manager s.live) : Owned s := by
  refine ⟨ledger.apart, fun c alive => ?_, fun segment member =>
    ⟨ledger.words segment member, fun idx small => ?_⟩⟩
  · obtain ⟨segment, member, placed⟩ := ledger.placed c alive
    exact ⟨ledger.positive c alive, segment, member, placed.within⟩
  · rw [ledger.bits segment member idx small]
    constructor
    · rintro ⟨c, alive, owner⟩
      refine ⟨c, ⟨alive, owner⟩, ?_⟩
      rintro d ⟨alive', owner'⟩
      by_contra different
      have apart := ledger.apart.forall alive' alive different
      exact apart.not_owns _ owner' owner
    · rintro ⟨c, ⟨alive, owner⟩, _⟩
      exact ⟨c, alive, owner⟩

theorem page_ownership (reservations : Nat → Option Nat) (regions : Regions reservations) (s : Run)
    (reached : (system reservations).Reachable s) :
    Owned s ∧
    ∀ pageCount t, Run.Step s (.request pageCount) t → ∃ (chunk : Chunk) (after : PageManager),
      t.live = chunk :: s.live ∧
      releasePageChunk t.manager chunk.ptr pageCount = .ok after ∧
      ∀ (k : Nat) (segment : CageSegment), s.manager.segments[k]? = some segment →
        after.segments[k]? = some segment := by
  have ledger := ledger_of_reachable reservations regions s reached
  refine ⟨ledger.owned, fun pageCount t taken => ?_⟩
  cases taken with
  | request _ fuel ptr manager positive bound made =>
      obtain ⟨ledger', more, _⟩ := ledger.request_ledger regions fuel pageCount ptr manager made
      obtain ⟨after, released, ledger'', length⟩ :=
        ledger'.release_spec regions ⟨ptr, pageCount⟩ List.mem_cons_self
      rw [List.erase_cons_head] at ledger''
      refine ⟨_, after, rfl, released, fun k segment found => ?_⟩
      have present := (List.getElem?_eq_some_iff.mp found).1
      have still : k < after.segments.length := by omega
      have found' : after.segments[k]? = some after.segments[k] := List.getElem?_eq_getElem _
      rw [found', ledger.segment_eq ledger'' (fun _ => Iff.rfl) k segment _ found found']

def rowOfRegions (k : Nat) : Option Nat :=
  if k + 2 ≤ 2 ^ 31 then some ((k + 1) * memoryChunkSize) else none

theorem rowOfRegions_eq (k base : Nat) (answer : rowOfRegions k = some base) :
    base = (k + 1) * memoryChunkSize ∧ k + 2 ≤ 2 ^ 31 := by
  unfold rowOfRegions at answer
  split at answer
  next small => exact ⟨(Option.some.inj answer).symm, small⟩
  next => cases answer

theorem rowOfRegions_regions : Regions rowOfRegions := by
  intro j k base other different left right
  obtain ⟨rfl, _⟩ := rowOfRegions_eq j base left
  obtain ⟨rfl, _⟩ := rowOfRegions_eq k other right
  unfold memoryChunkSize
  omega

theorem rowOfRegions_construct :
    ∃ manager, construct rowOfRegions = .ok manager ∧ manager.segments.length = 1 :=
  ⟨_, rfl, rfl⟩

theorem page_ownership_row : ∃ s, (system rowOfRegions).Reachable s ∧ s.live ≠ [] ∧ Owned s := by
  obtain ⟨manager, first, one⟩ := rowOfRegions_construct
  have start : (system rowOfRegions).Reachable ⟨manager, []⟩ := .start ⟨_, first, rfl⟩
  have ledger := ledger_of_reachable rowOfRegions rowOfRegions_regions _ start
  obtain ⟨ptr, after, made⟩ := ledger.request_returns rowOfRegions_regions 0 3 (by decide) (by decide)
    (by rw [one]; exact Option.some_ne_none _)
  have reached : (system rowOfRegions).Reachable ⟨after, [⟨ptr, 3⟩]⟩ :=
    .step start (.request _ 3 2 ptr after (by decide) (by decide) made)
  exact ⟨_, reached, List.cons_ne_nil _ _,
    (page_ownership rowOfRegions rowOfRegions_regions _ reached).1⟩

end ElySquare.PageManager
