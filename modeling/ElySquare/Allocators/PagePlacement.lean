import ElySquare.Shared.FirstFit
import ElySquare.Shared.Simulation
import ElySquare.Allocators.PageSegments

set_option autoImplicit false

namespace ElySquare.PageManager

open Transition

def spanOf (manager : PageManager) (c : Chunk) : FirstFit.Span :=
  let k := manager.segments.findIdx fun segment => Holds segment c.ptr
  ⟨k, (c.ptr - (manager.segments[k]?).elim 0 CageSegment.baseAddress) / pageSize, c.pages⟩

def Call.order (s : Run) : Call → FirstFit.Order
  | .request pageCount => .request pageCount
  | .release chunk => .release (spanOf s.manager chunk)

structure Places (s : Run) (f : FirstFit cagePagesCount) : Prop where
  newest : f.newest = s.manager.current
  held : f.held = s.live.map (spanOf s.manager)

namespace Ledger

variable {reservations : Nat → Option Nat} {manager : PageManager} {live : List Chunk}

theorem spanOf_eq (regions : Regions reservations) (ledger : Ledger reservations manager live)
    (k : Nat) (segment : CageSegment) (found : manager.segments[k]? = some segment) (start : Nat)
    (c : Chunk) (ptr : c.ptr = segment.baseAddress + start * pageSize) (positive : 0 < c.pages)
    (bound : start + c.pages ≤ cagePagesCount) : spanOf manager c = ⟨k, start, c.pages⟩ := by
  have holds := Placed.holds ⟨start, ptr, bound⟩ positive
  obtain ⟨inside, rfl⟩ := List.getElem?_eq_some_iff.mp found
  have located : (manager.segments.findIdx fun segment => Holds segment c.ptr) = k := by
    refine (List.findIdx_eq inside).mpr ⟨by simpa using holds, fun j earlier => ?_⟩
    have other : manager.segments[j]? = some manager.segments[j] := List.getElem?_eq_getElem _
    have different := Nat.ne_of_lt earlier
    simpa using fun also => different (ledger.region_eq regions j k _ _ other found c.ptr also holds)
  unfold spanOf
  dsimp only
  rw [located, found, Option.elim_some, ptr, Nat.add_sub_cancel_left,
    Nat.mul_div_cancel _ (by decide : 0 < pageSize)]

theorem spanned (regions : Regions reservations) (ledger : Ledger reservations manager live)
    (c : Chunk) (alive : c ∈ live) : ∃ k segment start, manager.segments[k]? = some segment ∧
      c.ptr = segment.baseAddress + start * pageSize ∧ start + c.pages ≤ cagePagesCount ∧
        spanOf manager c = ⟨k, start, c.pages⟩ := by
  obtain ⟨segment, member, start, ptr, bound⟩ := ledger.placed c alive
  obtain ⟨k, found⟩ := List.getElem?_of_mem member
  exact ⟨k, segment, start, found, ptr, bound,
    ledger.spanOf_eq regions k segment found start c ptr (ledger.positive c alive) bound⟩

theorem covers_iff (regions : Regions reservations) (ledger : Ledger reservations manager live)
    (c : Chunk) (alive : c ∈ live) (k : Nat) (segment : CageSegment)
    (found : manager.segments[k]? = some segment) (p : Nat) (small : p < cagePagesCount) :
    (spanOf manager c).Covers k p ↔ c.Owns (segment.baseAddress + p * pageSize) := by
  obtain ⟨j, other, start, at', ptr, bound, same⟩ := ledger.spanned regions c alive
  have page := Chunk.owns_page other.baseAddress start c.pages p
  rw [← ptr] at page
  rw [same]
  unfold FirstFit.Span.Covers
  dsimp only
  constructor
  · rintro ⟨rfl, within⟩
    cases at'.symm.trans found
    exact page.mpr within
  · intro owner
    obtain rfl := ledger.owner_segment regions j k other segment at' found c ⟨start, ptr, bound⟩ p small owner
    cases at'.symm.trans found
    exact ⟨rfl, page.mp owner⟩

theorem spanOf_grown (regions : Regions reservations) (ledger : Ledger reservations manager live)
    {manager' : PageManager} {live' : List Chunk} (ledger' : Ledger reservations manager' live')
    (more : manager.segments.length ≤ manager'.segments.length) (c : Chunk) (alive : c ∈ live) :
    spanOf manager' c = spanOf manager c := by
  obtain ⟨k, segment, start, found, ptr, bound, same⟩ := ledger.spanned regions c alive
  have inside := (List.getElem?_eq_some_iff.mp found).1
  have found' : manager'.segments[k]? = some manager'.segments[k] := List.getElem?_eq_getElem (by omega)
  have base : segment.baseAddress = manager'.segments[k].baseAddress :=
    Option.some.inj ((ledger.bases k segment found).symm.trans (ledger'.bases k _ found'))
  rw [same, ledger'.spanOf_eq regions k _ found' start c (base ▸ ptr) (ledger.positive c alive) bound]

theorem spans_apart (regions : Regions reservations) (ledger : Ledger reservations manager live) :
    (live.map (spanOf manager)).Pairwise FirstFit.Span.Apart := by
  refine List.pairwise_map.mpr (ledger.apart.imp_of_mem fun {c d} aliveC aliveD apart => ?_)
  intro k p inC inD
  obtain ⟨j, segment, start, found, _, bound, same⟩ := ledger.spanned regions c aliveC
  have within := inC
  rw [same] at within
  obtain ⟨rfl, low, high⟩ := within
  have small : p < cagePagesCount := Nat.lt_of_lt_of_le high bound
  exact apart.not_owns _ ((ledger.covers_iff regions c aliveC j segment found p small).mp inC)
    ((ledger.covers_iff regions d aliveD j segment found p small).mp inD)

theorem places (regions : Regions reservations) (s : Run) (ledger : Ledger reservations s.manager s.live)
    (lined : Lined reservations s.manager) : ∃ f : FirstFit cagePagesCount, Places s f := by
  refine ⟨⟨s.manager.current, s.live.map (spanOf s.manager), fun span member => ?_,
    ledger.spans_apart regions⟩, rfl, rfl⟩
  obtain ⟨c, alive, rfl⟩ := List.mem_map.mp member
  obtain ⟨k, segment, start, found, _, bound, same⟩ := ledger.spanned regions c alive
  have inside := (List.getElem?_eq_some_iff.mp found).1
  have last := lined.last
  rw [same]
  exact ⟨show k ≤ s.manager.current by omega, ledger.positive c alive, bound⟩

end Ledger

section Steps

variable {reservations : Nat → Option Nat} {s t : Run} {f g : FirstFit cagePagesCount}

theorem Places.free_eq (regions : Regions reservations) (ledger : Ledger reservations s.manager s.live)
    (places : Places s f) (segment : CageSegment)
    (here : s.manager.segments[s.manager.current]? = some segment) :
    f.Free f.newest = PageFree segment.bitmap := by
  have member := List.mem_of_getElem? here
  have words := ledger.words segment member
  have pages : 64 * segment.bitmap.length = cagePagesCount := by
    rw [words]
    rfl
  funext p
  unfold FirstFit.Free PageFree
  rw [pages, places.newest, places.held, ← Bool.not_eq_true]
  refine propext (and_congr_right fun small => ?_)
  rw [ledger.bits segment member p small]
  constructor
  · rintro free ⟨c, alive, owner⟩
    exact free _ (List.mem_map_of_mem alive)
      ((ledger.covers_iff regions c alive _ segment here p small).mpr owner)
  · rintro none span held covers
    obtain ⟨c, alive, rfl⟩ := List.mem_map.mp held
    exact none ⟨c, alive, (ledger.covers_iff regions c alive _ segment here p small).mp covers⟩

theorem Lined.request_place {manager : PageManager} (lined : Lined reservations manager)
    (fuel pageCount ptr : Nat) (after : PageManager) (positive : 1 ≤ pageCount)
    (bound : pageCount ≤ cagePagesCount) (segment : CageSegment)
    (here : manager.segments[manager.current]? = some segment)
    (made : requestPageChunk fuel manager pageCount = .ok (some ptr, after)) :
    (after.current = manager.current ∧ after.segments.length = manager.segments.length ∧ ∃ start,
      FirstRun.First (PageFree segment.bitmap) pageCount start ∧
        ptr = segment.baseAddress + start * pageSize) ∨
    (after.current = manager.current + 1 ∧ after.segments.length = manager.segments.length + 1 ∧
      (∀ start, ¬ FirstRun.Run (PageFree segment.bitmap) pageCount start) ∧
        reservations after.current = some ptr) := by
  cases fuel with
  | zero => cases made
  | succ fuel =>
      by_cases room : HasRun segment pageCount
      · obtain ⟨start, scanned⟩ := (scanned_iff pageCount positive segment).mpr room
        rw [request_here lined fuel pageCount start positive segment here scanned] at made
        cases made
        exact .inl ⟨rfl, by simp [commitAndReturn], start, (scanWords_some positive start).mp scanned, rfl⟩
      · rw [request_elsewhere lined fuel pageCount positive segment here room] at made
        obtain ⟨grown, new, again⟩ := (Result.bind_ok _ _ _).mp made
        obtain ⟨lined', more⟩ := Lined.grown lined.answers lined.words new
        obtain ⟨base, answer⟩ := newSegment_some manager grown new
        rw [newSegment_eq manager base answer] at new
        cases new
        cases fuel with
        | zero => cases again
        | succ fuel =>
            have last : (manager.segments ++
                [(⟨base, List.replicate bitmapWords 0#64⟩ : CageSegment)])[manager.segments.length]? =
                  some ⟨base, List.replicate bitmapWords 0#64⟩ := List.getElem?_concat_length
            rw [request_here lined' fuel pageCount 0 positive _ last
              (blank_scan pageCount positive bound)] at again
            cases again
            refine .inr ⟨lined.last.symm, by simp [commitAndReturn], fun start run => room ⟨start, run⟩, ?_⟩
            rw [← lined.answers, Nat.zero_mul]
            exact answer

theorem Ledger.newest_span {manager : PageManager} {live : List Chunk} (regions : Regions reservations)
    (ledger : Ledger reservations manager live) (k base start : Nat) (c : Chunk) (alive : c ∈ live)
    (inside : k < manager.segments.length) (answer : reservations k = some base)
    (ptr : c.ptr = base + start * pageSize) (bound : start + c.pages ≤ cagePagesCount) :
    spanOf manager c = ⟨k, start, c.pages⟩ := by
  have found : manager.segments[k]? = some manager.segments[k] := List.getElem?_eq_getElem inside
  obtain rfl := Option.some.inj (answer.symm.trans (ledger.bases k _ found))
  exact ledger.spanOf_eq regions k _ found start c ptr (ledger.positive c alive) bound

theorem Places.step (regions : Regions reservations) (ledger : Ledger reservations s.manager s.live)
    (lined : Lined reservations s.manager) (places : Places s f) (call : Call) (taken : Run.Step s call t)
    (places' : Places t g) : FirstFit.Step f (call.order s) g := by
  cases taken with
  | request pageCount fuel ptr after positive bound made =>
      obtain ⟨segment, here, _⟩ := lined.current_drop
      have words := lined.words segment (List.mem_of_getElem? here)
      obtain ⟨ledger', more, _⟩ := ledger.request_ledger regions fuel pageCount ptr after made
      have kept : s.live.map (spanOf after) = f.held := places.held ▸
        List.map_congr_left fun c alive => ledger.spanOf_grown regions ledger' more c alive
      have free := places.free_eq regions ledger segment here
      have last := lined.last
      obtain ⟨newest, held⟩ := places'
      rw [List.map_cons, kept] at held
      obtain ⟨current, length, start, first, place⟩ | ⟨current, length, full, place⟩ :=
        lined.request_place fuel pageCount ptr after positive bound segment here made
      · have fits : start + pageCount ≤ cagePagesCount := by
          have free := (first.run (start + pageCount - 1) (by omega) (by omega)).1
          rw [words] at free
          unfold bitmapWords at free
          unfold cagePagesCount
          omega
        rw [ledger'.newest_span regions s.manager.current _ start ⟨ptr, pageCount⟩ List.mem_cons_self
          (by omega) (ledger.bases _ segment here) place fits, ← places.newest] at held
        exact .fit _ _ _ start (free ▸ first) (by rw [newest, current, places.newest]) held
      · rw [ledger'.newest_span regions after.current ptr 0 ⟨ptr, pageCount⟩ List.mem_cons_self (by omega)
          place (by rw [Nat.zero_mul]; rfl) (by rw [Nat.zero_add]; exact bound), current,
          ← places.newest] at held
        exact .grow _ _ _ (free ▸ full) (by rw [newest, current, places.newest]) held
  | release c after alive made =>
      obtain ⟨after', done, ledger', length⟩ := ledger.release_spec regions c alive
      cases made.symm.trans done
      have current : after.current = s.manager.current := by
        unfold releasePageChunk at made
        split at made
        · cases made
        · cases made
          rfl
      refine .release _ _ _ (by rw [places'.newest, current, places.newest]) ?_
      rw [places.held, places'.held]
      have same : (s.live.erase c).map (spanOf after) = (s.live.erase c).map (spanOf s.manager) := by
        refine List.map_congr_left fun d inside => ?_
        exact ledger.spanOf_grown regions ledger' (Nat.le_of_eq length.symm) d (List.mem_of_mem_erase inside)
      rw [same]
      exact (List.perm_cons_erase alive).map _

end Steps

section Runs

variable {reservations : Nat → Option Nat}

theorem Ledger.lined {manager : PageManager} {live : List Chunk} (ledger : Ledger reservations manager live)
    {before : PageManager} (lined : Lined reservations before)
    (more : before.segments.length ≤ manager.segments.length) : Lined reservations manager := by
  have last := lined.last
  refine ⟨ledger.answers, ledger.last fun none => ?_, ledger.words⟩
  rw [none, List.length_nil] at more
  omega

theorem pages_simulate (regions : Regions reservations) :
    (system reservations).Simulates (FirstFit.system cagePagesCount)
      (fun s f => Ledger reservations s.manager s.live ∧ Lined reservations s.manager ∧ Places s f)
      (fun s call => call.order s) where
  start := by
    rintro s ⟨manager, made, rfl⟩
    have ledger := Ledger.construct_ledger regions manager made
    have lined := lined_of_reachable reservations manager (.start made)
    obtain ⟨f, newest, held⟩ := ledger.places regions ⟨manager, []⟩ lined
    refine ⟨f, ⟨?_, held⟩, ledger, lined, newest, held⟩
    obtain ⟨base, answer⟩ := newSegment_some _ manager made
    unfold construct at made
    rw [newSegment_eq _ base answer] at made
    cases made
    exact newest
  step := by
    rintro s f call t ⟨ledger, lined, places⟩ taken
    have later : Ledger reservations t.manager t.live ∧
        s.manager.segments.length ≤ t.manager.segments.length := by
      cases taken with
      | request pageCount fuel ptr after positive bound made =>
          obtain ⟨ledger', more, _⟩ := ledger.request_ledger regions fuel pageCount ptr after made
          exact ⟨ledger', more⟩
      | release c after alive made =>
          obtain ⟨after', done, ledger', length⟩ := ledger.release_spec regions c alive
          cases made.symm.trans done
          exact ⟨ledger', Nat.le_of_eq length.symm⟩
    have lined' := later.1.lined lined later.2
    obtain ⟨g, places'⟩ := later.1.places regions t lined'
    exact ⟨g, places.step regions ledger lined call taken places', later.1, lined', places'⟩

theorem pages_first_fit (regions : Regions reservations) (s : Run)
    (reached : (system reservations).Reachable s) : ∃ f : FirstFit cagePagesCount,
    (FirstFit.system cagePagesCount).Reachable f ∧ Places s f ∧
      (∀ c ∈ s.live, ∃ base, reservations (spanOf s.manager c).region = some base ∧
        c.ptr = base + (spanOf s.manager c).start * pageSize) ∧
      ∀ call t, Run.Step s call t → ∃ g, FirstFit.Step f (call.order s) g ∧ Places t g ∧
        ∀ pageCount, call = .request pageCount →
          t.manager.segments.length ≠ s.manager.segments.length →
            cagePagesCount / pageCount ≤ f.heldIn f.newest := by
  have simulates := pages_simulate regions
  obtain ⟨f, made, ledger, lined, places⟩ := simulates.reachable reached
  refine ⟨f, made, places, fun c alive => ?_, fun call t taken => ?_⟩
  · obtain ⟨k, segment, start, found, ptr, _, same⟩ := ledger.spanned regions c alive
    rw [same]
    exact ⟨segment.baseAddress, ledger.bases k segment found, ptr⟩
  · obtain ⟨g, step, _, lined', places'⟩ := simulates.step s f call t ⟨ledger, lined, places⟩ taken
    refine ⟨g, step, places', ?_⟩
    rintro pageCount rfl grown
    refine step.crowded fun same => grown ?_
    rw [places'.newest, places.newest] at same
    rw [← lined'.last, ← lined.last, same]

theorem pages_first_fit_row : ∃ (s t : Run) (f g : FirstFit cagePagesCount),
    (system rowOfRegions).Reachable s ∧ Run.Step s (.request 3) t ∧ Places s f ∧ Places t g ∧
      FirstFit.Step f (.request 3) g := by
  obtain ⟨manager, first, one⟩ := rowOfRegions_construct
  have started : (system rowOfRegions).Reachable ⟨manager, []⟩ := .start ⟨_, first, rfl⟩
  have ledger := ledger_of_reachable rowOfRegions rowOfRegions_regions _ started
  obtain ⟨ptr, after, made⟩ := ledger.request_returns rowOfRegions_regions 0 3 (by decide) (by decide)
    (by rw [one]; exact Option.some_ne_none _)
  have taken := Run.Step.request ⟨manager, []⟩ 3 2 ptr after (by decide) (by decide) made
  obtain ⟨f, _, places, _, steps⟩ := pages_first_fit rowOfRegions_regions _ started
  obtain ⟨g, step, places', _⟩ := steps _ _ taken
  exact ⟨_, _, f, g, started, taken, places, places', step⟩

end Runs

end ElySquare.PageManager
