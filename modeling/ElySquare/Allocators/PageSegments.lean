import ElySquare.Allocators.PageOwnership

set_option autoImplicit false

namespace ElySquare.PageManager

open Transition

inductive Handles : PageManager → Call → PageManager → Prop
  | request (manager : PageManager) (pageCount fuel : Nat) (ptr : Option Nat) (after : PageManager)
      (made : requestPageChunk fuel manager pageCount = .ok (ptr, after)) :
      Handles manager (.request pageCount) after
  | release (manager : PageManager) (chunk : Chunk) (segment : CageSegment) (after : PageManager)
      (owner : manager.segments.find? (fun segment => Holds segment chunk.ptr) = some segment)
      (within : chunk.finish ≤ segment.baseAddress + memoryChunkSize)
      (made : releasePageChunk manager chunk.ptr chunk.pages = .ok after) :
      Handles manager (.release chunk) after

def serving (reservations : Nat → Option Nat) : System PageManager Call where
  start manager := construct reservations = .ok manager
  step := Handles

def HasRun (segment : CageSegment) (pageCount : Nat) : Prop :=
  ∃ start, FirstRun.Run (PageFree segment.bitmap) pageCount start

/-- The segment that `current` points to is the last of the list, whatever is released. -/
structure Lined (reservations : Nat → Option Nat) (manager : PageManager) : Prop where
  answers : manager.reservations = reservations
  last : manager.current + 1 = manager.segments.length
  words : ∀ segment ∈ manager.segments, segment.bitmap.length = bitmapWords

theorem HasRun.bound {segment : CageSegment} {pageCount : Nat}
    (words : segment.bitmap.length = bitmapWords) (run : HasRun segment pageCount) :
    pageCount ≤ cagePagesCount := by
  by_contra more
  obtain ⟨start, run⟩ := run
  have last := (run (start + pageCount - 1) (by omega) (by omega)).1
  rw [words] at last
  unfold bitmapWords at last
  unfold cagePagesCount at more
  omega

theorem blank_run (pageCount : Nat) (bound : pageCount ≤ cagePagesCount) :
    FirstRun.Run (PageFree (List.replicate bitmapWords 0#64)) pageCount 0 := by
  intro j _ small
  refine ⟨?_, Ledger.blank_bit j⟩
  rw [List.length_replicate]
  unfold bitmapWords
  unfold cagePagesCount at bound
  omega

theorem newSegment_eq (manager : PageManager) (start : Nat)
    (answer : manager.reservations manager.segments.length = some start) :
    newSegment manager = .ok { manager with
      segments := manager.segments ++ [⟨start, List.replicate bitmapWords 0#64⟩]
      current := manager.segments.length
      osCalls := .store start (8 * bitmapWords) :: .reserve start memoryChunkSize ::
        manager.osCalls } := by
  unfold newSegment
  rw [answer]
  rfl

theorem newSegment_some (manager after : PageManager) (made : newSegment manager = .ok after) :
    ∃ start, manager.reservations manager.segments.length = some start := by
  unfold newSegment at made
  cases answer : manager.reservations manager.segments.length with
  | none =>
      rw [answer] at made
      cases made
  | some start => exact ⟨start, rfl⟩

theorem newSegment_fresh (manager after : PageManager) (made : newSegment manager = .ok after) :
    ∃ start, after.segments[after.current]? = some ⟨start, List.replicate bitmapWords 0#64⟩ := by
  obtain ⟨start, answer⟩ := newSegment_some manager after made
  rw [newSegment_eq manager start answer, Except.ok.injEq] at made
  subst made
  refine ⟨start, ?_⟩
  rw [List.getElem?_append_right (Nat.le_refl _), Nat.sub_self]
  rfl

namespace Lined

variable {reservations : Nat → Option Nat} {manager after : PageManager}

theorem grown (answers : manager.reservations = reservations)
    (words : ∀ segment ∈ manager.segments, segment.bitmap.length = bitmapWords)
    (made : newSegment manager = .ok after) : Lined reservations after ∧
      after.segments.length = manager.segments.length + 1 := by
  obtain ⟨start, answer⟩ := newSegment_some manager after made
  rw [newSegment_eq manager start answer, Except.ok.injEq] at made
  subst made
  have more : (manager.segments ++
      ([⟨start, List.replicate bitmapWords 0#64⟩] : List CageSegment)).length =
        manager.segments.length + 1 := List.length_append
  refine ⟨⟨answers, more.symm, fun segment member => ?_⟩, more⟩
  rcases List.mem_append.mp member with old | fresh
  · exact words segment old
  · rw [List.mem_singleton.mp fresh]
    exact List.length_replicate

theorem modified (lined : Lined reservations manager) (k : Nat)
    (change : List (BitVec 64) → CageSegment → List (BitVec 64))
    (same : ∀ segment, (change segment.bitmap segment).length = segment.bitmap.length)
    (osCalls : List OsCall) :
    Lined reservations { manager with
      segments := manager.segments.modify k fun segment =>
        { segment with bitmap := change segment.bitmap segment }
      osCalls := osCalls } := by
  refine ⟨lined.answers, by simpa using lined.last, fun segment member => ?_⟩
  obtain ⟨j, found⟩ := List.getElem?_of_mem member
  simp only [List.getElem?_modify, Option.map_eq_map, Option.map_eq_some_iff] at found
  obtain ⟨before, at', rfl⟩ := found
  have words := lined.words before (List.mem_of_getElem? at')
  split
  · exact (same before).trans words
  · exact words

theorem current_drop (lined : Lined reservations manager) : ∃ segment,
    manager.segments[manager.current]? = some segment ∧
      manager.segments.drop manager.current = [segment] := by
  have inside : manager.current < manager.segments.length := by have := lined.last; omega
  refine ⟨_, List.getElem?_eq_getElem inside, ?_⟩
  rw [List.drop_eq_getElem_cons inside, List.drop_eq_nil_iff.mpr (Nat.le_of_eq lined.last.symm)]

theorem handles (lined : Lined reservations manager) (call : Call)
    (taken : Handles manager call after) : Lined reservations after := by
  cases taken with
  | request pageCount fuel ptr _ made =>
      induction fuel generalizing manager with
      | zero => cases made
      | succ fuel ih =>
          rcases request_cases made with ⟨_, _, rfl⟩ | ⟨_, k, start, _, _, rfl⟩ | ⟨_, middle, new, again⟩
          · exact lined
          · exact lined.modified k (fun bitmap _ => setPages bitmap start pageCount)
              (fun _ => setPages_length _ _ _) _
          · exact ih (grown lined.answers lined.words new).1 again
  | release chunk segment _ owner within made =>
      unfold releasePageChunk at made
      cases located : manager.segments.findIdx? (fun segment => Holds segment chunk.ptr) with
      | none => simp [located] at made
      | some k =>
          simp only [located, Except.ok.injEq] at made
          rw [← made]
          exact lined.modified k (fun bitmap segment =>
            clearPages bitmap ((chunk.ptr - segment.baseAddress) / pageSize) chunk.pages)
            (fun _ => clearPages_length _ _ _) _

end Lined

theorem lined_of_reachable (reservations : Nat → Option Nat) (s : PageManager)
    (reached : (serving reservations).Reachable s) : Lined reservations s := by
  refine System.invariant _ (Lined reservations) ?_ ?_ reached
  · intro s made
    exact (Lined.grown rfl (fun _ none => by cases none) made).1
  · intro s call t lined taken
    exact lined.handles call taken

section Requests

variable {reservations : Nat → Option Nat} {manager : PageManager}

def ServedInPlace (fuel : Nat) (manager : PageManager) (pageCount : Nat) : Prop :=
  ∃ ptr after, requestPageChunk fuel manager pageCount = .ok (ptr, after) ∧
    after.segments.length = manager.segments.length ∧
    (pageCount ≠ 0 → ∃ segment ∈ manager.segments, ∃ start,
      FirstRun.Run (PageFree segment.bitmap) pageCount start ∧
        ptr = some (segment.baseAddress + start * pageSize))

def Ends (manager : PageManager) (pageCount : Nat) : Prop :=
  ∃ fuel, requestPageChunk fuel manager pageCount ≠ .error .unfinished ∧
    ∀ ptr after, requestPageChunk fuel manager pageCount = .ok (ptr, after) →
      after.segments.length ≤ manager.segments.length + 1

theorem findRun_single (pageCount k : Nat) (segment : CageSegment) :
    findRun pageCount k [segment] =
      (scanWords pageCount 0 0 0 segment.bitmap).map fun start => (k, start) := by
  unfold findRun
  cases scanWords pageCount 0 0 0 segment.bitmap <;> rfl

theorem scanned_iff (pageCount : Nat) (positive : 0 < pageCount) (segment : CageSegment) :
    (∃ start, scanWords pageCount 0 0 0 segment.bitmap = some start) ↔ HasRun segment pageCount := by
  cases scanned : scanWords pageCount 0 0 0 segment.bitmap with
  | none =>
      have none := (scanWords_none positive).mp scanned
      exact iff_of_false (by simp) fun run => none _ run.choose_spec
  | some start =>
      have first := (scanWords_some positive start).mp scanned
      exact iff_of_true ⟨start, rfl⟩ ⟨start, first.run⟩

theorem request_here (lined : Lined reservations manager) (fuel pageCount start : Nat)
    (positive : 0 < pageCount) (segment : CageSegment)
    (here : manager.segments[manager.current]? = some segment)
    (scanned : scanWords pageCount 0 0 0 segment.bitmap = some start) :
    requestPageChunk (fuel + 1) manager pageCount =
      .ok (some (segment.baseAddress + start * pageSize),
        (commitAndReturn manager pageCount manager.current start).2) := by
  obtain ⟨other, found, only⟩ := lined.current_drop
  cases here.symm.trans found
  unfold requestPageChunk
  rw [if_neg (Nat.ne_of_gt positive), only, findRun_single pageCount, scanned]
  simp only [Option.map_some, commitAndReturn, here, Option.elim_some]

theorem request_elsewhere (lined : Lined reservations manager) (fuel pageCount : Nat)
    (positive : 0 < pageCount) (segment : CageSegment)
    (here : manager.segments[manager.current]? = some segment) (full : ¬ HasRun segment pageCount) :
    requestPageChunk (fuel + 1) manager pageCount =
      (newSegment manager >>= fun manager => requestPageChunk fuel manager pageCount) := by
  obtain ⟨other, found, only⟩ := lined.current_drop
  cases here.symm.trans found
  have none : scanWords pageCount 0 0 0 segment.bitmap = none := by
    rw [← scanned_iff pageCount positive, ← Option.ne_none_iff_exists', not_not] at full
    exact full
  rw [requestPageChunk, if_neg (Nat.ne_of_gt positive), only, findRun_single pageCount, none]
  rfl

theorem request_grows (lined : Lined reservations manager) (fuel pageCount : Nat) (ptr : Option Nat)
    (after : PageManager) (made : requestPageChunk fuel manager pageCount = .ok (ptr, after)) :
    manager.segments.length ≤ after.segments.length := by
  induction fuel generalizing manager with
  | zero => cases made
  | succ fuel ih =>
      rcases request_cases made with ⟨_, _, rfl⟩ | ⟨_, k, start, _, _, rfl⟩ | ⟨_, middle, new, again⟩
      · exact Nat.le_refl _
      · simp [commitAndReturn]
      · obtain ⟨lined', more⟩ := Lined.grown lined.answers lined.words new
        have later := ih lined' again
        omega

theorem served_iff (lined : Lined reservations manager) (fuel pageCount : Nat) (segment : CageSegment)
    (here : manager.segments[manager.current]? = some segment) :
    ServedInPlace (fuel + 1) manager pageCount ↔ HasRun segment pageCount := by
  by_cases zero : pageCount = 0
  · subst zero
    exact iff_of_true ⟨none, manager, rfl, rfl, fun nonzero => (nonzero rfl).elim⟩
      ⟨0, fun _ above below => (by omega)⟩
  have positive := Nat.pos_of_ne_zero zero
  constructor
  · rintro ⟨ptr, after, made, same, _⟩
    by_contra full
    rw [request_elsewhere lined fuel pageCount positive segment here full] at made
    obtain ⟨middle, new, again⟩ := (Result.bind_ok _ _ _).mp made
    obtain ⟨lined', more⟩ := Lined.grown lined.answers lined.words new
    have := request_grows lined' fuel pageCount ptr after again
    omega
  · intro room
    obtain ⟨start, scanned⟩ := (scanned_iff pageCount positive segment).mpr room
    exact ⟨_, _, request_here lined fuel pageCount start positive segment here scanned,
      by simp [commitAndReturn], fun _ => ⟨segment, List.mem_of_getElem? here, start,
        ((scanWords_some positive start).mp scanned).run, rfl⟩⟩

-- What no segment can hold is asked of one fresh segment after the other.
theorem request_forever (always : ∀ k, reservations k ≠ none) (lined : Lined reservations manager)
    (pageCount fuel : Nat) (large : cagePagesCount < pageCount) :
    requestPageChunk fuel manager pageCount = .error .unfinished := by
  induction fuel generalizing manager with
  | zero => rfl
  | succ fuel ih =>
      obtain ⟨segment, here, _⟩ := lined.current_drop
      have full (run : HasRun segment pageCount) : False := by
        have := run.bound (lined.words segment (List.mem_of_getElem? here))
        omega
      rw [request_elsewhere lined fuel pageCount (by omega) segment here full]
      obtain ⟨start, answer⟩ := Option.ne_none_iff_exists'.mp (always manager.segments.length)
      have new := newSegment_eq manager start (lined.answers ▸ answer)
      rw [new, Result.ok_bind]
      exact ih (Lined.grown lined.answers lined.words new).1

theorem request_ends_within (always : ∀ k, reservations k ≠ none)
    (lined : Lined reservations manager) (pageCount : Nat) (bound : pageCount ≤ cagePagesCount) :
    ∃ ptr after, requestPageChunk 2 manager pageCount = .ok (ptr, after) ∧
      after.segments.length ≤ manager.segments.length + 1 := by
  by_cases zero : pageCount = 0
  · subst zero
    exact ⟨none, manager, rfl, Nat.le_succ _⟩
  have positive := Nat.pos_of_ne_zero zero
  obtain ⟨segment, here, _⟩ := lined.current_drop
  by_cases room : HasRun segment pageCount
  · obtain ⟨start, scanned⟩ := (scanned_iff pageCount positive segment).mpr room
    exact ⟨_, _, request_here lined 1 pageCount start positive segment here scanned,
      by simp [commitAndReturn]⟩
  · obtain ⟨base, answer⟩ := Option.ne_none_iff_exists'.mp (always manager.segments.length)
    have new := newSegment_eq manager base (lined.answers ▸ answer)
    obtain ⟨lined', more⟩ := Lined.grown lined.answers lined.words new
    obtain ⟨fresh, last⟩ := newSegment_fresh manager _ new
    obtain ⟨start, scanned⟩ := (scanned_iff pageCount positive
      ⟨fresh, List.replicate bitmapWords 0#64⟩).mpr ⟨0, blank_run pageCount bound⟩
    have served := request_here lined' 0 pageCount start positive _ last scanned
    rw [request_elsewhere lined 1 pageCount positive segment here room, new, Result.ok_bind]
    exact ⟨_, _, served, by simp [commitAndReturn]⟩

theorem free_pages_served (reservations : Nat → Option Nat) (s : PageManager)
    (reached : (serving reservations).Reachable s) (pageCount fuel : Nat) :
    ((∃ segment ∈ s.segments, HasRun segment pageCount) → ServedInPlace (fuel + 1) s pageCount) ↔
      (∃ segment, s.segments[s.current]? = some segment ∧ HasRun segment pageCount) ∨
        ∀ segment ∈ s.segments, ¬ HasRun segment pageCount := by
  have lined := lined_of_reachable reservations s reached
  obtain ⟨segment, here, _⟩ := lined.current_drop
  have served := served_iff lined fuel pageCount segment here
  constructor
  · intro holds
    by_cases some' : ∃ segment ∈ s.segments, HasRun segment pageCount
    · exact .inl ⟨segment, here, served.mp (holds some')⟩
    · exact .inr fun other member run => some' ⟨other, member, run⟩
  · rintro (⟨other, here', run⟩ | none) ⟨other', member, run'⟩
    · cases here.symm.trans here'
      exact served.mpr run
    · exact (none other' member run').elim

theorem row_start : ∃ s, (serving rowOfRegions).Reachable s ∧ s.current = 0 ∧
    s.segments = [⟨memoryChunkSize, List.replicate bitmapWords 0#64⟩] ∧
    s.reservations = rowOfRegions :=
  ⟨_, .start rfl, rfl, rfl, rfl⟩

theorem free_pages_served_first : ∃ s, (serving rowOfRegions).Reachable s ∧ ServedInPlace 1 s 3 := by
  obtain ⟨s, reached, current, segments, _⟩ := row_start
  have blank : HasRun ⟨memoryChunkSize, List.replicate bitmapWords 0#64⟩ 3 :=
    ⟨0, blank_run 3 (by decide)⟩
  have here : s.segments[s.current]? = some ⟨memoryChunkSize, List.replicate bitmapWords 0#64⟩ := by
    rw [segments, current]
    rfl
  exact ⟨s, reached, (free_pages_served rowOfRegions s reached 3 0).mpr (.inl ⟨_, here, blank⟩)
    ⟨_, List.mem_of_getElem? here, blank⟩⟩

theorem blank_scan (pageCount : Nat) (positive : 0 < pageCount) (bound : pageCount ≤ cagePagesCount) :
    scanWords pageCount 0 0 0 (List.replicate bitmapWords 0#64) = some 0 :=
  (scanWords_some positive 0).mpr
    ⟨blank_run pageCount bound, fun _ small => (Nat.not_lt_zero _ small).elim⟩

@[irreducible] def fullBitmap : List (BitVec 64) :=
  setPages (List.replicate bitmapWords 0#64) 0 cagePagesCount

theorem fullBitmap_eq :
    fullBitmap = setPages (List.replicate bitmapWords 0#64) 0 cagePagesCount := by
  unfold fullBitmap
  rfl

theorem fullBitmap_words : fullBitmap.length = bitmapWords := by
  rw [fullBitmap_eq, setPages_length, List.length_replicate]

theorem fullBitmap_bit (idx : Nat) (small : idx < 64 * bitmapWords) :
    pageBit fullBitmap idx = true := by
  rw [fullBitmap_eq]
  refine (pageBit_setPages _ 0 cagePagesCount idx ?_).mpr (.inl ⟨Nat.zero_le _, ?_⟩)
  · rw [List.length_replicate]
    decide
  · unfold bitmapWords at small
    unfold cagePagesCount
    omega

theorem fullBitmap_closed (base pageCount : Nat) (positive : 0 < pageCount) :
    ¬ HasRun ⟨base, fullBitmap⟩ pageCount := by
  rintro ⟨start, run⟩
  obtain ⟨inside, clear⟩ := run start (Nat.le_refl _) (by omega)
  change start < 64 * fullBitmap.length at inside
  rw [fullBitmap_words] at inside
  have set := fullBitmap_bit start inside
  exact Bool.false_ne_true (clear.symm.trans set)

theorem emptied_run (base : Nat) :
    HasRun ⟨base, clearPages fullBitmap 0 cagePagesCount⟩ 1 := by
  have room : 0 + cagePagesCount ≤ 64 * fullBitmap.length := by
    rw [fullBitmap_words]
    decide
  refine ⟨0, fun j _ small => ⟨?_, ?_⟩⟩
  · rw [clearPages_length, fullBitmap_words]
    unfold bitmapWords
    omega
  · rw [← Bool.not_eq_true, pageBit_clearPages _ 0 cagePagesCount j room]
    exact fun still => still.1 ⟨Nat.zero_le _, by unfold cagePagesCount; omega⟩

theorem row_filled : ∃ s, (serving rowOfRegions).Reachable s ∧ s.current = 0 ∧
    s.segments = [⟨memoryChunkSize, fullBitmap⟩] ∧ s.reservations = rowOfRegions := by
  obtain ⟨s, reached, current, segments, answers⟩ := row_start
  have here : s.segments[s.current]? = some ⟨memoryChunkSize, List.replicate bitmapWords 0#64⟩ := by
    rw [segments, current]
    rfl
  have made := request_here (lined_of_reachable _ _ reached) 0 cagePagesCount 0 (by decide) _ here
    (blank_scan cagePagesCount (by decide) (Nat.le_refl _))
  refine ⟨_, reached.step (.request _ cagePagesCount 1 _ _ made), current, ?_, answers⟩
  simp only [commitAndReturn, segments, current, fullBitmap_eq]
  rfl

theorem row_filled_twice : ∃ s, (serving rowOfRegions).Reachable s ∧ s.current = 1 ∧
    s.segments = [⟨memoryChunkSize, fullBitmap⟩, ⟨2 * memoryChunkSize, fullBitmap⟩] := by
  obtain ⟨s, reached, current, segments, answers⟩ := row_filled
  have lined := lined_of_reachable _ _ reached
  have here : s.segments[s.current]? = some ⟨memoryChunkSize, fullBitmap⟩ := by
    rw [segments, current]
    rfl
  have new := newSegment_eq s (2 * memoryChunkSize) (by rw [answers, segments]; rfl)
  obtain ⟨lined', _⟩ := Lined.grown lined.answers lined.words new
  have made := request_here lined' 0 cagePagesCount 0 (by decide)
    ⟨2 * memoryChunkSize, List.replicate bitmapWords 0#64⟩ (by simp only [segments]; rfl)
    (blank_scan cagePagesCount (by decide) (Nat.le_refl _))
  rw [← Result.ok_bind _ fun manager => requestPageChunk (0 + 1) manager cagePagesCount, ← new,
    ← request_elsewhere lined 1 cagePagesCount (by decide) _ here
      (fullBitmap_closed _ _ (by decide))] at made
  refine ⟨_, reached.step (.request _ cagePagesCount 2 _ _ made), ?_, ?_⟩
  · simp only [commitAndReturn, segments]
    rfl
  · simp only [commitAndReturn, segments, fullBitmap_eq]
    rfl

theorem row_released : ∃ s, (serving rowOfRegions).Reachable s ∧ s.current = 1 ∧
    s.segments = [⟨memoryChunkSize, clearPages fullBitmap 0 cagePagesCount⟩,
      ⟨2 * memoryChunkSize, fullBitmap⟩] := by
  obtain ⟨s, reached, current, segments⟩ := row_filled_twice
  have made : releasePageChunk s memoryChunkSize cagePagesCount = .ok { s with
      segments := [⟨memoryChunkSize, clearPages fullBitmap 0 cagePagesCount⟩,
        ⟨2 * memoryChunkSize, fullBitmap⟩]
      osCalls := .decommit memoryChunkSize (cagePagesCount * pageSize) :: s.osCalls } := by
    simp only [releasePageChunk, segments]
    rfl
  refine ⟨_, reached.step (.release s ⟨memoryChunkSize, cagePagesCount⟩
    ⟨memoryChunkSize, fullBitmap⟩ _ ?_ (by decide) made), current, rfl⟩
  rw [segments]
  rfl

theorem released_pages_unused : ∃ s, (serving rowOfRegions).Reachable s ∧
    (∃ segment ∈ s.segments, HasRun segment 1) ∧ ∀ fuel, ¬ ServedInPlace fuel s 1 := by
  obtain ⟨s, reached, current, segments⟩ := row_released
  have lined := lined_of_reachable _ _ reached
  have here : s.segments[s.current]? = some ⟨2 * memoryChunkSize, fullBitmap⟩ := by
    rw [segments, current]
    rfl
  refine ⟨s, reached, ⟨_, ?_, emptied_run memoryChunkSize⟩, fun fuel served => ?_⟩
  · rw [segments]
    exact List.mem_cons_self
  cases fuel with
  | zero =>
      obtain ⟨ptr, after, made, _⟩ := served
      cases made
  | succ fuel =>
      exact fullBitmap_closed _ 1 (by decide) ((served_iff lined fuel 1 _ here).mp served)

theorem request_ends (reservations : Nat → Option Nat) (always : ∀ k, reservations k ≠ none)
    (s : PageManager) (reached : (serving reservations).Reachable s) (pageCount : Nat) :
    Ends s pageCount ↔ pageCount ≤ cagePagesCount := by
  have lined := lined_of_reachable reservations s reached
  constructor
  · rintro ⟨fuel, ends, _⟩
    by_contra large
    exact ends (request_forever always lined pageCount fuel (by omega))
  · intro bound
    obtain ⟨ptr, after, made, few⟩ := request_ends_within always lined pageCount bound
    refine ⟨2, made ▸ fun differs => (by cases differs), fun ptr' after' made' => ?_⟩
    rw [made, Except.ok.injEq, Prod.mk.injEq] at made'
    exact made'.2 ▸ few

def everyRegion (k : Nat) : Option Nat := some ((k + 1) * memoryChunkSize)

theorem everyRegion_start : ∃ s, construct everyRegion = .ok s := ⟨_, rfl⟩

theorem request_ends_whole : ∃ s, construct everyRegion = .ok s ∧ Ends s cagePagesCount := by
  obtain ⟨s, made⟩ := everyRegion_start
  exact ⟨s, made, (request_ends everyRegion (fun _ => Option.some_ne_none _) s (.start made)
    cagePagesCount).mpr (Nat.le_refl _)⟩

theorem request_unending : pagesOf 8589934593 = 2097153 ∧
    ∃ s, construct everyRegion = .ok s ∧ ¬ Ends s (pagesOf 8589934593) := by
  obtain ⟨s, made⟩ := everyRegion_start
  have lined := lined_of_reachable everyRegion s (.start made)
  refine ⟨by decide, s, made, fun ends => ?_⟩
  obtain ⟨fuel, ends, _⟩ := ends
  exact ends (request_forever (fun _ => Option.some_ne_none _) lined _ fuel (by decide))

end Requests

end ElySquare.PageManager
