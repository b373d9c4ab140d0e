import ElySquare.Platform.OsMem
import ElySquare.Allocators.ArenaInvariant
import ElySquare.Allocators.PageLog

set_option autoImplicit false

namespace ElySquare.PageManager

open Transition

section Commits

variable (os : Os) (granted : Nat → Bool)

def Protected (s : Run) : Prop :=
  ∀ c ∈ s.live, ∀ page, Covers c.ptr (c.pages * pageSize) page →
    (os.after granted s.manager.osCalls).protection page = .readWrite

def Granted (log : List OsCall) : Prop :=
  ∀ address bytes earlier, (.commit address bytes :: earlier) <:+ log → granted earlier.length = true

def Failed (before log : List OsCall) : Prop :=
  ∃ address bytes earlier, (.commit address bytes :: earlier) <:+ log ∧ before <:+ earlier ∧
    granted earlier.length = false

/-- A request whose commit fails returns no chunk and leaves set no bit of a page that is not committed. -/
structure Honest (s t : Run) : Prop where
  returned : Failed granted s.manager.osCalls t.manager.osCalls → t.live = s.live
  bits : Failed granted s.manager.osCalls t.manager.osCalls → ∀ segment ∈ t.manager.segments,
    ∀ idx, idx < cagePagesCount → pageBit segment.bitmap idx = true →
      (os.after granted t.manager.osCalls).protection (segment.baseAddress / pageSize + idx) =
        .readWrite

variable {os granted} {reservations : Nat → Option Nat} {manager : PageManager} {live : List Chunk}

theorem Granted.suffix {log log' : List OsCall} (all : Granted granted log') (earlier : log <:+ log') :
    Granted granted log :=
  fun address bytes rest inside => all address bytes rest (inside.trans earlier)

theorem Granted.head {address bytes : Nat} {log : List OsCall}
    (all : Granted granted (.commit address bytes :: log)) : granted log.length = true :=
  all address bytes log (List.suffix_refl _)

theorem Opened.suffix {log log' : List OsCall} (opened : Opened log log') : log <:+ log' := by
  induction opened with
  | none => exact List.suffix_refl _
  | segment start _ ih => exact (ih.trans (List.suffix_cons _ _)).trans (List.suffix_cons _ _)

theorem request_suffix (fuel pageCount ptr : Nat) (after : PageManager)
    (made : requestPageChunk fuel manager pageCount = .ok (some ptr, after)) :
    manager.osCalls <:+ after.osCalls := by
  obtain ⟨earlier, opened, calls⟩ := request_log manager fuel pageCount ptr after made
  rw [calls]
  exact opened.suffix.trans (List.suffix_cons _ _)

theorem covers_chunk (reserves : Reserves reservations) (ledger : Ledger reservations manager live)
    (c : Chunk) (alive : c ∈ live) (page : Nat) (covered : Covers c.ptr (c.pages * pageSize) page) :
    c.Owns (page * pageSize) :=
  (covers_pages c.ptr c.pages page (reserves.within ledger c alive).1).mp covered

theorem newSegment_protected (reserves : Reserves reservations)
    (ledger : Ledger reservations manager live) (protected' : Protected os granted ⟨manager, live⟩)
    (after : PageManager) (made : newSegment manager = .ok after) :
    Protected os granted ⟨after, live⟩ := by
  obtain ⟨start, answer, calls, _⟩ := newSegment_log manager after made
  rw [ledger.answers] at answer
  intro c alive page covered
  have owner := covers_chunk reserves ledger c alive page covered
  obtain ⟨home, inHome, placed⟩ := ledger.placed c alive
  obtain ⟨j, found⟩ := List.getElem?_of_mem inHome
  have within := placed.within
  have earlier : j < manager.segments.length := (List.getElem?_eq_some_iff.mp found).1
  have apart := reserves.regions j _ _ _ (Nat.ne_of_lt earlier) (ledger.bases j home found) answer
  have whole : getClosestTo4 memoryChunkSize = cagePagesCount * pageSize :=
    getClosestTo4_pages cagePagesCount (by decide)
  have outside : ¬ Covers start (getClosestTo4 memoryChunkSize) page := by
    rw [whole, covers_pages start cagePagesCount page (reserves.aligned _ _ answer)]
    unfold Chunk.Owns at owner
    unfold memoryChunkSize at within apart
    unfold cagePagesCount pageSize at *
    omega
  dsimp only
  rw [calls]
  exact (protect_there _ start _ page .noAccess outside).trans (protected' c alive page covered)

theorem commit_protected (address pages : Nat) (few : pages < 2 ^ 51) (mapped : address ≠ 0)
    (log : List OsCall) (succeeds : granted log.length = true) (page : Nat)
    (writable : Covers address (pages * pageSize) page ∨
      (os.after granted log).protection page = .readWrite) :
    (os.after granted (.commit address (pages * pageSize) :: log)).protection page = .readWrite := by
  have step : os.after granted (.commit address (pages * pageSize) :: log) =
      if pages * pageSize = 0 then os.after granted log
      else (os.after granted log).protect address (pages * pageSize) .readWrite := by
    simp only [Os.after, Os.perform, Os.commitPages, if_neg mapped, succeeds, if_true,
      getClosestTo4_pages pages few]
    split <;> rfl
  rw [step]
  by_cases empty : pages * pageSize = 0
  · rw [if_pos empty]
    exact writable.resolve_left fun covered => Nat.ne_of_gt covered.1 empty
  · rw [if_neg empty]
    by_cases covered : Covers address (pages * pageSize) page
    · exact protect_here _ _ _ _ _ covered
    · exact (protect_there _ _ _ _ _ covered).trans (writable.resolve_left covered)

theorem request_protected (reserves : Reserves reservations)
    (ledger : Ledger reservations manager live) (protected' : Protected os granted ⟨manager, live⟩)
    (fuel pageCount ptr : Nat) (after : PageManager)
    (made : requestPageChunk fuel manager pageCount = .ok (some ptr, after))
    (all : Granted granted after.osCalls) :
    Protected os granted ⟨after, ⟨ptr, pageCount⟩ :: live⟩ := by
  induction fuel generalizing manager with
  | zero => simp [requestPageChunk] at made
  | succ fuel ih =>
      have ledger' := (ledger.request_ledger reserves.regions _ _ _ _ made).1
      rcases request_cases made with ⟨_, none, _⟩ | ⟨_, k, start, _, found, rfl⟩ | ⟨_, grown, new, again⟩
      · cases none
      · cases found
        have within := reserves.within ledger' _ List.mem_cons_self
        have few : pageCount < 2 ^ 51 := by
          have size := within.2.2.1
          unfold memoryChunkSize pageSize at size
          dsimp only at size
          omega
        intro c alive page covered
        refine commit_protected _ pageCount few (Nat.ne_of_gt within.2.1) _ all.head page ?_
        rcases List.mem_cons.mp alive with rfl | old
        · exact .inl covered
        · exact .inr (protected' c old page covered)
      · exact ih (Ledger.newSegment_ledger reserves.regions ledger grown new).1
          (newSegment_protected reserves ledger protected' grown new) again

theorem release_protected (reserves : Reserves reservations)
    (ledger : Ledger reservations manager live) (protected' : Protected os granted ⟨manager, live⟩)
    (c : Chunk) (alive : c ∈ live) (after : PageManager)
    (made : releasePageChunk manager c.ptr c.pages = .ok after) :
    Protected os granted ⟨after, live.erase c⟩ := by
  have calls := release_log manager c.ptr c.pages after made
  have within := reserves.within ledger c alive
  have few : c.pages < 2 ^ 51 := by
    have size := within.2.2.1
    unfold memoryChunkSize pageSize at size
    omega
  have sorted : (c :: live.erase c).Pairwise Chunk.Apart :=
    ((List.perm_cons_erase alive).pairwise_iff Chunk.Apart.symm).mp ledger.apart
  intro d inside page covered
  have old : d ∈ live := List.mem_of_mem_erase inside
  have owner := covers_chunk reserves ledger d old page covered
  have outside : ¬ Covers c.ptr (c.pages * pageSize) page := fun also =>
    ((List.pairwise_cons.mp sorted).1 d inside).not_owns _
      (covers_chunk reserves ledger c alive page also) owner
  have writable := protected' d old page covered
  dsimp only at writable ⊢
  rw [calls]
  simp only [Os.after, Os.perform, Os.decommitPages, getClosestTo4_pages c.pages few]
  split
  · exact writable
  · split
    · exact writable
    · split
      · exact (protect_there _ _ _ _ _ outside).trans writable
      · exact writable

theorem protected_of_reachable (reserves : Reserves reservations) (s : Run)
    (reached : (system reservations).Reachable s) :
    Ledger reservations s.manager s.live ∧
      (Granted granted s.manager.osCalls → Protected os granted s) := by
  refine System.invariant _ (fun s => Ledger reservations s.manager s.live ∧
    (Granted granted s.manager.osCalls → Protected os granted s)) ?_ ?_ reached
  · rintro s ⟨manager, made, rfl⟩
    exact ⟨Ledger.construct_ledger reserves.regions manager made, fun _ c none => by cases none⟩
  · rintro s call t ⟨ledger, kept⟩ taken
    cases taken with
    | request n fuel ptr manager positive bound made =>
        refine ⟨(ledger.request_ledger reserves.regions fuel n ptr manager made).1, fun all => ?_⟩
        exact request_protected reserves ledger (kept (all.suffix (request_suffix fuel n ptr manager made)))
          fuel n ptr manager made all
    | release c manager alive made =>
        obtain ⟨after, done, ledger', _⟩ := ledger.release_spec reserves.regions c alive
        rw [made] at done
        cases done
        refine ⟨ledger', fun all => ?_⟩
        have calls := release_log s.manager c.ptr c.pages manager made
        exact release_protected reserves ledger (kept (all.suffix (calls ▸ List.suffix_cons _ _))) c alive
          manager made

theorem commit_protection (os : Os) (granted : Nat → Bool) (reserves : Reserves reservations)
    (s : Run) (reached : (system reservations).Reachable s) :
    (Granted granted s.manager.osCalls → Protected os granted s) ∧
    ∀ pageCount t, Run.Step s (.request pageCount) t →
      (Honest os granted s t ↔ ¬ Failed granted s.manager.osCalls t.manager.osCalls) := by
  refine ⟨(protected_of_reachable reserves s reached).2, fun pageCount t taken => ?_⟩
  constructor
  · intro honest failed
    have unchanged := congrArg List.length (honest.returned failed)
    cases taken with
    | request _ fuel ptr manager positive bound made => simp at unchanged
  · exact fun none => ⟨fun failed => (none failed).elim, fun failed => (none failed).elim⟩

end Commits

theorem page_requested : ∃ s t, (system rowOfRegions).Reachable s ∧
    Run.Step s (.request 1) t ∧ t.live = [⟨memoryChunkSize, 1⟩] ∧
    t.manager.osCalls = [.commit memoryChunkSize pageSize,
      .store memoryChunkSize (8 * bitmapWords), .reserve memoryChunkSize memoryChunkSize] ∧
    s.manager.osCalls = t.manager.osCalls.tail := by
  obtain ⟨fresh, after, first, made, calls, before⟩ : ∃ fresh after,
      construct rowOfRegions = .ok fresh ∧
      requestPageChunk 1 fresh 1 = .ok (some memoryChunkSize, after) ∧
      after.osCalls = [.commit memoryChunkSize pageSize,
        .store memoryChunkSize (8 * bitmapWords), .reserve memoryChunkSize memoryChunkSize] ∧
      fresh.osCalls = after.osCalls.tail := ⟨_, _, rfl, rfl, rfl, rfl⟩
  exact ⟨⟨fresh, []⟩, ⟨after, [⟨memoryChunkSize, 1⟩]⟩, .start ⟨fresh, first, rfl⟩,
    .request _ 1 1 _ after (by decide) (by decide) made, rfl, calls, before⟩

theorem commit_protection_page : ∃ s, (system rowOfRegions).Reachable s ∧ s.live ≠ [] ∧
    Protected ⟨fun _ => .noAccess⟩ (fun _ => true) s := by
  obtain ⟨s, t, reached, taken, live, _⟩ := page_requested
  have reached' : (system rowOfRegions).Reachable t := reached.step taken
  refine ⟨t, reached', by simp [live], ?_⟩
  exact (commit_protection ⟨fun _ => .noAccess⟩ (fun _ => true) rowOfRegions_reserves t reached').1
    fun _ _ _ _ => rfl

-- When the commit fails the request returns the page all the same, and it cannot be written.
theorem request_ignores_failure : ∃ s t, (system rowOfRegions).Reachable s ∧
    Run.Step s (.request 1) t ∧ Failed (fun _ => false) s.manager.osCalls t.manager.osCalls ∧
    t.live = [⟨memoryChunkSize, 1⟩] ∧
    (Os.after ⟨fun _ => .noAccess⟩ (fun _ => false) t.manager.osCalls).protection cagePagesCount =
      .noAccess ∧
    ¬ Protected ⟨fun _ => .noAccess⟩ (fun _ => false) t ∧
    ¬ Honest ⟨fun _ => .noAccess⟩ (fun _ => false) s t := by
  obtain ⟨s, t, reached, taken, live, calls, before⟩ := page_requested
  have failed : Failed (fun _ => false) s.manager.osCalls t.manager.osCalls := by
    rw [before, calls]
    exact ⟨_, _, _, List.suffix_refl _, List.suffix_refl _, rfl⟩
  have blocked : (Os.after ⟨fun _ => .noAccess⟩ (fun _ => false) t.manager.osCalls).protection
      cagePagesCount = .noAccess := by
    rw [calls]
    decide +kernel
  refine ⟨s, t, reached, taken, failed, live, blocked, fun kept => ?_, fun honest => ?_⟩
  · have writable := kept ⟨memoryChunkSize, 1⟩ (by simp [live]) cagePagesCount (by decide)
    rw [blocked] at writable
    cases writable
  · have unchanged := congrArg List.length (honest.returned failed)
    cases taken with
    | request _ fuel ptr manager positive bound made => simp at unchanged

section Stores

variable (os : Os) (granted : Nat → Bool)

def StoresCommitted (log : List OsCall) : Prop :=
  ∀ address bytes earlier, (.store address bytes :: earlier) <:+ log → ∀ page,
    Covers address bytes page → (os.after granted earlier).protection page = .readWrite

def StoresBlocked (log : List OsCall) : Prop :=
  ∀ address bytes earlier, (.store address bytes :: earlier) <:+ log → ∀ page,
    Covers address bytes page → (os.after granted earlier).protection page = .noAccess

def Stored (log : List OsCall) : Prop :=
  ∀ address bytes earlier, (.store address bytes :: earlier) <:+ log →
    bytes = 8 * bitmapWords ∧ ∃ rest, earlier = .reserve address memoryChunkSize :: rest

inductive AnyCall
  | requestPageChunk (pageCount : Nat)
  | releasePageChunk (address pageCount : Nat)
deriving DecidableEq, Repr

def anyCalls (reservations : Nat → Option Nat) : System PageManager AnyCall where
  start manager := construct reservations = .ok manager
  step before call after :=
    match call with
    | .requestPageChunk pageCount =>
        ∃ fuel ptr, requestPageChunk fuel before pageCount = .ok (ptr, after)
    | .releasePageChunk address pageCount => releasePageChunk before address pageCount = .ok after

variable {os granted} {reservations : Nat → Option Nat}

theorem Stored.other {log : List OsCall} (stored : Stored log) (call : OsCall)
    (plain : ∀ address bytes, call ≠ .store address bytes) : Stored (call :: log) := by
  intro address bytes earlier inside
  rcases List.suffix_cons_iff.mp inside with here | before
  · exact (plain address bytes (List.cons.inj here).1.symm).elim
  · exact stored address bytes earlier before

theorem Stored.segment {log : List OsCall} (stored : Stored log) (start : Nat) :
    Stored (.store start (8 * bitmapWords) :: .reserve start memoryChunkSize :: log) := by
  intro address bytes earlier inside
  rcases List.suffix_cons_iff.mp inside with here | before
  · simp only [List.cons.injEq, OsCall.store.injEq] at here
    obtain ⟨⟨rfl, rfl⟩, rfl⟩ := here
    exact ⟨rfl, log, rfl⟩
  · exact stored.other (.reserve start memoryChunkSize) (fun _ _ same => by cases same) address bytes
      earlier before

theorem Stored.opened {log log' : List OsCall} (stored : Stored log) (opened : Opened log log') :
    Stored log' := by
  induction opened with
  | none => exact stored
  | segment start _ ih => exact ih.segment start

def Begun (manager : PageManager) : Prop :=
  Stored manager.osCalls ∧ ∃ start, [.store start (8 * bitmapWords), .reserve start memoryChunkSize] <:+
    manager.osCalls

theorem begun_of_reachable (manager : PageManager)
    (reached : (anyCalls reservations).Reachable manager) : Begun manager := by
  refine System.invariant _ Begun ?_ ?_ reached
  · intro manager made
    obtain ⟨start, _, calls, _⟩ := newSegment_log _ manager made
    have none : Stored [] := fun _ _ _ inside => by simp at inside
    rw [Begun, calls]
    exact ⟨none.segment start, start, List.suffix_refl _⟩
  · rintro before call after ⟨stored, start, first⟩ taken
    cases call with
    | requestPageChunk pageCount =>
        obtain ⟨fuel, ptr, made⟩ := taken
        cases ptr with
        | none =>
            have zero : pageCount = 0 := by
              by_contra nonzero
              obtain ⟨address, some⟩ := Ledger.request_some fuel pageCount _ after nonzero made
              cases some
            cases fuel with
            | zero => cases made
            | succ fuel =>
                rw [requestPageChunk, if_pos zero] at made
                cases made
                exact ⟨stored, start, first⟩
        | some ptr =>
            obtain ⟨earlier, opened, calls⟩ := request_log before fuel pageCount ptr after made
            rw [Begun, calls]
            exact ⟨(stored.opened opened).other _ fun _ _ same => (by cases same), start,
              (first.trans opened.suffix).trans (List.suffix_cons _ _)⟩
    | releasePageChunk address pageCount =>
        rw [Begun, release_log before address pageCount after taken]
        exact ⟨stored.other _ fun _ _ same => (by cases same), start,
          first.trans (List.suffix_cons _ _)⟩

theorem Stored.blocked {log : List OsCall} (stored : Stored log) : StoresBlocked os granted log := by
  intro address bytes earlier inside page covered
  obtain ⟨rfl, rest, rfl⟩ := stored address bytes earlier inside
  have whole : getClosestTo4 memoryChunkSize = memoryChunkSize :=
    getClosestTo4_pages cagePagesCount (by decide)
  have room : 8 * bitmapWords ≤ memoryChunkSize := by decide
  refine protect_here _ address _ page .noAccess ⟨by decide, covered.2.1, ?_⟩
  rw [whole]
  exact Nat.lt_of_lt_of_le covered.2.2 (Nat.add_le_add_left room _)

theorem stores_uncommitted (os : Os) (granted : Nat → Bool) (manager : PageManager)
    (reached : (anyCalls reservations).Reachable manager) :
    ¬ StoresCommitted os granted manager.osCalls ∧ StoresBlocked os granted manager.osCalls ∧
      ∀ after, newSegment manager = .ok after → ∃ start,
        after.segments = manager.segments ++ [⟨start, List.replicate bitmapWords 0#64⟩] := by
  obtain ⟨stored, start, first⟩ := begun_of_reachable manager reached
  have blocked : StoresBlocked os granted manager.osCalls := stored.blocked
  refine ⟨fun committed => ?_, blocked, fun after made => ?_⟩
  · have covered : Covers start (8 * bitmapWords) (start / pageSize) := by
      unfold Covers bitmapWords pageSize
      omega
    have writable := committed start _ _ first _ covered
    rw [blocked start _ _ first _ covered] at writable
    cases writable
  · obtain ⟨start, _, _, segments⟩ := newSegment_log manager after made
    exact ⟨start, segments⟩

theorem stores_uncommitted_first : ∃ manager, (anyCalls rowOfRegions).Reachable manager ∧
    ¬ StoresCommitted ⟨fun _ => .noAccess⟩ (fun _ => true) manager.osCalls := by
  obtain ⟨manager, first, _⟩ := rowOfRegions_construct
  have reached : (anyCalls rowOfRegions).Reachable manager := .start first
  exact ⟨manager, reached, (stores_uncommitted ⟨fun _ => .noAccess⟩ (fun _ => true) manager reached).1⟩

-- The constructor clears 256 KiB of the region that it has just reserved.
theorem construct_stores_blocked : ∃ manager, construct rowOfRegions = .ok manager ∧
    manager.osCalls = [.store memoryChunkSize (8 * bitmapWords),
      .reserve memoryChunkSize memoryChunkSize] ∧
    (Os.after ⟨fun _ => .readWrite⟩ (fun _ => true)
      [.reserve memoryChunkSize memoryChunkSize]).protection cagePagesCount = .noAccess ∧
    ¬ StoresCommitted ⟨fun _ => .readWrite⟩ (fun _ => true) manager.osCalls := by
  obtain ⟨manager, made, calls⟩ : ∃ manager, construct rowOfRegions = .ok manager ∧
      manager.osCalls = [.store memoryChunkSize (8 * bitmapWords),
        .reserve memoryChunkSize memoryChunkSize] := ⟨_, rfl, rfl⟩
  have blocked : (Os.after ⟨fun _ => .readWrite⟩ (fun _ => true)
      [.reserve memoryChunkSize memoryChunkSize]).protection cagePagesCount = .noAccess := by
    decide +kernel
  refine ⟨manager, made, calls, blocked, fun committed => ?_⟩
  rw [calls] at committed
  have writable := committed memoryChunkSize _ _ (List.suffix_refl _) cagePagesCount (by decide)
  rw [blocked] at writable
  cases writable

end Stores

end ElySquare.PageManager
