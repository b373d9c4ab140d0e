import ElySquare.Allocators.PageOwnership

set_option autoImplicit false

namespace ElySquare.PageManager

inductive Opened (log : List OsCall) : List OsCall → Prop
  | none : Opened log log
  | segment (start : Nat) {log' : List OsCall} (before : Opened log log') :
      Opened log (.store start (8 * bitmapWords) :: .reserve start memoryChunkSize :: log')

theorem Opened.trans {log log' log'' : List OsCall} (first : Opened log log')
    (second : Opened log' log'') : Opened log log'' := by
  induction second with
  | none => exact first
  | segment start _ ih => exact .segment start ih

theorem newSegment_log (manager after : PageManager) (made : newSegment manager = .ok after) :
    ∃ start, manager.reservations manager.segments.length = some start ∧
      after.osCalls = .store start (8 * bitmapWords) :: .reserve start memoryChunkSize ::
        manager.osCalls ∧
      after.segments = manager.segments ++ [⟨start, List.replicate bitmapWords 0#64⟩] := by
  unfold newSegment at made
  cases answer : manager.reservations manager.segments.length with
  | none => simp [answer] at made
  | some start =>
      simp only [answer, Except.ok.injEq] at made
      subst made
      exact ⟨start, rfl, rfl, rfl⟩

theorem request_log (manager : PageManager) (fuel pageCount ptr : Nat) (after : PageManager)
    (made : requestPageChunk fuel manager pageCount = .ok (some ptr, after)) :
    ∃ earlier, Opened manager.osCalls earlier ∧
      after.osCalls = .commit ptr (pageCount * pageSize) :: earlier := by
  induction fuel generalizing manager with
  | zero => simp [requestPageChunk] at made
  | succ fuel ih =>
      rcases request_cases made with ⟨_, none, _⟩ | ⟨_, k, start, _, found, rfl⟩ | ⟨_, grown, new, again⟩
      · cases none
      · cases found
        exact ⟨manager.osCalls, .none, rfl⟩
      · obtain ⟨start, _, calls, _⟩ := newSegment_log manager grown new
        obtain ⟨earlier, opened, last⟩ := ih grown again
        rw [calls] at opened
        exact ⟨earlier, (Opened.segment start .none).trans opened, last⟩

theorem release_log (manager : PageManager) (address pageCount : Nat) (after : PageManager)
    (made : releasePageChunk manager address pageCount = .ok after) :
    after.osCalls = .decommit address (pageCount * pageSize) :: manager.osCalls := by
  unfold releasePageChunk at made
  split at made
  · cases made
  · cases made
    rfl

end ElySquare.PageManager
