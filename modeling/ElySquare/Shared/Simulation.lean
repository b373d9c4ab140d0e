import ElySquare.Shared.Run

set_option autoImplicit false

namespace Transition

namespace System

variable {State Call Other Order : Type}

structure Simulates (concrete : System State Call) (abstract : System Other Order)
    (related : State → Other → Prop) (reading : State → Call → Order) : Prop where
  start : ∀ s, concrete.start s → ∃ t, abstract.start t ∧ related s t
  step : ∀ s t call s', related s t → concrete.step s call s' →
    ∃ t', abstract.step t (reading s call) t' ∧ related s' t'

theorem Simulates.reachable {concrete : System State Call} {abstract : System Other Order}
    {related : State → Other → Prop} {reading : State → Call → Order}
    (simulates : concrete.Simulates abstract related reading) {s : State}
    (reached : concrete.Reachable s) : ∃ t, abstract.Reachable t ∧ related s t := by
  induction reached with
  | start initial =>
      obtain ⟨t, initial', holds⟩ := simulates.start _ initial
      exact ⟨t, .start initial', holds⟩
  | step _ taken ih =>
      obtain ⟨t, reached, holds⟩ := ih
      obtain ⟨t', taken', holds'⟩ := simulates.step _ t _ _ holds taken
      exact ⟨t', reached.step taken', holds'⟩

theorem Simulates.later {concrete : System State Call} {abstract : System Other Order}
    {related : State → Other → Prop} {reading : State → Call → Order}
    (simulates : concrete.Simulates abstract related reading) {allowed : Call → Prop}
    {allowed' : Order → Prop} (reads : ∀ s call, allowed call → allowed' (reading s call)) {s s' : State}
    (later : concrete.Later allowed s s') {t : Other} (holds : related s t) :
    ∃ t', abstract.Later allowed' t t' ∧ related s' t' := by
  induction later with
  | now => exact ⟨t, .now t, holds⟩
  | step _ chosen taken ih =>
      obtain ⟨middle, later, holds'⟩ := ih
      obtain ⟨t', taken', holds''⟩ := simulates.step _ middle _ _ holds' taken
      exact ⟨t', later.step (reads _ _ chosen) taken', holds''⟩

theorem recorded_reachable {Ghost : Type} {system : System State Call} {initial : Ghost}
    {record : State → Call → Ghost → Ghost} {s : State × Ghost}
    (reached : (system.recorded initial record).Reachable s) : system.Reachable s.1 := by
  induction reached with
  | start initially => exact .start initially.1
  | step _ taken ih => exact ih.step taken.1

theorem Simulates.recorded {Ghost : Type} {concrete : System State Call} {abstract : System Other Order}
    {related : State → Other → Prop} {reading : State → Call → Order}
    (simulates : concrete.Simulates abstract related reading) (initial : Ghost)
    (record : State → Call → Ghost → Ghost) (record' : Other → Order → Ghost → Ghost)
    (same : ∀ s t call ghost, related s t → record s call ghost = record' t (reading s call) ghost) :
    (concrete.recorded initial record).Simulates (abstract.recorded initial record')
      (fun s t => related s.1 t.1 ∧ s.2 = t.2) fun s call => reading s.1 call where
  start := by
    rintro ⟨s, ghost⟩ ⟨started, rfl⟩
    obtain ⟨t, started', holds⟩ := simulates.start s started
    exact ⟨⟨t, ghost⟩, ⟨started', rfl⟩, holds, rfl⟩
  step := by
    rintro ⟨s, ghost⟩ ⟨t, _⟩ call ⟨s', ghost'⟩ ⟨holds, rfl⟩ ⟨taken, rfl⟩
    obtain ⟨t', taken', holds'⟩ := simulates.step s t call s' holds taken
    exact ⟨⟨t', _⟩, ⟨taken', rfl⟩, holds', same s t call ghost holds⟩

/-- The same runs, in which nothing may happen for a while. -/
def idle (system : System State Call) : System State (Option Call) where
  start := system.start
  step
    | s, some call, t => system.step s call t
    | s, none, t => t = s

theorem idle_reachable {system : System State Call} {s : State} (reached : system.idle.Reachable s) :
    system.Reachable s := by
  induction reached with
  | start initial => exact .start initial
  | @step before after call _ taken ih =>
      cases call with
      | some call => exact ih.step taken
      | none =>
          obtain rfl : after = before := taken
          exact ih

end System

end Transition
