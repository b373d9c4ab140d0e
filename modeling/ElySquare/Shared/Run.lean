import Mathlib.Data.Set.Basic

set_option autoImplicit false

namespace Transition

structure System (State Call : Type) where
  start : State → Prop
  step : State → Call → State → Prop

namespace System

variable {State Call : Type} (system : System State Call)

inductive Reachable : State → Prop
  | start {state : State} (initial : system.start state) : Reachable state
  | step {before after : State} {call : Call} (earlier : Reachable before)
      (taken : system.step before call after) : Reachable after

theorem invariant (property : State → Prop)
    (holds : ∀ state, system.start state → property state)
    (kept : ∀ before call after, property before → system.step before call after → property after)
    {state : State} (reached : system.Reachable state) : property state := by
  induction reached with
  | start initial => exact holds _ initial
  | step _ taken ih => exact kept _ _ _ ih taken

/-- The runs whose calls all meet a condition on the call and the state it is made in. -/
def restrict (allowed : State → Call → Prop) : System State Call where
  start := system.start
  step before call after := allowed before call ∧ system.step before call after

theorem restrict_reachable (allowed : State → Call → Prop) {state : State}
    (reached : (system.restrict allowed).Reachable state) : system.Reachable state := by
  induction reached with
  | start initial => exact .start initial
  | step _ taken ih => exact .step ih taken.2

theorem reachable_restrict (allowed : State → Call → Prop)
    (always : ∀ before call after, system.step before call after → allowed before call)
    {state : State} (reached : system.Reachable state) : (system.restrict allowed).Reachable state := by
  induction reached with
  | start initial => exact .start initial
  | step _ taken ih => exact .step ih ⟨always _ _ _ taken, taken⟩

theorem restrict_weaken (allowed weaker : State → Call → Prop)
    (weakens : ∀ state call, allowed state call → weaker state call) {state : State}
    (reached : (system.restrict allowed).Reachable state) : (system.restrict weaker).Reachable state := by
  induction reached with
  | start initial => exact .start initial
  | step _ taken ih => exact .step ih ⟨weakens _ _ taken.1, taken.2⟩

section Recorded

variable {Ghost : Type} (initial : Ghost) (record : State → Call → Ghost → Ghost)

/-- The same runs, with a record of their calls beside the state, which no call reads. -/
def recorded : System (State × Ghost) Call where
  start s := system.start s.1 ∧ s.2 = initial
  step s call t := system.step s.1 call t.1 ∧ t.2 = record s.1 call s.2

theorem reachable_recorded {state : State} (reached : system.Reachable state) :
    ∃ ghost, (system.recorded initial record).Reachable (state, ghost) := by
  induction reached with
  | start initially => exact ⟨initial, .start ⟨initially, rfl⟩⟩
  | @step before after call _ taken ih =>
    obtain ⟨ghost, reached⟩ := ih
    exact ⟨record before call ghost, reached.step ⟨taken, rfl⟩⟩

end Recorded

inductive Later (allowed : Call → Prop) : State → State → Prop
  | now (state : State) : Later allowed state state
  | step {before middle after : State} {call : Call} (earlier : Later allowed before middle)
      (chosen : allowed call) (taken : system.step middle call after) : Later allowed before after

theorem Later.keeps {system : System State Call} {allowed : Call → Prop} {before after : State}
    (later : system.Later allowed before after) (property : State → Prop) (holds : property before)
    (kept : ∀ middle call after, allowed call → property middle → system.step middle call after →
      property after) : property after := by
  induction later with
  | now => exact holds
  | step _ chosen taken ih => exact kept _ _ _ chosen ih taken

theorem Later.reachable {system : System State Call} {allowed : Call → Prop} {before after : State}
    (later : system.Later allowed before after) (reached : system.Reachable before) :
    system.Reachable after :=
  later.keeps system.Reachable reached fun _ _ _ _ reached taken => reached.step taken

end System

end Transition
