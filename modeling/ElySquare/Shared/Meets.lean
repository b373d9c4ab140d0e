set_option autoImplicit false

/-- A specification of a fallible computation: what its value satisfies, and which errors it may end in. -/
structure Meets {Error Value : Type} (result : Except Error Value) (stops : Error → Prop)
    (post : Value → Prop) : Prop where
  holds : ∀ value, result = .ok value → post value
  fails : ∀ stop, result = .error stop → stops stop

namespace Meets

variable {Error Value Other : Type} {result : Except Error Value} {stops : Error → Prop}
  {post post' : Value → Prop}

@[simp] theorem ok_iff (value : Value) :
    Meets (.ok value : Except Error Value) stops post ↔ post value :=
  ⟨fun meets => meets.holds value rfl,
    fun holds => ⟨fun _ same => Except.ok.inj same ▸ holds, fun _ differs => (by cases differs)⟩⟩

@[simp] theorem error_iff (stop : Error) :
    Meets (.error stop : Except Error Value) stops post ↔ stops stop :=
  ⟨fun meets => meets.fails stop rfl,
    fun fails => ⟨fun _ differs => (by cases differs), fun _ same => Except.error.inj same ▸ fails⟩⟩

theorem bind {next : Value → Except Error Other} {after : Other → Prop}
    (meets : Meets result stops post) (rest : ∀ value, post value → Meets (next value) stops after) :
    Meets (result >>= next) stops after := by
  cases result with
  | error stop => exact (error_iff stop).mpr ((error_iff stop).mp meets)
  | ok value => exact rest value ((ok_iff value).mp meets)

theorem ite {condition : Prop} [Decidable condition] {other : Except Error Value}
    (yes : condition → Meets result stops post) (no : ¬ condition → Meets other stops post) :
    Meets (if condition then result else other) stops post := by
  by_cases holds : condition
  · rw [if_pos holds]
    exact yes holds
  · rw [if_neg holds]
    exact no holds

theorem weaken (meets : Meets result stops post) (weaker : ∀ value, post value → post' value) :
    Meets result stops post' :=
  ⟨fun value returned => weaker value (meets.holds value returned), meets.fails⟩

end Meets
