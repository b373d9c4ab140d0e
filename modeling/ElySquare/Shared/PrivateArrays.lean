import Mathlib.Logic.Function.Basic
import ElySquare.Shared.Run

set_option autoImplicit false

open Transition

abbrev PrivateArrays (Name Value : Type) : Type := Name → Option (List Value)

namespace PrivateArrays

variable {Name Value : Type}

inductive Order (Name Value : Type)
  | make (count : Nat)
  | drop (name : Name)
  | write (name : Name) (i : Nat) (value : Value)

def element (a : PrivateArrays Name Value) (name : Name) (i : Nat) : Option Value :=
  (a name).bind fun values => values[i]?

section

variable [DecidableEq Name]

inductive Step : PrivateArrays Name Value → Order Name Value → PrivateArrays Name Value → Prop
  | make (a : PrivateArrays Name Value) (name : Name) (values : List Value) (fresh : a name = none) :
      Step a (.make values.length) (Function.update a name (some values))
  | refuse (a : PrivateArrays Name Value) (count : Nat) : Step a (.make count) a
  | drop (a : PrivateArrays Name Value) (name : Name) (values : List Value)
      (there : a name = some values) : Step a (.drop name) (Function.update a name none)
  | write (a : PrivateArrays Name Value) (name : Name) (values : List Value) (i : Nat) (value : Value)
      (there : a name = some values) (inside : i < values.length) :
      Step a (.write name i value) (Function.update a name (some (values.set i value)))

def system (Name Value : Type) [DecidableEq Name] :
    System (PrivateArrays Name Value) (Order Name Value) where
  start a := ∀ name, a name = none
  step := Step

def Order.Spares (name : Name) (i : Nat) : Order Name Value → Prop
  | .make _ => True
  | .drop other => other ≠ name
  | .write other j _ => ¬ (other = name ∧ j = i)

variable {a b : PrivateArrays Name Value} {order : Order Name Value} {name : Name} {i : Nat} {value : Value}

theorem element_update_of_ne (other : Name) (array : Option (List Value)) (different : name ≠ other) :
    element (Function.update a other array) name i = element a name i := by
  unfold element
  rw [Function.update_of_ne different]

theorem Step.element_kept (taken : Step a order b) (spares : order.Spares name i)
    (there : element a name i = some value) : element b name i = some value := by
  cases taken with
  | make other values fresh =>
      have different : name ≠ other := by
        rintro rfl
        rw [element, fresh] at there
        cases there
      rw [element_update_of_ne other _ different, there]
  | refuse => exact there
  | drop other values _ => rw [element_update_of_ne other _ (Ne.symm spares), there]
  | write other values j written here inside =>
      by_cases same : name = other
      · subst same
        have apart : j ≠ i := fun h => spares ⟨rfl, h⟩
        rw [element, here] at there
        rw [element, Function.update_self, Option.bind_some, List.getElem?_set_ne apart]
        exact there
      · rw [element_update_of_ne other _ same, there]

theorem Step.element_written (taken : Step a (.write name i value) b) : element b name i = some value := by
  cases taken with
  | write _ values _ _ there inside =>
      rw [element, Function.update_self, Option.bind_some, List.getElem?_set_self inside]

theorem element_later (later : (system Name Value).Later (Order.Spares name i) a b)
    (there : element a name i = some value) : element b name i = some value :=
  later.keeps (fun a => element a name i = some value) there
    fun _ _ _ spares there taken => Step.element_kept taken spares there

end

end PrivateArrays
