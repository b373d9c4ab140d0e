import Mathlib.Logic.Function.Basic

set_option autoImplicit false

namespace Interning

structure Table (Text : Type) where
  textAt : Nat → Option Text
  once : ∀ i j text, textAt i = some text → textAt j = some text → i = j

variable {Text Id : Type}

namespace Table

def empty : Table Text := ⟨fun _ => none, fun _ _ _ held => by cases held⟩

def Absent (table : Table Text) (text : Text) : Prop := ∀ i, table.textAt i ≠ some text

def enter (table : Table Text) (i : Nat) (text : Text) (absent : table.Absent text) : Table Text where
  textAt := Function.update table.textAt i (some text)
  once := by
    intro j k text' atJ atK
    by_cases hereJ : j = i <;> by_cases hereK : k = i
    · exact hereJ.trans hereK.symm
    · rw [hereJ, Function.update_self] at atJ
      rw [Function.update_of_ne hereK, ← Option.some.inj atJ] at atK
      exact (absent k atK).elim
    · rw [hereK, Function.update_self] at atK
      rw [Function.update_of_ne hereJ, ← Option.some.inj atK] at atJ
      exact (absent j atJ).elim
    · rw [Function.update_of_ne hereJ] at atJ
      rw [Function.update_of_ne hereK] at atK
      exact table.once j k text' atJ atK

variable {table : Table Text} {i : Nat} {text : Text} {absent : table.Absent text}

@[simp] theorem enter_here : (table.enter i text absent).textAt i = some text :=
  Function.update_self ..

theorem enter_there (j : Nat) (other : j ≠ i) :
    (table.enter i text absent).textAt j = table.textAt j :=
  Function.update_of_ne other ..

theorem enter_kept (free : table.textAt i = none) (j : Nat) (text' : Text)
    (held : table.textAt j = some text') : (table.enter i text absent).textAt j = some text' := by
  have other : j ≠ i := fun here => by
    rw [here, free] at held
    cases held
  exact (enter_there j other).trans held

end Table

structure Records (idOf : Nat → Id) (table : Table Text) (log : List (Text × Id)) : Prop where
  held : ∀ text id, (text, id) ∈ log → ∃ i, id = idOf i ∧ table.textAt i = some text
  known : ∀ i text, table.textAt i = some text → (text, idOf i) ∈ log

namespace Records

variable {idOf : Nat → Id} {table : Table Text} {log : List (Text × Id)}

theorem empty : Records idOf (Table.empty : Table Text) [] :=
  ⟨fun _ _ listed => (by cases listed), fun _ _ held => (by cases held)⟩

theorem again (records : Records idOf table log) (i : Nat) (text : Text)
    (held : table.textAt i = some text) : Records idOf table ((text, idOf i) :: log) := by
  refine ⟨fun text' id listed => ?_, fun j text' held' => List.mem_cons_of_mem _ (records.known j text' held')⟩
  rcases List.mem_cons.mp listed with here | before
  · obtain ⟨rfl, rfl⟩ := Prod.mk.inj here
    exact ⟨i, rfl, held⟩
  · exact records.held text' id before

theorem enter (records : Records idOf table log) (i : Nat) (text : Text) (absent : table.Absent text)
    (free : table.textAt i = none) :
    Records idOf (table.enter i text absent) ((text, idOf i) :: log) := by
  refine ⟨fun text' id listed => ?_, fun j text' held => ?_⟩
  · rcases List.mem_cons.mp listed with here | before
    · obtain ⟨rfl, rfl⟩ := Prod.mk.inj here
      exact ⟨i, rfl, Table.enter_here⟩
    · obtain ⟨j, named, held⟩ := records.held text' id before
      exact ⟨j, named, Table.enter_kept free j text' held⟩
  · by_cases here : j = i
    · subst here
      obtain rfl := Option.some.inj (Table.enter_here.symm.trans held)
      exact List.mem_cons_self
    · exact List.mem_cons_of_mem _ (records.known j text' ((Table.enter_there j here).symm.trans held))

theorem same_iff (records : Records idOf table log)
    (distinct : ∀ i j text text', table.textAt i = some text → table.textAt j = some text' →
      idOf i = idOf j → i = j)
    (text text' : Text) (id id' : Id) (listed : (text, id) ∈ log) (listed' : (text', id') ∈ log) :
    id = id' ↔ text = text' := by
  obtain ⟨i, rfl, held⟩ := records.held text id listed
  obtain ⟨j, rfl, held'⟩ := records.held text' id' listed'
  constructor
  · intro same
    obtain rfl := distinct i j text text' held held' same
    exact Option.some.inj (held.symm.trans held')
  · rintro rfl
    rw [table.once i j text held held']

theorem absent (records : Records idOf table log) (text : Text) (never : ∀ id, (text, id) ∉ log) :
    table.Absent text :=
  fun i held => never (idOf i) (records.known i text held)

end Records

end Interning
