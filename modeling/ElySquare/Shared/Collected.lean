import Mathlib.Data.Set.Card
import ElySquare.Shared.Interning
import ElySquare.Shared.Run

set_option autoImplicit false

namespace Interning

open Classical in
noncomputable def Table.keep {Text : Type} (table : Table Text) (places : Set Nat) : Table Text where
  textAt i := if i ∈ places then table.textAt i else none
  once := by
    intro i j text atI atJ
    split at atI
    · split at atJ
      · exact table.once i j text atI atJ
      · cases atJ
    · cases atI

structure Collected (Text : Type) where
  capacity : Nat
  table : Table Text
  marks : Set Nat
  below : ∀ i text, table.textAt i = some text → i < capacity
  within : ∀ i ∈ marks, ∃ text, table.textAt i = some text

namespace Collected

open Transition

variable {Text : Type}

def new (capacity : Nat) : Collected Text where
  capacity := capacity
  table := .empty
  marks := ∅
  below _ _ held := by cases held
  within _ member := member.elim

structure Next (r : Collected Text) (i : Nat) : Prop where
  room : i < r.capacity
  free : r.table.textAt i = none
  first : ∀ k < i, r.table.textAt k ≠ none

def enter (r : Collected Text) (i : Nat) (text : Text) (absent : r.table.Absent text) (next : r.Next i) :
    Collected Text where
  capacity := r.capacity
  table := r.table.enter i text absent
  marks := r.marks
  below j other held := by
    by_cases here : j = i
    · exact here ▸ next.room
    · exact r.below j other ((Table.enter_there j here).symm.trans held)
  within j member := by
    obtain ⟨other, held⟩ := r.within j member
    exact ⟨other, Table.enter_kept next.free j other held⟩

theorem enter_there {r : Collected Text} {i : Nat} {text : Text} {absent : r.table.Absent text}
    {next : r.Next i} (j : Nat) (other : j ≠ i) :
    (r.enter i text absent next).table.textAt j = r.table.textAt j :=
  Function.update_of_ne other ..

def mark (r : Collected Text) (i : Nat) (used : ∃ text, r.table.textAt i = some text) : Collected Text where
  capacity := r.capacity
  table := r.table
  marks := insert i r.marks
  below := r.below
  within j member := by
    rcases member with rfl | member
    · exact used
    · exact r.within j member

noncomputable def sweep (r : Collected Text) : Collected Text where
  capacity := r.capacity
  table := r.table.keep r.marks
  marks := ∅
  below i text held := by
    simp only [Table.keep] at held
    split at held
    · exact r.below i text held
    · cases held
  within _ member := member.elim

def dead (r : Collected Text) : Set Nat := { i | r.table.textAt i ≠ none ∧ i ∉ r.marks }

inductive Order (Text : Type)
  | intern (text : Text)
  | mark (i : Nat)
  | sweep

inductive Step : Collected Text → Order Text → Collected Text → Prop
  | again (r : Collected Text) (text : Text) (i : Nat) (held : r.table.textAt i = some text) :
      Step r (.intern text) r
  | enter (r : Collected Text) (text : Text) (i : Nat) (absent : r.table.Absent text) (next : r.Next i) :
      Step r (.intern text) (r.enter i text absent next)
  | mark (r : Collected Text) (i : Nat) (used : ∃ text, r.table.textAt i = some text) :
      Step r (.mark i) (r.mark i used)
  | sweep (r : Collected Text) : Step r .sweep r.sweep

def system : System (Collected Text) (Order Text) where
  start r := ∃ capacity, r = new capacity
  step := Step

end Collected

end Interning
