import Mathlib.Data.List.Perm.Basic

set_option autoImplicit false

namespace Trade

/-- Which events of a log give an owner an item, and which take one back. -/
structure Reading (Event Item : Type) where
  asked : Event → Option Item
  returned : Event → Option Item

variable {Event Item : Type}

def since (before after : List Event) : List Event := after.take (after.length - before.length)

theorem since_append (events before : List Event) : since before (events ++ before) = events := by
  unfold since
  rw [List.length_append, Nat.add_sub_cancel, List.take_left]

namespace Reading

variable (r : Reading Event Item)

def askedSince (before after : List Event) : List Item := (since before after).filterMap r.asked

def returnedSince (before after : List Event) : List Item := (since before after).filterMap r.returned

def Traded (before after : List Event) (asked returned : List Item) : Prop :=
  ∃ events, after = events ++ before ∧
    events.filterMap r.asked = asked ∧ events.filterMap r.returned = returned

-- An owner of `owned` has come to own `owned'`: what it asked for and what it had is what it gave
-- back and what it has.
def Exchange (before after : List Event) (owned owned' : List Item) : Prop :=
  ∃ asked returned, r.Traded before after asked returned ∧ (asked ++ owned).Perm (returned ++ owned')

variable {r} {before middle after : List Event} {asked asked' returned returned' : List Item}
  {owned owned' owned'' : List Item}

namespace Traded

theorem eq (traded : r.Traded before after asked returned) :
    r.askedSince before after = asked ∧ r.returnedSince before after = returned := by
  obtain ⟨events, rfl, rfl, rfl⟩ := traded
  unfold askedSince returnedSince
  rw [since_append]
  exact ⟨rfl, rfl⟩

theorem none (log : List Event) : r.Traded log log [] [] := ⟨[], rfl, rfl, rfl⟩

theorem trans (first : r.Traded before middle asked returned)
    (second : r.Traded middle after asked' returned') :
    r.Traded before after (asked' ++ asked) (returned' ++ returned) := by
  obtain ⟨events, rfl, rfl, rfl⟩ := first
  obtain ⟨events', rfl, rfl, rfl⟩ := second
  refine ⟨events' ++ events, (List.append_assoc _ _ _).symm, ?_, ?_⟩
  · exact List.filterMap_append
  · exact List.filterMap_append

end Traded

theorem balance_trans (first : (asked ++ owned).Perm (returned ++ owned'))
    (second : (asked' ++ owned').Perm (returned' ++ owned'')) :
    (asked' ++ asked ++ owned).Perm (returned' ++ returned ++ owned'') := by
  calc (asked' ++ asked ++ owned).Perm (asked' ++ (returned ++ owned')) := by
        rw [List.append_assoc]
        exact first.append_left _
    _ |>.Perm (returned ++ (asked' ++ owned')) := List.perm_append_comm_assoc _ _ _
    _ |>.Perm (returned ++ (returned' ++ owned'')) := second.append_left _
    _ |>.Perm (returned' ++ returned ++ owned'') := by
        rw [List.append_assoc]
        exact List.perm_append_comm_assoc _ _ _

namespace Exchange

theorem perm (log : List Event) (same : owned.Perm owned') : r.Exchange log log owned owned' :=
  ⟨[], [], .none log, same⟩

theorem trans (first : r.Exchange before middle owned owned')
    (second : r.Exchange middle after owned' owned'') : r.Exchange before after owned owned'' := by
  obtain ⟨asked, returned, traded, same⟩ := first
  obtain ⟨asked', returned', traded', same'⟩ := second
  exact ⟨_, _, traded.trans traded', balance_trans same same'⟩

theorem ask (item : Item) (traded : r.Traded before after [item] []) :
    r.Exchange before after owned (item :: owned) := ⟨_, _, traded, .refl _⟩

theorem giveBack (item : Item) (traded : r.Traded before after [] [item]) :
    r.Exchange before after (item :: owned) owned := ⟨_, _, traded, .refl _⟩

theorem settle (exchange : r.Exchange before after owned owned') (obtained back : List Item)
    (balanced : (back ++ owned).Perm obtained) :
    (r.returnedSince before after ++ back ++ owned').Perm (r.askedSince before after ++ obtained) := by
  obtain ⟨asked, returned, traded, same⟩ := exchange
  obtain ⟨askedEq, returnedEq⟩ := traded.eq
  rw [askedEq, returnedEq]
  calc (returned ++ back ++ owned').Perm (back ++ (returned ++ owned')) := by
        rw [List.append_assoc]
        exact List.perm_append_comm_assoc _ _ _
    _ |>.Perm (back ++ (asked ++ owned)) := same.symm.append_left _
    _ |>.Perm (asked ++ (back ++ owned)) := List.perm_append_comm_assoc _ _ _
    _ |>.Perm (asked ++ obtained) := balanced.append_left _

end Exchange

def ExchangeOf (r : Reading Event Item) (kind : Item → Prop) (before after : List Event)
    (owned owned' : List Item) : Prop :=
  ∃ asked returned, r.Traded before after asked returned ∧ (asked ++ owned).Perm (returned ++ owned') ∧
    ∀ item ∈ asked, kind item

namespace ExchangeOf

variable {kind kind' : Item → Prop}

theorem perm (log : List Event) (same : owned.Perm owned') : r.ExchangeOf kind log log owned owned' :=
  ⟨[], [], .none log, same, fun _ member => by cases member⟩

theorem trans (first : r.ExchangeOf kind before middle owned owned')
    (second : r.ExchangeOf kind' middle after owned' owned'')
    (weaker : ∀ item, kind' item → kind item) : r.ExchangeOf kind before after owned owned'' := by
  obtain ⟨asked, returned, traded, same, kinds⟩ := first
  obtain ⟨asked', returned', traded', same', kinds'⟩ := second
  refine ⟨_, _, traded.trans traded', balance_trans same same', fun item member => ?_⟩
  rcases List.mem_append.mp member with new | old
  · exact weaker item (kinds' item new)
  · exact kinds item old

theorem round_trip (exchange : r.ExchangeOf kind before after owned owned) :
    (r.returnedSince before after).Perm (r.askedSince before after) ∧
      ∀ item ∈ r.returnedSince before after, kind item := by
  obtain ⟨asked, returned, traded, same, kinds⟩ := exchange
  obtain ⟨askedEq, returnedEq⟩ := traded.eq
  rw [askedEq, returnedEq]
  have perm := (List.perm_append_right_iff owned).mp same
  exact ⟨perm.symm, fun item member => kinds item (perm.mem_iff.mpr member)⟩

end ExchangeOf

end Reading

end Trade
