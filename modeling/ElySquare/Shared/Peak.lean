import Mathlib.Data.Finset.Card
import ElySquare.Shared.Loans

set_option autoImplicit false

namespace Loans

variable {Key Size Class : Type} [DecidableEq Key] [DecidableEq Class] (rounds : Size → Class)
  (c : Class)

def isOut (log : List (Event Key Size)) (key : Key) : Bool := (last log key).any Event.isLent

def keys : List (Event Key Size) → Finset Key
  | [] => ∅
  | .lent key size :: earlier => if rounds size = c then insert key (keys earlier) else keys earlier
  | .returned _ _ :: earlier => keys earlier

def outs (log : List (Event Key Size)) : Finset Key := (keys rounds c log).filter fun key => isOut log key

def peak : List (Event Key Size) → Nat
  | [] => 0
  | event :: earlier => max (peak earlier) (outs rounds c (event :: earlier)).card

inductive Frugal : List (Event Key Size) → Prop
  | nil : Frugal []
  | cons (event : Event Key Size) (earlier : List (Event Key Size)) (frugal : Frugal earlier)
      (last : ∀ key size, event = .lent key size → rounds size = c → last earlier key = none →
        ∀ other ∈ keys rounds c earlier, isOut earlier other = true) : Frugal (event :: earlier)

inductive Spent : List (Event Key Size) → Prop
  | nil : Spent []
  | cons (event : Event Key Size) (earlier : List (Event Key Size)) (spent : Spent earlier)
      (new : ∀ key size, event = .lent key size → rounds size = c → last earlier key = none) :
      Spent (event :: earlier)

variable {rounds c} {log : List (Event Key Size)}

theorem isOut_iff (key : Key) : isOut log key = true ↔ Out log key := by
  unfold isOut Out
  cases found : last log key with
  | none => simp
  | some event =>
      have here := last_key found
      cases event with
      | lent k size =>
          obtain rfl : k = key := here
          simp [Event.isLent]
      | returned k size => simp [Event.isLent]

theorem outs_subset : outs rounds c log ⊆ keys rounds c log := Finset.filter_subset _ _

theorem mem_outs (key : Key) :
    key ∈ outs rounds c log ↔ key ∈ keys rounds c log ∧ Out log key := by
  rw [outs, Finset.mem_filter, isOut_iff]

theorem keys_lent_of_eq (key : Key) (size : Size) (same : rounds size = c) :
    keys rounds c (.lent key size :: log) = insert key (keys rounds c log) := if_pos same

theorem keys_lent_of_ne (key : Key) (size : Size) (other : rounds size ≠ c) :
    keys rounds c (.lent key size :: log) = keys rounds c log := if_neg other

theorem mem_keys (key : Key) :
    key ∈ keys rounds c log ↔ ∃ size, .lent key size ∈ log ∧ rounds size = c := by
  induction log with
  | nil => simp [keys]
  | cons event earlier ih =>
      cases event with
      | lent k size =>
          by_cases same : rounds size = c
          · rw [keys_lent_of_eq k size same, Finset.mem_insert, ih]
            constructor
            · rintro (rfl | ⟨size', listed, same'⟩)
              · exact ⟨size, List.mem_cons_self, same⟩
              · exact ⟨size', List.mem_cons_of_mem _ listed, same'⟩
            · rintro ⟨size', listed, same'⟩
              rcases List.mem_cons.mp listed with here | old
              · cases here
                exact .inl rfl
              · exact .inr ⟨size', old, same'⟩
          · rw [keys_lent_of_ne k size same, ih]
            refine exists_congr fun size' => and_congr_left fun same' => ?_
            rw [List.mem_cons, or_iff_right]
            rintro ⟨⟩
            exact same same'
      | returned k size =>
          change key ∈ keys rounds c earlier ↔ _
          rw [ih]
          simp

omit [DecidableEq Class] in
theorem Legal.lent_before (legal : Legal rounds log) (event : Event Key Size)
    (member : event ∈ log) : ∃ size, .lent event.key size ∈ log ∧ rounds size = rounds event.size := by
  induction legal with
  | nil => cases member
  | cons newest earlier _ lawful ih =>
      rcases List.mem_cons.mp member with rfl | old
      · cases event with
        | lent key size => exact ⟨size, List.mem_cons_self, rfl⟩
        | returned key size =>
            obtain ⟨old, out, same⟩ := lawful
            exact ⟨old, List.mem_cons_of_mem _ (List.mem_of_find?_eq_some out), same⟩
      · obtain ⟨size, listed, same⟩ := ih old
        exact ⟨size, List.mem_cons_of_mem _ listed, same⟩

theorem Legal.known {key : Key} {size : Size} (lawful : Lawful rounds log (.lent key size))
    (legal : Legal rounds log) (before : last log key ≠ none) : key ∈ keys rounds (rounds size) log := by
  obtain ⟨event, found⟩ := Option.ne_none_iff_exists'.mp before
  obtain ⟨old, rfl, same⟩ := lawful event found
  obtain ⟨size', listed, same'⟩ := legal.lent_before _ (List.mem_of_find?_eq_some found)
  exact (mem_keys key).mpr ⟨size', listed, same'.trans same⟩

theorem last_of_keys (key : Key) (member : key ∈ keys rounds c log) : last log key ≠ none := by
  obtain ⟨size, listed, _⟩ := (mem_keys key).mp member
  intro none
  exact List.find?_eq_none.mp none _ listed (decide_eq_true rfl)

theorem Frugal.card_keys (frugal : Frugal rounds c log) (legal : Legal rounds log) :
    (keys rounds c log).card = peak rounds c log := by
  induction frugal with
  | nil => rfl
  | cons event earlier _ first ih =>
      cases legal with
      | cons _ _ legal lawful =>
          have count := ih legal
          -- no new thing: the peak stays, since only things of the class can be out
          have stays (same : keys rounds c (event :: earlier) = keys rounds c earlier) :
              (keys rounds c (event :: earlier)).card = peak rounds c (event :: earlier) := by
            have few : (outs rounds c (event :: earlier)).card ≤ (keys rounds c (event :: earlier)).card :=
              Finset.card_le_card outs_subset
            rw [same] at few ⊢
            rw [peak, ← count, Nat.max_eq_left few]
          cases event with
          | returned key size => exact stays rfl
          | lent key size =>
              by_cases same : rounds size = c
              · by_cases known : key ∈ keys rounds c earlier
                · exact stays ((keys_lent_of_eq key size same).trans (Finset.insert_eq_of_mem known))
                · have fresh : last earlier key = none := by
                    by_contra before
                    exact known (same ▸ Legal.known lawful legal before)
                  have out := first key size rfl same fresh
                  have all : outs rounds c (.lent key size :: earlier) =
                      keys rounds c (.lent key size :: earlier) := by
                    refine Finset.filter_true_of_mem fun other listed => ?_
                    rw [keys_lent_of_eq key size same] at listed
                    rcases Finset.mem_insert.mp listed with rfl | old
                    · exact (isOut_iff other).mpr ⟨size, last_here earlier _ other rfl⟩
                    · have apart : key ≠ other := fun here => known (here ▸ old)
                      refine (isOut_iff other).mpr ((out_other (.lent key size) _ _ apart).mpr ?_)
                      exact (isOut_iff other).mp (out other old)
                  rw [peak, all, keys_lent_of_eq key size same, Finset.card_insert_of_notMem known, ← count]
                  omega
              · exact stays (keys_lent_of_ne key size same)

def lentOf (rounds : Size → Class) (c : Class) (log : List (Event Key Size)) : Nat :=
  log.countP fun event => event.isLent && decide (rounds event.size = c)

theorem Spent.card_keys (spent : Spent rounds c log) :
    (keys rounds c log).card = lentOf rounds c log := by
  induction spent with
  | nil => rfl
  | cons event earlier _ new ih =>
      unfold lentOf at ih ⊢
      cases event with
      | returned key size => rwa [List.countP_cons_of_neg (by simp [Event.isLent])]
      | lent key size =>
          by_cases same : rounds size = c
          · have fresh : key ∉ keys rounds c earlier := fun known =>
              last_of_keys key known (new key size rfl same)
            rw [keys_lent_of_eq key size same, Finset.card_insert_of_notMem fresh, ih,
              List.countP_cons_of_pos (by simp [Event.isLent, Event.size, same])]
          · rwa [keys_lent_of_ne key size same, List.countP_cons_of_neg (by simp [Event.size, same])]

end Loans
