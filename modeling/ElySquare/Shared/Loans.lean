import Mathlib.Data.List.Basic

set_option autoImplicit false

namespace Loans

/-- What happens to things that are lent out. A log of it has the newest event first. -/
inductive Event (Key Size : Type)
  | lent (key : Key) (size : Size)
  | returned (key : Key) (size : Size)
deriving DecidableEq, Repr

variable {Key Size Class : Type}

def Event.key : Event Key Size → Key
  | .lent key _ => key
  | .returned key _ => key

def Event.size : Event Key Size → Size
  | .lent _ size => size
  | .returned _ size => size

def Event.isLent : Event Key Size → Bool
  | .lent _ _ => true
  | .returned _ _ => false

def lentCount (log : List (Event Key Size)) : Nat := log.countP Event.isLent

def returnedCount (log : List (Event Key Size)) : Nat := log.countP fun event => !event.isLent

section Counts

variable (log : List (Event Key Size)) (key : Key) (size : Size)

theorem lentCount_lent : lentCount (.lent key size :: log) = lentCount log + 1 :=
  List.countP_cons_of_pos rfl

theorem lentCount_returned : lentCount (.returned key size :: log) = lentCount log :=
  List.countP_cons_of_neg Bool.false_ne_true

theorem returnedCount_lent : returnedCount (.lent key size :: log) = returnedCount log :=
  List.countP_cons_of_neg Bool.false_ne_true

theorem returnedCount_returned : returnedCount (.returned key size :: log) = returnedCount log + 1 :=
  List.countP_cons_of_pos rfl

theorem counts_returned (events : List (Event Key Size)) (back : ∀ event ∈ events, event.isLent = false) :
    lentCount (events ++ log) = lentCount log ∧
      returnedCount (events ++ log) = events.length + returnedCount log := by
  have none : events.countP Event.isLent = 0 :=
    List.countP_eq_zero.mpr fun event listed => by simp [back event listed]
  have all : (events.countP fun event => !event.isLent) = events.length :=
    List.countP_eq_length.mpr fun event listed => by simp [back event listed]
  constructor
  · rw [lentCount, List.countP_append, none, Nat.zero_add]
    rfl
  · rw [returnedCount, List.countP_append, all]
    rfl

end Counts

variable [DecidableEq Key]

def last (log : List (Event Key Size)) (key : Key) : Option (Event Key Size) :=
  log.find? fun event => event.key = key

theorem last_here (log : List (Event Key Size)) (event : Event Key Size) (key : Key)
    (here : event.key = key) : last (event :: log) key = some event :=
  List.find?_cons_of_pos (decide_eq_true here)

theorem last_there (log : List (Event Key Size)) (event : Event Key Size) (key : Key)
    (other : event.key ≠ key) : last (event :: log) key = last log key :=
  List.find?_cons_of_neg (by simp [other])

theorem last_append (events log : List (Event Key Size)) (key : Key)
    (listed : ∃ event ∈ events, event.key = key) :
    ∃ event ∈ events, last (events ++ log) key = some event := by
  obtain ⟨event, listed, here⟩ := listed
  cases found : last events key with
  | none => exact (List.find?_eq_none.mp found event listed (decide_eq_true here)).elim
  | some first =>
      refine ⟨first, List.mem_of_find?_eq_some found, ?_⟩
      rw [last, List.find?_append, ← last, found]
      rfl

theorem last_others (events log : List (Event Key Size)) (key : Key)
    (others : ∀ event ∈ events, event.key ≠ key) : last (events ++ log) key = last log key := by
  induction events with
  | nil => rfl
  | cons event events ih =>
      obtain ⟨first, rest⟩ := List.forall_mem_cons.mp others
      exact (last_there (events ++ log) event key first).trans (ih rest)

theorem last_key {log : List (Event Key Size)} {key : Key} {event : Event Key Size}
    (found : last log key = some event) : event.key = key := by
  simpa using List.find?_some found

-- A thing is lent out while it is in, and comes back while it is out. All sizes that it is lent
-- and returned under round to the same class.
def Lawful (rounds : Size → Class) (earlier : List (Event Key Size)) : Event Key Size → Prop
  | .lent key size => ∀ event, last earlier key = some event →
      ∃ old, event = .returned key old ∧ rounds old = rounds size
  | .returned key size => ∃ old, last earlier key = some (.lent key old) ∧ rounds old = rounds size

inductive Legal (rounds : Size → Class) : List (Event Key Size) → Prop
  | nil : Legal rounds []
  | cons (event : Event Key Size) (earlier : List (Event Key Size)) (legal : Legal rounds earlier)
      (lawful : Lawful rounds earlier event) : Legal rounds (event :: earlier)

namespace Legal

variable {rounds : Size → Class}

theorem lawful (log : List (Event Key Size)) (legal : Legal rounds log) (later : List (Event Key Size))
    (event : Event Key Size) (earlier : List (Event Key Size)) (split : log = later ++ event :: earlier) :
    Lawful rounds earlier event := by
  induction later generalizing log with
  | nil =>
      subst split
      cases legal with
      | cons _ _ _ lawful => exact lawful
  | cons newest rest ih =>
      subst split
      cases legal with
      | cons _ _ legal _ => exact ih _ legal rfl

theorem same_class {log : List (Event Key Size)} (legal : Legal rounds log) (event : Event Key Size)
    (member : event ∈ log) :
    ∃ newest, last log event.key = some newest ∧ rounds newest.size = rounds event.size := by
  induction legal with
  | nil => cases member
  | cons newest earlier _ lawful ih =>
      rcases List.mem_cons.mp member with rfl | old
      · exact ⟨event, last_here earlier event _ rfl, rfl⟩
      · obtain ⟨before, found, same⟩ := ih old
        by_cases here : newest.key = event.key
        · refine ⟨newest, last_here earlier newest _ here, Eq.trans ?_ same⟩
          rw [← here] at found
          cases newest with
          | lent key size =>
              obtain ⟨old, rfl, rounded⟩ := lawful before found
              exact rounded.symm
          | returned key size =>
              obtain ⟨old, out, rounded⟩ := lawful
              obtain rfl := Option.some.inj (out.symm.trans found)
              exact rounded.symm
        · exact ⟨before, (last_there earlier newest _ here).trans found, same⟩

end Legal

def Out (log : List (Event Key Size)) (key : Key) : Prop := ∃ size, last log key = some (.lent key size)

theorem out_other (event : Event Key Size) (log : List (Event Key Size)) (key : Key)
    (other : event.key ≠ key) : Out (event :: log) key ↔ Out log key := by
  rw [Out, Out, last_there log event key other]

theorem Legal.balance {rounds : Size → Class} {log : List (Event Key Size)} (legal : Legal rounds log)
    (keys : List Key) (once : keys.Nodup) (all : ∀ key, key ∈ keys ↔ Out log key) :
    keys.length + returnedCount log = lentCount log := by
  induction legal generalizing keys with
  | nil =>
      have none : keys = [] := List.eq_nil_iff_forall_not_mem.mpr fun key listed => by
        obtain ⟨_, found⟩ := (all key).mp listed
        cases found
      rw [none]
      rfl
  | cons event earlier legal lawful ih =>
      cases event with
      | lent key size =>
          have listed : key ∈ keys := (all key).mpr ⟨size, last_here _ _ key rfl⟩
          have before : ¬ Out earlier key := fun ⟨old, found⟩ => by
            obtain ⟨_, differs, _⟩ := lawful _ found
            cases differs
          have rest := ih (keys.erase key) (once.erase key) fun other => by
            rw [once.mem_erase_iff, all other]
            by_cases here : other = key
            · subst here
              exact iff_of_false (fun both => both.1 rfl) before
            · rw [and_iff_right here]
              exact out_other _ _ _ (Ne.symm here)
          have length := List.length_erase_of_mem listed
          have positive := List.length_pos_of_mem listed
          rw [lentCount_lent, returnedCount_lent]
          omega
      | returned key size =>
          have gone : key ∉ keys := fun listed => by
            obtain ⟨old, found⟩ := (all key).mp listed
            cases (last_here earlier (.returned key size) key rfl).symm.trans found
          obtain ⟨old, out, _⟩ := lawful
          have rest := ih (key :: keys) (List.nodup_cons.mpr ⟨gone, once⟩) fun other => by
            by_cases here : other = key
            · subst here
              exact iff_of_true List.mem_cons_self ⟨old, out⟩
            · rw [List.mem_cons, or_iff_right here, all other]
              exact out_other _ _ _ (Ne.symm here)
          rw [List.length_cons] at rest
          rw [lentCount_returned, returnedCount_returned]
          omega

end Loans
