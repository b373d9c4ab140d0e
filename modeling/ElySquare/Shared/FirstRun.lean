import Mathlib.Logic.Basic

set_option autoImplicit false

namespace FirstRun

variable (free : Nat → Prop)

def Run (count start : Nat) : Prop := ∀ j, start ≤ j → j < start + count → free j

structure First (count start : Nat) : Prop where
  run : Run free count start
  least : ∀ other, other < start → ¬ Run free count other

/-- What a scan knows at `pos` when no run of `count` positions has ended yet: the last `length` positions
are free, and none before them starts such a run. -/
structure Partial (count pos length start : Nat) : Prop where
  short : length < count
  within : length ≤ pos
  begins : length ≠ 0 → start + length = pos
  tail : ∀ j, pos - length ≤ j → j < pos → free j
  before : ∀ other, other < pos - length → ¬ Run free count other

theorem First.unique {count start other : Nat} (here : First free count start)
    (there : First free count other) : start = other := by
  rcases Nat.lt_trichotomy start other with less | same | more
  · exact (there.least _ less here.run).elim
  · exact same
  · exact (here.least _ more there.run).elim

variable {free} {count pos length start : Nat}

theorem Partial.empty (positive : 0 < count) : Partial free count 0 0 0 :=
  ⟨positive, Nat.le_refl _, fun h => (h rfl).elim, fun _ _ small => (Nat.not_lt_zero _ small).elim,
    fun _ small => (Nat.not_lt_zero _ small).elim⟩

def continued (length start pos : Nat) : Nat := if length = 0 then pos else start

theorem Partial.continued_eq (known : Partial free count pos length start) :
    continued length start pos = pos - length := by
  unfold continued
  split
  next zero => simp [zero]
  next positive => have := known.begins positive; omega

theorem Partial.found (known : Partial free count pos length start) (more : Nat)
    (clear : ∀ j, pos ≤ j → j < pos + more → free j) (enough : count ≤ length + more) :
    First free count (continued length start pos) := by
  rw [known.continued_eq]
  have within := known.within
  refine ⟨fun j above below => ?_, known.before⟩
  rcases Nat.lt_or_ge j pos with early | late
  · exact known.tail j above early
  · exact clear j late (by omega)

theorem Partial.grow (known : Partial free count pos length start) (more : Nat)
    (clear : ∀ j, pos ≤ j → j < pos + more → free j) (few : length + more < count) :
    Partial free count (pos + more) (length + more) (continued length start pos) := by
  have within := known.within
  have same : pos + more - (length + more) = pos - length := by omega
  refine ⟨few, by omega, fun _ => ?_, ?_, ?_⟩
  · rw [known.continued_eq]
    omega
  · intro j above below
    rcases Nat.lt_or_ge j pos with early | late
    · exact known.tail j (by omega) early
    · exact clear j late (by omega)
  · rw [same]
    exact known.before

theorem Partial.reset (known : Partial free count pos length start) (more : Nat)
    (closed : ∀ j, pos ≤ j → j < pos + more → ¬ free j) (positive : 0 < more) :
    Partial free count (pos + more) 0 start := by
  have short := known.short
  refine ⟨by omega, Nat.zero_le _, fun h => (h rfl).elim, fun j above below => by omega, ?_⟩
  intro other small run
  rcases Nat.lt_or_ge other (pos - length) with early | late
  · exact known.before other early run
  rcases Nat.lt_or_ge other pos with inside | after
  · exact closed pos (Nat.le_refl _) (by omega) (run pos (Nat.le_of_lt inside) (by omega))
  · exact closed other after (by omega) (run other (Nat.le_refl _) (by omega))

theorem Partial.finish (known : Partial free count pos length start)
    (bounded : ∀ j, free j → j < pos) (other : Nat) : ¬ Run free count other := by
  intro run
  have short := known.short
  rcases Nat.lt_or_ge other (pos - length) with early | late
  · exact known.before other early run
  · have last := bounded _ (run (other + count - 1) (by omega) (by omega))
    omega

def search (isFree : Nat → Bool) (bound count : Nat) : Option Nat :=
  (List.range bound).find? fun start => (List.range count).all fun j => isFree (start + j)

section Search

variable {isFree : Nat → Bool} {bound : Nat}

theorem run_iff (agrees : ∀ j, isFree j = true ↔ free j) (count start : Nat) :
    ((List.range count).all fun j => isFree (start + j)) = true ↔ Run free count start := by
  simp only [List.all_eq_true, List.mem_range, agrees]
  constructor
  · intro run j above below
    have here := run (j - start) (by omega)
    rwa [Nat.add_sub_cancel' above] at here
  · intro run j small
    exact run (start + j) (Nat.le_add_right _ _) (by omega)

theorem search_some (agrees : ∀ j, isFree j = true ↔ free j) (bounded : ∀ j, free j → j < bound)
    (positive : 0 < count) (start : Nat) :
    search isFree bound count = some start ↔ First free count start := by
  unfold search
  rw [List.find?_range_eq_some, run_iff agrees, List.mem_range]
  constructor
  · rintro ⟨run, _, least⟩
    refine ⟨run, fun other small also => ?_⟩
    have skipped := least other small
    rw [(run_iff agrees count other).mpr also] at skipped
    cases skipped
  · intro first
    refine ⟨first.run, bounded start (first.run start (Nat.le_refl _) (by omega)), fun j small => ?_⟩
    rw [Bool.not_eq_true']
    exact Bool.eq_false_iff.mpr fun also => first.least j small ((run_iff agrees count j).mp also)

theorem search_none (agrees : ∀ j, isFree j = true ↔ free j) (bounded : ∀ j, free j → j < bound)
    (positive : 0 < count) :
    search isFree bound count = none ↔ ∀ start, ¬ Run free count start := by
  unfold search
  rw [List.find?_range_eq_none]
  constructor
  · intro none start run
    have small := bounded start (run start (Nat.le_refl _) (by omega))
    have skipped := none start small
    rw [(run_iff agrees count start).mpr run] at skipped
    cases skipped
  · intro none start _
    rw [Bool.not_eq_true']
    exact Bool.eq_false_iff.mpr fun also => none start ((run_iff agrees count start).mp also)

end Search

end FirstRun
