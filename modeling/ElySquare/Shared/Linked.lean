import Mathlib.Data.List.Basic
import Mathlib.Data.List.Induction

set_option autoImplicit false

namespace Linked

variable {α : Type}

-- Following `next` from `head` visits exactly these cells and then ends.
def Chain (next : α → Option α) : Option α → List α → Prop
  | head, [] => head = none
  | head, cell :: rest => head = some cell ∧ Chain next (next cell) rest

def Back (prev : α → Option α) : Option α → List α → Prop
  | _, [] => True
  | before, cell :: rest => prev cell = before ∧ Back prev (some cell) rest

theorem getLast?_cons_of_ne (first : α) (rest : List α) (nonempty : rest ≠ []) :
    (first :: rest).getLast? = rest.getLast? := by
  rw [List.getLast?_cons, List.getLast?_eq_some_getLast nonempty, Option.getD_some]

namespace Chain

variable {next next' : α → Option α} {head : Option α}

theorem head_eq (cells : List α) (chain : Chain next head cells) : head = cells.head? := by
  cases cells with
  | nil => exact chain
  | cons cell rest => exact chain.1

theorem first (cells : List α) (cell : α) (chain : Chain next (some cell) cells) :
    ∃ rest, cells = cell :: rest ∧ Chain next (next cell) rest := by
  cases cells with
  | nil => cases chain
  | cons other rest =>
      obtain rfl := Option.some.inj chain.1
      exact ⟨rest, rfl, chain.2⟩

theorem unique (cells others : List α) (first : Chain next head cells)
    (second : Chain next head others) : cells = others := by
  induction cells generalizing head others with
  | nil =>
      cases others with
      | nil => rfl
      | cons cell rest => exact absurd (first.symm.trans second.1) (by simp)
  | cons cell rest ih =>
      cases others with
      | nil => exact absurd (second.symm.trans first.1) (by simp)
      | cons other more =>
          have same : cell = other := Option.some.inj (first.1.symm.trans second.1)
          subst same
          rw [ih more first.2 second.2]

theorem suffix (before after : List α) (cell : α) (chain : Chain next head (before ++ cell :: after)) :
    Chain next (next cell) after := by
  induction before generalizing head with
  | nil => exact chain.2
  | cons other rest ih => exact ih chain.2

theorem nodup (cells : List α) (chain : Chain next head cells) : cells.Nodup := by
  induction cells generalizing head with
  | nil => exact List.nodup_nil
  | cons cell rest ih =>
      refine List.nodup_cons.mpr ⟨fun again => ?_, ih chain.2⟩
      obtain ⟨before, after, rfl⟩ := List.append_of_mem again
      have lengths := congrArg List.length
        (unique _ _ chain.2 (suffix before after cell chain.2))
      simp at lengths
      omega

theorem congr (cells : List α) (chain : Chain next head cells)
    (same : ∀ cell ∈ cells, next' cell = next cell) : Chain next' head cells := by
  induction cells generalizing head with
  | nil => exact chain
  | cons cell rest ih =>
      refine ⟨chain.1, ?_⟩
      rw [same cell (by simp)]
      exact ih chain.2 fun other member => same other (by simp [member])

theorem push (cells : List α) (cell : α) (chain : Chain next head cells)
    (linked : next' cell = head) (same : ∀ other ∈ cells, next' other = next other) :
    Chain next' (some cell) (cell :: cells) :=
  ⟨rfl, by rw [linked]; exact congr cells chain same⟩

theorem next_eq (before after : List α) (cell : α)
    (chain : Chain next head (before ++ cell :: after)) : next cell = after.head? :=
  head_eq after (suffix before after cell chain)

theorem remove (before after : List α) (cell : α)
    (chain : Chain next head (before ++ cell :: after))
    (bridged : ∀ other, before.getLast? = some other → next' other = next cell)
    (same : ∀ other ∈ before ++ after, before.getLast? ≠ some other → next' other = next other) :
    Chain next' (if before = [] then next cell else head) (before ++ after) := by
  induction before generalizing head with
  | nil =>
      simp only [List.nil_append, if_true] at *
      exact congr after chain.2 fun other member => same other member (by simp)
  | cons first rest ih =>
      refine ⟨by simpa using chain.1, ?_⟩
      by_cases last : rest = []
      · subst last
        rw [bridged first (by simp)]
        refine congr after chain.2.2 fun other member => same other (by simp [member]) ?_
        have distinct := nodup _ chain
        simp only [List.singleton_append, List.nodup_cons, List.mem_cons] at distinct
        rintro ⟨⟩
        exact distinct.1 (.inr member)
      · have shift := getLast?_cons_of_ne first rest last
        have later := ih chain.2 (fun other h => bridged other (shift.trans h))
          (fun other member h => same other (by
            rcases List.mem_append.mp member with m | m <;> simp [m]) (shift ▸ h))
        rw [if_neg last] at later
        rw [same first (by simp)]
        · exact later
        · intro h
          have distinct := (List.nodup_cons.mp (nodup _ chain)).1
          exact distinct (List.mem_append_left _ (List.mem_of_getLast? (shift ▸ h)))

theorem append (cells : List α) (cell : α) (chain : Chain next head cells)
    (linked : ∀ other, cells.getLast? = some other → next' other = some cell)
    (ended : next' cell = none)
    (same : ∀ other ∈ cells, cells.getLast? ≠ some other → next' other = next other) :
    Chain next' (if cells = [] then some cell else head) (cells ++ [cell]) := by
  induction cells generalizing head with
  | nil => exact ⟨rfl, ended⟩
  | cons first rest ih =>
      refine ⟨by simpa using chain.1, ?_⟩
      by_cases last : rest = []
      · subst last
        rw [linked first (by simp)]
        exact ⟨rfl, ended⟩
      · have shift := getLast?_cons_of_ne first rest last
        have later := ih chain.2 (fun other h => linked other (shift.trans h))
          (fun other member h => same other (by simp [member]) (shift ▸ h))
        rw [if_neg last] at later
        rw [same first (by simp)]
        · exact later
        · intro h
          have distinct := (List.nodup_cons.mp (nodup _ chain)).1
          exact distinct (List.mem_of_getLast? (shift ▸ h))

end Chain

namespace Back

variable {prev prev' : α → Option α} {start : Option α}

theorem congr (cells : List α) (back : Back prev start cells)
    (same : ∀ cell ∈ cells, prev' cell = prev cell) : Back prev' start cells := by
  induction cells generalizing start with
  | nil => trivial
  | cons cell rest ih =>
      refine ⟨by rw [same cell (by simp)]; exact back.1, ?_⟩
      exact ih back.2 fun other member => same other (by simp [member])

theorem restart (cells : List α) (back : Back prev start cells) (start' : Option α)
    (linked : ∀ other, cells.head? = some other → prev' other = start')
    (same : ∀ other ∈ cells.tail, prev' other = prev other) : Back prev' start' cells := by
  cases cells with
  | nil => trivial
  | cons cell rest => exact ⟨linked cell rfl, congr rest back.2 same⟩

theorem push (cells : List α) (cell : α) (back : Back prev none cells)
    (first : prev' cell = none) (linked : ∀ other, cells.head? = some other → prev' other = some cell)
    (same : ∀ other ∈ cells.tail, prev' other = prev other) : Back prev' none (cell :: cells) :=
  ⟨first, restart cells back (some cell) linked same⟩

theorem prev_eq (before after : List α) (cell : α) (back : Back prev start (before ++ cell :: after)) :
    prev cell = (before.getLast?).or start := by
  induction before generalizing start with
  | nil => simpa using back.1
  | cons first rest ih =>
      rw [ih back.2]
      cases h : rest.getLast? <;> simp [List.getLast?_cons, h]

theorem remove (before after : List α) (cell : α) (back : Back prev start (before ++ cell :: after))
    (bridged : ∀ other, after.head? = some other → prev' other = prev cell)
    (same : ∀ other ∈ before ++ after.tail, prev' other = prev other) :
    Back prev' start (before ++ after) := by
  induction before generalizing start with
  | nil => exact restart after back.2 start (fun other h => (bridged other h).trans back.1) same
  | cons first rest ih =>
      exact ⟨by rw [same first (by simp)]; exact back.1,
        ih back.2 fun other member => same other (by simpa using .inr (by simpa using member))⟩

theorem append (cells : List α) (cell : α) (back : Back prev start cells)
    (linked : prev' cell = (cells.getLast?).or start)
    (same : ∀ other ∈ cells, prev' other = prev other) : Back prev' start (cells ++ [cell]) := by
  induction cells generalizing start with
  | nil => exact ⟨by simpa using linked, trivial⟩
  | cons first rest ih =>
      refine ⟨by rw [same first (by simp)]; exact back.1, ih back.2 ?_ ?_⟩
      · rw [linked]
        cases h : rest.getLast? <;> simp [List.getLast?_cons, h]
      · exact fun other member => same other (by simp [member])

theorem init (before after : List α) (back : Back prev start (before ++ after)) :
    Back prev start before := by
  induction before generalizing start with
  | nil => trivial
  | cons cell rest ih => exact ⟨back.1, ih back.2⟩

theorem chain (cells : List α) (back : Back prev none cells) :
    Chain prev cells.getLast? cells.reverse := by
  induction cells using List.reverseRecOn with
  | nil => rfl
  | append_singleton rest cell ih =>
      rw [List.getLast?_concat, List.reverse_concat]
      refine ⟨rfl, ?_⟩
      rw [prev_eq rest [] cell back, Option.or_none]
      exact ih (init rest [cell] back)

end Back

structure Doubly (next prev : α → Option α) (head : Option α) (cells : List α) : Prop where
  forward : Chain next head cells
  backward : Back prev none cells

namespace Doubly

variable {next prev next' prev' : α → Option α} {head : Option α}

theorem congr (cells : List α) (list : Doubly next prev head cells)
    (sameNext : ∀ cell ∈ cells, next' cell = next cell)
    (samePrev : ∀ cell ∈ cells, prev' cell = prev cell) : Doubly next' prev' head cells :=
  ⟨list.forward.congr cells sameNext, list.backward.congr cells samePrev⟩

theorem next_eq (before after : List α) (cell : α)
    (list : Doubly next prev head (before ++ cell :: after)) : next cell = after.head? :=
  Chain.next_eq before after cell list.forward

theorem prev_eq (before after : List α) (cell : α)
    (list : Doubly next prev head (before ++ cell :: after)) : prev cell = before.getLast? := by
  simpa using Back.prev_eq before after cell list.backward

end Doubly

end Linked
