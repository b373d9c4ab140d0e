import Mathlib.Data.Finset.Basic
import ElySquare.Shared.Simulation

set_option autoImplicit false

/-- Things that are handed out and given back: what came back last goes out first, and only when nothing is
left of that is the next thing of `all` opened. -/
structure Lifo (α : Type) where
  all : List α
  opened : Nat
  recycled : List α
  live : List α

namespace Lifo

open Transition

variable {α : Type}

def new (all : List α) : Lifo α := ⟨all, 0, [], []⟩

def take (l : Lifo α) : Lifo α :=
  match l.recycled with
  | cell :: rest => { l with recycled := rest, live := cell :: l.live }
  | [] =>
    match l.all[l.opened]? with
    | some cell => { l with opened := l.opened + 1, live := cell :: l.live }
    | none => l

def free (l : Lifo α) : List α := l.recycled ++ l.all.drop l.opened

structure Fills (l : Lifo α) : Prop where
  within : l.opened ≤ l.all.length
  shared : (l.recycled ++ l.live).Perm (l.all.take l.opened)

section Take

theorem take_all (l : Lifo α) : l.take.all = l.all := by
  unfold take
  split
  · rfl
  · split <;> rfl

theorem take_free (l : Lifo α) : l.take.free = l.free.tail := by
  obtain ⟨all, opened, recycled, live⟩ := l
  cases recycled with
  | cons cell rest => rfl
  | nil =>
      cases found : all[opened]? with
      | none =>
          have ended := List.drop_eq_nil_of_le (List.getElem?_eq_none_iff.mp found)
          simp [take, free, found, ended]
      | some cell => simp [take, free, found]

theorem take_live (l : Lifo α) : l.take.live = l.free.head?.toList ++ l.live := by
  obtain ⟨all, opened, recycled, live⟩ := l
  cases recycled with
  | cons cell rest => rfl
  | nil => cases found : all[opened]? <;> simp [take, free, found]

theorem Fills.take {l : Lifo α} (fills : l.Fills) : l.take.Fills := by
  obtain ⟨within, shared⟩ := fills
  obtain ⟨all, opened, recycled, live⟩ := l
  cases recycled with
  | cons cell rest => exact ⟨within, List.perm_middle.trans shared⟩
  | nil =>
      cases found : all[opened]? with
      | none => simpa only [Lifo.take, found] using ⟨within, shared⟩
      | some cell =>
          obtain ⟨inside, _⟩ := List.getElem?_eq_some_iff.mp found
          simp only [Lifo.take, found]
          refine ⟨inside, ?_⟩
          simp only [List.take_add_one, found]
          exact (shared.cons _).trans (List.perm_append_singleton _ _).symm

theorem take_opened (l : Lifo α) : l.take.opened = l.opened ∨ l.recycled = [] ∧ ∃ cell,
    l.all[l.opened]? = some cell ∧ l.take.opened = l.opened + 1 ∧ l.take.live = cell :: l.live := by
  obtain ⟨all, opened, recycled, live⟩ := l
  cases recycled with
  | cons cell rest => exact .inl rfl
  | nil => cases found : all[opened]? <;> simp [take, found]

end Take

theorem Fills.few {l : Lifo α} (fills : l.Fills) : l.recycled.length + l.live.length = l.opened := by
  have counted := fills.shared.length_eq
  rwa [List.length_append, List.length_take, Nat.min_eq_left fills.within] at counted

section Runs

variable [DecidableEq α]

def give (l : Lifo α) (cell : α) : Lifo α :=
  { l with recycled := cell :: l.recycled, live := l.live.erase cell }

theorem Fills.give {l : Lifo α} (fills : l.Fills) (cell : α) (alive : cell ∈ l.live) :
    (l.give cell).Fills := by
  refine ⟨fills.within, ?_⟩
  calc (cell :: (l.recycled ++ l.live.erase cell)).Perm (l.recycled ++ cell :: l.live.erase cell) :=
        List.perm_middle.symm
    _ |>.Perm (l.recycled ++ l.live) := (List.perm_cons_erase alive).symm.append_left _
    _ |>.Perm (l.all.take l.opened) := fills.shared

inductive Order (α : Type)
  | take
  | give (cell : α)
  | rest

inductive Step : Lifo α → Order α → Lifo α → Prop
  | take (l : Lifo α) : Step l .take l.take
  | give (l : Lifo α) (cell : α) (alive : cell ∈ l.live) : Step l (.give cell) (l.give cell)
  | rest (l : Lifo α) : Step l .rest l

def system : System (Lifo α) (Order α) where
  start l := ∃ all, l = new all
  step := Step

structure Usage (α : Type) where
  seen : Finset α
  peak : Nat

def Usage.with (usage : Usage α) (live : List α) : Usage α :=
  ⟨usage.seen ∪ live.toFinset, max usage.peak live.length⟩

def observed : System (Lifo α × Usage α) (Order α) :=
  system.recorded ⟨∅, 0⟩ fun l _ usage => usage.with l.live

structure Tight (l : Lifo α) (usage : Usage α) : Prop extends l.Fills where
  peak : (usage.with l.live).peak = l.opened
  seen : (usage.with l.live).seen = (l.all.take l.opened).toFinset

variable {l t : Lifo α} {usage : Usage α}

theorem Tight.keep (tight : Tight l usage) (fills : t.Fills) (all : t.all = l.all)
    (opened : t.opened = l.opened) : Tight t (usage.with l.live) := by
  refine ⟨fills, ?_, ?_⟩
  · have few := fills.few
    rw [Usage.with, tight.peak]
    simp only
    omega
  · have inside : t.live.toFinset ⊆ (t.all.take t.opened).toFinset := by
      intro cell member
      rw [List.mem_toFinset] at member ⊢
      exact fills.shared.subset (List.mem_append_right _ member)
    rw [Usage.with, tight.seen, ← all, ← opened, Finset.union_eq_left.mpr inside]

theorem Tight.take (tight : Tight l usage) : Tight l.take (usage.with l.live) := by
  have fills := tight.toFills.take
  rcases l.take_opened with same | ⟨none, cell, found, more, live⟩
  · exact tight.keep fills l.take_all same
  · have few := tight.toFills.few
    rw [none] at few
    refine ⟨fills, ?_, ?_⟩
    · rw [Usage.with, tight.peak, more, live]
      simp only [List.length_nil, List.length_cons] at few ⊢
      omega
    · -- everything opened before is out now
      have out := tight.shared
      rw [none, List.nil_append] at out
      rw [Usage.with, tight.seen, live, more, take_all, List.take_add_one, found]
      ext other
      simp only [Finset.mem_union, List.mem_toFinset, List.mem_cons, List.mem_append, out.mem_iff,
        Option.mem_toList, Option.some.injEq, eq_comm]
      tauto

theorem Tight.step (tight : Tight l usage) (order : Order α) (taken : Step l order t) :
    Tight t (usage.with l.live) := by
  cases taken with
  | take => exact tight.take
  | give cell alive => exact tight.keep (tight.toFills.give cell alive) rfl rfl
  | rest => exact tight.keep tight.toFills rfl rfl

theorem tight_of_reachable (reached : (observed (α := α)).Reachable (l, usage)) : Tight l usage := by
  refine System.invariant observed (fun s => Tight s.1 s.2) ?_ ?_ reached
  · rintro ⟨l, usage⟩ ⟨⟨all, rfl⟩, rfl⟩
    exact ⟨⟨Nat.zero_le _, .nil⟩, rfl, rfl⟩
  · rintro ⟨l, usage⟩ order ⟨t, _⟩ tight ⟨taken, rfl⟩
    exact tight.step order taken

end Runs

end Lifo
