import Mathlib.Data.List.Nodup
import Mathlib.Data.List.Perm.Subperm
import Mathlib.Data.List.Range
import ElySquare.Shared.Linked

set_option autoImplicit false

namespace Pool

def slots (base stride : Nat) : Nat → List Nat
  | 0 => []
  | count + 1 => base :: slots (base + stride) stride count

section Slots

variable {base stride count p q : Nat}

@[simp] theorem length_slots : (slots base stride count).length = count := by
  induction count generalizing base with
  | zero => rfl
  | succ count ih => exact congrArg (· + 1) ih

theorem mem_slots : p ∈ slots base stride count ↔ ∃ i < count, p = base + i * stride := by
  induction count generalizing base with
  | zero => simp [slots]
  | succ count ih =>
      unfold slots
      rw [List.mem_cons, ih]
      constructor
      · rintro (rfl | ⟨i, small, rfl⟩)
        · exact ⟨0, Nat.succ_pos _, by omega⟩
        · exact ⟨i + 1, by omega, by rw [Nat.add_mul]; omega⟩
      · rintro ⟨i, small, rfl⟩
        cases i with
        | zero => exact .inl (by omega)
        | succ i => exact .inr ⟨i, by omega, by rw [Nat.add_mul]; omega⟩

theorem slots_within (member : p ∈ slots base stride count) :
    base ≤ p ∧ p + stride ≤ base + stride * count := by
  obtain ⟨i, small, rfl⟩ := mem_slots.mp member
  have last : stride * (i + 1) ≤ stride * count := Nat.mul_le_mul_left _ small
  rw [Nat.mul_add, Nat.mul_one, Nat.mul_comm] at last
  exact ⟨by omega, by omega⟩

theorem slots_dvd {alignment : Nat} (first : alignment ∣ base) (step : alignment ∣ stride)
    (member : p ∈ slots base stride count) : alignment ∣ p := by
  obtain ⟨i, _, rfl⟩ := mem_slots.mp member
  exact Nat.dvd_add first (Nat.dvd_mul_left_of_dvd step i)

def Apart (size p q : Nat) : Prop := p + size ≤ q ∨ q + size ≤ p

instance (size : Nat) : Std.Symm (Apart size) := ⟨fun _ _ apart => Or.symm apart⟩

theorem slots_apart : (slots base stride count).Pairwise (Apart stride) := by
  induction count generalizing base with
  | zero => exact .nil
  | succ count ih =>
      exact List.pairwise_cons.mpr ⟨fun q member => .inl (slots_within member).1, ih⟩

end Slots

section Packing

variable {size low high : Nat} {cells : List Nat}

theorem Apart.nodup (positive : 0 < size) (apart : cells.Pairwise (Apart size)) : cells.Nodup :=
  apart.imp fun {p q} separate equal => by
    unfold Apart at separate
    omega

theorem Apart.of_ne {p q : Nat} (apart : cells.Pairwise (Apart size)) (left : p ∈ cells)
    (right : q ∈ cells) (other : p ≠ q) : Apart size p q :=
  apart.forall left right other

theorem packed (inside : ∀ p ∈ cells, low ≤ p ∧ p + size ≤ high)
    (apart : cells.Pairwise (Apart size)) : cells.length * size ≤ high - low := by
  have bytes : (cells.flatMap (List.range' · size)).Nodup := by
    refine List.nodup_flatMap.mpr ⟨fun p _ => List.nodup_range', apart.imp fun {p q} separate => ?_⟩
    intro x inP inQ
    rw [List.mem_range'_1] at inP inQ
    unfold Apart at separate
    omega
  have within : cells.flatMap (List.range' · size) ⊆ List.range' low (high - low) := by
    intro x member
    obtain ⟨p, listed, inP⟩ := List.mem_flatMap.mp member
    have bounds := inside p listed
    rw [List.mem_range'_1] at inP ⊢
    omega
  have few := (List.subperm_of_subset bytes within).length_le
  simpa using few

end Packing

variable {α : Type}

structure Shares (next : α → Option α) (head : Option α) (slots free live : List α) : Prop where
  linked : Linked.Chain next head free
  shared : (free ++ live).Perm slots

namespace Shares

variable {next next' : α → Option α} {head : Option α} {slots free live : List α}

theorem congr (shares : Shares next head slots free live)
    (same : ∀ cell ∈ free, next' cell = next cell) : Shares next' head slots free live :=
  ⟨shares.linked.congr free same, shares.shared⟩

theorem take (cell : α) (shares : Shares next (some cell) slots free live) :
    ∃ rest, free = cell :: rest ∧ Shares next (next cell) slots rest (cell :: live) := by
  obtain ⟨linked, shared⟩ := shares
  obtain ⟨rest, rfl, linked'⟩ := linked.first
  exact ⟨rest, rfl, linked', List.perm_middle.trans shared⟩

theorem give [DecidableEq α] (cell : α) (shares : Shares next head slots free live)
    (alive : cell ∈ live) (linked : next' cell = head)
    (same : ∀ other ∈ free, next' other = next other) :
    Shares next' (some cell) slots (cell :: free) (live.erase cell) := by
  refine ⟨shares.linked.push free cell linked same, ?_⟩
  calc (cell :: (free ++ live.erase cell)).Perm (free ++ cell :: live.erase cell) :=
        List.perm_middle.symm
    _ |>.Perm (free ++ live) := (List.perm_cons_erase alive).symm.append_left _
    _ |>.Perm slots := shares.shared

theorem exhausted (shares : Shares next head slots free live) :
    head = none ↔ live.length = slots.length := by
  have total := shares.shared.length_eq
  rw [List.length_append] at total
  rw [shares.linked.head_eq, List.head?_eq_none_iff, ← List.length_eq_zero_iff]
  omega

theorem mem_iff (shares : Shares next head slots free live) (cell : α) :
    cell ∈ slots ↔ cell ∈ free ∨ cell ∈ live := by
  rw [← shares.shared.mem_iff, List.mem_append]

theorem once (shares : Shares next head slots free live) (distinct : slots.Nodup) :
    free.Nodup ∧ live.Nodup ∧ ∀ cell ∈ free, cell ∉ live := by
  obtain ⟨left, right, apart⟩ := List.nodup_append.mp (shares.shared.nodup_iff.mpr distinct)
  exact ⟨left, right, fun cell inFree inLive => apart cell inFree cell inLive rfl⟩

end Shares

end Pool
