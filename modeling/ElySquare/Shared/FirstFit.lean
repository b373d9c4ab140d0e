import Mathlib.Algebra.GroupWithZero.Nat
import Mathlib.Data.List.Nodup
import Mathlib.Data.List.Perm.Subperm
import ElySquare.Shared.FirstRun
import ElySquare.Shared.Run

set_option autoImplicit false

namespace FirstFit

structure Span where
  region : Nat
  start : Nat
  length : Nat
deriving DecidableEq, Repr

def Span.Covers (span : Span) (region p : Nat) : Prop :=
  span.region = region ∧ span.start ≤ p ∧ p < span.start + span.length

def Span.Apart (left right : Span) : Prop := ∀ region p, left.Covers region p → ¬ right.Covers region p

end FirstFit

structure FirstFit (size : Nat) where
  newest : Nat
  held : List FirstFit.Span
  inside : ∀ span ∈ held, span.region ≤ newest ∧ 0 < span.length ∧ span.start + span.length ≤ size
  apart : held.Pairwise FirstFit.Span.Apart

namespace FirstFit

variable {size : Nat}

def Free (f : FirstFit size) (region p : Nat) : Prop :=
  p < size ∧ ∀ span ∈ f.held, ¬ span.Covers region p

def heldIn (f : FirstFit size) (region : Nat) : Nat :=
  ((f.held.filter fun span => span.region = region).map Span.length).sum

inductive Order
  | request (length : Nat)
  | release (span : Span)

/-- A span is taken at the lowest place of the newest region where it fits. Where it fits nowhere, a new
region is begun with it; the older ones are not looked at. -/
inductive Step : FirstFit size → Order → FirstFit size → Prop
  | fit (f t : FirstFit size) (length start : Nat)
      (first : FirstRun.First (f.Free f.newest) length start) (newest : t.newest = f.newest)
      (held : t.held = ⟨f.newest, start, length⟩ :: f.held) : Step f (.request length) t
  | grow (f t : FirstFit size) (length : Nat)
      (full : ∀ start, ¬ FirstRun.Run (f.Free f.newest) length start) (newest : t.newest = f.newest + 1)
      (held : t.held = ⟨f.newest + 1, 0, length⟩ :: f.held) : Step f (.request length) t
  | release (f t : FirstFit size) (span : Span) (newest : t.newest = f.newest)
      (held : f.held.Perm (span :: t.held)) : Step f (.release span) t

def system (size : Nat) : Transition.System (FirstFit size) Order where
  start f := f.newest = 0 ∧ f.held = []
  step := Step

theorem crowded (f : FirstFit size) (region length : Nat)
    (full : ∀ start, ¬ FirstRun.Run (f.Free region) length start) : size / length ≤ f.heldIn region := by
  have blocked (w : Nat) (small : w < size / length) : ∃ p, w * length ≤ p ∧ p < w * length + length ∧
      ∃ span ∈ f.held, span.Covers region p := by
    by_contra none
    refine full (w * length) fun p above below => ⟨?_, fun span member covers => ?_⟩
    · have whole : (w + 1) * length ≤ size :=
        (Nat.mul_le_mul_right length small).trans (Nat.div_mul_le_self size length)
      rw [Nat.add_mul, Nat.one_mul] at whole
      omega
    · exact none ⟨p, above, below, span, member, covers⟩
  choose! p above below covered using blocked
  have stretch (w : Nat) (small : w < size / length) : p w / length = w := by
    refine Nat.div_eq_of_lt_le (above w small) ?_
    rw [Nat.succ_mul]
    exact below w small
  have once : ((List.range (size / length)).map p).Nodup := by
    refine List.Nodup.map_on (fun w inW v inV same => ?_) List.nodup_range
    rw [← stretch w (List.mem_range.mp inW), same, stretch v (List.mem_range.mp inV)]
  have within : (List.range (size / length)).map p ⊆
      (f.held.filter fun span => span.region = region).flatMap
        fun span => List.range' span.start span.length := by
    intro q member
    obtain ⟨w, inW, rfl⟩ := List.mem_map.mp member
    obtain ⟨span, held, here, low, high⟩ := covered w (List.mem_range.mp inW)
    refine List.mem_flatMap.mpr ⟨span, List.mem_filter.mpr ⟨held, decide_eq_true here⟩, ?_⟩
    exact List.mem_range'_1.mpr ⟨low, high⟩
  have few := (List.subperm_of_subset once within).length_le
  simpa [List.length_flatMap, heldIn] using few

theorem Step.crowded {f t : FirstFit size} {length : Nat} (taken : Step f (.request length) t)
    (grown : t.newest ≠ f.newest) : size / length ≤ f.heldIn f.newest := by
  cases taken with
  | fit _ _ start first newest held => exact absurd newest grown
  | grow _ _ full newest held => exact f.crowded f.newest length full

end FirstFit
