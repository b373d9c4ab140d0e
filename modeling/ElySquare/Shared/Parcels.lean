import Mathlib.Algebra.BigOperators.Group.Finset.Basic
import Mathlib.Algebra.Order.BigOperators.Group.Finset
import Mathlib.Algebra.BigOperators.Ring.Finset
import Mathlib.Order.Interval.Finset.Nat
import ElySquare.Shared.Dyadic
import ElySquare.Shared.Run

set_option autoImplicit false

namespace Dyadic

@[ext] structure Parcels (top : Nat) where
  live : Finset Block
  aligned : ∀ b ∈ live, b.Aligned
  inside : ∀ b ∈ live, b.finish ≤ 2 ^ top
  apart : ∀ b ∈ live, ∀ c ∈ live, ∀ x, b.Covers x → c.Covers x → b = c

namespace Parcels

open Block

variable {top : Nat}

structure Clear (p : Parcels top) (r : Block) : Prop where
  aligned : r.Aligned
  inside : r.finish ≤ 2 ^ top
  untouched : ∀ c ∈ p.live, ∀ x, r.Covers x → ¬ c.Covers x

def gaps (p : Parcels top) : Set Block :=
  {r | p.Clear r ∧ ∀ c, p.Clear c → (∀ x, r.Covers x → c.Covers x) → c = r}

inductive Order
  | take (order : Nat)
  | give (b : Block)
  | pass

inductive Step : Parcels top → Order → Parcels top → Prop
  | take (p q : Parcels top) (order : Nat) (gap : Block) (found : gap ∈ p.gaps)
      (enough : order ≤ gap.order) (smallest : ∀ c ∈ p.gaps, order ≤ c.order → gap.order ≤ c.order)
      (live : q.live = insert ⟨gap.offset, order⟩ p.live) : Step p (.take order) q
  | full (p : Parcels top) (order : Nat) (crowded : ∀ r, r.order = order → ¬ p.Clear r) :
      Step p (.take order) p
  | give (p q : Parcels top) (b : Block) (alive : b ∈ p.live) (live : q.live = p.live.erase b) :
      Step p (.give b) q
  | pass (p : Parcels top) : Step p .pass p

def system (top : Nat) : Transition.System (Parcels top) Order where
  start p := p.live = ∅
  step := Step

section Gaps

variable {p : Parcels top} {r : Block}

theorem Clear.order_le (clear : p.Clear r) : r.order ≤ top :=
  (Nat.pow_le_pow_iff_right (by omega)).mp (Nat.le_trans (Nat.le_add_left _ _) clear.inside)

-- By induction on how much larger a range can be.
theorem Clear.within_gap (clear : p.Clear r) : ∃ g ∈ p.gaps, ∀ x, r.Covers x → g.Covers x := by
  induction room : top - r.order using Nat.strong_induction_on generalizing r with
  | _ room ih =>
    by_cases largest : ∀ c, p.Clear c → (∀ x, r.Covers x → c.Covers x) → c = r
    · exact ⟨r, ⟨clear, largest⟩, fun _ here => here⟩
    · push Not at largest
      obtain ⟨c, larger, within, different⟩ := largest
      have bound := larger.order_le
      have grows : r.order < c.order := by
        refine Nat.lt_of_le_of_ne (Coalesced.order_le_of_within r c within) fun same => different ?_
        exact (meets_same_order r c clear.aligned larger.aligned same _ r.covers_start
          (within _ r.covers_start)).symm
      obtain ⟨g, gap, contains⟩ := ih (top - c.order) (by omega) larger rfl
      exact ⟨g, gap, fun x here => contains x (within x here)⟩

theorem gaps_apart (g h : Block) (gapG : g ∈ p.gaps) (gapH : h ∈ p.gaps) (x : Nat)
    (inG : g.Covers x) (inH : h.Covers x) : g = h := by
  rcases Nat.le_total g.order h.order with smaller | smaller
  · exact (gapG.2 h gapH.1 (laminar g h gapG.1.aligned gapH.1.aligned smaller x inG inH)).symm
  · exact gapH.2 g gapG.1 (laminar h g gapH.1.aligned gapG.1.aligned smaller x inH inG)

theorem tiling (p : Parcels top) : Tiling top (p.gaps ∪ p.live) where
  aligned := by
    rintro b (gap | alive)
    · exact gap.1.aligned
    · exact p.aligned b alive
  inside := by
    rintro b (gap | alive)
    · exact gap.1.inside
    · exact p.inside b alive
  cover x bound := by
    by_cases taken : ∃ c ∈ p.live, c.Covers x
    · obtain ⟨c, alive, here⟩ := taken
      exact ⟨c, .inr alive, here⟩
    · have clear : p.Clear ⟨x, 0⟩ := by
        refine ⟨one_dvd x, bound, fun c alive y here there => taken ⟨c, alive, ?_⟩⟩
        have same : y = x := by
          unfold Covers finish at here
          dsimp only at here
          omega
        exact same ▸ there
      obtain ⟨g, gap, within⟩ := clear.within_gap
      exact ⟨g, .inl gap, within x (covers_start ⟨x, 0⟩)⟩
  apart := by
    rintro b (gapB | aliveB) c (gapC | aliveC) x inB inC
    · exact gaps_apart b c gapB gapC x inB inC
    · exact absurd inC (gapB.1.untouched c aliveC x inB)
    · exact absurd inB (gapC.1.untouched b aliveB x inC)
    · exact p.apart b aliveB c aliveC x inB inC

theorem separate (p : Parcels top) : Disjoint p.gaps p.live := by
  refine Set.disjoint_left.mpr fun b gap alive => ?_
  exact gap.1.untouched b alive b.offset b.covers_start b.covers_start

-- Two gaps that are buddies would be one larger gap.
theorem coalesced (p : Parcels top) : Coalesced top p.gaps := by
  intro b gap _ other
  have halves := parent_covers b gap.1.aligned
  have clear : p.Clear b.parent := by
    have merged := p.tiling.merge b (.inl gap) (.inl other)
    refine ⟨parent_aligned b gap.1.aligned, merged.inside _ (.inl rfl), fun c alive x here => ?_⟩
    rcases (halves x).mp here with lower | upper
    · exact gap.1.untouched c alive x lower
    · exact other.1.untouched c alive x upper
  have same := congrArg Block.order (gap.2 _ clear fun x here => (halves x).mpr (.inl here))
  rw [parent_order] at same
  omega

theorem eq_gaps (p : Parcels top) {free : Set Block} (whole : Tiling top (free ∪ p.live))
    (merged : Coalesced top free) (apart : Disjoint free p.live) : free = p.gaps :=
  Coalesced.free_unique whole p.tiling merged p.coalesced apart p.separate

theorem room_iff (p : Parcels top) (order : Nat) :
    (∃ g ∈ p.gaps, order ≤ g.order) ↔ ∃ r, r.order = order ∧ p.Clear r := by
  constructor
  · rintro ⟨g, gap, enough⟩
    have size := Nat.pow_le_pow_right (n := 2) (by omega) enough
    have within (x : Nat) (here : Covers ⟨g.offset, order⟩ x) : g.Covers x :=
      ⟨here.1, Nat.lt_of_lt_of_le here.2 (Nat.add_le_add_left size _)⟩
    refine ⟨⟨g.offset, order⟩, rfl, Nat.dvd_trans (Nat.pow_dvd_pow 2 enough) gap.1.aligned, ?_, ?_⟩
    · exact Nat.le_trans (Nat.add_le_add_left size _) gap.1.inside
    · exact fun c alive x here => gap.1.untouched c alive x (within x here)
  · rintro ⟨r, rfl, clear⟩
    obtain ⟨g, gap, within⟩ := clear.within_gap
    exact ⟨g, gap, Coalesced.order_le_of_within r g within⟩

end Gaps

section Sizes

theorem size_le (blocks : Finset Block) (inside : ∀ b ∈ blocks, b.finish ≤ 2 ^ top)
    (apart : ∀ b ∈ blocks, ∀ c ∈ blocks, ∀ x, b.Covers x → c.Covers x → b = c) :
    ∑ b ∈ blocks, 2 ^ b.order ≤ 2 ^ top := by
  have points (b : Block) : (Finset.Ico b.offset b.finish).card = 2 ^ b.order := by
    rw [Nat.card_Ico, finish, Nat.add_sub_cancel_left]
  have disjoint : (blocks : Set Block).PairwiseDisjoint fun b => Finset.Ico b.offset b.finish := by
    intro b inB c inC different
    refine Finset.disjoint_left.mpr fun x here there => different (apart b inB c inC x ?_ ?_)
    · exact Finset.mem_Ico.mp here
    · exact Finset.mem_Ico.mp there
  have within : (blocks.biUnion fun b => Finset.Ico b.offset b.finish) ⊆ Finset.range (2 ^ top) := by
    intro x covered
    obtain ⟨b, member, here⟩ := Finset.mem_biUnion.mp covered
    exact Finset.mem_range.mpr (Nat.lt_of_lt_of_le (Finset.mem_Ico.mp here).2 (inside b member))
  have few := Finset.card_le_card within
  rw [Finset.card_biUnion disjoint, Finset.card_range] at few
  simpa only [points] using few

theorem Clear.size_le {p : Parcels top} {r : Block} (clear : p.Clear r) :
    ∑ b ∈ p.live, 2 ^ b.order + 2 ^ r.order ≤ 2 ^ top := by
  have new : r ∉ p.live := fun alive => clear.untouched r alive r.offset r.covers_start r.covers_start
  have bound : ∑ b ∈ insert r p.live, 2 ^ b.order ≤ 2 ^ top := by
    refine Parcels.size_le (insert r p.live) ?_ ?_
    · intro b member
      rcases Finset.mem_insert.mp member with rfl | alive
      · exact clear.inside
      · exact p.inside b alive
    · intro b memberB c memberC x inB inC
      rcases Finset.mem_insert.mp memberB with rfl | aliveB <;>
        rcases Finset.mem_insert.mp memberC with rfl | aliveC
      · rfl
      · exact absurd inC (clear.untouched c aliveC x inB)
      · exact absurd inB (clear.untouched b aliveB x inC)
      · exact p.apart b aliveB c aliveC x inB inC
  rwa [Finset.sum_insert new, Nat.add_comm] at bound

def met (order : Nat) (b : Block) : Finset Nat :=
  Finset.Ico (b.offset / 2 ^ order) (b.offset / 2 ^ order + 2 ^ (b.order - order))

theorem mem_met (order : Nat) (b : Block) (aligned : b.Aligned) (x : Nat) (here : b.Covers x) :
    x / 2 ^ order ∈ met order b := by
  have positive := Nat.two_pow_pos order
  refine Finset.mem_Ico.mpr ⟨Nat.div_le_div_right here.1, ?_⟩
  rcases Nat.le_total order b.order with small | large
  · -- the block is a row of such ranges
    obtain ⟨q, start⟩ := Nat.dvd_trans (Nat.pow_dvd_pow 2 small) aligned
    rw [start, Nat.mul_div_cancel_left q positive]
    refine Nat.div_lt_of_lt_mul ?_
    rw [Nat.mul_add, ← Nat.pow_add, Nat.add_sub_cancel' small, ← start]
    exact here.2
  · -- the block is part of one such range
    have range : Aligned ⟨x / 2 ^ order * 2 ^ order, order⟩ := Nat.dvd_mul_left _ _
    have meets : Covers ⟨x / 2 ^ order * 2 ^ order, order⟩ x := by
      refine ⟨Nat.div_mul_le_self x _, ?_⟩
      exact Nat.lt_div_mul_add positive
    have first := (laminar b ⟨_, order⟩ aligned range large x here meets b.offset b.covers_start).1
    rw [Nat.sub_eq_zero_of_le large, Nat.pow_zero]
    have := (Nat.le_div_iff_mul_le positive).mpr first
    omega

theorem crowded (p : Parcels top) (order : Nat) (small : order ≤ top)
    (full : ∀ r, r.order = order → ¬ p.Clear r) : 2 ^ top ≤ ∑ b ∈ p.live, 2 ^ max b.order order := by
  have covered : Finset.range (2 ^ (top - order)) ⊆ p.live.biUnion (met order) := by
    intro w inside
    have bound : w * 2 ^ order + 2 ^ order ≤ 2 ^ top := by
      have next := Nat.mul_le_mul_right (2 ^ order) (Nat.succ_le_of_lt (Finset.mem_range.mp inside))
      rwa [← Nat.pow_add, Nat.sub_add_cancel small, Nat.succ_mul] at next
    by_contra clear
    refine full ⟨w * 2 ^ order, order⟩ rfl ⟨Nat.dvd_mul_left _ _, bound, fun c alive x here there => ?_⟩
    have number : x / 2 ^ order = w :=
      Nat.div_eq_of_lt_le here.1 (by rw [Nat.succ_mul]; exact here.2)
    exact clear (Finset.mem_biUnion.mpr ⟨c, alive, number ▸ mem_met order c (p.aligned c alive) x there⟩)
  have few := (Finset.card_le_card covered).trans Finset.card_biUnion_le
  have scaled := Nat.mul_le_mul_right (2 ^ order) few
  rw [Finset.card_range, ← Nat.pow_add, Nat.sub_add_cancel small, Finset.sum_mul] at scaled
  refine scaled.trans (Nat.le_of_eq (Finset.sum_congr rfl fun b _ => ?_))
  rw [met, Nat.card_Ico, Nat.add_sub_cancel_left, ← Nat.pow_add, Nat.sub_add_eq_max]

theorem room_iff_size (p : Parcels top) (order : Nat) (small : order ≤ top)
    (large : ∀ b ∈ p.live, order ≤ b.order) :
    (∃ r, r.order = order ∧ p.Clear r) ↔ ∑ b ∈ p.live, 2 ^ b.order < 2 ^ top := by
  constructor
  · rintro ⟨r, _, clear⟩
    have bound := clear.size_le
    have positive := r.size_pos
    omega
  · intro space
    by_contra full
    push Not at full
    refine absurd (p.crowded order small full) (Nat.not_le_of_lt ?_)
    rwa [Finset.sum_congr rfl fun b alive => by rw [Nat.max_eq_left (large b alive)]]

end Sizes

end Parcels

end Dyadic
