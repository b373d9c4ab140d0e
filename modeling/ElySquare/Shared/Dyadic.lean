import Mathlib.Algebra.Group.Nat.Defs
import Mathlib.Data.Set.BooleanAlgebra
import Mathlib.Data.Set.Insert
import Mathlib.Order.CompletePartialOrder

set_option autoImplicit false

namespace Dyadic

structure Block where
  offset : Nat
  order : Nat
deriving DecidableEq, Repr

namespace Block

def finish (b : Block) : Nat := b.offset + 2 ^ b.order

def Covers (b : Block) (x : Nat) : Prop := b.offset ≤ x ∧ x < b.finish

def Aligned (b : Block) : Prop := 2 ^ b.order ∣ b.offset

def buddy (b : Block) : Block := ⟨b.offset ^^^ 2 ^ b.order, b.order⟩

def parent (b : Block) : Block := ⟨min b.offset b.buddy.offset, b.order + 1⟩

def lower (b : Block) : Block := ⟨b.offset, b.order - 1⟩

@[simp] theorem buddy_order (b : Block) : b.buddy.order = b.order := rfl

@[simp] theorem parent_order (b : Block) : b.parent.order = b.order + 1 := rfl

@[simp] theorem lower_offset (b : Block) : b.lower.offset = b.offset := rfl

@[simp] theorem lower_order (b : Block) : b.lower.order = b.order - 1 := rfl

theorem size_pos (b : Block) : 0 < 2 ^ b.order := Nat.two_pow_pos _

theorem covers_start (b : Block) : b.Covers b.offset :=
  ⟨Nat.le_refl _, Nat.lt_add_of_pos_right b.size_pos⟩

theorem xor_one (q : Nat) : q ^^^ 1 = if q % 2 = 0 then q + 1 else q - 1 := by
  have half : (q ^^^ 1) / 2 = q / 2 := by
    have h := @Nat.xor_div_two_pow q 1 1
    simpa using h
  have low : (q ^^^ 1) % 2 = (q % 2 ^^^ 1 % 2) := by
    have h := @Nat.xor_mod_two_pow q 1 1
    simpa using h
  rcases Nat.mod_two_eq_zero_or_one q with even | odd
  · rw [even] at low
    simp only [even, if_true]
    have : (q ^^^ 1) % 2 = 1 := low
    omega
  · rw [odd] at low
    simp only [odd, Nat.one_ne_zero, if_false]
    have : (q ^^^ 1) % 2 = 0 := low
    omega

theorem buddy_offset_eq (b : Block) (aligned : b.Aligned) :
    b.buddy.offset = 2 ^ b.order * ((b.offset / 2 ^ b.order) ^^^ 1) := by
  obtain ⟨q, hq⟩ := aligned
  have scaled : ∀ a, 2 ^ b.order * a = a <<< b.order := fun a => by
    rw [Nat.shiftLeft_eq, Nat.mul_comm]
  have one : 2 ^ b.order = 1 <<< b.order := by rw [← scaled 1, Nat.mul_one]
  simp only [buddy]
  rw [hq, Nat.mul_div_cancel_left q b.size_pos, scaled, scaled, Nat.shiftLeft_xor_distrib, ← one]

theorem buddy_offset_cases (b : Block) (aligned : b.Aligned) :
    (2 ^ (b.order + 1) ∣ b.offset ∧ b.buddy.offset = b.offset + 2 ^ b.order) ∨
      (2 ^ (b.order + 1) ∣ b.buddy.offset ∧ b.offset = b.buddy.offset + 2 ^ b.order) := by
  have shape := buddy_offset_eq b aligned
  obtain ⟨q, hq⟩ := aligned
  rw [hq, Nat.mul_div_cancel_left q b.size_pos, xor_one] at shape
  rcases Nat.mod_two_eq_zero_or_one q with even | odd
  · left
    rw [if_pos even] at shape
    refine ⟨⟨q / 2, ?_⟩, by rw [shape, hq, Nat.mul_add, Nat.mul_one]⟩
    rw [Nat.pow_succ, Nat.mul_assoc, hq]
    congr 1
    omega
  · right
    rw [if_neg (by omega)] at shape
    refine ⟨⟨q / 2, ?_⟩, ?_⟩
    · rw [Nat.pow_succ, Nat.mul_assoc, shape]
      congr 1
      omega
    · have split : q = (q - 1) + 1 := by omega
      rw [shape, hq]
      conv_lhs => rw [split, Nat.mul_add, Nat.mul_one]

theorem buddy_aligned (b : Block) (aligned : b.Aligned) : b.buddy.Aligned := by
  unfold Aligned
  rw [buddy_offset_eq b aligned]
  exact Nat.dvd_mul_right _ _

theorem buddy_buddy (b : Block) : b.buddy.buddy = b := by
  unfold buddy
  dsimp only
  rw [Nat.xor_assoc, Nat.xor_self, Nat.xor_zero]

theorem buddy_ne (b : Block) (aligned : b.Aligned) : b.buddy.offset ≠ b.offset := by
  have pos := b.size_pos
  rcases buddy_offset_cases b aligned with ⟨_, h⟩ | ⟨_, h⟩ <;> omega

theorem parent_aligned (b : Block) (aligned : b.Aligned) : b.parent.Aligned := by
  have pos := b.size_pos
  unfold Aligned parent
  rcases buddy_offset_cases b aligned with ⟨divides, h⟩ | ⟨divides, h⟩
  · rwa [Nat.min_eq_left (by omega)]
  · rwa [Nat.min_eq_right (by omega)]

theorem parent_covers (b : Block) (aligned : b.Aligned) (x : Nat) :
    b.parent.Covers x ↔ b.Covers x ∨ b.buddy.Covers x := by
  have double : 2 ^ (b.order + 1) = 2 ^ b.order + 2 ^ b.order := by rw [Nat.pow_succ]; omega
  simp only [Covers, finish, parent, buddy_order, double]
  rcases buddy_offset_cases b aligned with ⟨_, h⟩ | ⟨_, h⟩ <;> omega

theorem buddy_not_both (b : Block) (aligned : b.Aligned) (x : Nat) (here : b.Covers x) :
    ¬ b.buddy.Covers x := by
  simp only [Covers, finish, buddy_order] at *
  rcases buddy_offset_cases b aligned with ⟨_, h⟩ | ⟨_, h⟩ <;> omega

theorem lower_aligned (b : Block) (aligned : b.Aligned) : b.lower.Aligned :=
  Nat.dvd_trans (Nat.pow_dvd_pow 2 (Nat.sub_le _ _)) aligned

theorem lower_buddy_offset (b : Block) (aligned : b.Aligned) (positive : 0 < b.order) :
    b.lower.buddy.offset = b.offset + 2 ^ (b.order - 1) := by
  have split : b.order = (b.order - 1) + 1 := by omega
  have pos := Nat.two_pow_pos (b.order - 1)
  rcases buddy_offset_cases b.lower (lower_aligned b aligned) with ⟨_, h⟩ | ⟨divides, h⟩
  · exact h
  · -- The other case would put `b.offset` at an odd multiple of half its size.
    exfalso
    simp only [lower_offset, lower_order] at divides h
    unfold Aligned at aligned
    rw [split] at aligned
    have := (Nat.dvd_add_right divides).mp (h ▸ aligned)
    have := Nat.le_of_dvd pos this
    rw [Nat.pow_succ] at this
    omega

theorem lower_parent (b : Block) (aligned : b.Aligned) (positive : 0 < b.order) :
    b.lower.parent = b := by
  have upper := lower_buddy_offset b aligned positive
  unfold parent
  rw [upper, lower_offset, lower_order, Nat.min_eq_left (Nat.le_add_right _ _)]
  cases b
  simp only [Block.mk.injEq, true_and] at *
  omega

theorem buddy_upper (offset order k : Nat) (aligned : Aligned ⟨offset, order⟩) (below : k < order) :
    buddy ⟨offset, k⟩ = ⟨offset + 2 ^ k, k⟩ := by
  have whole : Aligned ⟨offset, k + 1⟩ := Nat.dvd_trans (Nat.pow_dvd_pow 2 below) aligned
  have upper := lower_buddy_offset ⟨offset, k + 1⟩ whole (Nat.succ_pos k)
  unfold buddy
  rw [show offset ^^^ 2 ^ k = offset + 2 ^ k from upper]

theorem laminar (b c : Block) (hb : b.Aligned) (hc : c.Aligned) (smaller : b.order ≤ c.order)
    (x : Nat) (inB : b.Covers x) (inC : c.Covers x) (y : Nat) (covered : b.Covers y) :
    c.Covers y := by
  obtain ⟨m, hm⟩ := Nat.pow_dvd_pow 2 smaller
  obtain ⟨p, hp⟩ := hb
  obtain ⟨q, hq⟩ := hc
  have cell (z : Nat) : b.Covers z ↔ z / 2 ^ b.order = p := by
    rw [Nat.div_eq_iff b.size_pos]
    simp only [Covers, finish, hp, Nat.mul_comm]
    have := b.size_pos
    omega
  have cell' (z : Nat) : c.Covers z ↔ z / 2 ^ c.order = q := by
    rw [Nat.div_eq_iff c.size_pos]
    simp only [Covers, finish, hq, Nat.mul_comm]
    have := c.size_pos
    omega
  have same : x / 2 ^ b.order = y / 2 ^ b.order := by
    rw [(cell x).mp inB, (cell y).mp covered]
  rw [cell'] at inC ⊢
  rw [hm, ← Nat.div_div_eq_div_mul] at inC ⊢
  rw [← same, inC]

theorem meets_same_order (b c : Block) (hb : b.Aligned) (hc : c.Aligned)
    (same : b.order = c.order) (x : Nat) (inB : b.Covers x) (inC : c.Covers x) : b = c := by
  have first := (laminar b c hb hc (by omega) x inB inC _ b.covers_start).1
  have second := (laminar c b hc hb (by omega) x inC inB _ c.covers_start).1
  cases b
  cases c
  simp_all
  omega

end Block

structure Tiling (top : Nat) (blocks : Set Block) : Prop where
  aligned : ∀ b ∈ blocks, b.Aligned
  inside : ∀ b ∈ blocks, b.finish ≤ 2 ^ top
  cover : ∀ x, x < 2 ^ top → ∃ b ∈ blocks, b.Covers x
  apart : ∀ b ∈ blocks, ∀ c ∈ blocks, ∀ x, b.Covers x → c.Covers x → b = c

namespace Tiling

open Block

variable {top : Nat} {blocks : Set Block}

theorem whole (top : Nat) : Tiling top {⟨0, top⟩} where
  aligned := by rintro b rfl; exact Nat.dvd_zero _
  inside := by rintro b rfl; simp [finish]
  cover := fun x bound => ⟨_, rfl, Nat.zero_le _, by simpa [finish] using bound⟩
  apart := by rintro b rfl c rfl _ _ _; rfl

theorem order_le (tiling : Tiling top blocks) (b : Block) (member : b ∈ blocks) :
    b.order ≤ top := by
  have bound := tiling.inside b member
  exact (Nat.pow_le_pow_iff_right (by omega)).mp (Nat.le_trans (Nat.le_add_left _ _) bound)

theorem offset_lt (tiling : Tiling top blocks) (b : Block) (member : b ∈ blocks) :
    b.offset < 2 ^ top := by
  have bound := tiling.inside b member
  have pos := b.size_pos
  unfold finish at bound
  omega

theorem offset_inj (tiling : Tiling top blocks) (b c : Block) (hb : b ∈ blocks) (hc : c ∈ blocks)
    (same : b.offset = c.offset) : b = c :=
  tiling.apart b hb c hc b.offset b.covers_start (same ▸ c.covers_start)

theorem separated (tiling : Tiling top blocks) (b c : Block) (hb : b ∈ blocks) (hc : c ∈ blocks)
    (different : b ≠ c) : b.finish ≤ c.offset ∨ c.finish ≤ b.offset := by
  by_contra close
  push Not at close
  apply different
  rcases Nat.le_total b.offset c.offset with h | h
  · exact tiling.apart b hb c hc c.offset ⟨h, close.1⟩ c.covers_start
  · exact tiling.apart b hb c hc b.offset b.covers_start ⟨h, close.2⟩

theorem whole_of_top (tiling : Tiling top blocks) (b : Block) (member : b ∈ blocks)
    (large : b.order = top) : b = ⟨0, top⟩ := by
  have bound := tiling.inside b member
  unfold finish at bound
  obtain ⟨offset, order⟩ := b
  obtain rfl : order = top := large
  have start : offset = 0 := by
    dsimp only at bound
    omega
  rw [start]

-- The buddy of a tile below the top starts a tile that is no larger, so a header found there is
-- never a stale one from inside a block.
theorem buddy_start (tiling : Tiling top blocks) (b : Block) (member : b ∈ blocks)
    (below : b.order < top) :
    ∃ c ∈ blocks, c.offset = b.buddy.offset ∧ c.order ≤ b.order ∧ c ≠ b := by
  have aligned := tiling.aligned b member
  have inParent : b.parent.Covers b.buddy.offset :=
    (parent_covers b aligned _).mpr (.inr b.buddy.covers_start)
  have parentInside : b.parent.finish ≤ 2 ^ top := by
    have here : b.parent.Covers b.offset := (parent_covers b aligned _).mpr (.inl b.covers_start)
    have top' := laminar b.parent ⟨0, top⟩ (parent_aligned b aligned) (Nat.dvd_zero _) below
      b.offset here ⟨Nat.zero_le _, by simpa [finish] using tiling.offset_lt b member⟩
    have last := top' (b.parent.finish - 1)
      ⟨by have := here.1; have := here.2; omega, by have := here.2; omega⟩
    have := last.2
    simp only [finish] at *
    omega
  obtain ⟨c, memberC, covers⟩ := tiling.cover b.buddy.offset (by
    have := inParent.2
    omega)
  have small : c.order ≤ b.order := by
    by_contra large
    have nested := laminar b.parent c (parent_aligned b aligned) (tiling.aligned c memberC)
      (by simp only [parent_order]; omega) _ inParent covers
    have same := tiling.apart c memberC b member b.offset
      (nested _ ((parent_covers b aligned _).mpr (.inl b.covers_start))) b.covers_start
    subst same
    omega
  have nested := laminar c b.buddy (tiling.aligned c memberC) (buddy_aligned b aligned) small
    _ covers b.buddy.covers_start
  refine ⟨c, memberC, ?_, small, ?_⟩
  · have := (nested _ c.covers_start).1
    have := covers.1
    omega
  · rintro rfl
    exact buddy_not_both c aligned _ covers c.buddy.covers_start

theorem split (tiling : Tiling top blocks) (b : Block) (member : b ∈ blocks)
    (positive : 0 < b.order) :
    Tiling top (insert b.lower (insert b.lower.buddy (blocks \ {b}))) := by
  have aligned := tiling.aligned b member
  have lowerAligned := lower_aligned b aligned
  have halves (x : Nat) : b.Covers x ↔ b.lower.Covers x ∨ b.lower.buddy.Covers x := by
    rw [← parent_covers b.lower lowerAligned, lower_parent b aligned positive]
  have bound := tiling.inside b member
  have below (c : Block) (within : ∀ x, c.Covers x → b.Covers x) : c.finish ≤ 2 ^ top := by
    have last := within (c.finish - 1) (by have := c.size_pos; unfold Covers finish; omega)
    have := last.2
    have := c.size_pos
    simp only [finish] at *
    omega
  refine ⟨?_, ?_, ?_, ?_⟩
  · rintro c (rfl | rfl | ⟨old, _⟩)
    · exact lowerAligned
    · exact buddy_aligned _ lowerAligned
    · exact tiling.aligned c old
  · rintro c (rfl | rfl | ⟨old, _⟩)
    · exact below _ fun x covered => (halves x).mpr (.inl covered)
    · exact below _ fun x covered => (halves x).mpr (.inr covered)
    · exact tiling.inside c old
  · intro x inRange
    obtain ⟨c, old, covered⟩ := tiling.cover x inRange
    by_cases same : c = b
    · subst same
      rcases (halves x).mp covered with h | h
      · exact ⟨_, .inl rfl, h⟩
      · exact ⟨_, .inr (.inl rfl), h⟩
    · exact ⟨c, .inr (.inr ⟨old, same⟩), covered⟩
  · have clash (c : Block) (old : c ∈ blocks) (other : c ≠ b) (x : Nat) (inC : c.Covers x)
        (inB : b.Covers x) : False := other (tiling.apart c old b member x inC inB)
    rintro c (rfl | rfl | ⟨oldC, otherC⟩) d (rfl | rfl | ⟨oldD, otherD⟩) x inC inD
    · rfl
    · exact (buddy_not_both _ lowerAligned x inC inD).elim
    · exact (clash d oldD otherD x inD ((halves x).mpr (.inl inC))).elim
    · exact (buddy_not_both _ lowerAligned x inD inC).elim
    · rfl
    · exact (clash d oldD otherD x inD ((halves x).mpr (.inr inC))).elim
    · exact (clash c oldC otherC x inC ((halves x).mpr (.inl inD))).elim
    · exact (clash c oldC otherC x inC ((halves x).mpr (.inr inD))).elim
    · exact tiling.apart c oldC d oldD x inC inD

theorem merge (tiling : Tiling top blocks) (b : Block) (member : b ∈ blocks)
    (buddyMember : b.buddy ∈ blocks) :
    Tiling top (insert b.parent (blocks \ {b, b.buddy})) := by
  have aligned := tiling.aligned b member
  have halves := parent_covers b aligned
  have clash (c : Block) (old : c ∈ blocks) (other : c ∉ ({b, b.buddy} : Set Block)) (x : Nat)
      (inC : c.Covers x) (inParent : b.parent.Covers x) : False := by
    rcases (halves x).mp inParent with h | h
    · exact other (.inl (tiling.apart c old b member x inC h))
    · exact other (.inr (tiling.apart c old _ buddyMember x inC h))
  refine ⟨?_, ?_, ?_, ?_⟩
  · rintro c (rfl | ⟨old, _⟩)
    · exact parent_aligned b aligned
    · exact tiling.aligned c old
  · rintro c (rfl | ⟨old, _⟩)
    · have first := tiling.inside b member
      have second := tiling.inside b.buddy buddyMember
      have double : 2 ^ (b.order + 1) = 2 ^ b.order + 2 ^ b.order := by rw [Nat.pow_succ]; omega
      simp only [finish, parent, buddy_order, double] at *
      rcases buddy_offset_cases b aligned with ⟨_, h⟩ | ⟨_, h⟩ <;> omega
    · exact tiling.inside c old
  · intro x inRange
    obtain ⟨c, old, covered⟩ := tiling.cover x inRange
    by_cases pair : c ∈ ({b, b.buddy} : Set Block)
    · refine ⟨_, .inl rfl, (halves x).mpr ?_⟩
      rcases pair with rfl | rfl
      · exact .inl covered
      · exact .inr covered
    · exact ⟨c, .inr ⟨old, pair⟩, covered⟩
  · rintro c (rfl | ⟨oldC, otherC⟩) d (rfl | ⟨oldD, otherD⟩) x inC inD
    · rfl
    · exact (clash d oldD otherD x inD inC).elim
    · exact (clash c oldC otherC x inC inD).elim
    · exact tiling.apart c oldC d oldD x inC inD

end Tiling

def Coalesced (top : Nat) (free : Set Block) : Prop :=
  ∀ b ∈ free, b.order < top → b.buddy ∉ free

namespace Coalesced

open Block

variable {top : Nat} {free live : Set Block}

theorem order_le_of_within (b c : Block) (within : ∀ x, b.Covers x → c.Covers x) :
    b.order ≤ c.order := by
  have pos := b.size_pos
  have first := within b.offset b.covers_start
  have last := within (b.finish - 1) (by unfold Covers finish; omega)
  have size : 2 ^ b.order ≤ 2 ^ c.order := by
    unfold Covers finish at *
    omega
  exact (Nat.pow_le_pow_iff_right (by omega)).mp size

theorem within_free (tiling : Tiling top (free ∪ live)) (coalesced : Coalesced top free)
    (n : Nat) (r : Block) (size : r.order = n) (aligned : r.Aligned) (inside : r.finish ≤ 2 ^ top)
    (unused : ∀ x, r.Covers x → ∀ c ∈ live, ¬ c.Covers x) :
    ∃ c ∈ free, ∀ x, r.Covers x → c.Covers x := by
  induction n generalizing r with
  | zero =>
      obtain ⟨c, member, covers⟩ := tiling.cover r.offset (by
        have := r.covers_start.2
        omega)
      rcases member with member | member
      · exact ⟨c, member, laminar r c aligned (tiling.aligned c (.inl member)) (by omega) _
          r.covers_start covers⟩
      · exact (unused _ r.covers_start c member covers).elim
  | succ n ih =>
      have positive : 0 < r.order := by omega
      have lowerAligned := lower_aligned r aligned
      have halves (x : Nat) : r.Covers x ↔ r.lower.Covers x ∨ r.lower.buddy.Covers x := by
        rw [← parent_covers r.lower lowerAligned, lower_parent r aligned positive]
      have half (h : Block) (order : h.order = n) (hAligned : h.Aligned)
          (within : ∀ x, h.Covers x → r.Covers x) :
          (∃ c ∈ free, ∀ x, r.Covers x → c.Covers x) ∨ h ∈ free := by
        obtain ⟨c, member, contains⟩ := ih h order hAligned (by
            have last := within (h.finish - 1) (by
              have := h.size_pos; unfold Covers finish; omega)
            have := last.2
            have := h.size_pos
            unfold finish at *
            omega)
          (fun x covered => unused x (within x covered))
        have cAligned := tiling.aligned c (.inl member)
        have atStart := contains _ h.covers_start
        rcases Nat.lt_or_ge c.order r.order with small | large
        · right
          have := order_le_of_within h c contains
          rwa [meets_same_order h c hAligned cAligned (by omega) _ h.covers_start atStart]
        · left
          exact ⟨c, member, laminar r c aligned cAligned large _
            (within _ h.covers_start) atStart⟩
      rcases half r.lower (by simp; omega) lowerAligned
        (fun x covered => (halves x).mpr (.inl covered)) with found | lowerFree
      · exact found
      rcases half r.lower.buddy (by simp; omega) (buddy_aligned _ lowerAligned)
        (fun x covered => (halves x).mpr (.inr covered)) with found | upperFree
      · exact found
      · have small : r.lower.order < top := by
          have := tiling.order_le _ (.inl lowerFree)
          have := order_le_of_within r.lower r (fun x covered => (halves x).mpr (.inl covered))
          have bound : r.order ≤ top := (Nat.pow_le_pow_iff_right (by omega)).mp
            (Nat.le_trans (Nat.le_add_left _ _) inside)
          simp only [lower_order] at *
          omega
        exact (coalesced _ lowerFree small upperFree).elim

theorem free_subset {other : Set Block} (tiling : Tiling top (free ∪ live))
    (otherTiling : Tiling top (other ∪ live)) (coalesced : Coalesced top free)
    (otherCoalesced : Coalesced top other) (separate : Disjoint free live)
    (otherSeparate : Disjoint other live) : free ⊆ other := by
  have unused {f : Set Block} (t : Tiling top (f ∪ live)) (s : Disjoint f live) (b : Block)
      (member : b ∈ f) (x : Nat) (covered : b.Covers x) (c : Block) (alive : c ∈ live) :
      ¬ c.Covers x := fun covers => by
    have same := t.apart b (.inl member) c (.inr alive) x covered covers
    exact Set.disjoint_left.mp s member (same ▸ alive)
  intro b member
  obtain ⟨c, memberC, inC⟩ := within_free otherTiling otherCoalesced _ b rfl
    (tiling.aligned b (.inl member)) (tiling.inside b (.inl member))
    (unused tiling separate b member)
  obtain ⟨d, memberD, inD⟩ := within_free tiling coalesced _ c rfl
    (otherTiling.aligned c (.inl memberC)) (otherTiling.inside c (.inl memberC))
    (unused otherTiling otherSeparate c memberC)
  have same : b = d := tiling.apart b (.inl member) d (.inl memberD) b.offset b.covers_start
    (inD _ (inC _ b.covers_start))
  subst same
  have order : b.order = c.order :=
    Nat.le_antisymm (order_le_of_within b c inC) (order_le_of_within c b inD)
  rwa [meets_same_order b c (tiling.aligned b (.inl member))
    (otherTiling.aligned c (.inl memberC)) order _ b.covers_start (inC _ b.covers_start)]

theorem free_unique {other : Set Block} (tiling : Tiling top (free ∪ live))
    (otherTiling : Tiling top (other ∪ live)) (coalesced : Coalesced top free)
    (otherCoalesced : Coalesced top other) (separate : Disjoint free live)
    (otherSeparate : Disjoint other live) : free = other :=
  Set.Subset.antisymm
    (free_subset tiling otherTiling coalesced otherCoalesced separate otherSeparate)
    (free_subset otherTiling tiling otherCoalesced coalesced otherSeparate separate)

theorem free_of_no_live (tiling : Tiling top (free ∪ live)) (coalesced : Coalesced top free)
    (none : live = ∅) : free = {⟨0, top⟩} := by
  subst none
  refine free_unique tiling ?_ coalesced ?_ (Set.disjoint_empty _) (Set.disjoint_empty _)
  · simpa using Tiling.whole top
  · rintro b rfl below
    exact (Nat.lt_irrefl _ below).elim

end Coalesced

end Dyadic
