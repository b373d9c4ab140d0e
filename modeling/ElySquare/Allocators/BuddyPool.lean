import ElySquare.Allocators.BuddyLists

set_option autoImplicit false

namespace ElySquare.Buddy

open Dyadic

/-- The pool without headers: for each order the free offsets, first to be reused first, and the blocks in
use. `arena` is the size of the chunk in bytes, `top` the order of the first block. -/
structure Pool where
  arena : Nat
  top : Nat
  bins : Nat → List Nat
  live : List Block

namespace Pool

def free (p : Pool) : Set Block := freeBlocks p.bins

def inUse (p : Pool) : Set Block := {b | b ∈ p.live}

def push (p : Pool) (b : Block) : Pool := { p with bins := pushBin p.bins b }

def take (p : Pool) (b : Block) : Pool := { p with bins := takeBin p.bins b }

def split (p : Pool) (offset : Nat) : Nat → Nat → Pool
  | 0, _ => p
  | order + 1, targetOrder =>
    if order ≥ targetOrder then
      split (p.push (Block.buddy ⟨offset, order⟩)) offset order targetOrder
    else p

def merge : Nat → Pool → Block → Pool
  | 0, p, b => p.push b
  | room + 1, p, b =>
    if b.buddy.offset < p.arena ∧ b.buddy.offset ∈ p.bins b.order then
      merge room (p.take b.buddy) b.parent
    else p.push b

def firstFit (p : Pool) (targetOrder : Nat) : Option Nat :=
  (List.range' targetOrder (maxOrder + 1 - targetOrder)).find? fun k => p.bins k ≠ []

def alloc (p : Pool) (size : Nat) : Option Block × Pool :=
  if size = 0 ∨ weCantPutIt size = true then (none, p)
  else
    let targetOrder := sizeToOrder size
    match p.firstFit targetOrder with
    | none => (none, p)
    | some foundOrder =>
      match (p.bins foundOrder).head? with
      | none => (none, p)
      | some offset =>
        let p := (p.take ⟨offset, foundOrder⟩).split offset foundOrder targetOrder
        (some ⟨offset, targetOrder⟩, { p with live := ⟨offset, targetOrder⟩ :: p.live })

def release (p : Pool) (b : Block) : Pool :=
  merge (maxOrder - b.order) { p with live := p.live.filter (· ≠ b) } b

def construct (size : Nat) : Pool :=
  let arena := pagesOf size * pageSize
  push ⟨arena, sizeToOrder arena, fun _ => [], []⟩ ⟨0, sizeToOrder arena⟩

/-- `held` are the blocks that are on no free list, all of order at least `low`. -/
structure Valid (low : Nat) (p : Pool) (held : Set Block) : Prop where
  tiling : Tiling p.top (p.free ∪ held)
  separate : Disjoint p.free held
  orders : ∀ b ∈ p.free ∪ held, low ≤ b.order
  nodup : ∀ k, (p.bins k).Nodup
  low_ge : minOrder ≤ low
  top_le : p.top ≤ maxOrder
  arena_le : p.top < maxOrder → p.arena ≤ 2 ^ p.top

theorem free_push (p : Pool) (b : Block) : (p.push b).free = insert b p.free :=
  freeBlocks_pushBin p.bins b

theorem free_take (p : Pool) (b : Block) (nodup : (p.bins b.order).Nodup) :
    (p.take b).free = p.free \ {b} :=
  freeBlocks_takeBin p.bins b nodup

section Valid

variable {low : Nat} {p : Pool} {held : Set Block} {b : Block}

theorem Valid.order_le (valid : Valid low p held) (b : Block) (member : b ∈ p.free ∪ held) :
    b.order ≤ maxOrder :=
  Nat.le_trans (valid.tiling.order_le b member) valid.top_le

theorem Valid.order_ge (valid : Valid low p held) (b : Block) (member : b ∈ p.free ∪ held) :
    minOrder ≤ b.order :=
  Nat.le_trans valid.low_ge (valid.orders b member)

theorem Valid.offset_lt (valid : Valid low p held) (b : Block) (member : b ∈ p.free ∪ held) :
    b.offset < nullOffset := by
  have first := valid.tiling.offset_lt b member
  have second := Nat.pow_le_pow_right (n := 2) (by omega) valid.top_le
  have third : 2 ^ maxOrder < nullOffset := by decide
  omega

theorem Valid.congr (valid : Valid low p held) {q : Pool} (bins : q.bins = p.bins)
    (top : q.top = p.top) (arena : q.arena = p.arena) : Valid low q held := by
  have same : q.free = p.free := congrArg freeBlocks bins
  exact ⟨top ▸ same ▸ valid.tiling, same ▸ valid.separate, same ▸ valid.orders,
    bins ▸ valid.nodup, valid.low_ge, top ▸ valid.top_le, top ▸ arena ▸ valid.arena_le⟩

theorem Valid.push (valid : Valid low p (insert b held)) (other : b ∉ held) :
    Valid low (p.push b) held := by
  have whole : (p.push b).free ∪ held = p.free ∪ insert b held := by
    rw [free_push, Set.insert_union, Set.union_insert]
  have absent : b ∉ p.free := Set.disjoint_right.mp valid.separate (.inl rfl)
  refine ⟨whole ▸ valid.tiling, ?_, whole ▸ valid.orders, fun k => ?_, valid.low_ge, valid.top_le,
    valid.arena_le⟩
  · rw [free_push, Set.disjoint_insert_left]
    exact ⟨other, valid.separate.mono_right (Set.subset_insert _ _)⟩
  · by_cases same : k = b.order
    · subst same
      simp only [Pool.push, pushBin, Function.update_self, List.nodup_cons]
      exact ⟨absent, valid.nodup _⟩
    · simp only [Pool.push, pushBin, Function.update_of_ne same]
      exact valid.nodup k

theorem Valid.take (valid : Valid low p held) (member : b ∈ p.free) :
    Valid low (p.take b) (insert b held) := by
  have fewer := free_take p b (valid.nodup _)
  have whole : (p.take b).free ∪ insert b held = p.free ∪ held := by
    rw [fewer]
    ext c
    by_cases same : c = b <;> simp [same, member]
  refine ⟨whole ▸ valid.tiling, ?_, whole ▸ valid.orders, fun k => ?_, valid.low_ge, valid.top_le,
    valid.arena_le⟩
  · rw [fewer, Set.disjoint_insert_right]
    exact ⟨fun h => h.2 rfl, valid.separate.mono_left fun _ h => h.1⟩
  · by_cases same : k = b.order
    · subst same
      simp only [Pool.take, takeBin, Function.update_self]
      exact (valid.nodup _).erase _
    · simp only [Pool.take, takeBin, Function.update_of_ne same]
      exact valid.nodup k

theorem Valid.fresh (valid : Valid low p (insert b held)) (c : Block)
    (different : c ≠ b) (x : Nat) (meets : c.Covers x) (here : b.Covers x) :
    c ∉ p.free ∧ c ∉ held := by
  have apart (member : c ∈ p.free ∪ insert b held) : False :=
    different (valid.tiling.apart c member b (.inr (.inl rfl)) x meets here)
  exact ⟨fun h => apart (.inl h), fun h => apart (.inr (.inr h))⟩

theorem Valid.split_step (valid : Valid low p (insert b held)) (other : b ∉ held)
    (large : low < b.order) :
    Valid low p (insert b.lower.buddy (insert b.lower held)) ∧ b.lower ∉ held ∧
      b.lower.buddy ∉ insert b.lower held := by
  have positive : 0 < b.order := by omega
  have member : b ∈ p.free ∪ insert b held := .inr (.inl rfl)
  have aligned := valid.tiling.aligned b member
  have lowerAligned := Block.lower_aligned b aligned
  have halves (x : Nat) : b.lower.Covers x ∨ b.lower.buddy.Covers x → b.Covers x := fun h => by
    rw [← Block.lower_parent b aligned positive]
    exact (Block.parent_covers b.lower lowerAligned x).mpr h
  have smaller (c : Block) (order : c.order = b.order - 1) : c ≠ b := fun same => by
    subst same
    omega
  have lowerFresh := valid.fresh b.lower (smaller _ rfl) _ b.lower.covers_start
    (halves _ (.inl b.lower.covers_start))
  have upperFresh := valid.fresh b.lower.buddy (smaller _ rfl) _ b.lower.buddy.covers_start
    (halves _ (.inr b.lower.buddy.covers_start))
  have notFree : b ∉ p.free := Set.disjoint_right.mp valid.separate (.inl rfl)
  have upperOther : b.lower.buddy ∉ insert b.lower held := by
    rintro (same | h)
    · exact Block.buddy_ne _ lowerAligned (congrArg Block.offset same)
    · exact upperFresh.2 h
  have whole : insert b.lower (insert b.lower.buddy ((p.free ∪ insert b held) \ {b})) =
      p.free ∪ insert b.lower.buddy (insert b.lower held) := by
    ext c
    by_cases same : c = b
    · subst same
      simp [notFree, other, or_comm]
    · simp [same]
      tauto
  refine ⟨⟨whole ▸ valid.tiling.split b member positive, ?_, ?_, valid.nodup, valid.low_ge,
    valid.top_le, valid.arena_le⟩, lowerFresh.2, upperOther⟩
  · rw [Set.disjoint_insert_right, Set.disjoint_insert_right]
    exact ⟨upperFresh.1, lowerFresh.1, valid.separate.mono_right (Set.subset_insert _ _)⟩
  · rintro c (h | rfl | rfl | h)
    · exact valid.orders c (.inl h)
    · simp only [Block.buddy_order, Block.lower_order]; omega
    · simp only [Block.lower_order]; omega
    · exact valid.orders c (.inr (.inr h))

theorem Valid.merge_step (valid : Valid low p (insert b held)) (other : b ∉ held)
    (found : b.buddy ∈ p.free) :
    Valid low (p.take b.buddy) (insert b.parent held) ∧ b.parent ∉ held := by
  have taken := valid.take found
  have member : b ∈ (p.take b.buddy).free ∪ insert b.buddy (insert b held) := .inr (.inr (.inl rfl))
  have buddyMember : b.buddy ∈ (p.take b.buddy).free ∪ insert b.buddy (insert b held) :=
    .inr (.inl rfl)
  have aligned := valid.tiling.aligned b (.inr (.inl rfl))
  have buddyHeld : b.buddy ∉ held := fun h =>
    Set.disjoint_left.mp valid.separate found (.inr h)
  have bFree : b ∉ (p.take b.buddy).free := Set.disjoint_right.mp taken.separate (.inr (.inl rfl))
  have buddyFree : b.buddy ∉ (p.take b.buddy).free :=
    Set.disjoint_right.mp taken.separate (.inl rfl)
  have parentNe : b.parent ≠ b := fun same => by
    have := congrArg Block.order same
    simp at this
  have parentFresh := valid.fresh b.parent parentNe b.offset
    ((Block.parent_covers b aligned _).mpr (.inl b.covers_start)) b.covers_start
  have whole : insert b.parent (((p.take b.buddy).free ∪ insert b.buddy (insert b held)) \
      {b, b.buddy}) = (p.take b.buddy).free ∪ insert b.parent held := by
    ext c
    by_cases same : c = b
    · subst same
      simp [bFree, other]
    · by_cases same' : c = b.buddy
      · subst same'
        simp [buddyFree, buddyHeld]
      · simp [same, same']
  refine ⟨⟨whole ▸ taken.tiling.merge b member buddyMember, ?_, ?_, taken.nodup, valid.low_ge,
    valid.top_le, valid.arena_le⟩, parentFresh.2⟩
  · rw [Set.disjoint_insert_right]
    refine ⟨fun h => parentFresh.1 ?_, taken.separate.mono_right fun _ h => .inr (.inr h)⟩
    rw [free_take p _ (valid.nodup _)] at h
    exact h.1
  · rintro c (h | rfl | h)
    · exact taken.orders c (.inl h)
    · have := valid.orders b (.inr (.inl rfl))
      simp only [Block.parent_order]
      omega
    · exact valid.orders c (.inr (.inr h))

end Valid

theorem split_fields (p : Pool) (offset k t : Nat) :
    (p.split offset k t).top = p.top ∧ (p.split offset k t).arena = p.arena ∧
      (p.split offset k t).live = p.live := by
  induction k generalizing p with
  | zero => exact ⟨rfl, rfl, rfl⟩
  | succ k ih =>
      unfold split
      split
      · exact ih _
      · exact ⟨rfl, rfl, rfl⟩

theorem merge_fields (room : Nat) (p : Pool) (b : Block) :
    (merge room p b).top = p.top ∧ (merge room p b).arena = p.arena ∧
      (merge room p b).live = p.live := by
  induction room generalizing p b with
  | zero => exact ⟨rfl, rfl, rfl⟩
  | succ room ih =>
      unfold merge
      split
      · exact ih _ _
      · exact ⟨rfl, rfl, rfl⟩

theorem lower_succ (offset k : Nat) : Block.lower ⟨offset, k + 1⟩ = ⟨offset, k⟩ := rfl

section Coalesced

variable {low offset k : Nat} {p : Pool} {held : Set Block}

theorem coalesced_push (coalesced : Coalesced p.top p.free) (b : Block)
    (alone : b.order < p.top → b.buddy ∉ p.free ∧ b.buddy ≠ b) :
    Coalesced (p.push b).top (p.push b).free := by
  rw [free_push]
  rintro c (rfl | member) below
  · rintro (same | found)
    · exact (alone below).2 same
    · exact (alone below).1 found
  · rintro (same | found)
    · have back : c = b.buddy := by rw [← same, Block.buddy_buddy]
      have order : b.order = c.order := by rw [← same, Block.buddy_order]
      exact (alone (order ▸ below)).1 (back ▸ member)
    · exact coalesced c member below found

theorem coalesced_take (coalesced : Coalesced p.top p.free) (b : Block)
    (nodup : (p.bins b.order).Nodup) : Coalesced (p.take b).top (p.take b).free := by
  rw [free_take p b nodup]
  exact fun c member below found => coalesced c member.1 below found.1

theorem coalesced_split (valid : Valid low p (insert ⟨offset, k⟩ held))
    (other : (⟨offset, k⟩ : Block) ∉ held) (coalesced : Coalesced p.top p.free) (t : Nat)
    (enough : low ≤ t) : Coalesced (p.split offset k t).top (p.split offset k t).free := by
  induction k generalizing p with
  | zero => exact coalesced
  | succ k ih =>
      unfold split
      split
      next more =>
        obtain ⟨cut, lowerOther, upperOther⟩ := valid.split_step other (by simp only; omega)
        refine ih (cut.push upperOther) lowerOther (coalesced_push coalesced _ fun _ => ?_)
        have aligned := valid.tiling.aligned ⟨offset, k + 1⟩ (.inr (.inl rfl))
        have lowerAligned := Block.lower_aligned _ aligned
        rw [← lower_succ, Block.buddy_buddy]
        refine ⟨fun found => ?_, fun same =>
          Block.buddy_ne _ lowerAligned (congrArg Block.offset same).symm⟩
        have := valid.tiling.apart _ (.inl found) ⟨offset, k + 1⟩ (.inr (.inl rfl)) offset
          (Block.covers_start _) (Block.covers_start _)
        have := congrArg Block.order this
        simp at this
      next => exact coalesced

theorem Valid.weaken (valid : Valid low p held) : Valid minOrder p held :=
  ⟨valid.tiling, valid.separate, fun b h => Nat.le_trans valid.low_ge (valid.orders b h), valid.nodup,
    Nat.le_refl _, valid.top_le, valid.arena_le⟩

theorem coalesced_alloc (valid : Valid low p p.inUse) (coalesced : Coalesced p.top p.free)
    (size : Nat) : Coalesced (p.alloc size).2.top (p.alloc size).2.free := by
  unfold alloc
  dsimp only
  split
  · exact coalesced
  cases p.firstFit (sizeToOrder size) with
  | none => exact coalesced
  | some k =>
      dsimp only
      cases head : (p.bins k).head? with
      | none => exact coalesced
      | some offset =>
          have member : (⟨offset, k⟩ : Block) ∈ p.free := List.mem_of_head? head
          exact coalesced_split (valid.weaken.take member)
            (Set.disjoint_left.mp valid.separate member)
            (coalesced_take coalesced _ (valid.nodup _)) _ (sizeToOrder_ge size)

theorem coalesced_merge (room : Nat) (b : Block) (enough : maxOrder ≤ b.order + room)
    (valid : Valid low p (insert b held)) (other : b ∉ held) (coalesced : Coalesced p.top p.free)
    (covered : 2 ^ p.top ≤ p.arena) : Coalesced (merge room p b).top (merge room p b).free := by
  induction room generalizing p b with
  | zero =>
      refine coalesced_push coalesced b fun below => ?_
      have := valid.top_le
      omega
  | succ room ih =>
      have aligned := valid.tiling.aligned b (.inr (.inl rfl))
      unfold merge
      split
      next found =>
        obtain ⟨merged, parentOther⟩ := valid.merge_step other found.2
        exact ih b.parent (by simp only [Block.parent_order]; omega) merged parentOther
          (coalesced_take coalesced b.buddy (valid.nodup _)) covered
      next alone =>
        refine coalesced_push coalesced b fun below => ⟨fun found => alone ⟨?_, found⟩, fun same =>
          Block.buddy_ne b aligned (congrArg Block.offset same)⟩
        exact Nat.lt_of_lt_of_le (valid.tiling.offset_lt _ (.inl found)) covered

theorem inUse_split (b : Block) (member : b ∈ p.live) :
    p.inUse = insert b {c | c ∈ p.live.filter (· ≠ b)} := by
  ext c
  by_cases same : c = b <;> simp [inUse, same, member]

theorem not_mem_filter (b : Block) : b ∉ ({c | c ∈ p.live.filter (· ≠ b)} : Set Block) := by
  simp

theorem coalesced_release (valid : Valid low p p.inUse) (coalesced : Coalesced p.top p.free)
    (covered : 2 ^ p.top ≤ p.arena) (b : Block) (member : b ∈ p.live) :
    Coalesced (p.release b).top (p.release b).free := by
  have cut := valid
  rw [inUse_split b member] at cut
  exact coalesced_merge (p := { p with live := p.live.filter (· ≠ b) }) (maxOrder - b.order) b
    (by omega) (cut.congr rfl rfl rfl) (not_mem_filter b) coalesced covered

end Coalesced

end Pool

end ElySquare.Buddy
