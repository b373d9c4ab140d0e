import ElySquare.Allocators.BuddyFit

set_option autoImplicit false

namespace ElySquare.Buddy

open Dyadic Linked Transition

namespace Pool

variable {p : Pool}

theorem take_push (p : Pool) (b : Block) : (p.push b).take b = p := by
  have bins : takeBin (pushBin p.bins b) b = p.bins := by
    funext k
    unfold takeBin pushBin
    by_cases same : k = b.order
    · subst same
      rw [Function.update_self, Function.update_self, List.erase_cons_head]
    · rw [Function.update_of_ne same, Function.update_of_ne same]
  unfold push take
  rw [bins]

theorem push_take (p : Pool) (offset f : Nat) (rest : List Nat) (cells : p.bins f = offset :: rest) :
    (p.take ⟨offset, f⟩).push ⟨offset, f⟩ = p := by
  have bins : pushBin (takeBin p.bins ⟨offset, f⟩) ⟨offset, f⟩ = p.bins := by
    funext k
    unfold takeBin pushBin
    by_cases same : k = f
    · subst same
      rw [Function.update_self, Function.update_self, cells, List.erase_cons_head]
    · rw [Function.update_of_ne same, Function.update_of_ne same]
  unfold push take
  rw [bins]

theorem merge_split (p : Pool) (offset t f : Nat) (within : t ≤ f) (high : f ≤ maxOrder)
    (aligned : Block.Aligned ⟨offset, f⟩) (inside : offset + 2 ^ f ≤ p.arena) :
    merge (maxOrder - t) (p.split offset f t) ⟨offset, t⟩ = merge (maxOrder - f) p ⟨offset, f⟩ := by
  induction f generalizing p with
  | zero =>
      obtain rfl : t = 0 := by omega
      rfl
  | succ f ih =>
      rcases Nat.lt_or_ge f t with few | more
      · obtain rfl : t = f + 1 := by omega
        rw [split, if_neg (by omega)]
      have smaller : Block.Aligned ⟨offset, f⟩ := Block.lower_aligned ⟨offset, f + 1⟩ aligned
      have half := Block.buddy_upper offset (f + 1) f aligned (Nat.lt_succ_self f)
      have parent : Block.parent ⟨offset, f⟩ = ⟨offset, f + 1⟩ :=
        Block.lower_parent ⟨offset, f + 1⟩ aligned (Nat.succ_pos f)
      have double := Nat.pow_succ 2 f
      have positive := Nat.two_pow_pos f
      rw [split, if_pos more, ih (p.push (Block.buddy ⟨offset, f⟩)) more (by omega) smaller
        (by change offset + 2 ^ f ≤ p.arena; omega)]
      -- the merge at order `f` finds the half that was pushed there
      have room : maxOrder - f = (maxOrder - (f + 1)) + 1 := by omega
      have found : (Block.buddy ⟨offset, f⟩).offset < (p.push (Block.buddy ⟨offset, f⟩)).arena ∧
          (Block.buddy ⟨offset, f⟩).offset ∈ (p.push (Block.buddy ⟨offset, f⟩)).bins f := by
        refine ⟨?_, ?_⟩
        · rw [half]
          change offset + 2 ^ f < p.arena
          omega
        · simp [push, pushBin, Block.buddy]
      rw [room, merge, if_pos found, take_push, parent]

theorem merge_stops (valid : p.Valid minOrder p.inUse) (coalesced : Coalesced p.top p.free)
    (b : Block) (member : b ∈ p.free) (room : Nat) (exact : b.order + room = maxOrder) :
    merge room (p.take b) b = (p.take b).push b := by
  cases room with
  | zero => rfl
  | succ room =>
      rw [merge, if_neg]
      rintro ⟨_, found⟩
      have buddy : b.buddy ∈ p.free := by
        have taken : b.buddy ∈ (p.take b).free := found
        rw [free_take p b (valid.nodup _)] at taken
        exact taken.1
      rcases Nat.lt_or_ge b.order p.top with below | above
      · exact coalesced b member below buddy
      · have top := Nat.le_antisymm (valid.tiling.order_le b (.inl member)) above
        have whole := valid.tiling.whole_of_top b (.inl member) top
        have whole' := valid.tiling.whole_of_top b.buddy (.inl buddy) top
        exact Block.buddy_ne b (valid.tiling.aligned b (.inl member))
          (congrArg Block.offset (whole'.trans whole.symm))

theorem release_alloc (valid : p.Valid minOrder p.inUse) (coalesced : Coalesced p.top p.free)
    (covered : 2 ^ p.top ≤ p.arena) (size : Nat) (b : Block) (made : (p.alloc size).1 = some b) :
    (p.alloc size).2.release b = p := by
  rcases alloc_cases p size with ⟨none', _⟩ | ⟨offset, rest, f, _, fit, cells, cut⟩
  · rw [none'] at made
    cases made
  rw [cut] at made ⊢
  obtain rfl := Option.some.inj made
  obtain ⟨within, high, _⟩ := (firstFit_some _ f).mp fit
  have member : (⟨offset, f⟩ : Block) ∈ p.free := by
    change offset ∈ p.bins f
    rw [cells]
    exact List.mem_cons_self
  have inside := valid.tiling.inside _ (.inl member)
  have aligned := valid.tiling.aligned _ (.inl member)
  have joined := merge_split (p.take ⟨offset, f⟩) offset (sizeToOrder size) f within high aligned
    (Nat.le_trans inside covered)
  have stops := merge_stops valid coalesced _ member (maxOrder - f) (by dsimp only; omega)
  rw [stops, push_take p offset f rest cells] at joined
  have new : (⟨offset, sizeToOrder size⟩ : Block) ∉ p.live := by
    intro alive
    have same := valid.tiling.offset_inj _ _ (.inl member) (.inr alive) rfl
    exact Set.disjoint_left.mp valid.separate member (same ▸ alive)
  have live : (⟨offset, sizeToOrder size⟩ :: p.live).filter (· ≠ ⟨offset, sizeToOrder size⟩) =
      ((p.take ⟨offset, f⟩).split offset f (sizeToOrder size)).live := by
    rw [(split_fields _ _ _ _).2.2, List.filter_cons_of_neg (by simp)]
    exact List.filter_eq_self.mpr fun c alive => decide_eq_true fun same => new (same ▸ alive)
  unfold release
  dsimp only
  rw [live]
  exact joined

end Pool

structure Restored (before after : BuddyAllocator Headers) : Prop where
  bins : ∀ i, i < binCount → after.bins i = before.bins i
  bitmap : after.activeBinsBitmap = before.activeBinsBitmap
  free : binBlocks after = binBlocks before
  headers : ∀ b ∈ binBlocks before, header after.memory b.offset = header before.memory b.offset

theorem link_inj (v w : Nat) (same : link v = link w) : v = w := by
  by_cases null : v = nullOffset
  · rw [null, link_null] at same
    rw [null, (link_eq_none w).mp same.symm]
  · rw [link_of_ne v null] at same
    exact ((link_eq_some w v).mp same.symm).1.symm

theorem FreeLists.bins_eq {a a' : BuddyAllocator Headers} {bins : Nat → List Nat}
    (lists : FreeLists a bins) (lists' : FreeLists a' bins) (i : Nat) (inside : i < binCount) :
    a'.bins i = a.bins i := by
  have span : binCount + minOrder = maxOrder + 1 := by decide
  have index : getIndexByOrder (i + minOrder) = i := Nat.add_sub_cancel _ _
  have first := (lists.linked (i + minOrder) (Nat.le_add_left _ _) (by omega)).forward.head_eq
  have second := (lists'.linked (i + minOrder) (Nat.le_add_left _ _) (by omega)).forward.head_eq
  rw [index] at first second
  exact link_inj _ _ (second.trans first.symm)

theorem FreeLists.bitmap_eq {a a' : BuddyAllocator Headers} {bins : Nat → List Nat}
    (lists : FreeLists a bins) (lists' : FreeLists a' bins) :
    a'.activeBinsBitmap = a.activeBinsBitmap := by
  apply BitVec.eq_of_getLsbD_eq
  intro i _
  rw [Bool.eq_iff_iff, lists.bitmap i, lists'.bitmap i]

theorem FreeLists.header_eq {a a' : BuddyAllocator Headers} {bins : Nat → List Nat}
    (lists : FreeLists a bins) (lists' : FreeLists a' bins) (b : Block)
    (member : b ∈ freeBlocks bins) : header a'.memory b.offset = header a.memory b.offset := by
  obtain ⟨low, high⟩ := lists.orders b member
  obtain ⟨order, free⟩ := lists.headers b member
  obtain ⟨order', free'⟩ := lists'.headers b member
  obtain ⟨before, after, cells⟩ := List.append_of_mem member
  have list := lists.linked b.order low high
  have list' := lists'.linked b.order low high
  rw [cells] at list list'
  have next := link_inj _ _ (list'.next_eq.trans list.next_eq.symm)
  have prev := link_inj _ _ (list'.prev_eq.trans list.prev_eq.symm)
  cases shape : header a.memory b.offset
  cases shape' : header a'.memory b.offset
  rw [shape] at order free next prev
  rw [shape'] at order' free' next prev
  simp_all

theorem alloc_free_round_trip (chunkptr size : Nat) (bound : size < 2 ^ 64) (whole : Whole size)
    (s : Run Headers) (reached : (system Headers chunkptr size).Reachable s) (request ptr : Nat)
    (made : (alloc s.allocator request).1 = some ptr) :
    Restored s.allocator (free (alloc s.allocator request).2 ptr) := by
  obtain ⟨p, related⟩ := related_of_run chunkptr size s reached
  have related' := allocated_related related request
  have covered : 2 ^ p.top ≤ p.arena := by
    rw [related.top, related.arena]
    exact whole.startOrder_le bound
  have base := (alloc_represents headers_lawful (by decide) related.represents request
    (.inl (sizeToOrder_ge request))).2.2
  have result := alloc_pointer related request
  rw [made] at result
  obtain ⟨b, found, rfl⟩ := Option.map_eq_some_iff.mp result.symm
  have same : pointer s.allocator b = pointer (allocated s request).allocator b := by
    unfold pointer allocated
    rw [base]
  have alive : b ∈ (p.alloc request).2.live := by
    rw [(alloc_live p request).1, found]
    exact List.mem_cons_self
  have related'' := related_free headers_lawful (by decide) size _ _ b alive related'
  rw [Pool.release_alloc related.represents.valid (related.coalesced covered) covered request b found,
    ← same] at related''
  have lists := related.represents.lists
  have lists' := related''.represents.lists
  have free := related.consistent.binBlocks_eq
  have free' := related''.consistent.binBlocks_eq
  refine ⟨lists.bins_eq lists', lists.bitmap_eq lists', free'.trans free.symm, fun c member => ?_⟩
  rw [free] at member
  exact lists.header_eq lists' c member

theorem alloc_free_round_trip_hundred :
    Restored poolWithHundred.allocator (free (alloc poolWithHundred.allocator 200).2 4368) :=
  alloc_free_round_trip 4096 4096 (by decide) (.inl ⟨0, by decide⟩) poolWithHundred
    poolWithHundred_reachable 200 4368 (by decide +kernel)

end ElySquare.Buddy
