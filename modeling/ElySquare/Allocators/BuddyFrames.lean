import ElySquare.Allocators.BuddyBytes

set_option autoImplicit false

namespace ElySquare.Buddy

open Dyadic Linked Bytes

-- The memories differ only in the bytes of the header at `o`, links included.
def Local (o : Nat) (m m' : Bytes) : Prop := ∀ x, x < o ∨ o + linkedHeaderSize ≤ x → m' x = m x

def Spares (held : Set Dyadic.Block) (m m' : Bytes) : Prop := ∀ c ∈ held, ∀ x, c.Covers x → m' x = m x

section Writes

variable (m : Bytes) (o : Nat)

theorem Local.trans {m : Bytes} {o : Nat} {middle after : Bytes} (first : Local o m middle)
    (second : Local o middle after) : Local o m after :=
  fun x outside => (second x outside).trans (first x outside)

theorem setByte_local (byte : BitVec 8) : Local o m (setByte m o byte) := fun x outside =>
  setByte_there m o byte x (by unfold linkedHeaderSize headerSize at outside; omega)

theorem setOrder_local (k : Nat) : Local o m (setOrder m o k) := setByte_local m o _

theorem setFree_local (f : Bool) : Local o m (setFree m o f) := setByte_local m o _

theorem setNext_local (v : Nat) : Local o m (setNext m o v) := fun x outside =>
  setWord_outside m (nextAt o) v x
    (by unfold linkedHeaderSize headerSize at outside; unfold nextAt headerSize; omega)

theorem setPrev_local (v : Nat) : Local o m (setPrev m o v) := fun x outside =>
  setWord_outside m (prevAt o) v x
    (by unfold linkedHeaderSize headerSize at outside; unfold prevAt headerSize; omega)

end Writes

namespace Spares

variable {held held' : Set Dyadic.Block} {m middle after : Bytes}

theorem refl (held : Set Dyadic.Block) (m : Bytes) : Spares held m m := fun _ _ _ _ => rfl

theorem trans (first : Spares held m middle) (second : Spares held middle after) : Spares held m after :=
  fun c member x here => (second c member x here).trans (first c member x here)

theorem mono (spares : Spares held' m after) (within : held ⊆ held') : Spares held m after :=
  fun c member => spares c (within member)

end Spares

section Loops

variable {low : Nat} {p : Pool} {held : Set Dyadic.Block} {a : BuddyAllocator Bytes}

theorem Local.spares {all : Set Dyadic.Block} {m m' : Bytes} {b : Dyadic.Block} (changed : Local b.offset m m')
    (room : linkedHeaderSize ≤ 2 ^ low) (valid : p.Valid low all) (within : held ⊆ all)
    (member : b ∈ p.free ∪ all) (other : b ∉ held) : Spares held m m' := by
  intro c inside x here
  have different : b ≠ c := fun same => other (same ▸ inside)
  have apart := valid.tiling.separated b c member (.inr (within inside)) different
  have size := Nat.pow_le_pow_right (n := 2) (by omega) (valid.orders b member)
  unfold Dyadic.Block.Covers Dyadic.Block.finish at *
  exact changed x (by omega)

theorem push_spares (room : linkedHeaderSize ≤ 2 ^ low) (b : Dyadic.Block)
    (valid : p.Valid low (insert b held)) (other : b ∉ held) (lists : FreeLists a p.bins) :
    Spares held a.memory (pushFreeBlock a b.offset b.order).memory := by
  have here : b ∈ p.free ∪ insert b held := .inr (.inl rfl)
  have own : Local b.offset a.memory (setOrder (setNext (setPrev (setFree a.memory b.offset true)
      b.offset nullOffset) b.offset (a.bins (getIndexByOrder b.order))) b.offset b.order) :=
    (((setFree_local _ _ _).trans (setPrev_local _ _ _)).trans (setNext_local _ _ _)).trans
      (setOrder_local _ _ _)
  have first := own.spares room valid (Set.subset_insert _ _) here other
  unfold pushFreeBlock
  dsimp only
  split
  next real =>
    rcases lists.head_block b.order (valid.order_ge b here) (valid.order_le b here) with
      ⟨null, _⟩ | ⟨_, head⟩
    · exact absurd null real
    · refine first.trans (Local.spares (b := ⟨_, b.order⟩) (setPrev_local _ _ _) room valid
        (Set.subset_insert _ _) (.inl head) fun inside => ?_)
      exact Set.disjoint_left.mp valid.separate head (.inr inside)
  next => exact first

theorem unlinkForward_spares (room : linkedHeaderSize ≤ 2 ^ low) (b : Dyadic.Block)
    (valid : p.Valid low held) (member : b ∈ p.free) (lists : FreeLists a p.bins) :
    Spares held a.memory (unlinkForward a b.offset b.order).memory := by
  unfold unlinkForward
  dsimp only
  split
  next real =>
    obtain ⟨before, _⟩ := (lists.prev_block b member).resolve_left real
    exact Local.spares (b := ⟨_, b.order⟩) (setNext_local _ _ _) room valid subset_rfl (.inl before)
      (Set.disjoint_left.mp valid.separate before)
  next => exact .refl _ _

theorem remove_spares (room : linkedHeaderSize ≤ 2 ^ low) (b : Dyadic.Block)
    (valid : p.Valid low held) (member : b ∈ p.free) (lists : FreeLists a p.bins) :
    Spares held a.memory (removeFreeBlock a b.offset b.order).memory := by
  have first := unlinkForward_spares room b valid member lists
  -- the block's own links are read again after the first half
  have links : header (unlinkForward a b.offset b.order).memory b.offset = header a.memory b.offset := by
    refine header_unlinkForward_here bytes_lawful a b.offset b.order fun real => ?_
    obtain ⟨before, different⟩ := (lists.prev_block b member).resolve_left real
    exact spaced_of_valid valid room _ (.inl before) b (.inl member)
      fun same => different (congrArg Dyadic.Block.offset same)
  have second : Spares held (unlinkForward a b.offset b.order).memory
      (unlinkBackward (unlinkForward a b.offset b.order) b.offset).memory := by
    unfold unlinkBackward
    dsimp only
    rw [links]
    split
    next real =>
      obtain ⟨after, _⟩ := (lists.next_block b member).resolve_left real
      exact Local.spares (b := ⟨_, b.order⟩) (setPrev_local _ _ _) room valid subset_rfl (.inl after)
        (Set.disjoint_left.mp valid.separate after)
    next => exact .refl _ _
  exact (first.trans second).trans ((setFree_local _ b.offset false).spares room valid subset_rfl
    (.inl member) (Set.disjoint_left.mp valid.separate member))

theorem split_spares (room : linkedHeaderSize ≤ 2 ^ low) (offset k t : Nat)
    (valid : p.Valid low (insert ⟨offset, k⟩ held)) (other : (⟨offset, k⟩ : Dyadic.Block) ∉ held)
    (enough : low ≤ t) (lists : FreeLists a p.bins) (holding : Held a (insert ⟨offset, k⟩ held)) :
    Spares held a.memory (splitBlock a offset k t).memory := by
  induction k generalizing p a with
  | zero => exact .refl _ _
  | succ k ih =>
      unfold splitBlock
      by_cases more : k ≥ t
      · rw [if_pos more]
        have small := valid.order_le ⟨offset, k + 1⟩ (.inr (.inl rfl))
        unfold maxOrder at small
        simp only at small
        obtain ⟨cut, lowerOther, upperOther⟩ := valid.split_step other (by simp only; omega)
        have stamped := bytes_lawful.setOrder_here a.memory offset k (by omega)
        obtain ⟨lists', holding'⟩ := write_step room ⟨offset, k + 1⟩ k
          (setOrder a.memory offset k) valid other lists
          (fun c member => holding c (.inr member)) (bytes_lawful.setOrder_there _ _ _)
          ⟨by rw [stamped], by rw [stamped]; exact (holding _ (.inl rfl)).2⟩
        obtain ⟨lists'', holding''⟩ := push_step bytes_lawful room _ cut upperOther lists' holding'
        have first : Spares held a.memory (setOrder a.memory offset k) :=
          Local.spares (b := ⟨offset, k + 1⟩) (setOrder_local _ _ _) room valid (Set.subset_insert _ _)
            (.inr (.inl rfl)) other
        have second := push_spares room _ cut upperOther lists'
        have third := ih (cut.push upperOther) lowerOther lists'' holding''
        exact (first.trans (second.mono (Set.subset_insert _ _))).trans third
      · rw [if_neg more]
        exact .refl _ _

theorem Pool.Valid.below_top (valid : p.Valid low held) (b : Dyadic.Block) (member : b ∈ p.free ∪ held)
    (small : b.order < maxOrder) (inside : b.buddy.offset < p.arena) : b.order < p.top := by
  by_contra large
  have whole := valid.tiling.whole_of_top b member (by have := valid.tiling.order_le b member; omega)
  have bound := valid.arena_le (by rw [whole] at small; exact small)
  have next : b.buddy.offset = 2 ^ p.top := by rw [whole]; simp [Dyadic.Block.buddy]
  omega

theorem absorb_step {Memory : Type} [HeaderStore Memory] {extent : Nat} (laws : LawfulStore Memory extent)
    (room : extent ≤ 2 ^ low) {a : BuddyAllocator Memory} (b : Dyadic.Block)
    (valid : p.Valid low (insert b held)) (found : b.buddy ∈ p.free) (lists : FreeLists a p.bins)
    (holding : Held a held) :
    FreeLists (removeFreeBlock a b.buddy.offset b.buddy.order) (p.take b.buddy).bins ∧
      Held (removeFreeBlock a b.buddy.offset b.buddy.order) held := by
  have spaced := spaced_of_valid valid room
  refine ⟨remove_freeLists laws lists b.buddy found (spaced.mono Set.subset_union_left), fun c member => ?_⟩
  exact remove_held laws lists b.buddy found holding
    (fun c inside => valid.offset_lt c (.inr (.inr inside)))
    (fun inside => Set.disjoint_left.mp valid.separate found (.inr inside))
    (spaced.mono (Set.union_subset_union_right _ (Set.subset_insert _ _))) c (.inr member)

theorem merge_spares (room : linkedHeaderSize ≤ 2 ^ low) (above : Nat) (b : Dyadic.Block)
    (level : b.order + above = maxOrder) (valid : p.Valid low (insert b held)) (other : b ∉ held)
    (lists : FreeLists a p.bins) (holding : Held a held) (arena : a.pages * pageSize = p.arena) :
    Spares held a.memory (mergeUp above a b.offset b.order).memory := by
  induction above generalizing p a b with
  | zero => exact push_spares room b valid other lists
  | succ above ih =>
      unfold mergeUp
      have inArena : getBuddyOffset b.offset b.order = b.buddy.offset := rfl
      simp only [inArena, arena]
      split
      next inside =>
        split
        next merges =>
          have below := valid.below_top b (.inr (.inl rfl)) (by omega) inside
          have found := (buddy_test b valid below lists holding).mp merges
          obtain ⟨merged, parentOther⟩ := valid.merge_step other found
          obtain ⟨lists', holding'⟩ := absorb_step bytes_lawful room b valid found lists holding
          have first := (remove_spares room b.buddy valid found lists).mono (Set.subset_insert b held)
          rw [Dyadic.Block.buddy_order] at lists' holding' first
          exact first.trans (ih b.parent (by simp only [Dyadic.Block.parent_order]; omega) merged parentOther
            lists' holding' (by rw [remove_pages]; exact arena))
        next => exact push_spares room b valid other lists
      next => exact push_spares room b valid other lists

end Loops

section Calls

variable {low : Nat} {p : Pool} {a : BuddyAllocator Bytes}

theorem hand_spares (room : linkedHeaderSize ≤ 2 ^ low) (rep : Represents low a p) (offset k target : Nat)
    (member : (⟨offset, k⟩ : Dyadic.Block) ∈ p.free) (enough : low ≤ target) (within : target ≤ k) :
    Spares p.inUse a.memory
      (setFree (splitBlock (removeFreeBlock a offset k) offset k target).memory offset false) := by
  have fresh : (⟨offset, k⟩ : Dyadic.Block) ∉ p.inUse := Set.disjoint_left.mp rep.valid.separate member
  obtain ⟨lists, holding⟩ := take_step bytes_lawful room _ rep.valid member rep.lists rep.holding
  have taken := rep.valid.take member
  obtain ⟨cut, other, _⟩ := split_step bytes_lawful room offset k target taken fresh enough within lists holding
  have first := remove_spares room _ rep.valid member rep.lists
  have second := split_spares room offset k target taken fresh enough lists holding
  have third : Spares p.inUse _ _ :=
    Local.spares (b := ⟨offset, target⟩) (setFree_local (splitBlock (removeFreeBlock a offset k) offset k
      target).memory offset false) room cut (Set.subset_insert _ _) (.inr (.inl rfl)) other
  exact (first.trans second).trans third

theorem alloc_spares (room : linkedHeaderSize ≤ 2 ^ low) (rep : Represents low a p) (size : Nat)
    (allowed : low ≤ sizeToOrder size ∨ size = 0 ∨ a.activeBinsBitmap = 0#32) :
    Spares p.inUse a.memory (alloc a size).2.memory := by
  have bit := mask_bit rep.lists (sizeToOrder size)
  unfold alloc
  dsimp only
  by_cases refused : size = 0 ∨ weCantPutIt size = true
  · rw [if_pos refused]
    exact .refl _ _
  rw [if_neg refused]
  by_cases zero : a.activeBinsBitmap &&&
      (BitVec.allOnes 32 <<< getIndexByOrder (sizeToOrder size)) = 0#32
  · rw [if_pos zero]
    exact .refl _ _
  rw [if_neg zero]
  obtain ⟨small, above, nonempty⟩ := (bit _).mp (BitVec.getLsbD_true_ctz_of_ne_zero zero)
  have enough : low ≤ sizeToOrder size := by
    rcases allowed with h | h | h
    · exact h
    · exact (refused (.inl h)).elim
    · exact (zero (by rw [h]; simp)).elim
  generalize (a.activeBinsBitmap &&&
    (BitVec.allOnes 32 <<< getIndexByOrder (sizeToOrder size))).ctz.toNat = found at *
  have span : binCount + minOrder = maxOrder + 1 := by decide
  have index : getIndexByOrder (found + minOrder) = found := Nat.add_sub_cancel _ _
  rcases rep.lists.head_block (found + minOrder) (Nat.le_add_left _ _) (by omega) with
    ⟨_, empty⟩ | ⟨_, member⟩
  · exact (nonempty empty).elim
  rw [index] at member
  generalize a.bins found = offset at *
  have within : sizeToOrder size ≤ found + minOrder := by
    unfold getIndexByOrder at above
    omega
  have handed := hand_spares room rep offset (found + minOrder) (sizeToOrder size) member enough within
  split
  · exact handed
  · rw [show found + minOrder = sizeToOrder size by omega, split_self] at handed
    rw [show found + minOrder = sizeToOrder size by omega]
    exact handed

theorem free_spares (room : linkedHeaderSize ≤ 2 ^ low) (rep : Represents low a p) (b : Dyadic.Block)
    (member : b ∈ p.live) :
    Spares {c | c ∈ p.live.filter (· ≠ b)} a.memory (free a (a.base + b.offset + headerSize)).memory := by
  have real : a.base + b.offset + headerSize ≠ 0 := by unfold headerSize; omega
  have offset : ptrToOffset a (a.base + b.offset + headerSize - headerSize) = b.offset := by
    unfold ptrToOffset
    omega
  obtain ⟨order, _⟩ := rep.holding b member
  have valid := rep.valid
  rw [Pool.inUse_split b member] at valid
  have high := rep.valid.order_le b (.inr member)
  simp only [free, if_neg real, offset, order, mergeBlock]
  exact merge_spares room (maxOrder - b.order) b (p := { p with live := p.live.filter (· ≠ b) }) (by omega)
    (valid.congr rfl rfl rfl) (Pool.not_mem_filter b) rep.lists
    (fun c h => rep.holding c (List.mem_of_mem_filter h)) rep.arena

end Calls

end ElySquare.Buddy
