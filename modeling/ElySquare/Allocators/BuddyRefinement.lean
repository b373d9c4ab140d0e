import ElySquare.Allocators.BuddyPool

set_option autoImplicit false

namespace ElySquare.Buddy

open Dyadic

variable {Memory : Type} [HeaderStore Memory] {extent low : Nat}

section Fields

variable (a : BuddyAllocator Memory)

theorem unlink_fields (offset order : Nat) :
    (unlinkForward a offset order).base = a.base ∧ (unlinkForward a offset order).pages = a.pages ∧
      (unlinkBackward a offset).base = a.base ∧ (unlinkBackward a offset).pages = a.pages := by
  constructor
  · unfold unlinkForward
    dsimp only
    split <;> rfl
  refine ⟨?_, ?_, ?_⟩
  · unfold unlinkForward
    dsimp only
    split <;> rfl
  all_goals
    unfold unlinkBackward
    dsimp only
    split <;> rfl

@[simp] theorem remove_base (offset order : Nat) : (removeFreeBlock a offset order).base = a.base := by
  have first := (unlink_fields a offset order).1
  have second := (unlink_fields (unlinkForward a offset order) offset order).2.2.1
  exact second.trans first

@[simp] theorem remove_pages (offset order : Nat) :
    (removeFreeBlock a offset order).pages = a.pages := by
  have first := (unlink_fields a offset order).2.1
  have second := (unlink_fields (unlinkForward a offset order) offset order).2.2.2
  exact second.trans first

theorem split_base_pages (offset order target : Nat) :
    (splitBlock a offset order target).base = a.base ∧
      (splitBlock a offset order target).pages = a.pages := by
  induction order generalizing a with
  | zero => exact ⟨rfl, rfl⟩
  | succ order ih =>
      unfold splitBlock
      split
      · exact ih _
      · exact ⟨rfl, rfl⟩

theorem mergeUp_base_pages (room offset order : Nat) :
    (mergeUp room a offset order).base = a.base ∧ (mergeUp room a offset order).pages = a.pages := by
  induction room generalizing a offset order with
  | zero => exact ⟨rfl, rfl⟩
  | succ room ih =>
      unfold mergeUp
      dsimp only
      split
      · split
        · simpa using ih (removeFreeBlock a (getBuddyOffset offset order) order) _ _
        · exact ⟨rfl, rfl⟩
      · exact ⟨rfl, rfl⟩

end Fields

theorem spaced_of_valid {p : Pool} {held : Set Block} (valid : p.Valid low held)
    (room : extent ≤ 2 ^ low) : Spaced extent (p.free ∪ held) := by
  have step (b c : Block) (hb : b ∈ p.free ∪ held) (h : b.finish ≤ c.offset) :
      b.offset + extent ≤ c.offset := by
    have := Nat.pow_le_pow_right (n := 2) (by omega) (valid.orders b hb)
    unfold Block.finish at h
    omega
  intro b hb c hc different
  rcases valid.tiling.separated b c hb hc different with h | h
  · exact .inl (step b c hb h)
  · exact .inr (step c b hc h)

section Loops

variable {p : Pool} {held : Set Block}

theorem push_step (laws : LawfulStore Memory extent) (room : extent ≤ 2 ^ low)
    {a : BuddyAllocator Memory} (b : Block) (valid : p.Valid low (insert b held)) (other : b ∉ held)
    (lists : FreeLists a p.bins) (holding : Held a held) :
    FreeLists (pushFreeBlock a b.offset b.order) (p.push b).bins ∧
      Held (pushFreeBlock a b.offset b.order) held := by
  have here : b ∈ p.free ∪ insert b held := .inr (.inl rfl)
  have spaced := spaced_of_valid valid room
  rw [Set.union_insert] at spaced
  have fresh : b ∉ p.free := Set.disjoint_right.mp valid.separate (.inl rfl)
  exact ⟨push_freeLists laws lists b (valid.order_ge b here) (valid.order_le b here)
      (valid.offset_lt b here) fresh (spaced.mono (Set.insert_subset_insert Set.subset_union_left)),
    push_held laws lists b (valid.order_ge b here) (valid.order_le b here) (valid.offset_lt b here)
      holding (fun c member => valid.offset_lt c (.inr (.inr member))) other spaced⟩

theorem take_step (laws : LawfulStore Memory extent) (room : extent ≤ 2 ^ low)
    {a : BuddyAllocator Memory} (b : Block) (valid : p.Valid low held) (member : b ∈ p.free)
    (lists : FreeLists a p.bins) (holding : Held a held) :
    FreeLists (removeFreeBlock a b.offset b.order) (p.take b).bins ∧
      Held (removeFreeBlock a b.offset b.order) (insert b held) := by
  have spaced := spaced_of_valid valid room
  exact ⟨remove_freeLists laws lists b member (spaced.mono Set.subset_union_left),
    remove_held laws lists b member holding (fun c inside => valid.offset_lt c (.inr inside))
      (Set.disjoint_left.mp valid.separate member) spaced⟩

theorem write_step (room : extent ≤ 2 ^ low)
    {a : BuddyAllocator Memory} (b : Block) (order : Nat) (memory : Memory)
    (valid : p.Valid low (insert b held)) (other : b ∉ held) (lists : FreeLists a p.bins)
    (holding : Held a held)
    (there : ∀ x, Apart extent b.offset x → header memory x = header a.memory x)
    (here : (header memory b.offset).order = order ∧ (header memory b.offset).isFree = false) :
    FreeLists { a with memory := memory } p.bins ∧
      Held { a with memory := memory } (insert ⟨b.offset, order⟩ held) := by
  have spaced := spaced_of_valid valid room
  have elsewhere (c : Block) (member : c ∈ p.free ∪ insert b held) (different : c ≠ b) :
      header memory c.offset = header a.memory c.offset :=
    there _ (spaced b (.inr (.inl rfl)) c member (Ne.symm different))
  have freeThere (c : Block) (member : c ∈ p.free) :
      header memory c.offset = header a.memory c.offset :=
    elsewhere c (.inl member) fun same => Set.disjoint_left.mp valid.separate member (.inl same)
  constructor
  · refine ⟨fun k low' high => ?_, fun c member => ?_, lists.orders, lists.offsets, lists.bitmap⟩
    · exact (lists.linked k low' high).congr _ (fun o member => by rw [freeThere ⟨o, k⟩ member])
        (fun o member => by rw [freeThere ⟨o, k⟩ member])
    · rw [freeThere c member]
      exact lists.headers c member
  · rintro c (rfl | member)
    · exact here
    · rw [elsewhere c (.inr (.inr member)) (fun same => other (same ▸ member))]
      exact holding c member

theorem split_step (laws : LawfulStore Memory extent) (room : extent ≤ 2 ^ low) (offset k t : Nat)
    {a : BuddyAllocator Memory} (valid : p.Valid low (insert ⟨offset, k⟩ held))
    (other : (⟨offset, k⟩ : Block) ∉ held) (enough : low ≤ t) (fits : t ≤ k)
    (lists : FreeLists a p.bins) (holding : Held a (insert ⟨offset, k⟩ held)) :
    (p.split offset k t).Valid low (insert ⟨offset, t⟩ held) ∧ (⟨offset, t⟩ : Block) ∉ held ∧
      FreeLists (splitBlock a offset k t) (p.split offset k t).bins ∧
      Held (splitBlock a offset k t) (insert ⟨offset, t⟩ held) := by
  induction k generalizing p a with
  | zero =>
      have same : t = 0 := by omega
      subst same
      exact ⟨valid, other, lists, holding⟩
  | succ k ih =>
      unfold splitBlock Pool.split
      by_cases more : k ≥ t
      · rw [if_pos more, if_pos more]
        have small := valid.order_le ⟨offset, k + 1⟩ (.inr (.inl rfl))
        unfold maxOrder at small
        simp only at small
        obtain ⟨cut, lowerOther, upperOther⟩ := valid.split_step other (by simp only; omega)
        have stamped := laws.setOrder_here a.memory offset k (by omega)
        obtain ⟨lists', holding'⟩ := write_step room ⟨offset, k + 1⟩ k
          (setOrder a.memory offset k) valid other lists
          (fun c member => holding c (.inr member)) (laws.setOrder_there _ _ _)
          ⟨by rw [stamped], by rw [stamped]; exact (holding _ (.inl rfl)).2⟩
        obtain ⟨lists'', holding''⟩ := push_step laws room _ cut upperOther lists' holding'
        exact ih (cut.push upperOther) lowerOther more lists'' holding''
      · rw [if_neg more, if_neg more]
        have same : t = k + 1 := by omega
        subst same
        exact ⟨valid, other, lists, holding⟩

-- The header test of mergeBlock asks whether the buddy is on the free list of this order.
theorem buddy_test {a : BuddyAllocator Memory} (b : Block) (valid : p.Valid low (insert b held))
    (below : b.order < p.top) (lists : FreeLists a p.bins) (holding : Held a held) :
    ((header a.memory b.buddy.offset).isFree = true ∧
      (header a.memory b.buddy.offset).order = b.order) ↔ b.buddy.offset ∈ p.bins b.order := by
  have member : b ∈ p.free ∪ insert b held := .inr (.inl rfl)
  obtain ⟨c, found, start, _, different⟩ := valid.tiling.buddy_start b member below
  have same (inside : b.buddy ∈ p.free) : c = b.buddy :=
    valid.tiling.offset_inj c b.buddy found (.inl inside) start
  rcases found with free | rfl | inUse
  · obtain ⟨order, status⟩ := lists.headers c free
    rw [← start, order]
    simp only [status, true_and]
    constructor
    · intro equal
      have : c.offset ∈ p.bins c.order := free
      rwa [equal] at this
    · intro inside
      rw [start] at inside
      rw [same inside, Block.buddy_order]
  · exact (different rfl).elim
  · obtain ⟨_, status⟩ := holding c inUse
    rw [← start]
    simp only [status]
    refine ⟨fun h => (Bool.false_ne_true h.1).elim, fun inside => ?_⟩
    rw [start] at inside
    have free : b.buddy ∈ p.free := inside
    exact (Set.disjoint_left.mp valid.separate free (.inr (same free ▸ inUse))).elim

theorem merge_step (laws : LawfulStore Memory extent) (room : extent ≤ 2 ^ low) (above : Nat)
    {a : BuddyAllocator Memory} (b : Block) (level : b.order + above = maxOrder)
    (valid : p.Valid low (insert b held)) (other : b ∉ held) (lists : FreeLists a p.bins)
    (holding : Held a held) (arena : a.pages * pageSize = p.arena) :
    (Pool.merge above p b).Valid low held ∧
      FreeLists (mergeUp above a b.offset b.order) (Pool.merge above p b).bins ∧
      Held (mergeUp above a b.offset b.order) held := by
  induction above generalizing p a b with
  | zero => exact ⟨valid.push other, push_step laws room b valid other lists holding⟩
  | succ above ih =>
      unfold mergeUp Pool.merge
      have inArena : getBuddyOffset b.offset b.order = b.buddy.offset := rfl
      simp only [inArena, arena]
      by_cases inside : b.buddy.offset < p.arena
      · have below : b.order < p.top := by
          by_contra large
          have whole := valid.tiling.whole_of_top b (.inr (.inl rfl))
            (by have := valid.tiling.order_le b (.inr (.inl rfl)); omega)
          have bound := valid.arena_le (by omega)
          have : b.buddy.offset = 2 ^ p.top := by rw [whole]; simp [Block.buddy]
          omega
        have test := buddy_test b valid below lists holding
        by_cases found : b.buddy.offset ∈ p.bins b.order
        · rw [if_pos inside, if_pos (test.mpr found), if_pos ⟨inside, found⟩]
          obtain ⟨merged, parentOther⟩ := valid.merge_step other found
          have lists' := remove_freeLists laws lists b.buddy found
            ((spaced_of_valid valid room).mono Set.subset_union_left)
          have holding' : Held (removeFreeBlock a b.buddy.offset b.buddy.order) held := fun c h =>
            remove_held laws lists b.buddy found holding
              (fun c inside => valid.offset_lt c (.inr (.inr inside)))
              (fun h => Set.disjoint_left.mp valid.separate found (.inr h))
              ((spaced_of_valid valid room).mono
                (Set.union_subset_union_right _ (Set.subset_insert _ _))) c (.inr h)
          exact ih b.parent (by simp only [Block.parent_order]; omega) merged parentOther lists'
            holding' (by rw [remove_pages]; exact arena)
        · rw [if_pos inside, if_neg (mt test.mp found), if_neg (fun h => found h.2)]
          exact ⟨valid.push other, push_step laws room b valid other lists holding⟩
      · rw [if_neg inside, if_neg (fun h => inside h.1)]
        exact ⟨valid.push other, push_step laws room b valid other lists holding⟩

end Loops

structure Represents (low : Nat) (a : BuddyAllocator Memory) (p : Pool) : Prop where
  valid : p.Valid low p.inUse
  lists : FreeLists a p.bins
  holding : Held a p.inUse
  arena : a.pages * pageSize = p.arena
  liveNodup : p.live.Nodup

theorem construct_represents (laws : LawfulStore Memory extent) (room : extent ≤ 2 ^ low)
    (low_ge : minOrder ≤ low) (low_le : low ≤ 12) (chunkptr size : Nat) (memory : Memory) :
    Represents low (construct chunkptr size memory) (Pool.construct size) := by
  have start := startOrder_ge size
  have capped := sizeToOrder_le (pagesOf size * pageSize)
  have empty : freeBlocks (fun _ : Nat => ([] : List Nat)) = ∅ := by
    ext b
    simp [freeBlocks]
  let p : Pool := ⟨pagesOf size * pageSize, sizeToOrder (pagesOf size * pageSize), fun _ => [], []⟩
  have noFree : p.free = ∅ := empty
  have before : p.Valid low (insert ⟨0, p.top⟩ ∅) := by
    refine ⟨?_, ?_, ?_, fun _ => List.nodup_nil, low_ge, capped, fun small =>
      size_le_two_pow _ (.inl small)⟩
    · rw [noFree, Set.empty_union]
      simpa using Tiling.whole p.top
    · rw [noFree]
      exact Set.empty_disjoint _
    · rw [noFree]
      rintro b (h | rfl | h)
      · exact h.elim
      · exact Nat.le_trans low_le start
      · exact h.elim
  have lists : FreeLists (⟨chunkptr, pagesOf size, fun _ => nullOffset, 0#32, memory⟩ :
      BuddyAllocator Memory) p.bins := by
    refine ⟨fun k _ _ => ⟨rfl, trivial⟩, ?_, ?_, ?_, fun i => by simp [p]⟩
    all_goals
      intro b member
      rw [show freeBlocks p.bins = ∅ from empty] at member
      exact member.elim
  obtain ⟨lists', _⟩ := push_step laws room ⟨0, p.top⟩ before (Set.notMem_empty _) lists
    (fun b h => h.elim)
  have unused : (Pool.construct size).inUse = ∅ := by
    ext b
    simp [Pool.inUse, Pool.construct, Pool.push]
  refine ⟨?_, lists', ?_, rfl, List.nodup_nil⟩
  · rw [unused]
    exact before.push (Set.notMem_empty _)
  · rw [unused]
    exact fun b h => h.elim

section Alloc

variable {a : BuddyAllocator Memory} {p : Pool}

theorem mask_bit (lists : FreeLists a p.bins) (t i : Nat) :
    (a.activeBinsBitmap &&& (BitVec.allOnes 32 <<< getIndexByOrder t)).getLsbD i = true ↔
      i < binCount ∧ getIndexByOrder t ≤ i ∧ p.bins (i + minOrder) ≠ [] := by
  have bit := lists.bitmap i
  have wide : binCount < 32 := by decide
  rw [BitVec.getLsbD_and, BitVec.getLsbD_shiftLeft, BitVec.getLsbD_allOnes]
  simp only [Bool.and_eq_true, bit, Bool.not_eq_true', decide_eq_true_eq, decide_eq_false_iff_not]
  constructor
  · rintro ⟨⟨h, nonempty⟩, ⟨_, above⟩, _⟩
    exact ⟨h, by omega, nonempty⟩
  · rintro ⟨h, above, nonempty⟩
    exact ⟨⟨h, nonempty⟩, ⟨by omega, by omega⟩, by omega⟩

-- countr_zero of the mask is the bin of the first order from `t` on with a free block.
theorem mask_firstFit (lists : FreeLists a p.bins) (t : Nat) (low' : minOrder ≤ t)
    (high : t ≤ maxOrder) :
    p.firstFit t =
      if a.activeBinsBitmap &&& (BitVec.allOnes 32 <<< getIndexByOrder t) = 0#32 then none
      else some ((a.activeBinsBitmap &&&
        (BitVec.allOnes 32 <<< getIndexByOrder t)).ctz.toNat + minOrder) := by
  have bit := mask_bit lists t
  generalize a.activeBinsBitmap &&& (BitVec.allOnes 32 <<< getIndexByOrder t) = mask at *
  have span : binCount + minOrder = maxOrder + 1 := by decide
  have index := idx_add t low'
  split
  next zero =>
    rw [Pool.firstFit, List.find?_eq_none]
    intro k inside
    rw [List.mem_range'_1] at inside
    have off := (bit (k - minOrder)).not.mp (by rw [zero]; simp)
    have back : k - minOrder + minOrder = k := by omega
    rw [back] at off
    simp only [decide_not, Bool.not_eq_true', decide_eq_false_iff_not, Decidable.not_not]
    by_contra nonempty
    exact off ⟨by omega, by omega, nonempty⟩
  next nonzero =>
    obtain ⟨h, above, nonempty⟩ := (bit _).mp (BitVec.getLsbD_true_ctz_of_ne_zero nonzero)
    rw [Pool.firstFit, List.find?_range'_eq_some]
    refine ⟨by simpa using nonempty, ?_, ?_⟩
    · rw [List.mem_range'_1]
      omega
    · intro k from' before
      have off := BitVec.getLsbD_false_of_lt_ctz
        (x := mask) (i := k - minOrder) (by omega)
      have clear := (bit (k - minOrder)).not.mp (by simp [off])
      have back : k - minOrder + minOrder = k := by omega
      rw [back] at clear
      simp only [decide_not, Bool.not_not, decide_eq_true_eq]
      by_contra nonempty
      exact clear ⟨by omega, by omega, nonempty⟩

theorem split_self (a : BuddyAllocator Memory) (offset t : Nat) : splitBlock a offset t t = a := by
  cases t with
  | zero => rfl
  | succ t => simp [splitBlock]

theorem hand_represents (laws : LawfulStore Memory extent) (room : extent ≤ 2 ^ low)
    (rep : Represents low a p) (offset k target : Nat) (member : (⟨offset, k⟩ : Block) ∈ p.free)
    (enough : low ≤ target) (within : target ≤ k) :
    Represents low
      { splitBlock (removeFreeBlock a offset k) offset k target with
        memory := setFree (splitBlock (removeFreeBlock a offset k) offset k target).memory offset false }
      { (p.take ⟨offset, k⟩).split offset k target with
        live := ⟨offset, target⟩ :: ((p.take ⟨offset, k⟩).split offset k target).live } := by
  have fresh : (⟨offset, k⟩ : Block) ∉ p.inUse := Set.disjoint_left.mp rep.valid.separate member
  obtain ⟨lists, holding⟩ := take_step laws room _ rep.valid member rep.lists rep.holding
  obtain ⟨valid', other, lists', holding'⟩ := split_step laws room offset k target
    (rep.valid.take member) fresh enough within lists holding
  obtain ⟨_, pages⟩ := split_base_pages (removeFreeBlock a offset k) offset k target
  obtain ⟨_, arena, live⟩ := Pool.split_fields (p.take ⟨offset, k⟩) offset k target
  have cleared := laws.setFree_here
    (splitBlock (removeFreeBlock a offset k) offset k target).memory offset false
  obtain ⟨lists'', holding''⟩ := write_step room ⟨offset, target⟩ target _ valid' other lists'
    (fun c h => holding' c (.inr h)) (laws.setFree_there _ offset false)
    ⟨by rw [cleared]; exact (holding' _ (.inl rfl)).1, by rw [cleared]⟩
  have inUse : ({b | b ∈ (⟨offset, target⟩ : Block) ::
      ((p.take ⟨offset, k⟩).split offset k target).live} : Set Block) =
      insert ⟨offset, target⟩ p.inUse := by
    rw [live]
    ext c
    simp [Pool.take, Pool.inUse]
  refine ⟨?_, lists'', ?_, ?_, ?_⟩
  · rw [Pool.inUse, inUse]
    exact valid'.congr rfl rfl rfl
  · rw [Pool.inUse, inUse]
    exact holding''
  · simp only [pages, remove_pages, arena]
    exact rep.arena
  · rw [live]
    exact List.nodup_cons.mpr ⟨other, rep.liveNodup⟩

theorem alloc_represents (laws : LawfulStore Memory extent) (room : extent ≤ 2 ^ low)
    (rep : Represents low a p) (size : Nat)
    (allowed : low ≤ sizeToOrder size ∨ size = 0 ∨ a.activeBinsBitmap = 0#32) :
    (alloc a size).1 = (p.alloc size).1.map (fun b => a.base + b.offset + headerSize) ∧
      Represents low (alloc a size).2 (p.alloc size).2 ∧ (alloc a size).2.base = a.base := by
  have fit := mask_firstFit rep.lists (sizeToOrder size) (sizeToOrder_ge size) (sizeToOrder_le size)
  have bit := mask_bit rep.lists (sizeToOrder size)
  unfold alloc Pool.alloc
  dsimp only
  by_cases refused : size = 0 ∨ weCantPutIt size = true
  · rw [if_pos refused, if_pos refused]
    exact ⟨rfl, rep, rfl⟩
  rw [if_neg refused, if_neg refused, fit]
  by_cases zero : a.activeBinsBitmap &&&
      (BitVec.allOnes 32 <<< getIndexByOrder (sizeToOrder size)) = 0#32
  · rw [if_pos zero, if_pos zero]
    exact ⟨rfl, rep, rfl⟩
  rw [if_neg zero, if_neg zero]
  obtain ⟨small, above, nonempty⟩ := (bit _).mp (BitVec.getLsbD_true_ctz_of_ne_zero zero)
  have enough : low ≤ sizeToOrder size := by
    rcases allowed with h | h | h
    · exact h
    · exact (refused (.inl h)).elim
    · exact (zero (by rw [h]; simp)).elim
  generalize (a.activeBinsBitmap &&&
    (BitVec.allOnes 32 <<< getIndexByOrder (sizeToOrder size))).ctz.toNat = found at *
  have index : getIndexByOrder (found + minOrder) = found := Nat.add_sub_cancel _ _
  have span : binCount + minOrder = maxOrder + 1 := by decide
  have target := sizeToOrder_ge size
  rcases rep.lists.head_block (found + minOrder) (Nat.le_add_left _ _) (by omega) with
    ⟨_, empty⟩ | ⟨head, member⟩
  · exact (nonempty empty).elim
  rw [index] at head member
  simp only [head]
  generalize a.bins found = offset at *
  have within : sizeToOrder size ≤ found + minOrder := by
    unfold getIndexByOrder at above
    omega
  have whole : (if found + minOrder > sizeToOrder size then
      splitBlock (removeFreeBlock a offset (found + minOrder)) offset (found + minOrder)
        (sizeToOrder size) else removeFreeBlock a offset (found + minOrder)) =
      splitBlock (removeFreeBlock a offset (found + minOrder)) offset (found + minOrder)
        (sizeToOrder size) := by
    split
    · rfl
    · rw [show found + minOrder = sizeToOrder size by omega, split_self]
  rw [whole]
  obtain ⟨base, _⟩ := split_base_pages (removeFreeBlock a offset (found + minOrder)) offset
    (found + minOrder) (sizeToOrder size)
  have handed := hand_represents laws room rep offset (found + minOrder) (sizeToOrder size) member
    enough within
  exact ⟨by simp [base], handed, by simp [base]⟩

end Alloc

section Free

variable {p : Pool}

theorem release_inUse (b : Block) : (p.release b).inUse = {c | c ∈ p.live.filter (· ≠ b)} := by
  unfold Pool.release Pool.inUse
  rw [(Pool.merge_fields _ _ b).2.2]

theorem free_represents (laws : LawfulStore Memory extent) (room : extent ≤ 2 ^ low)
    {a : BuddyAllocator Memory} (rep : Represents low a p) (b : Block) (member : b ∈ p.live) :
    Represents low (free a (a.base + b.offset + headerSize)) (p.release b) ∧
      (free a (a.base + b.offset + headerSize)).base = a.base := by
  have real : a.base + b.offset + headerSize ≠ 0 := by unfold headerSize; omega
  have offset : ptrToOffset a (a.base + b.offset + headerSize - headerSize) = b.offset := by
    unfold ptrToOffset
    omega
  obtain ⟨order, _⟩ := rep.holding b member
  have valid := rep.valid
  rw [Pool.inUse_split b member] at valid
  have other := Pool.not_mem_filter (p := p) b
  have high := rep.valid.order_le b (.inr member)
  obtain ⟨valid', lists, holding⟩ := merge_step laws room (maxOrder - b.order) b
    (p := { p with live := p.live.filter (· ≠ b) }) (by omega) (valid.congr rfl rfl rfl) other
    rep.lists (fun c h => rep.holding c (List.mem_of_mem_filter h)) rep.arena
  obtain ⟨base, pages⟩ := mergeUp_base_pages a (maxOrder - b.order) b.offset b.order
  obtain ⟨_, arena, live⟩ := Pool.merge_fields (maxOrder - b.order)
    { p with live := p.live.filter (· ≠ b) } b
  simp only [free, if_neg real, offset, order, mergeBlock]
  refine ⟨⟨?_, lists, ?_, ?_, ?_⟩, base⟩
  · rw [release_inUse]
    exact valid'
  · rw [release_inUse]
    exact holding
  · rw [pages]
    exact rep.arena.trans arena.symm
  · rw [Pool.release, live]
    exact rep.liveNodup.filter _

end Free

end ElySquare.Buddy
