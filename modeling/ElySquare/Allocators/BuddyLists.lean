import Mathlib.Data.List.Nodup
import ElySquare.Shared.Dyadic
import ElySquare.Shared.Linked
import ElySquare.Allocators.Buddy

set_option autoImplicit false

namespace ElySquare.Buddy

open Dyadic Linked

def Apart (extent x y : Nat) : Prop := x + extent ≤ y ∨ y + extent ≤ x

structure LawfulStore (Memory : Type) [HeaderStore Memory] (extent : Nat) : Prop where
  extent_pos : 0 < extent
  setOrder_here (m : Memory) (o k : Nat) (small : k < 128) :
    header (setOrder m o k) o = { header m o with order := k }
  setFree_here (m : Memory) (o : Nat) (f : Bool) :
    header (setFree m o f) o = { header m o with isFree := f }
  setNext_here (m : Memory) (o v : Nat) (small : v < 2 ^ 32) :
    header (setNext m o v) o = { header m o with nextOffset := v }
  setPrev_here (m : Memory) (o v : Nat) (small : v < 2 ^ 32) :
    header (setPrev m o v) o = { header m o with prevOffset := v }
  setOrder_there (m : Memory) (o k x : Nat) (apart : Apart extent o x) :
    header (setOrder m o k) x = header m x
  setFree_there (m : Memory) (o : Nat) (f : Bool) (x : Nat) (apart : Apart extent o x) :
    header (setFree m o f) x = header m x
  setNext_there (m : Memory) (o v x : Nat) (apart : Apart extent o x) :
    header (setNext m o v) x = header m x
  setPrev_there (m : Memory) (o v x : Nat) (apart : Apart extent o x) :
    header (setPrev m o v) x = header m x

def link (offset : Nat) : Option Nat := if offset = nullOffset then none else some offset

@[simp] theorem link_null : link nullOffset = none := rfl

theorem link_of_ne (offset : Nat) (real : offset ≠ nullOffset) : link offset = some offset :=
  if_neg real

theorem link_eq_some (offset x : Nat) : link offset = some x ↔ offset = x ∧ x ≠ nullOffset := by
  unfold link
  split
  · simp_all [eq_comm]
  · constructor
    · intro h; cases h; exact ⟨rfl, by assumption⟩
    · rintro ⟨rfl, _⟩; rfl

theorem link_eq_none (offset : Nat) : link offset = none ↔ offset = nullOffset := by
  simp [link]

variable {Memory : Type} [HeaderStore Memory] {extent : Nat}

theorem apart_ne (laws : LawfulStore Memory extent) {x y : Nat} (apart : Apart extent x y) : x ≠ y := by
  have := laws.extent_pos
  rcases apart with h | h <;> omega

theorem getIndexByOrder_inj (j k : Nat) (hj : minOrder ≤ j) (hk : minOrder ≤ k) :
    getIndexByOrder j = getIndexByOrder k ↔ j = k := by
  unfold getIndexByOrder
  omega

def LinkTo (extent v x : Nat) : Prop := v = nullOffset ∨ v = x ∨ Apart extent v x

section Push

variable (laws : LawfulStore Memory extent) (a : BuddyAllocator Memory) (offset order : Nat)

include laws

theorem header_push_here (small : order < 128) (headBound : a.bins (getIndexByOrder order) < 2 ^ 32)
    (apart : a.bins (getIndexByOrder order) ≠ nullOffset →
      Apart extent (a.bins (getIndexByOrder order)) offset) :
    header (pushFreeBlock a offset order).memory offset =
      ⟨order, true, a.bins (getIndexByOrder order), nullOffset⟩ := by
  have own : header (setOrder (setNext (setPrev (setFree a.memory offset true) offset nullOffset)
      offset (a.bins (getIndexByOrder order))) offset order) offset =
      ⟨order, true, a.bins (getIndexByOrder order), nullOffset⟩ := by
    rw [laws.setOrder_here _ _ _ small, laws.setNext_here _ _ _ headBound,
      laws.setPrev_here _ _ _ (by decide), laws.setFree_here]
  unfold pushFreeBlock
  dsimp only
  split
  next real => rw [laws.setPrev_there _ _ _ _ (apart real), own]
  next => exact own

theorem header_push_there (x : Nat) (bound : offset < 2 ^ 32) (real : x ≠ nullOffset)
    (apart : Apart extent offset x)
    (head : LinkTo extent (a.bins (getIndexByOrder order)) x) :
    header (pushFreeBlock a offset order).memory x = { header a.memory x with
      prevOffset := if a.bins (getIndexByOrder order) = x then offset
        else (header a.memory x).prevOffset } := by
  have other : header (setOrder (setNext (setPrev (setFree a.memory offset true) offset nullOffset)
      offset (a.bins (getIndexByOrder order))) offset order) x = header a.memory x := by
    rw [laws.setOrder_there _ _ _ _ apart, laws.setNext_there _ _ _ _ apart,
      laws.setPrev_there _ _ _ _ apart, laws.setFree_there _ _ _ _ apart]
  unfold pushFreeBlock
  dsimp only
  rcases head with null | same | away
  · rw [if_neg (by simp [null]), if_neg (by rw [null]; exact Ne.symm real), other]
  · subst same
    rw [if_pos real, if_pos rfl, laws.setPrev_here _ _ _ bound, other]
  · rw [if_neg (apart_ne laws away)]
    split
    · rw [laws.setPrev_there _ _ _ _ away, other]
    · exact other

end Push

section Remove

variable (laws : LawfulStore Memory extent) (a : BuddyAllocator Memory) (offset order : Nat)

include laws

theorem header_unlinkForward_here
    (prev : (header a.memory offset).prevOffset ≠ nullOffset →
      Apart extent (header a.memory offset).prevOffset offset) :
    header (unlinkForward a offset order).memory offset = header a.memory offset := by
  unfold unlinkForward
  dsimp only
  split
  next real => exact laws.setNext_there _ _ _ _ (prev real)
  next => rfl

theorem header_unlinkForward_there (x : Nat) (real : x ≠ nullOffset)
    (bound : (header a.memory offset).nextOffset < 2 ^ 32)
    (prev : LinkTo extent (header a.memory offset).prevOffset x) :
    header (unlinkForward a offset order).memory x = { header a.memory x with
      nextOffset := if (header a.memory offset).prevOffset = x
        then (header a.memory offset).nextOffset else (header a.memory x).nextOffset } := by
  unfold unlinkForward
  dsimp only
  rcases prev with null | same | away
  · have first : ¬ (header a.memory offset).prevOffset ≠ nullOffset := not_not.mpr null
    have other : (header a.memory offset).prevOffset ≠ x := by rw [null]; exact Ne.symm real
    rw [if_neg first, if_neg other]
  · rw [same, if_pos real, if_pos rfl]
    exact laws.setNext_here _ _ _ bound
  · rw [if_neg (apart_ne laws away)]
    split
    · exact laws.setNext_there _ _ _ _ away
    · rfl

theorem header_unlinkBackward_here
    (next : (header a.memory offset).nextOffset ≠ nullOffset →
      Apart extent (header a.memory offset).nextOffset offset) :
    header (unlinkBackward a offset).memory offset = header a.memory offset := by
  unfold unlinkBackward
  dsimp only
  split
  next real => exact laws.setPrev_there _ _ _ _ (next real)
  next => rfl

theorem header_unlinkBackward_there (x : Nat) (real : x ≠ nullOffset)
    (bound : (header a.memory offset).prevOffset < 2 ^ 32)
    (next : LinkTo extent (header a.memory offset).nextOffset x) :
    header (unlinkBackward a offset).memory x = { header a.memory x with
      prevOffset := if (header a.memory offset).nextOffset = x
        then (header a.memory offset).prevOffset else (header a.memory x).prevOffset } := by
  unfold unlinkBackward
  dsimp only
  rcases next with null | same | away
  · rw [if_neg (by simp [null]), if_neg (by rw [null]; exact Ne.symm real)]
  · rw [same, if_pos real, if_pos rfl]
    exact laws.setPrev_here _ _ _ bound
  · rw [if_neg (apart_ne laws away)]
    split
    · exact laws.setPrev_there _ _ _ _ away
    · rfl

theorem header_remove_here
    (prev : (header a.memory offset).prevOffset ≠ nullOffset →
      Apart extent (header a.memory offset).prevOffset offset)
    (next : (header a.memory offset).nextOffset ≠ nullOffset →
      Apart extent (header a.memory offset).nextOffset offset) :
    header (removeFreeBlock a offset order).memory offset =
      { header a.memory offset with isFree := false } := by
  have first := header_unlinkForward_here laws a offset order prev
  unfold removeFreeBlock
  dsimp only
  rw [laws.setFree_here, header_unlinkBackward_here laws _ _ (by rw [first]; exact next), first]

theorem header_remove_there (x : Nat) (real : x ≠ nullOffset) (apart : Apart extent offset x)
    (nextBound : (header a.memory offset).nextOffset < 2 ^ 32)
    (prevBound : (header a.memory offset).prevOffset < 2 ^ 32)
    (prevHere : (header a.memory offset).prevOffset ≠ nullOffset →
      Apart extent (header a.memory offset).prevOffset offset)
    (prev : LinkTo extent (header a.memory offset).prevOffset x)
    (next : LinkTo extent (header a.memory offset).nextOffset x) :
    header (removeFreeBlock a offset order).memory x = { header a.memory x with
      nextOffset := if (header a.memory offset).prevOffset = x
        then (header a.memory offset).nextOffset else (header a.memory x).nextOffset
      prevOffset := if (header a.memory offset).nextOffset = x
        then (header a.memory offset).prevOffset else (header a.memory x).prevOffset } := by
  have first := header_unlinkForward_here laws a offset order prevHere
  have firstThere := header_unlinkForward_there laws a offset order x real nextBound prev
  unfold removeFreeBlock
  dsimp only
  rw [laws.setFree_there _ _ _ _ apart,
    header_unlinkBackward_there laws _ _ x real (by rwa [first]) (by rwa [first]), first, firstThere]

end Remove

def freeBlocks (bins : Nat → List Nat) : Set Block := {b | b.offset ∈ bins b.order}

def Spaced (extent : Nat) (blocks : Set Block) : Prop :=
  ∀ b ∈ blocks, ∀ c ∈ blocks, b ≠ c → Apart extent b.offset c.offset

theorem Spaced.mono {blocks more : Set Block} (spaced : Spaced extent more) (within : blocks ⊆ more) :
    Spaced extent blocks :=
  fun b hb c hc => spaced b (within hb) c (within hc)

def pushBin (bins : Nat → List Nat) (b : Block) : Nat → List Nat :=
  Function.update bins b.order (b.offset :: bins b.order)

def takeBin (bins : Nat → List Nat) (b : Block) : Nat → List Nat :=
  Function.update bins b.order ((bins b.order).erase b.offset)

theorem freeBlocks_pushBin (bins : Nat → List Nat) (b : Block) :
    freeBlocks (pushBin bins b) = insert b (freeBlocks bins) := by
  ext c
  by_cases same : c.order = b.order
  · have whole : c = b ↔ c.offset = b.offset := by
      cases b; cases c; simp_all
    simp [freeBlocks, pushBin, same, whole]
  · have other : c ≠ b := fun h => same (h ▸ rfl)
    simp [freeBlocks, pushBin, Function.update_of_ne same, other]

theorem freeBlocks_takeBin (bins : Nat → List Nat) (b : Block) (nodup : (bins b.order).Nodup) :
    freeBlocks (takeBin bins b) = freeBlocks bins \ {b} := by
  ext c
  by_cases same : c.order = b.order
  · have whole : c = b ↔ c.offset = b.offset := by
      cases b; cases c; simp_all
    simp only [freeBlocks, takeBin, same, Function.update_self, Set.mem_ofPred_eq, Set.mem_sdiff,
      Set.mem_singleton_iff, whole]
    rw [nodup.mem_erase_iff]
    tauto
  · have other : c ≠ b := fun h => same (h ▸ rfl)
    simp [freeBlocks, takeBin, Function.update_of_ne same, other]

structure FreeLists (a : BuddyAllocator Memory) (bins : Nat → List Nat) : Prop where
  linked : ∀ k, minOrder ≤ k → k ≤ maxOrder →
    Doubly (fun o => link (header a.memory o).nextOffset) (fun o => link (header a.memory o).prevOffset)
      (link (a.bins (getIndexByOrder k))) (bins k)
  headers : ∀ b ∈ freeBlocks bins,
    (header a.memory b.offset).order = b.order ∧ (header a.memory b.offset).isFree = true
  orders : ∀ b ∈ freeBlocks bins, minOrder ≤ b.order ∧ b.order ≤ maxOrder
  offsets : ∀ b ∈ freeBlocks bins, b.offset < nullOffset
  bitmap : ∀ i, a.activeBinsBitmap.getLsbD i = true ↔ i < binCount ∧ bins (i + minOrder) ≠ []

def Held (a : BuddyAllocator Memory) (blocks : Set Block) : Prop :=
  ∀ b ∈ blocks,
    (header a.memory b.offset).order = b.order ∧ (header a.memory b.offset).isFree = false

namespace FreeLists

variable {a : BuddyAllocator Memory} {bins : Nat → List Nat}

theorem nodup (lists : FreeLists a bins) (k : Nat) (low : minOrder ≤ k) (high : k ≤ maxOrder) :
    (bins k).Nodup :=
  (lists.linked k low high).forward.nodup

theorem head_block (lists : FreeLists a bins) (k : Nat) (low : minOrder ≤ k) (high : k ≤ maxOrder) :
    a.bins (getIndexByOrder k) = nullOffset ∧ bins k = [] ∨
      (bins k).head? = some (a.bins (getIndexByOrder k)) ∧
        ⟨a.bins (getIndexByOrder k), k⟩ ∈ freeBlocks bins := by
  have start := (lists.linked k low high).forward.head_eq
  cases cells : bins k with
  | nil => exact .inl ⟨(link_eq_none _).mp (by rw [start, cells]; rfl), rfl⟩
  | cons first rest =>
      have here := ((link_eq_some _ _).mp (start.trans (by rw [cells]; rfl))).1
      exact .inr ⟨by rw [here]; rfl, by simp [freeBlocks, cells, here]⟩

theorem head_lt (lists : FreeLists a bins) (k : Nat) (low : minOrder ≤ k) (high : k ≤ maxOrder) :
    a.bins (getIndexByOrder k) < 2 ^ 32 := by
  rcases lists.head_block k low high with ⟨null, _⟩ | ⟨_, member⟩
  · rw [null]; decide
  · have := lists.offsets _ member
    unfold nullOffset at this
    simp only at this
    omega

theorem neighbours (lists : FreeLists a bins) (b : Block) (member : b ∈ freeBlocks bins) :
    ∃ before after, bins b.order = before ++ b.offset :: after ∧
      link (header a.memory b.offset).nextOffset = after.head? ∧
      link (header a.memory b.offset).prevOffset = before.getLast? := by
  obtain ⟨low, high⟩ := lists.orders b member
  obtain ⟨before, after, cells⟩ := List.append_of_mem member
  have list := lists.linked b.order low high
  rw [cells] at list
  exact ⟨before, after, cells, list.next_eq, list.prev_eq⟩

theorem next_block (lists : FreeLists a bins) (b : Block) (member : b ∈ freeBlocks bins) :
    (header a.memory b.offset).nextOffset = nullOffset ∨
      ⟨(header a.memory b.offset).nextOffset, b.order⟩ ∈ freeBlocks bins ∧
        (header a.memory b.offset).nextOffset ≠ b.offset := by
  obtain ⟨low, high⟩ := lists.orders b member
  obtain ⟨before, after, cells, next, _⟩ := lists.neighbours b member
  cases after with
  | nil => exact .inl ((link_eq_none _).mp next)
  | cons other rest =>
      have here := ((link_eq_some _ _).mp next).1
      have distinct := lists.nodup b.order low high
      rw [cells] at distinct
      refine .inr ⟨by simp [freeBlocks, cells, here], fun same => ?_⟩
      have := (List.nodup_cons.mp (List.nodup_append.mp distinct).2.1).1
      exact this (by simp [← here, same])

theorem prev_block (lists : FreeLists a bins) (b : Block) (member : b ∈ freeBlocks bins) :
    (header a.memory b.offset).prevOffset = nullOffset ∨
      ⟨(header a.memory b.offset).prevOffset, b.order⟩ ∈ freeBlocks bins ∧
        (header a.memory b.offset).prevOffset ≠ b.offset := by
  obtain ⟨low, high⟩ := lists.orders b member
  obtain ⟨before, after, cells, _, prev⟩ := lists.neighbours b member
  cases last : before.getLast? with
  | none => exact .inl ((link_eq_none _).mp (prev.trans last))
  | some other =>
      have here := ((link_eq_some _ _).mp (prev.trans last)).1
      have inside := List.mem_of_getLast? last
      have distinct := lists.nodup b.order low high
      rw [cells] at distinct
      refine .inr ⟨by simp [freeBlocks, cells, here, inside], fun same => ?_⟩
      exact (List.nodup_append.mp distinct).2.2 other inside b.offset (by simp) (here ▸ same)

theorem next_lt (lists : FreeLists a bins) (b : Block) (member : b ∈ freeBlocks bins) :
    (header a.memory b.offset).nextOffset < 2 ^ 32 := by
  rcases lists.next_block b member with null | ⟨block, _⟩
  · rw [null]; decide
  · have := lists.offsets _ block
    unfold nullOffset at this
    simp only at this
    omega

theorem prev_lt (lists : FreeLists a bins) (b : Block) (member : b ∈ freeBlocks bins) :
    (header a.memory b.offset).prevOffset < 2 ^ 32 := by
  rcases lists.prev_block b member with null | ⟨block, _⟩
  · rw [null]; decide
  · have := lists.offsets _ block
    unfold nullOffset at this
    simp only at this
    omega

end FreeLists

theorem linkTo_of_block {blocks : Set Block} (spaced : Spaced extent blocks) (v k : Nat)
    (b : Block) (member : b ∈ blocks) (target : v = nullOffset ∨ ⟨v, k⟩ ∈ blocks) :
    LinkTo extent v b.offset := by
  rcases target with null | block
  · exact .inl null
  · by_cases same : ⟨v, k⟩ = b
    · exact .inr (.inl (congrArg Block.offset same))
    · exact .inr (.inr (spaced _ block _ member same))

theorem getLsbD_one_shift (i idx : Nat) :
    (1#32 <<< idx).getLsbD i = decide (i = idx ∧ idx < 32) := by
  rw [← BitVec.twoPow_eq, BitVec.getLsbD_twoPow]
  by_cases same : idx = i
  · simp [same]
  · simp [same, Ne.symm same]

theorem idx_lt (k : Nat) (high : k ≤ maxOrder) : getIndexByOrder k < binCount := by
  unfold getIndexByOrder binCount minOrder
  unfold maxOrder at *
  omega

theorem idx_add (k : Nat) (low : minOrder ≤ k) : getIndexByOrder k + minOrder = k := by
  unfold getIndexByOrder
  omega

section Push

variable {a : BuddyAllocator Memory} {bins : Nat → List Nat} {held : Set Block}

theorem push_here (laws : LawfulStore Memory extent) (lists : FreeLists a bins) (b : Block)
    (low : minOrder ≤ b.order) (high : b.order ≤ maxOrder) (fresh : b ∉ freeBlocks bins)
    (spaced : Spaced extent (insert b (freeBlocks bins))) :
    header (pushFreeBlock a b.offset b.order).memory b.offset =
      ⟨b.order, true, a.bins (getIndexByOrder b.order), nullOffset⟩ := by
  refine header_push_here laws a b.offset b.order (by unfold maxOrder at high; omega)
    (lists.head_lt b.order low high) fun real => ?_
  rcases lists.head_block b.order low high with ⟨null, _⟩ | ⟨_, block⟩
  · exact (real null).elim
  · exact spaced _ (.inr block) b (.inl rfl) fun same => fresh (same ▸ block)

theorem push_there (laws : LawfulStore Memory extent) (lists : FreeLists a bins) (b : Block)
    (low : minOrder ≤ b.order) (high : b.order ≤ maxOrder) (small : b.offset < nullOffset)
    (fresh : b ∉ freeBlocks bins) (spaced : Spaced extent (insert b (freeBlocks bins))) (c : Block)
    (member : c ∈ freeBlocks bins) :
    header (pushFreeBlock a b.offset b.order).memory c.offset = { header a.memory c.offset with
      prevOffset := if a.bins (getIndexByOrder b.order) = c.offset then b.offset
        else (header a.memory c.offset).prevOffset } := by
  have target := (lists.head_block b.order low high).imp And.left And.right
  exact header_push_there laws a b.offset b.order c.offset (Nat.lt_trans small (by decide))
    (Nat.ne_of_lt (lists.offsets c member))
    (spaced b (.inl rfl) c (.inr member) fun same => fresh (same ▸ member))
    (linkTo_of_block (spaced.mono (Set.subset_insert _ _)) _ b.order c member target)

theorem push_linked_here (laws : LawfulStore Memory extent) (lists : FreeLists a bins) (b : Block)
    (low : minOrder ≤ b.order) (high : b.order ≤ maxOrder) (small : b.offset < nullOffset)
    (fresh : b ∉ freeBlocks bins) (spaced : Spaced extent (insert b (freeBlocks bins))) :
    Doubly (fun o => link (header (pushFreeBlock a b.offset b.order).memory o).nextOffset)
      (fun o => link (header (pushFreeBlock a b.offset b.order).memory o).prevOffset)
      (link ((pushFreeBlock a b.offset b.order).bins (getIndexByOrder b.order)))
      (pushBin bins b b.order) := by
  have list := lists.linked b.order low high
  have here := push_here laws lists b low high fresh spaced
  have there := push_there laws lists b low high small fresh spaced
  have start : link ((pushFreeBlock a b.offset b.order).bins (getIndexByOrder b.order)) =
      some b.offset := by
    simp only [pushFreeBlock, Function.update_self]
    exact link_of_ne _ (Nat.ne_of_lt small)
  rw [start, pushBin, Function.update_self]
  refine ⟨list.forward.push _ _ (by rw [here]) ?_, list.backward.push _ _ (by rw [here]; rfl) ?_ ?_⟩
  · intro o member
    rw [there ⟨o, b.order⟩ member]
  · intro o first
    have member : ⟨o, b.order⟩ ∈ freeBlocks bins := List.mem_of_head? first
    have headHere := ((link_eq_some _ _).mp (list.forward.head_eq.trans first)).1
    rw [there _ member]
    simp only [headHere, if_true]
    exact link_of_ne _ (Nat.ne_of_lt small)
  · intro o later
    have member : ⟨o, b.order⟩ ∈ freeBlocks bins := List.mem_of_mem_tail later
    have other : a.bins (getIndexByOrder b.order) ≠ o := by
      intro equal
      have distinct := list.forward.nodup
      cases cells : bins b.order with
      | nil => rw [cells] at later; simp at later
      | cons first rest =>
          rw [cells] at later distinct
          have headHere := ((link_eq_some _ _).mp
            (list.forward.head_eq.trans (by rw [cells]; rfl))).1
          exact (List.nodup_cons.mp distinct).1 (headHere ▸ equal ▸ later)
    rw [there _ member]
    simp only [if_neg other]

theorem push_linked_other (laws : LawfulStore Memory extent) (lists : FreeLists a bins) (b : Block)
    (low : minOrder ≤ b.order) (high : b.order ≤ maxOrder) (small : b.offset < nullOffset)
    (fresh : b ∉ freeBlocks bins) (spaced : Spaced extent (insert b (freeBlocks bins))) (k : Nat)
    (lowK : minOrder ≤ k) (highK : k ≤ maxOrder) (different : k ≠ b.order) :
    Doubly (fun o => link (header (pushFreeBlock a b.offset b.order).memory o).nextOffset)
      (fun o => link (header (pushFreeBlock a b.offset b.order).memory o).prevOffset)
      (link ((pushFreeBlock a b.offset b.order).bins (getIndexByOrder k))) (pushBin bins b k) := by
  have there := push_there laws lists b low high small fresh spaced
  have start : (pushFreeBlock a b.offset b.order).bins (getIndexByOrder k) =
      a.bins (getIndexByOrder k) :=
    Function.update_of_ne (fun h => different ((getIndexByOrder_inj k _ lowK low).mp h)) _ _
  rw [start, pushBin, Function.update_of_ne different]
  refine (lists.linked k lowK highK).congr _ ?_ ?_
  · intro o member
    rw [there ⟨o, k⟩ member]
  · intro o member
    have other : a.bins (getIndexByOrder b.order) ≠ o := by
      intro equal
      rcases lists.head_block b.order low high with ⟨null, _⟩ | ⟨_, block⟩
      · exact Nat.ne_of_lt (lists.offsets ⟨o, k⟩ member) (equal ▸ null)
      · have away := spaced _ (.inr block) ⟨o, k⟩ (.inr member)
          fun h => different (congrArg Block.order h).symm
        exact apart_ne laws away equal
    rw [there ⟨o, k⟩ member]
    simp only [if_neg other]

theorem push_bitmap_iff (lists : FreeLists a bins) (b : Block) (low : minOrder ≤ b.order)
    (high : b.order ≤ maxOrder) (i : Nat) :
    (pushFreeBlock a b.offset b.order).activeBinsBitmap.getLsbD i = true ↔
      i < binCount ∧ pushBin bins b (i + minOrder) ≠ [] := by
  have inside := idx_lt b.order high
  simp only [pushFreeBlock, BitVec.getLsbD_or, Bool.or_eq_true, lists.bitmap i, getLsbD_one_shift,
    decide_eq_true_eq, pushBin]
  by_cases same : i + minOrder = b.order
  · have index : i = getIndexByOrder b.order := by unfold getIndexByOrder; omega
    rw [same, Function.update_self]
    have wide : getIndexByOrder b.order < 32 := Nat.lt_trans inside (by decide)
    simp [index, inside, wide]
  · have index : i ≠ getIndexByOrder b.order := by
      have := idx_add b.order low
      omega
    rw [Function.update_of_ne same]
    simp [index]

theorem push_freeLists (laws : LawfulStore Memory extent) (lists : FreeLists a bins) (b : Block)
    (low : minOrder ≤ b.order) (high : b.order ≤ maxOrder) (small : b.offset < nullOffset)
    (fresh : b ∉ freeBlocks bins) (spaced : Spaced extent (insert b (freeBlocks bins))) :
    FreeLists (pushFreeBlock a b.offset b.order) (pushBin bins b) := by
  refine ⟨?_, ?_, ?_, ?_, push_bitmap_iff lists b low high⟩
  · intro k lowK highK
    by_cases same : k = b.order
    · subst same
      exact push_linked_here laws lists b low high small fresh spaced
    · exact push_linked_other laws lists b low high small fresh spaced k lowK highK same
  · rw [freeBlocks_pushBin]
    rintro c (rfl | member)
    · simp [push_here laws lists c low high fresh spaced]
    · rw [push_there laws lists b low high small fresh spaced c member]
      exact lists.headers c member
  · rw [freeBlocks_pushBin]
    rintro c (rfl | member)
    · exact ⟨low, high⟩
    · exact lists.orders c member
  · rw [freeBlocks_pushBin]
    rintro c (rfl | member)
    · exact small
    · exact lists.offsets c member

theorem push_held (laws : LawfulStore Memory extent) (lists : FreeLists a bins) (b : Block)
    (low : minOrder ≤ b.order) (high : b.order ≤ maxOrder) (small : b.offset < nullOffset)
    (holding : Held a held) (heldSmall : ∀ c ∈ held, c.offset < nullOffset) (other : b ∉ held)
    (spaced : Spaced extent (insert b (freeBlocks bins ∪ held))) :
    Held (pushFreeBlock a b.offset b.order) held := by
  intro c member
  have target := (lists.head_block b.order low high).imp And.left And.right
  rw [header_push_there laws a b.offset b.order c.offset (Nat.lt_trans small (by decide))
    (Nat.ne_of_lt (heldSmall c member))
    (spaced b (.inl rfl) c (.inr (.inr member)) (fun same => other (same ▸ member)))
    (linkTo_of_block (spaced.mono (Set.subset_insert _ _)) _ b.order c (.inr member)
      (target.imp_right .inl))]
  exact holding c member

end Push

section Remove

variable {a : BuddyAllocator Memory} {bins : Nat → List Nat} {held : Set Block}

theorem unlinkBackward_bins (a : BuddyAllocator Memory) (offset : Nat) :
    (unlinkBackward a offset).bins = a.bins ∧
      (unlinkBackward a offset).activeBinsBitmap = a.activeBinsBitmap := by
  unfold unlinkBackward
  dsimp only
  split <;> exact ⟨rfl, rfl⟩

theorem remove_bins (a : BuddyAllocator Memory) (offset order : Nat) :
    (removeFreeBlock a offset order).bins =
      if (header a.memory offset).prevOffset = nullOffset then
        Function.update a.bins (getIndexByOrder order) (header a.memory offset).nextOffset
      else a.bins := by
  simp only [removeFreeBlock, unlinkBackward_bins]
  by_cases null : (header a.memory offset).prevOffset = nullOffset <;> simp [unlinkForward, null]

theorem remove_bitmap (a : BuddyAllocator Memory) (offset order : Nat) :
    (removeFreeBlock a offset order).activeBinsBitmap =
      if (header a.memory offset).prevOffset = nullOffset ∧
          (header a.memory offset).nextOffset = nullOffset then
        a.activeBinsBitmap &&& ~~~(1#32 <<< getIndexByOrder order)
      else a.activeBinsBitmap := by
  simp only [removeFreeBlock, unlinkBackward_bins]
  by_cases null : (header a.memory offset).prevOffset = nullOffset <;> simp [unlinkForward, null]

theorem remove_there (held : Set Block) (laws : LawfulStore Memory extent) (lists : FreeLists a bins)
    (b : Block) (member : b ∈ freeBlocks bins) (spaced : Spaced extent (freeBlocks bins ∪ held)) (c : Block)
    (other : c ≠ b) (inside : c ∈ freeBlocks bins ∪ held) (small : c.offset < nullOffset) :
    header (removeFreeBlock a b.offset b.order).memory c.offset = { header a.memory c.offset with
      nextOffset := if (header a.memory b.offset).prevOffset = c.offset
        then (header a.memory b.offset).nextOffset else (header a.memory c.offset).nextOffset
      prevOffset := if (header a.memory b.offset).nextOffset = c.offset
        then (header a.memory b.offset).prevOffset else (header a.memory c.offset).prevOffset } := by
  refine header_remove_there laws a b.offset b.order c.offset (Nat.ne_of_lt small)
    (spaced b (.inl member) c inside (Ne.symm other)) (lists.next_lt b member)
    (lists.prev_lt b member) ?_ ?_ ?_
  · intro real
    rcases lists.prev_block b member with null | ⟨block, different⟩
    · exact (real null).elim
    · exact spaced _ (.inl block) b (.inl member) (fun same => different (congrArg Block.offset same))
  · exact linkTo_of_block spaced _ b.order c inside
      ((lists.prev_block b member).imp_right fun h => .inl h.1)
  · exact linkTo_of_block spaced _ b.order c inside
      ((lists.next_block b member).imp_right fun h => .inl h.1)

theorem remove_here (laws : LawfulStore Memory extent) (lists : FreeLists a bins) (b : Block)
    (member : b ∈ freeBlocks bins) (spaced : Spaced extent (freeBlocks bins)) :
    header (removeFreeBlock a b.offset b.order).memory b.offset =
      { header a.memory b.offset with isFree := false } := by
  refine header_remove_here laws a b.offset b.order ?_ ?_
  · intro real
    rcases lists.prev_block b member with null | ⟨block, different⟩
    · exact (real null).elim
    · exact spaced _ block b member (fun same => different (congrArg Block.offset same))
  · intro real
    rcases lists.next_block b member with null | ⟨block, different⟩
    · exact (real null).elim
    · exact spaced _ block b member (fun same => different (congrArg Block.offset same))

theorem takeBin_self (lists : FreeLists a bins) (b : Block) (member : b ∈ freeBlocks bins)
    (before after : List Nat) (cells : bins b.order = before ++ b.offset :: after) :
    takeBin bins b b.order = before ++ after := by
  obtain ⟨low, high⟩ := lists.orders b member
  have distinct := lists.nodup b.order low high
  rw [takeBin, Function.update_self, cells] at *
  have absent : b.offset ∉ before := fun h =>
    (List.nodup_append.mp distinct).2.2 _ h b.offset (by simp) rfl
  rw [List.erase_append_right _ absent, List.erase_cons_head]

theorem neighbour_free (lists : FreeLists a bins) (b : Block) (member : b ∈ freeBlocks bins)
    (before after : List Nat) (cells : bins b.order = before ++ b.offset :: after) (o : Nat)
    (inside : o ∈ before ++ after) :
    (⟨o, b.order⟩ : Block) ∈ freeBlocks bins ∧ (⟨o, b.order⟩ : Block) ≠ b := by
  obtain ⟨low, high⟩ := lists.orders b member
  have distinct := lists.nodup b.order low high
  constructor
  · rw [freeBlocks, Set.mem_ofPred_eq, cells]
    rcases List.mem_append.mp inside with h | h <;> simp [h]
  · intro equal
    rw [cells, List.nodup_middle] at distinct
    exact (List.nodup_cons.mp distinct).1 (congrArg Block.offset equal ▸ inside)

theorem remove_linked_here (laws : LawfulStore Memory extent) (lists : FreeLists a bins) (b : Block)
    (member : b ∈ freeBlocks bins) (spaced : Spaced extent (freeBlocks bins)) :
    Doubly (fun o => link (header (removeFreeBlock a b.offset b.order).memory o).nextOffset)
      (fun o => link (header (removeFreeBlock a b.offset b.order).memory o).prevOffset)
      (link ((removeFreeBlock a b.offset b.order).bins (getIndexByOrder b.order)))
      (takeBin bins b b.order) := by
  obtain ⟨low, high⟩ := lists.orders b member
  obtain ⟨before, after, cells, next, prev⟩ := lists.neighbours b member
  have list := lists.linked b.order low high
  have there (o : Nat) (inside : o ∈ before ++ after) := by
    obtain ⟨block, other⟩ := neighbour_free lists b member before after cells o inside
    exact remove_there ∅ laws lists b member (by simpa using spaced) ⟨o, b.order⟩ other
      (.inl block) (lists.offsets _ block)
  -- A neighbour field names `o` just when `o` stands next to the block in the list.
  have names (v o : Nat) (place : Option Nat) (points : link v = place) (inside : o ∈ before ++ after) :
      v = o ↔ place = some o := by
    have block := (neighbour_free lists b member before after cells o inside).1
    rw [← points, link_eq_some]
    exact ⟨fun h => ⟨h, Nat.ne_of_lt (lists.offsets _ block)⟩, And.left⟩
  have prevNull : (header a.memory b.offset).prevOffset = nullOffset ↔ before = [] := by
    rw [← link_eq_none, prev, List.getLast?_eq_none_iff]
  have distinct := list.forward.nodup
  rw [remove_bins, takeBin_self lists b member before after cells]
  rw [cells] at list distinct
  constructor
  · have chain : Chain (fun o =>
          link (header (removeFreeBlock a b.offset b.order).memory o).nextOffset)
        (if before = [] then link (header a.memory b.offset).nextOffset
          else link (a.bins (getIndexByOrder b.order))) (before ++ after) := by
      refine list.forward.remove before after b.offset ?_ ?_
      · intro o last
        have inside := List.mem_append_left after (List.mem_of_getLast? last)
        rw [there o inside]
        simp only [(names _ o _ prev inside).mpr last, if_true]
      · intro o inside different
        rw [there o inside]
        simp only [if_neg (mt (names _ o _ prev inside).mp different)]
    by_cases first : before = []
    · rw [if_pos (prevNull.mpr first), Function.update_self]
      rwa [if_pos first] at chain
    · rw [if_neg (mt prevNull.mp first)]
      rwa [if_neg first] at chain
  · refine list.backward.remove before after b.offset ?_ ?_
    · intro o first
      have inside := List.mem_append_right before (List.mem_of_head? first)
      rw [there o inside]
      simp only [(names _ o _ next inside).mpr first, if_true]
    · intro o within
      have inside : o ∈ before ++ after := by
        rcases List.mem_append.mp within with h | h
        · simp [h]
        · simp [List.mem_of_mem_tail h]
      rw [there o inside]
      have different : after.head? ≠ some o := by
        intro first
        have parts := List.nodup_append.mp distinct
        rcases List.mem_append.mp within with h | h
        · exact parts.2.2 o h o (by simp [List.mem_of_head? first]) rfl
        · cases after with
          | nil => simp at h
          | cons head tail =>
              have := List.nodup_cons.mp (List.nodup_cons.mp parts.2.1).2
              simp only [List.head?_cons, Option.some.injEq] at first
              exact this.1 (first ▸ h)
      simp only [if_neg (mt (names _ o _ next inside).mp different)]

theorem remove_linked_other (laws : LawfulStore Memory extent) (lists : FreeLists a bins) (b : Block)
    (member : b ∈ freeBlocks bins) (spaced : Spaced extent (freeBlocks bins)) (k : Nat)
    (lowK : minOrder ≤ k) (highK : k ≤ maxOrder) (different : k ≠ b.order) :
    Doubly (fun o => link (header (removeFreeBlock a b.offset b.order).memory o).nextOffset)
      (fun o => link (header (removeFreeBlock a b.offset b.order).memory o).prevOffset)
      (link ((removeFreeBlock a b.offset b.order).bins (getIndexByOrder k))) (takeBin bins b k) := by
  obtain ⟨low, high⟩ := lists.orders b member
  have start : (removeFreeBlock a b.offset b.order).bins (getIndexByOrder k) =
      a.bins (getIndexByOrder k) := by
    rw [remove_bins]
    split
    · exact Function.update_of_ne (fun h => different ((getIndexByOrder_inj k _ lowK low).mp h)) _ _
    · rfl
  have elsewhere (o : Nat) (inside : o ∈ bins k) :
      header (removeFreeBlock a b.offset b.order).memory o = header a.memory o := by
    have block : (⟨o, k⟩ : Block) ∈ freeBlocks bins := inside
    have other : (⟨o, k⟩ : Block) ≠ b := fun h => different (congrArg Block.order h)
    have away (v : Nat) (target : v = nullOffset ∨ ⟨v, b.order⟩ ∈ freeBlocks bins) : v ≠ o := by
      rintro rfl
      rcases target with null | found
      · exact Nat.ne_of_lt (lists.offsets _ block) null
      · exact apart_ne laws (spaced _ found _ block
          (fun h => different (congrArg Block.order h).symm)) rfl
    rw [remove_there ∅ laws lists b member (by simpa using spaced) _ other (.inl block)
      (lists.offsets _ block), if_neg (away _ ((lists.prev_block b member).imp_right And.left)),
      if_neg (away _ ((lists.next_block b member).imp_right And.left))]
  rw [start, takeBin, Function.update_of_ne different]
  exact (lists.linked k lowK highK).congr _ (fun o inside => by rw [elsewhere o inside])
    (fun o inside => by rw [elsewhere o inside])

theorem remove_bitmap_iff (lists : FreeLists a bins) (b : Block) (member : b ∈ freeBlocks bins)
    (i : Nat) :
    (removeFreeBlock a b.offset b.order).activeBinsBitmap.getLsbD i = true ↔
      i < binCount ∧ takeBin bins b (i + minOrder) ≠ [] := by
  obtain ⟨low, high⟩ := lists.orders b member
  obtain ⟨before, after, cells, next, prev⟩ := lists.neighbours b member
  have prevNull : (header a.memory b.offset).prevOffset = nullOffset ↔ before = [] := by
    rw [← link_eq_none, prev, List.getLast?_eq_none_iff]
  have nextNull : (header a.memory b.offset).nextOffset = nullOffset ↔ after = [] := by
    rw [← link_eq_none, next, List.head?_eq_none_iff]
  have bit := lists.bitmap i
  simp only [remove_bitmap, prevNull, nextNull]
  by_cases same : i + minOrder = b.order
  · have index : i = getIndexByOrder b.order := by unfold getIndexByOrder; omega
    have wide : getIndexByOrder b.order < 32 := Nat.lt_trans (idx_lt b.order high) (by decide)
    rw [same, cells] at bit
    rw [same, takeBin_self lists b member before after cells]
    split
    next empty =>
      obtain ⟨rfl, rfl⟩ := empty
      simp [index, wide]
    next nonempty =>
      rw [bit]
      have : before ++ after ≠ [] := by simpa using nonempty
      simp [this]
  · have index : i ≠ getIndexByOrder b.order := by
      have := idx_add b.order low
      omega
    rw [takeBin, Function.update_of_ne same]
    split
    · rw [BitVec.getLsbD_and, BitVec.getLsbD_not, getLsbD_one_shift, ← bit]
      by_cases inside : i < 32
      · simp [inside, index]
      · have beyond := BitVec.getLsbD_of_ge a.activeBinsBitmap i (by omega)
        simp [beyond]
    · exact bit

theorem remove_freeLists (laws : LawfulStore Memory extent) (lists : FreeLists a bins) (b : Block)
    (member : b ∈ freeBlocks bins) (spaced : Spaced extent (freeBlocks bins)) :
    FreeLists (removeFreeBlock a b.offset b.order) (takeBin bins b) := by
  obtain ⟨low, high⟩ := lists.orders b member
  have kept : freeBlocks (takeBin bins b) = freeBlocks bins \ {b} :=
    freeBlocks_takeBin bins b (lists.nodup b.order low high)
  refine ⟨?_, ?_, ?_, ?_, fun i => remove_bitmap_iff lists b member i⟩
  · intro k lowK highK
    by_cases same : k = b.order
    · subst same
      exact remove_linked_here laws lists b member spaced
    · exact remove_linked_other laws lists b member spaced k lowK highK same
  · rw [kept]
    rintro c ⟨inside, other⟩
    rw [remove_there ∅ laws lists b member (by simpa using spaced) c other (.inl inside)
      (lists.offsets c inside)]
    exact lists.headers c inside
  · rw [kept]
    exact fun c inside => lists.orders c inside.1
  · rw [kept]
    exact fun c inside => lists.offsets c inside.1

theorem remove_held (laws : LawfulStore Memory extent) (lists : FreeLists a bins) (b : Block)
    (member : b ∈ freeBlocks bins) (holding : Held a held)
    (heldSmall : ∀ c ∈ held, c.offset < nullOffset) (other : b ∉ held)
    (spaced : Spaced extent (freeBlocks bins ∪ held)) :
    Held (removeFreeBlock a b.offset b.order) (insert b held) := by
  rintro c (rfl | inside)
  · rw [remove_here laws lists c member (spaced.mono Set.subset_union_left)]
    exact ⟨(lists.headers c member).1, rfl⟩
  · rw [remove_there held laws lists b member spaced c (fun same => other (same ▸ inside)) (.inr inside)
      (heldSmall c inside)]
    exact holding c inside

end Remove

end ElySquare.Buddy
