import Mathlib.Logic.Function.Basic
import ElySquare.Allocators.PageManager

set_option autoImplicit false

namespace ElySquare.Buddy

def minOrder : Nat := 4

def maxOrder : Nat := 22

def binCount : Nat := maxOrder - minOrder + 1

def nullOffset : Nat := 0xFFFFFFFF

-- sizeof(BlockHeader), which is alignas(max_align_t).
def headerSize : Nat := 16

structure Header where
  order : Nat
  isFree : Bool
  nextOffset : Nat
  prevOffset : Nat
deriving DecidableEq, Repr

/-- The pool's memory as the allocator sees it: a header is read at an offset, and its fields are written
one at a time. -/
class HeaderStore (Memory : Type) where
  header : Memory → Nat → Header
  setOrder : Memory → Nat → Nat → Memory
  setFree : Memory → Nat → Bool → Memory
  setNext : Memory → Nat → Nat → Memory
  setPrev : Memory → Nat → Nat → Memory

export HeaderStore (header setOrder setFree setNext setPrev)

structure BuddyAllocator (Memory : Type) where
  base : Nat
  pages : Nat
  bins : Nat → Nat
  activeBinsBitmap : BitVec 32
  memory : Memory

def getBuddyOffset (offset order : Nat) : Nat := offset ^^^ 2 ^ order

def bitWidth (value : Nat) : Nat := if value = 0 then 0 else value.log2 + 1

def sizeToOrder (size : Nat) : Nat :=
  if size ≤ 2 ^ minOrder then minOrder else min (bitWidth (size - 1)) maxOrder

def getIndexByOrder (order : Nat) : Nat := order - minOrder

-- The guard of alloc, computed in size_t.
def weCantPutIt (size : Nat) : Bool := (size + headerSize) % 2 ^ 64 > 2 ^ maxOrder

theorem lt_two_pow_bitWidth (n : Nat) : n < 2 ^ bitWidth n := by
  unfold bitWidth
  split
  next zero => simp [zero]
  next positive => exact (Nat.log2_lt positive).mp (Nat.lt_succ_self _)

theorem bitWidth_le (n k : Nat) (small : n < 2 ^ k) : bitWidth n ≤ k := by
  unfold bitWidth
  split
  · exact Nat.zero_le _
  next positive => exact (Nat.log2_lt positive).mpr small

theorem sizeToOrder_ge (size : Nat) : minOrder ≤ sizeToOrder size := by
  unfold sizeToOrder
  split
  · exact Nat.le_refl _
  next large =>
    have width := lt_two_pow_bitWidth (size - 1)
    have grown : minOrder ≤ bitWidth (size - 1) := by
      by_contra small
      have := Nat.pow_le_pow_right (n := 2) (by omega) (Nat.le_of_not_le small)
      omega
    exact Nat.le_min.mpr ⟨grown, by decide⟩

theorem sizeToOrder_le (size : Nat) : sizeToOrder size ≤ maxOrder := by
  unfold sizeToOrder
  split
  · decide
  · exact Nat.min_le_right _ _

theorem size_le_two_pow (size : Nat) (small : sizeToOrder size < maxOrder ∨ size ≤ 2 ^ maxOrder) :
    size ≤ 2 ^ sizeToOrder size := by
  unfold sizeToOrder at *
  split
  · assumption
  next large =>
    rw [if_neg large] at small
    have width := lt_two_pow_bitWidth (size - 1)
    rcases Nat.le_total (bitWidth (size - 1)) maxOrder with h | h
    · rw [Nat.min_eq_left h]
      omega
    · rw [Nat.min_eq_right h] at small ⊢
      omega

theorem sizeToOrder_le_of_le (size k : Nat) (low : minOrder ≤ k) (fits : size ≤ 2 ^ k) :
    sizeToOrder size ≤ k := by
  unfold sizeToOrder
  split
  · exact low
  next large =>
    have pos := Nat.two_pow_pos k
    exact Nat.le_trans (Nat.min_le_left _ _) (bitWidth_le _ _ (by omega))

theorem startOrder_ge (size : Nat) : 12 ≤ sizeToOrder (pagesOf size * pageSize) := by
  have pages := pagesOf_pos size
  by_contra small
  have fits := size_le_two_pow (pagesOf size * pageSize) (.inl (by unfold maxOrder; omega))
  have bound := Nat.pow_le_pow_right (n := 2) (by omega)
    (show sizeToOrder (pagesOf size * pageSize) ≤ 11 by omega)
  unfold pageSize at *
  omega

variable {Memory : Type} [HeaderStore Memory]

def ptrToOffset (a : BuddyAllocator Memory) (ptr : Nat) : Nat := ptr - a.base

def pushFreeBlock (a : BuddyAllocator Memory) (offset order : Nat) : BuddyAllocator Memory :=
  let idx := getIndexByOrder order
  let oldHeadOffset := a.bins idx
  let memory := setFree a.memory offset true
  let memory := setPrev memory offset nullOffset
  let memory := setNext memory offset oldHeadOffset
  let memory := setOrder memory offset order
  { a with
    memory := if oldHeadOffset ≠ nullOffset then setPrev memory oldHeadOffset offset else memory
    bins := Function.update a.bins idx offset
    activeBinsBitmap := a.activeBinsBitmap ||| (1#32 <<< idx) }

-- The first half of removeFreeBlock: what points forward to the block.
def unlinkForward (a : BuddyAllocator Memory) (offset order : Nat) : BuddyAllocator Memory :=
  let block := header a.memory offset
  if block.prevOffset ≠ nullOffset then
    { a with memory := setNext a.memory block.prevOffset block.nextOffset }
  else
    let idx := getIndexByOrder order
    { a with
      bins := Function.update a.bins idx block.nextOffset
      activeBinsBitmap :=
        if block.nextOffset = nullOffset then a.activeBinsBitmap &&& ~~~(1#32 <<< idx)
        else a.activeBinsBitmap }

def unlinkBackward (a : BuddyAllocator Memory) (offset : Nat) : BuddyAllocator Memory :=
  let block := header a.memory offset
  if block.nextOffset ≠ nullOffset then
    { a with memory := setPrev a.memory block.nextOffset block.prevOffset }
  else a

def removeFreeBlock (a : BuddyAllocator Memory) (offset order : Nat) : BuddyAllocator Memory :=
  let a := unlinkBackward (unlinkForward a offset order) offset
  { a with memory := setFree a.memory offset false }

def setBlockOrder (a : BuddyAllocator Memory) (offset order : Nat) : BuddyAllocator Memory :=
  { a with memory := setOrder a.memory offset order }

-- The loop over `order` from `initialOrder - 1` down to `targetOrder`.
def splitBlock (a : BuddyAllocator Memory) (offset : Nat) :
    Nat → Nat → BuddyAllocator Memory
  | 0, _ => a
  | order + 1, targetOrder =>
    if order ≥ targetOrder then
      let a := setBlockOrder a offset order
      splitBlock (pushFreeBlock a (getBuddyOffset offset order) order) offset order targetOrder
    else a

-- mergeBlock with `room = maxOrder - order` as the recursion variable: `room` is 0 just when
-- `order >= MAX_ORDER`.
def mergeUp : Nat → BuddyAllocator Memory → Nat → Nat → BuddyAllocator Memory
  | 0, a, offset, order => pushFreeBlock a offset order
  | room + 1, a, offset, order =>
    let buddyOffset := getBuddyOffset offset order
    if buddyOffset < a.pages * pageSize then
      let buddy := header a.memory buddyOffset
      if buddy.isFree = true ∧ buddy.order = order then
        mergeUp room (removeFreeBlock a buddyOffset order) (min offset buddyOffset) (order + 1)
      else pushFreeBlock a offset order
    else pushFreeBlock a offset order

def mergeBlock (a : BuddyAllocator Memory) (offset order : Nat) : BuddyAllocator Memory :=
  mergeUp (maxOrder - order) a offset order

theorem mergeBlock_eq (a : BuddyAllocator Memory) (offset order : Nat) :
    mergeBlock a offset order =
      if order ≥ maxOrder then pushFreeBlock a offset order
      else
        let buddyOffset := getBuddyOffset offset order
        if buddyOffset < a.pages * pageSize then
          if (header a.memory buddyOffset).isFree = true ∧
              (header a.memory buddyOffset).order = order then
            mergeBlock (removeFreeBlock a buddyOffset order) (min offset buddyOffset) (order + 1)
          else pushFreeBlock a offset order
        else pushFreeBlock a offset order := by
  unfold mergeBlock
  split
  next large =>
    rw [Nat.sub_eq_zero_of_le large]
    rfl
  next small =>
    have room : maxOrder - order = (maxOrder - (order + 1)) + 1 := by omega
    rw [room]
    rfl

-- The constructor on the chunk that requestPageChunk(pagesOf size) returned; `memory` is whatever
-- the chunk holds.
def construct (chunkptr size : Nat) (memory : Memory) : BuddyAllocator Memory :=
  let pages := pagesOf size
  let a : BuddyAllocator Memory := ⟨chunkptr, pages, fun _ => nullOffset, 0#32, memory⟩
  pushFreeBlock a 0 (sizeToOrder (pages * pageSize))

def alloc (a : BuddyAllocator Memory) (size : Nat) : Option Nat × BuddyAllocator Memory :=
  if size = 0 ∨ weCantPutIt size = true then (none, a)
  else
    let targetOrder := sizeToOrder size
    let mask := a.activeBinsBitmap &&& (BitVec.allOnes 32 <<< getIndexByOrder targetOrder)
    if mask = 0#32 then (none, a)
    else
      let foundIdx := mask.ctz.toNat
      let foundOrder := foundIdx + minOrder
      let offset := a.bins foundIdx
      let a := removeFreeBlock a offset foundOrder
      let a := if foundOrder > targetOrder then splitBlock a offset foundOrder targetOrder else a
      let a := { a with memory := setFree a.memory offset false }
      (some (a.base + offset + headerSize), a)

def free (a : BuddyAllocator Memory) (ptr : Nat) : BuddyAllocator Memory :=
  if ptr = 0 then a
  else
    let offset := ptrToOffset a (ptr - headerSize)
    mergeBlock a offset (header a.memory offset).order

end ElySquare.Buddy
