import Mathlib.Algebra.Group.Nat.Defs
import Mathlib.Data.List.Basic
import ElySquare.Errors

set_option autoImplicit false

namespace ElySquare

def pageSize : Nat := 4096

def memoryChunkSize : Nat := 8589934592

def cagePagesCount : Nat := 2097152

def bitmapWords : Nat := 32768

-- The page count that the constructors of the allocators compute in size_t for `bytes`.
def pagesOf (bytes : Nat) : Nat :=
  let pages := (bytes + pageSize - 1) % 2 ^ 64 / pageSize
  if pages = 0 then 1 else pages

theorem pagesOf_pos (bytes : Nat) : 0 < pagesOf bytes := by
  unfold pagesOf
  dsimp only
  split
  · exact Nat.one_pos
  next positive => exact Nat.pos_of_ne_zero positive

theorem pagesOf_ge (bytes : Nat) (room : bytes + pageSize - 1 < 2 ^ 64) :
    bytes ≤ pagesOf bytes * pageSize := by
  unfold pagesOf pageSize at *
  dsimp only
  split <;> omega

-- A size so large that rounding it up wraps around leaves a single page.
theorem pagesOf_wrapped (bytes : Nat) (bound : bytes < 2 ^ 64)
    (wraps : 2 ^ 64 ≤ bytes + pageSize - 1) : pagesOf bytes = 1 := by
  unfold pagesOf pageSize at *
  dsimp only
  split <;> omega

structure CageSegment where
  baseAddress : Nat
  bitmap : List (BitVec 64)

inductive OsCall
  | reserve (address bytes : Nat)
  | commit (address bytes : Nat)
  | decommit (address bytes : Nat)
  | store (address bytes : Nat)
deriving DecidableEq, Repr

/-- `segments` is the list from `head`, and `current` is the position of the segment that `current` points
to. `reservations k` is what the `k`-th call of reservePages returns. -/
structure PageManager where
  segments : List CageSegment
  current : Nat
  reservations : Nat → Option Nat
  osCalls : List OsCall

namespace PageManager

def reservationFailed : Stop := .outOfMemory "Failed reservation of Cage Segment"

-- `new CageSegment()` zeroes the bitmap; the memset that follows goes to the reserved region.
def newSegment (manager : PageManager) : Result PageManager :=
  match manager.reservations manager.segments.length with
  | none => .error reservationFailed
  | some start => .ok { manager with
      segments := manager.segments ++ [⟨start, List.replicate bitmapWords 0⟩]
      current := manager.segments.length
      osCalls := .store start (8 * bitmapWords) :: .reserve start memoryChunkSize :: manager.osCalls }

def construct (reservations : Nat → Option Nat) : Result PageManager :=
  newSegment ⟨[], 0, reservations, []⟩

inductive Scan
  | found (start : Nat)
  | run (length start : Nat)
deriving DecidableEq, Repr

theorem ctz_pos (word : BitVec 64) (low : word.getLsbD 0 = false) : 0 < word.ctz.toNat := by
  by_contra zero
  have none : word.ctz.toNat = 0 := by omega
  by_cases empty : word = 0#64
  · have high := mt BitVec.ctz_lt_iff_ne_zero.mp (not_not.mpr empty)
    simp only [BitVec.lt_def, none] at high
    exact high (by decide)
  · have set := BitVec.getLsbD_true_ctz_of_ne_zero empty
    rw [none, low] at set
    cases set

theorem and_one_eq_zero (word : BitVec 64) : word &&& 1#64 = 0#64 ↔ word.getLsbD 0 = false := by
  constructor
  · intro h
    have bit := congrArg (fun w => BitVec.getLsbD w 0) h
    simpa using bit
  · intro low
    ext i inside
    by_cases first : i = 0
    · subst first
      simpa using low
    · simp [first]

-- The loop over one mixed word from bit `b`. Both branches move on by at least one bit.
def scanBits (pageCount i : Nat) (word : BitVec 64) (b runLength runStart : Nat) : Scan :=
  if _inside : b < 64 then
    if _free : (word >>> b) &&& 1#64 = 0#64 then
      let count := (word >>> b).ctz.toNat
      let zeros := if count > 64 - b then 64 - b else count
      let runStart := if runLength = 0 then i * 64 + b else runStart
      let runLength := runLength + zeros
      if runLength ≥ pageCount then .found runStart
      else scanBits pageCount i word (b + zeros) runLength runStart
    else
      let count := (~~~(word >>> b)).ctz.toNat
      let ones := if count > 64 - b then 64 - b else count
      scanBits pageCount i word (b + ones) 0 runStart
  else .run runLength runStart
termination_by 64 - b
decreasing_by
  · have := ctz_pos _ ((and_one_eq_zero _).mp _free)
    split <;> omega
  · have := ctz_pos (~~~(word >>> b)) (by
      have set := mt (and_one_eq_zero (word >>> b)).mpr _free
      simpa using set)
    split <;> omega

def scanWords (pageCount : Nat) : Nat → Nat → Nat → List (BitVec 64) → Option Nat
  | _, _, _, [] => none
  | i, runLength, runStart, word :: rest =>
    if word = BitVec.allOnes 64 then scanWords pageCount (i + 1) 0 runStart rest
    else if word = 0#64 then
      let runStart := if runLength = 0 then i * 64 else runStart
      let runLength := runLength + 64
      if runLength ≥ pageCount then some runStart
      else scanWords pageCount (i + 1) runLength runStart rest
    else
      match scanBits pageCount i word 0 runLength runStart with
      | .found start => some start
      | .run length start => scanWords pageCount (i + 1) length start rest

def setPage (bitmap : List (BitVec 64)) (idx : Nat) : List (BitVec 64) :=
  bitmap.modify (idx / 64) fun word => word ||| (1#64 <<< (idx % 64))

def clearPage (bitmap : List (BitVec 64)) (idx : Nat) : List (BitVec 64) :=
  bitmap.modify (idx / 64) fun word => word &&& ~~~(1#64 <<< (idx % 64))

def setPages (bitmap : List (BitVec 64)) (startIdx pageCount : Nat) : List (BitVec 64) :=
  (List.range pageCount).foldl (fun bitmap j => setPage bitmap (startIdx + j)) bitmap

def clearPages (bitmap : List (BitVec 64)) (startIndex pageCount : Nat) : List (BitVec 64) :=
  (List.range pageCount).foldl (fun bitmap i => clearPage bitmap (startIndex + i)) bitmap

def findRun (pageCount : Nat) : Nat → List CageSegment → Option (Nat × Nat)
  | _, [] => none
  | k, segment :: rest =>
    match scanWords pageCount 0 0 0 segment.bitmap with
    | some start => some (k, start)
    | none => findRun pageCount (k + 1) rest

def commitAndReturn (manager : PageManager) (pageCount k startIdx : Nat) : Nat × PageManager :=
  let targetPtr := ((manager.segments[k]?).elim 0 CageSegment.baseAddress) + startIdx * pageSize
  (targetPtr, { manager with
    segments := manager.segments.modify k fun segment =>
      { segment with bitmap := setPages segment.bitmap startIdx pageCount }
    osCalls := .commit targetPtr (pageCount * pageSize) :: manager.osCalls })

-- The fuel bounds how often requestPageChunk and createNewSegmentAndAllocate call each other.
def requestPageChunk : Nat → PageManager → Nat → Result (Option Nat × PageManager)
  | 0, _, _ => .error .unfinished
  | fuel + 1, manager, pageCount =>
    if pageCount = 0 then .ok (none, manager)
    else
      match findRun pageCount manager.current (manager.segments.drop manager.current) with
      | some (k, start) =>
          let (ptr, manager) := commitAndReturn manager pageCount k start
          .ok (some ptr, manager)
      | none => do
          let manager ← newSegment manager
          requestPageChunk fuel manager pageCount

theorem request_cases {fuel pageCount : Nat} {manager after : PageManager} {ptr : Option Nat}
    (made : requestPageChunk (fuel + 1) manager pageCount = .ok (ptr, after)) :
    (pageCount = 0 ∧ ptr = none ∧ after = manager) ∨
    (pageCount ≠ 0 ∧ ∃ k start,
      findRun pageCount manager.current (manager.segments.drop manager.current) = some (k, start) ∧
      ptr = some (commitAndReturn manager pageCount k start).1 ∧
      after = (commitAndReturn manager pageCount k start).2) ∨
    (pageCount ≠ 0 ∧ ∃ grown, newSegment manager = .ok grown ∧
      requestPageChunk fuel grown pageCount = .ok (ptr, after)) := by
  unfold requestPageChunk at made
  by_cases zero : pageCount = 0
  · rw [if_pos zero, Except.ok.injEq, Prod.mk.injEq] at made
    exact .inl ⟨zero, made.1.symm, made.2.symm⟩
  · rw [if_neg zero] at made
    cases run : findRun pageCount manager.current (manager.segments.drop manager.current) with
    | some place =>
        simp only [run, Except.ok.injEq, Prod.mk.injEq] at made
        exact .inr (.inl ⟨zero, place.1, place.2, rfl, made.1.symm, made.2.symm⟩)
    | none =>
        simp only [run] at made
        exact .inr (.inr ⟨zero, (Result.bind_ok _ _ _).mp made⟩)

def Holds (segment : CageSegment) (address : Nat) : Prop :=
  segment.baseAddress ≤ address ∧ address < segment.baseAddress + memoryChunkSize

instance (segment : CageSegment) (address : Nat) : Decidable (Holds segment address) :=
  inferInstanceAs (Decidable (_ ∧ _))

def releasePageChunk (manager : PageManager) (address pageCount : Nat) : Result PageManager :=
  match manager.segments.findIdx? (fun segment => Holds segment address) with
  | none => .error (.outOfMemory "Invalid access to other's memory")
  | some k => .ok { manager with
      segments := manager.segments.modify k fun segment =>
        { segment with
          bitmap := clearPages segment.bitmap ((address - segment.baseAddress) / pageSize) pageCount }
      osCalls := .decommit address (pageCount * pageSize) :: manager.osCalls }

end PageManager

end ElySquare
