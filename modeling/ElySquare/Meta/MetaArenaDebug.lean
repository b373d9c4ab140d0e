import Mathlib.Data.Finset.Lattice.Fold
import ElySquare.Meta.MetaArenaHeap

set_option autoImplicit false

namespace ElySquare

namespace MetaArena

open Linked Transition

structure Warning where
  code : ErrorCode
  message : String
deriving DecidableEq, Repr

-- The functions as they are compiled with DEBUG.
namespace Debug

variable {Memory : Type} [LinkStore Memory]

def alignmentRefused : Stop :=
  .panic .internalError "metalloc: alignment > ALIGN_QUANTUM cannot be served from free list"

def doubleFree : Stop := .panic .internalError "metarecycle: double free detected"

def emptyPointer : Warning :=
  ⟨.danglingPointerAccess, "Invalid attempt to delete empty ptr in thread meta arena"⟩

def tooLarge : Warning := ⟨.internalError, "Block too large for free list, memory not reused"⟩

def metalloc (w : World Memory) (size alignment : Nat) : Result (Nat × World Memory) :=
  let actualSize := alignSize size
  let bucketIdx := getBucketIndex actualSize
  if bucketIdx < numBuckets then
    match w.metaArena.freeListHead bucketIdx with
    | some node =>
      if alignment > alignQuantum then .error alignmentRefused
      else do
        let next ← LinkStore.next w.memory node
        .ok (node, { w with
          metaArena := { w.metaArena with
            freeListHead := Function.update w.metaArena.freeListHead bucketIdx next }
          calls := .lent node size :: w.calls })
    | none => bump w size alignment
  else bump w size alignment

def searchList (memory : Memory) (ptr : Nat) : Nat → Option Nat → Result Unit
  | _, none => .ok ()
  | 0, some _ => .error .unfinished
  | fuel + 1, some n =>
    if n = ptr then .error doubleFree
    else do
      let next ← LinkStore.next memory n
      searchList memory ptr fuel next

def metarecycle (fuel : Nat) (w : World Memory) (ptr size : Nat) :
    Result (World Memory × List Warning) :=
  let w := { w with calls := .returned ptr size :: w.calls }
  if ptr = 0 then .ok (w, [emptyPointer])
  else
    let actualSize := alignSize size
    let bucketIdx := getBucketIndex actualSize
    if bucketIdx ≥ numBuckets then .ok (w, [tooLarge])
    else do
      searchList w.memory ptr fuel (w.metaArena.freeListHead bucketIdx)
      .ok ({ w with
        memory := LinkStore.setNext w.memory ptr (w.metaArena.freeListHead bucketIdx)
        metaArena := { w.metaArena with
          freeListHead := Function.update w.metaArena.freeListHead bucketIdx (some ptr) } }, [])

end Debug

-- A block that is in already, and for which the call asks the same bucket.
def InAlready {Memory : Type} (w : World Memory) (ptr size : Nat) : Prop :=
  ptr ≠ 0 ∧ getBucketIndex (alignSize size) < numBuckets ∧
    ∃ old, Loans.last w.calls ptr = some (.returned ptr old) ∧ alignSize old = alignSize size

theorem bucket_size (size : Nat) (inside : getBucketIndex (alignSize size) < numBuckets) :
    alignSize size = 16 * (getBucketIndex (alignSize size) + 1) := by
  obtain ⟨⟨q, rounds⟩, bound⟩ := alignSize_dvd size
  unfold getBucketIndex alignQuantum numBuckets at *
  omega

section Checks

variable {Memory : Type} [LinkStore Memory] {reservations : Nat → Option Nat} {w : World Memory}
  {others : List PageManager.Chunk} {live : List Block} {bins : Nat → List Nat}

theorem Debug.metalloc_eq (w : World Memory) (size alignment : Nat) :
    Debug.metalloc w size alignment =
      if cached w size ≠ none ∧ alignment > alignQuantum then .error Debug.alignmentRefused
      else MetaArena.metalloc w size alignment := by
  unfold Debug.metalloc MetaArena.metalloc cached
  by_cases inside : getBucketIndex (alignSize size) < numBuckets
  · simp only [if_pos inside]
    cases w.metaArena.freeListHead (getBucketIndex (alignSize size)) with
    | none => rfl
    | some node => simp
  · simp [if_neg inside]

theorem Debug.searchList_eq (memory : Memory) (ptr fuel : Nat) (head : Option Nat) (cells : List Nat)
    (chain : Chain (follow memory) head cells)
    (readable : ∀ p ∈ cells, LinkStore.next memory p = .ok (follow memory p))
    (enough : cells.length ≤ fuel) : Debug.searchList memory ptr fuel head =
      if ptr ∈ cells then .error Debug.doubleFree else .ok () := by
  induction cells generalizing head fuel with
  | nil =>
      obtain rfl : head = none := chain
      cases fuel <;> rfl
  | cons first rest ih =>
      obtain ⟨rfl, rest_chain⟩ := chain
      cases fuel with
      | zero => cases enough
      | succ fuel =>
          obtain ⟨read, readable⟩ := List.forall_mem_cons.mp readable
          rw [List.length_cons] at enough
          unfold Debug.searchList
          by_cases here : first = ptr
          · rw [if_pos here, if_pos (here ▸ List.mem_cons_self)]
          · rw [if_neg here, read, Result.ok_bind, ih fuel _ rest_chain readable (by omega)]
            simp [Ne.symm here]

theorem Sound.inAlready_iff (sound : Sound reservations w others live bins) (ptr size : Nat)
    (nonzero : ptr ≠ 0) (inside : getBucketIndex (alignSize size) < numBuckets) :
    InAlready w ptr size ↔ ptr ∈ bins (getBucketIndex (alignSize size)) := by
  rw [sound.booked.listed _ ptr inside, ← bucket_size size inside, InAlready, and_iff_right nonzero,
    and_iff_right inside]

theorem Sound.debug_metarecycle (sound : Sound reservations w others live bins) (ptr size fuel : Nat)
    (enough : ∀ i, i < numBuckets → (bins i).length ≤ fuel) :
    (InAlready w ptr size → Debug.metarecycle fuel w ptr size = .error Debug.doubleFree) ∧
    (¬ InAlready w ptr size → ∃ warnings, Debug.metarecycle fuel w ptr size =
      .ok (MetaArena.metarecycle w ptr size, warnings) ∧
        (warnings = [] ↔ ptr ≠ 0 ∧ getBucketIndex (alignSize size) < numBuckets)) := by
  unfold Debug.metarecycle MetaArena.metarecycle
  dsimp only
  by_cases zero : ptr = 0
  · refine ⟨fun again => (again.1 zero).elim, fun _ => ?_⟩
    rw [if_pos zero, if_pos zero]
    exact ⟨_, rfl, by simp [zero]⟩
  rw [if_neg zero, if_neg zero]
  by_cases large : getBucketIndex (alignSize size) ≥ numBuckets
  · refine ⟨fun again => absurd again.2.1 (Nat.not_lt.mpr large), fun _ => ?_⟩
    rw [if_pos large, if_pos large]
    exact ⟨_, rfl, by simp [large]⟩
  have inside := Nat.lt_of_not_le large
  have searched := Debug.searchList_eq w.memory ptr fuel _ _ (sound.linked _ inside)
    (fun p listed => sound.readable _ p inside listed) (enough _ inside)
  rw [if_neg large, if_neg large, searched, sound.inAlready_iff ptr size zero inside]
  refine ⟨fun listed => ?_, fun free => ⟨[], ?_, by simp [zero, inside]⟩⟩
  · rw [if_pos listed]
    rfl
  · rw [if_neg free]
    rfl

theorem Sound.live_out (sound : Sound reservations w others live bins) (b : Block) (alive : b ∈ live)
    (size : Nat) : ¬ InAlready w b.ptr size := by
  rintro ⟨_, _, old, found, _⟩
  cases ((sound.booked.inUse b).mp alive).symm.trans found

end Checks

/-- A call in the build with DEBUG that returns. A block may be recycled a second time. -/
inductive DebugStep : Run → Call → Run → Prop
  | metalloc (s : Run) (size k ptr : Nat) (world : World RawMemory) (small : size < 2 ^ 63)
      (fine : k ≤ 4) (made : Debug.metalloc s.world size (2 ^ k) = .ok (ptr, world)) :
      DebugStep s (.metalloc size (2 ^ k)) ⟨world, s.others, ⟨ptr, size⟩ :: s.live, s.recycled⟩
  | metarecycle (s : Run) (b : Block) (size fuel : Nat) (world : World RawMemory)
      (warnings : List Warning)
      (known : b ∈ s.live ∧ alignSize size = alignSize b.size ∨ InAlready s.world b.ptr size)
      (made : Debug.metarecycle fuel s.world b.ptr size = .ok (world, warnings)) :
      DebugStep s (.metarecycle b.ptr size) ⟨world, s.others, s.live.erase b, b :: s.recycled⟩
  | other (s : Run) (call : Call) (t : Run)
      (apart : ∀ ptr size, call ≠ .metalloc ptr size ∧ call ≠ .metarecycle ptr size)
      (taken : Run.Step s call t) : DebugStep s call t

def debugSystem (reservations : Nat → Option Nat) (size : Nat) : System Run Call where
  start := (system reservations size).start
  step := DebugStep

section Builds

variable {reservations : Nat → Option Nat} {size : Nat} {s t : Run} {call : Call}

theorem rounds_enough (bins : Nat → List Nat) :
    ∃ rounds, ∀ fuel, rounds ≤ fuel → ∀ i, i < numBuckets → (bins i).length ≤ fuel := by
  refine ⟨(Finset.range numBuckets).sup fun i => (bins i).length, fun fuel enough i inside => ?_⟩
  exact (Finset.le_sup (f := fun i => (bins i).length) (Finset.mem_range.mpr inside)).trans enough

theorem Debug.searchList_more (memory : RawMemory) (ptr fuel extra : Nat) (head : Option Nat)
    (done : Debug.searchList memory ptr fuel head = .ok ()) :
    Debug.searchList memory ptr (fuel + extra) head = .ok () := by
  induction fuel generalizing head with
  | zero =>
      cases head with
      | none => cases extra <;> rfl
      | some n => cases done
  | succ fuel ih =>
      cases head with
      | none =>
          rw [Nat.add_right_comm]
          rfl
      | some n =>
          rw [Nat.add_right_comm]
          unfold Debug.searchList at done ⊢
          split at done
          next => cases done
          next other =>
            rw [if_neg other]
            obtain ⟨next, read, rest⟩ := (Result.bind_ok _ _ _).mp done
            rw [read, Result.ok_bind]
            exact ih next rest

theorem Debug.metarecycle_more (w after : World RawMemory) (ptr size fuel extra : Nat)
    (warnings : List Warning) (made : Debug.metarecycle fuel w ptr size = .ok (after, warnings)) :
    Debug.metarecycle (fuel + extra) w ptr size = .ok (after, warnings) := by
  unfold Debug.metarecycle at made ⊢
  dsimp only at made ⊢
  split at made
  next zero =>
    rw [if_pos zero]
    exact made
  next nonzero =>
    rw [if_neg nonzero]
    split at made
    next large =>
      rw [if_pos large]
      exact made
    next small =>
      rw [if_neg small]
      obtain ⟨_, searched, rest⟩ := (Result.bind_ok _ _ _).mp made
      rw [Debug.searchList_more _ _ _ extra _ searched]
      exact rest

theorem debug_step (held : Held reservations s) (taken : DebugStep s call t) : Run.Step s call t := by
  obtain ⟨bins, sound, _⟩ := held
  cases taken with
  | metalloc size k ptr world small fine made =>
      have bound : 2 ^ k ≤ alignQuantum := Nat.pow_le_pow_right (n := 2) (by decide) fine
      rw [Debug.metalloc_eq, if_neg fun refused => Nat.not_lt.mpr bound refused.2] at made
      exact .metalloc s size k ptr world small fine made
  | metarecycle b size fuel world warnings known made =>
      obtain ⟨rounds, enough⟩ := rounds_enough bins
      have made := Debug.metarecycle_more _ _ _ _ _ rounds _ made
      obtain ⟨again, once⟩ := sound.debug_metarecycle b.ptr size (fuel + rounds)
        (enough _ (Nat.le_add_left _ _))
      rcases known with ⟨alive, same⟩ | twice
      · obtain ⟨_, released, _⟩ := once (sound.live_out b alive size)
        cases released.symm.trans made
        exact .metarecycle s b size alive same
      · cases (again twice).symm.trans made
  | other call t apart taken => exact taken

theorem step_debug (held : Held reservations s) (taken : Run.Step s call t) : DebugStep s call t := by
  obtain ⟨bins, sound, _⟩ := held
  cases taken with
  | metalloc size k ptr world small fine made =>
      have bound : 2 ^ k ≤ alignQuantum := Nat.pow_le_pow_right (n := 2) (by decide) fine
      refine .metalloc s size k ptr world small fine ?_
      rwa [Debug.metalloc_eq, if_neg fun refused => Nat.not_lt.mpr bound refused.2]
  | metarecycle b size alive same =>
      obtain ⟨rounds, enough⟩ := rounds_enough bins
      obtain ⟨_, released, _⟩ := (sound.debug_metarecycle b.ptr size rounds
        (enough _ (Nat.le_refl _))).2 (sound.live_out b alive size)
      exact .metarecycle s b size rounds _ _ (.inl ⟨alive, same⟩) released
  | write memory frame =>
      exact .other s _ _ (fun _ _ => ⟨nofun, nofun⟩) (.write s memory frame)
  | request fuel pageCount ptr manager made =>
      exact .other s _ _ (fun _ _ => ⟨nofun, nofun⟩) (.request s fuel pageCount ptr manager made)
  | release chunk manager alive made =>
      exact .other s _ _ (fun _ _ => ⟨nofun, nofun⟩) (.release s chunk manager alive made)

theorem debug_reachable_iff (reserves : Reserves reservations) (rounds : size + pageSize - 1 < 2 ^ 64)
    (s : Run) : (debugSystem reservations size).Reachable s ↔ (system reservations size).Reachable s := by
  constructor
  · intro reached
    induction reached with
    | start initial => exact .start initial
    | step _ taken ih =>
        exact ih.step (debug_step (held_of_reachable reserves rounds _ ih) taken)
  · intro reached
    induction reached with
    | start initial => exact .start initial
    | step earlier taken ih =>
        exact ih.step (step_debug (held_of_reachable reserves rounds _ earlier) taken)

theorem debug_build (reserves : Reserves reservations) (rounds : size + pageSize - 1 < 2 ^ 64) (s : Run)
    (reached : (debugSystem reservations size).Reachable s) :
    (system reservations size).Reachable s ∧ (∃ bins, Intact s bins) ∧
    (∃ enough, ∀ fuel, enough ≤ fuel → ∀ ptr size,
      (InAlready s.world ptr size →
        Debug.metarecycle fuel s.world ptr size = .error Debug.doubleFree) ∧
      (¬ InAlready s.world ptr size → ∃ warnings, Debug.metarecycle fuel s.world ptr size =
        .ok (MetaArena.metarecycle s.world ptr size, warnings) ∧
          (warnings = [] ↔ ptr ≠ 0 ∧ getBucketIndex (alignSize size) < numBuckets))) ∧
    ∀ t call, Run.Step s call t → (debugSystem reservations size).Reachable t := by
  have plain := (debug_reachable_iff reserves rounds s).mp reached
  have held := held_of_reachable reserves rounds s plain
  obtain ⟨bins, sound, recycled⟩ := held
  obtain ⟨most, enough⟩ := rounds_enough bins
  refine ⟨plain, ⟨bins, sound.intact recycled⟩, ⟨most, fun fuel more ptr size => ?_⟩,
    fun t call taken => reached.step (step_debug ⟨bins, sound, recycled⟩ taken)⟩
  exact sound.debug_metarecycle ptr size fuel (enough fuel more)

end Builds

theorem debug_build_twice : ∃ s, (debugSystem PageManager.rowOfRegions pageSize).Reachable s ∧
    ∃ fuel, Debug.metarecycle fuel s.world memoryChunkSize 16 = .error Debug.doubleFree := by
  obtain ⟨s, plain, calls, _⟩ := onePage_recycled
  have reached := (debug_reachable_iff rowOfRegions_reserves (by decide) s).mpr plain
  obtain ⟨_, _, ⟨enough, checks⟩, _⟩ := debug_build rowOfRegions_reserves (by decide) s reached
  refine ⟨s, reached, enough, (checks enough (Nat.le_refl _) memoryChunkSize 16).1 ?_⟩
  refine ⟨by decide, by decide, 16, ?_, rfl⟩
  rw [calls]
  rfl

end MetaArena

end ElySquare
