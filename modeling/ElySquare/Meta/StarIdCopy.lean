import ElySquare.Meta.StarIdLifecycle

set_option autoImplicit false

namespace ElySquare

def writeBytes (m : Nat → Byte) (writes : List (Nat × Byte)) : Nat → Byte :=
  writes.foldl (fun m write x => if x = write.1 then write.2 else m x) m

theorem writeBytes_outside (writes : List (Nat × Byte)) (m : Nat → Byte) (x : Nat)
    (outside : ∀ write ∈ writes, write.1 ≠ x) : writeBytes m writes x = m x := by
  induction writes generalizing m with
  | nil => rfl
  | cons write rest ih =>
      obtain ⟨first, later⟩ := List.forall_mem_cons.mp outside
      exact (ih _ later).trans (if_neg first.symm)

theorem writeBytes_last (before after : List (Nat × Byte)) (m : Nat → Byte) (x : Nat) (byte : Byte)
    (later : ∀ write ∈ after, write.1 ≠ x) : writeBytes m (before ++ (x, byte) :: after) x = byte := by
  rw [writeBytes, List.foldl_append, List.foldl_cons]
  exact (writeBytes_outside after _ x later).trans (if_pos rfl)

namespace ALAR

open Linked MetaArena Transition

-- The bytes that staridize writes to the block of a text, in their order: `new (textPtr) char()`, memcpy,
-- and the NUL.
def copyWrites (textPtr : Nat) (chars : List Byte) : List (Nat × Byte) :=
  (textPtr, 0#8) :: (chars.mapIdx fun i c => (textPtr + i, c)) ++ [(textPtr + chars.length, 0#8)]

structure CopiesInside (w : AlarWorld) (textPtr length : Nat) (chars : List Byte) : Prop where
  inside : ∀ write ∈ copyWrites textPtr chars,
    textPtr ≤ write.1 ∧ write.1 < textPtr + alignSize length
  blocks : ∀ (m : Nat → Byte) p size x, p ≠ textPtr → Loans.last w.calls p = some (.lent p size) → p ≤ x →
    x < p + alignSize size → writeBytes m (copyWrites textPtr chars) x = m x
  nodes : ∀ (m : Nat → Byte) i cells p x, i < numBuckets →
    Chain (follow w.memory) (w.metaArena.freeListHead i) cells → p ∈ cells → p ≤ x →
    x < p + alignQuantum * (i + 1) → writeBytes m (copyWrites textPtr chars) x = m x
  outside : ∀ (m : Nat → Byte) x,
    (∀ c ∈ w.metaArena.arena.chunks, ¬ (c.data ≤ x ∧ x < c.data + c.capacity)) →
    writeBytes m (copyWrites textPtr chars) x = m x

section Copy

variable {reservations : Nat → Option Nat} {others : List PageManager.Chunk} {w : AlarWorld}
  {live : List Block} {bins : Nat → List Nat} {textPtr : Nat} {chars : List Byte}

theorem copyWrites_address (write : Nat × Byte) (listed : write ∈ copyWrites textPtr chars) :
    textPtr ≤ write.1 ∧ write.1 ≤ textPtr + chars.length := by
  rw [copyWrites, List.cons_append, List.mem_cons, List.mem_append, List.mem_singleton,
    List.mem_mapIdx] at listed
  rcases listed with rfl | ⟨i, below, rfl⟩ | rfl
  · exact ⟨Nat.le_refl _, Nat.le_add_right _ _⟩
  · exact ⟨Nat.le_add_right _ _, Nat.add_le_add_left (Nat.le_of_lt below) _⟩
  · exact ⟨Nat.le_add_right _ _, Nat.le_refl _⟩

theorem copyWrites_text (m : Nat → Byte) (i : Nat) (c : Byte) (there : (chars ++ [0#8])[i]? = some c) :
    writeBytes m (copyWrites textPtr chars) (textPtr + i) = c := by
  obtain ⟨below, same⟩ := List.getElem?_eq_some_iff.mp there
  rw [List.length_append, List.length_singleton] at below
  by_cases last : i = chars.length
  · subst last
    rw [List.getElem_append_right (Nat.le_refl _)] at same
    simp only [Nat.sub_self, List.getElem_cons_zero] at same
    rw [← same]
    exact writeBytes_last _ [] m _ _ (by simp)
  · have inside : i < chars.length := by omega
    rw [List.getElem_append_left inside] at same
    have split : copyWrites textPtr chars =
        ((textPtr, 0#8) :: (chars.mapIdx fun i c => (textPtr + i, c)).take i) ++ (textPtr + i, c) ::
          ((chars.mapIdx fun i c => (textPtr + i, c)).drop (i + 1) ++ [(textPtr + chars.length, 0#8)]) := by
      have long : i < (chars.mapIdx fun i c => (textPtr + i, c)).length := by simpa using inside
      have here : (chars.mapIdx fun i c => (textPtr + i, c))[i] = (textPtr + i, c) := by simp [same]
      have parts := List.take_append_drop i (chars.mapIdx fun i c => (textPtr + i, c))
      rw [← List.getElem_cons_drop long, here] at parts
      rw [copyWrites]
      nth_rewrite 1 [← parts]
      simp only [List.cons_append, List.append_assoc]
    rw [split]
    refine writeBytes_last _ _ m _ _ fun write listed => ?_
    rcases List.mem_append.mp listed with later | nul
    · obtain ⟨j, short, rfl⟩ := List.getElem_of_mem later
      simp only [List.getElem_drop, List.getElem_mapIdx]
      omega
    · rw [List.mem_singleton.mp nul]
      dsimp only
      omega

-- The block has room for the NUL just when the rounding adds something.
theorem length_lt_alignSize (length : Nat) (short : length < 2 ^ 63) :
    length < alignSize length ↔ length = 0 ∨ length % alignQuantum ≠ 0 := by
  rw [alignSize_eq length short]
  unfold alignQuantum
  omega

theorem copy_within (sound : Sound reservations w others (⟨textPtr, chars.length⟩ :: live) bins)
    (room : chars.length < alignSize chars.length) : CopiesInside w textPtr chars.length chars := by
  have inside (write : Nat × Byte) (listed : write ∈ copyWrites textPtr chars) :
      textPtr ≤ write.1 ∧ write.1 < textPtr + alignSize chars.length := by
    have bounds := copyWrites_address write listed
    omega
  have own : (⟨textPtr, alignSize chars.length⟩ : Range) ∈
      liveRanges (⟨textPtr, chars.length⟩ :: live) := ⟨_, List.mem_cons_self, rfl⟩
  -- a byte of another range, or of none, is not written
  have away (m : Nat → Byte) (r : Range) (member : r ∈
      liveRanges (⟨textPtr, chars.length⟩ :: live) ∪ nodeRanges bins)
      (other : r ≠ ⟨textPtr, alignSize chars.length⟩) (x : Nat) (above : r.start ≤ x) (below : x < r.finish) :
      writeBytes m (copyWrites textPtr chars) x = m x := by
    have apart := sound.apart r member _ (.inl own) other
    unfold Range.Apart Range.finish at apart
    unfold Range.finish at below
    dsimp only at apart
    refine writeBytes_outside _ m x fun write listed => ?_
    have bounds := inside write listed
    omega
  refine ⟨inside, fun m p size x other lent above below => ?_,
    fun m i cells p x bound chain listed above below => ?_, fun m x none => ?_⟩
  · refine away m ⟨p, alignSize size⟩ (.inl ⟨⟨p, size⟩, (sound.booked.inUse ⟨p, size⟩).mpr lent, rfl⟩)
      (fun same => other (congrArg Range.start same)) x above below
  · obtain rfl := chain.unique _ _ (sound.linked i bound)
    have node : (⟨p, 16 * (i + 1)⟩ : Range) ∈ nodeRanges bins := ⟨i, p, bound, listed, rfl⟩
    exact away m _ (.inr node) (fun same => Set.disjoint_left.mp sound.separate own (same ▸ node)) x above
      below
  · refine writeBytes_outside _ m x fun write listed same => ?_
    obtain ⟨c, member, start, finish⟩ := sound.inside _ (.inl own)
    have fits := sound.arena.fits c member
    have bounds := inside write listed
    unfold Range.finish at finish
    dsimp only at start finish
    exact none c member (by omega)

theorem copy_overruns (length : Nat) (long : chars.length = length) (full : alignSize length ≤ length) :
    ¬ CopiesInside w textPtr length chars := by
  intro copies
  have nul : (textPtr + chars.length, 0#8) ∈ copyWrites textPtr chars :=
    List.mem_append_right _ List.mem_cons_self
  have bounds := copies.inside _ nul
  dsimp only at bounds
  omega

end Copy

theorem copy_stays_inside {reservations : Nat → Option Nat} (reserves : Reserves reservations)
    (s : Lifecycle) (reached : (lifecycle reservations).Reachable s) (text : Option (List Byte))
    (length : Nat) (short : length < 2 ^ 63) (textPtr : Nat) (w : AlarWorld)
    (made : metallocOr "Can't write new string" s.world length 1 = .ok (textPtr, w)) (chars : List Byte)
    (copied : firstBytes (text.getD []) length = .ok chars) :
    CopiesInside w textPtr length chars ↔ length = 0 ∨ length % alignQuantum ≠ 0 := by
  obtain ⟨⟨others, _, ⟨_, _, _, _, keeps, _⟩, _⟩, _⟩ := lifecycle_sane reserves reached
  obtain ⟨live, bins, sound, _⟩ := keeps.blocks
  obtain ⟨bins', sound'⟩ := (sound.metallocOr_meets reserves _ length 0 short (by decide)).holds _ made
  have long : chars.length = length := by
    rw [firstBytes] at copied
    split at copied
    next readable =>
      rw [← Except.ok.inj copied]
      exact List.length_take_of_le readable
    next => cases copied
  rw [← length_lt_alignSize length short]
  constructor
  · intro copies
    by_contra full
    exact copy_overruns length long (Nat.le_of_not_lt full) copies
  · intro room
    subst long
    exact copy_within sound' room

theorem first_block (length : Nat) (small : length = 1 ∨ length = 16) : ∃ s textPtr w,
    (lifecycle PageManager.rowOfRegions).Reachable s ∧
      metallocOr "Can't write new string" s.world length 1 = .ok (textPtr, w) := by
  have run : Result.passes (PageManager.construct PageManager.rowOfRegions) (fun fresh =>
      Result.passes (MetaArena.construct fresh pageSize (Heap.empty : Heap AlarObject)) fun creating =>
      Result.passes (construct (some creating) 4) fun made =>
      Result.passes (metallocOr "Can't write new string" made.2.1 length 1) fun _ => true) = true := by
    rcases small with rfl | rfl <;> decide +kernel
  simp only [Result.passes_iff, and_true] at run
  obtain ⟨fresh, first, creating, built, ⟨alar, world, after⟩, made, ⟨textPtr, w⟩, given⟩ := run
  have sound := MetaArena.firstPage_sound fresh first _ _ built
  exact ⟨⟨alar, world, 0⟩, textPtr, w,
    .start ⟨_, _, creating, after, _, _, _, 4, sound, by decide, made, rfl⟩, given⟩

theorem copy_stays_inside_one : ∃ s textPtr w, (lifecycle PageManager.rowOfRegions).Reachable s ∧
    metallocOr "Can't write new string" s.world 1 1 = .ok (textPtr, w) ∧
    CopiesInside w textPtr 1 [97#8] := by
  obtain ⟨s, textPtr, w, reached, made⟩ := first_block 1 (.inl rfl)
  exact ⟨s, textPtr, w, reached, made, (copy_stays_inside rowOfRegions_reserves s reached
    (some [97#8, 0#8]) 1 (by decide) textPtr w made [97#8] rfl).mpr (.inr (by decide))⟩

-- The NUL after sixteen characters is written past their block.
theorem sixteen_overruns : ∃ s textPtr w, (lifecycle PageManager.rowOfRegions).Reachable s ∧
    metallocOr "Can't write new string" s.world 16 1 = .ok (textPtr, w) ∧
    ¬ CopiesInside w textPtr 16 (List.replicate 16 97#8) := by
  obtain ⟨s, textPtr, w, reached, made⟩ := first_block 16 (.inr rfl)
  exact ⟨s, textPtr, w, reached, made, copy_overruns 16 rfl (by decide)⟩

end ALAR

end ElySquare
