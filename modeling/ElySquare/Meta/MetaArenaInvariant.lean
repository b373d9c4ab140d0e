import Mathlib.Data.List.Nodup
import Mathlib.Data.Set.BooleanAlgebra
import Mathlib.Data.Set.Insert
import Mathlib.Order.CompletePartialOrder
import ElySquare.Shared.Linked
import ElySquare.Allocators.ArenaInvariant
import ElySquare.Meta.MetaArena

set_option autoImplicit false

namespace ElySquare

theorem alignSize_eq (size : Nat) (small : size < 2 ^ 63) :
    alignSize size = (max size 16 + 15) / 16 * 16 := by
  have actual : (if size < minBlockSize then minBlockSize else size) = max size 16 := by
    unfold minBlockSize alignQuantum
    split <;> omega
  unfold alignSize
  rw [actual]
  exact Align.maskUp_two_pow 64 4 (max size 16) (by omega) (by omega)

theorem alignSize_bounds (size : Nat) (small : size < 2 ^ 63) :
    2 ^ 4 ∣ alignSize size ∧ 16 ≤ alignSize size ∧ size ≤ alignSize size ∧
      alignSize size ≤ 2 ^ 63 := by
  rw [alignSize_eq size small]
  exact ⟨Nat.dvd_mul_left _ _, by omega, by omega, by omega⟩

-- Also a size that is so large that the rounding wraps around ends on a multiple of the quantum.
theorem alignSize_dvd (size : Nat) : 16 ∣ alignSize size ∧ alignSize size < 2 ^ 64 := by
  generalize given : (if size < minBlockSize then minBlockSize else size) = actual
  have masked : alignSize size =
      (actual + alignQuantum + (2 ^ 64 - 1)) % 2 ^ 64 &&& (2 ^ 64 - 1 - (2 ^ 4 - 1)) := by
    unfold alignSize
    rw [given]
    rfl
  have bound : (actual + alignQuantum + (2 ^ 64 - 1)) % 2 ^ 64 < 2 ^ 64 := Nat.mod_lt _ (Nat.two_pow_pos 64)
  rw [masked, Align.and_high_mask 64 4 _ bound (by decide)]
  exact ⟨Nat.dvd_mul_left _ _, by omega⟩

theorem getBucketIndex_eq (size : Nat) (large : 16 ≤ alignSize size) (i : Nat) :
    getBucketIndex (alignSize size) = i ↔ alignSize size = 16 * (i + 1) := by
  obtain ⟨⟨q, hq⟩, bound⟩ := alignSize_dvd size
  unfold getBucketIndex alignQuantum
  omega

theorem getBucketIndex_iff (size : Nat) (small : size < 2 ^ 63) (i : Nat) :
    getBucketIndex (alignSize size) = i ↔ alignSize size = 16 * (i + 1) :=
  getBucketIndex_eq size (alignSize_bounds size small).2.1 i

structure Block where
  ptr : Nat
  size : Nat
deriving DecidableEq, Repr

def Block.range (b : Block) : Range := ⟨b.ptr, alignSize b.size⟩

class LawfulLinks (Memory : Type) [LinkStore Memory] : Prop where
  next_here (m : Memory) (p : Nat) (v : Option Nat) (valid : ∀ q, v = some q → 0 < q ∧ q < 2 ^ 64) :
    LinkStore.next (LinkStore.setNext m p v) p = .ok v
  next_there (m : Memory) (p : Nat) (v : Option Nat) (q : Nat) (apart : p + 16 ≤ q ∨ q + 16 ≤ p) :
    LinkStore.next (LinkStore.setNext m p v) q = LinkStore.next m q

namespace MetaArena

open Linked

variable {Memory : Type} [LinkStore Memory]

def follow (memory : Memory) (p : Nat) : Option Nat :=
  match LinkStore.next memory p with
  | .ok next => next
  | .error _ => none

def OnFreeList (w : World Memory) (p : Nat) : Prop :=
  ∃ i cells, i < numBuckets ∧ Chain (follow w.memory) (w.metaArena.freeListHead i) cells ∧ p ∈ cells

def liveRanges (live : List Block) : Set Range := {r | ∃ b ∈ live, r = b.range}

def nodeRanges (bins : Nat → List Nat) : Set Range :=
  {r | ∃ i p, i < numBuckets ∧ p ∈ bins i ∧ r = ⟨p, 16 * (i + 1)⟩}

theorem liveRanges_cons (live : List Block) (b : Block) :
    liveRanges (b :: live) = insert b.range (liveRanges live) := by
  ext r
  simp [liveRanges, or_and_right, exists_or]

theorem liveRanges_erase (live : List Block) (b : Block) (distinct : (live.map Block.ptr).Nodup)
    (member : b ∈ live) : liveRanges (live.erase b) = liveRanges live \ {b.range} := by
  have nodup : live.Nodup := List.Nodup.of_map _ distinct
  ext r
  constructor
  · rintro ⟨c, kept, rfl⟩
    obtain ⟨different, alive⟩ := nodup.mem_erase_iff.mp kept
    refine ⟨⟨c, alive, rfl⟩, fun same => different ?_⟩
    exact List.inj_on_of_nodup_map distinct alive member (congrArg Range.start same)
  · rintro ⟨⟨c, alive, rfl⟩, different⟩
    exact ⟨c, nodup.mem_erase_iff.mpr ⟨fun same => different (same ▸ rfl), alive⟩, rfl⟩

theorem nodeRanges_push (bins : Nat → List Nat) (i p : Nat) (inside : i < numBuckets) :
    nodeRanges (Function.update bins i (p :: bins i)) =
      insert ⟨p, 16 * (i + 1)⟩ (nodeRanges bins) := by
  ext r
  constructor
  · rintro ⟨j, q, bound, member, rfl⟩
    by_cases same : j = i
    · subst same
      rw [Function.update_self] at member
      rcases List.mem_cons.mp member with rfl | old
      · exact .inl rfl
      · exact .inr ⟨j, q, bound, old, rfl⟩
    · rw [Function.update_of_ne same] at member
      exact .inr ⟨j, q, bound, member, rfl⟩
  · rintro (rfl | ⟨j, q, bound, member, rfl⟩)
    · exact ⟨i, p, inside, by simp, rfl⟩
    · refine ⟨j, q, bound, ?_, rfl⟩
      by_cases same : j = i
      · subst same
        rw [Function.update_self]
        exact List.mem_cons_of_mem _ member
      · rwa [Function.update_of_ne same]

theorem nodeRanges_pop (bins : Nat → List Nat) (i p : Nat) (rest : List Nat) (inside : i < numBuckets)
    (cells : bins i = p :: rest) (fresh : p ∉ rest) :
    nodeRanges bins = insert ⟨p, 16 * (i + 1)⟩ (nodeRanges (Function.update bins i rest)) ∧
      ⟨p, 16 * (i + 1)⟩ ∉ nodeRanges (Function.update bins i rest) := by
  constructor
  · rw [← nodeRanges_push _ i p inside, Function.update_idem, Function.update_self, ← cells,
      Function.update_eq_self]
  · rintro ⟨j, q, _, member, same⟩
    simp only [Range.mk.injEq] at same
    obtain ⟨rfl, size⟩ := same
    obtain rfl : j = i := by omega
    rw [Function.update_self] at member
    exact fresh member

theorem mem_pop (bins : Nat → List Nat) (i node : Nat) (rest : List Nat) (cells : bins i = node :: rest)
    (j p : Nat) (member : p ∈ Function.update bins i rest j) : p ∈ bins j := by
  by_cases same : j = i
  · subst same
    rw [Function.update_self] at member
    rw [cells]
    exact List.mem_cons_of_mem _ member
  · rwa [Function.update_of_ne same] at member

/-- What the calls so far say of the blocks: which are in use, which are nodes, and that the arena has
handed out all of them. -/
structure Booked (arena : Arena) (calls : List (Loans.Event Nat Nat)) (live : List Block)
    (bins : Nat → List Nat) : Prop where
  legal : Loans.Legal alignSize calls
  inUse : ∀ b, b ∈ live ↔ Loans.last calls b.ptr = some (.lent b.ptr b.size)
  listed : ∀ i p, i < numBuckets → (p ∈ bins i ↔
    ∃ size, Loans.last calls p = some (.returned p size) ∧ alignSize size = 16 * (i + 1))
  inside : ∀ p event, Loans.last calls p = some event →
    16 ≤ alignSize event.size ∧ arena.Inside ⟨p, alignSize event.size⟩

namespace Booked

variable {arena : Arena} {calls : List (Loans.Event Nat Nat)} {live : List Block} {bins : Nat → List Nat}

theorem lent (booked : Booked arena calls live bins) (arena' : Arena) (p size : Nat)
    (bins' : Nat → List Nat) (large : 16 ≤ alignSize size)
    (inside : arena'.Inside ⟨p, alignSize size⟩) (grown : ∀ r, arena.Inside r → arena'.Inside r)
    (lawful : Loans.Lawful alignSize calls (.lent p size))
    (nodes : ∀ i q, i < numBuckets → (q ∈ bins' i ↔ q ∈ bins i ∧ q ≠ p)) :
    Booked arena' (.lent p size :: calls) (⟨p, size⟩ :: live) bins' := by
  refine ⟨.cons _ _ booked.legal lawful, fun b => ?_, fun i q bound => ?_, fun q event found => ?_⟩
  · obtain ⟨ptr, bytes⟩ := b
    by_cases here : ptr = p
    · subst here
      have out : ⟨ptr, bytes⟩ ∉ live := fun alive => by
        obtain ⟨old, differs, _⟩ := lawful _ ((booked.inUse _).mp alive)
        cases differs
      rw [Loans.last_here calls (.lent ptr size) ptr rfl]
      simp [out, eq_comm]
    · rw [Loans.last_there calls (.lent p size) ptr (Ne.symm here), ← booked.inUse ⟨ptr, bytes⟩]
      simp [here]
  · rw [nodes i q bound, booked.listed i q bound]
    by_cases here : q = p
    · subst here
      simp [Loans.last_here calls (.lent q size) q rfl]
    · simp [Loans.last_there calls (.lent p size) q (Ne.symm here), here]
  · by_cases here : q = p
    · subst here
      rw [Loans.last_here calls (.lent q size) q rfl] at found
      obtain rfl := Option.some.inj found
      exact ⟨large, inside⟩
    · rw [Loans.last_there calls (.lent p size) q (Ne.symm here)] at found
      exact (booked.inside q event found).imp_right (grown _)

theorem returned (booked : Booked arena calls live bins) (b : Block) (alive : b ∈ live)
    (distinct : (live.map Block.ptr).Nodup) (size : Nat) (same : alignSize size = alignSize b.size)
    (bins' : Nat → List Nat)
    (nodes : ∀ i q, i < numBuckets →
      (q ∈ bins' i ↔ q ∈ bins i ∨ q = b.ptr ∧ alignSize b.size = 16 * (i + 1))) :
    Booked arena (.returned b.ptr size :: calls) (live.erase b) bins' := by
  have out := (booked.inUse b).mp alive
  have nodup : live.Nodup := List.Nodup.of_map _ distinct
  refine ⟨.cons _ _ booked.legal ⟨_, out, same.symm⟩, fun c => ?_, fun i q bound => ?_,
    fun q event found => ?_⟩
  · rw [nodup.mem_erase_iff]
    by_cases here : c.ptr = b.ptr
    · rw [Loans.last_here calls (.returned b.ptr size) c.ptr here.symm]
      refine ⟨fun ⟨other, alive'⟩ => ?_, fun differs => (by cases differs)⟩
      exact (other (List.inj_on_of_nodup_map distinct alive' alive here)).elim
    · rw [Loans.last_there calls (.returned b.ptr size) c.ptr (Ne.symm here), ← booked.inUse c]
      exact ⟨And.right, fun alive' => ⟨fun same => here (same ▸ rfl), alive'⟩⟩
  · rw [nodes i q bound, booked.listed i q bound]
    by_cases here : q = b.ptr
    · subst here
      simp [Loans.last_here calls (.returned b.ptr size) b.ptr rfl, out, same]
    · simp [Loans.last_there calls (.returned b.ptr size) q (Ne.symm here), here]
  · by_cases here : q = b.ptr
    · subst here
      rw [Loans.last_here calls (.returned b.ptr size) b.ptr rfl] at found
      obtain rfl := Option.some.inj found
      have kept := booked.inside _ _ out
      simp only [Loans.Event.size] at kept ⊢
      rwa [same]
    · rw [Loans.last_there calls (.returned b.ptr size) q (Ne.symm here)] at found
      exact booked.inside q event found

end Booked

structure Sound (reservations : Nat → Option Nat) (w : World Memory)
    (others : List PageManager.Chunk) (live : List Block) (bins : Nat → List Nat) : Prop where
  arena : Arena.Sound reservations w.manager w.metaArena.arena others
  inside : ∀ r ∈ liveRanges live ∪ nodeRanges bins, w.metaArena.arena.Inside r
  placed : ∀ r ∈ liveRanges live ∪ nodeRanges bins,
    2 ^ 4 ∣ r.start ∧ 0 < r.start ∧ r.finish ≤ 2 ^ 64
  apart : ∀ r ∈ liveRanges live ∪ nodeRanges bins, ∀ s ∈ liveRanges live ∪ nodeRanges bins,
    r ≠ s → Range.Apart r s
  separate : Disjoint (liveRanges live) (nodeRanges bins)
  distinct : (live.map Block.ptr).Nodup
  small : ∀ b ∈ live, b.size < 2 ^ 63
  linked : ∀ i, i < numBuckets → Chain (follow w.memory) (w.metaArena.freeListHead i) (bins i)
  readable : ∀ i p, i < numBuckets → p ∈ bins i →
    LinkStore.next w.memory p = .ok (follow w.memory p)
  booked : Booked w.metaArena.arena w.calls live bins

namespace Sound

variable {reservations : Nat → Option Nat} {w : World Memory} {others : List PageManager.Chunk}
  {live : List Block} {bins : Nat → List Nat}

theorem size_ge (sound : Sound reservations w others live bins) (r : Range)
    (member : r ∈ liveRanges live ∪ nodeRanges bins) : 16 ≤ r.size := by
  rcases member with ⟨b, alive, rfl⟩ | ⟨i, p, _, _, rfl⟩
  · exact (alignSize_bounds b.size (sound.small b alive)).2.1
  · dsimp only
    omega

theorem start_inj (sound : Sound reservations w others live bins) (r s : Range)
    (hr : r ∈ liveRanges live ∪ nodeRanges bins) (hs : s ∈ liveRanges live ∪ nodeRanges bins)
    (same : r.start = s.start) : r = s := by
  by_contra different
  have apart := sound.apart r hr s hs different
  have sizeR := sound.size_ge r hr
  have sizeS := sound.size_ge s hs
  unfold Range.Apart Range.finish at apart
  omega

theorem nodes_apart (sound : Sound reservations w others live bins) (r s : Range)
    (hr : r ∈ liveRanges live ∪ nodeRanges bins) (hs : s ∈ liveRanges live ∪ nodeRanges bins)
    (different : r ≠ s) : r.start + 16 ≤ s.start ∨ s.start + 16 ≤ r.start := by
  have apart := sound.apart r hr s hs different
  have sizeR := sound.size_ge r hr
  have sizeS := sound.size_ge s hs
  unfold Range.Apart Range.finish at apart
  omega

theorem one_bucket (sound : Sound reservations w others live bins) (i j p : Nat) (boundI : i < numBuckets)
    (boundJ : j < numBuckets) (inI : p ∈ bins i) (inJ : p ∈ bins j) : i = j := by
  have same := sound.start_inj ⟨p, 16 * (i + 1)⟩ ⟨p, 16 * (j + 1)⟩ (.inr ⟨i, p, boundI, inI, rfl⟩)
    (.inr ⟨j, p, boundJ, inJ, rfl⟩) rfl
  simp only [Range.mk.injEq] at same
  omega

theorem resplit (sound : Sound reservations w others live bins) (live' : List Block)
    (bins' : Nat → List Nat) (after : World Memory) (manager : after.manager = w.manager)
    (arena : after.metaArena.arena = w.metaArena.arena)
    (within : liveRanges live' ∪ nodeRanges bins' ⊆ liveRanges live ∪ nodeRanges bins)
    (separate : Disjoint (liveRanges live') (nodeRanges bins'))
    (distinct : (live'.map Block.ptr).Nodup) (small : ∀ b ∈ live', b.size < 2 ^ 63)
    (linked : ∀ i, i < numBuckets →
      Chain (follow after.memory) (after.metaArena.freeListHead i) (bins' i))
    (readable : ∀ i p, i < numBuckets → p ∈ bins' i →
      LinkStore.next after.memory p = .ok (follow after.memory p))
    (booked : Booked w.metaArena.arena after.calls live' bins') :
    Sound reservations after others live' bins' := by
  refine ⟨?_, ?_, ?_, ?_, separate, distinct, small, linked, readable, arena ▸ booked⟩
  · rw [manager, arena]
    exact sound.arena
  · rw [arena]
    exact fun r member => sound.inside r (within member)
  · exact fun r member => sound.placed r (within member)
  · exact fun r hr s hs => sound.apart r (within hr) s (within hs)

theorem mem_pop_iff (sound : Sound reservations w others live bins) (i node : Nat) (rest : List Nat)
    (inside : i < numBuckets) (cells : bins i = node :: rest) (j q : Nat) (bound : j < numBuckets) :
    q ∈ Function.update bins i rest j ↔ q ∈ bins j ∧ q ≠ node := by
  have nodup := (sound.linked i inside).nodup
  rw [cells] at nodup
  obtain ⟨_, gone⟩ := nodeRanges_pop bins i node rest inside cells (List.nodup_cons.mp nodup).1
  refine ⟨fun member => ⟨mem_pop bins i node rest cells j q member, ?_⟩, fun ⟨member, other⟩ => ?_⟩
  · rintro rfl
    exact gone ⟨j, q, bound, member, by rw [sound.one_bucket j i q bound inside
      (mem_pop bins i q rest cells j q member) (cells ▸ List.mem_cons_self)]⟩
  · by_cases same : j = i
    · subst same
      rw [Function.update_self]
      exact (List.mem_cons.mp (cells ▸ member)).resolve_left other
    · rwa [Function.update_of_ne same]

theorem head_listed (sound : Sound reservations w others live bins) (i node : Nat) (inside : i < numBuckets)
    (picked : w.metaArena.freeListHead i = some node) :
    ∃ rest, bins i = node :: rest ∧ LinkStore.next w.memory node = .ok (follow w.memory node) := by
  have chain := sound.linked i inside
  rw [picked] at chain
  obtain ⟨rest, cells, _⟩ := chain.first
  exact ⟨rest, cells, sound.readable i node inside (by simp [cells])⟩

theorem pop_sound (sound : Sound reservations w others live bins) (i node size : Nat) (rest : List Nat)
    (inside : i < numBuckets) (cells : bins i = node :: rest) (small : size < 2 ^ 63)
    (rounds : alignSize size = 16 * (i + 1)) :
    Sound reservations { w with
        metaArena := { w.metaArena with
          freeListHead := Function.update w.metaArena.freeListHead i (follow w.memory node) }
        calls := .lent node size :: w.calls }
      others (⟨node, size⟩ :: live) (Function.update bins i rest) := by
  have chain := sound.linked i inside
  have nodup := chain.nodup
  rw [cells] at chain nodup
  obtain ⟨before, gone⟩ := nodeRanges_pop bins i node rest inside cells (List.nodup_cons.mp nodup).1
  have range : Block.range ⟨node, size⟩ = ⟨node, 16 * (i + 1)⟩ := by
    unfold Block.range
    rw [rounds]
  have wasNode : (⟨node, 16 * (i + 1)⟩ : Range) ∈ nodeRanges bins := before ▸ .inl rfl
  have here : node ∈ bins i := cells ▸ List.mem_cons_self
  obtain ⟨old, past, pastRounds⟩ := (sound.booked.listed i node inside).mp here
  refine sound.resplit _ _ _ rfl rfl ?_ ?_ ?_ ?_ ?_ ?_ (sound.booked.lent _ node size _
    (rounds ▸ by omega) ?_ (fun _ => id) (fun event found => ?_)
    (sound.mem_pop_iff i node rest inside cells))
  · rw [liveRanges_cons, range, before, Set.insert_union, Set.union_insert]
  · have separate := sound.separate
    rw [before, Set.disjoint_insert_right] at separate
    rw [liveRanges_cons, range]
    exact Set.disjoint_insert_left.mpr ⟨gone, separate.2⟩
  · refine List.nodup_cons.mpr ⟨fun again => ?_, sound.distinct⟩
    obtain ⟨b, alive, same⟩ := List.mem_map.mp again
    have twice := sound.start_inj b.range ⟨node, 16 * (i + 1)⟩ (.inl ⟨b, alive, rfl⟩) (.inr wasNode) same
    exact Set.disjoint_left.mp sound.separate ⟨b, alive, rfl⟩ (twice ▸ wasNode)
  · exact List.forall_mem_cons.mpr ⟨small, sound.small⟩
  · intro j bound
    by_cases same : j = i
    · subst same
      simp only [Function.update_self]
      exact chain.2
    · simp only [Function.update_of_ne same]
      exact sound.linked j bound
  · exact fun j p bound member => sound.readable j p bound (mem_pop bins i node rest cells j p member)
  · rw [rounds]
    exact sound.inside _ (.inr wasNode)
  · exact ⟨old, Option.some.inj (found.symm.trans past), pastRounds.trans rounds.symm⟩

theorem placed_sound (sound : Sound reservations w others live bins) (manager : PageManager)
    (arena : Arena) (node size : Nat) (small : size < 2 ^ 63) (large : 16 ≤ alignSize size)
    (arenaSound : Arena.Sound reservations manager arena others) (aligned : 2 ^ 4 ∣ node)
    (fresh : Arena.Fresh w.metaArena.arena arena ⟨node, alignSize size⟩) :
    Sound reservations { w with
      manager := manager
      metaArena := { w.metaArena with arena := arena }
      calls := .lent node size :: w.calls } others (⟨node, size⟩ :: live) bins := by
  have range : Block.range ⟨node, size⟩ = ⟨node, alignSize size⟩ := rfl
  obtain ⟨⟨positive, mapped⟩, inside, grown⟩ := fresh
  -- a block handed out before does not start where the new one does
  have elsewhere (r : Range) (member : r ∈ liveRanges live ∪ nodeRanges bins) : r.start ≠ node := by
    have apart := (grown r (sound.inside r member)).2
    have size := sound.size_ge r member
    unfold Range.Apart Range.finish at apart
    dsimp only at apart
    omega
  have fresh (event : Loans.Event Nat Nat) : Loans.last w.calls node ≠ some event := fun found => by
    obtain ⟨size, old⟩ := sound.booked.inside node event found
    have apart := (grown _ old).2
    unfold Range.Apart Range.finish at apart
    dsimp only at apart
    omega
  refine ⟨arenaSound, ?_, ?_, ?_, ?_, ?_, ?_, sound.linked, sound.readable,
    sound.booked.lent arena node size bins large inside (fun r old => (grown r old).1)
      (fun event found => (fresh event found).elim) fun i q bound => ?_⟩
  · rw [liveRanges_cons, range, Set.insert_union]
    rintro r (rfl | old)
    · exact inside
    · exact (grown r (sound.inside r old)).1
  · rw [liveRanges_cons, range, Set.insert_union]
    rintro r (rfl | old)
    · exact ⟨aligned, positive, mapped⟩
    · exact sound.placed r old
  · rw [liveRanges_cons, range, Set.insert_union]
    rintro r (rfl | oldR) s (rfl | oldS) different
    · exact (different rfl).elim
    · exact (grown s (sound.inside s oldS)).2.symm
    · exact (grown r (sound.inside r oldR)).2
    · exact sound.apart r oldR s oldS different
  · rw [liveRanges_cons, range]
    exact Set.disjoint_insert_left.mpr
      ⟨fun member => elsewhere _ (.inr member) rfl, sound.separate⟩
  · refine List.nodup_cons.mpr ⟨fun again => ?_, sound.distinct⟩
    obtain ⟨b, alive, same⟩ := List.mem_map.mp again
    exact elsewhere b.range (.inl ⟨b, alive, rfl⟩) same
  · exact List.forall_mem_cons.mpr ⟨small, sound.small⟩
  · exact ⟨fun listed => ⟨listed, fun here =>
      elsewhere ⟨q, 16 * (i + 1)⟩ (.inr ⟨i, q, bound, listed, rfl⟩) here⟩, And.left⟩

theorem bump_sound (reserves : Reserves reservations)
    (sound : Sound reservations w others live bins) (size k : Nat) (small : size < 2 ^ 63)
    (fine : k ≤ 4) (ptr : Nat) (after : World Memory)
    (made : bump w size (2 ^ k) = .ok (ptr, after)) :
    after.memory = w.memory ∧ Sound reservations after others (⟨ptr, size⟩ :: live) bins := by
  obtain ⟨quantum, large, _, bound⟩ := alignSize_bounds size small
  obtain ⟨⟨node, arena, manager⟩, given, rest⟩ := (Result.bind_ok _ _ _).mp made
  simp only [Except.ok.injEq, Prod.mk.injEq] at rest
  obtain ⟨rfl, rfl⟩ := rest
  obtain ⟨arenaSound, aligned, fresh⟩ :=
    Arena.alloc_spec reserves sound.arena _ k bound quantum fine _ _ _ given
  exact ⟨rfl, sound.placed_sound manager arena node size small large arenaSound aligned fresh⟩

theorem metalloc_spec (reserves : Reserves reservations)
    (sound : Sound reservations w others live bins) (size k : Nat) (small : size < 2 ^ 63)
    (fine : k ≤ 4) (ptr : Nat) (after : World Memory)
    (made : metalloc w size (2 ^ k) = .ok (ptr, after)) :
    after.memory = w.memory ∧
      ∃ bins', Sound reservations after others (⟨ptr, size⟩ :: live) bins' ∧
        ∀ i p, p ∈ bins' i → p ∈ bins i := by
  rcases metalloc_cases w size (2 ^ k) with ⟨node, inside, picked, taken⟩ | bumped
  · rw [taken] at made
    have rounds := (getBucketIndex_iff size small _).mp rfl
    obtain ⟨rest, cells, read⟩ := sound.head_listed _ node inside picked
    simp only [read, Result.ok_bind, Except.ok.injEq, Prod.mk.injEq] at made
    obtain ⟨rfl, rfl⟩ := made
    exact ⟨rfl, _, sound.pop_sound _ node size rest inside cells small rounds,
      mem_pop bins _ node rest cells⟩
  · rw [bumped] at made
    obtain ⟨memory, sound'⟩ := bump_sound reserves sound size k small fine ptr after made
    exact ⟨memory, bins, sound', fun _ _ member => member⟩

theorem abandon_sound (sound : Sound reservations w others live bins) (b : Block) (alive : b ∈ live)
    (size : Nat) (same : alignSize size = alignSize b.size)
    (large : numBuckets ≤ getBucketIndex (alignSize b.size)) :
    Sound reservations { w with calls := .returned b.ptr size :: w.calls } others (live.erase b) bins := by
  have fewer := liveRanges_erase live b sound.distinct alive
  refine sound.resplit _ _ _ rfl rfl ?_ ?_ (sound.distinct.sublist (List.erase_sublist.map _))
    (fun c kept => sound.small c (List.mem_of_mem_erase kept)) sound.linked sound.readable
    (sound.booked.returned b alive sound.distinct size same bins fun i q bound => ?_)
  · rw [fewer]
    exact Set.union_subset_union_left _ Set.sdiff_subset
  · rw [fewer]
    exact sound.separate.mono_left Set.sdiff_subset
  · refine ⟨.inl, fun listed => listed.resolve_right fun ⟨_, rounds⟩ => ?_⟩
    have index := (getBucketIndex_iff b.size (sound.small b alive) i).mpr rounds
    omega

theorem mem_push (i ptr j p : Nat) :
    p ∈ Function.update bins i (ptr :: bins i) j ↔ p ∈ bins j ∨ p = ptr ∧ j = i := by
  by_cases here : j = i
  · subst here
    rw [Function.update_self, List.mem_cons]
    simp [or_comm]
  · rw [Function.update_of_ne here]
    simp [here]

theorem push_sound [LawfulLinks Memory] (sound : Sound reservations w others live bins) (b : Block)
    (alive : b ∈ live) (size : Nat) (same : alignSize size = alignSize b.size) (i : Nat)
    (bound : i < numBuckets) (rounds : alignSize b.size = 16 * (i + 1)) :
    Sound reservations { w with
        calls := .returned b.ptr size :: w.calls
        memory := LinkStore.setNext w.memory b.ptr (w.metaArena.freeListHead i)
        metaArena := { w.metaArena with
          freeListHead := Function.update w.metaArena.freeListHead i (some b.ptr) } }
      others (live.erase b) (Function.update bins i (b.ptr :: bins i)) := by
  have member : b.range ∈ liveRanges live := ⟨b, alive, rfl⟩
  have fewer := liveRanges_erase live b sound.distinct alive
  have range : b.range = ⟨b.ptr, 16 * (i + 1)⟩ := by
    unfold Block.range
    rw [rounds]
  have more := nodeRanges_push bins i b.ptr bound
  have valid (q : Nat) (head : w.metaArena.freeListHead i = some q) : 0 < q ∧ q < 2 ^ 64 := by
    have cells := (sound.linked i bound).head_eq
    rw [head] at cells
    have placed := sound.placed ⟨q, 16 * (i + 1)⟩
      (.inr ⟨i, q, bound, List.mem_of_mem_head? cells.symm, rfl⟩)
    unfold Range.finish at placed
    dsimp only at placed
    omega
  have next_here := LawfulLinks.next_here w.memory b.ptr (w.metaArena.freeListHead i) valid
  -- the nodes of the other lists, and the old ones of this list, keep their links
  have next_there (j p : Nat) (small : j < numBuckets) (node : p ∈ bins j) :
      LinkStore.next (LinkStore.setNext w.memory b.ptr (w.metaArena.freeListHead i)) p =
        LinkStore.next w.memory p := by
    have isNode : (⟨p, 16 * (j + 1)⟩ : Range) ∈ nodeRanges bins := ⟨j, p, small, node, rfl⟩
    refine LawfulLinks.next_there _ _ _ _ ?_
    refine sound.nodes_apart b.range ⟨p, 16 * (j + 1)⟩ (.inl member) (.inr isNode) fun h => ?_
    exact Set.disjoint_left.mp sound.separate member (h ▸ isNode)
  have follow_there (j p : Nat) (small : j < numBuckets) (node : p ∈ bins j) :
      follow (LinkStore.setNext w.memory b.ptr (w.metaArena.freeListHead i)) p =
        follow w.memory p := by
    unfold follow
    rw [next_there j p small node]
  refine sound.resplit _ _ _ rfl rfl ?_ ?_ (sound.distinct.sublist (List.erase_sublist.map _))
    (fun c kept => sound.small c (List.mem_of_mem_erase kept)) ?_ ?_
    (sound.booked.returned b alive sound.distinct size same _ fun j p small => ?_)
  · rw [fewer, more, ← range]
    rintro r (⟨old, _⟩ | rfl | node)
    · exact .inl old
    · exact .inl member
    · exact .inr node
  · rw [fewer, more, ← range]
    exact Set.disjoint_insert_right.mpr
      ⟨fun h => h.2 rfl, sound.separate.mono_left Set.sdiff_subset⟩
  · intro j small
    by_cases here : j = i
    · subst here
      simp only [Function.update_self]
      refine (sound.linked j small).push _ _ ?_ fun p node => follow_there j p small node
      unfold follow
      rw [next_here]
    · simp only [Function.update_of_ne here]
      exact (sound.linked j small).congr _ fun p node => follow_there j p small node
  · intro j p small listed
    rcases (mem_push i b.ptr j p).mp listed with node | ⟨rfl, rfl⟩
    · rw [next_there j p small node, follow_there j p small node]
      exact sound.readable j p small node
    · unfold follow
      rw [next_here]
  · rw [mem_push]
    refine or_congr_right (and_congr_right fun _ => ⟨fun h => h ▸ rounds, fun rounds' => ?_⟩)
    omega

theorem metarecycle_spec [LawfulLinks Memory] (sound : Sound reservations w others live bins)
    (b : Block) (alive : b ∈ live) (size : Nat) (same : alignSize size = alignSize b.size) :
    ∃ bins', Sound reservations (metarecycle w b.ptr size) others (live.erase b) bins' ∧
      ∀ i p, i < numBuckets → p ∈ bins' i →
        p ∈ bins i ∨ p = b.ptr ∧ alignSize b.size = 16 * (i + 1) := by
  have nonzero : b.ptr ≠ 0 := Nat.ne_of_gt (sound.placed b.range (.inl ⟨b, alive, rfl⟩)).2.1
  rcases metarecycle_cases w b.ptr size nonzero with ⟨large, abandoned⟩ | ⟨bound, pushed⟩
  · rw [abandoned]
    exact ⟨bins, sound.abandon_sound b alive size same (same ▸ large), fun _ _ _ => .inl⟩
  · rw [same] at bound pushed
    rw [pushed]
    clear pushed
    generalize index : getBucketIndex (alignSize b.size) = i at bound
    have rounds := (getBucketIndex_iff b.size (sound.small b alive) i).mp index
    refine ⟨_, sound.push_sound b alive size same i bound rounds, fun j p _ listed => ?_⟩
    rcases (mem_push i b.ptr j p).mp listed with node | ⟨rfl, rfl⟩
    · exact .inl node
    · exact .inr ⟨rfl, rounds⟩

theorem write_sound (sound : Sound reservations w others live bins) (memory : Memory)
    (same : ∀ i p, i < numBuckets → p ∈ bins i →
      LinkStore.next memory p = LinkStore.next w.memory p) :
    Sound reservations { w with memory := memory } others live bins := by
  have follow_same (i p : Nat) (small : i < numBuckets) (node : p ∈ bins i) :
      follow memory p = follow w.memory p := by
    unfold follow
    rw [same i p small node]
  refine sound.resplit _ _ _ rfl rfl (Set.Subset.refl _) sound.separate sound.distinct sound.small
    (fun i small => (sound.linked i small).congr _ fun p node => follow_same i p small node) ?_
    sound.booked
  intro i p small node
  rw [same i p small node, follow_same i p small node]
  exact sound.readable i p small node

theorem onFreeList_iff (sound : Sound reservations w others live bins) (p : Nat) :
    OnFreeList w p ↔ ∃ size, Loans.last w.calls p = some (.returned p size) ∧
      alignSize size ≤ alignQuantum * numBuckets := by
  unfold alignQuantum
  constructor
  · rintro ⟨i, cells, bound, chain, listed⟩
    obtain rfl := chain.unique _ _ (sound.linked i bound)
    obtain ⟨size, found, rounds⟩ := (sound.booked.listed i p bound).mp listed
    exact ⟨size, found, by omega⟩
  · rintro ⟨size, found, small⟩
    obtain ⟨large, _⟩ := sound.booked.inside p _ found
    obtain ⟨⟨q, rounds⟩, _⟩ := alignSize_dvd size
    dsimp only [Loans.Event.size] at large
    refine ⟨q - 1, bins (q - 1), by omega, sound.linked _ (by omega), ?_⟩
    exact (sound.booked.listed _ p (by omega)).mpr ⟨size, found, by omega⟩

theorem blank (arena : Arena.Sound reservations w.manager w.metaArena.arena others)
    (heads : ∀ i, w.metaArena.freeListHead i = none) (calls : w.calls = []) :
    Sound reservations w others [] fun _ => [] := by
  have none (r : Range) : r ∉ liveRanges [] ∪ nodeRanges fun _ => [] := by
    rintro (⟨b, alive, _⟩ | ⟨i, p, _, listed, _⟩)
    · cases alive
    · cases listed
  refine ⟨arena, fun r member => (none r member).elim, fun r member => (none r member).elim,
    fun r member => (none r member).elim, ?_, List.nodup_nil, ?_, fun i _ => heads i, ?_, ?_⟩
  · exact Set.disjoint_left.mpr fun r member => ((none r) (.inl member)).elim
  · exact fun b alive => by cases alive
  · exact fun i p _ listed => by cases listed
  · rw [calls]
    refine ⟨.nil, ?_, ?_, ?_⟩
    · exact fun b => by simp [Loans.last]
    · exact fun i p _ => by simp [Loans.last]
    · exact fun p event found => by cases found

theorem construct_sound (reserves : Reserves reservations) (size : Nat)
    (rounds : size + pageSize - 1 < 2 ^ 64) (manager : PageManager) (memory : Memory)
    (ledger : PageManager.Ledger reservations manager others) (after : World Memory)
    (made : construct manager size memory = .ok after) :
    Sound reservations after others [] fun _ => [] := by
  unfold construct at made
  obtain ⟨⟨arena, grown⟩, new, rest⟩ := (Result.bind_ok _ _ _).mp made
  simp only [Except.ok.injEq] at rest
  subst rest
  exact .blank (Arena.construct_sound reserves size rounds ledger _ new) (fun _ => rfl) rfl

end Sound

end MetaArena

end ElySquare
