import ElySquare.Shared.Peak
import ElySquare.Meta.MetaArenaHeap

set_option autoImplicit false

namespace ElySquare

namespace MetaArena

open Transition

section Carving

variable {Memory : Type} [LinkStore Memory] {reservations : Nat → Option Nat} {w : World Memory}
  {others : List PageManager.Chunk} {live : List Block} {bins : Nat → List Nat}

theorem Sound.bump_new (reserves : Reserves reservations) (sound : Sound reservations w others live bins)
    (size k : Nat) (small : size < 2 ^ 63) (fine : k ≤ 4) (ptr : Nat) (after : World Memory)
    (made : bump w size (2 ^ k) = .ok (ptr, after)) : Loans.last w.calls ptr = none := by
  obtain ⟨quantum, large, _, bound⟩ := alignSize_bounds size small
  obtain ⟨⟨node, arena, manager⟩, given, rest⟩ := (Result.bind_ok _ _ _).mp made
  cases rest
  obtain ⟨_, _, _, _, grown⟩ := Arena.alloc_spec reserves sound.arena _ k bound quantum fine _ _ _ given
  by_contra before
  obtain ⟨event, found⟩ := Option.ne_none_iff_exists'.mp before
  obtain ⟨least, old⟩ := sound.booked.inside _ event found
  have apart := (grown _ old).2
  unfold Range.Apart Range.finish at apart
  dsimp only at apart
  omega

theorem Sound.cached_known (sound : Sound reservations w others live bins) (size node : Nat)
    (taken : cached w size = some node) : Loans.last w.calls node ≠ none := by
  unfold cached at taken
  split at taken
  next inside =>
    obtain ⟨rest, cells, _⟩ := sound.head_listed _ node inside taken
    obtain ⟨old, past, _⟩ :=
      (sound.booked.listed _ node inside).mp (cells ▸ List.mem_cons_self)
    rw [past]
    exact Option.some_ne_none _
  next => cases taken

theorem Sound.all_out (sound : Sound reservations w others live bins) (i : Nat) (inside : i < numBuckets)
    (empty : w.metaArena.freeListHead i = none) (p : Nat)
    (given : p ∈ Loans.keys alignSize (16 * (i + 1)) w.calls) : Loans.isOut w.calls p = true := by
  obtain ⟨size, listed, same⟩ := (Loans.mem_keys p).mp given
  obtain ⟨newest, found, rounds⟩ := sound.booked.legal.same_class _ listed
  have here := Loans.last_key found
  cases newest with
  | lent q old =>
      obtain rfl : q = p := here
      exact (Loans.isOut_iff q).mpr ⟨old, found⟩
  | returned q old =>
      obtain rfl : q = p := here
      have node := (sound.booked.listed i q inside).mpr ⟨old, found, rounds.trans same⟩
      have head := (sound.linked i inside).head_eq
      rw [empty] at head
      rw [List.head?_eq_none_iff.mp head.symm] at node
      cases node

structure Thrifty (calls : List (Loans.Event Nat Nat)) : Prop where
  frugal : ∀ i, i < numBuckets → Loans.Frugal alignSize (16 * (i + 1)) calls
  spent : ∀ c, 16 * numBuckets < c → Loans.Spent alignSize c calls

theorem Thrifty.nil : Thrifty [] := ⟨fun _ _ => .nil, fun _ _ => .nil⟩

theorem Thrifty.returned {calls : List (Loans.Event Nat Nat)} (thrifty : Thrifty calls) (ptr size : Nat) :
    Thrifty (.returned ptr size :: calls) :=
  ⟨fun i inside => .cons _ _ (thrifty.frugal i inside) fun _ _ differs => (by cases differs),
    fun c large => .cons _ _ (thrifty.spent c large) fun _ _ differs => (by cases differs)⟩

theorem Sound.metalloc_thrifty (reserves : Reserves reservations)
    (sound : Sound reservations w others live bins) (size k : Nat) (small : size < 2 ^ 63)
    (fine : k ≤ 4) (ptr : Nat) (after : World Memory)
    (made : metalloc w size (2 ^ k) = .ok (ptr, after)) (thrifty : Thrifty w.calls) :
    Thrifty after.calls := by
  rw [(metalloc_kept w size _ ptr after made).2]
  refine ⟨fun i inside => .cons _ _ (thrifty.frugal i inside) fun key size' same rounds new => ?_,
    fun c large => .cons _ _ (thrifty.spent c large) fun key size' same rounds => ?_⟩
  · cases same
    have index := (getBucketIndex_iff size small i).mpr rounds
    cases taken : cached w size with
    | some node =>
        obtain ⟨_, _, gives⟩ := metalloc_cached w size (2 ^ k) node taken
        rw [gives] at made
        obtain ⟨_, _, rest⟩ := (Result.bind_ok _ _ _).mp made
        cases rest
        exact (sound.cached_known size ptr taken new).elim
    | none =>
        unfold cached at taken
        rw [index, if_pos inside] at taken
        exact sound.all_out i inside taken
  · cases same
    have beyond : cached w size = none := by
      refine if_neg fun inside => ?_
      have index := (getBucketIndex_iff size small _).mp rfl
      omega
    rw [metalloc_bumped w size _ beyond] at made
    exact sound.bump_new reserves size k small fine ptr after made

theorem Sound.outs_card (sound : Sound reservations w others live bins) (c : Nat) :
    (Loans.outs alignSize c w.calls).card = (live.filter fun b => alignSize b.size = c).length := by
  have once : ((live.filter fun b => alignSize b.size = c).map Block.ptr).Nodup :=
    sound.distinct.sublist (List.filter_sublist.map _)
  rw [← List.length_map (f := Block.ptr), ← List.toFinset_card_of_nodup once]
  congr 1
  ext p
  rw [Loans.mem_outs, Loans.mem_keys, List.mem_toFinset, List.mem_map]
  constructor
  · rintro ⟨⟨size, listed, same⟩, old, out⟩
    obtain ⟨newest, found, rounds⟩ := sound.booked.legal.same_class _ listed
    obtain rfl := Option.some.inj (found.symm.trans out)
    have alive := (sound.booked.inUse ⟨p, old⟩).mpr out
    exact ⟨⟨p, old⟩, List.mem_filter.mpr ⟨alive, decide_eq_true (rounds.trans same)⟩, rfl⟩
  · rintro ⟨b, listed, rfl⟩
    obtain ⟨alive, same⟩ := List.mem_filter.mp listed
    have out := (sound.booked.inUse b).mp alive
    exact ⟨⟨b.size, List.mem_of_find?_eq_some out, of_decide_eq_true same⟩, b.size, out⟩

end Carving

section Reachable

variable {reservations : Nat → Option Nat} {size : Nat}

theorem thrifty_of_reachable (reserves : Reserves reservations) (rounds : size + pageSize - 1 < 2 ^ 64)
    (s : Run) (reached : (system reservations size).Reachable s) :
    Held reservations s ∧ Thrifty s.world.calls := by
  refine System.invariant _ (fun s => Held reservations s ∧ Thrifty s.world.calls) ?_ ?_ reached
  · intro s started
    refine ⟨held_start reserves rounds s started, ?_⟩
    obtain ⟨pages, memory, world, _, made, rfl⟩ := started
    obtain ⟨_, _, rest⟩ := (Result.bind_ok _ _ _).mp made
    cases rest
    exact .nil
  · rintro s call t ⟨held, thrifty⟩ taken
    refine ⟨held_step reserves s t call held taken, ?_⟩
    obtain ⟨bins, sound, _⟩ := held
    cases taken with
    | metalloc size k ptr world small fine made =>
        exact sound.metalloc_thrifty reserves size k small fine ptr world made thrifty
    | metarecycle b size alive same =>
        rw [(metarecycle_kept s.world b.ptr size).2]
        exact thrifty.returned b.ptr size
    | write => exact thrifty
    | request => exact thrifty
    | release => exact thrifty

theorem footprint_is_peak (reserves : Reserves reservations) (rounds : size + pageSize - 1 < 2 ^ 64)
    (s : Run) (reached : (system reservations size).Reachable s) :
    (∀ c, (Loans.outs alignSize c s.world.calls).card =
      (s.live.filter fun b => alignSize b.size = c).length) ∧
    (∀ i, i < numBuckets → (Loans.keys alignSize (16 * (i + 1)) s.world.calls).card =
      Loans.peak alignSize (16 * (i + 1)) s.world.calls) ∧
    ∀ c, 16 * numBuckets < c → (Loans.keys alignSize c s.world.calls).card =
      Loans.lentOf alignSize c s.world.calls := by
  obtain ⟨⟨bins, sound, _⟩, thrifty⟩ := thrifty_of_reachable reserves rounds s reached
  exact ⟨sound.outs_card, fun i inside => (thrifty.frugal i inside).card_keys sound.booked.legal,
    fun c large => (thrifty.spent c large).card_keys⟩

end Reachable

theorem footprint_of_reuse : ∃ s, (system PageManager.rowOfRegions pageSize).Reachable s ∧
    Loans.lentCount s.world.calls = 2 ∧
    (Loans.keys alignSize (16 * (0 + 1)) s.world.calls).card =
      Loans.peak alignSize (16 * (0 + 1)) s.world.calls := by
  obtain ⟨s, back, _, world, again, calls⟩ := onePage_recycled
  have reached := back.step (.metalloc _ 16 4 _ _ (by decide) (by decide) again)
  exact ⟨_, reached, calls,
    (footprint_is_peak rowOfRegions_reserves (by decide) _ reached).2.1 0 (by decide)⟩

end MetaArena

end ElySquare
