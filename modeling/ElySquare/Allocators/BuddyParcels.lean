import ElySquare.Shared.Parcels
import ElySquare.Shared.Simulation
import ElySquare.Allocators.BuddyCoverage

set_option autoImplicit false

namespace ElySquare.Buddy

open Dyadic Transition

-- What an act asks of the blocks; alloc passes where its guard refuses.
def Act.onParcels (s : Run Bytes) : Act → Parcels.Order
  | .call (.alloc size) => if size = 0 ∨ weCantPutIt size = true then .pass else .take (sizeToOrder size)
  | .call (.free ptr) => .give (blockOf s.allocator ptr)
  | .write _ _ _ => .pass

structure Leases {top : Nat} (s : Run Bytes) (f : Parcels top) : Prop where
  held : (s.live.map fun e => (e.ptr, sizeToOrder e.size)).Perm
    (f.live.toList.map fun b => (pointer s.allocator b, b.order))
  free : binBlocks s.allocator = f.gaps

namespace Related

variable {size : Nat} {s : Run Bytes} {p : Pool}

def parcels (related : Related 5 size s p) : Parcels (startOrder size) where
  live := p.live.toFinset
  aligned b member := related.consistent.tiling.aligned b (.inr (List.mem_toFinset.mp member))
  inside b member := related.consistent.tiling.inside b (.inr (List.mem_toFinset.mp member))
  apart b memberB c memberC := related.consistent.tiling.apart b (.inr (List.mem_toFinset.mp memberB)) c
    (.inr (List.mem_toFinset.mp memberC))

theorem mem_parcels (related : Related 5 size s p) (b : Dyadic.Block) :
    b ∈ related.parcels.live ↔ b ∈ p.live := List.mem_toFinset

theorem gaps_eq (bound : size < 2 ^ 64) (whole : Whole size) (related : Related 5 size s p) :
    p.free = related.parcels.gaps := by
  have live : (related.parcels.live : Set Dyadic.Block) = p.inUse := by
    ext b
    exact related.mem_parcels b
  have consistent := related.consistent
  have coalesced := related.coalesced
  rw [related.top, related.arena] at coalesced
  refine related.parcels.eq_gaps ?_ (coalesced (whole.startOrder_le bound)) ?_
  · rw [live]
    exact consistent.tiling
  · rw [live]
    exact consistent.separate

theorem leases (bound : size < 2 ^ 64) (whole : Whole size) (related : Related 5 size s p) :
    Leases s related.parcels where
  held := by
    rw [related.tracks]
    exact (List.toFinset_toList related.represents.liveNodup).symm.map _
  free := by rw [related.consistent.binBlocks_eq, related.gaps_eq bound whole]

end Related

section Steps

variable {size : Nat} {s t : Run Bytes} {p : Pool}

theorem parcels_alloc (bound : size < 2 ^ 64) (whole : Whole size) (request : Nat)
    (related : Related 5 size s p) (related' : Related 5 size t (p.alloc request).2) :
    Parcels.Step related.parcels (Act.onParcels s (.call (.alloc request))) related'.parcels := by
  have gaps := related.gaps_eq bound whole
  have valid := related.represents.valid
  simp only [Act.onParcels]
  rcases Pool.alloc_cases p request with ⟨none', why⟩ | ⟨offset, rest, f, accepted, fit, cells, cut⟩
  · have same : related'.parcels = related.parcels := by
      apply Parcels.ext
      change (p.alloc request).2.live.toFinset = p.live.toFinset
      rw [none']
    rw [same]
    by_cases refused : request = 0 ∨ weCantPutIt request = true
    · rw [if_pos refused]
      exact .pass _
    · rw [if_neg refused]
      refine .full _ _ fun r order clear => ?_
      obtain ⟨b, gap, large⟩ := (related.parcels.room_iff _).mpr ⟨r, order, clear⟩
      rw [← gaps] at gap
      have empty := why.resolve_left refused b.order large (valid.order_le b (.inl gap))
      have listed : b.offset ∈ p.bins b.order := gap
      rw [empty] at listed
      cases listed
  · obtain ⟨enough, _, _, before⟩ := (Pool.firstFit_some _ f).mp fit
    rw [if_neg accepted]
    refine .take _ _ _ ⟨offset, f⟩ ?_ enough ?_ ?_
    · rw [← gaps]
      change offset ∈ p.bins f
      rw [cells]
      exact List.mem_cons_self
    · intro c gap large
      rw [← gaps] at gap
      by_contra small
      have empty := before c.order large (Nat.lt_of_not_le small)
      have listed : c.offset ∈ p.bins c.order := gap
      rw [empty] at listed
      cases listed
    · change (p.alloc request).2.live.toFinset = insert _ p.live.toFinset
      rw [cut, List.toFinset_cons]

theorem parcels_free (related : Related 5 size s p) (b : Dyadic.Block) (member : b ∈ p.live)
    (related' : Related 5 size t (p.release b)) :
    Parcels.Step related.parcels (Act.onParcels s (.call (.free (pointer s.allocator b))))
      related'.parcels := by
  simp only [Act.onParcels]
  rw [blockOf_pointer s.allocator b (related.consistent.usedHeader b member).1]
  refine .give _ _ b ((related.mem_parcels b).mpr member) ?_
  obtain ⟨_, _, live⟩ := Pool.merge_fields (maxOrder - b.order)
    { p with live := p.live.filter (· ≠ b) } b
  change (p.release b).live.toFinset = p.live.toFinset.erase b
  rw [Pool.release, live]
  ext c
  simp [and_comm]

theorem parcels_simulate (chunkptr : Nat) (bound : size < 2 ^ 64) (whole : Whole size) :
    (writers chunkptr size).Simulates (Parcels.system (startOrder size))
      (fun s f => ∃ p, ∃ related : Related 5 size s p, f = related.parcels)
      (fun s act => act.onParcels s) where
  start := by
    rintro s ⟨memory, rfl⟩
    have related := related_start bytes_lawful (show linkedHeaderSize ≤ 2 ^ 5 by decide) (by decide)
      (by decide) chunkptr size memory
    exact ⟨related.parcels, rfl, _, related, rfl⟩
  step := by
    rintro s f act t ⟨p, related, rfl⟩ taken
    cases taken with
    | call t call notTiny taken =>
        cases taken with
        | alloc request =>
            have related' := related_alloc bytes_lawful (by decide) size s p request related notTiny.allowed
            exact ⟨_, parcels_alloc bound whole request related related', _, related', rfl⟩
        | free ptr alive =>
            obtain ⟨b, member, rfl⟩ := (related.tracks.ptr_mem ptr).mp alive
            have related' := related_free bytes_lawful (by decide) size s p b member related
            exact ⟨_, parcels_free related b member related', _, related', rfl⟩
    | write e i byte alive inside =>
        exact ⟨_, .pass _, p, related.writer e alive i byte inside, rfl⟩

end Steps

namespace Leases

variable {top : Nat} {s : Run Bytes} {f : Parcels top}

theorem sum_orders (leases : Leases s f) (weight : Nat → Nat) :
    (s.live.map fun e => weight (sizeToOrder e.size)).sum = ∑ b ∈ f.live, weight b.order := by
  have orders := leases.held.map fun pair => weight pair.2
  rw [List.map_map, List.map_map] at orders
  rw [← Finset.sum_map_toList]
  exact orders.sum_eq

theorem order_mem (leases : Leases s f) (k : Nat) :
    (∃ b ∈ f.live, b.order = k) ↔ ∃ e ∈ s.live, sizeToOrder e.size = k := by
  have orders := (leases.held.map Prod.snd).mem_iff (a := k)
  simp only [List.map_map, List.mem_map, Function.comp_apply, Finset.mem_toList] at orders
  exact orders.symm

end Leases

theorem buddy_parcels (chunkptr size : Nat) (bound : size < 2 ^ 64) (whole : Whole size)
    (s : Run Bytes) (reached : (writers chunkptr size).Reachable s) :
    ∃ f : Parcels (startOrder size), (Parcels.system (startOrder size)).Reachable f ∧ Leases s f ∧
      (∀ act t, WriterStep s act t → ∃ g, Parcels.Step f (act.onParcels s) g ∧ Leases t g) ∧
      ∀ request, 1 ≤ request → request ≤ 2 ^ maxOrder - headerSize → NotTiny s (.alloc request) →
        ((alloc s.allocator request).1 = none ↔ ∀ r, r.order = sizeToOrder request → ¬ f.Clear r) ∧
        (request ≤ 2 ^ startOrder size →
          ((alloc s.allocator request).1 = none →
            2 ^ startOrder size ≤
              (s.live.map fun e => 2 ^ max (sizeToOrder e.size) (sizeToOrder request)).sum) ∧
          ((∀ e ∈ s.live, sizeToOrder request ≤ sizeToOrder e.size) →
            ((alloc s.allocator request).1 = none ↔
              2 ^ startOrder size ≤ (s.live.map fun e => 2 ^ sizeToOrder e.size).sum))) := by
  have simulates := parcels_simulate chunkptr bound whole
  obtain ⟨f, made, p, related, rfl⟩ := simulates.reachable reached
  have leases := related.leases bound whole
  refine ⟨related.parcels, made, leases, fun act t taken => ?_, fun request positive fits notTiny => ?_⟩
  · obtain ⟨g, step, q, related', rfl⟩ := simulates.step s _ act t ⟨p, related, rfl⟩ taken
    exact ⟨_, step, related'.leases bound whole⟩
  have accepted : ¬ (request = 0 ∨ weCantPutIt request = true) := by
    rw [weCantPutIt_fits request fits]
    rintro (zero | refused)
    · omega
    · cases refused
  have null : (alloc s.allocator request).1 = none ↔
      ∀ r, r.order = sizeToOrder request → ¬ related.parcels.Clear r := by
    have room := alloc_some_iff bytes_lawful (by decide) related request notTiny.allowed accepted
    rw [leases.free, related.parcels.room_iff] at room
    rw [← not_iff_not, ← ne_eq, room]
    push Not
    rfl
  refine ⟨null, fun small => ?_⟩
  have order : sizeToOrder request ≤ startOrder size := by
    refine sizeToOrder_le_of_le request (startOrder size) ?_ small
    exact Nat.le_trans (by decide) (startOrder_ge size)
  refine ⟨fun failed => ?_, fun large => ?_⟩
  · rw [leases.sum_orders fun k => 2 ^ max k (sizeToOrder request)]
    exact related.parcels.crowded _ order (null.mp failed)
  · have space := related.parcels.room_iff_size (sizeToOrder request) order fun b alive => by
      obtain ⟨e, member, same⟩ := (leases.order_mem b.order).mp ⟨b, alive, rfl⟩
      exact same ▸ large e member
    rw [leases.sum_orders fun k => 2 ^ k, ← Nat.not_lt, ← space, null]
    push Not
    rfl

theorem buddy_parcels_hundred : ∃ f : Parcels (startOrder 4096),
    (Parcels.system (startOrder 4096)).Reachable f ∧ Leases (poolAfter 100) f ∧
      (alloc (poolAfter 100).allocator 2000).1 ≠ none := by
  have step := Run.Step.alloc ⟨freshPool, []⟩ 100
  have result : (alloc freshPool 100).1 = some 4112 := by decide +kernel
  rw [result] at step
  have reached : (writers 4096 4096).Reachable (poolAfter 100) :=
    .step (.start ⟨_, rfl⟩) (.call _ _ (.alloc 100) (.inl (by decide)) step)
  obtain ⟨f, made, leases, _, sizes⟩ := buddy_parcels 4096 4096 (by decide) (.inl ⟨0, by decide⟩)
    (poolAfter 100) reached
  refine ⟨f, made, leases, fun failed => ?_⟩
  have filled := ((sizes 2000 (by decide) (by decide) (.inl (by decide))).2 (by decide +kernel)).1 failed
  exact absurd filled (by decide +kernel)

end ElySquare.Buddy
