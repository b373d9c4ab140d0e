import ElySquare.Platform.AddressSpace
import ElySquare.Allocators.PageProtection

set_option autoImplicit false

namespace ElySquare.PageManager

open Transition

-- The loop of ~PageManager: each segment's region goes back. `granted` answers the calls of munmap
-- from the `k`-th on; the results of releaseReservedPages are not looked at.
def releaseSegments (granted : Nat → Bool) : Nat → List CageSegment → AddressSpace → AddressSpace
  | _, [], space => space
  | k, segment :: rest, space =>
    releaseSegments granted (k + 1) rest
      (space.releaseReservedPages (granted k) segment.baseAddress memoryChunkSize).2

def destroy (manager : PageManager) (granted : Nat → Bool) (space : AddressSpace) : AddressSpace :=
  releaseSegments granted 0 manager.segments space

def OsCall.reserved : OsCall → Option Nat
  | .reserve address _ => some address
  | _ => none

def reserved (log : List OsCall) : List Nat := log.filterMap OsCall.reserved

def InRegion (log : List OsCall) (address pages : Nat) : Prop :=
  ∃ base ∈ reserved log, base ≤ address ∧ address + pages * pageSize ≤ base + memoryChunkSize

inductive Confined : List OsCall → Prop
  | nil : Confined []
  | reserve (start : Nat) {log : List OsCall} (earlier : Confined log) :
      Confined (.reserve start memoryChunkSize :: log)
  | store (address bytes : Nat) {log : List OsCall} (earlier : Confined log) :
      Confined (.store address bytes :: log)
  | commit (address pages : Nat) {log : List OsCall} (earlier : Confined log)
      (inside : InRegion log address pages) : Confined (.commit address (pages * pageSize) :: log)
  | decommit (address pages : Nat) {log : List OsCall} (earlier : Confined log)
      (inside : InRegion log address pages) : Confined (.decommit address (pages * pageSize) :: log)

section Effects

variable (space : AddressSpace) (granted : Nat → Bool) {log : List OsCall}

theorem InRegion.covers {address pages page : Nat} (inside : InRegion log address pages)
    (covered : Covers address (getClosestTo4 (pages * pageSize)) page) :
    ∃ base ∈ reserved log, Covers base memoryChunkSize page := by
  obtain ⟨base, listed, above, below⟩ := inside
  have few : pages < 2 ^ 51 := by
    unfold memoryChunkSize pageSize at below
    omega
  rw [getClosestTo4_pages pages few] at covered
  refine ⟨base, listed, by decide, ?_, ?_⟩
  · exact (Nat.div_le_div_right above).trans covered.2.1
  · have := covered.2.2
    omega

theorem whole_segment : getClosestTo4 memoryChunkSize = memoryChunkSize :=
  getClosestTo4_pages cagePagesCount (by decide)

theorem Confined.mapped_iff (confined : Confined log) (page : Nat) :
    (space.after granted log).mapped page = true ↔
      space.mapped page = true ∨ ∃ base ∈ reserved log, Covers base memoryChunkSize page := by
  induction confined with
  | nil => simp [AddressSpace.after, reserved]
  | reserve start _ ih =>
      have nonempty : memoryChunkSize ≠ 0 := by decide
      simp only [AddressSpace.after, AddressSpace.perform, AddressSpace.reservePages, if_neg nonempty,
        AddressSpace.map, whole_segment, Bool.or_eq_true, decide_eq_true_eq, ih]
      simp only [reserved, List.filterMap_cons, OsCall.reserved, List.mem_cons, exists_eq_or_imp]
      exact or_left_comm
  | store address bytes _ ih => exact ih
  | commit address pages _ _ ih => exact ih
  | decommit address pages _ _ ih => exact ih

theorem Confined.foreign_kept (confined : Confined log) (page : Nat)
    (foreign : ∀ base ∈ reserved log, ¬ Covers base memoryChunkSize page) :
    (space.after granted log).os.protection page = space.os.protection page := by
  rw [AddressSpace.after_os]
  induction confined with
  | nil => rfl
  | reserve start _ ih =>
      obtain ⟨here, rest⟩ := List.forall_mem_cons.mp foreign
      rw [← ih rest, Os.after, Os.perform, Os.reservePages, if_neg (by decide)]
      exact protect_there _ _ _ _ _ (whole_segment ▸ here)
  | store address bytes _ ih => exact ih foreign
  | commit address pages _ inside ih =>
      rw [← ih foreign, Os.after, Os.perform, Os.commitPages]
      split
      · rfl
      · split
        · rfl
        · split
          · refine protect_there _ _ _ _ _ fun covered => ?_
            obtain ⟨base, listed, also⟩ := inside.covers covered
            exact foreign base listed also
          · rfl
  | decommit address pages _ inside ih =>
      rw [← ih foreign, Os.after, Os.perform, Os.decommitPages]
      split
      · rfl
      · split
        · rfl
        · split
          · refine protect_there _ _ _ _ _ fun covered => ?_
            obtain ⟨base, listed, also⟩ := inside.covers covered
            exact foreign base listed also
          · rfl

theorem releaseSegments_mapped (segments : List CageSegment)
    (mapped : ∀ segment ∈ segments, segment.baseAddress ≠ 0) (k page : Nat) :
    (releaseSegments granted k segments space).mapped page = true ↔
      space.mapped page = true ∧ ∀ i segment, segments[i]? = some segment →
        Covers segment.baseAddress memoryChunkSize page → granted (k + i) = false := by
  induction segments generalizing k space with
  | nil => simp [releaseSegments]
  | cons segment rest ih =>
      obtain ⟨nonzero, mapped⟩ := List.forall_mem_cons.mp mapped
      have one : (space.releaseReservedPages (granted k) segment.baseAddress
          memoryChunkSize).2.mapped page = true ↔ space.mapped page = true ∧
            (Covers segment.baseAddress memoryChunkSize page → granted k = false) := by
        unfold AddressSpace.releaseReservedPages
        rw [if_neg nonzero, if_neg (by decide)]
        cases granted k with
        | true => simp [AddressSpace.unmap, whole_segment, and_comm]
        | false => simp
      rw [releaseSegments, ih _ mapped, one, and_assoc, and_congr_right_iff]
      intro _
      constructor
      · rintro ⟨first, others⟩ i other found covered
        cases i with
        | zero =>
            obtain rfl := Option.some.inj found
            exact first covered
        | succ i =>
            rw [Nat.add_comm i 1, ← Nat.add_assoc]
            exact others i other found covered
      · intro all
        refine ⟨fun covered => all 0 segment rfl covered, fun i other found covered => ?_⟩
        have := all (i + 1) other found covered
        rwa [Nat.add_comm i 1, ← Nat.add_assoc] at this

theorem releaseSegments_foreign (segments : List CageSegment) (k page : Nat)
    (foreign : ∀ segment ∈ segments, ¬ Covers segment.baseAddress memoryChunkSize page) :
    (releaseSegments granted k segments space).os.protection page = space.os.protection page := by
  induction segments generalizing k space with
  | nil => rfl
  | cons segment rest ih =>
      obtain ⟨here, others⟩ := List.forall_mem_cons.mp foreign
      rw [releaseSegments, ih _ _ others]
      unfold AddressSpace.releaseReservedPages
      split
      · rfl
      · split
        · rfl
        · split
          · exact protect_there _ _ _ _ _ (whole_segment ▸ here)
          · rfl

end Effects

structure Regioned (manager : PageManager) : Prop where
  bases : reserved manager.osCalls = (manager.segments.map CageSegment.baseAddress).reverse
  confined : Confined manager.osCalls

section Steps

variable {reservations : Nat → Option Nat} {manager : PageManager} {live : List Chunk}

theorem bases_modify (segments : List CageSegment) (k : Nat) (change : CageSegment → CageSegment)
    (same : ∀ segment, (change segment).baseAddress = segment.baseAddress) :
    (segments.modify k change).map CageSegment.baseAddress =
      segments.map CageSegment.baseAddress := by
  induction segments generalizing k with
  | nil => cases k <;> rfl
  | cons segment rest ih => cases k <;> simp [same, ih]

theorem Regioned.inRegion (regioned : Regioned manager) (segment : CageSegment)
    (bases : segment.baseAddress ∈ manager.segments.map CageSegment.baseAddress) (c : Chunk)
    (placed : Placed segment c) : InRegion manager.osCalls c.ptr c.pages := by
  refine ⟨segment.baseAddress, ?_, placed.within.1, placed.within.2⟩
  rw [regioned.bases]
  exact List.mem_reverse.mpr bases

theorem newSegment_regioned (regioned : Regioned manager) (after : PageManager)
    (made : newSegment manager = .ok after) : Regioned after := by
  obtain ⟨start, _, calls, segments⟩ := newSegment_log manager after made
  refine ⟨?_, ?_⟩
  · rw [calls, segments, List.map_append, List.reverse_append, ← regioned.bases]
    rfl
  · rw [calls]
    exact .store _ _ (.reserve start regioned.confined)

theorem request_regioned (regions : Regions reservations) (ledger : Ledger reservations manager live)
    (regioned : Regioned manager) (fuel pageCount ptr : Nat) (after : PageManager)
    (made : requestPageChunk fuel manager pageCount = .ok (some ptr, after)) : Regioned after := by
  induction fuel generalizing manager with
  | zero => simp [requestPageChunk] at made
  | succ fuel ih =>
      have ledger' := (ledger.request_ledger regions _ _ _ _ made).1
      rcases request_cases made with ⟨_, none, _⟩ | ⟨_, k, start, _, found, rfl⟩ | ⟨_, grown, new, again⟩
      · cases none
      · have bases : (commitAndReturn manager pageCount k start).2.segments.map CageSegment.baseAddress =
            manager.segments.map CageSegment.baseAddress := bases_modify _ _ _ fun _ => rfl
        obtain ⟨segment, member, placed⟩ := ledger'.placed _ List.mem_cons_self
        have listed := bases ▸ List.mem_map_of_mem (f := CageSegment.baseAddress) member
        have inside := regioned.inRegion segment listed _ placed
        cases found
        exact ⟨regioned.bases.trans (congrArg List.reverse bases.symm),
          .commit _ pageCount regioned.confined inside⟩
      · exact ih (Ledger.newSegment_ledger regions ledger grown new).1
          (newSegment_regioned regioned grown new) again

theorem release_regioned (ledger : Ledger reservations manager live) (regioned : Regioned manager)
    (c : Chunk) (alive : c ∈ live) (after : PageManager)
    (made : releasePageChunk manager c.ptr c.pages = .ok after) : Regioned after := by
  have calls := release_log manager c.ptr c.pages after made
  obtain ⟨segment, member, placed⟩ := ledger.placed c alive
  have inside := regioned.inRegion segment (List.mem_map_of_mem member) c placed
  have bases : after.segments.map CageSegment.baseAddress =
      manager.segments.map CageSegment.baseAddress := by
    unfold releasePageChunk at made
    split at made
    · cases made
    · cases made
      exact bases_modify _ _ _ fun _ => rfl
  refine ⟨?_, ?_⟩
  · rw [calls, bases]
    exact regioned.bases
  · rw [calls]
    exact .decommit _ _ regioned.confined inside

theorem regioned_of_reachable (reserves : Reserves reservations) (s : Run)
    (reached : (system reservations).Reachable s) :
    Ledger reservations s.manager s.live ∧ Regioned s.manager := by
  refine System.invariant _ (fun s => Ledger reservations s.manager s.live ∧ Regioned s.manager) ?_ ?_
    reached
  · rintro s ⟨manager, made, rfl⟩
    have blank : Regioned ⟨[], 0, reservations, []⟩ := ⟨rfl, .nil⟩
    exact ⟨Ledger.construct_ledger reserves.regions manager made,
      newSegment_regioned blank manager made⟩
  · rintro s call t ⟨ledger, regioned⟩ taken
    cases taken with
    | request n fuel ptr manager positive bound made =>
        exact ⟨(ledger.request_ledger reserves.regions fuel n ptr manager made).1,
          request_regioned reserves.regions ledger regioned fuel n ptr manager made⟩
    | release c manager alive made =>
        obtain ⟨after, done, ledger', _⟩ := ledger.release_spec reserves.regions c alive
        rw [made] at done
        cases done
        exact ⟨ledger', release_regioned ledger regioned c alive manager made⟩

end Steps

def Reserved (manager : PageManager) (page : Nat) : Prop :=
  ∃ segment ∈ manager.segments, Covers segment.baseAddress memoryChunkSize page

theorem holds_of_covers {segment : CageSegment} {page : Nat} (aligned : pageSize ∣ segment.baseAddress)
    (covered : Covers segment.baseAddress memoryChunkSize page) : Holds segment (page * pageSize) := by
  have pages : memoryChunkSize = cagePagesCount * pageSize := by decide
  rw [pages, covers_pages _ _ _ aligned, ← pages] at covered
  exact covered

theorem Regioned.reserved_iff {manager : PageManager} (regioned : Regioned manager) (page : Nat) :
    (∃ base ∈ reserved manager.osCalls, Covers base memoryChunkSize page) ↔ Reserved manager page := by
  rw [regioned.bases]
  constructor
  · rintro ⟨base, listed, covered⟩
    obtain ⟨segment, member, rfl⟩ := List.mem_map.mp (List.mem_reverse.mp listed)
    exact ⟨segment, member, covered⟩
  · rintro ⟨segment, member, covered⟩
    exact ⟨_, List.mem_reverse.mpr (List.mem_map_of_mem member), covered⟩

theorem manager_lifetime (space : AddressSpace) (commits releases : Nat → Bool)
    {reservations : Nat → Option Nat} (reserves : Reserves reservations)
    (vacant : ∀ k base, reservations k = some base → ∀ page, Covers base memoryChunkSize page →
      space.mapped page = false)
    (s : Run) (reached : (system reservations).Reachable s) :
    (reserved s.manager.osCalls).reverse = s.manager.segments.map CageSegment.baseAddress ∧
    (∀ page, (space.after commits s.manager.osCalls).mapped page = true ↔
      space.mapped page = true ∨ Reserved s.manager page) ∧
    (∀ page, (destroy s.manager releases (space.after commits s.manager.osCalls)).mapped page = true ↔
      space.mapped page = true ∨ ∃ k segment, s.manager.segments[k]? = some segment ∧
        releases k = false ∧ Covers segment.baseAddress memoryChunkSize page) ∧
    ∀ page, space.mapped page = true →
      (space.after commits s.manager.osCalls).os.protection page = space.os.protection page ∧
      (destroy s.manager releases (space.after commits s.manager.osCalls)).os.protection page =
        space.os.protection page := by
  obtain ⟨ledger, regioned⟩ := regioned_of_reachable reserves s reached
  have mapped (page : Nat) : (space.after commits s.manager.osCalls).mapped page = true ↔
      space.mapped page = true ∨ Reserved s.manager page := by
    rw [regioned.confined.mapped_iff space commits page, regioned.reserved_iff]
  have placed (segment : CageSegment) (member : segment ∈ s.manager.segments) :
      ∃ k, s.manager.segments[k]? = some segment ∧ reservations k = some segment.baseAddress := by
    obtain ⟨k, found⟩ := List.getElem?_of_mem member
    exact ⟨k, found, ledger.bases k segment found⟩
  have foreign (page : Nat) (taken : space.mapped page = true) : ¬ Reserved s.manager page := by
    rintro ⟨segment, member, covered⟩
    obtain ⟨k, _, answer⟩ := placed segment member
    rw [vacant k _ answer page covered] at taken
    cases taken
  refine ⟨by rw [regioned.bases, List.reverse_reverse], mapped, fun page => ?_, fun page taken => ?_⟩
  · unfold destroy
    rw [releaseSegments_mapped _ releases _ fun segment member => ?_, mapped]
    · simp only [Nat.zero_add]
      constructor
      · rintro ⟨old | ⟨segment, member, covered⟩, failed⟩
        · exact .inl old
        · obtain ⟨k, found, _⟩ := placed segment member
          exact .inr ⟨k, segment, found, failed k segment found covered, covered⟩
      · rintro (old | ⟨k, segment, found, failed, covered⟩)
        · exact ⟨.inl old, fun k segment found covered =>
            (foreign page old ⟨segment, List.mem_of_getElem? found, covered⟩).elim⟩
        · refine ⟨.inr ⟨segment, List.mem_of_getElem? found, covered⟩, fun j other found' covered' => ?_⟩
          -- the regions are disjoint, so the page is in no other one
          have same : j = k := by
            refine ledger.region_eq reserves.regions j k other segment found' found (page * pageSize) ?_ ?_
            · exact holds_of_covers (reserves.aligned _ _ (ledger.bases j other found')) covered'
            · exact holds_of_covers (reserves.aligned _ _ (ledger.bases k segment found)) covered
          exact same ▸ failed
    · obtain ⟨k, _, answer⟩ := placed segment member
      exact Nat.ne_of_gt (reserves.mapped k _ answer).1
  · have away := foreign page taken
    have kept := regioned.confined.foreign_kept space commits page fun base listed covered =>
      away ((regioned.reserved_iff page).mp ⟨base, listed, covered⟩)
    refine ⟨kept, Eq.trans ?_ kept⟩
    exact releaseSegments_foreign _ releases _ _ page fun segment member covered =>
      away ⟨segment, member, covered⟩

theorem manager_lifetime_row : ∃ s, (system rowOfRegions).Reachable s ∧ s.live ≠ [] ∧ ∀ page,
    (destroy s.manager (fun _ => true) (AddressSpace.after ⟨⟨fun _ => .readWrite⟩, fun page => page = 0⟩
      (fun _ => true) s.manager.osCalls)).mapped page = true ↔ page = 0 := by
  obtain ⟨s, t, reached, taken, live, _⟩ := page_requested
  have reached' : (system rowOfRegions).Reachable t := reached.step taken
  refine ⟨t, reached', by simp [live], fun page => ?_⟩
  obtain ⟨_, _, left, _⟩ := manager_lifetime ⟨⟨fun _ => .readWrite⟩, fun page => page = 0⟩
    (fun _ => true) (fun _ => true) rowOfRegions_reserves (fun k base answer page covered => by
      obtain ⟨rfl, _⟩ := rowOfRegions_eq k base answer
      unfold Covers memoryChunkSize pageSize at covered
      simp only [decide_eq_false_iff_not]
      omega) t reached'
  rw [left page]
  simp

end ElySquare.PageManager
