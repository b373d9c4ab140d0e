import ElySquare.Allocators.BuddyBytes
import ElySquare.Allocators.Lifetimes
import ElySquare.Meta.MetaArenaHeap

set_option autoImplicit false

namespace ElySquare.Lifetimes

open Transition
open PageManager (Exchange Ledger requested released)

variable {Blocks Headers : Type} {reservations : Nat → Option Nat} {manager : PageManager}

def Marked (manager : PageManager) (c : PageManager.Chunk) : Prop :=
  ∃ segment ∈ manager.segments, PageManager.Placed segment c ∧
    ∀ idx, idx < cagePagesCount → c.Owns (segment.baseAddress + idx * pageSize) →
      PageManager.pageBit segment.bitmap idx = true

theorem marked_of_ledger {live : List PageManager.Chunk} (ledger : Ledger reservations manager live)
    (c : PageManager.Chunk) (alive : c ∈ live) : Marked manager c := by
  obtain ⟨segment, member, placed⟩ := ledger.placed c alive
  exact ⟨segment, member, placed, fun idx small owner =>
    (ledger.bits segment member idx small).mpr ⟨c, alive, owner⟩⟩

/-- A chunk that an object has obtained is its own until it is released, just once, and nothing that others
release is part of it. -/
structure Proper (s : Program Blocks Headers) : Prop where
  once : ∀ a ∈ s.accounts, (a.returned ++ a.owned).Perm a.obtained
  marked : ∀ a ∈ s.accounts, ∀ c ∈ a.owned, Marked s.manager c

namespace Object

structure Held (reservations : Nat → Option Nat) (manager : PageManager)
    (object : Object Blocks Headers) (others : List PageManager.Chunk) : Prop where
  ledger : Ledger reservations manager (object.chunks ++ others)
  last : ∀ a, object = .arena a → a.current + 1 = a.chunks.length

variable {object object' : Object Blocks Headers} {others : List PageManager.Chunk}

theorem Held.owner {a : Arena}
    (held : Held reservations manager (.arena a : Object Blocks Headers) others) :
    Arena.Owner reservations manager a others := ⟨held.ledger, held.last a rfl⟩

theorem held_arena {a : Arena} (owner : Arena.Owner reservations manager a others) :
    Held reservations manager (.arena a : Object Blocks Headers) others := by
  refine ⟨owner.ledger, fun b same => ?_⟩
  cases same
  exact owner.last

theorem destroy_held (reserves : Reserves reservations)
    (held : Held reservations manager object others) (after : PageManager)
    (made : object.destroy manager = .ok after) :
    Ledger reservations after others ∧ Exchange manager after object.chunks [] := by
  have release (c : PageManager.Chunk) (chunks : object.chunks = [c])
      (released : manager.releasePageChunk c.ptr c.pages = .ok after) :
      Ledger reservations after others ∧ Exchange manager after object.chunks [] := by
    have ledger := held.ledger
    rw [chunks] at ledger ⊢
    obtain ⟨_, made', ledger', _⟩ := ledger.release_spec reserves.regions c List.mem_cons_self
    cases released.symm.trans made'
    rw [List.cons_append, List.erase_cons_head] at ledger'
    exact ⟨ledger', PageManager.release_exchange manager c after released⟩
  cases object with
  | arena a => exact held.owner.destroy reserves after made
  | block b => exact release ⟨b.chunk, b.pagesCount⟩ rfl made
  | buddy a => exact release ⟨a.base, a.pages⟩ rfl made
  | tlab t => exact release ⟨t.allocator.base, t.allocator.pages⟩ rfl made

variable [LinkStore Blocks] [Buddy.HeaderStore Headers]

theorem construct_held (reserves : Reserves reservations) (ledger : Ledger reservations manager others)
    (after : PageManager) (made : object.Constructs manager after) :
    Held reservations after object others ∧ Exchange manager after [] object.chunks := by
  have request (pages ptr : Nat)
      (granted : manager.requestPageChunk Arena.requestRounds pages = .ok (some ptr, after)) :=
    (ledger.request_ledger reserves.regions _ pages ptr after granted).1
  cases made with
  | arena size a _ made =>
      obtain ⟨owner, exchange⟩ := Arena.Owner.construct reserves ledger size after made
      exact ⟨held_arena owner, exchange⟩
  | block memory elemSize blocksCount align b _ made =>
      have granted := BlockAllocator.construct_spec _ _ _ _ _ b after made
      exact ⟨⟨request _ _ granted, nofun⟩, PageManager.request_exchange _ _ _ _ _ granted⟩
  | buddy memory size a _ made =>
      have granted := Buddy.create_spec _ _ _ a after made
      exact ⟨⟨request _ _ granted, nofun⟩, PageManager.request_exchange _ _ _ _ _ granted⟩
  | tlab memory capacityBytes t _ made =>
      have granted := TLAB.construct_spec _ _ _ t after made
      exact ⟨⟨request _ _ granted, nofun⟩, PageManager.request_exchange _ _ _ _ _ granted⟩

theorem uses_cases (after : PageManager) (used : object.Uses manager object' after) :
    (∃ a, object = .arena a) ∨
    (after = manager ∧ object'.chunks = object.chunks ∧ (object.IsTLAB ↔ object'.IsTLAB) ∧
      ∀ a, object' ≠ .arena a) := by
  have single {ptr pages ptr' pages' : Nat} (same : ptr' = ptr ∧ pages' = pages) :
      [(⟨ptr', pages'⟩ : PageManager.Chunk)] = [⟨ptr, pages⟩] := by rw [same.1, same.2]
  cases used with
  | arenaAlloc a | arenaPopToMarker a | arenaClear a => exact .inl ⟨a, rfl⟩
  | blockUncheckedAlloc b b' ptr made =>
      exact .inr ⟨rfl, single (b.uncheckedAlloc_chunk b' ptr made), Iff.rfl, nofun⟩
  | blockAlloc b b' size ptr made =>
      exact .inr ⟨rfl, single (b.alloc_chunk b' size ptr made), Iff.rfl, nofun⟩
  | blockFree b ptr => exact .inr ⟨rfl, single (b.free_chunk ptr), Iff.rfl, nofun⟩
  | buddyAlloc a size => exact .inr ⟨rfl, single (Buddy.alloc_base_pages a size), Iff.rfl, nofun⟩
  | buddyFree a ptr => exact .inr ⟨rfl, single (Buddy.free_base_pages a ptr), Iff.rfl, nofun⟩
  | tlabAlloc t size =>
      exact .inr ⟨rfl, single (Buddy.alloc_base_pages t.allocator size), Iff.rfl, nofun⟩
  | tlabFree t ptr =>
      exact .inr ⟨rfl, single (Buddy.free_base_pages t.allocator ptr), Iff.rfl, nofun⟩

theorem uses_held (reserves : Reserves reservations) (held : Held reservations manager object others)
    (after : PageManager) (used : object.Uses manager object' after) :
    Held reservations after object' others ∧ Exchange manager after object.chunks object'.chunks := by
  obtain ⟨a, rfl⟩ | ⟨rfl, same, _, other⟩ := uses_cases after used
  · cases used with
    | arenaAlloc _ a' bytes alignment ptr _ made =>
        obtain ⟨owner, exchange⟩ := held.owner.alloc reserves bytes alignment ptr a' after made
        exact ⟨held_arena owner, exchange⟩
    | arenaPopToMarker _ a' marker _ made =>
        obtain ⟨owner, exchange⟩ := held.owner.popToMarker reserves marker a' after made
        exact ⟨held_arena owner, exchange⟩
    | arenaClear _ a' _ made =>
        obtain ⟨owner, exchange⟩ := held.owner.clear reserves a' after made
        exact ⟨held_arena owner, exchange⟩
  · rw [same]
    refine ⟨⟨?_, fun a is => (other a is).elim⟩, .perm _ (.refl _)⟩
    rw [same]
    exact held.ledger

end Object

namespace Account

theorem owned_alive {a : Account Blocks Headers} (alive : a.phase = .alive) :
    a.owned = a.object.chunks := if_pos alive

theorem owned_gone {a : Account Blocks Headers} (gone : a.phase ≠ .alive) : a.owned = [] :=
  if_neg gone

def Balanced (a : Account Blocks Headers) : Prop := (a.returned ++ a.owned).Perm a.obtained

theorem Balanced.charge {a : Account Blocks Headers} (balanced : a.Balanced)
    (object : Object Blocks Headers) (phase : Phase) (after : PageManager)
    (exchange : Exchange manager after a.owned (a.charge object phase manager after).owned) :
    (a.charge object phase manager after).Balanced := by
  exact exchange.settle a.obtained a.returned balanced

end Account

structure Kept (reservations : Nat → Option Nat) (s : Program Blocks Headers) : Prop where
  ledger : Ledger reservations s.manager (s.accounts.flatMap Account.owned)
  balanced : ∀ a ∈ s.accounts, a.Balanced
  last : ∀ a ∈ s.accounts, a.phase = .alive →
    ∀ arena, a.object = .arena arena → arena.current + 1 = arena.chunks.length

def Program.others (s : Program Blocks Headers) (i : Nat) : List PageManager.Chunk :=
  (s.accounts.eraseIdx i).flatMap Account.owned

theorem owned_split (accounts : List (Account Blocks Headers)) (i : Nat) (a : Account Blocks Headers)
    (found : accounts[i]? = some a) :
    (accounts.flatMap Account.owned).Perm
      (a.owned ++ (accounts.eraseIdx i).flatMap Account.owned) := by
  obtain ⟨inside, rfl⟩ := List.getElem?_eq_some_iff.mp found
  exact ((List.getElem_cons_eraseIdx_perm inside).symm.flatMap_right Account.owned)

namespace Kept

variable {s : Program Blocks Headers} {i : Nat} {a : Account Blocks Headers}

theorem split (kept : Kept reservations s) (found : s.accounts[i]? = some a) :
    Ledger reservations s.manager (a.owned ++ s.others i) :=
  kept.ledger.perm _ (owned_split s.accounts i a found)

theorem held (kept : Kept reservations s) (found : s.accounts[i]? = some a)
    (alive : a.phase = .alive) : a.object.Held reservations s.manager (s.others i) := by
  refine ⟨?_, kept.last a (List.mem_of_getElem? found) alive⟩
  rw [← Account.owned_alive alive]
  exact kept.split found

theorem charge (kept : Kept reservations s) (found : s.accounts[i]? = some a)
    (object : Object Blocks Headers) (phase : Phase) (after : PageManager)
    (ledger : Ledger reservations after
      ((a.charge object phase s.manager after).owned ++ s.others i))
    (exchange : Exchange s.manager after a.owned (a.charge object phase s.manager after).owned)
    (last : phase = .alive →
      ∀ arena, object = .arena arena → arena.current + 1 = arena.chunks.length) :
    Kept reservations ⟨after, s.accounts.set i (a.charge object phase s.manager after)⟩ := by
  have balanced := (kept.balanced a (List.mem_of_getElem? found)).charge object phase after exchange
  have phaseEq : (a.charge object phase s.manager after).phase = phase := rfl
  have objectEq : (a.charge object phase s.manager after).object = object := rfl
  generalize a.charge object phase s.manager after = a' at *
  subst phaseEq objectEq
  obtain ⟨inside, _⟩ := List.getElem?_eq_some_iff.mp found
  have placed : (s.accounts.set i a')[i]? = some a' := List.getElem?_set_self inside
  refine ⟨ledger.perm _ ?_, fun b member => ?_, fun b member => ?_⟩
  · have split := owned_split (s.accounts.set i a') i a' placed
    rw [List.eraseIdx_set_eq] at split
    exact split.symm
  · rcases List.mem_or_eq_of_mem_set member with before | rfl
    · exact kept.balanced b before
    · exact balanced
  · rcases List.mem_or_eq_of_mem_set member with before | rfl
    · exact kept.last b before
    · exact last

end Kept

def Spared (s : Program Blocks Headers) : Prop :=
  ∀ a ∈ s.accounts, a.phase = .dead → ¬ a.object.IsTLAB

variable [LinkStore Blocks] [Buddy.HeaderStore Headers]

theorem spared_earlier {s t : Program Blocks Headers} {call : Call} (taken : s.Step call t)
    (spared : Spared t) : Spared s := by
  intro b member gone
  have update (i : Nat) (a a' : Account Blocks Headers) (found : s.accounts[i]? = some a)
      (going : a.phase ≠ .dead) (accounts : t.accounts = s.accounts.set i a') :
      b ∈ t.accounts := by
    obtain ⟨j, at'⟩ := List.getElem?_of_mem member
    have different : i ≠ j := by
      rintro rfl
      exact going ((Option.some.inj (found.symm.trans at')) ▸ gone)
    rw [accounts]
    exact List.mem_of_getElem? ((List.getElem?_set_ne different).trans at')
  refine spared b ?_ gone
  cases taken with
  | construct object manager made => exact List.mem_append_left _ member
  | use i a object manager found alive made => exact update i a _ found (by simp [alive]) rfl
  | destroy i a manager found alive made => exact update i a _ found (by simp [alive]) rfl
  | destroyMembers i a manager found dying made => exact update i a _ found (by simp [dying]) rfl

theorem kept_step (reserves : Reserves reservations) {s t : Program Blocks Headers} {call : Call}
    (kept : Kept reservations s) (taken : s.Step call t) (spared : Spared t) :
    Kept reservations t := by
  cases taken with
  | construct object after made =>
      obtain ⟨held, exchange⟩ := Object.construct_held reserves kept.ledger after made
      have same := exchange.settle [] [] (.refl [])
      rw [List.append_nil, List.append_nil] at same
      refine ⟨held.ledger.perm _ ?_, fun a member => ?_, fun a member => ?_⟩
      · rw [List.flatMap_append]
        simpa [Account.owned] using List.perm_append_comm
      · rcases List.mem_append.mp member with before | here
        · exact kept.balanced a before
        · rw [List.mem_singleton.mp here]
          exact same
      · rcases List.mem_append.mp member with before | here
        · exact kept.last a before
        · rw [List.mem_singleton.mp here]
          exact fun _ => held.last
  | use i a object after found alive made =>
      obtain ⟨held, exchange⟩ := Object.uses_held reserves (kept.held found alive) after made
      refine kept.charge found object .alive after held.ledger ?_ fun _ => held.last
      rw [Account.owned_alive alive]
      exact exchange
  | destroy i a after found alive made =>
      obtain ⟨ledger, exchange⟩ := Object.destroy_held reserves (kept.held found alive) after made
      refine kept.charge found a.object .dying after ledger ?_ nofun
      rw [Account.owned_alive alive]
      exact exchange
  | destroyMembers i a after found dying made =>
      have other : ¬ a.object.IsTLAB := by
        obtain ⟨inside, _⟩ := List.getElem?_eq_some_iff.mp found
        exact spared (a.charge a.object .dead s.manager after) (List.mem_set inside _) rfl
      have same : after = s.manager := by
        cases object : a.object with
        | tlab t => simp [object, Object.IsTLAB] at other
        | arena _ | block _ | buddy _ =>
            rw [object] at made
            exact (Except.ok.inj made).symm
      have gone : a.owned = [] := Account.owned_gone (by simp [dying])
      have ledger := kept.split found
      subst same
      rw [gone] at ledger
      refine kept.charge found a.object .dead s.manager ledger ?_ nofun
      rw [gone]
      exact .perm _ (.refl _)

theorem kept_of_reachable (reserves : Reserves reservations) (s : Program Blocks Headers)
    (reached : (system reservations).Reachable s) : Spared s → Kept reservations s := by
  refine System.invariant _ (fun s => Spared s → Kept reservations s) ?_ ?_ reached
  · rintro s ⟨manager, made, rfl⟩ _
    exact ⟨Ledger.construct_ledger reserves.regions manager made, nofun, nofun⟩
  · intro s call t ih taken spared
    exact kept_step reserves (ih (spared_earlier taken spared)) taken spared

def Phase.releases : Phase → Nat
  | .alive => 0
  | .dying => 1
  | .dead => 2

def Account.Counted (a : Account Blocks Headers) : Prop :=
  a.object.IsTLAB → a.obtained.length = 1 ∧ a.returned.length = a.phase.releases

omit [LinkStore Blocks] [Buddy.HeaderStore Headers] in
theorem Account.Counted.charge {a : Account Blocks Headers} (counted : a.Counted)
    (object : Object Blocks Headers) (phase : Phase) (after : PageManager)
    (traded : object.IsTLAB → a.object.IsTLAB ∧ ∃ returned,
      PageManager.Traded manager after [] returned ∧
        returned.length + a.phase.releases = phase.releases) :
    (a.charge object phase manager after).Counted := by
  intro tlab
  obtain ⟨earlier, returned, traded, sum⟩ := traded tlab
  obtain ⟨obtainedOne, returnedSome⟩ := counted earlier
  obtain ⟨askedEq, returnedEq⟩ := traded.eq
  unfold Account.charge
  rw [askedEq, returnedEq, List.length_append, List.length_append, returnedSome]
  exact ⟨by simpa using obtainedOne, sum⟩

omit [LinkStore Blocks] [Buddy.HeaderStore Headers] in
-- Both times the destructor of a TLAB's member runs, it releases the one chunk.
theorem Object.tlab_releases {object : Object Blocks Headers} (tlab : object.IsTLAB)
    (after : PageManager)
    (made : object.destroy manager = .ok after ∨ object.destroyMembers manager = .ok after) :
    ∃ c, PageManager.Traded manager after [] [c] := by
  cases object with
  | arena _ | block _ | buddy _ => exact tlab.elim
  | tlab t => exact ⟨_, PageManager.release_traded _ _ _ after (made.elim id id)⟩

theorem counted_construct {object : Object Blocks Headers} (after : PageManager)
    (made : object.Constructs manager after) :
    (⟨object, .alive, requested manager after, released manager after⟩ :
      Account Blocks Headers).Counted := by
  intro tlab
  cases made with
  | arena | block | buddy => exact tlab.elim
  | tlab memory capacityBytes t _ made =>
      have granted := TLAB.construct_spec _ _ _ t after made
      obtain ⟨askedEq, returnedEq⟩ := (PageManager.request_traded _ _ _ _ after granted).eq
      dsimp only
      rw [askedEq, returnedEq]
      exact ⟨rfl, rfl⟩

theorem counted_step {s t : Program Blocks Headers} {call : Call}
    (counted : ∀ a ∈ s.accounts, a.Counted) (taken : s.Step call t) : ∀ a ∈ t.accounts, a.Counted := by
  have update (i : Nat) (a' : Account Blocks Headers) (counted' : a'.Counted) :
      ∀ b ∈ s.accounts.set i a', b.Counted := by
    intro b member
    rcases List.mem_or_eq_of_mem_set member with before | rfl
    · exact counted b before
    · exact counted'
  cases taken with
  | construct object after made =>
      intro b member
      rcases List.mem_append.mp member with before | here
      · exact counted b before
      · rw [List.mem_singleton.mp here]
        exact counted_construct after made
  | use i a object after found alive made =>
      have earlier := counted a (List.mem_of_getElem? found)
      refine update i _ (earlier.charge object .alive after fun tlab => ?_)
      obtain ⟨arena, is⟩ | ⟨rfl, _, same, _⟩ := Object.uses_cases after made
      · rw [is] at made
        cases made <;> exact tlab.elim
      · exact ⟨same.mpr tlab, [], .none _, by simp [alive]⟩
  | destroy i a after found alive made =>
      have earlier := counted a (List.mem_of_getElem? found)
      refine update i _ (earlier.charge a.object .dying after fun tlab => ⟨tlab, ?_⟩)
      obtain ⟨c, traded⟩ := Object.tlab_releases tlab after (.inl made)
      exact ⟨[c], traded, by simp [alive, Phase.releases]⟩
  | destroyMembers i a after found dying made =>
      have earlier := counted a (List.mem_of_getElem? found)
      refine update i _ (earlier.charge a.object .dead after fun tlab => ⟨tlab, ?_⟩)
      obtain ⟨c, traded⟩ := Object.tlab_releases tlab after (.inr made)
      exact ⟨[c], traded, by simp [dying, Phase.releases]⟩

theorem counted_of_reachable (s : Program Blocks Headers)
    (reached : (system reservations).Reachable s) : ∀ a ∈ s.accounts, a.Counted := by
  refine System.invariant _ (fun s => ∀ a ∈ s.accounts, a.Counted) ?_ ?_ reached
  · rintro s ⟨manager, _, rfl⟩
    exact nofun
  · exact fun s call t counted taken => counted_step counted taken

theorem released_once (reservations : Nat → Option Nat) (reserves : Reserves reservations)
    (s : Program Blocks Headers) (reached : (system reservations).Reachable s) :
    Proper s ↔ ∀ a ∈ s.accounts, a.phase = .dead → ¬ a.object.IsTLAB := by
  constructor
  · intro proper a member gone tlab
    obtain ⟨obtainedOne, returnedTwo⟩ := counted_of_reachable s reached a member tlab
    have same := (proper.once a member).length_eq
    rw [Account.owned_gone (by simp [gone]), List.append_nil, obtainedOne, returnedTwo, gone] at same
    cases same
  · intro spared
    have kept := kept_of_reachable reserves s reached spared
    exact ⟨kept.balanced, fun a member c owned =>
      marked_of_ledger kept.ledger c (List.mem_flatMap.mpr ⟨a, member, owned⟩)⟩

def blankBytes : Buddy.Bytes := fun _ => 0#8

theorem released_once_tlab : ∃ s : Program RawMemory Buddy.Bytes,
    (system PageManager.rowOfRegions).Reachable s ∧ s.accounts.length = 1 ∧
    (Proper s ↔ ∀ a ∈ s.accounts, a.phase = .dead → ¬ a.object.IsTLAB) := by
  obtain ⟨fresh, t, manager, first, made⟩ : ∃ fresh t manager,
      PageManager.construct PageManager.rowOfRegions = .ok fresh ∧
      TLAB.construct fresh blankBytes 4096 = .ok (t, manager) := ⟨_, _, _, rfl, rfl⟩
  have started : (system PageManager.rowOfRegions).Reachable
      (⟨fresh, []⟩ : Program RawMemory Buddy.Bytes) := .start ⟨fresh, first, rfl⟩
  have reached := started.step (.construct _ (.tlab t) manager (.tlab _ 4096 t manager made))
  exact ⟨_, reached, rfl, released_once PageManager.rowOfRegions rowOfRegions_reserves _ reached⟩

-- An arena that is built between the two releases of a TLAB gets the page of the TLAB, and the
-- second release clears it.
theorem page_reused : ∃ fresh held freed taken cleared t a,
    PageManager.construct PageManager.rowOfRegions = .ok fresh ∧
    TLAB.construct fresh blankBytes 4096 = .ok (t, held) ∧ t.destroy held = .ok freed ∧
    Arena.construct freed 4096 = .ok (a, taken) ∧ t.destroyMembers taken = .ok cleared ∧
    t.allocator.base = memoryChunkSize ∧ t.allocator.pages = 1 ∧
    a.regions = [⟨memoryChunkSize, 1⟩] ∧ ∃ segment, cleared.segments = [segment] ∧
      segment.baseAddress = memoryChunkSize ∧ PageManager.pageBit segment.bitmap 0 = false :=
  ⟨_, _, _, _, _, _, _, rfl, rfl, rfl, rfl, rfl, rfl, rfl, rfl, _, rfl, rfl, by decide +kernel⟩

theorem tlab_releases_twice : ∃ s : Program RawMemory Buddy.Bytes,
    (system PageManager.rowOfRegions).Reachable s ∧ ∃ tlab arena, s.accounts = [tlab, arena] ∧
    tlab.object.IsTLAB ∧ tlab.phase = .dead ∧ tlab.obtained = [⟨memoryChunkSize, 1⟩] ∧
    tlab.returned = [⟨memoryChunkSize, 1⟩, ⟨memoryChunkSize, 1⟩] ∧
    arena.owned = [⟨memoryChunkSize, 1⟩] ∧ ¬ Marked s.manager ⟨memoryChunkSize, 1⟩ ∧ ¬ Proper s := by
  obtain ⟨fresh, held, freed, taken, cleared, t, a, first, made, body, built, members, base, pages,
    regions, segment, segments, start, clear⟩ := page_reused
  have started : (system PageManager.rowOfRegions).Reachable
      (⟨fresh, []⟩ : Program RawMemory Buddy.Bytes) := .start ⟨fresh, first, rfl⟩
  have constructed := started.step (.construct _ (.tlab t) held (.tlab _ 4096 t held made))
  have dying := constructed.step (.destroy _ 0 _ freed rfl rfl body)
  have reused := dying.step (.construct _ (.arena a) taken (.arena 4096 a taken built))
  have reached := reused.step (.destroyMembers _ 0 _ cleared rfl rfl members)
  -- what each call has asked for and given back
  have granted := TLAB.construct_spec _ _ _ t held made
  obtain ⟨asked₁, back₁⟩ := (PageManager.request_traded _ _ _ _ held granted).eq
  obtain ⟨asked₂, back₂⟩ := (PageManager.release_traded _ _ _ freed body).eq
  obtain ⟨asked₃, back₃⟩ := (PageManager.release_traded _ _ _ cleared members).eq
  rw [base, pages] at asked₁ back₂ back₃
  have unmarked : ¬ Marked cleared ⟨memoryChunkSize, 1⟩ := by
    rintro ⟨other, member, _, marked⟩
    rw [segments, List.mem_singleton] at member
    rw [member] at marked
    have first : (⟨memoryChunkSize, 1⟩ : PageManager.Chunk).Owns
        (segment.baseAddress + 0 * pageSize) := by
      rw [start]
      exact ⟨by decide, by decide⟩
    have page := marked 0 (by decide) first
    rw [clear] at page
    cases page
  refine ⟨_, reached, _, _, rfl, trivial, rfl, ?_, ?_, ?_, unmarked, fun proper => ?_⟩
  · simp [Account.charge, asked₁, asked₂, asked₃]
  · simp [Account.charge, back₁, back₂, back₃]
  · exact regions
  · have owned : (⟨memoryChunkSize, 1⟩ : PageManager.Chunk) ∈ a.regions := by simp [regions]
    exact unmarked (proper.marked _ (List.mem_cons_of_mem _ List.mem_cons_self) _ owned)

end ElySquare.Lifetimes
