import ElySquare.Shared.Tenancy
import ElySquare.Meta.ShapePages
import ElySquare.Meta.ShapeTrie
import ElySquare.Meta.StarIdCollected

set_option autoImplicit false

namespace ElySquare

open Transition Interning

section Heaps

variable {Object : Type} [Sized Object] {reservations : Nat → Option Nat}
  {others others' : List PageManager.Chunk} {foreign : List Block} {w : World (Heap Object)}
  {held : Nat → Option Object}

theorem Keeps.owner (keeps : Keeps reservations others foreign w held) :
    Arena.Owner reservations w.manager w.metaArena.arena others := by
  obtain ⟨_, _, sound, _⟩ := keeps.blocks
  exact sound.arena.toOwner

theorem Keeps.rebase (keeps : Keeps reservations others foreign w held) (manager : PageManager)
    (ledger : PageManager.Ledger reservations manager (w.metaArena.arena.regions ++ others')) :
    Keeps reservations others' foreign { w with manager := manager } held := by
  obtain ⟨live, bins, sound, listed⟩ := keeps.blocks
  have arena : Arena.Sound reservations manager w.metaArena.arena others' :=
    { sound.arena with toOwner := ⟨ledger, sound.arena.last⟩ }
  exact ⟨⟨live, bins, { sound with arena := arena }, listed⟩, keeps.apart, keeps.stored, keeps.known⟩

theorem Keeps.lend (reserves : Reserves reservations) (keeps : Keeps reservations others foreign w held)
    (message : String) (size k : Nat) (small : size < 2 ^ 63) (fine : k ≤ 4) (ptr : Nat)
    (after : World (Heap Object))
    (given : MetaArena.metallocOr message w size (2 ^ k) = .ok (ptr, after)) :
    Keeps reservations others (⟨ptr, size⟩ :: foreign) after held ∧
      after.metaArena.lastAllocatedShape = w.metaArena.lastAllocatedShape := by
  obtain ⟨unheld, memory, last, _⟩ := (keeps.metallocOr_meets reserves message size k small fine).holds _ given
  obtain ⟨live, bins, sound, listed⟩ := keeps.blocks
  obtain ⟨bins', sound'⟩ := (sound.metallocOr_meets reserves message size k small fine).holds _ given
  refine ⟨⟨⟨_, bins', sound', fun b => ?_⟩, fun b member => ?_, ?_, ?_⟩, last⟩
  · rw [List.mem_cons, List.mem_cons, listed, or_assoc]
  · rcases List.mem_cons.mp member with rfl | member
    · exact unheld
    · exact keeps.apart b member
  · rw [memory]
    exact keeps.stored
  · rw [memory]
    exact keeps.known

theorem Keeps.in_chunk (keeps : Keeps reservations others foreign w held) (p : Nat) (o : Object)
    (there : held p = some o) (x : Nat) (above : p ≤ x)
    (below : x < p + alignSize (Sized.size o)) : ∃ c ∈ w.metaArena.arena.regions, c.Owns x := by
  obtain ⟨live, bins, sound, listed⟩ := keeps.blocks
  have alive : ⟨p, Sized.size o⟩ ∈ live := (listed _).mpr (.inr ⟨o, there, rfl⟩)
  obtain ⟨c, member, first, last⟩ := sound.chunk_of _ alive
  refine ⟨c.region, List.mem_map_of_mem member, ?_, ?_⟩
  · exact first.trans above
  · unfold PageManager.Chunk.finish Arena.Chunk.region
    dsimp only at last ⊢
    omega

end Heaps

inductive Resident
  | shapes (s : Shape.Run)
  | texts (r : ALAR.Registry)

namespace Resident

abbrev Call := Shape.Call ⊕ ALAR.RegistryCall

abbrev Machine := Trie Shape.Letter ⊕ Collected (List Byte)

abbrev Order := Trie.Op Shape.Letter ⊕ Collected.Order (List Byte)

def chunks : Resident → List PageManager.Chunk
  | shapes s => s.world.metaArena.arena.regions
  | texts r => r.world.metaArena.arena.regions

def on (manager : PageManager) : Resident → Resident
  | shapes s => shapes ⟨{ s.world with manager := manager }, s.root⟩
  | texts r => texts ⟨r.alar, { r.world with manager := manager }⟩

def Shows (reservations : Nat → Option Nat) (others : List PageManager.Chunk) : Resident → Machine → Prop
  | shapes s, .inl trie => ∃ foreign g, Shape.Sane reservations others foreign s.root s.world g ∧
      g.Lexical ∧ g.Spells trie
  | texts r, .inr table => ALAR.Shows reservations others r table
  | _, _ => False

inductive Step (reservations : Nat → Option Nat) : Resident → Call → PageManager → Resident → Prop
  | shapes (s t : Shape.Run) (call : Shape.Call) (taken : (Shape.named reservations).step s call t) :
      Step reservations (shapes s) (.inl call) t.world.manager (shapes t)
  | texts (r t : ALAR.Registry) (call : ALAR.RegistryCall)
      (taken : (ALAR.collected reservations).step r call t) :
      Step reservations (texts r) (.inr call) t.world.manager (texts t)

inductive Build (manager : PageManager) : Resident → PageManager → Prop
  | shapes (s : Shape.Run) (size : Nat) (before : ShapeWorld) (rounds : size + pageSize - 1 < 2 ^ 64)
      (built : MetaArena.construct manager size Heap.empty = .ok before)
      (made : Shape.createRootShape before = .ok (s.root, s.world)) :
      Build manager (shapes s) s.world.manager

inductive Beget : Resident → PageManager → Resident → Resident → Prop
  | registry (s : Shape.Run) (starIDMaxCount : Nat) (r : ALAR.Registry) (after : ShapeWorld)
      (ushort : starIDMaxCount < 2 ^ 16)
      (made : ALAR.construct (some s.world) starIDMaxCount = .ok (r.alar, r.world, after)) :
      Beget (shapes s) r.world.manager (shapes ⟨after, s.root⟩) (texts r)

def order : Resident → Call → Order
  | shapes s, .inl call => .inl (call.op s.world)
  | _, .inl _ => .inl .leave
  | _, .inr call => .inr call.order

end Resident

def residents (reservations : Nat → Option Nat) : Tenancy PageManager PageManager.Chunk Resident
    Resident.Call Resident.Machine Resident.Order where
  items := Resident.chunks
  ledger := PageManager.Ledger reservations
  shows manager others resident := (resident.on manager).Shows reservations others
  opens manager := PageManager.construct reservations = .ok manager
  step manager resident := (resident.on manager).Step reservations
  build manager resident after := Resident.Build manager resident after
  beget manager resident := (resident.on manager).Beget
  take manager chunk after := ∃ fuel,
    manager.requestPageChunk fuel chunk.pages = .ok (some chunk.ptr, after)
  give manager chunk after := manager.releasePageChunk chunk.ptr chunk.pages = .ok after
  machine := (Trie.system Shape.Letter).either Collected.system
  order := Resident.order

section Rules

variable {reservations : Nat → Option Nat} {others : List PageManager.Chunk}

theorem Shape.Sane.rebase {foreign : List Block} {root : Nat} {w : ShapeWorld} {g : Graph}
    (sane : Sane reservations others foreign root w g) (manager : PageManager)
    (others' : List PageManager.Chunk)
    (ledger : PageManager.Ledger reservations manager (w.metaArena.arena.regions ++ others')) :
    Sane reservations others' foreign root { w with manager := manager } g := by
  obtain ⟨held, stands⟩ := sane.heap
  exact ⟨⟨held, stands.keeps.rebase manager ledger, stands.lays, stands.covers⟩, sane.linked, sane.rooted,
    sane.last⟩

theorem ALAR.Shows.rebase {r : Registry} {table : Collected (List Byte)}
    (shown : Shows reservations others r table) (manager : PageManager)
    (others' : List PageManager.Chunk)
    (ledger : PageManager.Ledger reservations manager (r.world.metaArena.arena.regions ++ others')) :
    Shows reservations others' ⟨r.alar, { r.world with manager := manager }⟩ table := by
  obtain ⟨held, places, hashes, flags, keeps, shelves⟩ := shown.stocked
  exact ⟨⟨held, places, hashes, flags, keeps.rebase manager ledger, shelves⟩, shown.capacity, shown.marks⟩

namespace Resident

variable {resident after new : Resident} {a : Machine} {manager manager' : PageManager}

theorem Shows.owned (shows : resident.Shows reservations others a) (m : PageManager)
    (here : resident = resident.on m) :
    PageManager.Ledger reservations m (resident.chunks ++ others) := by
  cases resident with
  | shapes s =>
      cases a with
      | inl trie =>
          obtain ⟨_, _, sane, _⟩ := shows
          obtain ⟨_, stands⟩ := sane.heap
          have same : s.world.manager = m := congrArg (fun s => s.world.manager) (shapes.inj here)
          exact same ▸ stands.keeps.owner.ledger
      | inr table => cases shows
  | texts r =>
      cases a with
      | inl trie => cases shows
      | inr table =>
          obtain ⟨_, _, _, _, keeps, _⟩ := ALAR.Shows.stocked shows
          have same : r.world.manager = m := congrArg (fun r => r.world.manager) (texts.inj here)
          exact same ▸ keeps.owner.ledger

theorem Shows.rebase (shows : resident.Shows reservations others a) (m : PageManager)
    (others' : List PageManager.Chunk)
    (ledger : PageManager.Ledger reservations m (resident.chunks ++ others')) :
    (resident.on m).Shows reservations others' a := by
  cases resident with
  | shapes s =>
      cases a with
      | inl trie =>
          obtain ⟨foreign, g, sane, lexical, spells⟩ := shows
          exact ⟨foreign, g, sane.rebase m others' ledger, lexical, spells⟩
      | inr table => cases shows
  | texts r =>
      cases a with
      | inl trie => cases shows
      | inr table => exact ALAR.Shows.rebase shows m others' ledger

theorem Shows.step (reserves : Reserves reservations) (shows : resident.Shows reservations others a)
    (call : Call) (m : PageManager) (taken : resident.Step reservations call m after) :
    ∃ a', ((Trie.system Shape.Letter).either Collected.system).step a (resident.order call) a' ∧
      (after.on m).Shows reservations others a' := by
  cases taken with
  | shapes s t call taken =>
      cases a with
      | inl trie =>
          obtain ⟨foreign, g, sane, lexical, spells⟩ := shows
          obtain ⟨named, allowed, root, fuel, done⟩ := taken
          obtain ⟨g', trie', sane', lexical', move, spells'⟩ :=
            sane.step_spells reserves lexical spells call named allowed fuel done
          exact ⟨.inl trie', move, foreign, g', root ▸ sane', lexical', spells'⟩
      | inr table => cases shows
  | texts r t call taken =>
      cases a with
      | inl trie => cases shows
      | inr table =>
          obtain ⟨table', move, shown'⟩ := ALAR.Shows.step reserves shows call taken
          exact ⟨.inr table', move, shown'⟩

theorem Build.shows (reserves : Reserves reservations)
    (ledger : PageManager.Ledger reservations manager others)
    (built : Build manager resident manager') :
    ∃ a, ((Trie.system Shape.Letter).either Collected.system).start a ∧
      (resident.on manager').Shows reservations others a := by
  cases built with
  | shapes s size before rounds built made =>
      have sound := MetaArena.Sound.construct_sound reserves size rounds _ _ ledger before built
      have blank (p : Nat) (o : ShapeObject) : before.memory p ≠ some (.object o) := by
        obtain ⟨_, _, rest⟩ := (Result.bind_ok _ _ _).mp built
        cases rest
        nofun
      obtain ⟨g, sane, flags, order⟩ := (Shape.createRootShape_meets reserves _ sound blank).holds _ made
      obtain ⟨lexical, spells⟩ := sane.seed flags order
      exact ⟨.inl Trie.seed, rfl, _, g, sane, lexical, spells⟩

theorem Beget.shows (reserves : Reserves reservations) (shows : resident.Shows reservations others a)
    (begot : resident.Beget manager' after new) :
    (after.on manager').Shows reservations (new.chunks ++ others) a ∧
      ∃ b, ((Trie.system Shape.Letter).either Collected.system).start b ∧
        (new.on manager').Shows reservations (after.chunks ++ others) b := by
  cases begot with
  | registry s starIDMaxCount r after ushort made =>
      obtain ⟨alar, w⟩ := r
      cases a with
      | inr table => cases shows
      | inl trie =>
          obtain ⟨foreign, g, sane, lexical, spells⟩ := shows
          obtain ⟨held, stands⟩ := sane.heap
          obtain ⟨live, bins, sound, _⟩ := stands.keeps.blocks
          have empty := (ALAR.construct_meets reserves s.world others live bins sound starIDMaxCount
            ushort).holds _ made
          obtain ⟨_, _, _, _, keeps', _⟩ := id empty
          have ledger := keeps'.owner.ledger
          obtain ⟨⟨ptr, creating⟩, given, made⟩ := (Result.bind_ok _ _ _).mp made
          obtain ⟨_, _, made⟩ := (Result.bind_ok _ _ _).mp made
          obtain ⟨_, _, made⟩ := (Result.bind_ok _ _ _).mp made
          obtain ⟨_, _, made⟩ := (Result.bind_ok _ _ _).mp made
          obtain ⟨_, _, made⟩ := (Result.bind_ok _ _ _).mp made
          obtain ⟨keeps, last⟩ := stands.keeps.lend reserves _ ALAR.sizeofMetaArena 3 (by decide) (by decide)
            ptr creating given
          have lent : Shape.Sane reservations others (⟨ptr, ALAR.sizeofMetaArena⟩ :: foreign) s.root creating g :=
            ⟨⟨held, keeps, stands.lays, stands.covers⟩, sane.linked, sane.rooted, last.trans sane.last⟩
          cases made
          refine ⟨⟨_, g, lent.rebase _ _ ?_, lexical, spells⟩, .inr (.new starIDMaxCount), ⟨_, rfl⟩, ?_⟩
          · exact ledger.perm _ (List.perm_append_comm_assoc ..)
          · exact ALAR.Shows.of_marks empty.stocked rfl fun i text held => by cases held

end Resident

theorem residents_lawful (reserves : Reserves reservations) : (residents reservations).Lawful where
  perm m held held' ledger same := ledger.perm held' same
  owned m others resident a shows := by
    have here : resident.on m = (resident.on m).on m := by cases resident <;> rfl
    have ledger := Resident.Shows.owned shows m here
    cases resident <;> exact ledger
  rebase m m' others others' resident a shows ledger := by
    have ledger' : PageManager.Ledger reservations m' ((resident.on m).chunks ++ others') := by
      cases resident <;> exact ledger
    have moved := Resident.Shows.rebase shows m' others' ledger'
    cases resident <;> exact moved
  opens m made := PageManager.Ledger.construct_ledger reserves.regions m made
  step m others resident a call m' after shows taken := by
    have same : (resident.on m).order call = resident.order call := by
      cases resident <;> cases call <;> rfl
    have moved := Resident.Shows.step reserves shows call m' taken
    rwa [same] at moved
  build m others resident m' ledger built := Resident.Build.shows reserves ledger built
  beget m others resident a m' after new shows begot := Resident.Beget.shows reserves shows begot
  take m held chunk m' ledger taken := by
    obtain ⟨fuel, made⟩ := taken
    exact (ledger.request_ledger reserves.regions fuel chunk.pages chunk.ptr m' made).1
  give m held chunk m' ledger given := by
    obtain ⟨_, made, ledger', _⟩ := ledger.release_spec reserves.regions chunk List.mem_cons_self
    obtain rfl := Except.ok.inj (made.symm.trans given)
    rwa [List.erase_cons_head] at ledger'

end Rules

namespace ALAR

/-- The objects of a registry: the arrays, and the texts of the places in use behind their pointers. -/
inductive Reaches (alar : ALAR) (w : AlarWorld) : Nat → Prop
  | placelist : Reaches alar w alar.placelist
  | hashCache : Reaches alar w alar.hashCache
  | idmap : Reaches alar w alar.idmap
  | ref (i : Nat) (place : StarPlace) (ref : Nat) (used : isOccupied alar w i = true)
      (there : placeAt alar w i = .ok place) (pointer : place.ptr = some ref) : Reaches alar w ref
  | text (i : Nat) (place : StarPlace) (ref ptr : Nat) (used : isOccupied alar w i = true)
      (there : placeAt alar w i = .ok place) (pointer : place.ptr = some ref)
      (points : read w ref asRef = .ok ptr) : Reaches alar w ptr

-- The bytes of their blocks, and so of the NUL of a text whose length has room for it.
def TextByte (alar : ALAR) (w : AlarWorld) (x : Nat) : Prop :=
  ∃ p o, Reaches alar w p ∧ w.memory p = some (.object o) ∧ p ≤ x ∧
    x < p + alignSize (Sized.size o)

theorem Shows.byte_in_chunk {reservations : Nat → Option Nat} {others : List PageManager.Chunk} {r : Registry}
    {table : Collected (List Byte)} (shown : Shows reservations others r table) (x : Nat)
    (byte : TextByte r.alar r.world x) : ∃ c ∈ r.world.metaArena.arena.regions, c.Owns x := by
  obtain ⟨p, o, reached, there, above, below⟩ := byte
  have stocked := shown.stocked
  have occupied := stocked.occupied
  obtain ⟨held, places, hashes, flags, keeps, shelves⟩ := stocked
  have inside (o' : AlarObject) (holds : held p = some o') : ∃ c ∈ r.world.metaArena.arena.regions, c.Owns x := by
    rw [keeps.stored p o' holds, Option.some.injEq, Cell.object.injEq] at there
    exact keeps.in_chunk p o' holds x above (there ▸ below)
  have entry (i : Nat) (place : StarPlace) (used : isOccupied r.alar r.world i = true)
      (at' : placeAt r.alar r.world i = .ok place) : ∃ ref ptr chars, place.ptr = some ref ∧
        held ref = some (.ref ptr) ∧ held ptr = some (.text chars) := by
    rw [occupied, Option.isSome_iff_exists] at used
    obtain ⟨text, holds⟩ := used
    obtain ⟨place', ref, ptr, listed, pointer, _, points, chars⟩ := (shelves.entries i text holds).stored
    have same := element_ok keeps _ _ shelves.placelist asPlaces places rfl i place' listed
    obtain rfl := Except.ok.inj (same.symm.trans at')
    exact ⟨ref, ptr, _, pointer, points, chars⟩
  cases reached with
  | placelist => exact inside _ shelves.placelist
  | hashCache => exact inside _ shelves.hashCache
  | idmap => exact inside _ shelves.idmap
  | ref i place ref used at' pointer =>
      obtain ⟨ref', ptr, _, pointer', points, _⟩ := entry i place used at'
      obtain rfl := Option.some.inj (pointer'.symm.trans pointer)
      exact inside _ points
  | text i place ref ptr used at' pointer points =>
      obtain ⟨ref', ptr', _, pointer', points', chars⟩ := entry i place used at'
      obtain rfl := Option.some.inj (pointer'.symm.trans pointer)
      obtain rfl := Except.ok.inj ((read_ok keeps _ _ points' asRef ptr' rfl).symm.trans points)
      exact inside _ chars

end ALAR

namespace Resident

def Byte : Resident → Nat → Prop
  | shapes s, x => Shape.ShapeByte s.world x
  | texts r, x => ALAR.TextByte r.alar r.world x

def Answers : Resident → Machine → Prop
  | shapes s, .inl trie => Shape.Spells s.world s.root trie ∧
      ∀ p, Shape.Live s.world p → Shape.Answers s.world trie p
  | texts r, .inr table => ALAR.Serves r table
  | _, _ => False

variable {reservations : Nat → Option Nat} {others : List PageManager.Chunk} {resident : Resident}
  {a : Machine}

theorem Shows.answers (reserves : Reserves reservations) (shows : resident.Shows reservations others a) :
    resident.Answers a := by
  cases resident with
  | shapes s =>
      cases a with
      | inl trie =>
          obtain ⟨foreign, g, sane, lexical, spells⟩ := shows
          exact ⟨sane.spells lexical spells, fun p live => sane.answers lexical spells p ((sane.live_iff p).mp live)⟩
      | inr table => cases shows
  | texts r =>
      cases a with
      | inl trie => cases shows
      | inr table => exact ALAR.Shows.serves reserves shows

theorem Shows.byte_in_chunk (shows : resident.Shows reservations others a) (x : Nat)
    (byte : resident.Byte x) : ∃ c ∈ resident.chunks, c.Owns x := by
  cases resident with
  | shapes s =>
      cases a with
      | inl trie =>
          obtain ⟨foreign, g, sane, _⟩ := shows
          obtain ⟨live, bins, sound, b, alive, above, below⟩ := sane.byte_live x byte
          obtain ⟨c, member, first, last⟩ := sound.chunk_of b alive
          refine ⟨c.region, List.mem_map_of_mem member, first.trans above, ?_⟩
          unfold PageManager.Chunk.finish Arena.Chunk.region
          dsimp only at below last ⊢
          omega
      | inr table => cases shows
  | texts r =>
      cases a with
      | inl trie => cases shows
      | inr table => exact ALAR.Shows.byte_in_chunk shows x byte

end Resident

structure Housed (h : Tenancy.House PageManager PageManager.Chunk Resident)
    (machines : List Resident.Machine) : Prop where
  number : machines.length = h.tenants.length
  answers : ∀ (i : Nat) (resident : Resident) (a : Resident.Machine), h.tenants[i]? = some resident →
    machines[i]? = some a → (resident.on h.manager).Answers a
  apart : ∀ (i j : Nat) (resident other : Resident) (x : Nat), i ≠ j → h.tenants[i]? = some resident →
    h.tenants[j]? = some other → (resident.on h.manager).Byte x → ¬ (other.on h.manager).Byte x
  loose : ∀ (i : Nat) (resident : Resident) (chunk : PageManager.Chunk) (x : Nat),
    h.tenants[i]? = some resident → chunk ∈ h.loose → (resident.on h.manager).Byte x → ¬ chunk.Owns x

section Houses

variable {reservations : Nat → Option Nat} {h : Tenancy.House PageManager PageManager.Chunk Resident}
  {machines : List Resident.Machine}

theorem Resident.chunks_on (resident : Resident) (m : PageManager) : (resident.on m).chunks = resident.chunks := by
  cases resident <;> rfl

theorem housed (reserves : Reserves reservations) (lodged : (residents reservations).Lodged h machines) :
    Housed h machines := by
  have own (i : Nat) (resident : Resident) (there : h.tenants[i]? = some resident) (x : Nat)
      (byte : (resident.on h.manager).Byte x) : ∃ c ∈ resident.chunks, c.Owns x ∧
        ∀ d ∈ (residents reservations).company h i, ¬ d.Owns x := by
    obtain ⟨a, _, shows⟩ := lodged.machine i resident there
    obtain ⟨c, member, owner⟩ := Resident.Shows.byte_in_chunk shows x byte
    rw [resident.chunks_on] at member
    have ledger := (residents_lawful reserves).owned _ _ _ _ shows
    exact ⟨c, member, owner, fun d beside =>
      ((List.pairwise_append.mp ledger.apart).2.2 c member d beside).not_owns x owner⟩
  refine ⟨lodged.number, fun i resident a there shown =>
    Resident.Shows.answers reserves (lodged.shown i resident a there shown), ?_, ?_⟩
  · intro i j resident other x different there there' byte byte'
    obtain ⟨_, _, _, alone⟩ := own i resident there x byte
    obtain ⟨d, member, owner, _⟩ := own j other there' x byte'
    exact alone d (Tenancy.mem_company there' (Ne.symm different) member) owner
  · intro i resident chunk x there loose byte
    obtain ⟨_, _, _, alone⟩ := own i resident there x byte
    exact alone chunk (List.mem_append_left _ loose)

theorem shared_pages (reserves : Reserves reservations)
    (reached : (residents reservations).system.Reachable h) :
    ∃ machines, ((Trie.system Shape.Letter).either Collected.system).many.Reachable machines ∧
      Housed h machines ∧ ∀ act h', (residents reservations).Step h act h' →
        ∃ machines', System.Moves ((Trie.system Shape.Letter).either Collected.system) machines
          ((residents reservations).moveOf h act) machines' ∧ Housed h' machines' := by
  have lawful := residents_lawful reserves
  obtain ⟨machines, made, lodged⟩ := lawful.simulates.reachable reached
  refine ⟨machines, made, housed reserves lodged, fun act h' taken => ?_⟩
  obtain ⟨machines', moved, lodged'⟩ := lodged.step lawful act taken
  exact ⟨machines', moved, housed reserves lodged'⟩

end Houses

theorem shared_pages_pair : ∃ (h : Tenancy.House PageManager PageManager.Chunk Resident)
    (machines : List Resident.Machine), (residents PageManager.rowOfRegions).system.Reachable h ∧
      Housed h machines ∧ machines.length = 2 ∧ h.loose.length = 1 := by
  have run : Result.passes (PageManager.construct PageManager.rowOfRegions) (fun fresh =>
      Result.passes (MetaArena.construct fresh pageSize (Heap.empty : Heap ShapeObject)) fun before =>
      Result.passes (Shape.createRootShape before) fun root =>
      Result.passes (ALAR.construct (some root.2) 4) fun registry =>
      Result.passes (ALAR.staridize registry.1 registry.2.1 [0#8] (some [97#8]) 1) fun named =>
      Result.passes (Shape.perform 0 { registry.2.2 with manager := named.2.2.manager }
        (.transitionShape root.1 5#32 0#16 false false false false)) fun child =>
      Result.passes (child.manager.requestPageChunk 1 1) fun chunk =>
      (Shape.shapeAt registry.2.2 root.1).isSome && chunk.1.isSome) = true := by decide +kernel
  simp only [Result.passes_iff, Bool.and_eq_true] at run
  obtain ⟨fresh, first, before, built, ⟨root, world⟩, made, ⟨alar, w, after⟩, created, ⟨_, alar', w'⟩, named,
    child, grown, ⟨chunk, manager⟩, given, live, granted⟩ := run
  obtain ⟨ptr, rfl⟩ := Option.isSome_iff_exists.mp granted
  have started : (residents PageManager.rowOfRegions).system.Reachable ⟨fresh, [], []⟩ := .start ⟨first, rfl, rfl⟩
  have second := started.step (.build _ _ _ (.shapes ⟨world, root⟩ pageSize before (by decide) built made))
  have third := second.step (.beget _ 0 _ _ _ _ rfl (.registry ⟨world, root⟩ 4 ⟨alar, w⟩ after (by decide) created))
  have text : (ALAR.collected PageManager.rowOfRegions).step ⟨alar, w⟩ (.staridize (some [97#8]) 1 [0#8])
      ⟨alar', w'⟩ := ⟨⟨⟨trivial, .inr (by decide)⟩, by rintro _ _ _ ⟨⟩; decide⟩, by decide, _, named⟩
  have fourth := third.step (.call _ 1 _ _ _ _ rfl (.texts ⟨alar, w⟩ ⟨alar', w'⟩ _ text))
  have property : (Shape.named PageManager.rowOfRegions).step ⟨{ after with manager := w'.manager }, root⟩
      (.transitionShape root 5#32 0#16 false false false false) ⟨child, root⟩ :=
    ⟨show 5#32 ≠ 0#32 by decide, live, rfl, 0, grown⟩
  have fifth := fourth.step (.call _ 0 _ _ _ _ rfl
    (.shapes ⟨{ after with manager := w'.manager }, root⟩ ⟨child, root⟩ _ property))
  have sixth := fifth.step (.take _ ⟨ptr, 1⟩ manager ⟨1, given⟩)
  obtain ⟨machines, _, housed, _⟩ := shared_pages rowOfRegions_reserves sixth
  exact ⟨_, machines, sixth, housed, housed.number, rfl⟩

end ElySquare
