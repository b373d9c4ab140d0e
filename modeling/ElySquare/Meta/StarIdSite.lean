import ElySquare.Allocators.PageExchange
import ElySquare.Meta.StarIdNames
import ElySquare.Meta.StarIdSweep

set_option autoImplicit false

namespace ElySquare

section Growth

variable {Memory : Type} [LinkStore Memory] {reservations : Nat → Option Nat}
  {w w' w'' : World Memory}

def Grew (reservations : Nat → Option Nat) (w w' : World Memory) : Prop :=
  ∀ others, Arena.Owner reservations w.manager w.metaArena.arena others →
    Arena.Owner reservations w'.manager w'.metaArena.arena others ∧
      ∃ more, w'.metaArena.arena.regions = w.metaArena.arena.regions ++ more

omit [LinkStore Memory] in
theorem Grew.of_same (manager : w'.manager = w.manager)
    (arena : w'.metaArena.arena = w.metaArena.arena) : Grew reservations w w' :=
  fun _ owner => ⟨by rw [manager, arena]; exact owner, [], by rw [arena, List.append_nil]⟩

omit [LinkStore Memory] in
theorem Grew.trans (first : Grew reservations w w') (second : Grew reservations w' w'') :
    Grew reservations w w'' := by
  intro others owner
  obtain ⟨owner', more, same⟩ := first others owner
  obtain ⟨owner'', more', same'⟩ := second others owner'
  exact ⟨owner'', more ++ more', by rw [same', same, List.append_assoc]⟩

namespace MetaArena

theorem metalloc_grew (reserves : Reserves reservations) (size alignment ptr : Nat)
    (made : metalloc w size alignment = .ok (ptr, w')) : Grew reservations w w' := by
  rcases metalloc_cases w size alignment with ⟨node, _, _, taken⟩ | bumped
  · rw [taken] at made
    obtain ⟨next, _, rest⟩ := (Result.bind_ok _ _ _).mp made
    cases rest
    exact .of_same rfl rfl
  · rw [bumped] at made
    obtain ⟨⟨node, arena, manager⟩, allocated, rest⟩ := (Result.bind_ok _ _ _).mp made
    cases rest
    intro others owner
    refine ⟨(owner.alloc reserves _ _ _ _ _ allocated).1, ?_⟩
    obtain ⟨c, filled, found, rfl, rfl⟩ | ⟨size, chunk, filled, new, rfl⟩ :=
      owner.alloc_cases _ _ _ _ _ allocated
    · exact ⟨[], by rw [List.append_nil]; exact Arena.set_regions found filled⟩
    · exact ⟨[chunk.region], List.map_append⟩

theorem metallocOr_grew (reserves : Reserves reservations) (message : String) (size alignment ptr : Nat)
    (made : metallocOr message w size alignment = .ok (ptr, w')) : Grew reservations w w' := by
  obtain ⟨⟨p, after⟩, given, rest⟩ := (Result.bind_ok _ _ _).mp made
  dsimp only at rest
  split at rest
  · cases rest
  · cases rest
    exact metalloc_grew reserves size alignment _ given

theorem metarecycle_grew (ptr size : Nat) : Grew reservations w (metarecycle w ptr size) := by
  by_cases zero : ptr = 0
  · refine .of_same ?_ ?_ <;> rw [metarecycle, if_pos zero]
  · rcases metarecycle_cases w ptr size zero with ⟨_, same⟩ | ⟨_, same⟩ <;> rw [same] <;>
      exact .of_same rfl rfl

end MetaArena

end Growth

namespace ALAR

open Transition

section Growth

variable {reservations : Nat → Option Nat} {alar alar' : ALAR} {w w' : AlarWorld}

theorem setElement_grew {Element : Type} {p i : Nat} {view : AlarObject → Option (List Element)}
    {wrap : List Element → AlarObject} {change : Element → Element}
    (written : setElement w p view wrap i change = .ok w') : Grew reservations w w' := by
  obtain ⟨_, _, _, _, _, _, rfl⟩ := setElement_inv written
  exact .of_same rfl rfl

theorem staridize_grew (reserves : Reserves reservations) (stack : List Byte) (raw : Option (List Byte))
    (length : Nat) (id : Atom) (made : staridize alar w stack raw length = .ok (id, alar', w')) :
    Grew reservations w w' := by
  obtain ⟨forFound, _, made⟩ := (Result.bind_ok _ _ _).mp made
  split at made
  · cases made
    exact .of_same rfl rfl
  · obtain ⟨i, _, made⟩ := (Result.bind_ok _ _ _).mp made
    split at made
    · cases made
    · obtain ⟨⟨chars, ref, w₁⟩, wrote, made⟩ := (Result.bind_ok _ _ _).mp made
      obtain ⟨w₂, first, made⟩ := (Result.bind_ok _ _ _).mp made
      obtain ⟨w₃, second, made⟩ := (Result.bind_ok _ _ _).mp made
      obtain ⟨w₄, third, made⟩ := (Result.bind_ok _ _ _).mp made
      obtain ⟨w₅, fourth, made⟩ := (Result.bind_ok _ _ _).mp made
      obtain ⟨id, _, made⟩ := (Result.bind_ok _ _ _).mp made
      cases made
      refine Grew.trans ?_ ((setElement_grew first).trans ((setElement_grew second).trans
        ((setElement_grew third).trans (setElement_grew fourth))))
      obtain ⟨⟨textPtr, w₆⟩, given, wrote⟩ := (Result.bind_ok _ _ _).mp wrote
      obtain ⟨chars', _, wrote⟩ := (Result.bind_ok _ _ _).mp wrote
      obtain ⟨⟨ppTextPtr, w₇⟩, given', wrote⟩ := (Result.bind_ok _ _ _).mp wrote
      dsimp only at wrote
      split at wrote
      · cases wrote
      · cases wrote
        exact (MetaArena.metallocOr_grew reserves _ _ _ _ given).trans
          (Grew.trans (.of_same rfl rfl) ((MetaArena.metalloc_grew reserves _ _ _ given').trans
            (.of_same rfl rfl)))

theorem sweepPlace_grew (i : Nat) (dead : Bool) (round : sweepPlace alar w i = .ok (dead, w')) :
    Grew reservations w w' := by
  obtain ⟨flag, _, round⟩ := (Result.bind_ok _ _ _).mp round
  split at round
  · cases round
    exact .of_same rfl rfl
  · obtain ⟨place, _, round⟩ := (Result.bind_ok _ _ _).mp round
    split at round
    · obtain ⟨w₁, cleared, round⟩ := (Result.bind_ok _ _ _).mp round
      cases round
      exact setElement_grew cleared
    · obtain ⟨ptr, _, round⟩ := (Result.bind_ok _ _ _).mp round
      obtain ⟨w₁, first, round⟩ := (Result.bind_ok _ _ _).mp round
      obtain ⟨w₂, second, round⟩ := (Result.bind_ok _ _ _).mp round
      cases round
      exact (MetaArena.metarecycle_grew ptr place.len).trans
        ((setElement_grew first).trans (setElement_grew second))

theorem sweepFrom_grew (rounds i killed killed' : Nat)
    (swept : sweepFrom alar rounds i killed w = .ok (killed', w')) : Grew reservations w w' := by
  induction rounds generalizing i killed w with
  | zero =>
      cases swept
      exact .of_same rfl rfl
  | succ rounds ih =>
      obtain ⟨⟨dead, w₁⟩, round, rest⟩ := (Result.bind_ok _ _ _).mp swept
      exact (sweepPlace_grew i dead round).trans (ih _ _ rest)

theorem construct_grew (reserves : Reserves reservations) {Memory : Type} [LinkStore Memory]
    (creating after : World Memory) (others : List PageManager.Chunk) (starIDMaxCount : Nat)
    (owner : Arena.Owner reservations creating.manager creating.metaArena.arena others)
    (made : construct (some creating) starIDMaxCount = .ok (alar, w, after)) :
    after.metaArena.arena.current + 1 = after.metaArena.arena.chunks.length ∧
      ∃ more, after.metaArena.arena.regions = creating.metaArena.arena.regions ++ more := by
  obtain ⟨⟨_, creating'⟩, given, made⟩ := (Result.bind_ok _ _ _).mp made
  obtain ⟨_, _, made⟩ := (Result.bind_ok _ _ _).mp made
  obtain ⟨_, _, made⟩ := (Result.bind_ok _ _ _).mp made
  obtain ⟨_, _, made⟩ := (Result.bind_ok _ _ _).mp made
  obtain ⟨_, _, made⟩ := (Result.bind_ok _ _ _).mp made
  cases made
  obtain ⟨owner', more, same⟩ := MetaArena.metallocOr_grew reserves _ _ _ _ given others owner
  exact ⟨owner'.last, more, same⟩

end Growth

section Rebase

variable {reservations : Nat → Option Nat} {others others' : List PageManager.Chunk} {alar : ALAR}
  {w : AlarWorld} {texts : Nat → Option (List Byte)}

theorem Stocked.owner (stocked : Stocked reservations others alar w texts) :
    Arena.Owner reservations w.manager w.metaArena.arena others := by
  obtain ⟨_, _, _, _, keeps, _⟩ := stocked
  obtain ⟨_, _, sound, _⟩ := keeps.blocks
  exact sound.arena.toOwner

theorem Stocked.rebase (stocked : Stocked reservations others alar w texts) (manager : PageManager)
    (owner : Arena.Owner reservations manager w.metaArena.arena others') :
    Stocked reservations others' alar { w with manager := manager } texts := by
  obtain ⟨held, places, hashes, flags, keeps, shelves⟩ := stocked
  obtain ⟨live, bins, sound, listed⟩ := keeps.blocks
  have arena : Arena.Sound reservations manager w.metaArena.arena others' :=
    { sound.arena with toOwner := owner }
  exact ⟨held, places, hashes, flags,
    ⟨⟨live, bins, { sound with arena := arena }, listed⟩, keeps.apart, keeps.stored, keeps.known⟩, shelves⟩

end Rebase

structure Site where
  lastPtr : Option Nat
  cachedAtom : Atom
deriving DecidableEq, Repr

def Site.fresh : Site := ⟨none, brokenAtom⟩

-- A use of the site. `bytes` holds the bytes from the pointer on.
def fastStaridize (site : Site) (alar : ALAR) (w : AlarWorld) (stack : List Byte)
    (currentPtr : Option Nat) (bytes : List Byte) (textLen : Nat) :
    Result (Atom × Site × ALAR × AlarWorld) :=
  if currentPtr = site.lastPtr ∧ site.cachedAtom ≠ brokenAtom then
    .ok (site.cachedAtom, site, alar, w)
  else do
    let (cachedAtom, alar, w) ← staridize alar w stack (currentPtr.map fun _ => bytes) textLen
    .ok (cachedAtom, ⟨currentPtr, cachedAtom⟩, alar, w)

/-- The arguments of a use, with what stands in memory from buffer[7] of numToStarId on. -/
structure Use where
  currentPtr : Option Nat
  bytes : List Byte
  textLen : Nat
  stack : List Byte
deriving DecidableEq, Repr

def Use.text (use : Use) : Option (List Byte) := use.currentPtr.map fun _ => use.bytes

/-- The use that filled the site: its thread, the text in the thread's registry under the id, and the bytes
that the id was read with. -/
structure Fill (Thread : Type) where
  thread : Thread
  text : List Byte
  stack : List Byte

/-- A program with a site: the page manager and its chunks in use, each thread's registry, the site, and
what no code reads: who filled the site, unless the text has been swept since, and on which threads a sweep
took the length of a text that lived. -/
structure Program (Thread : Type) where
  manager : PageManager
  live : List PageManager.Chunk
  registries : Thread → Option Registry
  site : Site
  fill : Option (Fill Thread)
  lost : Thread → Prop

inductive ProgramCall (Thread : Type)
  | spawn (thread : Thread) (starIDMaxCount : Nat)
  | use (thread : Thread) (use : Use)
  | staridize (thread : Thread) (text : Option (List Byte)) (length : Nat) (stack : List Byte)
  | mark (thread : Thread) (i : Nat)
  | sweepPlaces (thread : Thread)
  | request (pageCount : Nat)
  | release (chunk : PageManager.Chunk)

-- The same characters follow the digits in the buffer of numToStarId.
def SameDigits (stack stack' : List Byte) : Prop :=
  stack.takeWhile (· ≠ 0#8) = stack'.takeWhile (· ≠ 0#8) ∧ 0#8 ∈ stack'

theorem split_at_nul (stack : List Byte) (ended : 0#8 ∈ stack) :
    ∃ rest, stack = stack.takeWhile (· ≠ 0#8) ++ 0#8 :: rest := by
  induction stack with
  | nil => cases ended
  | cons c stack ih =>
      by_cases nul : c = 0#8
      · exact ⟨stack, by simp [nul]⟩
      · obtain ⟨rest, same⟩ := ih ((List.mem_cons.mp ended).resolve_left (Ne.symm nul))
        refine ⟨rest, ?_⟩
        rw [List.takeWhile_cons_of_pos (by simpa using nul), List.cons_append, ← same]

theorem numToStarId_same (stack stack' : List Byte) (same : SameDigits stack stack') (i : Nat)
    (small : i < 2 ^ 16) (id : Atom) (named : numToStarId stack i = .ok id) :
    numToStarId stack' i = .ok id := by
  obtain ⟨digits, ended⟩ := same
  rw [numToStarId_eq stack i small] at named
  obtain ⟨n, read, named⟩ := (Result.bind_ok _ _ _).mp named
  obtain ⟨rest, split⟩ := split_at_nul stack' ended
  have free : 0#8 ∉ stack'.takeWhile (· ≠ 0#8) := fun inside => by
    simpa using List.all_eq_true.mp List.all_takeWhile _ inside
  have value := starNumber_value (stack'.takeWhile (· ≠ 0#8)) rest free i small
  rw [← split, ← digits] at value
  rw [starNumber_junk stack i n small read] at named
  rw [numToStarId_eq stack' i small, value]
  exact named

def Kills (alar : ALAR) (w : AlarWorld) (text : List Byte) : Prop :=
  ∃ i, isDead alar w i = true ∧ Reads alar w i text

def Registry.regions (r : Registry) : List PageManager.Chunk := r.world.metaArena.arena.regions

namespace Program

variable {Thread : Type} [DecidableEq Thread]

def world (s : Program Thread) (r : Registry) : AlarWorld := { r.world with manager := s.manager }

def Hits (s : Program Thread) (use : Use) : Prop :=
  use.currentPtr = s.site.lastPtr ∧ s.site.cachedAtom ≠ brokenAtom

instance (s : Program Thread) (use : Use) : Decidable (s.Hits use) :=
  inferInstanceAs (Decidable (_ ∧ _))

def ran (s : Program Thread) (thread : Thread) (r r' : Registry) : Program Thread :=
  { s with
    manager := r'.world.manager
    live := r'.regions.drop r.regions.length ++ s.live
    registries := Function.update s.registries thread (some r') }

inductive Step (reservations : Nat → Option Nat) :
    Program Thread → ProgramCall Thread → Program Thread → Prop
  -- in any meta arena of the program
  | spawn (s : Program Thread) (thread : Thread) (starIDMaxCount : Nat) (Memory : Type)
      (links : LinkStore Memory) (creating after : World Memory) (others : List PageManager.Chunk)
      (blocks : List Block) (bins : Nat → List Nat) (alar : ALAR) (w : AlarWorld)
      (new : s.registries thread = none) (ushort : starIDMaxCount < 2 ^ 16)
      (shared : creating.manager = s.manager)
      (sound : MetaArena.Sound reservations creating others blocks bins)
      (all : s.live.Perm (creating.metaArena.arena.regions ++ others))
      (made : construct (some creating) starIDMaxCount = .ok (alar, w, after)) :
      Step reservations s (.spawn thread starIDMaxCount) { s with
        manager := w.manager
        live := w.metaArena.arena.regions ++
          (after.metaArena.arena.regions.drop creating.metaArena.arena.regions.length ++ s.live)
        registries := Function.update s.registries thread (some ⟨alar, w⟩) }
  | use (s : Program Thread) (thread : Thread) (use : Use) (r r' : Registry) (id : Atom) (site : Site)
      (there : s.registries thread = some r) (short : use.textLen < 2 ^ 63)
      (made : fastStaridize s.site r.alar (s.world r) use.stack use.currentPtr use.bytes use.textLen =
        .ok (id, site, r'.alar, r'.world)) :
      Step reservations s (.use thread use) { s.ran thread r r' with
        site := site
        fill := if s.Hits use then s.fill
          else some ⟨thread, storedText r.alar (s.world r) use.text use.textLen, use.stack⟩ }
  | staridize (s : Program Thread) (thread : Thread) (text : Option (List Byte)) (length : Nat)
      (stack : List Byte) (r r' : Registry) (id : Atom) (there : s.registries thread = some r)
      (short : length < 2 ^ 63)
      (made : ALAR.staridize r.alar (s.world r) stack text length = .ok (id, r'.alar, r'.world)) :
      Step reservations s (.staridize thread text length stack) (s.ran thread r r')
  | mark (s : Program Thread) (thread : Thread) (i : Nat) (r r' : Registry)
      (there : s.registries thread = some r) (occupied : isOccupied r.alar (s.world r) i = true)
      (same : r'.alar = r.alar)
      (made : setElement (s.world r) r.alar.placelist asPlaces .places i
        (fun place => place.setMarkedAlive true) = .ok r'.world) :
      Step reservations s (.mark thread i) (s.ran thread r r')
  | sweepPlaces (s : Program Thread) (thread : Thread) (r r' : Registry) (killed : Nat)
      (fill : Option (Fill Thread)) (there : s.registries thread = some r) (same : r'.alar = r.alar)
      (made : ALAR.sweepPlaces r.alar (s.world r) = .ok (killed, r'.world))
      (kept : ∀ f, fill = some f ↔
        s.fill = some f ∧ (f.thread = thread → ¬ Kills r.alar (s.world r) f.text)) :
      Step reservations s (.sweepPlaces thread) { s.ran thread r r' with
        fill := fill
        lost := fun t => s.lost t ∨ t = thread ∧ ¬ Harmless r.alar (s.world r) }
  -- the rest of the program
  | request (s : Program Thread) (fuel pageCount ptr : Nat) (manager : PageManager)
      (made : s.manager.requestPageChunk fuel pageCount = .ok (some ptr, manager)) :
      Step reservations s (.request pageCount)
        { s with manager := manager, live := ⟨ptr, pageCount⟩ :: s.live }
  | release (s : Program Thread) (chunk : PageManager.Chunk) (manager : PageManager)
      (alive : chunk ∈ s.live)
      (foreign : ∀ thread r, s.registries thread = some r → chunk ∉ r.regions)
      (made : s.manager.releasePageChunk chunk.ptr chunk.pages = .ok manager) :
      Step reservations s (.release chunk) { s with manager := manager, live := s.live.erase chunk }

def system (reservations : Nat → Option Nat) (Thread : Type) [DecidableEq Thread] :
    System (Program Thread) (ProgramCall Thread) where
  start s := ∃ pages, (PageManager.system reservations).Reachable pages ∧
    s = ⟨pages.manager, pages.live, fun _ => none, .fresh, none, fun _ => False⟩
  step := Step reservations

-- What staridize is called for has room for its NUL; a use that hits does not call it.
def Roomy (s : Program Thread) : ProgramCall Thread → Prop
  | .use _ use => s.Hits use ∨ HasRoom use.textLen
  | .staridize _ _ length _ => HasRoom length
  | _ => True

-- A use that hits is on the thread that filled the site, for the text that it was filled with, which is
-- not empty and still in the registry.
def Warranted (s : Program Thread) (thread : Thread) (use : Use) : Prop :=
  s.Hits use → use.currentPtr ≠ none ∧ ¬ s.lost thread ∧ ∃ f, s.fill = some f ∧ f.thread = thread ∧
    keyOf use.bytes use.textLen = .ok f.text ∧ f.text ≠ [] ∧ SameDigits f.stack use.stack

def Transparent (s : Program Thread) (thread : Thread) (use : Use) : Prop :=
  ∀ r, s.registries thread = some r →
    (fastStaridize s.site r.alar (s.world r) use.stack use.currentPtr use.bytes use.textLen).map
        (fun made => made.1) =
      (ALAR.staridize r.alar (s.world r) use.stack use.text use.textLen).map fun made => made.1

def Filled (s : Program Thread) (thread : Thread) (texts : Nat → Option (List Byte)) : Prop :=
  ∀ f, s.fill = some f → f.thread = thread →
    ∃ i, i < 2 ^ 16 ∧ texts i = some f.text ∧ numToStarId f.stack i = .ok s.site.cachedAtom

structure Registered (reservations : Nat → Option Nat) (s : Program Thread) (thread : Thread)
    (r : Registry) (others : List PageManager.Chunk) : Prop where
  split : s.live.Perm (r.regions ++ others)
  last : r.world.metaArena.arena.current + 1 = r.world.metaArena.arena.chunks.length
  stocked : ¬ s.lost thread → ∃ texts,
    Stocked reservations others r.alar (s.world r) texts ∧ s.Filled thread texts

structure Sane (reservations : Nat → Option Nat) (s : Program Thread) : Prop where
  ledger : PageManager.Ledger reservations s.manager s.live
  registered : ∀ thread r, s.registries thread = some r → ∃ others, s.Registered reservations thread r others
  known : ∀ f, s.fill = some f → s.registries f.thread ≠ none

section Steps

variable {reservations : Nat → Option Nat} {s t : Program Thread} {thread : Thread} {r r' : Registry}
  {others : List PageManager.Chunk}

omit [DecidableEq Thread] in
theorem Registered.owner (registered : s.Registered reservations thread r others)
    (ledger : PageManager.Ledger reservations s.manager s.live) :
    Arena.Owner reservations s.manager r.world.metaArena.arena others :=
  ⟨ledger.perm _ registered.split, registered.last⟩

omit [DecidableEq Thread] in
theorem Registered.frame (registered : s.Registered reservations thread r others)
    (ledger : PageManager.Ledger reservations t.manager t.live) (others' : List PageManager.Chunk)
    (split : t.live.Perm (r.regions ++ others')) (lost : s.lost thread → t.lost thread)
    (fill : ∀ f, t.fill = some f → f.thread = thread →
      s.fill = some f ∧ t.site.cachedAtom = s.site.cachedAtom) :
    t.Registered reservations thread r others' := by
  refine ⟨split, registered.last, fun sound => ?_⟩
  obtain ⟨texts, stocked, filled⟩ := registered.stocked fun was => sound (lost was)
  refine ⟨texts, ?_, fun f now own => ?_⟩
  · exact stocked.rebase t.manager ⟨ledger.perm _ split, registered.last⟩
  · obtain ⟨before, same⟩ := fill f now own
    rw [same]
    exact filled f before own

theorem Sane.ran (sane : s.Sane reservations) (there : s.registries thread = some r)
    (grew : Grew reservations (s.world r) r'.world) (pages : t.manager = (s.ran thread r r').manager)
    (live : t.live = (s.ran thread r r').live)
    (registries : t.registries = (s.ran thread r r').registries)
    (lost : ∀ u, s.lost u → t.lost u)
    (fill : ∀ u f, u ≠ thread → t.fill = some f → f.thread = u →
      s.fill = some f ∧ t.site.cachedAtom = s.site.cachedAtom)
    (here : ∀ others texts, ¬ t.lost thread → Stocked reservations others r.alar (s.world r) texts →
      s.Filled thread texts → ∃ texts',
        Stocked reservations others r'.alar r'.world texts' ∧ t.Filled thread texts') :
    t.Sane reservations := by
  obtain ⟨others, registered⟩ := sane.registered thread r there
  obtain ⟨owner, more, grown⟩ := grew others (registered.owner sane.ledger)
  replace grown : r'.regions = r.regions ++ more := grown
  have added : t.live = more ++ s.live := by
    rw [live, Program.ran, grown, List.drop_left]
  have split : t.live.Perm (r'.regions ++ others) := by
    rw [added, grown, List.append_assoc]
    exact (registered.split.append_left more).trans (List.perm_append_comm_assoc _ _ _)
  have ledger : PageManager.Ledger reservations t.manager t.live := by
    rw [pages]
    exact owner.ledger.perm _ split.symm
  refine ⟨ledger, fun u q now => ?_, fun f now => ?_⟩
  on_goal 2 =>
    rw [registries, Program.ran]
    by_cases own : f.thread = thread
    · simp [own]
    · simpa [own] using sane.known f (fill _ f own now rfl).1
  rw [registries, Program.ran] at now
  by_cases own : u = thread
  · subst own
    obtain rfl : r' = q := by simpa using now
    refine ⟨others, split, owner.last, fun sound => ?_⟩
    obtain ⟨texts, stocked, filled⟩ := registered.stocked fun was => sound (lost u was)
    obtain ⟨texts', stocked', filled'⟩ := here others texts sound stocked filled
    have same : t.world r' = r'.world := by rw [Program.world, pages]; rfl
    exact ⟨texts', same ▸ stocked', filled'⟩
  · have before : s.registries u = some q := by simpa [own] using now
    obtain ⟨others', registered'⟩ := sane.registered u q before
    refine ⟨more ++ others', registered'.frame ledger _ ?_ (lost u) fun f => fill u f own⟩
    rw [added]
    exact (registered'.split.append_left more).trans (List.perm_append_comm_assoc _ _ _)

theorem Sane.spawn (reserves : Reserves reservations) (sane : s.Sane reservations)
    (starIDMaxCount : Nat) {Memory : Type} [LinkStore Memory] (creating after : World Memory)
    (blocks : List Block) (bins : Nat → List Nat) (alar : ALAR) (w : AlarWorld)
    (ushort : starIDMaxCount < 2 ^ 16)
    (sound : MetaArena.Sound reservations creating others blocks bins)
    (all : s.live.Perm (creating.metaArena.arena.regions ++ others))
    (made : construct (some creating) starIDMaxCount = .ok (alar, w, after))
    (new : s.registries thread = none) :
    Sane reservations { s with
      manager := w.manager
      live := w.metaArena.arena.regions ++
        (after.metaArena.arena.regions.drop creating.metaArena.arena.regions.length ++ s.live)
      registries := Function.update s.registries thread (some ⟨alar, w⟩) } := by
  have stocked :=
    ((construct_meets reserves creating others blocks bins sound starIDMaxCount ushort).holds _ made).stocked
  obtain ⟨_, more, grown⟩ :=
    construct_grew reserves creating after others starIDMaxCount sound.arena.toOwner made
  have owner := stocked.owner
  have dropped : after.metaArena.arena.regions.drop creating.metaArena.arena.regions.length = more := by
    rw [grown, List.drop_left]
  have split : (w.metaArena.arena.regions ++ (more ++ s.live)).Perm
      (w.metaArena.arena.regions ++ (after.metaArena.arena.regions ++ others)) := by
    refine List.Perm.append_left _ ?_
    rw [grown, List.append_assoc]
    exact (all.append_left more).trans (List.perm_append_comm_assoc _ _ _)
  have older (f : Fill Thread) (now : s.fill = some f) : f.thread ≠ thread := fun own =>
    sane.known f now (own ▸ new)
  rw [dropped]
  refine ⟨owner.ledger.perm _ split.symm, fun u q now => ?_, fun f now => ?_⟩
  on_goal 2 => simpa [older f now] using sane.known f now
  by_cases own : u = thread
  · subst own
    obtain rfl : (⟨alar, w⟩ : Registry) = q := by simpa using now
    refine ⟨_, split, owner.last, fun _ => ⟨_, stocked, fun f now own => (older f now own).elim⟩⟩
  · have before : s.registries u = some q := by simpa [own] using now
    obtain ⟨others', registered'⟩ := sane.registered u q before
    refine ⟨w.metaArena.arena.regions ++ (more ++ others'), registered'.frame (owner.ledger.perm _ split.symm)
      _ ?_ id fun f now _ => ⟨now, rfl⟩⟩
    refine ((registered'.split.append_left more).append_left _).trans ?_
    exact ((List.perm_append_comm_assoc _ _ _).append_left _).trans (List.perm_append_comm_assoc _ _ _)

omit [DecidableEq Thread] in
theorem Sane.pages (sane : s.Sane reservations) (manager : PageManager) (live : List PageManager.Chunk)
    (ledger : PageManager.Ledger reservations manager live)
    (split : ∀ thread r others, s.registries thread = some r → s.live.Perm (r.regions ++ others) →
      ∃ others', live.Perm (r.regions ++ others')) :
    Sane reservations { s with manager := manager, live := live } := by
  refine ⟨ledger, fun u q now => ?_, sane.known⟩
  obtain ⟨others, registered⟩ := sane.registered u q now
  obtain ⟨others', split'⟩ := split u q others now registered.split
  exact ⟨others', registered.frame ledger others' split' id fun f filled _ => ⟨filled, rfl⟩⟩

omit [DecidableEq Thread] in
theorem use_hit (use : Use) (hit : s.Hits use) (alar : ALAR) (w : AlarWorld) :
    fastStaridize s.site alar w use.stack use.currentPtr use.bytes use.textLen =
      .ok (s.site.cachedAtom, s.site, alar, w) := if_pos hit

omit [DecidableEq Thread] in
theorem use_miss (use : Use) (miss : ¬ s.Hits use) (alar : ALAR) (w : AlarWorld) :
    fastStaridize s.site alar w use.stack use.currentPtr use.bytes use.textLen =
      ALAR.staridize alar w use.stack use.text use.textLen >>= fun made =>
        .ok (made.1, ⟨use.currentPtr, made.1⟩, made.2.1, made.2.2) := if_neg miss

theorem Sane.use (reserves : Reserves reservations) (sane : s.Sane reservations) (use : Use) (id : Atom)
    (site : Site) (there : s.registries thread = some r) (short : use.textLen < 2 ^ 63)
    (made : fastStaridize s.site r.alar (s.world r) use.stack use.currentPtr use.bytes use.textLen =
      .ok (id, site, r'.alar, r'.world)) :
    Sane reservations { s.ran thread r r' with
      site := site
      fill := if s.Hits use then s.fill
        else some ⟨thread, storedText r.alar (s.world r) use.text use.textLen, use.stack⟩ } := by
  by_cases hit : s.Hits use
  · rw [use_hit use hit, Except.ok.injEq] at made
    simp only [Prod.mk.injEq] at made
    obtain ⟨_, rfl, alar, world⟩ := made
    refine sane.ran there (world ▸ .of_same rfl rfl) rfl rfl rfl (fun _ was => was)
      (fun u f _ now _ => ⟨by simpa [hit] using now, rfl⟩) fun others texts _ stocked filled => ?_
    rw [← alar, ← world]
    exact ⟨texts, stocked, fun f now own => filled f (by simpa [hit] using now) own⟩
  · rw [use_miss use hit] at made
    obtain ⟨⟨id', alar, w⟩, interned, made⟩ := (Result.bind_ok _ _ _).mp made
    cases made
    refine sane.ran there (staridize_grew reserves _ _ _ _ interned) rfl rfl rfl (fun _ was => was)
      (fun u f other now own => ?_) fun others texts _ stocked filled => ?_
    · simp only [if_neg hit, Option.some.injEq] at now
      subst now
      exact (other own.symm).elim
    · obtain ⟨texts', i, stocked', small, named, stored, _⟩ :=
        stocked.staridize reserves use.stack use.text use.textLen short _ _ _ interned
      refine ⟨texts', stocked', fun f now own => ?_⟩
      simp only [if_neg hit, Option.some.injEq] at now
      subst now
      exact ⟨i, small, stored, named⟩

theorem sane_step (reserves : Reserves reservations) (sane : s.Sane reservations)
    (call : ProgramCall Thread) (taken : Step reservations s call t) : t.Sane reservations := by
  cases taken with
  | spawn thread starIDMaxCount Memory links creating after others blocks bins alar w new ushort shared
      sound all made =>
      exact sane.spawn reserves starIDMaxCount creating after blocks bins alar w ushort sound all made new
  | use thread use r r' id site there short made => exact sane.use reserves use id site there short made
  | staridize thread text length stack r r' id there short made =>
      refine sane.ran there (staridize_grew reserves stack text length id made) rfl rfl rfl (fun _ was => was)
        (fun u f _ now _ => ⟨now, rfl⟩) fun others texts _ stocked filled => ?_
      obtain ⟨texts', _, stocked', _, _, _, kept⟩ :=
        stocked.staridize reserves stack text length short id _ _ made
      refine ⟨texts', stocked', fun f now own => ?_⟩
      obtain ⟨i, small, holds, named⟩ := filled f now own
      exact ⟨i, small, kept i _ holds, named⟩
  | mark thread i r r' there occupied same made =>
      refine sane.ran there (setElement_grew made) rfl rfl rfl (fun _ was => was)
        (fun u f _ now _ => ⟨now, rfl⟩) fun others texts _ stocked filled => ?_
      exact ⟨texts, same ▸ stocked.mark i _ occupied made, filled⟩
  | sweepPlaces thread r r' killed fill there same made kept =>
      refine sane.ran there (sweepFrom_grew _ _ _ _ made) rfl rfl rfl (fun _ => .inl)
        (fun u f _ now _ => ⟨((kept f).mp now).1, rfl⟩) fun others texts sound stocked filled => ?_
      have harmless : Harmless r.alar (s.world r) := by
        by_contra other
        exact sound (.inr ⟨rfl, other⟩)
      obtain ⟨w', swept, done⟩ := sweepPlaces_swept stocked harmless
      obtain ⟨_, rfl⟩ := Prod.mk.inj (Except.ok.inj (swept.symm.trans made))
      rw [same]
      refine ⟨_, done.stocked, fun f now own => ?_⟩
      obtain ⟨before, spared⟩ := (kept f).mp now
      obtain ⟨i, small, holds, named⟩ := filled f before own
      refine ⟨i, small, ?_, named⟩
      rw [if_neg fun both => spared own ⟨i, both.2, (stocked.reads i _ _ holds).mpr rfl⟩, holds]
  | request fuel pageCount ptr manager made =>
      have ledger := (sane.ledger.request_ledger reserves.regions fuel pageCount ptr manager made).1
      refine sane.pages _ _ ledger fun thread r others _ split => ⟨⟨ptr, pageCount⟩ :: others, ?_⟩
      exact (split.cons _).trans List.perm_middle.symm
  | release chunk manager alive foreign made =>
      obtain ⟨done, released, ledger, _⟩ := sane.ledger.release_spec reserves.regions chunk alive
      rw [made] at released
      cases released
      refine sane.pages _ _ ledger fun thread r others there split => ⟨others.erase chunk, ?_⟩
      rw [← List.erase_append_right _ (foreign thread r there)]
      exact split.erase chunk

theorem sane_of_reachable (reserves : Reserves reservations)
    (reached : (system reservations Thread).Reachable s) : s.Sane reservations := by
  refine System.invariant _ (Sane reservations) ?_
    (fun s call t sane taken => sane_step reserves sane call taken) reached
  rintro s ⟨pages, reached, rfl⟩
  exact ⟨PageManager.ledger_of_reachable reservations reserves.regions pages reached,
    fun _ _ there => (by cases there), fun _ now => (by cases now)⟩

omit [DecidableEq Thread] in
theorem Sane.transparent (sane : s.Sane reservations) (thread : Thread) (use : Use)
    (warranted : s.Warranted thread use) : s.Transparent thread use := by
  intro r there
  by_cases hit : s.Hits use
  · obtain ⟨pointer, sound, f, filled, own, key, text, digits⟩ := warranted hit
    obtain ⟨others, registered⟩ := sane.registered thread r there
    obtain ⟨texts, stocked, fills⟩ := registered.stocked sound
    obtain ⟨i, small, holds, named⟩ := fills f filled own
    obtain ⟨held, places, hashes, flags, keeps, shelves⟩ := stocked
    have first : FirstAt texts i f.text := by
      refine ⟨holds, fun k before again => ?_⟩
      have same := shelves.once k i f.text text again holds
      omega
    obtain ⟨ptr, pointer⟩ := Option.ne_none_iff_exists'.mp pointer
    have text : use.text = some use.bytes := by rw [Use.text, pointer, Option.map_some]
    rw [use_hit use hit, text,
      staridize_first keeps shelves use.stack use.bytes use.textLen f.text key i first,
      numToStarId_same f.stack use.stack digits i small _ named]
    rfl
  · rw [use_miss use hit]
    cases ALAR.staridize r.alar (s.world r) use.stack use.text use.textLen <;> rfl

omit [DecidableEq Thread] in
theorem Sane.same_text (reserves : Reserves reservations) (sane : s.Sane reservations) (f : Fill Thread)
    (filled : s.fill = some f) (sound : ¬ s.lost f.thread) (use : Use) (hit : s.Hits use)
    (short : use.textLen < 2 ^ 63) (rest rest' : List Byte) (ended : f.stack = 0#8 :: rest)
    (ended' : use.stack = 0#8 :: rest') (text : f.text ≠ []) (transparent : s.Transparent f.thread use) :
    ∃ bytes, use.text = some bytes ∧ keyOf bytes use.textLen = .ok f.text := by
  obtain ⟨r, there⟩ := Option.ne_none_iff_exists'.mp (sane.known f filled)
  obtain ⟨others, registered⟩ := sane.registered f.thread r there
  obtain ⟨texts, stocked, fills⟩ := registered.stocked sound
  obtain ⟨i, small, holds, named⟩ := fills f filled rfl
  have same := transparent r there
  rw [use_hit use hit] at same
  cases called : ALAR.staridize r.alar (s.world r) use.stack use.text use.textLen with
  | error stop =>
      rw [called] at same
      cases same
  | ok made =>
      rw [called] at same
      obtain ⟨id, alar, w⟩ := made
      obtain ⟨texts', j, _, small', named', stored, kept⟩ :=
        stocked.staridize reserves use.stack use.text use.textLen short id alar w called
      have cached : s.site.cachedAtom = id := Except.ok.inj same
      rw [ended', numToStarId_ok rest' j small'] at named'
      rw [ended, numToStarId_ok rest i small, cached, ← named'] at named
      have place : i = j := by
        rw [← starIdToNum_starIdOf i small, Except.ok.inj named, starIdToNum_starIdOf j small']
      have again := kept i f.text holds
      rw [place, stored, Option.some.injEq] at again
      exact storedText_key r.alar (s.world r) use.text use.textLen f.text text again

theorem fastStaridize_transparent (reserves : Reserves reservations) (s : Program Thread)
    (reached : ((system reservations Thread).restrict Roomy).Reachable s) :
    (∀ thread use, s.Warranted thread use → s.Transparent thread use) ∧
    ∀ f use rest rest', s.fill = some f → ¬ s.lost f.thread → f.text ≠ [] → s.Hits use →
      use.textLen < 2 ^ 63 → f.stack = 0#8 :: rest → use.stack = 0#8 :: rest' →
      (s.Transparent f.thread use ↔
        ∃ bytes, use.text = some bytes ∧ keyOf bytes use.textLen = .ok f.text) := by
  have sane := sane_of_reachable reserves (System.restrict_reachable _ _ reached)
  refine ⟨sane.transparent, fun f use rest rest' filled sound text hit short ended ended' =>
    ⟨sane.same_text reserves f filled sound use hit short rest rest' ended ended' text, ?_⟩⟩
  rintro ⟨bytes, given, key⟩
  obtain ⟨ptr, pointer, rfl⟩ := Option.map_eq_some_iff.mp given
  exact sane.transparent f.thread use fun _ => ⟨by simp [pointer], sound, f, filled, rfl, key, text,
    by simp [SameDigits, ended, ended']⟩

end Steps

theorem site_filled : ∃ (s : Program Nat) (r : Registry) (made : Atom × ALAR × AlarWorld),
    ((system PageManager.rowOfRegions Nat).restrict Roomy).Reachable s ∧ s.registries 0 = some r ∧
    s.site = ⟨some 1, 0x80000000#32⟩ ∧ s.fill = some ⟨0, [97#8], [0#8]⟩ ∧ ¬ s.lost 0 ∧
    ALAR.staridize r.alar (s.world r) [0#8] (some [98#8]) 1 = .ok made ∧ made.1 = 0x80000001#32 := by
  have run : Result.passes (PageManager.construct PageManager.rowOfRegions) (fun fresh =>
      Result.passes (MetaArena.construct fresh pageSize (Heap.empty : Heap AlarObject)) fun creating =>
      Result.passes (construct (some creating) 4) fun made =>
      Result.passes (ALAR.staridize made.1 made.2.1 [0#8] (some [97#8]) 1) fun one =>
      Result.passes (ALAR.staridize one.2.1 one.2.2 [0#8] (some [98#8]) 1) fun two =>
      one.1 = 0x80000000#32 && storedText made.1 made.2.1 (some [97#8]) 1 = [97#8] &&
        two.1 = 0x80000001#32) = true := by decide +kernel
  simp only [Result.passes_iff, Bool.and_eq_true, decide_eq_true_eq] at run
  obtain ⟨fresh, first, creating, built, ⟨alar, world, after⟩, made, ⟨_, alar₁, world₁⟩, one,
    two, again, ⟨rfl, stored⟩, other⟩ := run
  have sound := MetaArena.firstPage_sound fresh first _ _ built
  -- the pages of the meta arena
  obtain ⟨⟨arena, manager⟩, paged, rest⟩ := (Result.bind_ok _ _ _).mp built
  cases rest
  obtain ⟨⟨chunk, grown⟩, new, rest⟩ := (Result.bind_ok _ _ _).mp paged
  cases rest
  obtain ⟨shape, granted⟩ := Arena.newChunk_spec pageSize chunk manager new
  have started : ((system PageManager.rowOfRegions Nat).restrict Roomy).Reachable
      ⟨fresh, [], fun _ => none, .fresh, none, fun _ => False⟩ := .start ⟨⟨fresh, []⟩, .start ⟨_, first, rfl⟩, rfl⟩
  have second := started.step (.symm
    ⟨.request _ Arena.requestRounds (pagesOf pageSize) chunk.data manager granted, trivial⟩)
  have pages : ([⟨chunk.data, pagesOf pageSize⟩] : List PageManager.Chunk).Perm
      (Arena.regions ⟨[chunk], 0, pageSize⟩ ++ []) := by
    rw [Arena.regions, List.map_singleton, List.append_nil, Arena.Chunk.region, congrArg Arena.Chunk.pages shape]
  have third := second.step (.symm
    ⟨.spawn _ 0 4 (Heap AlarObject) _ _ after [] [] _ alar world rfl (by decide) rfl sound pages made, trivial⟩)
  have missed : fastStaridize .fresh alar world [0#8] (some 1) [97#8] 1 =
      .ok (0x80000000#32, ⟨some 1, 0x80000000#32⟩, alar₁, world₁) := by
    rw [fastStaridize, if_neg (by simp [Site.fresh]), Option.map_some, one]
    rfl
  have short : HasRoom 1 := .inr (by decide)
  have fourth := third.step (.symm
    ⟨.use _ 0 ⟨some 1, [97#8], 1, [0#8]⟩ ⟨alar, world⟩ ⟨alar₁, world₁⟩ _ _ (by simp) (by decide) missed, .inr short⟩)
  refine ⟨_, ⟨alar₁, world₁⟩, two, fourth, by simp [ran], rfl, ?_, id, again, other⟩
  dsimp only
  rw [if_neg fun hit => by cases hit.1]
  exact congrArg (fun text => some (Fill.mk 0 text [0#8])) stored

theorem fastStaridize_transparent_pair : ∃ s : Program Nat,
    ((system PageManager.rowOfRegions Nat).restrict Roomy).Reachable s ∧
    s.Transparent 0 ⟨some 1, [97#8], 1, [0#8]⟩ ∧ ¬ s.Transparent 0 ⟨some 1, [98#8], 1, [0#8]⟩ := by
  obtain ⟨s, r, made, reached, there, site, fill, sound, _⟩ := site_filled
  obtain ⟨warranted, exact⟩ := fastStaridize_transparent rowOfRegions_reserves s reached
  have digits : SameDigits [0#8] [0#8] := ⟨rfl, by decide⟩
  refine ⟨s, reached, warranted 0 _ fun _ => ⟨by decide, sound, _, fill, rfl, rfl, by decide, digits⟩,
    fun transparent => ?_⟩
  have hit : s.Hits ⟨some 1, [98#8], 1, [0#8]⟩ := ⟨by rw [site], by rw [site]; decide⟩
  obtain ⟨bytes, given, key⟩ :=
    (exact _ _ [] [] fill sound (by decide) hit (by decide) rfl rfl).mp transparent
  cases given
  cases key

-- The buffer at address 1 holds another character at the next use, which still gets the id of the first.
theorem fastStaridize_stale : ∃ (s : Program Nat) (r : Registry),
    ((system PageManager.rowOfRegions Nat).restrict Roomy).Reachable s ∧ s.registries 0 = some r ∧
    fastStaridize s.site r.alar (s.world r) [0#8] (some 1) [98#8] 1 =
      .ok (0x80000000#32, s.site, r.alar, s.world r) ∧
    (∃ made, ALAR.staridize r.alar (s.world r) [0#8] (some [98#8]) 1 = .ok made ∧
      made.1 = 0x80000001#32) ∧
    ¬ s.Transparent 0 ⟨some 1, [98#8], 1, [0#8]⟩ := by
  obtain ⟨s, r, made, reached, there, site, _, _, plain, other⟩ := site_filled
  have hit : fastStaridize s.site r.alar (s.world r) [0#8] (some 1) [98#8] 1 =
      .ok (0x80000000#32, s.site, r.alar, s.world r) := by
    rw [site]
    exact if_pos ⟨rfl, by decide⟩
  refine ⟨s, r, reached, there, hit, ⟨made, plain, other⟩, fun transparent => ?_⟩
  have same := transparent r there
  dsimp only [Use.text, Option.map_some] at same
  rw [hit, plain] at same
  have ids : 0x80000000#32 = made.1 := Except.ok.inj same
  rw [other] at ids
  cases ids

end Program

end ALAR

end ElySquare
