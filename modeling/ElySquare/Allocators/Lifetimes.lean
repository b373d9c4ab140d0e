import ElySquare.Allocators.PageExchange

set_option autoImplicit false

namespace ElySquare.Lifetimes

open Transition
open PageManager (Exchange Ledger requested released)

inductive Object (Blocks Headers : Type)
  | arena (a : Arena)
  | block (b : BlockAllocator Blocks)
  | buddy (a : Buddy.BuddyAllocator Headers)
  | tlab (t : TLAB Headers)

inductive Phase
  | alive
  -- between the body of the destructor and its end
  | dying
  | dead
deriving DecidableEq, Repr

namespace Object

variable {Blocks Headers : Type}

def IsTLAB : Object Blocks Headers → Prop
  | .tlab _ => True
  | _ => False

def chunks : Object Blocks Headers → List PageManager.Chunk
  | .arena a => a.regions
  | .block b => [⟨b.chunk, b.pagesCount⟩]
  | .buddy a => [⟨a.base, a.pages⟩]
  | .tlab t => [⟨t.allocator.base, t.allocator.pages⟩]

variable [LinkStore Blocks] [Buddy.HeaderStore Headers]

inductive Constructs (manager : PageManager) : Object Blocks Headers → PageManager → Prop
  | arena (defaultChunkSize : Nat) (a : Arena) (after : PageManager)
      (made : Arena.construct manager defaultChunkSize = .ok (a, after)) :
      Constructs manager (.arena a) after
  | block (memory : Blocks) (elemSize blocksCount align : Nat) (b : BlockAllocator Blocks)
      (after : PageManager)
      (made : BlockAllocator.construct manager memory elemSize blocksCount align = .ok (b, after)) :
      Constructs manager (.block b) after
  | buddy (memory : Headers) (size : Nat) (a : Buddy.BuddyAllocator Headers) (after : PageManager)
      (made : Buddy.create manager memory size = .ok (a, after)) : Constructs manager (.buddy a) after
  | tlab (memory : Headers) (capacityBytes : Nat) (t : TLAB Headers) (after : PageManager)
      (made : TLAB.construct manager memory capacityBytes = .ok (t, after)) :
      Constructs manager (.tlab t) after

inductive Uses (manager : PageManager) :
    Object Blocks Headers → Object Blocks Headers → PageManager → Prop
  | arenaAlloc (a a' : Arena) (bytes alignment ptr : Nat) (after : PageManager)
      (made : a.alloc manager bytes alignment = .ok (ptr, a', after)) :
      Uses manager (.arena a) (.arena a') after
  | arenaPopToMarker (a a' : Arena) (marker : Arena.Marker) (after : PageManager)
      (made : a.popToMarker manager marker = .ok (a', after)) :
      Uses manager (.arena a) (.arena a') after
  | arenaClear (a a' : Arena) (after : PageManager) (made : a.clear manager = .ok (a', after)) :
      Uses manager (.arena a) (.arena a') after
  | blockUncheckedAlloc (b b' : BlockAllocator Blocks) (ptr : Option Nat)
      (made : b.uncheckedAlloc = .ok (ptr, b')) : Uses manager (.block b) (.block b') manager
  | blockAlloc (b b' : BlockAllocator Blocks) (size : Nat) (ptr : Option Nat)
      (made : b.alloc size = .ok (ptr, b')) : Uses manager (.block b) (.block b') manager
  | blockFree (b : BlockAllocator Blocks) (ptr : Nat) :
      Uses manager (.block b) (.block (b.free ptr)) manager
  | buddyAlloc (a : Buddy.BuddyAllocator Headers) (size : Nat) :
      Uses manager (.buddy a) (.buddy (Buddy.alloc a size).2) manager
  | buddyFree (a : Buddy.BuddyAllocator Headers) (ptr : Nat) :
      Uses manager (.buddy a) (.buddy (Buddy.free a ptr)) manager
  | tlabAlloc (t : TLAB Headers) (size : Nat) :
      Uses manager (.tlab t) (.tlab (t.alloc size).2) manager
  | tlabFree (t : TLAB Headers) (ptr : Nat) :
      Uses manager (.tlab t) (.tlab (t.free ptr)) manager

def destroy : Object Blocks Headers → PageManager → Result PageManager
  | .arena a, manager => a.destroy manager
  | .block b, manager => b.destroy manager
  | .buddy a, manager => Buddy.destroy a manager
  | .tlab t, manager => t.destroy manager

-- The destructors of the members, which C++ runs after the body.
def destroyMembers : Object Blocks Headers → PageManager → Result PageManager
  | .tlab t, manager => t.destroyMembers manager
  | _, manager => .ok manager

end Object

structure Account (Blocks Headers : Type) where
  object : Object Blocks Headers
  phase : Phase
  obtained : List PageManager.Chunk
  returned : List PageManager.Chunk

namespace Account

variable {Blocks Headers : Type}

def charge (a : Account Blocks Headers) (object : Object Blocks Headers) (phase : Phase)
    (before after : PageManager) : Account Blocks Headers :=
  ⟨object, phase, requested before after ++ a.obtained, released before after ++ a.returned⟩

def owned (a : Account Blocks Headers) : List PageManager.Chunk :=
  if a.phase = .alive then a.object.chunks else []

end Account

structure Program (Blocks Headers : Type) where
  manager : PageManager
  accounts : List (Account Blocks Headers)

inductive Call
  | construct
  | use (i : Nat)
  | destroy (i : Nat)
  | destroyMembers (i : Nat)
deriving DecidableEq, Repr

variable {Blocks Headers : Type} [LinkStore Blocks] [Buddy.HeaderStore Headers]

inductive Program.Step : Program Blocks Headers → Call → Program Blocks Headers → Prop
  | construct (s : Program Blocks Headers) (object : Object Blocks Headers) (manager : PageManager)
      (made : object.Constructs s.manager manager) :
      Step s .construct ⟨manager, s.accounts ++
        [⟨object, .alive, requested s.manager manager, released s.manager manager⟩]⟩
  | use (s : Program Blocks Headers) (i : Nat) (a : Account Blocks Headers)
      (object : Object Blocks Headers) (manager : PageManager) (found : s.accounts[i]? = some a)
      (alive : a.phase = .alive) (made : a.object.Uses s.manager object manager) :
      Step s (.use i) ⟨manager, s.accounts.set i (a.charge object .alive s.manager manager)⟩
  | destroy (s : Program Blocks Headers) (i : Nat) (a : Account Blocks Headers)
      (manager : PageManager) (found : s.accounts[i]? = some a) (alive : a.phase = .alive)
      (made : a.object.destroy s.manager = .ok manager) :
      Step s (.destroy i) ⟨manager, s.accounts.set i (a.charge a.object .dying s.manager manager)⟩
  | destroyMembers (s : Program Blocks Headers) (i : Nat) (a : Account Blocks Headers)
      (manager : PageManager) (found : s.accounts[i]? = some a) (dying : a.phase = .dying)
      (made : a.object.destroyMembers s.manager = .ok manager) :
      Step s (.destroyMembers i)
        ⟨manager, s.accounts.set i (a.charge a.object .dead s.manager manager)⟩

def system (reservations : Nat → Option Nat) : System (Program Blocks Headers) Call where
  start s := ∃ manager, PageManager.construct reservations = .ok manager ∧ s = ⟨manager, []⟩
  step := Program.Step

end ElySquare.Lifetimes
