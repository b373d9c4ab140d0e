import ElySquare.Platform.OsMem

set_option autoImplicit false

namespace ElySquare

structure AddressSpace where
  os : Os
  mapped : Nat → Bool

namespace AddressSpace

def map (space : AddressSpace) (address size : Nat) (flag : PagePermissions) : AddressSpace :=
  ⟨space.os.protect address size flag, fun page => Covers address size page || space.mapped page⟩

def unmap (space : AddressSpace) (address size : Nat) : AddressSpace :=
  ⟨space.os.protect address size .noAccess,
    fun page => !decide (Covers address size page) && space.mapped page⟩

-- `answer` is what mmap returns.
def reservePages (space : AddressSpace) (answer : Option Nat) (bytes : Nat) :
    Option Nat × AddressSpace :=
  if bytes = 0 then (none, space)
  else
    match answer with
    | none => (none, space)
    | some ptr => (some ptr, space.map ptr (getClosestTo4 bytes) .noAccess)

-- `granted` is whether mprotect or munmap succeeds, here and below.
def commitPages (space : AddressSpace) (granted : Bool) (address bytes : Nat) (flag : PagePermissions) :
    Bool × AddressSpace :=
  let (done, os) := space.os.commitPages granted address bytes flag
  (done, { space with os := os })

def decommitPages (space : AddressSpace) (granted : Bool) (address bytes : Nat) : Bool × AddressSpace :=
  let (done, os) := space.os.decommitPages granted address bytes
  (done, { space with os := os })

def releaseReservedPages (space : AddressSpace) (granted : Bool) (address bytes : Nat) :
    Bool × AddressSpace :=
  if address = 0 then (false, space)
  else if bytes = 0 then (true, space)
  else if granted then (true, space.unmap address (getClosestTo4 bytes))
  else (false, space)

def perform (space : AddressSpace) (granted : Bool) : OsCall → AddressSpace
  | .reserve address bytes => (space.reservePages (some address) bytes).2
  | .commit address bytes => (space.commitPages granted address bytes .readWrite).2
  | .decommit address bytes => (space.decommitPages granted address bytes).2
  | .store _ _ => space

def after (space : AddressSpace) (granted : Nat → Bool) : List OsCall → AddressSpace
  | [] => space
  | call :: earlier => (space.after granted earlier).perform (granted earlier.length) call

variable (space : AddressSpace)

theorem reservePages_os (answer : Option Nat) (bytes : Nat) :
    (space.reservePages answer bytes).2.os = (space.os.reservePages answer bytes).2 := by
  unfold reservePages Os.reservePages
  split
  · rfl
  · cases answer <;> rfl

theorem after_os (granted : Nat → Bool) (log : List OsCall) :
    (space.after granted log).os = space.os.after granted log := by
  induction log with
  | nil => rfl
  | cons call earlier ih =>
      rw [after, Os.after, ← ih]
      cases call with
      | reserve address bytes => exact reservePages_os _ _ _
      | commit address bytes => rfl
      | decommit address bytes => rfl
      | store address bytes => rfl

end AddressSpace

end ElySquare
