import ElySquare.Shared.Align
import ElySquare.Allocators.PageManager

set_option autoImplicit false

namespace ElySquare

inductive PagePermissions
  | read
  | readExecute
  | readWrite
  | readWriteExecute
  | noAccess
deriving DecidableEq, Repr

structure Os where
  protection : Nat → PagePermissions

def Covers (address size page : Nat) : Prop :=
  0 < size ∧ address / pageSize ≤ page ∧ page * pageSize < address + size

instance (address size page : Nat) : Decidable (Covers address size page) :=
  inferInstanceAs (Decidable (_ ∧ _ ∧ _))

def getClosestTo4 (count : Nat) : Nat := Align.maskUp 64 count pageSize

namespace Os

def protect (os : Os) (address size : Nat) (flag : PagePermissions) : Os :=
  ⟨fun page => if Covers address size page then flag else os.protection page⟩

-- `answer` is what mmap returns.
def reservePages (os : Os) (answer : Option Nat) (bytes : Nat) : Option Nat × Os :=
  if bytes = 0 then (none, os)
  else
    match answer with
    | none => (none, os)
    | some ptr => (some ptr, os.protect ptr (getClosestTo4 bytes) .noAccess)

-- `granted` is whether mprotect succeeds, here and below.
def commitPages (os : Os) (granted : Bool) (address bytes : Nat) (flag : PagePermissions) : Bool × Os :=
  if address = 0 then (false, os)
  else if bytes = 0 then (true, os)
  else if granted then (true, os.protect address (getClosestTo4 bytes) flag)
  else (false, os)

def decommitPages (os : Os) (granted : Bool) (address bytes : Nat) : Bool × Os :=
  if address = 0 then (false, os)
  else if bytes = 0 then (true, os)
  else if granted then (true, os.protect address (getClosestTo4 bytes) .noAccess)
  else (false, os)

-- What a call of the page manager does. It looks at no result of a commit or a decommit.
def perform (os : Os) (granted : Bool) : OsCall → Os
  | .reserve address bytes => (os.reservePages (some address) bytes).2
  | .commit address bytes => (os.commitPages granted address bytes .readWrite).2
  | .decommit address bytes => (os.decommitPages granted address bytes).2
  | .store _ _ => os

-- The system after the calls of a log, the last one first. `granted k` is the answer to the `k`-th.
def after (os : Os) (granted : Nat → Bool) : List OsCall → Os
  | [] => os
  | call :: earlier => (os.after granted earlier).perform (granted earlier.length) call

end Os

section Protect

variable (os : Os)

theorem protect_here (address size page : Nat) (flag : PagePermissions)
    (covered : Covers address size page) : (os.protect address size flag).protection page = flag :=
  if_pos covered

theorem protect_there (address size page : Nat) (flag : PagePermissions)
    (outside : ¬ Covers address size page) :
    (os.protect address size flag).protection page = os.protection page :=
  if_neg outside

theorem getClosestTo4_pages (pages : Nat) (few : pages < 2 ^ 51) :
    getClosestTo4 (pages * pageSize) = pages * pageSize :=
  Align.maskUp_of_dvd 64 12 (pages * pageSize) (by decide) (Nat.dvd_mul_left _ _)
    (by unfold pageSize; omega)

theorem covers_pages (address pages page : Nat) (aligned : pageSize ∣ address) :
    Covers address (pages * pageSize) page ↔
      address ≤ page * pageSize ∧ page * pageSize < address + pages * pageSize := by
  obtain ⟨first, rfl⟩ := aligned
  unfold Covers pageSize
  omega

end Protect

end ElySquare
