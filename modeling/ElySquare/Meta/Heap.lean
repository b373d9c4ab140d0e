import ElySquare.Meta.MetaArenaInvariant

set_option autoImplicit false

namespace ElySquare

/-- What the program keeps at the start of a block: a node of a free list, or an object. A block is never
cut up again, so two objects never overlap in part. -/
inductive Cell (Object : Type)
  | freeNode (next : Option Nat)
  | object (value : Object)

def Heap (Object : Type) : Type := Nat → Option (Cell Object)

namespace Heap

variable {Object : Type}

def put (m : Heap Object) (p : Nat) (cell : Cell Object) : Heap Object :=
  fun x => if x = p then some cell else m x

@[simp] theorem put_here (m : Heap Object) (p : Nat) (cell : Cell Object) :
    m.put p cell p = some cell :=
  if_pos rfl

theorem put_there (m : Heap Object) (p : Nat) (cell : Cell Object) (x : Nat) (other : x ≠ p) :
    m.put p cell x = m x :=
  if_neg other

def empty : Heap Object := fun _ => none

end Heap

def store {Object : Type} (w : World (Heap Object)) (p : Nat) (value : Object) : World (Heap Object) :=
  { w with memory := w.memory.put p (.object value) }

theorem store_here {Object : Type} (w : World (Heap Object)) (p : Nat) (value : Object) :
    (store w p value).memory p = some (.object value) :=
  Heap.put_here _ _ _

theorem store_there {Object : Type} (w : World (Heap Object)) (p : Nat) (value : Object) (x : Nat)
    (other : x ≠ p) : (store w p value).memory x = w.memory x :=
  Heap.put_there _ _ _ _ other

namespace Heap

variable {Object : Type}

instance : LinkStore (Heap Object) where
  next m p :=
    match m p with
    | some (.freeNode next) => .ok next
    | _ => .error (.invalidAccess p)
  setNext m p v := m.put p (.freeNode v)

theorem next_put (m : Heap Object) (p q : Nat) (cell : Cell Object) (other : q ≠ p) :
    LinkStore.next (m.put p cell) q = LinkStore.next m q := by
  simp [LinkStore.next, put_there m p cell q other]

instance : LawfulLinks (Heap Object) where
  next_here m p v _ := by simp [LinkStore.next, LinkStore.setNext]
  next_there m p v q apart := next_put m p q (.freeNode v) (by omega)

end Heap

end ElySquare
