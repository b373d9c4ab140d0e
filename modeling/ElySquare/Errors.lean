set_option autoImplicit false

namespace ElySquare

inductive ErrorCode
  | success
  | outOfMemory
  | danglingPointerAccess
  | typeNotRegistered
  | mailboxKeyNotFound
  | safepointTimeout
  | containerContainsOther
  | internalError
  | runtimeError
deriving DecidableEq, Repr

/-- How a call can fail to return: a panic aborts the process, a read through a pointer to no such object
has no defined result, and `unfinished` is a loop cut off by its fuel. -/
inductive Stop
  | panic (code : ErrorCode) (message : String)
  | invalidAccess (address : Nat)
  | unfinished
deriving DecidableEq, Repr

def Stop.outOfMemory (message : String) : Stop := .panic .outOfMemory message

-- Want of memory: the panic, or the search for pages that asks for ever more segments.
def Stop.Starved : Stop → Prop
  | .panic .outOfMemory _ => True
  | .unfinished => True
  | _ => False

abbrev Result (α : Type) := Except Stop α

namespace Result

variable {α β : Type}

theorem bind_ok (result : Result α) (next : α → Result β) (value : β) :
    (result >>= next) = .ok value ↔ ∃ middle, result = .ok middle ∧ next middle = .ok value := by
  cases result with
  | error stop => simp [bind, Except.bind]
  | ok middle => simp [bind, Except.bind]

@[simp] theorem ok_bind (middle : α) (next : α → Result β) :
    ((Except.ok middle : Result α) >>= next) = next middle := rfl

@[simp] theorem error_bind (stop : Stop) (next : α → Result β) :
    ((Except.error stop : Result α) >>= next) = .error stop := rfl

def passes (result : Result α) (test : α → Bool) : Bool :=
  match result with
  | .ok value => test value
  | .error _ => false

theorem passes_iff (result : Result α) (test : α → Bool) :
    result.passes test = true ↔ ∃ value, result = .ok value ∧ test value = true := by
  cases result <;> simp [passes]

end Result

end ElySquare
