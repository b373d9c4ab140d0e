import Mathlib.Data.List.Perm.Basic
import ElySquare.Shared.Simulation

set_option autoImplicit false

namespace Transition

namespace System

variable {State Call Other Order : Type}

def either (left : System State Call) (right : System Other Order) :
    System (State ⊕ Other) (Call ⊕ Order) where
  start
    | .inl s => left.start s
    | .inr s => right.start s
  step
    | .inl s, .inl call, .inl t => left.step s call t
    | .inr s, .inr call, .inr t => right.step s call t
    | _, _, _ => False

inductive Move (Order : Type)
  | order (i : Nat) (order : Order)
  | add
  | rest

inductive Moves (system : System State Call) : List State → Move Call → List State → Prop
  | order (states : List State) (i : Nat) (call : Call) (s t : State) (there : states[i]? = some s)
      (taken : system.step s call t) : Moves system states (.order i call) (states.set i t)
  | add (states : List State) (s : State) (initial : system.start s) : Moves system states .add (states ++ [s])
  | rest (states : List State) : Moves system states .rest states

def many (system : System State Call) : System (List State) (Move Call) where
  start states := states = []
  step := Moves system

end System

end Transition

open Transition

/-- Tenants of one manager: what they hold of it, the calls they make, the tenants that they and the
manager bring in, and the machine that each of them is to its own calls. -/
structure Tenancy (Manager Item Tenant Call Machine Order : Type) where
  items : Tenant → List Item
  ledger : Manager → List Item → Prop
  shows : Manager → List Item → Tenant → Machine → Prop
  opens : Manager → Prop
  step : Manager → Tenant → Call → Manager → Tenant → Prop
  build : Manager → Tenant → Manager → Prop
  beget : Manager → Tenant → Manager → Tenant → Tenant → Prop
  take : Manager → Item → Manager → Prop
  give : Manager → Item → Manager → Prop
  machine : System Machine Order
  order : Tenant → Call → Order

namespace Tenancy

variable {Manager Item Tenant Call Machine Order : Type}

/-- What a tenant shows stays when the manager gives others more or less, and is kept by its own calls. The
list beside a tenant is what the others hold. -/
structure Lawful (tenancy : Tenancy Manager Item Tenant Call Machine Order) : Prop where
  perm : ∀ m held held', tenancy.ledger m held → held.Perm held' → tenancy.ledger m held'
  owned : ∀ m others t a, tenancy.shows m others t a → tenancy.ledger m (tenancy.items t ++ others)
  rebase : ∀ m m' others others' t a, tenancy.shows m others t a →
    tenancy.ledger m' (tenancy.items t ++ others') → tenancy.shows m' others' t a
  opens : ∀ m, tenancy.opens m → tenancy.ledger m []
  step : ∀ m others t a call m' t', tenancy.shows m others t a → tenancy.step m t call m' t' →
    ∃ a', tenancy.machine.step a (tenancy.order t call) a' ∧ tenancy.shows m' others t' a'
  build : ∀ m others t m', tenancy.ledger m others → tenancy.build m t m' →
    ∃ a, tenancy.machine.start a ∧ tenancy.shows m' others t a
  beget : ∀ m others t a m' t' new, tenancy.shows m others t a → tenancy.beget m t m' t' new →
    tenancy.shows m' (tenancy.items new ++ others) t' a ∧
      ∃ b, tenancy.machine.start b ∧ tenancy.shows m' (tenancy.items t' ++ others) new b
  take : ∀ m held item m', tenancy.ledger m held → tenancy.take m item m' → tenancy.ledger m' (item :: held)
  give : ∀ m held item m', tenancy.ledger m (item :: held) → tenancy.give m item m' → tenancy.ledger m' held

structure House (Manager Item Tenant : Type) where
  manager : Manager
  loose : List Item
  tenants : List Tenant

inductive Act (Item Call : Type)
  | call (i : Nat) (call : Call)
  | build
  | beget (i : Nat)
  | take (item : Item)
  | give (item : Item)

variable (tenancy : Tenancy Manager Item Tenant Call Machine Order)

inductive Step : House Manager Item Tenant → Act Item Call → House Manager Item Tenant → Prop
  | call (h : House Manager Item Tenant) (i : Nat) (call : Call) (t t' : Tenant) (m' : Manager)
      (there : h.tenants[i]? = some t) (taken : tenancy.step h.manager t call m' t') :
      Step h (.call i call) ⟨m', h.loose, h.tenants.set i t'⟩
  | build (h : House Manager Item Tenant) (t : Tenant) (m' : Manager)
      (built : tenancy.build h.manager t m') : Step h .build ⟨m', h.loose, h.tenants ++ [t]⟩
  | beget (h : House Manager Item Tenant) (i : Nat) (t t' new : Tenant) (m' : Manager)
      (there : h.tenants[i]? = some t) (begot : tenancy.beget h.manager t m' t' new) :
      Step h (.beget i) ⟨m', h.loose, h.tenants.set i t' ++ [new]⟩
  | take (h : House Manager Item Tenant) (item : Item) (m' : Manager)
      (taken : tenancy.take h.manager item m') : Step h (.take item) ⟨m', item :: h.loose, h.tenants⟩
  | give (h : House Manager Item Tenant) (item : Item) (m' : Manager) (rest : List Item)
      (there : h.loose.Perm (item :: rest)) (given : tenancy.give h.manager item m') :
      Step h (.give item) ⟨m', rest, h.tenants⟩

def system : System (House Manager Item Tenant) (Act Item Call) where
  start h := tenancy.opens h.manager ∧ h.loose = [] ∧ h.tenants = []
  step := tenancy.Step

def moveOf (h : House Manager Item Tenant) : Act Item Call → System.Move Order
  | .call i call =>
    match h.tenants[i]? with
    | some t => .order i (tenancy.order t call)
    | none => .rest
  | .build => .add
  | .beget _ => .add
  | .take _ => .rest
  | .give _ => .rest

def total (h : House Manager Item Tenant) : List Item := h.loose ++ h.tenants.flatMap tenancy.items

def company (h : House Manager Item Tenant) (i : Nat) : List Item :=
  h.loose ++ (h.tenants.eraseIdx i).flatMap tenancy.items

structure Lodged (h : House Manager Item Tenant) (machines : List Machine) : Prop where
  ledger : tenancy.ledger h.manager (tenancy.total h)
  number : machines.length = h.tenants.length
  shown : ∀ (i : Nat) (t : Tenant) (a : Machine), h.tenants[i]? = some t → machines[i]? = some a →
    tenancy.shows h.manager (tenancy.company h i) t a

section Lodging

variable {tenancy} {h : House Manager Item Tenant} {machines : List Machine}

theorem company_perm (i : Nat) (t : Tenant) (there : h.tenants[i]? = some t) :
    (tenancy.items t ++ tenancy.company h i).Perm (tenancy.total h) := by
  obtain ⟨inside, rfl⟩ := List.getElem?_eq_some_iff.mp there
  have moved : (h.tenants[i] :: h.tenants.eraseIdx i).Perm h.tenants := by
    rw [List.eraseIdx_eq_take_drop_succ]
    refine List.perm_middle.symm.trans ?_
    rw [← List.drop_eq_getElem_cons inside, List.take_append_drop]
  refine (List.perm_append_comm_assoc _ _ _).trans ?_
  exact (moved.flatMap_right tenancy.items).append_left h.loose

theorem mem_company {i j : Nat} {u : Tenant} {item : Item} (there : h.tenants[j]? = some u) (other : j ≠ i)
    (held : item ∈ tenancy.items u) : item ∈ tenancy.company h i :=
  List.mem_append_right _ (List.mem_flatMap.mpr
    ⟨u, List.mem_eraseIdx_iff_getElem?.mpr ⟨j, other, there⟩, held⟩)

theorem Lawful.lodged (lawful : tenancy.Lawful) (ledger : tenancy.ledger h.manager (tenancy.total h))
    (number : machines.length = h.tenants.length)
    (before : ∀ (i : Nat) (t : Tenant) (a : Machine), h.tenants[i]? = some t → machines[i]? = some a →
      ∃ m others, tenancy.shows m others t a) : tenancy.Lodged h machines := by
  refine ⟨ledger, number, fun i t a there shown => ?_⟩
  obtain ⟨m, others, shows⟩ := before i t a there shown
  exact lawful.rebase _ _ _ _ _ _ shows (lawful.perm _ _ _ ledger (company_perm i t there).symm)

theorem Lodged.machine (lodged : tenancy.Lodged h machines) (i : Nat) (t : Tenant)
    (there : h.tenants[i]? = some t) :
    ∃ a, machines[i]? = some a ∧ tenancy.shows h.manager (tenancy.company h i) t a := by
  obtain ⟨inside, _⟩ := List.getElem?_eq_some_iff.mp there
  have inside' : i < machines.length := lodged.number ▸ inside
  obtain ⟨a, shown⟩ := Option.isSome_iff_exists.mp (show machines[i]?.isSome = true by simp [inside'])
  exact ⟨a, shown, lodged.shown i t a there shown⟩

theorem getElem?_snoc {α : Type} {list : List α} {last : α} {i : Nat} {x : α}
    (there : (list ++ [last])[i]? = some x) : list[i]? = some x ∨ i = list.length ∧ x = last := by
  rcases Nat.lt_or_ge i list.length with inside | past
  · rw [List.getElem?_append_left inside] at there
    exact .inl there
  · rw [List.getElem?_append_right past, List.getElem?_singleton] at there
    split at there
    next zero => exact .inr ⟨by omega, (Option.some.inj there).symm⟩
    · cases there

theorem total_set (i : Nat) (t t' : Tenant) (m' : Manager) (there : h.tenants[i]? = some t) :
    (tenancy.items t' ++ tenancy.company h i).Perm
      (tenancy.total ⟨m', h.loose, h.tenants.set i t'⟩) := by
  obtain ⟨inside, _⟩ := List.getElem?_eq_some_iff.mp there
  have same : tenancy.company ⟨m', h.loose, h.tenants.set i t'⟩ i = tenancy.company h i := by
    unfold company
    rw [List.eraseIdx_set_eq]
  rw [← same]
  exact company_perm i t' (List.getElem?_set_self inside)

theorem total_snoc (new : Tenant) (m' : Manager) (tenants : List Tenant) :
    (tenancy.items new ++ (h.loose ++ tenants.flatMap tenancy.items)).Perm
      (tenancy.total ⟨m', h.loose, tenants ++ [new]⟩) := by
  unfold total
  rw [List.flatMap_append, List.flatMap_singleton, ← List.append_assoc h.loose]
  exact List.perm_append_comm

end Lodging

section Steps

variable {tenancy} {h h' : House Manager Item Tenant} {machines : List Machine}

theorem Lodged.call (lawful : tenancy.Lawful) (lodged : tenancy.Lodged h machines) (i : Nat) (call : Call)
    (t t' : Tenant) (m' : Manager) (there : h.tenants[i]? = some t)
    (taken : tenancy.step h.manager t call m' t') :
    ∃ machines', System.Moves tenancy.machine machines (.order i (tenancy.order t call)) machines' ∧
      tenancy.Lodged ⟨m', h.loose, h.tenants.set i t'⟩ machines' := by
  obtain ⟨a, shown, shows⟩ := lodged.machine i t there
  obtain ⟨a', move, shows'⟩ := lawful.step _ _ _ _ _ _ _ shows taken
  have ledger := lawful.perm _ _ _ (lawful.owned _ _ _ _ shows') (total_set i t t' m' there)
  refine ⟨_, .order machines i _ a a' shown move, lawful.lodged ledger (by simp [lodged.number]) ?_⟩
  intro j u b at' shown'
  by_cases here : j = i
  · subst here
    obtain ⟨inside, _⟩ := List.getElem?_eq_some_iff.mp there
    obtain ⟨inside', _⟩ := List.getElem?_eq_some_iff.mp shown
    rw [List.getElem?_set_self inside] at at'
    rw [List.getElem?_set_self inside'] at shown'
    obtain rfl := Option.some.inj at'
    obtain rfl := Option.some.inj shown'
    exact ⟨_, _, shows'⟩
  · rw [List.getElem?_set_ne (Ne.symm here)] at at' shown'
    exact ⟨_, _, lodged.shown j u b at' shown'⟩

theorem Lawful.lodged_snoc (lawful : tenancy.Lawful) {m' : Manager} {tenants : List Tenant} {new : Tenant}
    {b : Machine} {others others' : List Item} (shows : tenancy.shows m' others new b)
    (same : (tenancy.items new ++ others).Perm (tenancy.items new ++ (others' ++ tenants.flatMap tenancy.items)))
    (number : machines.length = tenants.length)
    (before : ∀ (i : Nat) (t : Tenant) (a : Machine), tenants[i]? = some t → machines[i]? = some a →
      ∃ m others, tenancy.shows m others t a) :
    tenancy.Lodged ⟨m', others', tenants ++ [new]⟩ (machines ++ [b]) := by
  have ledger := lawful.perm _ _ _ (lawful.owned _ _ _ _ shows) same
  refine lawful.lodged (lawful.perm _ _ _ ledger
    (total_snoc (h := ⟨m', others', tenants⟩) new m' tenants)) (by simp [number]) ?_
  intro i t a at' shown
  rcases getElem?_snoc at' with there | ⟨rfl, rfl⟩
  · rcases getElem?_snoc shown with shown | ⟨rfl, rfl⟩
    · exact before i t a there shown
    · obtain ⟨inside, _⟩ := List.getElem?_eq_some_iff.mp there
      omega
  · rw [← number, List.getElem?_concat_length] at shown
    obtain rfl := Option.some.inj shown
    exact ⟨_, _, shows⟩

theorem Lodged.build (lawful : tenancy.Lawful) (lodged : tenancy.Lodged h machines) (t : Tenant)
    (m' : Manager) (built : tenancy.build h.manager t m') :
    ∃ machines', System.Moves tenancy.machine machines .add machines' ∧
      tenancy.Lodged ⟨m', h.loose, h.tenants ++ [t]⟩ machines' := by
  obtain ⟨b, initial, shows⟩ := lawful.build _ _ _ _ lodged.ledger built
  exact ⟨_, .add machines b initial, lawful.lodged_snoc shows (.refl _) lodged.number
    fun i u a there shown => ⟨_, _, lodged.shown i u a there shown⟩⟩

theorem Lodged.beget (lawful : tenancy.Lawful) (lodged : tenancy.Lodged h machines) (i : Nat)
    (t t' new : Tenant) (m' : Manager) (there : h.tenants[i]? = some t)
    (begot : tenancy.beget h.manager t m' t' new) :
    ∃ machines', System.Moves tenancy.machine machines .add machines' ∧
      tenancy.Lodged ⟨m', h.loose, h.tenants.set i t' ++ [new]⟩ machines' := by
  obtain ⟨a, shown, shows⟩ := lodged.machine i t there
  obtain ⟨kept, b, initial, shows'⟩ := lawful.beget _ _ _ _ _ _ _ shows begot
  refine ⟨_, .add machines b initial, lawful.lodged_snoc shows'
    ((total_set i t t' m' there).append_left _) (by simp [lodged.number]) ?_⟩
  intro j u c at' shown'
  by_cases here : j = i
  · subst here
    obtain ⟨inside, _⟩ := List.getElem?_eq_some_iff.mp there
    rw [List.getElem?_set_self inside] at at'
    obtain rfl := Option.some.inj at'
    obtain rfl := Option.some.inj (shown.symm.trans shown')
    exact ⟨_, _, kept⟩
  · rw [List.getElem?_set_ne (Ne.symm here)] at at'
    exact ⟨_, _, lodged.shown j u c at' shown'⟩

theorem Lodged.step (lawful : tenancy.Lawful) (lodged : tenancy.Lodged h machines) (act : Act Item Call)
    (taken : tenancy.Step h act h') :
    ∃ machines', System.Moves tenancy.machine machines (tenancy.moveOf h act) machines' ∧
      tenancy.Lodged h' machines' := by
  cases taken with
  | call i call t t' m' there taken =>
      rw [moveOf, there]
      exact lodged.call lawful i call t t' m' there taken
  | build t m' built => exact lodged.build lawful t m' built
  | beget i t t' new m' there begot => exact lodged.beget lawful i t t' new m' there begot
  | take item m' taken =>
      exact ⟨machines, .rest machines, lawful.lodged (lawful.take _ _ _ _ lodged.ledger taken) lodged.number
        fun i t a there shown => ⟨_, _, lodged.shown i t a there shown⟩⟩
  | give item m' rest there given =>
      have ledger := lawful.perm _ _ _ lodged.ledger (there.append_right _)
      exact ⟨machines, .rest machines, lawful.lodged (lawful.give _ _ _ _ ledger given) lodged.number
        fun i t a there shown => ⟨_, _, lodged.shown i t a there shown⟩⟩

end Steps

theorem Lawful.simulates {tenancy : Tenancy Manager Item Tenant Call Machine Order}
    (lawful : tenancy.Lawful) :
    tenancy.system.Simulates tenancy.machine.many (Lodged tenancy) (moveOf tenancy) where
  start := by
    rintro ⟨m, _, _⟩ ⟨opens, rfl, rfl⟩
    refine ⟨[], rfl, lawful.lodged (lawful.opens m opens) rfl fun i t a there => ?_⟩
    simp at there
  step _ _ act _ lodged taken := lodged.step lawful act taken

end Tenancy
