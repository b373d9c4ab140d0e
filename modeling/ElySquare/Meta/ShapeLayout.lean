import ElySquare.Meta.ObjectHeap
import ElySquare.Meta.ShapeGraph

set_option autoImplicit false

namespace ElySquare

instance : Sized ShapeObject where
  size
    | .shape _ => Shape.sizeofShape
    | .properties descriptors => Shape.sizeofPropertyDescriptor * descriptors.length
    | .transitions entries => Shape.sizeofTransitionEntry * entries.length

namespace Shape

def Node.Owns (n : Node) (p x : Nat) : Prop :=
  x = p ∨ n.shape.propArray = some x ∨ n.shape.transitionTable = some x

structure Backed (held : Nat → Option ShapeObject) (pointer : Option Nat) (empty : Prop)
    (array : ShapeObject) : Prop where
  there : ∀ x, pointer = some x → held x = some array
  null : pointer = none ↔ empty

structure Laid (held : Nat → Option ShapeObject) (p : Nat) (n : Node) : Prop where
  shape : held p = some (.shape n.shape)
  propArray : Backed held n.shape.propArray (n.properties = []) (.properties n.properties)
  table : Backed held n.shape.transitionTable (n.entries ++ n.slack = [])
    (.transitions (n.entries ++ n.slack))
  propertyCount : n.shape.propertyCount = n.properties.length
  transitionCount : n.shape.transitionCount = n.entries.length
  transitionCapacity : n.shape.transitionCapacity = n.entries.length + n.slack.length
  fewProperties : n.properties.length ≤ uint16Max
  fewEntries : n.entries.length + n.slack.length ≤ uint16Max

structure Lays (held : Nat → Option ShapeObject) (g : Graph) : Prop where
  laid : ∀ p ∈ g.order, Laid held p (g.node p)
  owned : ∀ p ∈ g.order, ∀ q ∈ g.order, ∀ x, (g.node p).Owns p x → (g.node q).Owns q x → p = q

def Covers (held : Nat → Option ShapeObject) (g : Graph) : Prop :=
  ∀ x, held x ≠ none → ∃ p ∈ g.order, (g.node p).Owns p x

namespace Graph

def set (g : Graph) (p : Nat) (n : Node) : Graph := { g with node := Function.update g.node p n }

def append (g : Graph) (child : Nat) (n : Node) : Graph :=
  ⟨g.order ++ [child], Function.update g.node child n⟩

@[simp] theorem set_order (g : Graph) (p : Nat) (n : Node) : (g.set p n).order = g.order := rfl

@[simp] theorem set_here (g : Graph) (p : Nat) (n : Node) : (g.set p n).node p = n :=
  Function.update_self ..

theorem set_there (g : Graph) (p : Nat) (n : Node) (q : Nat) (other : q ≠ p) :
    (g.set p n).node q = g.node q :=
  Function.update_of_ne other ..

@[simp] theorem append_order (g : Graph) (child : Nat) (n : Node) :
    (g.append child n).order = g.order ++ [child] := rfl

@[simp] theorem append_here (g : Graph) (child : Nat) (n : Node) : (g.append child n).node child = n :=
  Function.update_self ..

theorem append_there (g : Graph) (child : Nat) (n : Node) (q : Nat) (other : q ≠ child) :
    (g.append child n).node q = g.node q :=
  Function.update_of_ne other ..

theorem set_view {Field : Type} (g : Graph) (view : Node → Field) (p : Nat) (n : Node)
    (same : view n = view (g.node p)) (q : Nat) : view ((g.set p n).node q) = view (g.node q) := by
  by_cases here : q = p
  · subst here
    rw [set_here, same]
  · rw [set_there _ _ _ _ here]

theorem append_set (g : Graph) (child : Nat) (n n' : Node) :
    (g.append child n).set child n' = g.append child n' := by
  simp [Graph.append, Graph.set]

theorem set_alike (g : Graph) (p : Nat) (n : Node)
    (shape : { n.shape with
      transitionTable := (g.node p).shape.transitionTable
      transitionCapacity := (g.node p).shape.transitionCapacity } = (g.node p).shape)
    (properties : n.properties = (g.node p).properties) (entries : n.entries = (g.node p).entries) :
    g.Alike (g.set p n) := by
  have field {Field : Type} (view : Node → Field) (same : view n = view (g.node p)) :
      (fun q => view ((g.set p n).node q)) = fun q => view (g.node q) :=
    funext fun q => g.set_view view p n same q
  simp only [Shape.ext_iff] at shape
  exact ⟨rfl, field (·.shape.nextShapeInArena) (by simp_all), field (·.shape.prevShapeInArena) (by simp_all),
    field (·.shape.parentShape) (by simp_all), field (·.shape.shapeFlags) (by simp_all),
    field (·.properties) properties, field (·.entries) entries⟩

end Graph

section Layout

variable {held held' : Nat → Option ShapeObject} {g : Graph}

theorem Laid.taken {p : Nat} {n : Node} (laid : Laid held p n) (x : Nat) (own : n.Owns p x) :
    held x ≠ none := by
  rcases own with rfl | array | table
  · simp [laid.shape]
  · simp [laid.propArray.there x array]
  · simp [laid.table.there x table]

theorem Backed.frame {pointer : Option Nat} {empty : Prop} {array : ShapeObject}
    (backed : Backed held pointer empty array) (same : ∀ x, pointer = some x → held' x = held x) :
    Backed held' pointer empty array :=
  ⟨fun x points => (same x points).trans (backed.there x points), backed.null⟩

theorem Laid.frame {p : Nat} {n : Node} (laid : Laid held p n)
    (same : ∀ x, n.Owns p x → held' x = held x) : Laid held' p n :=
  { laid with
    shape := (same p (.inl rfl)).trans laid.shape
    propArray := laid.propArray.frame fun x points => same x (.inr (.inl points))
    table := laid.table.frame fun x points => same x (.inr (.inr points)) }

theorem Laid.kinds {p : Nat} {n : Node} (laid : Laid held p n) :
    n.shape.propArray ≠ some p ∧ n.shape.transitionTable ≠ some p ∧
      ∀ x, n.shape.propArray = some x → n.shape.transitionTable ≠ some x := by
  refine ⟨fun points => ?_, fun points => ?_, fun x points points' => ?_⟩
  · simpa [laid.shape] using laid.propArray.there p points
  · simpa [laid.shape] using laid.table.there p points
  · simpa [laid.propArray.there x points] using laid.table.there x points'

theorem Lays.loose (lays : Lays held g) (x : Nat) (none : held x = none) (p : Nat) (member : p ∈ g.order) :
    ¬ (g.node p).Owns p x :=
  fun own => (lays.laid p member).taken x own none

theorem Lays.frame (lays : Lays held g)
    (same : ∀ p ∈ g.order, ∀ x, (g.node p).Owns p x → held' x = held x) : Lays held' g :=
  ⟨fun p member => (lays.laid p member).frame (same p member), lays.owned⟩

theorem Lays.set (lays : Lays held g) (p : Nat) (member : p ∈ g.order) (n : Node)
    (laid : Laid held' p n)
    (same : ∀ x, ¬ (g.node p).Owns p x → held x ≠ none → held' x = held x)
    (owns : ∀ x, n.Owns p x → (g.node p).Owns p x ∨ held x = none) : Lays held' (g.set p n) := by
  have apart (q : Nat) (inside : q ∈ g.order) (other : q ≠ p) (x : Nat) (own : (g.node q).Owns q x) :
      ¬ n.Owns p x := fun own' => by
    rcases owns x own' with old | none
    · exact other (lays.owned q inside p member x own old)
    · exact (lays.laid q inside).taken x own none
  refine ⟨fun q inside => ?_, fun q inside r inside' x own own' => ?_⟩
  · by_cases here : q = p
    · subst here
      rwa [Graph.set_here]
    · rw [Graph.set_there _ _ _ _ here]
      refine (lays.laid q inside).frame fun x own => same x (fun own' => here ?_) ?_
      · exact lays.owned q inside p member x own own'
      · exact (lays.laid q inside).taken x own
  · by_cases hereQ : q = p <;> by_cases hereR : r = p
    · exact hereQ.trans hereR.symm
    · subst hereQ
      rw [Graph.set_here] at own
      rw [Graph.set_there _ _ _ _ hereR] at own'
      exact (apart r inside' hereR x own' own).elim
    · subst hereR
      rw [Graph.set_here] at own'
      rw [Graph.set_there _ _ _ _ hereQ] at own
      exact (apart q inside hereQ x own own').elim
    · rw [Graph.set_there _ _ _ _ hereQ] at own
      rw [Graph.set_there _ _ _ _ hereR] at own'
      exact lays.owned q inside r inside' x own own'

theorem Lays.append (lays : Lays held g) (child : Nat) (fresh : child ∉ g.order) (n : Node)
    (laid : Laid held' child n) (same : ∀ x, held x ≠ none → held' x = held x)
    (owns : ∀ x, n.Owns child x → held x = none) : Lays held' (g.append child n) := by
  have other (q : Nat) (inside : q ∈ g.order) : q ≠ child := fun same => fresh (same ▸ inside)
  refine ⟨fun q inside => ?_, fun q inside r inside' x own own' => ?_⟩
  · rcases List.mem_append.mp inside with old | new
    · rw [Graph.append_there _ _ _ _ (other q old)]
      exact (lays.laid q old).frame fun x own => same x ((lays.laid q old).taken x own)
    · obtain rfl := List.mem_singleton.mp new
      rwa [Graph.append_here]
  · rcases List.mem_append.mp inside with oldQ | newQ <;>
      rcases List.mem_append.mp inside' with oldR | newR
    · rw [Graph.append_there _ _ _ _ (other q oldQ)] at own
      rw [Graph.append_there _ _ _ _ (other r oldR)] at own'
      exact lays.owned q oldQ r oldR x own own'
    · obtain rfl := List.mem_singleton.mp newR
      rw [Graph.append_there _ _ _ _ (other q oldQ)] at own
      rw [Graph.append_here] at own'
      exact ((lays.laid q oldQ).taken x own (owns x own')).elim
    · obtain rfl := List.mem_singleton.mp newQ
      rw [Graph.append_there _ _ _ _ (other r oldR)] at own'
      rw [Graph.append_here] at own
      exact ((lays.laid r oldR).taken x own' (owns x own)).elim
    · exact (List.mem_singleton.mp newQ).trans (List.mem_singleton.mp newR).symm

theorem Covers.set (covers : Covers held g) (p : Nat) (member : p ∈ g.order) (n : Node)
    (more : ∀ x, held' x ≠ none → held x ≠ none ∨ n.Owns p x)
    (lost : ∀ x, (g.node p).Owns p x → n.Owns p x ∨ held' x = none) : Covers held' (g.set p n) := by
  intro x taken
  have here (own : n.Owns p x) : ∃ q ∈ (g.set p n).order, ((g.set p n).node q).Owns q x :=
    ⟨p, member, by rwa [Graph.set_here]⟩
  rcases more x taken with before | own
  · obtain ⟨q, inside, own⟩ := covers x before
    by_cases same : q = p
    · subst same
      rcases lost x own with own' | none
      · exact here own'
      · exact (taken none).elim
    · exact ⟨q, inside, by rwa [Graph.set_there _ _ _ _ same]⟩
  · exact here own

theorem Covers.append (covers : Covers held g) (child : Nat) (fresh : child ∉ g.order) (n : Node)
    (more : ∀ x, held' x ≠ none → held x ≠ none ∨ n.Owns child x) :
    Covers held' (g.append child n) := by
  intro x taken
  rcases more x taken with before | own
  · obtain ⟨q, inside, own⟩ := covers x before
    have other : q ≠ child := fun same => fresh (same ▸ inside)
    refine ⟨q, List.mem_append_left _ inside, ?_⟩
    rwa [Graph.append_there _ _ _ _ other]
  · exact ⟨child, by simp, by rwa [Graph.append_here]⟩

def Node.retable (n : Node) (ptr : Nat) (slack : List TransitionEntry) : Node :=
  { n with
    shape := { n.shape with
      transitionTable := some ptr
      transitionCapacity := n.entries.length + slack.length }
    slack := slack }

theorem Lays.retable (lays : Lays held g) (p : Nat) (member : p ∈ g.order) (ptr : Nat)
    (fresh : held ptr = none) (slack : List TransitionEntry) (roomy : slack ≠ [])
    (few : (g.node p).entries.length + slack.length ≤ uint16Max)
    (atShape : held' p = some (.shape ((g.node p).retable ptr slack).shape))
    (atTable : held' ptr = some (.transitions ((g.node p).entries ++ slack)))
    (same : ∀ x, x ≠ p → x ≠ ptr → (g.node p).shape.transitionTable ≠ some x → held' x = held x) :
    Lays held' (g.set p ((g.node p).retable ptr slack)) := by
  have laid := lays.laid p member
  obtain ⟨kindP, _, kindX⟩ := laid.kinds
  have notPtr (x : Nat) (taken : held x ≠ none) : x ≠ ptr := fun here => taken (here ▸ fresh)
  refine lays.set p member _ ?_ (fun x foreign taken => ?_) fun x own => ?_
  · refine { laid with shape := atShape, propArray := ?_, table := ?_, transitionCapacity := rfl, fewEntries := few }
    · refine laid.propArray.frame fun x points => same x ?_ (notPtr x ?_) (kindX x points)
      · exact fun here => kindP (here ▸ points)
      · exact laid.taken x (.inr (.inl points))
    · exact ⟨fun x points => Option.some.inj points ▸ atTable, by simp [Node.retable, roomy]⟩
  · exact same x (fun here => foreign (.inl here)) (notPtr x taken) fun points => foreign (.inr (.inr points))
  · rcases own with here | array | table
    · exact .inl (.inl here)
    · exact .inl (.inr (.inl array))
    · exact .inr (Option.some.inj table ▸ fresh)

theorem Covers.retable (covers : Covers held g) (p : Nat) (member : p ∈ g.order) (ptr : Nat)
    (slack : List TransitionEntry) (taken : held p ≠ none)
    (same : ∀ x, x ≠ p → x ≠ ptr → (g.node p).shape.transitionTable ≠ some x → held' x = held x)
    (gone : ∀ x, x ≠ ptr → (g.node p).shape.transitionTable = some x → held' x = none) :
    Covers held' (g.set p ((g.node p).retable ptr slack)) := by
  refine covers.set p member _ (fun x taken' => ?_) fun x own => ?_
  · by_cases table : x = ptr
    · exact .inr (.inr (.inr (congrArg some table.symm)))
    · by_cases shape : x = p
      · exact .inl (shape ▸ taken)
      · refine .inl fun none => taken' ?_
        by_cases old : (g.node p).shape.transitionTable = some x
        · exact gone x table old
        · exact (same x shape table old).trans none
  · by_cases table : x = ptr
    · exact .inl (.inr (.inr (congrArg some table.symm)))
    · rcases own with here | array | old
      · exact .inl (.inl here)
      · exact .inl (.inr (.inl array))
      · exact .inr (gone x table old)

theorem Lays.reshape (lays : Lays held g) (p : Nat) (member : p ∈ g.order) (s : Shape)
    (same : { s with
      parentShape := (g.node p).shape.parentShape
      nextShapeInArena := (g.node p).shape.nextShapeInArena
      prevShapeInArena := (g.node p).shape.prevShapeInArena
      shapeFlags := (g.node p).shape.shapeFlags } = (g.node p).shape) :
    Lays (Function.update held p (some (.shape s))) (g.set p { g.node p with shape := s }) := by
  have laid := lays.laid p member
  obtain ⟨kindP, kindT, _⟩ := laid.kinds
  have other (x : Nat) (notP : x ≠ p) :
      Function.update held p (some (.shape s)) x = held x := Function.update_of_ne notP ..
  cases n : g.node p with
  | mk shape properties entries slack =>
  rw [n] at laid same kindP kindT
  obtain ⟨parent, next, prev, flags, count, array, transitions, capacity, table⟩ := shape
  obtain ⟨parent', next', prev', flags', count', array', transitions', capacity', table'⟩ := s
  simp only [Shape.mk.injEq, true_and] at same
  obtain ⟨rfl, rfl, rfl, rfl, rfl⟩ := same
  refine lays.set p member _ ?_ (fun x foreign _ => other x fun here => foreign (.inl here)) ?_
  · exact { laid with
      shape := Function.update_self ..
      propArray := laid.propArray.frame fun x points => other x fun here => kindP (here ▸ points)
      table := laid.table.frame fun x points => other x fun here => kindT (here ▸ points) }
  · rw [n]
    exact fun x own => .inl own

theorem Covers.reshape (covers : Covers held g) (p : Nat) (member : p ∈ g.order) (taken : held p ≠ none)
    (s : Shape) (array : s.propArray = (g.node p).shape.propArray)
    (table : s.transitionTable = (g.node p).shape.transitionTable) :
    Covers (Function.update held p (some (.shape s))) (g.set p { g.node p with shape := s }) := by
  refine covers.set p member _ (fun x taken' => .inl ?_) fun x own => .inl ?_
  · by_cases here : x = p
    · exact here ▸ taken
    · rwa [Function.update_of_ne here] at taken'
  · simpa [Node.Owns, array, table] using own

theorem Covers.same (covers : Covers held g) (p : Nat) (member : p ∈ g.order) (n : Node)
    (array : n.shape.propArray = (g.node p).shape.propArray)
    (table : n.shape.transitionTable = (g.node p).shape.transitionTable)
    (taken : ∀ x, held' x ≠ none → held x ≠ none) : Covers held' (g.set p n) :=
  covers.set p member n (fun x taken' => .inl (taken x taken'))
    fun x own => .inl (by simpa [Node.Owns, array, table] using own)

theorem Lays.describe (lays : Lays held g) (p : Nat) (member : p ∈ g.order) (array : Nat)
    (points : (g.node p).shape.propArray = some array) (properties : List PropertyDescriptor)
    (length : properties.length = (g.node p).properties.length) :
    Lays (Function.update held array (some (.properties properties)))
      (g.set p { g.node p with properties := properties }) := by
  have laid := lays.laid p member
  obtain ⟨kindP, kindT, kindX⟩ := laid.kinds
  have other (x : Nat) (notArray : x ≠ array) :
      Function.update held array (some (.properties properties)) x = held x :=
    Function.update_of_ne notArray ..
  refine lays.set p member _ ?_ (fun x foreign _ => other x fun here => foreign ?_) fun x own => .inl own
  · refine ⟨?_, ⟨fun x points' => ?_, ?_⟩, ?_, ?_, laid.transitionCount, laid.transitionCapacity, ?_,
      laid.fewEntries⟩
    · exact (other p fun here => kindP (here ▸ points)).trans laid.shape
    · obtain rfl := Option.some.inj (points.symm.trans points')
      exact Function.update_self ..
    · rw [laid.propArray.null, ← List.length_eq_zero_iff, ← length, List.length_eq_zero_iff]
    · exact laid.table.frame fun x points' => other x fun here => kindX array points (here ▸ points')
    · exact laid.propertyCount.trans length.symm
    · exact length ▸ laid.fewProperties
  · exact .inr (.inl (here ▸ points))

theorem Lays.enter (lays : Lays held g) (p : Nat) (member : p ∈ g.order) (table : Nat)
    (points : (g.node p).shape.transitionTable = some table) (entries slack : List TransitionEntry)
    (total : entries.length + slack.length = (g.node p).entries.length + (g.node p).slack.length) :
    Lays (Function.update (Function.update held table (some (.transitions (entries ++ slack)))) p
        (some (.shape { (g.node p).shape with transitionCount := entries.length })))
      (g.set p ⟨{ (g.node p).shape with transitionCount := entries.length }, (g.node p).properties,
        entries, slack⟩) := by
  have laid := lays.laid p member
  obtain ⟨kindP, kindT, kindX⟩ := laid.kinds
  have tableP : table ≠ p := fun here => kindT (here ▸ points)
  have other (x : Nat) (notP : x ≠ p) (notTable : x ≠ table) :
      Function.update (Function.update held table (some (.transitions (entries ++ slack)))) p
        (some (.shape { (g.node p).shape with transitionCount := entries.length })) x = held x := by
    rw [Function.update_of_ne notP, Function.update_of_ne notTable]
  refine lays.set p member _ ?_ (fun x foreign _ => other x (fun here => foreign (.inl here))
    fun here => foreign (.inr (.inr (here ▸ points)))) fun x own => .inl own
  refine ⟨Function.update_self .., laid.propArray.frame fun x points' => other x ?_ ?_, ⟨fun x points' => ?_, ?_⟩,
    laid.propertyCount, rfl, laid.transitionCapacity.trans total.symm, laid.fewProperties, ?_⟩
  · exact fun here => kindP (here ▸ points')
  · exact fun here => kindX x points' (here ▸ points)
  · obtain rfl := Option.some.inj (points.symm.trans points')
    rw [Function.update_of_ne tableP, Function.update_self]
  · have null := laid.table.null
    rw [← List.length_eq_zero_iff, List.length_append] at null ⊢
    rw [total]
    exact null
  · rw [total]
    exact laid.fewEntries

def newborn (parent last array : Nat) (flags : BitVec 16) (properties : List PropertyDescriptor) : Node :=
  ⟨⟨some parent, none, some last, flags, properties.length, some array, 0, 0, none⟩, properties, [], []⟩

theorem Lays.newborn (lays : Lays held g) (covers : Covers held g) (child array : Nat)
    (fresh : held child = none) (fresh' : held array = none) (parent last : Nat) (flags : BitVec 16)
    (properties : List PropertyDescriptor)
    (some_ : properties ≠ []) (few : properties.length ≤ uint16Max)
    (atShape : held' child = some (.shape (newborn parent last array flags properties).shape))
    (atArray : held' array = some (.properties properties))
    (same : ∀ x, x ≠ child → x ≠ array → held' x = held x) :
    child ∉ g.order ∧ Lays held' (g.append child (newborn parent last array flags properties)) ∧
      Covers held' (g.append child (newborn parent last array flags properties)) := by
  have absent : child ∉ g.order := fun inside => lays.loose child fresh child inside (.inl rfl)
  refine ⟨absent, lays.append child absent _ ?_ (fun x taken => same x ?_ ?_) fun x own => ?_,
    covers.append child absent _ fun x taken => ?_⟩
  · exact ⟨atShape, ⟨fun x points => Option.some.inj points ▸ atArray, by simp [Shape.newborn, some_]⟩,
      ⟨fun x points => (by cases points), by simp [Shape.newborn]⟩, rfl, rfl, rfl, few, Nat.zero_le _⟩
  · exact fun here => taken (here ▸ fresh)
  · exact fun here => taken (here ▸ fresh')
  · rcases own with here | points | points
    · exact here ▸ fresh
    · exact Option.some.inj points ▸ fresh'
    · cases points
  · by_cases shape : x = child
    · exact .inr (.inl shape)
    · by_cases props : x = array
      · exact .inr (.inr (.inl (congrArg some props.symm)))
      · rw [same x shape props] at taken
        exact .inl taken

end Layout

structure Stands (reservations : Nat → Option Nat) (others : List PageManager.Chunk)
    (foreign : List Block) (w : ShapeWorld) (held : Nat → Option ShapeObject) (g : Graph) : Prop where
  keeps : Keeps reservations others foreign w held
  lays : Lays held g
  covers : Covers held g

end Shape

end ElySquare
