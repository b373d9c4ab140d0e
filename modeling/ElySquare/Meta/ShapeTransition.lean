import ElySquare.Meta.ShapeLayout

set_option autoImplicit false

namespace ElySquare

namespace Shape

section Access

variable {reservations : Nat → Option Nat} {others : List PageManager.Chunk} {foreign : List Block}
  {w : ShapeWorld} {held : Nat → Option ShapeObject}

theorem read_ok (keeps : Keeps reservations others foreign w held) (p : Nat) (shape : Shape)
    (there : held p = some (.shape shape)) : read w p = .ok shape := by
  simp [read, keeps.stored p _ there]

theorem readProperties_ok (keeps : Keeps reservations others foreign w held) (p : Nat)
    (descriptors : List PropertyDescriptor) (there : held p = some (.properties descriptors)) :
    readProperties w (some p) = .ok descriptors := by
  simp [readProperties, keeps.stored p _ there]

theorem readTransitions_ok (keeps : Keeps reservations others foreign w held) (p : Nat)
    (entries : List TransitionEntry) (there : held p = some (.transitions entries)) :
    readTransitions w (some p) = .ok entries := by
  simp [readTransitions, keeps.stored p _ there]

theorem modify_ok (keeps : Keeps reservations others foreign w held) (p : Nat) (shape : Shape)
    (there : held p = some (.shape shape)) (change : Shape → Shape) :
    modify w p change = .ok (store w p (.shape (change shape))) ∧
      Keeps reservations others foreign (store w p (.shape (change shape)))
        (Function.update held p (some (.shape (change shape)))) :=
  ⟨by rw [modify, read_ok keeps p shape there, Result.ok_bind], keeps.put p _ _ there rfl⟩

theorem writeProperty_ok (keeps : Keeps reservations others foreign w held) (p i : Nat)
    (descriptors : List PropertyDescriptor) (there : held p = some (.properties descriptors))
    (inside : i < descriptors.length) (property : PropertyDescriptor) :
    writeProperty w (some p) i property =
        .ok (store w p (.properties (descriptors.set i property))) ∧
      Keeps reservations others foreign (store w p (.properties (descriptors.set i property)))
        (Function.update held p (some (.properties (descriptors.set i property)))) := by
  refine ⟨?_, keeps.put p _ _ there (by simp [Sized.size])⟩
  rw [writeProperty, readProperties_ok keeps p descriptors there, Result.ok_bind, if_pos inside]
  rfl

theorem writeTransition_ok (keeps : Keeps reservations others foreign w held) (p i : Nat)
    (entries : List TransitionEntry) (there : held p = some (.transitions entries))
    (inside : i < entries.length) (entry : TransitionEntry) :
    writeTransition w (some p) i entry = .ok (store w p (.transitions (entries.set i entry))) ∧
      Keeps reservations others foreign (store w p (.transitions (entries.set i entry)))
        (Function.update held p (some (.transitions (entries.set i entry)))) := by
  refine ⟨?_, keeps.put p _ _ there (by simp [Sized.size])⟩
  rw [writeTransition, readTransitions_ok keeps p entries there, Result.ok_bind, if_pos inside]
  rfl

theorem elements_ok {Element : Type} (array : List Element) (count : Nat) (enough : count ≤ array.length) :
    elements array count = .ok (array.take count) :=
  if_pos enough

end Access

namespace Graph

def born (g : Graph) (parent last child array : Nat) (flags : BitVec 16)
    (property : PropertyDescriptor) : Graph :=
  (g.set last { g.node last with
    shape := { (g.node last).shape with nextShapeInArena := some child } }).append child
    (newborn parent last array flags ((g.node parent).properties ++ [property]))

def spawn (g : Graph) (parent last child array : Nat) (flags : BitVec 16) (entry : TransitionEntry)
    (property : PropertyDescriptor) (slack : List TransitionEntry) : Graph :=
  let g' := g.born parent last child array flags property
  g'.set parent ⟨{ (g'.node parent).shape with
      transitionCount := ((g'.node parent).entries ++ [entry]).length },
    (g'.node parent).properties, (g'.node parent).entries ++ [entry], slack⟩

section Spawn

variable {g : Graph} {parent last child array : Nat} {flags : BitVec 16} {entry : TransitionEntry}
  {property : PropertyDescriptor} {slack : List TransitionEntry}

theorem born_view {Field : Type} (view : Node → Field)
    (same : ∀ n : Node, view { n with shape := { n.shape with nextShapeInArena := some child } } = view n)
    (p : Nat) (other : p ≠ child) :
    view ((g.born parent last child array flags property).node p) = view (g.node p) :=
  (congrArg view (append_there _ _ _ _ other)).trans (g.set_view view last _ (same _) p)

theorem spawn_born {Field : Type} (view : Node → Field)
    (same : ∀ (n : Node) count entries slack,
      view ⟨{ n.shape with transitionCount := count }, n.properties, entries, slack⟩ = view n)
    (p : Nat) : view ((g.spawn parent last child array flags entry property slack).node p) =
      view ((g.born parent last child array flags property).node p) :=
  set_view _ view parent _ (same _ _ _ _) p

theorem spawn_there (p : Nat) (other : p ≠ parent) :
    (g.spawn parent last child array flags entry property slack).node p =
      (g.born parent last child array flags property).node p :=
  set_there _ _ _ _ other

theorem spawn_view {Field : Type} (view : Node → Field)
    (same : ∀ n : Node, view { n with shape := { n.shape with nextShapeInArena := some child } } = view n)
    (same' : ∀ (n : Node) count entries slack,
      view ⟨{ n.shape with transitionCount := count }, n.properties, entries, slack⟩ = view n)
    (p : Nat) (other : p ≠ child) :
    view ((g.spawn parent last child array flags entry property slack).node p) = view (g.node p) :=
  (spawn_born view same' p).trans (born_view view same p other)

theorem spawn_child (other : child ≠ parent) :
    (g.spawn parent last child array flags entry property slack).node child =
      newborn parent last array flags ((g.node parent).properties ++ [property]) :=
  (spawn_there child other).trans (append_here ..)

theorem spawn_spawned (member : parent ∈ g.order) (fresh : child ∉ g.order)
    (target : entry.targetShape = some child)
    (inherited : flags = getShapeFlags (g.node parent).shape property.attributes) :
    Spawned g (g.spawn parent last child array flags entry property slack) parent child entry
      property := by
  have other (p : Nat) (inside : p ∈ g.order) : p ≠ child := fun same => fresh (same ▸ inside)
  have atChild : (g.spawn parent last child array flags entry property slack).node child =
      newborn parent last array flags ((g.node parent).properties ++ [property]) :=
    spawn_child (other parent member).symm
  refine ⟨fresh, rfl, congrArg (·.shape.parentShape) atChild, fun p inside => ?_, target,
    congrArg Node.entries atChild, ?_, fun p inside notParent => ?_, congrArg Node.properties atChild,
    fun p inside => ?_, (congrArg (·.shape.shapeFlags) atChild).trans inherited, fun p inside => ?_⟩
  · exact spawn_view (·.shape.parentShape) (fun _ => rfl) (fun _ _ _ _ => rfl) p (other p inside)
  · have atParent : (g.spawn parent last child array flags entry property slack).entries parent =
        ((g.born parent last child array flags property).node parent).entries ++ [entry] :=
      congrArg Node.entries (set_here ..)
    rw [atParent, born_view Node.entries (fun _ => rfl) parent (other parent member)]
    rfl
  · exact (congrArg Node.entries (spawn_there p notParent)).trans
      (born_view Node.entries (fun _ => rfl) p (other p inside))
  · exact spawn_view Node.properties (fun _ => rfl) (fun _ _ _ _ => rfl) p (other p inside)
  · exact spawn_view (·.shape.shapeFlags) (fun _ => rfl) (fun _ _ _ _ => rfl) p (other p inside)

theorem Linked.spawn {list : List Nat} (linked : (g.among list).Linked) (apart : child ≠ parent)
    (fresh : child ∉ list) (ending : list.getLast? = some last) :
    ((g.spawn parent last child array flags entry property slack).among (list ++ [child])).Linked := by
  have other (p : Nat) (inside : p ∈ list) : p ≠ child := fun same => fresh (same ▸ inside)
  have atChild : (g.spawn parent last child array flags entry property slack).node child =
      newborn parent last array flags ((g.node parent).properties ++ [property]) := spawn_child apart
  -- the entry changes no link
  have next (p : Nat) : (g.spawn parent last child array flags entry property slack).next p =
      (g.born parent last child array flags property).next p :=
    spawn_born (·.shape.nextShapeInArena) (fun _ _ _ _ => rfl) p
  refine linked.append last child rfl ending ?_ (congrArg (·.shape.prevShapeInArena) atChild)
    (congrArg (·.shape.nextShapeInArena) atChild) (fun p inside notLast => ?_) fun p inside => ?_
  · have atLast := append_there (g.set last { g.node last with
      shape := { (g.node last).shape with nextShapeInArena := some child } }) child
      (newborn parent last array flags ((g.node parent).properties ++ [property])) last
      (other last (List.mem_of_getLast? ending))
    rw [set_here] at atLast
    exact (next last).trans (congrArg (·.shape.nextShapeInArena) atLast)
  · have atP := append_there (g.set last { g.node last with
      shape := { (g.node last).shape with nextShapeInArena := some child } }) child
      (newborn parent last array flags ((g.node parent).properties ++ [property])) p (other p inside)
    rw [set_there _ _ _ _ notLast] at atP
    exact (next p).trans (congrArg (·.shape.nextShapeInArena) atP)
  · exact spawn_view (·.shape.prevShapeInArena) (fun _ => rfl) (fun _ _ _ _ => rfl) p (other p inside)

end Spawn

end Graph

section Steps

variable {reservations : Nat → Option Nat} {others : List PageManager.Chunk} {foreign : List Block}
  {w : ShapeWorld} {held : Nat → Option ShapeObject} {g : Graph}

theorem getNextTransitionCapacity_more (capacity : Nat) :
    capacity < getNextTransitionCapacity capacity := by
  unfold getNextTransitionCapacity
  split
  · omega
  · split <;> omega

structure Grows (reservations : Nat → Option Nat) (others : List PageManager.Chunk)
    (foreign : List Block) (w : ShapeWorld) (g : Graph) (p : Nat) (after : ShapeWorld)
    (held' : Nat → Option ShapeObject) (g' : Graph) : Prop where
  stands : Stands reservations others foreign after held' g'
  alike : g.Alike g'
  roomy : (g'.node p).slack ≠ []
  last : after.metaArena.lastAllocatedShape = w.metaArena.lastAllocatedShape
  capacity : (g.node p).slack = [] → (g'.node p).shape.transitionCapacity =
    getNextTransitionCapacity (g.node p).shape.transitionCapacity

theorem growTransitionTable_roomy (stands : Stands reservations others foreign w held g) (p : Nat)
    (member : p ∈ g.order) (roomy : (g.node p).slack ≠ []) : growTransitionTable w p = .ok w := by
  have laid := stands.lays.laid p member
  have some_ := List.length_pos_of_ne_nil roomy
  unfold growTransitionTable
  rw [read_ok stands.keeps p _ laid.shape, Result.ok_bind]
  exact if_pos (by rw [laid.transitionCount, laid.transitionCapacity]; omega)

theorem Stands.grows (stands : Stands reservations others foreign w held g) (p : Nat)
    (member : p ∈ g.order) {after : ShapeWorld} {final : Nat → Option ShapeObject}
    (keeps : Keeps reservations others foreign after final) (ptr : Nat) (fresh : held ptr = none)
    (slack : List TransitionEntry) (roomy : slack ≠ [])
    (few : (g.node p).entries.length + slack.length ≤ uint16Max)
    (atShape : final p = some (.shape ((g.node p).retable ptr slack).shape))
    (atTable : final ptr = some (.transitions ((g.node p).entries ++ slack)))
    (gone : ∀ x, (g.node p).shape.transitionTable = some x → final x = none)
    (same : ∀ x, x ≠ p → x ≠ ptr → (g.node p).shape.transitionTable ≠ some x → final x = held x)
    (last : after.metaArena.lastAllocatedShape = w.metaArena.lastAllocatedShape)
    (capacity : (g.node p).entries.length + slack.length =
      getNextTransitionCapacity (g.node p).shape.transitionCapacity) :
    Grows reservations others foreign w g p after final (g.set p ((g.node p).retable ptr slack)) := by
  have taken : held p ≠ none := (stands.lays.laid p member).taken p (.inl rfl)
  have lays := stands.lays.retable p member ptr fresh slack roomy few atShape atTable same
  have covers := stands.covers.retable p member ptr slack taken same fun x _ points => gone x points
  refine ⟨⟨keeps, lays, covers⟩, g.set_alike p _ rfl rfl rfl, ?_, last, fun _ => ?_⟩
  · rwa [Graph.set_here]
  · rw [Graph.set_here]
    exact capacity

theorem growTransitionTable_first (reserves : Reserves reservations)
    (stands : Stands reservations others foreign w held g) (p : Nat) (member : p ∈ g.order)
    (full : (g.node p).slack = []) (empty : (g.node p).entries = []) :
    Meets (growTransitionTable w p) Stop.Starved fun after => ∃ held' g',
      Grows reservations others foreign w g p after held' g' := by
  have laid := stands.lays.laid p member
  have taken : held p ≠ none := laid.taken p (.inl rfl)
  have count : (g.node p).shape.transitionCount = 0 := by rw [laid.transitionCount, empty, List.length_nil]
  have capacity : (g.node p).shape.transitionCapacity = 0 := by
    rw [laid.transitionCapacity, full, empty]
    rfl
  have table : (g.node p).shape.transitionTable = none := laid.table.null.mpr (by rw [empty, full]; rfl)
  unfold growTransitionTable
  rw [read_ok stands.keeps p _ laid.shape, Result.ok_bind, if_neg (by omega), if_pos count]
  refine Meets.bind (stands.keeps.metallocOr_meets reserves _ _ 3 (by decide) (by decide)) ?_
  rintro ⟨ptr, after⟩ ⟨fresh, _, last, given⟩
  have keeps := given (.transitions (List.replicate 2 zeroEntry)) (by simp [Sized.size])
  have other : p ≠ ptr := fun here => taken (here ▸ fresh)
  obtain ⟨done, keeps'⟩ := modify_ok keeps p (g.node p).shape
    (by rw [Function.update_of_ne other]; exact laid.shape)
    fun shape => { shape with transitionTable := some ptr, transitionCapacity := 2 }
  dsimp only at done ⊢
  rw [done, Meets.ok_iff]
  have two : List.replicate 2 zeroEntry ≠ [] := by simp
  refine ⟨_, _, stands.grows p member keeps' ptr fresh (List.replicate 2 zeroEntry) two
    (by simp [empty, uint16Max]) ?_ ?_ ?_ ?_ last (by simp [empty, capacity, getNextTransitionCapacity])⟩
  · rw [Function.update_self]
    simp [Node.retable, empty]
  · rw [Function.update_of_ne other.symm, Function.update_self, empty]
    rfl
  · intro x points
    rw [table] at points
    cases points
  · intro x notP notPtr _
    rw [Function.update_of_ne notP, Function.update_of_ne notPtr]

-- The entries move to a larger table, and the old one goes back under the size it was made with.
theorem growTransitionTable_larger (reserves : Reserves reservations)
    (stands : Stands reservations others foreign w held g) (p : Nat) (member : p ∈ g.order)
    (full : (g.node p).slack = []) (filled : (g.node p).entries ≠ []) :
    Meets (growTransitionTable w p) Stop.Starved fun after => ∃ held' g',
      Grows reservations others foreign w g p after held' g' := by
  have laid := stands.lays.laid p member
  have taken : held p ≠ none := laid.taken p (.inl rfl)
  have count := laid.transitionCount
  have positive := List.length_pos_of_ne_nil filled
  have capacity : (g.node p).shape.transitionCapacity = (g.node p).entries.length := by
    rw [laid.transitionCapacity, full]
    rfl
  obtain ⟨old, points⟩ := Option.ne_none_iff_exists'.mp (mt laid.table.null.mp (by simp [filled]))
  have array := laid.table.there old points
  rw [full, List.append_nil] at array
  have more := getNextTransitionCapacity_more (g.node p).shape.transitionCapacity
  unfold growTransitionTable
  rw [read_ok stands.keeps p _ laid.shape, Result.ok_bind, if_neg (by omega), if_neg (by omega)]
  refine Meets.ite (fun _ => (Meets.error_iff _).mpr trivial) fun few => ?_
  generalize nextCapacity : getNextTransitionCapacity (g.node p).shape.transitionCapacity = newCapacity
    at more few
  have small : newCapacity < 2 ^ 16 := by
    unfold uint16Max at few
    omega
  refine Meets.bind (stands.keeps.metallocOr_meets reserves _ _ 3
    (by unfold sizeofTransitionEntry; omega) (by decide)) ?_
  rintro ⟨ptr, after⟩ ⟨fresh, memory, last, given⟩
  have stored : after.memory old = some (.object (.transitions (g.node p).entries)) :=
    (congrFun memory old).trans (stands.keeps.stored old _ array)
  have found : readTransitions after (some old) = .ok (g.node p).entries := by
    simp [readTransitions, stored]
  dsimp only
  rw [points, found, Result.ok_bind, elements_ok _ _ (Nat.le_of_eq count), Result.ok_bind, count,
    List.take_length]
  generalize slackDef : List.replicate (newCapacity - (g.node p).entries.length) zeroEntry = slack
  have length : slack.length = newCapacity - (g.node p).entries.length := by
    rw [← slackDef, List.length_replicate]
  have roomy : slack ≠ [] := List.ne_nil_of_length_pos (by omega)
  have total : (g.node p).entries.length + slack.length = newCapacity := by omega
  have keeps₁ := given (.transitions ((g.node p).entries ++ slack)) (by simp [Sized.size, total])
  have other : p ≠ ptr := fun here => taken (here ▸ fresh)
  have oldP : old ≠ p := fun here => laid.kinds.2.1 (here ▸ points)
  have oldPtr : old ≠ ptr := fun here => laid.taken old (.inr (.inr points)) (here ▸ fresh)
  obtain ⟨done₁, keeps₂⟩ := modify_ok keeps₁ p (g.node p).shape
    (by rw [Function.update_of_ne other]; exact laid.shape)
    fun shape => { shape with transitionTable := some ptr }
  dsimp only at done₁ keeps₁ keeps₂
  rw [done₁, Result.ok_bind, Option.getD_some]
  have keeps₃ := keeps₂.free old (.transitions (g.node p).entries)
    (sizeofTransitionEntry * (g.node p).shape.transitionCapacity)
    (by rw [Function.update_of_ne oldP, Function.update_of_ne oldPtr, array]) (by rw [capacity]; rfl)
  refine Meets.ite (fun _ => (Meets.error_iff _).mpr trivial) fun _ => ?_
  obtain ⟨done₂, keeps₄⟩ := modify_ok keeps₃ p { (g.node p).shape with transitionTable := some ptr }
    (by rw [Function.update_of_ne oldP.symm, Function.update_self])
    fun shape => { shape with transitionCapacity := newCapacity % 2 ^ 16 }
  dsimp only at done₂ keeps₄
  rw [done₂, Meets.ok_iff]
  refine ⟨_, _, stands.grows p member keeps₄ ptr fresh slack roomy (by unfold uint16Max; omega)
    ?_ ?_ ?_ ?_ ((MetaArena.metarecycle_kept _ _ _).1.trans last) (total.trans nextCapacity.symm)⟩
  · rw [Function.update_self, Nat.mod_eq_of_lt small, Node.retable, total]
  · rw [Function.update_of_ne other.symm, Function.update_of_ne oldPtr.symm,
      Function.update_of_ne other.symm, Function.update_self]
  · intro x points'
    obtain rfl := Option.some.inj (points.symm.trans points')
    rw [Function.update_of_ne oldP, Function.update_self]
  · intro x notP notPtr notOld
    have notOld' : x ≠ old := fun here => notOld (here ▸ points)
    rw [Function.update_of_ne notP, Function.update_of_ne notOld', Function.update_of_ne notP,
      Function.update_of_ne notPtr]

theorem growTransitionTable_meets (reserves : Reserves reservations)
    (stands : Stands reservations others foreign w held g) (p : Nat) (member : p ∈ g.order) :
    Meets (growTransitionTable w p) Stop.Starved fun after => ∃ held' g',
      Grows reservations others foreign w g p after held' g' := by
  by_cases full : (g.node p).slack = []
  · by_cases empty : (g.node p).entries = []
    · exact growTransitionTable_first reserves stands p member full empty
    · exact growTransitionTable_larger reserves stands p member full empty
  · rw [growTransitionTable_roomy stands p member full, Meets.ok_iff]
    exact ⟨held, g, stands, Graph.Alike.refl g, full, rfl, fun none => (full none).elim⟩

theorem link_ok {first shape : Shape} {last child : Nat}
    (keeps : Keeps reservations others foreign w (Function.update held child (some (.shape first))))
    (different : last ≠ child) (there : held last = some (.shape shape)) : ∃ w₁ w₂ mid,
    modify w last (fun shape => { shape with nextShapeInArena := some child }) = .ok w₁ ∧
    modify w₁ child (fun shape => { shape with prevShapeInArena := some last }) = .ok w₂ ∧
    Keeps reservations others foreign w₂ mid ∧
    mid child = some (.shape { first with prevShapeInArena := some last }) ∧
    mid last = some (.shape { shape with nextShapeInArena := some child }) ∧
    ∀ x, x ≠ child → x ≠ last → mid x = held x := by
  obtain ⟨done₁, keeps₁⟩ := modify_ok keeps last shape
    (by rw [Function.update_of_ne different]; exact there)
    fun shape => { shape with nextShapeInArena := some child }
  obtain ⟨done₂, keeps₂⟩ := modify_ok keeps₁ child first
    (by rw [Function.update_of_ne different.symm, Function.update_self])
    fun shape => { shape with prevShapeInArena := some last }
  refine ⟨_, _, _, done₁, done₂, keeps₂, Function.update_self .., ?_, fun x notChild notLast => ?_⟩
  · rw [Function.update_of_ne different, Function.update_self]
  · rw [Function.update_of_ne notChild, Function.update_of_ne notLast, Function.update_of_ne notChild]

theorem Laid.usedProperties_ok {p : Nat} {n : Node} (laid : Laid held p n) (s : Shape)
    (count : s.propertyCount = n.properties.length) (array : s.propArray = n.shape.propArray)
    (kept : ∀ x, held x = some (.properties n.properties) →
      w.memory x = some (.object (.properties n.properties))) :
    usedProperties w s = .ok n.properties := by
  unfold usedProperties
  rw [count, array]
  by_cases none : n.properties.length = 0
  · rw [if_pos none, List.length_eq_zero_iff.mp none]
  · have some_ := mt laid.propArray.null.mp (mt List.length_eq_zero_iff.mpr none)
    obtain ⟨x, points⟩ := Option.ne_none_iff_exists'.mp some_
    have stored := kept x (laid.propArray.there x points)
    have found : readProperties w (some x) = .ok n.properties := by
      simp [readProperties, stored]
    rw [if_neg none, points, found, Result.ok_bind, elements_ok _ _ (Nat.le_refl _), List.take_length]

-- The parent as `makeShape` reads it once the new shape is linked: it may be the last shape itself.
theorem Stands.linked_parent (stands : Stands reservations others foreign w held g) {parent last : Nat}
    (member : parent ∈ g.order) {child : Nat} (fresh : held child = none) {mid : Nat → Option ShapeObject}
    (atLast : mid last = some (.shape { (g.node last).shape with nextShapeInArena := some child }))
    (before : ∀ x, x ≠ child → x ≠ last → mid x = held x) (atomFlags : BitVec 16) :
    ∃ s, mid parent = some (.shape s) ∧ s.propertyCount = (g.node parent).properties.length ∧
      getShapeFlags s atomFlags = getShapeFlags (g.node parent).shape atomFlags ∧
      s.propArray = (g.node parent).shape.propArray := by
  have laid := stands.lays.laid parent member
  have count := laid.propertyCount
  have parentChild : parent ≠ child := fun here => laid.taken parent (.inl rfl) (here ▸ fresh)
  by_cases same : parent = last
  · subst same
    exact ⟨_, atLast, count, rfl, rfl⟩
  · exact ⟨_, (before parent parentChild same).trans laid.shape, count, rfl, rfl⟩

theorem Stands.born (stands : Stands reservations others foreign w held g) {parent last : Nat}
    (member' : last ∈ g.order) (room : (g.node parent).properties.length < uint16Max)
    {child array : Nat} (fresh : held child = none) (fresh' : held array = none) {w' : ShapeWorld}
    {final : Nat → Option ShapeObject} (keeps : Keeps reservations others foreign w' final)
    (flags : BitVec 16) (property : PropertyDescriptor)
    (atChild : final child = some (.shape (newborn parent last array flags
      ((g.node parent).properties ++ [property])).shape))
    (atArray : final array = some (.properties ((g.node parent).properties ++ [property])))
    (same : ∀ x, x ≠ child → x ≠ array → final x = Function.update held last
      (some (.shape { (g.node last).shape with nextShapeInArena := some child })) x) :
    child ∉ g.order ∧ Stands reservations others foreign w' final
      (g.born parent last child array flags property) := by
  have taken := (stands.lays.laid last member').taken last (.inl rfl)
  have notChild : child ≠ last := fun here => taken (here ▸ fresh)
  have notArray : array ≠ last := fun here => taken (here ▸ fresh')
  have lays := stands.lays.reshape last member'
    { (g.node last).shape with nextShapeInArena := some child } rfl
  have covers := stands.covers.reshape last member' taken
    { (g.node last).shape with nextShapeInArena := some child } rfl rfl
  obtain ⟨absent, lays', covers'⟩ := lays.newborn covers child array
    (by rw [Function.update_of_ne notChild, fresh]) (by rw [Function.update_of_ne notArray, fresh'])
    parent last flags _ (by simp) (by rw [List.length_append]; exact room) atChild atArray same
  exact ⟨absent, keeps, lays', covers'⟩

theorem makeShape_meets (reserves : Reserves reservations)
    (stands : Stands reservations others foreign w held g) (parent last : Nat)
    (member : parent ∈ g.order) (member' : last ∈ g.order)
    (ending : w.metaArena.lastAllocatedShape = some last)
    (room : (g.node parent).properties.length < uint16Max) (atomFlags : BitVec 16) :
    Meets (makeShape w parent atomFlags) Stop.Starved fun made => ∃ held' array, made.1 ∉ g.order ∧
      Stands reservations others foreign made.2 held' (g.born parent last made.1 array
        (getShapeFlags (g.node parent).shape atomFlags) zeroProperty) ∧
      made.2.metaArena.lastAllocatedShape = some made.1 := by
  have laidLast := stands.lays.laid last member'
  have laidParent := stands.lays.laid parent member
  have takenLast := laidLast.taken last (.inl rfl)
  unfold makeShape
  refine Meets.bind (stands.keeps.metallocOr_meets reserves _ _ 3 (by decide) (by decide)) ?_
  rintro ⟨child, after⟩ ⟨fresh, memory, keptLast, given⟩
  have lastChild : last ≠ child := fun here => takenLast (here ▸ fresh)
  have keeps₁ := given (.shape { zero with parentShape := some parent }) rfl
  dsimp only at keptLast ⊢
  rw [show (store after child _).metaArena.lastAllocatedShape = some last from keptLast.trans ending]
  dsimp only
  obtain ⟨w₁, w₂, mid, done₁, done₂, keeps, atChild, atLast, before⟩ :=
    link_ok keeps₁ lastChild laidLast.shape
  rw [done₁, Result.ok_bind, done₂, Result.ok_bind]
  obtain ⟨s, atParent, sameCount, sameFlags, sameArray⟩ :=
    stands.linked_parent member fresh atLast before atomFlags
  have wrap : ((g.node parent).properties.length + 1) % 2 ^ 16 = (g.node parent).properties.length + 1 :=
    Nat.mod_eq_of_lt (by unfold uint16Max at room; omega)
  rw [read_ok keeps parent s atParent, Result.ok_bind, sameFlags, sameCount, wrap]
  obtain ⟨done₄, keeps₄⟩ := modify_ok keeps child _ atChild fun shape => { shape with
    shapeFlags := getShapeFlags (g.node parent).shape atomFlags
    propertyCount := (g.node parent).properties.length + 1 }
  rw [done₄, Result.ok_bind]
  refine Meets.bind (keeps₄.metallocOr_meets reserves _ _ 2
    (by unfold sizeofPropertyDescriptor; unfold uint16Max at room; omega) (by decide)) ?_
  rintro ⟨array, after'⟩ ⟨fresh', memory', last', given'⟩
  dsimp only at fresh' memory' last' ⊢
  have notChild : array ≠ child := fun here => by
    rw [here, Function.update_self] at fresh'
    cases fresh'
  rw [Function.update_of_ne notChild] at fresh'
  have notLast : array ≠ last := fun here => by
    rw [here, atLast] at fresh'
    cases fresh'
  have free : held array = none := (before array notChild notLast).symm.trans fresh'
  have copied : usedProperties after' s = .ok (g.node parent).properties := by
    refine laidParent.usedProperties_ok s sameCount sameArray fun x there => ?_
    have x1 : x ≠ child := fun here => by simp [here, fresh] at there
    have x2 : x ≠ last := fun here => by simp [here, laidLast.shape] at there
    exact (congrFun memory' x).trans (keeps₄.stored x _
      (by rw [Function.update_of_ne x1, before x x1 x2, there]))
  have rest : (g.node parent).properties.length + 1 - (g.node parent).properties.length = 1 := by omega
  rw [copied, Result.ok_bind, rest]
  have keeps₅ := given' (.properties ((g.node parent).properties ++ List.replicate 1 zeroProperty))
    (by simp [Sized.size])
  obtain ⟨done₆, keeps₆⟩ := modify_ok keeps₅ child _
    (by rw [Function.update_of_ne notChild.symm, Function.update_self])
    fun shape => { shape with propArray := some array }
  rw [done₆, Result.ok_bind, Meets.ok_iff]
  obtain ⟨final, keeps₇, atChild', atArray, same⟩ : ∃ final,
      Keeps reservations others foreign _ final ∧
      final child = some (.shape (newborn parent last array (getShapeFlags (g.node parent).shape atomFlags)
        ((g.node parent).properties ++ [zeroProperty])).shape) ∧
      final array = some (.properties ((g.node parent).properties ++ [zeroProperty])) ∧
      ∀ x, x ≠ child → x ≠ array → final x = Function.update held last
        (some (.shape { (g.node last).shape with nextShapeInArena := some child })) x := by
    refine ⟨_, keeps₆.setLast (some child), ?_, ?_, fun x notChild' notArray => ?_⟩
    · rw [Function.update_self]
      simp [newborn, zero]
    · rw [Function.update_of_ne notChild, Function.update_self]
      rfl
    · rw [Function.update_of_ne notChild', Function.update_of_ne notArray, Function.update_of_ne notChild']
      by_cases here : x = last
      · rw [here, atLast, Function.update_self]
      · rw [before x notChild' here, Function.update_of_ne here]
  obtain ⟨absent, stands'⟩ := stands.born member' room fresh free keeps₇ _ zeroProperty atChild' atArray
    same
  exact ⟨final, array, absent, stands', rfl⟩

theorem Stands.describe {parent last child array : Nat} {flags : BitVec 16}
    (stands : Stands reservations others foreign w held
      (g.born parent last child array flags zeroProperty)) (property : PropertyDescriptor) :
    ∃ held', writeProperty w (some array) (g.node parent).properties.length property =
        .ok (store w array (.properties ((g.node parent).properties ++ [property]))) ∧
      Stands reservations others foreign
        (store w array (.properties ((g.node parent).properties ++ [property]))) held'
        (g.born parent last child array flags property) := by
  have member : child ∈ (g.born parent last child array flags zeroProperty).order :=
    List.mem_append_right _ (List.mem_singleton.mpr rfl)
  have atChild : (g.born parent last child array flags zeroProperty).node child =
    newborn parent last array flags ((g.node parent).properties ++ [zeroProperty]) :=
    Graph.append_here ..
  have points : ((g.born parent last child array flags zeroProperty).node child).shape.propArray =
    some array := congrArg (·.shape.propArray) atChild
  have there := (stands.lays.laid child member).propArray.there array points
  have list : ((g.born parent last child array flags zeroProperty).node child).properties =
    (g.node parent).properties ++ [zeroProperty] := congrArg Node.properties atChild
  rw [list] at there
  obtain ⟨done, keeps⟩ := writeProperty_ok stands.keeps array (g.node parent).properties.length _ there
    (by simp) property
  have written : ((g.node parent).properties ++ [zeroProperty]).set (g.node parent).properties.length
    property = (g.node parent).properties ++ [property] := by simp
  rw [written] at done keeps
  have graph : (g.born parent last child array flags zeroProperty).set child
      { (g.born parent last child array flags zeroProperty).node child with
        properties := (g.node parent).properties ++ [property] } =
      g.born parent last child array flags property := by
    rw [atChild, Graph.born, Graph.append_set, Graph.born]
    simp [newborn]
  refine ⟨_, done, keeps, ?_, ?_⟩
  · rw [← graph]
    exact stands.lays.describe child member array points _ (by rw [list]; simp)
  · rw [← graph]
    refine stands.covers.same child member _ rfl rfl fun x taken => ?_
    by_cases here : x = array
    · simp [here, there]
    · rwa [Function.update_of_ne here] at taken

theorem Stands.enter (stands : Stands reservations others foreign w held g) (p : Nat)
    (member : p ∈ g.order) (i : Nat) (entry : TransitionEntry) (entries slack : List TransitionEntry)
    (inside : i < (g.node p).entries.length + (g.node p).slack.length)
    (written : ((g.node p).entries ++ (g.node p).slack).set i entry = entries ++ slack)
    (change : Shape → Shape)
    (counted : change (g.node p).shape = { (g.node p).shape with transitionCount := entries.length }) :
    ∃ w₁ w₂ held', writeTransition w (g.node p).shape.transitionTable i entry = .ok w₁ ∧
      modify w₁ p change = .ok w₂ ∧ w₂.metaArena = w.metaArena ∧
      Stands reservations others foreign w₂ held' (g.set p
        ⟨{ (g.node p).shape with transitionCount := entries.length }, (g.node p).properties, entries,
          slack⟩) := by
  have laid := stands.lays.laid p member
  have total := congrArg List.length written
  rw [List.length_set, List.length_append, List.length_append] at total
  have some_ : (g.node p).entries ++ (g.node p).slack ≠ [] := fun none => by
    rw [← List.length_append, none, List.length_nil] at inside
    omega
  obtain ⟨table, points⟩ := Option.ne_none_iff_exists'.mp (mt laid.table.null.mp some_)
  have there := laid.table.there table points
  have tableP : p ≠ table := fun here => laid.kinds.2.1 (here ▸ points)
  obtain ⟨done₁, keeps₁⟩ := writeTransition_ok stands.keeps table i _ there
    (by rwa [List.length_append]) entry
  obtain ⟨done₂, keeps₂⟩ := modify_ok keeps₁ p _ (by rw [Function.update_of_ne tableP]; exact laid.shape)
    change
  rw [counted, written] at keeps₂
  rw [counted] at done₂
  rw [written] at done₁ done₂
  refine ⟨_, _, _, by rw [points]; exact done₁, done₂, rfl, keeps₂,
    stands.lays.enter p member table points entries slack total.symm, ?_⟩
  refine stands.covers.same p member _ rfl rfl fun x taken => ?_
  by_cases here : x = p
  · simp [here, laid.shape]
  · by_cases here' : x = table
    · simp [here', there]
    · rwa [Function.update_of_ne here, Function.update_of_ne here'] at taken

structure Creates (reservations : Nat → Option Nat) (others : List PageManager.Chunk)
    (foreign : List Block) (g : Graph) (p last : Nat) (propertyAtom : Atom)
    (property : PropertyDescriptor) (made : Option Nat × ShapeWorld) (child : Nat) (g₁ : Graph)
    (array : Nat) (flags : BitVec 16) (slack : List TransitionEntry) : Prop where
  result : made.1 = some child
  alike : g.Alike g₁
  heap : ∃ held, Stands reservations others foreign made.2 held
    (g₁.spawn p last child array flags (transiteTo child propertyAtom) property slack)
  spawned : g.Spawned (g₁.spawn p last child array flags (transiteTo child propertyAtom) property slack)
    p child (transiteTo child propertyAtom) property
  last : made.2.metaArena.lastAllocatedShape = some child

theorem Stands.createTransition_meets (reserves : Reserves reservations)
    (stands : Stands reservations others foreign w held g) (p last : Nat) (member : p ∈ g.order)
    (inside : last ∈ g.order) (ending : w.metaArena.lastAllocatedShape = some last)
    (propertyAtom : Atom) (offset : BitVec 16) (isReadonly isHidden isGetter isSetter : Bool) :
    Meets (createTransition w (some p) propertyAtom offset isReadonly isHidden isGetter isSetter)
      Stop.Starved fun made => ∃ child g₁ array flags slack,
        Creates reservations others foreign g p last propertyAtom
          (makePropertyInShape propertyAtom offset isReadonly isHidden isGetter isSetter) made child g₁
          array flags slack := by
  have laid := stands.lays.laid p member
  unfold createTransition
  dsimp only
  rw [read_ok stands.keeps p _ laid.shape, Result.ok_bind, laid.transitionCount]
  refine Meets.bind (growTransitionTable_meets reserves stands p member) ?_
  rintro w₁ ⟨held₁, g₁, stands₁, alike, roomy, sameLast, _⟩
  have member₁ : p ∈ g₁.order := alike.order ▸ member
  have laid₁ := stands₁.lays.laid p member₁
  have entries₁ : (g₁.node p).entries = (g.node p).entries := congrFun alike.entries p
  generalize makePropertyInShape propertyAtom offset isReadonly isHidden isGetter isSetter = property
  rw [read_ok stands₁.keeps p _ laid₁.shape, Result.ok_bind, laid₁.propertyCount]
  refine Meets.ite (fun _ => (Meets.error_iff _).mpr trivial) fun small => ?_
  have room : (g₁.node p).properties.length < uint16Max :=
    Nat.lt_of_le_of_ne laid₁.fewProperties small
  refine Meets.bind (makeShape_meets reserves stands₁ p last member₁ (alike.order ▸ inside)
    (sameLast.trans ending) room property.attributes) ?_
  rintro ⟨child, w₂⟩ ⟨held₂, array, fresh, stands₂, last₂⟩
  dsimp only at fresh stands₂ last₂ ⊢
  generalize inherited : getShapeFlags (g₁.node p).shape property.attributes = flags at stands₂
  have atChild : (g₁.born p last child array flags zeroProperty).node child =
    newborn p last array flags ((g₁.node p).properties ++ [zeroProperty]) := Graph.append_here ..
  have laid₂ := stands₂.lays.laid child (List.mem_append_right _ (List.mem_singleton.mpr rfl))
  obtain ⟨held₃, done₃, stands₃⟩ := stands₂.describe property
  have index : (newborn p last array flags ((g₁.node p).properties ++ [zeroProperty])).shape.propertyCount - 1 =
    (g₁.node p).properties.length := by simp [newborn]
  rw [read_ok stands₂.keeps child _ laid₂.shape, Result.ok_bind, atChild, index,
    show writeProperty w₂ (newborn p last array flags _).shape.propArray _ _ = _ from done₃, Result.ok_bind]
  have member₃ : p ∈ (g₁.born p last child array flags property).order := List.mem_append_left _ member₁
  have laid₃ := stands₃.lays.laid p member₃
  have other : p ≠ child := fun same => fresh (same ▸ member₁)
  rw [read_ok stands₃.keeps p _ laid₃.shape, Result.ok_bind]
  have sameEntries : ((g₁.born p last child array flags property).node p).entries = (g.node p).entries :=
    (Graph.born_view Node.entries (fun _ => rfl) p other).trans entries₁
  have sameSlack : ((g₁.born p last child array flags property).node p).slack = (g₁.node p).slack :=
    Graph.born_view Node.slack (fun _ => rfl) p other
  obtain ⟨spare, slack, roomy'⟩ := List.exists_cons_of_ne_nil roomy
  have few := laid₃.fewEntries
  rw [sameSlack, roomy', List.length_cons] at few
  have wrap : (((g₁.born p last child array flags property).node p).entries.length + 1) % 2 ^ 16 =
      ((g₁.born p last child array flags property).node p).entries.length + 1 :=
    Nat.mod_eq_of_lt (by unfold uint16Max at few; omega)
  obtain ⟨w₄, w₅, held₅, done₄, done₅, sameArena, stands₅⟩ := stands₃.enter p member₃
    ((g₁.born p last child array flags property).node p).entries.length
    (transiteTo child propertyAtom)
    (((g₁.born p last child array flags property).node p).entries ++ [transiteTo child propertyAtom]) slack
    (by rw [sameSlack, roomy', List.length_cons]; omega) (by rw [sameSlack, roomy']; simp)
    (fun shape => { shape with transitionCount := (shape.transitionCount + 1) % 2 ^ 16 })
    (by dsimp only; rw [laid₃.transitionCount, wrap, List.length_append]; rfl)
  rw [← sameEntries, done₄, Result.ok_bind, done₅, Result.ok_bind, Meets.ok_iff]
  have spawned : g₁.Spawned (g₁.spawn p last child array flags (transiteTo child propertyAtom) property
      slack) p child (transiteTo child propertyAtom) property :=
    Graph.spawn_spawned member₁ fresh rfl inherited.symm
  exact ⟨child, g₁, array, flags, slack, rfl, alike, ⟨held₅, stands₅⟩, spawned.alike alike,
    (congrArg MetaArena.lastAllocatedShape sameArena).trans last₂⟩

end Steps

structure Sane (reservations : Nat → Option Nat) (others : List PageManager.Chunk)
    (foreign : List Block) (root : Nat) (w : ShapeWorld) (g : Graph) : Prop where
  heap : ∃ held, Stands reservations others foreign w held g
  linked : g.Linked
  rooted : g.Rooted root
  last : w.metaArena.lastAllocatedShape = g.order.getLast?

/-- An arena with trees of shapes, where the roots `idle` have no place in the list of the others. -/
structure Planted (reservations : Nat → Option Nat) (others : List PageManager.Chunk)
    (foreign : List Block) (idle : List Nat) (root : Nat) (rest : List Nat) (w : ShapeWorld)
    (g : Graph) : Prop where
  heap : ∃ held, Stands reservations others foreign w held g
  order : g.order = idle ++ root :: rest
  linked : (g.among (root :: rest)).Linked
  branching : g.Branching
  roots : ∀ p ∈ g.order, g.parent p = none ↔ p ∉ rest
  last : w.metaArena.lastAllocatedShape = (root :: rest).getLast?

section Transition

variable {reservations : Nat → Option Nat} {others : List PageManager.Chunk} {foreign : List Block}
  {idle : List Nat} {root : Nat} {rest : List Nat} {w : ShapeWorld} {g : Graph}

theorem Sane.split (sane : Sane reservations others foreign root w g) :
    ∃ rest, g.order = root :: rest ∧ root ∉ rest := by
  have first := sane.rooted.tree.first
  have distinct := sane.rooted.tree.distinct
  cases order : g.order with
  | nil => simp [order] at first
  | cons head rest =>
      obtain rfl : head = root := by simpa [order] using first
      exact ⟨rest, rfl, (List.nodup_cons.mp (order ▸ distinct)).1⟩

theorem Sane.planted (sane : Sane reservations others foreign root w g) (rest : List Nat)
    (split : g.order = root :: rest) : Planted reservations others foreign [] root rest w g := by
  have top : root ∉ rest := (List.nodup_cons.mp (split ▸ sane.rooted.tree.distinct)).1
  refine ⟨sane.heap, split, split ▸ sane.linked, sane.rooted.branching, fun p member => ?_,
    split ▸ sane.last⟩
  rw [sane.rooted.tree.orphan p member]
  rcases List.mem_cons.mp (split ▸ member) with rfl | inside
  · simp [top]
  · exact iff_of_false (fun here => top (here ▸ inside)) fun outside => outside inside

theorem Planted.sane (planted : Planted reservations others foreign [] root rest w g)
    (rooted : g.Rooted root) : Sane reservations others foreign root w g := by
  have order : g.order = root :: rest := planted.order
  have linked := planted.linked
  rw [← order] at linked
  exact ⟨planted.heap, linked, rooted, order ▸ planted.last⟩

theorem Planted.exists_last (planted : Planted reservations others foreign idle root rest w g) :
    ∃ last, (root :: rest).getLast? = some last ∧ last ∈ g.order := by
  obtain ⟨last, ending⟩ : ∃ last, (root :: rest).getLast? = some last :=
    ⟨_, List.getLast?_eq_some_getLast (List.cons_ne_nil _ _)⟩
  exact ⟨last, ending, planted.order ▸ List.mem_append_right _ (List.mem_of_getLast? ending)⟩

theorem Planted.roots_spawn (planted : Planted reservations others foreign idle root rest w g)
    {g' : Graph} {q child : Nat} {entry : TransitionEntry} {property : PropertyDescriptor}
    (spawned : g.Spawned g' q child entry property) :
    ∀ p ∈ g'.order, g'.parent p = none ↔ p ∉ rest ++ [child] := by
  intro p inside
  rcases spawned.old_or_new _ inside with old | rfl
  · have other : p ≠ child := fun same => spawned.fresh (same ▸ old)
    rw [spawned.parent p old, planted.roots p old]
    simp [other]
  · simp [spawned.above]

theorem createTransition_meets (reserves : Reserves reservations)
    (planted : Planted reservations others foreign idle root rest w g) (p : Nat) (member : p ∈ g.order)
    (propertyAtom : Atom) (offset : BitVec 16) (isReadonly isHidden isGetter isSetter : Bool) :
    Meets (createTransition w (some p) propertyAtom offset isReadonly isHidden isGetter isSetter)
      Stop.Starved fun made => ∃ child g', made.1 = some child ∧
        Planted reservations others foreign idle root (rest ++ [child]) made.2 g' ∧
        g.Spawned g' p child (transiteTo child propertyAtom)
          (makePropertyInShape propertyAtom offset isReadonly isHidden isGetter isSetter) := by
  obtain ⟨held, stands⟩ := planted.heap
  obtain ⟨last, ending, inside⟩ := planted.exists_last
  refine (stands.createTransition_meets reserves p last member inside (planted.last.trans ending)
    propertyAtom offset isReadonly isHidden isGetter isSetter).weaken ?_
  rintro ⟨result, after⟩ ⟨child, g₁, array, flags, slack, created⟩
  obtain ⟨first, alike, heap, spawned, ended⟩ := created
  have absent : child ∉ g.order := spawned.fresh
  have other : child ≠ p := fun same => absent (same ▸ member)
  refine ⟨child, _, first, ⟨heap, ?_, ?_, ?_, ?_, ?_⟩, spawned⟩
  · exact spawned.order.trans (by rw [planted.order, List.append_assoc, List.cons_append])
  · have linked₁ : (g₁.among (root :: rest)).Linked :=
      planted.linked.congr rfl (fun x _ => congrFun alike.next x) fun x _ => congrFun alike.prev x
    refine linked₁.spawn other (fun here => absent ?_) ending
    exact planted.order ▸ List.mem_append_right _ here
  · exact planted.branching.spawn member spawned
  · exact planted.roots_spawn spawned
  · rw [ended, ← List.cons_append, List.getLast?_concat]

def Graph.matching (g : Graph) (propertyAtom : Atom) (attributes : BitVec 16)
    (entry : TransitionEntry) : Bool :=
  entry.propertyAtom = propertyAtom &&
    entry.targetShape.any fun c => (g.properties c).getLast?.any (·.attributes = attributes)

section Lookup

variable {held : Nat → Option ShapeObject}

theorem getLastProperty_ok (stands : Stands reservations others foreign w held g) (p : Nat)
    (member : p ∈ g.order) : getLastProperty w (some p) = .ok (g.properties p).getLast? := by
  have laid := stands.lays.laid p member
  unfold getLastProperty
  dsimp only
  rw [read_ok stands.keeps p _ laid.shape, Result.ok_bind, laid.propertyCount]
  by_cases none : (g.node p).properties.length = 0
  · rw [if_pos none, Graph.properties, List.length_eq_zero_iff.mp none]
    rfl
  · have some_ := mt laid.propArray.null.mp (mt List.length_eq_zero_iff.mpr none)
    obtain ⟨array, points⟩ := Option.ne_none_iff_exists'.mp some_
    rw [if_neg none, points, readProperties_ok stands.keeps array _ (laid.propArray.there array points),
      Result.ok_bind, ← List.getLast?_eq_getElem?, Graph.properties,
      List.getLast?_eq_some_getLast (mt List.length_eq_zero_iff.mpr none)]

theorem findEntry_ok (stands : Stands reservations others foreign w held g) (propertyAtom : Atom)
    (attributes : BitVec 16) (entries : List TransitionEntry)
    (targets : ∀ entry ∈ entries, ∃ c ∈ g.order, entry.targetShape = some c) :
    findEntry w propertyAtom attributes entries =
      .ok (entries.find? (g.matching propertyAtom attributes)) := by
  induction entries with
  | nil => rfl
  | cons entry rest ih =>
      obtain ⟨c, member, target⟩ := targets entry List.mem_cons_self
      have later := ih fun e listed => targets e (List.mem_cons_of_mem _ listed)
      unfold findEntry
      rw [target]
      by_cases atom : entry.propertyAtom = propertyAtom
      · rw [if_neg (by simp [atom]), getLastProperty_ok stands c member, Result.ok_bind, List.find?_cons,
          later]
        by_cases found : (g.properties c).getLast?.any (·.attributes = attributes)
        · simp [Graph.matching, atom, target, found]
        · simp [Graph.matching, atom, target, found]
      · rw [if_pos (.inr atom), List.find?_cons, later]
        simp [Graph.matching, atom]

theorem sameTransition_ok (branching : g.Branching)
    (stands : Stands reservations others foreign w held g) (p : Nat) (member : p ∈ g.order)
    (propertyAtom : Atom) (attributes : BitVec 16) :
    sameTransition w p propertyAtom attributes =
      .ok ((g.entries p).find? (g.matching propertyAtom attributes)) := by
  have laid := stands.lays.laid p member
  unfold sameTransition findTransition
  dsimp only
  rw [read_ok stands.keeps p _ laid.shape, Result.ok_bind, Result.ok_bind]
  cases points : (g.node p).shape.transitionTable with
  | none =>
      have empty := (List.append_eq_nil_iff.mp (laid.table.null.mp points)).1
      rw [Graph.entries, empty]
      rfl
  | some table =>
      rw [if_pos (by simp), if_neg (by simp),
        readTransitions_ok stands.keeps table _ (laid.table.there table points), Result.ok_bind,
        laid.transitionCount, elements_ok _ _ (by simp), Result.ok_bind, List.take_left]
      exact findEntry_ok stands propertyAtom attributes _ fun entry listed => by
        obtain ⟨c, inside, target, _⟩ := branching.targets p member entry listed
        exact ⟨c, inside, target⟩

theorem transitionShape_found (branching : g.Branching)
    (stands : Stands reservations others foreign w held g) (p : Nat) (member : p ∈ g.order)
    (propertyAtom : Atom) (offset : BitVec 16) (isReadonly isHidden isGetter isSetter : Bool)
    (entry : TransitionEntry) (there : (g.entries p).find? (g.matching propertyAtom
      (attributesOf isReadonly isHidden isGetter isSetter)) = some entry) :
    transitionShape w (some p) propertyAtom offset isReadonly isHidden isGetter isSetter =
      .ok (entry.targetShape, w) := by
  unfold transitionShape
  dsimp only
  rw [sameTransition_ok branching stands p member, Result.ok_bind, there]

end Lookup

theorem Planted.transitionShape_meets (reserves : Reserves reservations)
    (planted : Planted reservations others foreign idle root rest w g) (p : Nat) (member : p ∈ g.order)
    (propertyAtom : Atom) (offset : BitVec 16) (isReadonly isHidden isGetter isSetter : Bool) :
    Meets (transitionShape w (some p) propertyAtom offset isReadonly isHidden isGetter isSetter)
      Stop.Starved fun made =>
        (∃ entry, (g.entries p).find? (g.matching propertyAtom
            (attributesOf isReadonly isHidden isGetter isSetter)) = some entry ∧
          made = (entry.targetShape, w)) ∨
        ((g.entries p).find? (g.matching propertyAtom
            (attributesOf isReadonly isHidden isGetter isSetter)) = none ∧
          ∃ child g', made.1 = some child ∧
            Planted reservations others foreign idle root (rest ++ [child]) made.2 g' ∧
            g.Spawned g' p child (transiteTo child propertyAtom)
              (makePropertyInShape propertyAtom offset isReadonly isHidden isGetter isSetter)) := by
  obtain ⟨held, stands⟩ := planted.heap
  cases found : (g.entries p).find? (g.matching propertyAtom
      (attributesOf isReadonly isHidden isGetter isSetter)) with
  | some entry =>
      rw [transitionShape_found planted.branching stands p member _ _ _ _ _ _ entry found]
      exact (Meets.ok_iff _).mpr (.inl ⟨entry, rfl, rfl⟩)
  | none =>
      unfold transitionShape
      dsimp only
      rw [sameTransition_ok planted.branching stands p member, Result.ok_bind, found]
      refine (createTransition_meets reserves planted p member propertyAtom offset isReadonly isHidden
        isGetter isSetter).weaken fun made post => .inr ⟨rfl, post⟩

theorem transitionShape_meets (reserves : Reserves reservations)
    (sane : Sane reservations others foreign root w g) (p : Nat) (member : p ∈ g.order)
    (propertyAtom : Atom) (offset : BitVec 16) (isReadonly isHidden isGetter isSetter : Bool) :
    Meets (transitionShape w (some p) propertyAtom offset isReadonly isHidden isGetter isSetter)
      Stop.Starved fun made =>
        (∃ entry, (g.entries p).find? (g.matching propertyAtom
            (attributesOf isReadonly isHidden isGetter isSetter)) = some entry ∧
          made = (entry.targetShape, w)) ∨
        ((g.entries p).find? (g.matching propertyAtom
            (attributesOf isReadonly isHidden isGetter isSetter)) = none ∧
          ∃ child g', made.1 = some child ∧ Sane reservations others foreign root made.2 g' ∧
            g.Spawned g' p child (transiteTo child propertyAtom)
              (makePropertyInShape propertyAtom offset isReadonly isHidden isGetter isSetter)) := by
  obtain ⟨rest, split, _⟩ := sane.split
  refine ((sane.planted rest split).transitionShape_meets reserves p member propertyAtom offset
    isReadonly isHidden isGetter isSetter).weaken ?_
  rintro made (found | ⟨none, child, g', first, planted, spawned⟩)
  · exact .inl found
  · exact .inr ⟨none, child, g', first, planted.sane (sane.rooted.spawn member spawned), spawned⟩

end Transition

end Shape

end ElySquare
