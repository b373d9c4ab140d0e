import ElySquare.Meta.ShapeSlots

set_option autoImplicit false

namespace ElySquare

namespace Shape

def isRootShape (w : ShapeWorld) (shape : Option Nat) : Result Bool :=
  match shape with
  | none => .ok false
  | some p => do
    let shape ← read w p
    .ok (decide (shape.parentShape = none))

def hasAttribute (flag : BitVec 16) (prop : Option PropertyDescriptor) : Bool :=
  prop.any fun property => property.attributes &&& flag ≠ 0#16

def isPropertyReadonly (prop : Option PropertyDescriptor) : Bool := hasAttribute accessFlags.readonly prop

def isPropertyHidden (prop : Option PropertyDescriptor) : Bool := hasAttribute accessFlags.hidden prop

def isPropertyGetter (prop : Option PropertyDescriptor) : Bool := hasAttribute accessFlags.isGetter prop

def isPropertySetter (prop : Option PropertyDescriptor) : Bool := hasAttribute accessFlags.isSetter prop

def getPropertyAt (w : ShapeWorld) (shape : Option Nat) (index : Nat) :
    Result (Option PropertyDescriptor) :=
  match shape with
  | none => .ok none
  | some p => do
    let shape ← read w p
    if index ≥ shape.propertyCount then .ok none
    else do
      let descriptors ← readProperties w shape.propArray
      match descriptors[index]? with
      | none => .error (.invalidAccess (shape.propArray.getD 0))
      | some property => .ok (some property)

def getTransitionAt (w : ShapeWorld) (shape : Option Nat) (index : Nat) :
    Result (Option TransitionEntry) :=
  match shape with
  | none => .ok none
  | some p => do
    let shape ← read w p
    if index ≥ shape.transitionCount then .ok none
    else do
      let entries ← readTransitions w shape.transitionTable
      match entries[index]? with
      | none => .error (.invalidAccess (shape.transitionTable.getD 0))
      | some transition => .ok (some transition)

def hasTransitionOn (w : ShapeWorld) (shape : Option Nat) (propertyAtom : Atom) : Result Bool :=
  match shape with
  | none => .ok false
  | some p => do
    let shape ← read w p
    if shape.transitionTable = none then .ok false
    else do
      let entries ← elements (← readTransitions w shape.transitionTable) shape.transitionCount
      .ok (entries.any fun transition => transition.propertyAtom = propertyAtom)

theorem hasAttribute_attributesOf (isReadonly isHidden isGetter isSetter : Bool)
    (property : PropertyDescriptor)
    (made : property.attributes = attributesOf isReadonly isHidden isGetter isSetter) :
    isPropertyReadonly (some property) = isReadonly ∧ isPropertyHidden (some property) = isHidden ∧
      isPropertyGetter (some property) = isGetter ∧ isPropertySetter (some property) = isSetter := by
  unfold isPropertyReadonly isPropertyHidden isPropertyGetter isPropertySetter hasAttribute
  simp only [Option.any_some, made]
  cases isReadonly <;> cases isHidden <;> cases isGetter <;> cases isSetter <;> decide

section Queries

variable {reservations : Nat → Option Nat} {others : List PageManager.Chunk} {foreign : List Block}
  {root : Nat} {w : ShapeWorld} {g : Graph}

theorem Sane.isRootShape_eq (sane : Sane reservations others foreign root w g) (p : Nat)
    (member : p ∈ g.order) : isRootShape w (some p) = .ok (decide (p = root)) := by
  unfold isRootShape
  dsimp only
  rw [sane.reads p member, Result.ok_bind]
  exact congrArg _ (decide_eq_decide.mpr (sane.rooted.tree.orphan p member))

theorem Sane.getPropertyAt_eq (sane : Sane reservations others foreign root w g) (p : Nat)
    (member : p ∈ g.order) (index : Nat) :
    getPropertyAt w (some p) index = .ok (g.properties p)[index]? := by
  obtain ⟨held, stands⟩ := sane.heap
  have laid := stands.lays.laid p member
  unfold getPropertyAt
  dsimp only
  rw [sane.reads p member, Result.ok_bind, laid.propertyCount]
  by_cases outside : index ≥ (g.node p).properties.length
  · rw [if_pos outside, Graph.properties, List.getElem?_eq_none outside]
  · have nonempty : (g.node p).shape.propArray ≠ none := by
      refine mt laid.propArray.null.mp fun none => outside ?_
      simp [none]
    obtain ⟨array, points⟩ := Option.ne_none_iff_exists'.mp nonempty
    rw [if_neg outside, points, readProperties_ok stands.keeps array _ (laid.propArray.there array points),
      Result.ok_bind, Graph.properties, List.getElem?_eq_getElem (Nat.lt_of_not_le outside)]

theorem Sane.getTransitionAt_eq (sane : Sane reservations others foreign root w g) (p : Nat)
    (member : p ∈ g.order) (index : Nat) :
    getTransitionAt w (some p) index = .ok (g.entries p)[index]? := by
  obtain ⟨held, stands⟩ := sane.heap
  have laid := stands.lays.laid p member
  unfold getTransitionAt
  dsimp only
  rw [sane.reads p member, Result.ok_bind, laid.transitionCount]
  by_cases outside : index ≥ (g.node p).entries.length
  · rw [if_pos outside, Graph.entries, List.getElem?_eq_none outside]
  · have nonempty : (g.node p).shape.transitionTable ≠ none := by
      refine mt laid.table.null.mp fun none => outside ?_
      simp [(List.append_eq_nil_iff.mp none).1]
    obtain ⟨table, points⟩ := Option.ne_none_iff_exists'.mp nonempty
    rw [if_neg outside, points, readTransitions_ok stands.keeps table _ (laid.table.there table points),
      Result.ok_bind, Graph.entries, List.getElem?_append_left (Nat.lt_of_not_le outside),
      List.getElem?_eq_getElem (Nat.lt_of_not_le outside)]

theorem Sane.hasTransitionOn_eq (sane : Sane reservations others foreign root w g) (p : Nat)
    (member : p ∈ g.order) (propertyAtom : Atom) : hasTransitionOn w (some p) propertyAtom =
      .ok ((g.entries p).any fun entry => entry.propertyAtom = propertyAtom) := by
  obtain ⟨held, stands⟩ := sane.heap
  have laid := stands.lays.laid p member
  unfold hasTransitionOn
  dsimp only
  rw [sane.reads p member, Result.ok_bind]
  cases points : (g.node p).shape.transitionTable with
  | none =>
      have empty := (List.append_eq_nil_iff.mp (laid.table.null.mp points)).1
      rw [if_pos rfl, Graph.entries, empty]
      rfl
  | some table =>
      rw [if_neg (by simp), readTransitions_ok stands.keeps table _ (laid.table.there table points),
        Result.ok_bind, laid.transitionCount, elements_ok _ _ (by simp), Result.ok_bind, List.take_left]
      rfl

theorem Sane.findTransition_eq (sane : Sane reservations others foreign root w g) (p : Nat)
    (member : p ∈ g.order) (propertyAtom : Atom) (attributes : BitVec 16) :
    findTransition w (some p) propertyAtom attributes =
      .ok ((g.entries p).find? (g.matching propertyAtom attributes)) := by
  obtain ⟨held, stands⟩ := sane.heap
  rw [← sameTransition_ok sane.rooted.branching stands p member]
  unfold sameTransition
  rw [sane.reads p member, Result.ok_bind]
  split
  · rfl
  next absent =>
    unfold findTransition
    dsimp only
    rw [sane.reads p member, Result.ok_bind, if_pos (not_ne_iff.mp absent)]

end Queries

-- From a shape along its transitions, each named by its index.
def follow (w : ShapeWorld) : Option Nat → List Nat → Result (Option Nat)
  | shape, [] => .ok shape
  | shape, index :: rest => do
    match ← getTransitionAt w shape index with
    | none => .ok none
    | some transition => follow w transition.targetShape rest

section Paths

variable {reservations : Nat → Option Nat} {others : List PageManager.Chunk} {foreign : List Block}
  {root : Nat} {w : ShapeWorld} {g : Graph}

theorem Graph.Rooted.targets_nodup (rooted : g.Rooted root) (q : Nat) (member : q ∈ g.order) :
    ((g.entries q).map TransitionEntry.targetShape).Nodup := by
  refine List.nodup_iff_count_le_one.mpr fun target => ?_
  by_cases listed : target ∈ (g.entries q).map TransitionEntry.targetShape
  · obtain ⟨entry, there, rfl⟩ := List.mem_map.mp listed
    obtain ⟨c, inside, target, above⟩ := rooted.targets q member entry there
    rw [List.count_eq_countP, List.countP_map, target, ← rooted.single c inside q above]
    exact Nat.le_of_eq (List.countP_congr fun e _ => by simp [Graph.leadsTo])
  · rw [List.count_eq_zero.mpr listed]
    exact Nat.zero_le _

theorem Graph.Rooted.index_unique (rooted : g.Rooted root) (q : Nat) (member : q ∈ g.order)
    (index index' : Nat) (entry entry' : TransitionEntry) (found : (g.entries q)[index]? = some entry)
    (found' : (g.entries q)[index']? = some entry') (same : entry.targetShape = entry'.targetShape) :
    index = index' := by
  have bound := (List.getElem?_eq_some_iff.mp found).1
  have twice : ((g.entries q).map TransitionEntry.targetShape)[index]? =
      ((g.entries q).map TransitionEntry.targetShape)[index']? := by
    rw [List.getElem?_map, List.getElem?_map, found, found', Option.map_some, Option.map_some, same]
  exact (List.getElem?_inj (by rwa [List.length_map]) (rooted.targets_nodup q member)).mp twice

theorem Graph.Rooted.exists_entry (rooted : g.Rooted root) (p : Nat) (member : p ∈ g.order) (q : Nat)
    (above : g.parent p = some q) : ∃ entry ∈ g.entries q, entry.targetShape = some p := by
  have once := rooted.single p member q above
  obtain ⟨entry, listed, leads⟩ := List.countP_pos_iff.mp (once ▸ Nat.one_pos)
  exact ⟨entry, listed, of_decide_eq_true leads⟩

def Graph.target (g : Graph) (shape : Option Nat) (index : Nat) : Option Nat :=
  shape.bind fun p => (g.entries p)[index]?.bind TransitionEntry.targetShape

theorem Graph.target_iff (q index c : Nat) : g.target (some q) index = some c ↔
    ∃ entry, (g.entries q)[index]? = some entry ∧ entry.targetShape = some c := by
  rw [Graph.target, Option.bind_some, Option.bind_eq_some_iff]

theorem Graph.target_none (path : List Nat) : path.foldl g.target none = none := by
  induction path with
  | nil => rfl
  | cons index rest ih => exact ih

theorem Graph.Rooted.target (rooted : g.Rooted root) (q : Nat) (member : q ∈ g.order) (index c : Nat)
    (leads : g.target (some q) index = some c) : c ∈ g.order ∧ g.parent c = some q := by
  obtain ⟨entry, found, target⟩ := (Graph.target_iff q index c).mp leads
  obtain ⟨c', inside, target', above⟩ := rooted.targets q member entry (List.mem_of_getElem? found)
  cases target.symm.trans target'
  exact ⟨inside, above⟩

theorem Graph.Rooted.path_length (rooted : g.Rooted root) (path : List Nat) (c : Nat)
    (leads : path.foldl g.target (some root) = some c) :
    c ∈ g.order ∧ (g.properties c).length = path.length := by
  induction path using List.reverseRecOn generalizing c with
  | nil =>
      cases leads
      exact ⟨rooted.tree.root_mem, congrArg List.length rooted.bare⟩
  | append_singleton path index ih =>
      rw [List.foldl_concat] at leads
      obtain ⟨q, earlier, _⟩ := Option.bind_eq_some_iff.mp leads
      obtain ⟨member, length⟩ := ih q earlier
      rw [earlier] at leads
      obtain ⟨inside, above⟩ := rooted.target q member index c leads
      obtain ⟨property, longer⟩ := rooted.inherits c inside q above
      exact ⟨inside, by rw [longer, List.length_append, length, List.length_append]; rfl⟩

theorem Graph.Rooted.path_unique (rooted : g.Rooted root) (p : Nat) (member : p ∈ g.order) :
    ∃! path : List Nat, path.foldl g.target (some root) = some p := by
  refine rooted.tree.induct (fun p => ∃! path : List Nat, path.foldl g.target (some root) = some p)
    ?_ ?_ p member
  · refine ⟨[], rfl, fun path leads => ?_⟩
    have length := (rooted.path_length path root leads).2
    rw [rooted.bare] at length
    exact List.length_eq_zero_iff.mp length.symm
  · rintro p member q inside above ⟨path, leads, only⟩
    obtain ⟨entry, listed, target⟩ := rooted.exists_entry p member q above
    obtain ⟨index, found⟩ := List.mem_iff_getElem?.mp listed
    refine ⟨path ++ [index], ?_, fun other leads' => ?_⟩
    · change List.foldl g.target (some root) (path ++ [index]) = some p
      rw [List.foldl_concat, leads]
      exact (Graph.target_iff q index p).mpr ⟨entry, found, target⟩
    · rcases List.eq_nil_or_concat other with rfl | ⟨path', index', rfl⟩
      · have orphan := (rooted.tree.orphan p member).mpr (Option.some.inj leads').symm
        rw [above] at orphan
        cases orphan
      · change List.foldl g.target (some root) (path'.concat index') = some p at leads'
        rw [List.concat_eq_append, List.foldl_concat] at leads'
        obtain ⟨q', earlier, _⟩ := Option.bind_eq_some_iff.mp leads'
        rw [earlier] at leads'
        have above' := (rooted.target q' (rooted.path_length path' q' earlier).1 index' p leads').2
        obtain rfl := Option.some.inj (above.symm.trans above')
        obtain ⟨entry', found', target'⟩ := (Graph.target_iff q index' p).mp leads'
        have same := rooted.index_unique q inside index index' entry entry' found found'
          (target.trans target'.symm)
        rw [only path' earlier, same, List.concat_eq_append]

theorem Sane.follow_eq (sane : Sane reservations others foreign root w g) (path : List Nat) (p : Nat)
    (member : p ∈ g.order) : follow w (some p) path = .ok (path.foldl g.target (some p)) := by
  induction path generalizing p with
  | nil => rfl
  | cons index rest ih =>
      unfold follow
      rw [sane.getTransitionAt_eq p member, Result.ok_bind, List.foldl_cons, Graph.target, Option.bind_some]
      cases found : (g.entries p)[index]? with
      | none => exact congrArg _ (Graph.target_none rest).symm
      | some entry =>
          obtain ⟨c, inside, target, _⟩ := sane.rooted.targets p member entry (List.mem_of_getElem? found)
          dsimp only
          rw [Option.bind_some, target]
          exact ih c inside

theorem path_to_shape (reserves : Reserves reservations) (s : Run)
    (reached : (system reservations).Reachable s) :
    (∀ p, Live s.world p → ∃! path, follow s.world (some s.root) path = .ok (some p)) ∧
    ∀ path, follow s.world (some s.root) path = .ok none ∨ ∃ c, Live s.world c ∧
      follow s.world (some s.root) path = .ok (some c) ∧
      ∀ fuel, path.length < fuel → getShapeChainDepth fuel s.world c = .ok path.length := by
  obtain ⟨others, foreign, g, sane, _⟩ := sane_of_reachable reserves s reached
  have rooted := sane.rooted
  have follows (path : List Nat) := sane.follow_eq path s.root rooted.tree.root_mem
  refine ⟨fun p live => ?_, fun path => ?_⟩
  · simp only [follows, Except.ok.injEq]
    exact rooted.path_unique p ((sane.live_iff p).mp live)
  · rw [follows]
    cases leads : path.foldl g.target (some s.root) with
    | none => exact .inl rfl
    | some c =>
        obtain ⟨inside, length⟩ := rooted.path_length path c leads
        refine .inr ⟨c, (sane.live_iff c).mpr inside, rfl, fun fuel enough => ?_⟩
        rw [← length] at enough ⊢
        exact sane.depth c inside fuel enough

end Paths

theorem path_to_shape_child : ∃ (s : Run) (child : Nat), child ≠ s.root ∧ Live s.world child ∧
    ∃! path, follow s.world (some s.root) path = .ok (some child) := by
  obtain ⟨s, child, reached, other, live, _⟩ := child_reached
  exact ⟨s, child, other, live, (path_to_shape rowOfRegions_reserves s reached).1 child live⟩

end Shape

end ElySquare
