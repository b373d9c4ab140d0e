import ElySquare.Shared.Grown
import ElySquare.Shared.Linked
import ElySquare.Meta.Shape

set_option autoImplicit false

namespace ElySquare

namespace Shape

open Linked

/-- A shape with the contents of its arrays; `slack` is the unused rest of its transition table. -/
structure Node where
  shape : Shape
  properties : List PropertyDescriptor
  entries : List TransitionEntry
  slack : List TransitionEntry

structure Graph where
  order : List Nat
  node : Nat → Node

namespace Graph

def next (g : Graph) (p : Nat) : Option Nat := (g.node p).shape.nextShapeInArena

def prev (g : Graph) (p : Nat) : Option Nat := (g.node p).shape.prevShapeInArena

def parent (g : Graph) (p : Nat) : Option Nat := (g.node p).shape.parentShape

def flags (g : Graph) (p : Nat) : BitVec 16 := (g.node p).shape.shapeFlags

def properties (g : Graph) (p : Nat) : List PropertyDescriptor := (g.node p).properties

def entries (g : Graph) (p : Nat) : List TransitionEntry := (g.node p).entries

def Linked (g : Graph) : Prop := Doubly g.next g.prev g.order.head? g.order

def among (g : Graph) (list : List Nat) : Graph := { g with order := list }

theorem Linked.congr {g g' : Graph} (linked : g.Linked) (order : g'.order = g.order)
    (next : ∀ p ∈ g.order, g'.next p = g.next p) (prev : ∀ p ∈ g.order, g'.prev p = g.prev p) :
    g'.Linked := by
  unfold Graph.Linked
  rw [order]
  exact Doubly.congr _ linked next prev

structure Alike (g g' : Graph) : Prop where
  order : g'.order = g.order
  next : g'.next = g.next
  prev : g'.prev = g.prev
  parent : g'.parent = g.parent
  flags : g'.flags = g.flags
  properties : g'.properties = g.properties
  entries : g'.entries = g.entries

theorem Alike.refl (g : Graph) : g.Alike g := ⟨rfl, rfl, rfl, rfl, rfl, rfl, rfl⟩

theorem Linked.alike {g g' : Graph} (linked : g.Linked) (alike : g.Alike g') : g'.Linked :=
  linked.congr alike.order (fun _ _ => congrFun alike.next _) fun _ _ => congrFun alike.prev _

theorem Linked.append {g g' : Graph} (linked : g.Linked) (last child : Nat)
    (order : g'.order = g.order ++ [child]) (ending : g.order.getLast? = some last)
    (after : g'.next last = some child) (before : g'.prev child = some last)
    (ended : g'.next child = none)
    (next : ∀ p ∈ g.order, p ≠ last → g'.next p = g.next p)
    (prev : ∀ p ∈ g.order, g'.prev p = g.prev p) : g'.Linked := by
  have nonempty : g.order ≠ [] := fun none => by simp [none] at ending
  have head : g'.order.head? = g.order.head? := by
    rw [order, List.head?_append_of_ne_nil _ nonempty]
  have forward := linked.forward.append g.order child
    (fun p h => Option.some.inj (ending.symm.trans h) ▸ after) ended
    (fun p member h => next p member fun same => h (same ▸ ending))
  rw [if_neg nonempty, ← order, ← head] at forward
  have backward := linked.backward.append g.order child (by simp [ending, before]) prev
  rw [← order] at backward
  exact ⟨forward, backward⟩

theorem Linked.remove {g g' : Graph} (linked : g.Linked) (before : List Nat) (p : Nat) (after : List Nat)
    (split : g.order = before ++ p :: after) (inner : before ≠ [])
    (order : g'.order = before ++ after)
    (bridgeNext : ∀ q, before.getLast? = some q → g'.next q = g.next p)
    (bridgePrev : ∀ q, after.head? = some q → g'.prev q = g.prev p)
    (next : ∀ q ∈ before ++ after, before.getLast? ≠ some q → g'.next q = g.next q)
    (prev : ∀ q ∈ before ++ after.tail, g'.prev q = g.prev q) : g'.Linked := by
  unfold Graph.Linked at linked ⊢
  rw [split] at linked
  have head : g'.order.head? = (before ++ p :: after).head? := by
    rw [order, List.head?_append_of_ne_nil _ inner, List.head?_append_of_ne_nil _ inner]
  have forward := linked.forward.remove before after p bridgeNext next
  rw [if_neg inner] at forward
  rw [head, order]
  exact ⟨forward, linked.backward.remove before after p bridgePrev prev⟩

def leadsTo (p : Nat) (entry : TransitionEntry) : Bool := entry.targetShape = some p

structure Branching (g : Graph) : Prop where
  forest : Forest g.order g.parent
  targets : ∀ q ∈ g.order, ∀ entry ∈ g.entries q,
    ∃ c ∈ g.order, entry.targetShape = some c ∧ g.parent c = some q
  single : ∀ p ∈ g.order, ∀ q, g.parent p = some q → (g.entries q).countP (leadsTo p) = 1

theorem Branching.congr {g g' : Graph} (branching : g.Branching) (order : g'.order = g.order)
    (parent : ∀ p ∈ g.order, g'.parent p = g.parent p)
    (entries : ∀ p ∈ g.order, g'.entries p = g.entries p) : g'.Branching := by
  refine ⟨?_, ?_, ?_⟩
  · rw [order]
    exact branching.forest.congr parent
  · rw [order]
    intro q member entry listed
    rw [entries q member] at listed
    obtain ⟨c, inside, target, above⟩ := branching.targets q member entry listed
    exact ⟨c, inside, target, (parent c inside).trans above⟩
  · rw [order]
    intro p member q above
    rw [parent p member] at above
    rw [entries q (branching.forest.parent_mem p q member above)]
    exact branching.single p member q above

theorem Branching.alike {g g' : Graph} (branching : g.Branching) (alike : g.Alike g') : g'.Branching :=
  branching.congr alike.order (fun _ _ => congrFun alike.parent _) fun _ _ => congrFun alike.entries _

structure Rooted (g : Graph) (root : Nat) : Prop where
  tree : Grown g.order root g.parent
  targets : ∀ q ∈ g.order, ∀ entry ∈ g.entries q,
    ∃ c ∈ g.order, entry.targetShape = some c ∧ g.parent c = some q
  single : ∀ p ∈ g.order, ∀ q, g.parent p = some q → (g.entries q).countP (leadsTo p) = 1
  bare : g.properties root = []
  inherits : ∀ p ∈ g.order, ∀ q, g.parent p = some q →
    ∃ property, g.properties p = g.properties q ++ [property]

theorem Rooted.branching {g : Graph} {root : Nat} (rooted : g.Rooted root) : g.Branching :=
  ⟨rooted.tree.forest, rooted.targets, rooted.single⟩

theorem Rooted.lone {g : Graph} {root : Nat} (rooted : g.Rooted root) (order : g.order = [root])
    (q : Nat) (member : q ∈ g.order) : g.entries q = [] := by
  refine List.eq_nil_iff_forall_not_mem.mpr fun entry listed => ?_
  obtain ⟨c, inside, _, above⟩ := rooted.targets q member entry listed
  refine rooted.tree.forest.parent_ne c q inside above ?_
  rw [order] at member inside
  exact (List.mem_singleton.mp member).trans (List.mem_singleton.mp inside).symm

theorem Rooted.congr {g g' : Graph} {root : Nat} (rooted : g.Rooted root) (order : g'.order = g.order)
    (parent : ∀ p ∈ g.order, g'.parent p = g.parent p)
    (entries : ∀ p ∈ g.order, g'.entries p = g.entries p)
    (properties : ∀ p ∈ g.order, g'.properties p = g.properties p) : g'.Rooted root := by
  obtain ⟨_, targets, single⟩ := rooted.branching.congr order parent entries
  refine ⟨?_, targets, single, ?_, ?_⟩
  · rw [order]
    exact rooted.tree.congr parent
  · rw [properties root rooted.tree.root_mem]
    exact rooted.bare
  · rw [order]
    intro p member q above
    rw [parent p member] at above
    rw [properties p member, properties q (rooted.tree.parent_mem p q member above)]
    exact rooted.inherits p member q above

theorem Rooted.alike {g g' : Graph} {root : Nat} (rooted : g.Rooted root) (alike : g.Alike g') :
    g'.Rooted root :=
  rooted.congr alike.order (fun _ _ => congrFun alike.parent _) (fun _ _ => congrFun alike.entries _)
    fun _ _ => congrFun alike.properties _

structure Spawned (g g' : Graph) (q child : Nat) (entry : TransitionEntry)
    (property : PropertyDescriptor) : Prop where
  fresh : child ∉ g.order
  order : g'.order = g.order ++ [child]
  above : g'.parent child = some q
  parent : ∀ p ∈ g.order, g'.parent p = g.parent p
  target : entry.targetShape = some child
  blank : g'.entries child = []
  added : g'.entries q = g.entries q ++ [entry]
  entries : ∀ p ∈ g.order, p ≠ q → g'.entries p = g.entries p
  longer : g'.properties child = g.properties q ++ [property]
  properties : ∀ p ∈ g.order, g'.properties p = g.properties p
  born : g'.flags child = getShapeFlags (g.node q).shape property.attributes
  flags : ∀ p ∈ g.order, g'.flags p = g.flags p

theorem Spawned.alike {g g₁ g' : Graph} {q child : Nat} {entry : TransitionEntry}
    {property : PropertyDescriptor} (spawned : Spawned g₁ g' q child entry property)
    (alike : g.Alike g₁) : Spawned g g' q child entry property := by
  obtain ⟨order, _, _, parent, flags, properties, entries⟩ := alike
  obtain ⟨fresh, order', above, parent', target, blank, added, entries', longer, properties', born,
    flags'⟩ := spawned
  have sameFlags : (g₁.node q).shape.shapeFlags = (g.node q).shape.shapeFlags := congrFun flags q
  rw [order] at fresh order' parent' entries' properties' flags'
  rw [parent] at parent'
  rw [entries] at added entries'
  rw [properties] at longer properties'
  rw [flags] at flags'
  unfold getShapeFlags at born
  rw [sameFlags] at born
  exact ⟨fresh, order', above, parent', target, blank, added, entries', longer, properties', born, flags'⟩

theorem Spawned.stays {g g' : Graph} {q child : Nat} {entry : TransitionEntry}
    {property : PropertyDescriptor} (spawned : Spawned g g' q child entry property) (p : Nat)
    (member : p ∈ g.order) : p ∈ g'.order :=
  spawned.order ▸ List.mem_append_left _ member

theorem Spawned.member {g g' : Graph} {q child : Nat} {entry : TransitionEntry}
    {property : PropertyDescriptor} (spawned : Spawned g g' q child entry property) :
    child ∈ g'.order :=
  spawned.order ▸ List.mem_append_right _ (List.mem_singleton.mpr rfl)

theorem Spawned.old_or_new {g g' : Graph} {q child : Nat} {entry : TransitionEntry}
    {property : PropertyDescriptor} (spawned : Spawned g g' q child entry property) (p : Nat)
    (inside : p ∈ g'.order) : p ∈ g.order ∨ p = child :=
  (List.mem_append.mp (spawned.order ▸ inside)).imp_right List.mem_singleton.mp

theorem Branching.spawn {g g' : Graph} (branching : g.Branching) {q child : Nat}
    {entry : TransitionEntry} {property : PropertyDescriptor} (member : q ∈ g.order)
    (spawned : Spawned g g' q child entry property) : g'.Branching := by
  obtain ⟨fresh, order, above, parent, target, blank, added, entries, _⟩ := spawned
  have other (p : Nat) (inside : p ∈ g.order) : p ≠ child := fun same => fresh (same ▸ inside)
  refine ⟨?_, ?_, ?_⟩
  · rw [order]
    exact branching.forest.grow child fresh
      (fun x outer => Option.some.inj (above.symm.trans outer) ▸ member) parent
  · rw [order]
    intro p inside e listed
    rcases List.mem_append.mp inside with old | new
    · by_cases here : p = q
      · subst here
        rw [added] at listed
        rcases List.mem_append.mp listed with earlier | last
        · obtain ⟨c, inside', target', above'⟩ := branching.targets p old e earlier
          exact ⟨c, List.mem_append_left _ inside', target', (parent c inside').trans above'⟩
        · obtain rfl := List.mem_singleton.mp last
          exact ⟨child, by simp, target, above⟩
      · rw [entries p old here] at listed
        obtain ⟨c, inside', target', above'⟩ := branching.targets p old e listed
        exact ⟨c, List.mem_append_left _ inside', target', (parent c inside').trans above'⟩
    · obtain rfl := List.mem_singleton.mp new
      rw [blank] at listed
      cases listed
  · rw [order]
    intro p inside x outer
    rcases List.mem_append.mp inside with old | new
    · rw [parent p old] at outer
      have single := branching.single p old x outer
      by_cases here : x = q
      · subst here
        have differs : leadsTo p entry = false := by simp [leadsTo, target, (other p old).symm]
        rw [added, List.countP_append, single, List.countP_singleton, differs]
        rfl
      · rwa [entries x (branching.forest.parent_mem p x old outer) here]
    · obtain rfl := List.mem_singleton.mp new
      obtain rfl := Option.some.inj (above.symm.trans outer)
      have none : (g.entries q).countP (leadsTo p) = 0 := by
        refine List.countP_eq_zero.mpr fun e listed leads => ?_
        obtain ⟨c, inside', target', _⟩ := branching.targets q member e listed
        simp only [leadsTo, target', Option.some.injEq, decide_eq_true_eq] at leads
        exact other c inside' leads
      rw [added, List.countP_append, none, List.countP_singleton]
      simp [leadsTo, target]

theorem Rooted.spawn {g g' : Graph} {root : Nat} (rooted : g.Rooted root) {q child : Nat}
    {entry : TransitionEntry} {property : PropertyDescriptor} (member : q ∈ g.order)
    (spawned : Spawned g g' q child entry property) : g'.Rooted root := by
  obtain ⟨_, targets, single⟩ := rooted.branching.spawn member spawned
  obtain ⟨fresh, order, above, parent, _, _, _, _, longer, properties, _, _⟩ := spawned
  refine ⟨?_, targets, single, ?_, ?_⟩
  · rw [order]
    exact rooted.tree.grow child q fresh member above parent
  · rw [properties root rooted.tree.root_mem]
    exact rooted.bare
  · rw [order]
    intro p inside x outer
    rcases List.mem_append.mp inside with old | new
    · rw [parent p old] at outer
      rw [properties p old, properties x (rooted.tree.parent_mem p x old outer)]
      exact rooted.inherits p old x outer
    · obtain rfl := List.mem_singleton.mp new
      obtain rfl := Option.some.inj (above.symm.trans outer)
      exact ⟨property, by rw [longer, properties q member]⟩

structure Pruned (keep : Nat → Bool) (g g' : Graph) : Prop where
  order : g'.order = g.order.filter keep
  parent : ∀ p ∈ g'.order, g'.parent p = g.parent p
  properties : ∀ p ∈ g'.order, g'.properties p = g.properties p
  entries : ∀ p ∈ g'.order,
    (g'.entries p).Perm ((g.entries p).filter fun entry => entry.targetShape.any keep)

theorem Pruned.old {keep : Nat → Bool} {g g' : Graph} (pruned : Pruned keep g g') (p : Nat)
    (inside : p ∈ g'.order) : p ∈ g.order ∧ keep p = true :=
  List.mem_filter.mp (pruned.order ▸ inside)

theorem Branching.prune {g g' : Graph} (branching : g.Branching) (keep : Nat → Bool)
    (closed : ∀ p ∈ g.order, keep p = true → ∀ q, g.parent p = some q → keep q = true)
    (pruned : Pruned keep g g') : g'.Branching := by
  have forest : Forest g'.order g'.parent := by
    have pruning := branching.forest.prune keep closed
    rw [← pruned.order] at pruning
    exact pruning.congr pruned.parent
  refine ⟨forest, ?_, ?_⟩
  · intro q inside entry listed
    have there := List.mem_filter.mp ((pruned.entries q inside).mem_iff.mp listed)
    obtain ⟨c, member, target, above⟩ := branching.targets q (pruned.old q inside).1 entry there.1
    have kept : keep c = true := by simpa [target] using there.2
    have inside' : c ∈ g'.order := pruned.order ▸ List.mem_filter.mpr ⟨member, kept⟩
    exact ⟨c, inside', target, (pruned.parent c inside').trans above⟩
  · intro p inside q above
    have inside' := forest.parent_mem p q inside above
    obtain ⟨member, kept⟩ := pruned.old p inside
    rw [pruned.parent p inside] at above
    rw [(pruned.entries q inside').countP_eq, List.countP_filter, ← branching.single p member q above]
    refine List.countP_congr fun entry _ => ?_
    simp only [leadsTo, Bool.and_eq_true, decide_eq_true_eq, and_iff_left_iff_imp]
    exact fun target => by simp [target, kept]

theorem Rooted.prune {g g' : Graph} {root : Nat} (rooted : g.Rooted root) (keep : Nat → Bool)
    (top : keep root = true)
    (closed : ∀ p ∈ g.order, keep p = true → ∀ q, g.parent p = some q → keep q = true)
    (pruned : Pruned keep g g') : g'.Rooted root := by
  obtain ⟨_, targets, single⟩ := rooted.branching.prune keep closed pruned
  have tree : Grown g'.order root g'.parent := by
    have pruning := rooted.tree.prune keep top closed
    rw [← pruned.order] at pruning
    exact pruning.congr pruned.parent
  refine ⟨tree, targets, single, ?_, ?_⟩
  · rw [pruned.properties root tree.root_mem]
    exact rooted.bare
  · intro p inside q above
    have inside' := tree.parent_mem p q inside above
    rw [pruned.parent p inside] at above
    rw [pruned.properties p inside, pruned.properties q inside']
    exact rooted.inherits p (pruned.old p inside).1 q above

theorem Pruned.refl {g : Graph} (branching : g.Branching) : Pruned (fun _ => true) g g := by
  refine ⟨by simp, fun _ _ => rfl, fun _ _ => rfl, fun p inside => ?_⟩
  rw [List.filter_eq_self.mpr]
  intro entry listed
  obtain ⟨c, _, target, _⟩ := branching.targets p inside entry listed
  simp [target]

theorem Pruned.trans {keep keep' : Nat → Bool} {g g' g'' : Graph} (first : Pruned keep g g')
    (second : Pruned keep' g' g'') : Pruned (fun p => keep p && keep' p) g g'' := by
  have inside (p : Nat) (member : p ∈ g''.order) : p ∈ g'.order :=
    List.mem_of_mem_filter (second.order ▸ member)
  refine ⟨?_, fun p member => ?_, fun p member => ?_, fun p member => ?_⟩
  · rw [second.order, first.order, List.filter_filter]
    simp only [Bool.and_comm]
  · exact (second.parent p member).trans (first.parent p (inside p member))
  · exact (second.properties p member).trans (first.properties p (inside p member))
  · refine (second.entries p member).trans ?_
    refine ((first.entries p (inside p member)).filter _).trans ?_
    rw [List.filter_filter]
    refine List.Perm.of_eq (List.filter_congr fun entry _ => ?_)
    cases entry.targetShape <;> simp [Bool.and_comm]

theorem Pruned.choice {keep keep' : Nat → Bool} {g g' : Graph} (branching : g.Branching)
    (pruned : Pruned keep g g') (same : ∀ p ∈ g.order, keep' p = keep p) : Pruned keep' g g' := by
  refine ⟨?_, pruned.parent, pruned.properties, fun p member => ?_⟩
  · rw [pruned.order]
    exact (List.filter_congr fun p member => same p member).symm
  · refine (pruned.entries p member).trans (List.Perm.of_eq (List.filter_congr fun entry listed => ?_))
    have inside := List.mem_of_mem_filter (pruned.order ▸ member)
    obtain ⟨c, member', target, _⟩ := branching.targets p inside entry listed
    simp [target, same c member']

end Graph

end Shape

end ElySquare
