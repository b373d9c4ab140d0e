import ElySquare.Meta.ShapeTransition

set_option autoImplicit false

namespace ElySquare

namespace Shape

theorem swap_remove {α : Type} (before after : List α) (x last : α)
    (ending : (before ++ x :: after).getLast? = some last) :
    ∃ rest, (before ++ x :: after).set before.length last = rest ++ [last] ∧
      rest.Perm (before ++ after) := by
  have set : (before ++ x :: after).set before.length last = before ++ last :: after := by simp
  rcases List.eq_nil_or_concat after with rfl | ⟨middle, y, rfl⟩
  · exact ⟨before, set, by simp⟩
  · rw [List.concat_eq_append, ← List.cons_append, ← List.append_assoc, List.getLast?_concat] at ending
    obtain rfl := Option.some.inj ending
    refine ⟨before ++ y :: middle, ?_, ?_⟩
    · rw [set]
      simp
    · rw [List.concat_eq_append]
      exact (List.perm_append_singleton y middle).symm.append_left before

section Steps

variable {reservations : Nat → Option Nat} {others : List PageManager.Chunk} {foreign : List Block}
  {w : ShapeWorld} {held : Nat → Option ShapeObject} {g : Graph}

theorem Stands.reshape (stands : Stands reservations others foreign w held g) (p : Nat)
    (member : p ∈ g.order) (change : Shape → Shape)
    (same : { change (g.node p).shape with
      parentShape := (g.node p).shape.parentShape
      nextShapeInArena := (g.node p).shape.nextShapeInArena
      prevShapeInArena := (g.node p).shape.prevShapeInArena
      shapeFlags := (g.node p).shape.shapeFlags } = (g.node p).shape) :
    ∃ w' held', modify w p change = .ok w' ∧ w'.metaArena = w.metaArena ∧
      Stands reservations others foreign w' held'
        (g.set p { g.node p with shape := change (g.node p).shape }) := by
  have laid := stands.lays.laid p member
  obtain ⟨done, keeps⟩ := modify_ok stands.keeps p _ laid.shape change
  have fields := Shape.ext_iff.mp same
  exact ⟨_, _, done, rfl, keeps, stands.lays.reshape p member _ same,
    stands.covers.reshape p member (laid.taken p (.inl rfl)) _ fields.2.2.2.2.2.1
      fields.2.2.2.2.2.2.2.2⟩

theorem Stands.setLast (stands : Stands reservations others foreign w held g) (last : Option Nat) :
    Stands reservations others foreign (setLastAllocatedShape w last) held g :=
  ⟨stands.keeps.setLast last, stands.lays, stands.covers⟩

end Steps

namespace Graph

def setNext (g : Graph) (b : Nat) (next : Option Nat) : Graph :=
  g.set b { g.node b with shape := { (g.node b).shape with nextShapeInArena := next } }

def setPrev (g : Graph) (b : Nat) (prev : Option Nat) : Graph :=
  g.set b { g.node b with shape := { (g.node b).shape with prevShapeInArena := prev } }

theorem setNext_view {Field : Type} (view : Node → Field)
    (same : ∀ n next, view { n with shape := { n.shape with nextShapeInArena := next } } = view n)
    (g : Graph) (b : Nat) (next : Option Nat) (q : Nat) :
    view ((g.setNext b next).node q) = view (g.node q) :=
  g.set_view view b _ (same _ _) q

theorem setPrev_view {Field : Type} (view : Node → Field)
    (same : ∀ n prev, view { n with shape := { n.shape with prevShapeInArena := prev } } = view n)
    (g : Graph) (b : Nat) (prev : Option Nat) (q : Nat) :
    view ((g.setPrev b prev).node q) = view (g.node q) :=
  g.set_view view b _ (same _ _) q

def unlink (g : Graph) (p b : Nat) : Graph :=
  match g.next p with
  | none => g.setNext b none
  | some n => (g.setPrev n (some b)).setNext b (some n)

section Unlink

variable {g : Graph} {p b : Nat}

theorem unlink_view {Field : Type} (view : Node → Field)
    (same : ∀ n next, view { n with shape := { n.shape with nextShapeInArena := next } } = view n)
    (same' : ∀ n prev, view { n with shape := { n.shape with prevShapeInArena := prev } } = view n)
    (q : Nat) : view ((g.unlink p b).node q) = view (g.node q) := by
  unfold unlink
  cases g.next p with
  | none => exact setNext_view view same g b none q
  | some n => exact (setNext_view view same _ b _ q).trans (setPrev_view view same' g n _ q)

theorem unlink_order : (g.unlink p b).order = g.order := by
  unfold unlink
  cases g.next p with
  | none => rfl
  | some n => rfl

theorem setNext_next (g : Graph) (b : Nat) (next : Option Nat) (q : Nat) :
    (g.setNext b next).next q = if q = b then next else g.next q := by
  by_cases here : q = b
  · subst here
    rw [if_pos rfl]
    exact congrArg (·.shape.nextShapeInArena) (set_here ..)
  · rw [if_neg here]
    exact congrArg (·.shape.nextShapeInArena) (set_there _ _ _ _ here)

theorem unlink_next (q : Nat) : (g.unlink p b).next q = if q = b then g.next p else g.next q := by
  unfold unlink
  cases g.next p with
  | none => exact setNext_next g b none q
  | some n =>
      have prev : (g.setPrev n (some b)).next q = g.next q :=
        setPrev_view (·.shape.nextShapeInArena) (fun _ _ => rfl) g n (some b) q
      exact (setNext_next _ b (some n) q).trans (by rw [prev])

theorem unlink_prev (q : Nat) :
    (g.unlink p b).prev q = if g.next p = some q then some b else g.prev q := by
  unfold unlink
  cases g.next p with
  | none => exact setNext_view (·.shape.prevShapeInArena) (fun _ _ => rfl) g b none q
  | some n =>
      refine (setNext_view (·.shape.prevShapeInArena) (fun _ _ => rfl) _ b (some n) q).trans ?_
      by_cases here : q = n
      · subst here
        rw [if_pos rfl]
        exact congrArg (·.shape.prevShapeInArena) (set_here ..)
      · rw [if_neg fun same => here (Option.some.inj same).symm]
        exact congrArg (·.shape.prevShapeInArena) (set_there _ _ _ _ here)

end Unlink

end Graph

section Forget

variable {reservations : Nat → Option Nat} {others : List PageManager.Chunk} {foreign : List Block}
  {w : ShapeWorld} {held : Nat → Option ShapeObject} {g : Graph}

theorem Stands.unlink (stands : Stands reservations others foreign w held g) (p b : Nat)
    (member : b ∈ g.order) (inside : ∀ n, g.next p = some n → n ∈ g.order) :
    ∃ w' held', unlink w (g.node p).shape b = .ok w' ∧ w'.metaArena = w.metaArena ∧
      Stands reservations others foreign w' held' (g.unlink p b) := by
  unfold Shape.unlink Graph.unlink
  have same : (g.node p).shape.nextShapeInArena = g.next p := rfl
  rw [same]
  cases next : g.next p with
  | none => exact stands.reshape b member (fun shape => { shape with nextShapeInArena := none }) rfl
  | some n =>
      obtain ⟨w₁, held₁, done₁, arena₁, stands₁⟩ := stands.reshape n (inside n next)
        (fun shape => { shape with prevShapeInArena := some b }) rfl
      obtain ⟨w₂, held₂, done₂, arena₂, stands₂⟩ := stands₁.reshape b member
        (fun shape => { shape with nextShapeInArena := some n }) rfl
      refine ⟨w₂, held₂, ?_, arena₂.trans arena₁, stands₂⟩
      dsimp only
      rw [done₁, Result.ok_bind, done₂]

theorem usedEntries_ok (stands : Stands reservations others foreign w held g) (q : Nat)
    (member : q ∈ g.order) : usedEntries w (g.node q).shape = .ok (g.entries q) := by
  have laid := stands.lays.laid q member
  unfold usedEntries
  rw [laid.transitionCount]
  by_cases none : (g.node q).entries.length = 0
  · rw [if_pos none, Graph.entries, List.length_eq_zero_iff.mp none]
  · have some_ : (g.node q).entries ++ (g.node q).slack ≠ [] := fun empty =>
      none (List.length_eq_zero_iff.mpr (List.append_eq_nil_iff.mp empty).1)
    obtain ⟨table, points⟩ := Option.ne_none_iff_exists'.mp (mt laid.table.null.mp some_)
    rw [if_neg none, points, readTransitions_ok stands.keeps table _ (laid.table.there table points),
      Result.ok_bind, elements_ok _ _ (by simp), List.take_left]
    rfl

theorem entryOf_some (p : Nat) (entries : List TransitionEntry) (i : Nat)
    (found : entryOf p entries = some i) : ∃ before entry after,
      entries = before ++ entry :: after ∧ i = before.length ∧ Graph.leadsTo p entry = true := by
  obtain ⟨inside, leads, _⟩ := List.findIdx?_eq_some_iff_getElem.mp found
  have split : entries = entries.take i ++ entries[i] :: entries.drop (i + 1) := by
    rw [← List.drop_eq_getElem_cons inside, List.take_append_drop]
  have length : i = (entries.take i).length := by
    rw [List.length_take]
    omega
  exact ⟨_, _, _, split, length, leads⟩

theorem entryOf_split (p : Nat) (entries : List TransitionEntry)
    (single : entries.countP (Graph.leadsTo p) = 1) :
    ∃ before entry after, entries = before ++ entry :: after ∧ entryOf p entries = some before.length ∧
      entries.filter (fun e => !Graph.leadsTo p e) = before ++ after := by
  cases found : entryOf p entries with
  | none =>
      have same : entries.findIdx? (Graph.leadsTo p) = none := found
      rw [List.countP_eq_zero.mpr fun e listed => by
        simp [List.findIdx?_eq_none_iff.mp same e listed]] at single
      cases single
  | some i =>
      obtain ⟨before, entry, after, rfl, rfl, leads⟩ := entryOf_some p entries i found
      rw [List.countP_append, List.countP_cons_of_pos leads] at single
      have first : before.countP (Graph.leadsTo p) = 0 := by omega
      have second : after.countP (Graph.leadsTo p) = 0 := by omega
      refine ⟨_, _, _, rfl, rfl, ?_⟩
      rw [List.filter_append, List.filter_cons_of_neg (by simp [leads]),
        List.filter_eq_self.mpr fun e listed => by simpa using List.countP_eq_zero.mp first e listed,
        List.filter_eq_self.mpr fun e listed => by simpa using List.countP_eq_zero.mp second e listed]

theorem Stands.forgetTransition_at (stands : Stands reservations others foreign w held g) (p q : Nat)
    (member : q ∈ g.order) (before : List TransitionEntry) (entry : TransitionEntry)
    (after : List TransitionEntry) (split : g.entries q = before ++ entry :: after)
    (index : entryOf p (g.entries q) = some before.length) :
    ∃ w' held' entries slack, forgetTransition w p q = .ok w' ∧ w'.metaArena = w.metaArena ∧
      entries.Perm (before ++ after) ∧
      Stands reservations others foreign w' held' (g.set q
        ⟨{ (g.node q).shape with transitionCount := entries.length }, (g.node q).properties, entries,
          slack⟩) := by
  have laid := stands.lays.laid q member
  have same : (g.node q).entries = before ++ entry :: after := split
  have ending := List.getLast?_eq_some_getLast
    (List.append_ne_nil_of_right_ne_nil before (List.cons_ne_nil entry after))
  generalize (before ++ entry :: after).getLast _ = last at ending
  obtain ⟨entries, moved, perm⟩ := swap_remove before after entry last ending
  have length : entries.length + 1 = (g.node q).entries.length := by
    have lengths := congrArg List.length moved
    simp only [List.length_set, List.length_append, List.length_singleton] at lengths
    rw [same, List.length_append, lengths]
  obtain ⟨w₁, w₂, held', done₁, done₂, arena, stands'⟩ := stands.enter q member before.length last entries
    (last :: (g.node q).slack)
    (by rw [same, List.length_append, List.length_cons]; omega)
    (by
      rw [same, List.set_append_left _ _ (by rw [List.length_append, List.length_cons]; omega), moved,
        List.append_assoc]
      rfl)
    (fun shape => { shape with transitionCount := (g.node q).shape.transitionCount - 1 })
    (by dsimp only; rw [laid.transitionCount, ← length, Nat.add_sub_cancel])
  refine ⟨w₂, held', entries, last :: (g.node q).slack, ?_, arena, perm, stands'⟩
  unfold Shape.forgetTransition
  rw [read_ok stands.keeps q _ laid.shape, Result.ok_bind, usedEntries_ok stands q member, Result.ok_bind,
    index]
  dsimp only
  have at' : (g.entries q)[(g.node q).shape.transitionCount - 1]? = some last := by
    rw [laid.transitionCount, ← ending, ← same, List.getLast?_eq_getElem?]
    rfl
  rw [at']
  dsimp only
  rw [done₁, Result.ok_bind, done₂]

theorem Stands.forgetTransition (stands : Stands reservations others foreign w held g) (p q : Nat)
    (member : q ∈ g.order) (single : (g.entries q).countP (Graph.leadsTo p) = 1) :
    ∃ w' held' entries slack, forgetTransition w p q = .ok w' ∧ w'.metaArena = w.metaArena ∧
      entries.Perm ((g.entries q).filter fun e => !Graph.leadsTo p e) ∧
      Stands reservations others foreign w' held' (g.set q
        ⟨{ (g.node q).shape with transitionCount := entries.length }, (g.node q).properties, entries,
          slack⟩) := by
  obtain ⟨before, entry, after, split, index, rest⟩ := entryOf_split p (g.entries q) single
  rw [rest]
  exact stands.forgetTransition_at p q member before entry after split index

theorem Keeps.freeArray (keeps : Keeps reservations others foreign w held) {pointer : Option Nat}
    {empty : Prop} {array : ShapeObject} (backed : Backed held pointer empty array) (size : Nat)
    (same : alignSize size = alignSize (Sized.size array)) (condition : Prop) [Decidable condition]
    (filled : condition ↔ ¬ empty) :
    ∃ w' held', (if condition then MetaArena.metarecycle w (pointer.getD 0) size else w) = w' ∧
      Keeps reservations others foreign w' held' ∧
      w'.metaArena.lastAllocatedShape = w.metaArena.lastAllocatedShape ∧
      (∀ x, pointer = some x → held' x = none) ∧ ∀ x, pointer ≠ some x → held' x = held x := by
  cases points : pointer with
  | none =>
      have blank : ¬ condition := fun h => filled.mp h (backed.null.mp points)
      exact ⟨w, held, if_neg blank, keeps, rfl, fun x h => (by cases h), fun _ _ => rfl⟩
  | some a =>
      have some_ : condition := filled.mpr fun h => by
        rw [backed.null.mpr h] at points
        cases points
      refine ⟨_, _, if_pos some_, keeps.free a array size (backed.there a points) same,
        (MetaArena.metarecycle_kept ..).1, fun x h => ?_, fun x h => ?_⟩
      · obtain rfl := Option.some.inj h
        exact Function.update_self ..
      · exact Function.update_of_ne (fun here => h (congrArg some here.symm)) ..

def Graph.drop (g : Graph) (p : Nat) : Graph := { g with order := g.order.filter fun x => x ≠ p }

theorem killShape_ok (stands : Stands reservations others foreign w held g) (p : Nat)
    (member : p ∈ g.order) :
    ∃ w' held', killShape w (some p) = .ok w' ∧
      w'.metaArena.lastAllocatedShape = w.metaArena.lastAllocatedShape ∧
      Stands reservations others foreign w' held' (g.drop p) := by
  have laid := stands.lays.laid p member
  obtain ⟨kindP, kindT, kindX⟩ := laid.kinds
  obtain ⟨w₁, held₁, done₁, keeps₁, last₁, gone₁, kept₁⟩ := Keeps.freeArray stands.keeps laid.propArray
    (sizeofPropertyDescriptor * (g.node p).shape.propertyCount) (by rw [laid.propertyCount]; rfl)
    ((g.node p).shape.propertyCount ≠ 0) (by rw [laid.propertyCount]; simp)
  have table₁ := laid.table.frame fun x points => kept₁ x fun array => kindX x array points
  obtain ⟨w₂, held₂, done₂, keeps₂, last₂, gone₂, kept₂⟩ := Keeps.freeArray keeps₁ table₁
    (sizeofTransitionEntry * (g.node p).shape.transitionCapacity)
    (by rw [laid.transitionCapacity, ← List.length_append]; rfl)
    ((g.node p).shape.transitionCapacity ≠ 0)
    (by rw [laid.transitionCapacity, ← List.length_append]; simp)
  have keeps₃ := keeps₂.free p (.shape (g.node p).shape) sizeofShape
    ((kept₂ p kindT).trans ((kept₁ p kindP).trans laid.shape)) rfl
  have gone (x : Nat) (own : (g.node p).Owns p x) : Function.update held₂ p none x = none := by
    by_cases here : x = p
    · rw [here, Function.update_self]
    · rw [Function.update_of_ne here]
      by_cases points : (g.node p).shape.transitionTable = some x
      · exact gone₂ x points
      · rw [kept₂ x points]
        exact gone₁ x ((own.resolve_left here).resolve_right points)
  have kept (x : Nat) (foreign : ¬ (g.node p).Owns p x) : Function.update held₂ p none x = held x := by
    rw [Function.update_of_ne fun here => foreign (.inl here),
      kept₂ x fun points => foreign (.inr (.inr points)), kept₁ x fun points => foreign (.inr (.inl points))]
  refine ⟨_, _, ?_, (MetaArena.metarecycle_kept ..).1.trans (last₂.trans last₁), keeps₃, ⟨?_, ?_⟩, ?_⟩
  · unfold killShape
    dsimp only
    rw [read_ok stands.keeps p _ laid.shape, Result.ok_bind, done₁, done₂]
  · intro q inside
    obtain ⟨old, other⟩ := List.mem_filter.mp inside
    refine (stands.lays.laid q old).frame fun x own => kept x fun own' => ?_
    exact (of_decide_eq_true other) (stands.lays.owned q old p member x own own')
  · intro q inside r inside'
    exact stands.lays.owned q (List.mem_of_mem_filter inside) r (List.mem_of_mem_filter inside')
  · intro x taken
    have foreign : ¬ (g.node p).Owns p x := fun own => taken (gone x own)
    rw [kept x foreign] at taken
    obtain ⟨q, inside, own⟩ := stands.covers x taken
    refine ⟨q, List.mem_filter.mpr ⟨inside, decide_eq_true fun here => ?_⟩, own⟩
    exact foreign (here ▸ own)

end Forget

section Remove

variable {reservations : Nat → Option Nat} {others : List PageManager.Chunk} {foreign : List Block}
  {idle : List Nat} {root : Nat} {rest : List Nat} {w : ShapeWorld} {g : Graph}

theorem filter_ne (before : List Nat) (p : Nat) (after : List Nat)
    (distinct : (before ++ p :: after).Nodup) :
    (before ++ p :: after).filter (fun x => x ≠ p) = before ++ after := by
  obtain ⟨_, distinct', apart⟩ := List.nodup_append.mp distinct
  have late (x : Nat) (inside : x ∈ after) : x ≠ p := by
    rintro rfl
    exact (List.nodup_cons.mp distinct').1 inside
  rw [List.filter_append, List.filter_cons_of_neg (by simp),
    List.filter_eq_self.mpr fun x inside => decide_eq_true (apart x inside p List.mem_cons_self),
    List.filter_eq_self.mpr fun x inside => decide_eq_true (late x inside)]

def Graph.forget (g : Graph) (p b q : Nat) (entries slack : List TransitionEntry) : Graph :=
  (g.unlink p b).set q ⟨{ ((g.unlink p b).node q).shape with transitionCount := entries.length },
    ((g.unlink p b).node q).properties, entries, slack⟩

section Views

variable {p b q : Nat} {entries slack : List TransitionEntry}

theorem Graph.forget_unlink {Field : Type} (view : Node → Field)
    (same : ∀ (n : Node) count entries slack,
      view ⟨{ n.shape with transitionCount := count }, n.properties, entries, slack⟩ = view n)
    (x : Nat) :
    view ((g.forget p b q entries slack).node x) = view ((g.unlink p b).node x) :=
  set_view _ view q _ (same _ _ _ _) x

theorem Graph.forget_entries (x : Nat) :
    (g.forget p b q entries slack).entries x = if x = q then entries else g.entries x := by
  by_cases here : x = q
  · subst here
    rw [if_pos rfl]
    exact congrArg Node.entries (set_here ..)
  · rw [if_neg here]
    exact (congrArg Node.entries (set_there _ _ _ _ here)).trans
      (unlink_view Node.entries (fun _ _ => rfl) (fun _ _ => rfl) x)

theorem Graph.forget_linked (before after : List Nat)
    (linked : (g.among (before ++ p :: after)).Linked) (distinct : (before ++ p :: after).Nodup)
    (above : before.getLast? = some b) :
    ((g.forget p b q entries slack).among (before ++ after)).Linked := by
  have inner : before ≠ [] := fun none => by simp [none] at above
  have prevP : g.prev p = some b := (Linked.Doubly.prev_eq before after p linked).trans above
  have nextP : g.next p = after.head? := Linked.Doubly.next_eq before after p linked
  have next (x : Nat) : ((g.forget p b q entries slack).among (before ++ after)).next x =
      if x = b then g.next p else g.next x :=
    (forget_unlink (·.shape.nextShapeInArena) (fun _ _ _ _ => rfl) x).trans (unlink_next x)
  have prev (x : Nat) : ((g.forget p b q entries slack).among (before ++ after)).prev x =
      if g.next p = some x then some b else g.prev x :=
    (forget_unlink (·.shape.prevShapeInArena) (fun _ _ _ _ => rfl) x).trans (unlink_prev x)
  refine linked.remove before p after rfl inner rfl (fun x h => ?_) (fun x h => ?_)
    (fun x _ h => ?_) fun x inside => ?_
  · obtain rfl := Option.some.inj (above.symm.trans h)
    exact (next _).trans (if_pos rfl)
  · rw [prev, nextP, h, if_pos rfl]
    exact prevP.symm
  · have other : x ≠ b := by
      rintro rfl
      exact h above
    exact (next x).trans (if_neg other)
  · refine (prev x).trans (if_neg fun h => ?_)
    rw [nextP] at h
    obtain ⟨rest, rfl⟩ : ∃ rest, after = x :: rest := by
      cases after with
      | nil => cases h
      | cons y rest => exact ⟨rest, by rw [Option.some.inj h]⟩
    obtain ⟨_, distinct', apart⟩ := List.nodup_append.mp distinct
    rcases List.mem_append.mp inside with early | late
    · exact apart x early x (by simp) rfl
    · exact (List.nodup_cons.mp (List.nodup_cons.mp distinct').2).1 late

theorem Graph.forget_pruned (branching : g.Branching) (member : p ∈ g.order)
    (parent : g.parent p = some q)
    (perm : entries.Perm ((g.entries q).filter fun e => !leadsTo p e)) :
    Pruned (fun x => x ≠ p) g ((g.forget p b q entries slack).drop p) := by
  have order : (g.forget p b q entries slack).order = g.order := unlink_order
  refine ⟨congrArg _ order, fun x _ => ?_, fun x _ => ?_, fun x inside => ?_⟩
  · exact (forget_unlink (·.shape.parentShape) (fun _ _ _ _ => rfl) x).trans
      (unlink_view (·.shape.parentShape) (fun _ _ => rfl) (fun _ _ => rfl) x)
  · exact (forget_unlink Node.properties (fun _ _ _ _ => rfl) x).trans
      (unlink_view Node.properties (fun _ _ => rfl) (fun _ _ => rfl) x)
  · have old : x ∈ g.order := order ▸ List.mem_of_mem_filter inside
    refine (List.Perm.of_eq (forget_entries x)).trans ?_
    by_cases here : x = q
    · subst here
      rw [if_pos rfl]
      refine perm.trans (List.Perm.of_eq (List.filter_congr fun entry listed => ?_))
      obtain ⟨c, _, target, _⟩ := branching.targets x old entry listed
      simp [leadsTo, target]
    · rw [if_neg here, List.filter_eq_self.mpr]
      intro entry listed
      obtain ⟨c, _, target, above⟩ := branching.targets x old entry listed
      have other : c ≠ p := by
        rintro rfl
        exact here (Option.some.inj (above.symm.trans parent))
      simp [target, other]

end Views

theorem Planted.distinct (planted : Planted reservations others foreign idle root rest w g) :
    (root :: rest).Nodup :=
  (List.nodup_append.mp (planted.order ▸ planted.branching.forest.distinct)).2.1

section Place

variable {earlier after : List Nat} {p : Nat}

theorem Planted.order_split
    (planted : Planted reservations others foreign idle root (earlier ++ p :: after) w g) :
    g.order = (idle ++ root :: earlier) ++ p :: after := by
  rw [planted.order, List.append_assoc, List.cons_append]

theorem Planted.mem_of_split
    (planted : Planted reservations others foreign idle root (earlier ++ p :: after) w g) :
    p ∈ g.order :=
  planted.order_split ▸ List.mem_append_right _ List.mem_cons_self

theorem Planted.prev_eq
    (planted : Planted reservations others foreign idle root (earlier ++ p :: after) w g) (b : Nat)
    (above : (root :: earlier).getLast? = some b) : g.prev p = some b :=
  (Linked.Doubly.prev_eq (root :: earlier) after p planted.linked).trans above

theorem Planted.retract {held : Nat → Option ShapeObject}
    (planted : Planted reservations others foreign idle root (earlier ++ p :: after) w g)
    (stands : Stands reservations others foreign w held g) (b : Nat)
    (above : (root :: earlier).getLast? = some b) :
    ∃ w₁, Stands reservations others foreign w₁ held g ∧
      (if some p = w.metaArena.lastAllocatedShape then setLastAllocatedShape w (some b) else w) = w₁ ∧
      w₁.metaArena.lastAllocatedShape = (root :: (earlier ++ after)).getLast? := by
  have distinct : ((root :: earlier) ++ p :: after).Nodup := planted.distinct
  have ending := planted.last
  rw [← List.cons_append, List.getLast?_append_cons] at ending
  rw [← List.cons_append]
  rcases List.eq_nil_or_concat after with rfl | ⟨middle, y, rfl⟩
  · refine ⟨_, stands.setLast (some b), if_pos (by rw [ending]; rfl), ?_⟩
    rw [List.append_nil, above]
    rfl
  · rw [List.concat_eq_append] at ending distinct ⊢
    rw [← List.cons_append, List.getLast?_concat] at ending
    have other : some p ≠ w.metaArena.lastAllocatedShape := by
      rw [ending]
      rintro ⟨⟩
      exact (List.nodup_cons.mp (List.nodup_append.mp distinct).2.1).1 (by simp)
    exact ⟨w, stands, if_neg other, by rw [ending, ← List.append_assoc, List.getLast?_concat]⟩

end Place

theorem Planted.forget {earlier after : List Nat} {p : Nat}
    (planted : Planted reservations others foreign idle root (earlier ++ p :: after) w g) (b : Nat)
    (above : (root :: earlier).getLast? = some b) :
    ∃ q w₁ held₁ entries slack, g.parent p = some q ∧ forgetShape w (some p) = .ok w₁ ∧
      entries.Perm ((g.entries q).filter fun e => !Graph.leadsTo p e) ∧
      w₁.metaArena.lastAllocatedShape = (root :: (earlier ++ after)).getLast? ∧
      Stands reservations others foreign w₁ held₁ (g.forget p b q entries slack) := by
  obtain ⟨held, stands⟩ := planted.heap
  have listed (x : Nat) (inside : x ∈ (root :: earlier) ++ p :: after) : x ∈ g.order :=
    planted.order ▸ List.mem_append_right _ inside
  have member := planted.mem_of_split
  have memberB : b ∈ g.order := listed b (List.mem_append_left _ (List.mem_of_getLast? above))
  obtain ⟨q, parent⟩ := Option.ne_none_iff_exists'.mp
    (mt (planted.roots p member).mp fun outside => outside (by simp))
  have memberQ := planted.branching.forest.parent_mem p q member parent
  have nextP : g.next p = after.head? := Linked.Doubly.next_eq (root :: earlier) after p planted.linked
  obtain ⟨w₁, stands₁, memory, last⟩ := planted.retract stands b above
  obtain ⟨w₂, held₂, done₂, arena₂, stands₂⟩ := stands₁.unlink p b memberB fun n next => by
    rw [nextP] at next
    exact listed n (List.mem_append_right _ (List.mem_cons_of_mem _ (List.mem_of_mem_head? next)))
  have order₂ : (g.unlink p b).order = g.order := Graph.unlink_order
  have entriesQ : (g.unlink p b).entries q = g.entries q :=
    Graph.unlink_view Node.entries (fun _ _ => rfl) (fun _ _ => rfl) q
  have single := planted.branching.single p member q parent
  rw [← entriesQ] at single
  obtain ⟨w₃, held₃, entries, slack, done₃, arena₃, perm, stands₃⟩ :=
    stands₂.forgetTransition p q (order₂ ▸ memberQ) single
  rw [entriesQ] at perm
  refine ⟨q, w₃, held₃, entries, slack, parent, ?_, perm, by rw [arena₃, arena₂, last], stands₃⟩
  have prevS : (g.node p).shape.prevShapeInArena = some b := planted.prev_eq b above
  have parentS : (g.node p).shape.parentShape = some q := parent
  unfold forgetShape
  dsimp only
  rw [read_ok stands.keeps p _ (stands.lays.laid p member).shape, Result.ok_bind, prevS]
  dsimp only
  rw [memory, done₂, Result.ok_bind, parentS]
  exact done₃

theorem Planted.roots_prune (planted : Planted reservations others foreign idle root rest w g)
    {keep : Nat → Bool} {g' : Graph} (pruned : Graph.Pruned keep g g') (rest' : List Nat)
    (same : ∀ p, keep p = true → (p ∈ rest' ↔ p ∈ rest)) :
    ∀ p ∈ g'.order, g'.parent p = none ↔ p ∉ rest' := by
  intro p inside
  obtain ⟨member, kept⟩ := pruned.old p inside
  rw [pruned.parent p inside, planted.roots p member, same p kept]

theorem Planted.remove {earlier after : List Nat} {p : Nat}
    (planted : Planted reservations others foreign idle root (earlier ++ p :: after) w g) (b : Nat)
    (above : (root :: earlier).getLast? = some b) (leaf : ∀ x ∈ g.order, g.parent x ≠ some p) :
    ∃ w₁ w₂ g', forgetShape w (some p) = .ok w₁ ∧ killShape w₁ (some p) = .ok w₂ ∧
      Planted reservations others foreign idle root (earlier ++ after) w₂ g' ∧
      Graph.Pruned (fun x => x ≠ p) g g' ∧ g'.flags = g.flags := by
  have order := planted.order_split
  have distinct := order ▸ planted.branching.forest.distinct
  obtain ⟨q, w₁, held₁, entries, slack, parent, done₁, perm, last₁, stands₁⟩ := planted.forget b above
  have order₁ : (g.forget p b q entries slack).order = g.order := Graph.unlink_order
  obtain ⟨w₂, held₂, done₂, last₂, stands₂⟩ := killShape_ok stands₁ p (order₁ ▸ planted.mem_of_split)
  have pruned : Graph.Pruned (fun x => x ≠ p) g ((g.forget p b q entries slack).drop p) :=
    Graph.forget_pruned planted.branching planted.mem_of_split parent perm
  refine ⟨w₁, w₂, _, done₁, done₂, ⟨⟨held₂, stands₂⟩, ?_, ?_, ?_, ?_, last₂.trans last₁⟩, pruned, ?_⟩
  · rw [pruned.order, order, filter_ne _ p after distinct, List.append_assoc, List.cons_append]
  · exact Graph.forget_linked (root :: earlier) after planted.linked planted.distinct above
  · refine planted.branching.prune _ (fun x inside _ y outer => ?_) pruned
    exact decide_eq_true fun here => leaf x inside (here ▸ outer)
  · refine planted.roots_prune pruned _ fun x kept => ?_
    simp [of_decide_eq_true kept]
  · funext x
    exact (Graph.forget_unlink (·.shape.shapeFlags) (fun _ _ _ _ => rfl) x).trans
      (Graph.unlink_view (·.shape.shapeFlags) (fun _ _ => rfl) (fun _ _ => rfl) x)

def Graph.reflag (g : Graph) (p : Nat) (flags : BitVec 16) : Graph :=
  g.set p { g.node p with shape := { (g.node p).shape with shapeFlags := flags } }

theorem Graph.reflag_view {Field : Type} (view : Node → Field)
    (same : ∀ n flags, view { n with shape := { n.shape with shapeFlags := flags } } = view n)
    (p : Nat) (flags : BitVec 16) (q : Nat) : view ((g.reflag p flags).node q) = view (g.node q) :=
  set_view g view p _ (same _ _) q

theorem Graph.reflag_parent (p : Nat) (flags : BitVec 16) (q : Nat) :
    (g.reflag p flags).parent q = g.parent q :=
  reflag_view (·.shape.parentShape) (fun _ _ => rfl) p flags q

theorem Graph.reflag_properties (p : Nat) (flags : BitVec 16) :
    (g.reflag p flags).properties = g.properties :=
  funext fun q => reflag_view Node.properties (fun _ _ => rfl) p flags q

theorem Graph.reflag_entries (p : Nat) (flags : BitVec 16) : (g.reflag p flags).entries = g.entries :=
  funext fun q => reflag_view Node.entries (fun _ _ => rfl) p flags q

theorem Graph.reflag_flags (p : Nat) (flags : BitVec 16) (q : Nat) :
    (g.reflag p flags).flags q = if q = p then flags else g.flags q := by
  by_cases here : q = p
  · subst here
    rw [if_pos rfl]
    exact congrArg (·.shape.shapeFlags) (set_here ..)
  · rw [if_neg here]
    exact congrArg (·.shape.shapeFlags) (set_there _ _ _ _ here)

theorem Planted.reflag (planted : Planted reservations others foreign idle root rest w g) (p : Nat)
    (member : p ∈ g.order) (change : BitVec 16 → BitVec 16) :
    ∃ w', modify w p (fun shape => { shape with shapeFlags := change shape.shapeFlags }) = .ok w' ∧
      Planted reservations others foreign idle root rest w' (g.reflag p (change (g.flags p))) := by
  obtain ⟨held, stands⟩ := planted.heap
  obtain ⟨w', held', done, arena, stands'⟩ := stands.reshape p member
    (fun shape => { shape with shapeFlags := change shape.shapeFlags }) rfl
  refine ⟨w', done, ⟨⟨held', stands'⟩, planted.order, ?_, ?_, fun q inside => ?_, ?_⟩⟩
  · exact planted.linked.congr rfl
      (fun q _ => Graph.reflag_view (·.shape.nextShapeInArena) (fun _ _ => rfl) p _ q)
      fun q _ => Graph.reflag_view (·.shape.prevShapeInArena) (fun _ _ => rfl) p _ q
  · exact planted.branching.congr rfl (fun q _ => Graph.reflag_parent p _ q)
      fun q _ => congrFun (Graph.reflag_entries p _) q
  · rw [Graph.reflag_parent]
    exact planted.roots q inside
  · rw [arena]
    exact planted.last

theorem Sane.reflag (sane : Sane reservations others foreign root w g) (p : Nat) (member : p ∈ g.order)
    (change : BitVec 16 → BitVec 16) :
    ∃ w', modify w p (fun shape => { shape with shapeFlags := change shape.shapeFlags }) = .ok w' ∧
      Sane reservations others foreign root w' (g.reflag p (change (g.flags p))) := by
  obtain ⟨rest, split, _⟩ := sane.split
  obtain ⟨w', done, planted⟩ := (sane.planted rest split).reflag p member change
  exact ⟨w', done, planted.sane (sane.rooted.congr rfl (fun q _ => Graph.reflag_parent p _ q)
    (fun q _ => congrFun (Graph.reflag_entries p _) q)
    fun q _ => congrFun (Graph.reflag_properties p _) q)⟩

theorem Graph.reflag_pruned (branching : g.Branching) (p : Nat) (flags : BitVec 16) :
    Pruned (fun _ => true) g (g.reflag p flags) := by
  obtain ⟨order, _, _, entries⟩ := Pruned.refl branching
  refine ⟨order, fun q _ => reflag_parent p flags q, fun q _ => congrFun (reflag_properties p flags) q,
    fun q inside => ?_⟩
  rw [reflag_entries]
  exact entries q inside

end Remove

section Sweep

variable {reservations : Nat → Option Nat} {others : List PageManager.Chunk} {foreign : List Block}
  {idle : List Nat} {root : Nat} {w : ShapeWorld} {g : Graph}

def Graph.alive (g : Graph) (p : Nat) : Bool := isShapeAlive (g.node p).shape

theorem Graph.alive_congr {g g' : Graph} (p : Nat) (same : g'.flags p = g.flags p) :
    g'.alive p = g.alive p := by
  unfold Graph.alive isShapeAlive
  rw [show (g'.node p).shape.shapeFlags = (g.node p).shape.shapeFlags from same]

-- What the sweep will keep when the shapes of `todo` are still to be visited.
def Graph.spares (g : Graph) (todo : List Nat) (p : Nat) : Bool := p ∉ todo || g.alive p

def Graph.Closed (g : Graph) (todo : List Nat) : Prop :=
  ∀ p ∈ g.order, g.spares todo p = true → ∀ q, g.parent p = some q → g.spares todo q = true

structure Graph.Swept (g g' : Graph) (todo : List Nat) : Prop where
  pruned : Pruned (g.spares todo) g g'
  flags : ∀ p ∈ g'.order, g'.flags p =
    if p ∈ todo then g.flags p &&& ~~~shapeFlags.isMarkedAlive else g.flags p

section Rounds

variable {g₁ g' : Graph} {earlier : List Nat} {last : Nat}

theorem Graph.spares_killed (dead : g.alive last = false) (flags : g₁.flags = g.flags) (p : Nat) :
    g.spares (earlier ++ [last]) p = (decide (p ≠ last) && g₁.spares earlier p) := by
  have same := alive_congr p (congrFun flags p)
  by_cases here : p = last
  · simp [spares, here, dead]
  · simp [spares, here, same]

-- A shape that closed marks do not spare is a leaf when its turn comes, since its children come after.
theorem Graph.Closed.leaf {before after : List Nat} (closed : g.Closed (earlier ++ [last]))
    (forest : Forest g.order g.parent) (split : g.order = before ++ last :: after)
    (within : ∀ x ∈ earlier, x ∈ before) (dead : g.alive last = false) (x : Nat) (inside : x ∈ g.order) :
    g.parent x ≠ some last := by
  intro outer
  have distinct := split ▸ forest.distinct
  have late := forest.later before last after split x inside outer
  have apart : x ∉ earlier ++ [last] := by
    rintro here
    rcases List.mem_append.mp here with early | same
    · exact List.disjoint_of_nodup_append distinct (within x early) (List.mem_cons_of_mem _ late)
    · obtain rfl := List.mem_singleton.mp same
      exact (List.nodup_cons.mp (List.nodup_append.mp distinct).2.1).1 late
  have kept := closed x inside (by simp [Graph.spares, apart]) last outer
  simp [Graph.spares, dead] at kept

theorem Graph.Closed.kill (closed : g.Closed (earlier ++ [last])) (dead : g.alive last = false)
    (pruned : Pruned (fun x => x ≠ last) g g₁) (flags : g₁.flags = g.flags) : g₁.Closed earlier := by
  intro p member spared q above
  obtain ⟨old, other⟩ := List.mem_filter.mp (pruned.order ▸ member)
  rw [pruned.parent p member] at above
  have kept := closed p old (by rw [spares_killed dead flags, other, spared]; rfl) q above
  rw [spares_killed dead flags, Bool.and_eq_true] at kept
  exact kept.2

theorem Graph.Swept.kill (branching : g.Branching) (dead : g.alive last = false)
    (pruned : Pruned (fun x => x ≠ last) g g₁) (flags : g₁.flags = g.flags)
    (swept : g₁.Swept g' earlier) : g.Swept g' (earlier ++ [last]) := by
  have whole := pruned.trans swept.pruned
  refine ⟨whole.choice branching fun p _ => spares_killed dead flags p, fun p member => ?_⟩
  have other : p ≠ last := by
    have inside := (List.mem_filter.mp (whole.order ▸ member)).2
    rw [Bool.and_eq_true] at inside
    exact of_decide_eq_true inside.1
  rw [swept.flags p member, flags]
  simp [other]

theorem Graph.spares_cleared (marked : g.alive last = true) (fresh : last ∉ earlier)
    (flags : BitVec 16) (p : Nat) :
    g.spares (earlier ++ [last]) p = (g.reflag last flags).spares earlier p := by
  by_cases here : p = last
  · simp [spares, here, marked, fresh]
  · have same : (g.reflag last flags).alive p = g.alive p :=
      alive_congr p (by rw [reflag_flags, if_neg here])
    simp [spares, here, same]

theorem Graph.Closed.clear (closed : g.Closed (earlier ++ [last])) (marked : g.alive last = true)
    (fresh : last ∉ earlier) (flags : BitVec 16) : (g.reflag last flags).Closed earlier := by
  intro p member spared q above
  rw [← spares_cleared marked fresh] at spared ⊢
  exact closed p member spared q
    ((reflag_parent last flags p).symm.trans above)

theorem Graph.Swept.clear (branching : g.Branching) (marked : g.alive last = true)
    (fresh : last ∉ earlier)
    (swept : (g.reflag last (g.flags last &&& ~~~shapeFlags.isMarkedAlive)).Swept g' earlier) :
    g.Swept g' (earlier ++ [last]) := by
  have whole := (reflag_pruned branching last _).trans swept.pruned
  refine ⟨whole.choice branching fun p _ => ?_, fun p member => ?_⟩
  · rw [Bool.true_and]
    exact spares_cleared marked fresh _ p
  · rw [swept.flags p member, reflag_flags]
    by_cases here : p = last
    · subst here
      simp [fresh]
    · simp [here]

end Rounds

theorem Planted.sweepFrom_dead {earlier after : List Nat} {last : Nat}
    (planted : Planted reservations others foreign idle root (earlier ++ last :: after) w g) (b : Nat)
    (above : (root :: earlier).getLast? = some b) (dead : g.alive last = false)
    (leaf : ∀ x ∈ g.order, g.parent x ≠ some last) :
    ∃ w₁ g₁, (∀ fuel killed, sweepFrom (fuel + 1) w last killed = sweepFrom fuel w₁ b (killed + 1)) ∧
      Planted reservations others foreign idle root (earlier ++ after) w₁ g₁ ∧
      Graph.Pruned (fun x => x ≠ last) g g₁ ∧ g₁.flags = g.flags := by
  obtain ⟨held, stands⟩ := planted.heap
  have laid := stands.lays.laid last planted.mem_of_split
  have prev : (g.node last).shape.prevShapeInArena = some b := planted.prev_eq b above
  have test : isShapeAlive (g.node last).shape = false := dead
  obtain ⟨w₁, w₂, g₁, done₁, done₂, planted₁, pruned, flags⟩ := planted.remove b above leaf
  refine ⟨w₂, g₁, fun fuel killed => ?_, planted₁, pruned, flags⟩
  conv_lhs => unfold sweepFrom
  rw [read_ok stands.keeps last _ laid.shape, Result.ok_bind, prev]
  dsimp only
  rw [if_pos test, done₁, Result.ok_bind, done₂, Result.ok_bind]

theorem Planted.sweepFrom_marked {earlier after : List Nat} {last : Nat}
    (planted : Planted reservations others foreign idle root (earlier ++ last :: after) w g) (b : Nat)
    (above : (root :: earlier).getLast? = some b) (marked : g.alive last = true) :
    ∃ w₁, (∀ fuel killed, sweepFrom (fuel + 1) w last killed = sweepFrom fuel w₁ b killed) ∧
      Planted reservations others foreign idle root (earlier ++ last :: after) w₁
        (g.reflag last (g.flags last &&& ~~~shapeFlags.isMarkedAlive)) := by
  obtain ⟨held, stands⟩ := planted.heap
  have laid := stands.lays.laid last planted.mem_of_split
  have prev : (g.node last).shape.prevShapeInArena = some b := planted.prev_eq b above
  have test : isShapeAlive (g.node last).shape = true := marked
  obtain ⟨w₁, done₁, planted₁⟩ := planted.reflag last planted.mem_of_split
    fun flags => flags &&& ~~~shapeFlags.isMarkedAlive
  refine ⟨w₁, fun fuel killed => ?_, planted₁⟩
  conv_lhs => unfold sweepFrom
  rw [read_ok stands.keeps last _ laid.shape, Result.ok_bind, prev]
  dsimp only
  rw [if_neg (by rw [test]; decide), done₁, Result.ok_bind]

theorem sweepFrom_ok (fuel : Nat) (todo after : List Nat)
    (planted : Planted reservations others foreign idle root (todo ++ after) w g) (current : Nat)
    (killed : Nat) (ending : (root :: todo).getLast? = some current) (enough : todo.length < fuel)
    (closed : g.Closed todo) :
    ∃ w' g' killed' rest, sweepFrom fuel w current killed = .ok (killed', w') ∧
      Planted reservations others foreign idle root rest w' g' ∧ g.Swept g' todo ∧
      killed' + g'.order.length = killed + g.order.length := by
  induction fuel generalizing w g todo current after killed with
  | zero => omega
  | succ fuel ih =>
      have forest := planted.branching.forest
      rcases List.eq_nil_or_concat todo with rfl | ⟨earlier, last, rfl⟩
      · obtain rfl : root = current := by simpa using ending
        have member : root ∈ g.order := planted.order ▸ by simp
        have prev : (g.node root).shape.prevShapeInArena = none :=
          Linked.Doubly.prev_eq [] after root planted.linked
        obtain ⟨held, stands⟩ := planted.heap
        unfold sweepFrom
        rw [read_ok stands.keeps root _ (stands.lays.laid root member).shape, Result.ok_bind, prev]
        refine ⟨w, g, killed, after, rfl, planted, ⟨?_, fun p _ => by simp⟩, rfl⟩
        exact (Graph.Pruned.refl planted.branching).choice planted.branching
          fun p _ => by simp [Graph.spares]
      · rw [List.concat_eq_append] at ending enough closed planted ⊢
        rw [← List.cons_append, List.getLast?_concat] at ending
        obtain rfl := Option.some.inj ending
        rw [List.append_assoc, List.singleton_append] at planted
        have split := planted.order_split
        have within (x : Nat) (inside : x ∈ earlier) : x ∈ idle ++ root :: earlier :=
          List.mem_append_right _ (List.mem_cons_of_mem _ inside)
        obtain ⟨b, above⟩ : ∃ b, (root :: earlier).getLast? = some b :=
          ⟨_, List.getLast?_eq_some_getLast (List.cons_ne_nil _ _)⟩
        have distinct := split ▸ forest.distinct
        have notEarlier : last ∉ earlier := fun inside =>
          List.disjoint_of_nodup_append distinct (within last inside) List.mem_cons_self
        rw [List.length_append, List.length_singleton] at enough
        cases marked : g.alive last with
        | false =>
            have leaf := closed.leaf forest split within marked
            obtain ⟨w₁, g₁, round, planted₁, pruned, flags⟩ := planted.sweepFrom_dead b above marked leaf
            have order : g₁.order = (idle ++ root :: earlier) ++ after := by
              rw [pruned.order, split, filter_ne _ _ _ distinct]
            obtain ⟨w', g', killed', rest, done, planted', swept, count⟩ := ih earlier after planted₁ b
              (killed + 1) above (by omega) (closed.kill marked pruned flags)
            refine ⟨w', g', killed', rest, (round fuel killed).trans done, planted',
              swept.kill planted.branching marked pruned flags, ?_⟩
            rw [count, order, split]
            simp only [List.length_append, List.length_cons]
            omega
        | true =>
            obtain ⟨w₁, round, planted₁⟩ := planted.sweepFrom_marked b above marked
            obtain ⟨w', g', killed', rest, done, planted', swept, count⟩ := ih earlier (last :: after)
              planted₁ b killed above (by omega) (closed.clear marked notEarlier _)
            exact ⟨w', g', killed', rest, (round fuel killed).trans done, planted',
              swept.clear planted.branching marked notEarlier, count⟩

end Sweep

end Shape

end ElySquare
