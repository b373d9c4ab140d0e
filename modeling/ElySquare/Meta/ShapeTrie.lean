import ElySquare.Shared.Simulation
import ElySquare.Shared.Trie
import ElySquare.Meta.ShapeQueries

set_option autoImplicit false

namespace ElySquare

namespace Shape

open Transition

-- A shape spells a word: for each property its name and its flags.
abbrev Letter := Atom × BitVec 16

def letterOf (property : PropertyDescriptor) : Letter := (property.nameAtom, property.attributes)

def wordOf (w : ShapeWorld) (p : Nat) : List Letter := (propertiesOf w p).map letterOf

section Marks

theorem mark_set (flags : BitVec 16) :
    (flags ||| shapeFlags.isMarkedAlive) &&& shapeFlags.isMarkedAlive = shapeFlags.isMarkedAlive := by
  ext i
  simp only [BitVec.getElem_and, BitVec.getElem_or]
  cases shapeFlags.isMarkedAlive[i] <;> simp

theorem setFlag_mark (flag : BitVec 16) (apart : flag &&& shapeFlags.isMarkedAlive = 0#16)
    (apart' : ~~~flag &&& shapeFlags.isMarkedAlive = shapeFlags.isMarkedAlive) (on : Bool)
    (flags : BitVec 16) :
    (if on then flags ||| flag else flags &&& ~~~flag) &&& shapeFlags.isMarkedAlive =
      flags &&& shapeFlags.isMarkedAlive := by
  cases on
  · exact (BitVec.and_assoc _ _ _).trans (congrArg _ apart')
  · exact BitVec.and_or_distrib_right.trans (by rw [apart, BitVec.or_zero])

end Marks

namespace Graph

def word (g : Graph) (p : Nat) : List Letter := (g.properties p).map letterOf

def Lettered (g : Graph) : Prop :=
  g.Along fun above propertyAtom below => ∃ property, below = above ++ [property] ∧
    property.nameAtom = propertyAtom

structure Lexical (g : Graph) : Prop where
  deterministic : g.Deterministic
  lettered : g.Lettered

variable {g g' : Graph} {root : Nat}

theorem Evolves.lexical {call : Call} (rooted : g.Rooted root) (evolves : g.Evolves root call g')
    (named : call.Named) (lexical : g.Lexical) : g'.Lexical := by
  refine ⟨evolves.deterministic rooted named lexical.deterministic, ?_⟩
  cases evolves with
  | found => exact lexical.lettered
  | spawned q _ propertyAtom offset isReadonly isHidden isGetter isSetter child _ _ spawned =>
      refine spawned.along rooted lexical.lettered ?_
      rw [← spawned.longer]
      exact ⟨_, spawned.describes named, rfl⟩
  | reflagged _ p _ flags _ => exact reflag_along lexical.lettered p flags
  | swept todo _ _ swept => exact swept.along lexical.lettered

theorem Rooted.word_root (rooted : g.Rooted root) : g.word root = [] := by
  rw [word, rooted.bare]
  rfl

theorem Rooted.word_parent (rooted : g.Rooted root) (p : Nat) (member : p ∈ g.order) (q : Nat)
    (above : g.parent p = some q) : ∃ letter, g.word p = g.word q ++ [letter] := by
  obtain ⟨property, longer⟩ := rooted.inherits p member q above
  exact ⟨letterOf property, by rw [word, longer, List.map_append]; rfl⟩

theorem Rooted.word_nil_iff (rooted : g.Rooted root) (p : Nat) (member : p ∈ g.order) :
    g.word p = [] ↔ p = root := by
  refine ⟨fun none => ?_, fun top => top ▸ rooted.word_root⟩
  by_contra below
  obtain ⟨q, above⟩ := rooted.tree.exists_parent p member below
  obtain ⟨letter, longer⟩ := rooted.word_parent p member q above
  simp [none] at longer

theorem Rooted.word_above (rooted : g.Rooted root) (p : Nat) (member : p ∈ g.order) (word : List Letter)
    (letter : Letter) (spelt : g.word p = word ++ [letter]) :
    ∃ q ∈ g.order, g.parent p = some q ∧ g.word q = word := by
  have below : p ≠ root := fun top => by simp [(rooted.word_nil_iff p member).mpr top] at spelt
  obtain ⟨q, above⟩ := rooted.tree.exists_parent p member below
  obtain ⟨letter', longer⟩ := rooted.word_parent p member q above
  exact ⟨q, rooted.tree.parent_mem p q member above, above,
    (List.append_inj' (longer.symm.trans spelt) rfl).1⟩

theorem Lexical.label_eq (lexical : g.Lexical) (q : Nat) (member : q ∈ g.order) (entry : TransitionEntry)
    (listed : entry ∈ g.entries q) (c : Nat) (inside : c ∈ g.order) (target : entry.targetShape = some c) :
    ∃ attributes, g.label entry = (entry.propertyAtom, some attributes) ∧
      g.word c = g.word q ++ [(entry.propertyAtom, attributes)] := by
  obtain ⟨property, longer, name⟩ := lexical.lettered q member entry listed c inside target
  refine ⟨property.attributes, ?_, ?_⟩
  · simp [label, target, longer]
  · rw [word, longer, List.map_append, ← name]
    rfl

theorem Lexical.same_label (lexical : g.Lexical) (q : Nat) (member : q ∈ g.order)
    (entry entry' : TransitionEntry) (listed : entry ∈ g.entries q) (listed' : entry' ∈ g.entries q)
    (c c' : Nat) (inside : c ∈ g.order) (inside' : c' ∈ g.order) (target : entry.targetShape = some c)
    (target' : entry'.targetShape = some c') (same : g.word c' = g.word c) :
    g.label entry' = g.label entry := by
  obtain ⟨attributes, labelled, spelt⟩ := lexical.label_eq q member entry listed c inside target
  obtain ⟨attributes', labelled', spelt'⟩ := lexical.label_eq q member entry' listed' c' inside' target'
  have letters := List.append_inj_right (spelt'.symm.trans (same.trans spelt)) rfl
  simp only [List.cons.injEq, Prod.mk.injEq, and_true] at letters
  rw [labelled, labelled', letters.1, letters.2]

theorem Lexical.word_inj (lexical : g.Lexical) (rooted : g.Rooted root) (p : Nat) (member : p ∈ g.order) :
    ∀ p' ∈ g.order, g.word p' = g.word p → p' = p := by
  refine rooted.tree.induct (fun p => ∀ p' ∈ g.order, g.word p' = g.word p → p' = p) ?_ ?_ p member
  · intro p' member' same
    exact (rooted.word_nil_iff p' member').mp (same.trans rooted.word_root)
  · intro p member q inside above ih p' member' same
    obtain ⟨letter, longer⟩ := rooted.word_parent p member q above
    obtain ⟨q', inside', above', same'⟩ := rooted.word_above p' member' _ letter (same.trans longer)
    obtain rfl := ih q' inside' same'
    obtain ⟨entry, listed, target⟩ := rooted.exists_entry p member q' above
    obtain ⟨entry', listed', target'⟩ := rooted.exists_entry p' member' q' above'
    have labels := lexical.same_label q' inside entry entry' listed listed' p p' member member' target
      target' same
    have entries := List.inj_on_of_nodup_map (lexical.deterministic q' inside) listed' listed labels
    exact Option.some.inj (target'.symm.trans (entries ▸ target))

theorem Lexical.find_word (lexical : g.Lexical) (rooted : g.Rooted root) (p : Nat) (member : p ∈ g.order)
    (propertyAtom : Atom) (attributes : BitVec 16) (entry : TransitionEntry)
    (found : (g.entries p).find? (g.matching propertyAtom attributes) = some entry) :
    ∃ c ∈ g.order, entry.targetShape = some c ∧ g.word c = g.word p ++ [(propertyAtom, attributes)] := by
  have listed := List.mem_of_find?_eq_some found
  have matching := (matching_iff _ _ _).mp (List.find?_some found)
  obtain ⟨c, inside, target, _⟩ := rooted.targets p member entry listed
  obtain ⟨attributes', labelled, spelt⟩ := lexical.label_eq p member entry listed c inside target
  simp only [labelled, Prod.mk.injEq, Option.some.injEq] at matching
  rw [matching.1, matching.2] at spelt
  exact ⟨c, inside, target, spelt⟩

theorem Lexical.entry_of_word (lexical : g.Lexical) (rooted : g.Rooted root) (p : Nat) (member : p ∈ g.order)
    (c : Nat) (inside : c ∈ g.order) (propertyAtom : Atom) (attributes : BitVec 16)
    (spelt : g.word c = g.word p ++ [(propertyAtom, attributes)]) :
    ∃ entry ∈ g.entries p, entry.targetShape = some c ∧ g.label entry = (propertyAtom, some attributes) := by
  obtain ⟨q, inside', above, same⟩ := rooted.word_above c inside _ _ spelt
  obtain rfl := lexical.word_inj rooted p member q inside' same
  obtain ⟨entry, listed, target⟩ := rooted.exists_entry c inside q above
  obtain ⟨attributes', labelled, spelt'⟩ := lexical.label_eq q member entry listed c inside target
  have letters := List.append_inj_right (spelt'.symm.trans spelt) rfl
  simp only [List.cons.injEq, Prod.mk.injEq, and_true] at letters
  exact ⟨entry, listed, target, by rw [labelled, letters.1, letters.2]⟩

theorem Lexical.find_none (lexical : g.Lexical) (rooted : g.Rooted root) (p : Nat) (member : p ∈ g.order)
    (propertyAtom : Atom) (attributes : BitVec 16)
    (absent : (g.entries p).find? (g.matching propertyAtom attributes) = none) (c : Nat)
    (inside : c ∈ g.order) : g.word c ≠ g.word p ++ [(propertyAtom, attributes)] := by
  intro spelt
  obtain ⟨entry, listed, _, labelled⟩ :=
    lexical.entry_of_word rooted p member c inside propertyAtom attributes spelt
  exact List.find?_eq_none.mp absent entry listed ((matching_iff _ _ _).mpr labelled)

structure Spells (g : Graph) (trie : Trie Letter) : Prop where
  words : ∀ word, word ∈ trie.words ↔ ∃ p ∈ g.order, g.word p = word
  marked : ∀ p ∈ g.order, g.word p ∈ trie.marked ↔ g.alive p = true

namespace Spells

variable {trie : Trie Letter}

theorem inside (spells : g.Spells trie) (p : Nat) (member : p ∈ g.order) : g.word p ∈ trie.words :=
  (spells.words _).mpr ⟨p, member, rfl⟩

theorem lone (rooted : g.Rooted root) (order : g.order = [root]) (flags : g.flags root = 0x01#16) :
    g.Spells Trie.seed := by
  have alive : g.alive root = true := by
    unfold alive isShapeAlive
    rw [show (g.node root).shape.shapeFlags = 0x01#16 from flags]
    decide
  have only (p : Nat) (member : p ∈ g.order) : p = root := List.mem_singleton.mp (order ▸ member)
  refine ⟨fun word => ⟨fun none => ⟨root, rooted.tree.root_mem, ?_⟩, ?_⟩, fun p member => ?_⟩
  · exact rooted.word_root.trans none.symm
  · rintro ⟨p, member, rfl⟩
    exact only p member ▸ rooted.word_root
  · obtain rfl := only p member
    exact iff_of_true rooted.word_root alive

theorem spawned (spells : g.Spells trie) (rooted' : g'.Rooted root) (lexical' : g'.Lexical) {q child : Nat}
    (member : q ∈ g.order) {entry : TransitionEntry} {property : PropertyDescriptor}
    (spawned : g.Spawned g' q child entry property) :
    g'.Spells (trie.insert (g.word q) (letterOf property) (spells.inside q member)) := by
  have old (p : Nat) (inside : p ∈ g.order) : g'.word p = g.word p := by
    rw [word, spawned.properties p inside]
    rfl
  have new : g'.word child = g.word q ++ [letterOf property] := by
    rw [word, spawned.longer, List.map_append]
    rfl
  have dead : g'.alive child = false := by
    have born : (g'.node child).shape.shapeFlags = _ := spawned.born
    unfold alive isShapeAlive
    rw [born, getShapeFlags]
    split <;> decide
  refine ⟨fun word => ⟨?_, ?_⟩, fun p inside => ?_⟩
  · rintro (rfl | there)
    · exact ⟨child, spawned.member, new⟩
    · obtain ⟨p, inside, rfl⟩ := (spells.words word).mp there
      exact ⟨p, spawned.stays p inside, old p inside⟩
  · rintro ⟨p, inside, rfl⟩
    rcases spawned.old_or_new p inside with earlier | rfl
    · exact .inr (old p earlier ▸ spells.inside p earlier)
    · exact .inl new
  · rcases spawned.old_or_new p inside with earlier | rfl
    · rw [old p earlier, alive_congr p (spawned.flags p earlier)]
      exact spells.marked p earlier
    · refine iff_of_false (fun marked => ?_) (by simp [dead])
      -- the word of the new shape was no word before
      obtain ⟨p', inside', same⟩ := (spells.words _).mp (trie.within marked)
      have here := lexical'.word_inj rooted' p inside p' (spawned.stays p' inside')
        ((old p' inside').trans same)
      exact spawned.fresh (here ▸ inside')

theorem reflag_alive (p : Nat) (flags : BitVec 16) (q : Nat) : (g.reflag p flags).alive q =
    if q = p then decide (flags &&& shapeFlags.isMarkedAlive ≠ 0#16) else g.alive q := by
  change decide ((g.reflag p flags).flags q &&& shapeFlags.isMarkedAlive ≠ 0#16) = _
  rw [reflag_flags]
  split <;> rfl

theorem reflag_word (p : Nat) (flags : BitVec 16) (q : Nat) : (g.reflag p flags).word q = g.word q := by
  unfold word
  rw [reflag_properties]

theorem reflag (spells : g.Spells trie) (p : Nat) (flags : BitVec 16)
    (same : flags &&& shapeFlags.isMarkedAlive = g.flags p &&& shapeFlags.isMarkedAlive) :
    (g.reflag p flags).Spells trie := by
  refine ⟨fun word => ?_, fun q member => ?_⟩
  · simp only [reflag_word]
    exact spells.words word
  · rw [reflag_word, spells.marked q member, reflag_alive, same]
    split
    next here => rw [here]; rfl
    next => rfl

theorem mark (spells : g.Spells trie) (p : Nat) (flags : BitVec 16) (member : p ∈ g.order)
    (rooted : g.Rooted root) (lexical : g.Lexical)
    (set : flags &&& shapeFlags.isMarkedAlive ≠ 0#16) :
    (g.reflag p flags).Spells (trie.mark (g.word p) (spells.inside p member)) := by
  refine ⟨fun word => ?_, fun q inside => ?_⟩
  · simp only [reflag_word]
    exact spells.words word
  · rw [reflag_word, reflag_alive]
    split
    next here => exact iff_of_true (.inl (here ▸ rfl)) (decide_eq_true set)
    next other =>
      rw [← spells.marked q inside]
      exact or_iff_right fun same => other (lexical.word_inj rooted p member q inside same)

-- Marks that are closed under parents are closed under prefixes.
theorem upward (spells : g.Spells trie) (rooted : g.Rooted root)
    (closed : ∀ p ∈ g.order, g.alive p = true → ∀ q, g.parent p = some q → g.alive q = true) :
    trie.Upward := by
  intro word letter marked
  obtain ⟨p, member, spelt⟩ := (spells.words _).mp (trie.within marked)
  obtain ⟨q, inside, above, rfl⟩ := rooted.word_above p member word letter spelt
  rw [← spelt] at marked
  exact (spells.marked q inside).mpr (closed p member ((spells.marked p member).mp marked) q above)

theorem swept (spells : g.Spells trie) (rooted : g.Rooted root) (upward : trie.Upward) {todo : List Nat}
    (split : g.order = root :: todo) (swept : g.Swept g' todo) : g'.Spells (trie.prune upward) := by
  have top : root ∉ todo := (List.nodup_cons.mp (split ▸ rooted.tree.distinct)).1
  have todo_iff (p : Nat) (member : p ∈ g.order) : p ∈ todo ↔ g.word p ≠ [] := by
    rw [ne_eq, rooted.word_nil_iff p member]
    rcases List.mem_cons.mp (split ▸ member) with rfl | inside
    · exact iff_of_false top (not_not_intro rfl)
    · exact iff_of_true inside fun same => top (same ▸ inside)
  have spared_iff (p : Nat) (member : p ∈ g.order) :
      g.spares todo p = true ↔ g.word p = [] ∨ g.word p ∈ trie.marked := by
    rw [spares, Bool.or_eq_true, decide_eq_true_iff, todo_iff p member, not_not, spells.marked p member]
  have same (p : Nat) (inside : p ∈ g'.order) : g'.word p = g.word p := by
    rw [word, swept.pruned.properties p inside]
    rfl
  refine ⟨fun word => ⟨?_, ?_⟩, fun p inside => ?_⟩
  · rintro ⟨there, kept⟩
    obtain ⟨p, member, rfl⟩ := (spells.words word).mp there
    have inside : p ∈ g'.order := swept.pruned.order ▸
      List.mem_filter.mpr ⟨member, (spared_iff p member).mpr kept⟩
    exact ⟨p, inside, same p inside⟩
  · rintro ⟨p, inside, rfl⟩
    obtain ⟨member, kept⟩ := swept.pruned.old p inside
    rw [same p inside]
    exact ⟨spells.inside p member, (spared_iff p member).mp kept⟩
  · obtain ⟨member, _⟩ := swept.pruned.old p inside
    have flags := swept.flags p inside
    rw [same p inside]
    change _ ∧ _ ↔ decide (g'.flags p &&& shapeFlags.isMarkedAlive ≠ 0#16) = true
    rw [flags, spells.marked p member]
    by_cases below : p ∈ todo
    · rw [if_pos below, (clear_mark _).1]
      exact iff_of_false (fun both => (todo_iff p member).mp below both.2) (by simp)
    · rw [if_neg below, and_iff_left (not_not.mp (mt (todo_iff p member).mpr below))]
      rfl

end Spells

end Graph

structure Spells (w : ShapeWorld) (root : Nat) (trie : Trie Letter) : Prop where
  root : Live w root ∧ wordOf w root = []
  spelt : ∀ p, Live w p → wordOf w p ∈ trie.words
  found : ∀ word ∈ trie.words, ∃! p, Live w p ∧ wordOf w p = word
  parent : ∀ p q, Live w p →
    (parentOf w p = some q ↔ Live w q ∧ ∃ letter, wordOf w p = wordOf w q ++ [letter])
  marked : ∀ p, Live w p → (wordOf w p ∈ trie.marked ↔ markedAlive w p = true)

def Call.op (w : ShapeWorld) : Call → Trie.Op Letter
  | .transitionShape p propertyAtom _ isReadonly isHidden isGetter isSetter =>
      .insert (wordOf w p) (propertyAtom, attributesOf isReadonly isHidden isGetter isSetter)
  | .markShapeAlive p => .mark (wordOf w p)
  | .setShapeFrozen _ _ => .leave
  | .setShapeHashTableMode _ _ => .leave
  | .sweepOrphanedShapes => .prune

section Spelling

variable {reservations : Nat → Option Nat} {others : List PageManager.Chunk} {foreign : List Block}
  {root : Nat} {w w' : ShapeWorld} {g : Graph} {trie : Trie Letter}

theorem Sane.wordOf_eq (sane : Sane reservations others foreign root w g) (p : Nat) (member : p ∈ g.order) :
    wordOf w p = g.word p := by
  rw [wordOf, sane.propertiesOf_eq p member]
  rfl

theorem Sane.spells (sane : Sane reservations others foreign root w g) (lexical : g.Lexical)
    (spells : g.Spells trie) : Spells w root trie := by
  have inside (p : Nat) (live : Live w p) : p ∈ g.order := (sane.live_iff p).mp live
  have word (p : Nat) (live : Live w p) : wordOf w p = g.word p := sane.wordOf_eq p (inside p live)
  have rooted := sane.rooted
  have top : Live w root := (sane.live_iff root).mpr rooted.tree.root_mem
  refine ⟨⟨top, (word root top).trans rooted.word_root⟩, fun p live => ?_, fun spelling there => ?_,
    fun p q live => ⟨fun above => ?_, ?_⟩, fun p live => ?_⟩
  · rw [word p live]
    exact spells.inside p (inside p live)
  · obtain ⟨p, member, rfl⟩ := (spells.words spelling).mp there
    refine ⟨p, ⟨(sane.live_iff p).mpr member, sane.wordOf_eq p member⟩, ?_⟩
    rintro q ⟨live, same⟩
    exact lexical.word_inj rooted p member q (inside q live) ((word q live).symm.trans same)
  · rw [sane.parentOf_eq p (inside p live)] at above
    have live' := (sane.live_iff q).mpr (rooted.tree.parent_mem p q (inside p live) above)
    rw [word p live, word q live']
    exact ⟨live', rooted.word_parent p (inside p live) q above⟩
  · rintro ⟨live', letter, longer⟩
    rw [word p live, word q live'] at longer
    obtain ⟨q', member', above, same⟩ := rooted.word_above p (inside p live) _ letter longer
    rw [sane.parentOf_eq p (inside p live), above,
      lexical.word_inj rooted q (inside q live') q' member' same]
  · rw [word p live, sane.markedAlive_eq p (inside p live)]
    exact spells.marked p (inside p live)

theorem Sane.graph_spells (sane : Sane reservations others foreign root w g) (spells : Spells w root trie) :
    g.Spells trie := by
  have live (p : Nat) (member : p ∈ g.order) : Live w p := (sane.live_iff p).mpr member
  refine ⟨fun word => ⟨fun there => ?_, ?_⟩, fun p member => ?_⟩
  · obtain ⟨p, ⟨alive, spelt⟩, _⟩ := spells.found word there
    have member := (sane.live_iff p).mp alive
    exact ⟨p, member, (sane.wordOf_eq p member).symm.trans spelt⟩
  · rintro ⟨p, member, rfl⟩
    exact sane.wordOf_eq p member ▸ spells.spelt p (live p member)
  · rw [← sane.wordOf_eq p member, spells.marked p (live p member), sane.markedAlive_eq p member]

theorem lexical_of_reachable (reserves : Reserves reservations) (s : Run)
    (reached : (named reservations).Reachable s) :
    ∃ others foreign g, Sane reservations others foreign s.root s.world g ∧ g.Lexical := by
  refine graph_invariant reserves _ Graph.Lexical ?_ ?_ s reached
  · intro root g rooted order _
    refine ⟨fun q member => ?_, rooted.along order⟩
    rw [rooted.lone order q member]
    exact List.nodup_nil
  · intro s call others foreign g g' chosen sane evolves lexical
    exact evolves.lexical sane.rooted chosen lexical

theorem Sane.transition_spells (reserves : Reserves reservations)
    (sane : Sane reservations others foreign root w g) (lexical : g.Lexical) (spells : g.Spells trie)
    (p : Nat) (member : p ∈ g.order) (propertyAtom : Atom) (nonzero : propertyAtom ≠ 0#32)
    (offset : BitVec 16) (isReadonly isHidden isGetter isSetter : Bool) (r : Option Nat)
    (done : transitionShape w (some p) propertyAtom offset isReadonly isHidden isGetter isSetter =
      .ok (r, w')) :
    ∃ g' c, Sane reservations others foreign root w' g' ∧ g'.Lexical ∧
      g'.Spells (trie.insert (g.word p) (propertyAtom, attributesOf isReadonly isHidden isGetter isSetter)
        (spells.inside p member)) ∧
      r = some c ∧ c ∈ g'.order ∧ p ∈ g'.order ∧ g'.word p = g.word p ∧
      g'.word c = g.word p ++ [(propertyAtom, attributesOf isReadonly isHidden isGetter isSetter)] := by
  rcases (transitionShape_meets reserves sane p member propertyAtom offset isReadonly isHidden isGetter
      isSetter).holds _ done with ⟨entry, there, same⟩ | ⟨absent, child, g', made, sane', spawned⟩
  · cases same
    obtain ⟨c, inside, target, spelt⟩ := lexical.find_word sane.rooted p member _ _ entry there
    refine ⟨g, c, sane, lexical, ?_, target, inside, member, rfl, spelt⟩
    rw [Trie.insert_again _ _ _ _ (spelt ▸ spells.inside c inside)]
    exact spells
  · have evolves : g.Evolves root
        (.transitionShape p propertyAtom offset isReadonly isHidden isGetter isSetter) g' :=
      .spawned p member propertyAtom offset isReadonly isHidden isGetter isSetter child g' absent spawned
    have lexical' := evolves.lexical sane.rooted nonzero lexical
    have letter : letterOf (makePropertyInShape propertyAtom offset isReadonly isHidden isGetter isSetter) =
        (propertyAtom, attributesOf isReadonly isHidden isGetter isSetter) := by
      rw [makePropertyInShape, if_neg nonzero]
      rfl
    have inserted := spells.spawned sane'.rooted lexical' member spawned
    have kept : g'.word p = g.word p := by
      rw [Graph.word, spawned.properties p member]
      rfl
    refine ⟨g', child, sane', lexical', ?_, made, spawned.member, spawned.stays p member, kept, ?_⟩
    · simpa only [letter] using inserted
    · rw [Graph.word, spawned.longer, List.map_append, List.map_singleton, letter]
      rfl

theorem Sane.flags_done (sane : Sane reservations others foreign root w g) {call : Call} {p : Nat}
    {change : BitVec 16 → BitVec 16} (flags : FlagCall call p change)
    (allowed : Allowed w call) (fuel : Nat) (done : perform fuel w call = .ok w') :
    p ∈ g.order ∧ Sane reservations others foreign root w' (g.reflag p (change (g.flags p))) := by
  have member := (sane.live_iff p).mp ((flags.allowed w).mp allowed)
  obtain ⟨w₁, done₁, sane₁⟩ := sane.reflag p member change
  rw [flags.performs, done₁] at done
  cases done
  exact ⟨member, sane₁⟩

theorem Sane.sweep_done (sane : Sane reservations others foreign root w g) (closed : MarksClosed w)
    (fuel : Nat) (done : perform fuel w .sweepOrphanedShapes = .ok w') :
    ∃ g' todo, Sane reservations others foreign root w' g' ∧ g.order = root :: todo ∧ g.Swept g' todo := by
  obtain ⟨⟨_, w₁⟩, swept, same⟩ := (Result.bind_ok _ _ _).mp done
  cases same
  obtain ⟨rest, split, _⟩ := sane.split
  obtain ⟨_, w₂, g', done', sane', swept', _⟩ :=
    sweepOrphanedShapes_ok sane rest split closed (fuel + g.order.length) (Nat.le_add_left _ _)
  have whole := sweepOrphanedShapes_enough _ (fuel + g.order.length) w _ swept (Nat.le_add_right _ _)
  cases whole.symm.trans done'
  exact ⟨g', rest, sane', split, swept'⟩

theorem Sane.closed_alive (sane : Sane reservations others foreign root w g) (closed : MarksClosed w)
    (p : Nat) (member : p ∈ g.order) (alive : g.alive p = true) (q : Nat) (above : g.parent p = some q) :
    g.alive q = true := by
  have inside := sane.rooted.tree.parent_mem p q member above
  rw [← sane.markedAlive_eq p member] at alive
  rw [← sane.parentOf_eq p member] at above
  rw [← sane.markedAlive_eq q inside]
  exact closed p q alive above

theorem Sane.step_spells (reserves : Reserves reservations)
    (sane : Sane reservations others foreign root w g) (lexical : g.Lexical) (spells : g.Spells trie)
    (call : Call) (named : call.Named) (allowed : Allowed w call) (fuel : Nat)
    (done : perform fuel w call = .ok w') :
    ∃ g' trie', Sane reservations others foreign root w' g' ∧ g'.Lexical ∧
      Trie.Step trie (call.op w) trie' ∧ g'.Spells trie' := by
  have flagged {call : Call} {p : Nat} {change : BitVec 16 → BitVec 16} (flags : FlagCall call p change)
      (allowed : Allowed w call) (named : call.Named) (done : perform fuel w call = .ok w') :
      p ∈ g.order ∧ Sane reservations others foreign root w' (g.reflag p (change (g.flags p))) ∧
        (g.reflag p (change (g.flags p))).Lexical := by
    obtain ⟨member, sane'⟩ := sane.flags_done flags allowed fuel done
    have evolves : g.Evolves root call (g.reflag p (change (g.flags p))) :=
      .reflagged call p member _ fun zero => by rw [flags.version, zero]
    exact ⟨member, sane', evolves.lexical sane.rooted named lexical⟩
  cases call with
  | transitionShape p propertyAtom offset isReadonly isHidden isGetter isSetter =>
      have member := (sane.live_iff p).mp allowed
      obtain ⟨⟨r, after⟩, made, same⟩ := (Result.bind_ok _ _ _).mp done
      cases same
      obtain ⟨g', _, sane', lexical', spells', _⟩ := sane.transition_spells reserves lexical spells p member
        propertyAtom named offset isReadonly isHidden isGetter isSetter r made
      refine ⟨g', _, sane', lexical', ?_, spells'⟩
      unfold Call.op
      dsimp only
      simp only [sane.wordOf_eq p member]
      exact .insert trie _ _ (spells.inside p member)
  | markShapeAlive p =>
      obtain ⟨member, sane', lexical'⟩ := flagged (markShapeAlive_flagCall p) allowed named done
      refine ⟨_, _, sane', lexical', ?_, spells.mark p _ member sane.rooted lexical ?_⟩
      · unfold Call.op
        dsimp only
        simp only [sane.wordOf_eq p member]
        exact .mark trie _ (spells.inside p member)
      · rw [mark_set]
        decide
  | setShapeFrozen p isFrozen =>
      obtain ⟨member, sane', lexical'⟩ := flagged (setShapeFrozen_flagCall p isFrozen) allowed named done
      refine ⟨_, trie, sane', lexical', .leave trie, spells.reflag p _ ?_⟩
      exact setFlag_mark _ (by decide) (by decide) _ _
  | setShapeHashTableMode p isHashTableMode =>
      obtain ⟨member, sane', lexical'⟩ :=
        flagged (setShapeHashTableMode_flagCall p isHashTableMode) allowed named done
      refine ⟨_, trie, sane', lexical', .leave trie, spells.reflag p _ ?_⟩
      exact setFlag_mark _ (by decide) (by decide) _ _
  | sweepOrphanedShapes =>
      obtain ⟨g', todo, sane', split, swept⟩ := sane.sweep_done allowed fuel done
      have upward := spells.upward sane.rooted (sane.closed_alive allowed)
      have evolves : g.Evolves root .sweepOrphanedShapes g' := .swept todo g' split swept
      exact ⟨g', _, sane', evolves.lexical sane.rooted named lexical, .prune trie upward,
        spells.swept sane.rooted upward split swept⟩

end Spelling

theorem Sane.seed {reservations : Nat → Option Nat} {others : List PageManager.Chunk} {foreign : List Block}
    {root : Nat} {w : ShapeWorld} {g : Graph} (sane : Sane reservations others foreign root w g)
    (flags : g.flags root = 0x01#16) (order : g.order = [root]) : g.Lexical ∧ g.Spells Trie.seed := by
  refine ⟨⟨fun q member => ?_, sane.rooted.along order⟩, .lone sane.rooted order flags⟩
  rw [sane.rooted.lone order q member]
  exact List.nodup_nil

theorem named_simulates {reservations : Nat → Option Nat} (reserves : Reserves reservations) :
    (named reservations).Simulates (Trie.system Letter)
      (fun s trie => (named reservations).Reachable s ∧ Spells s.world s.root trie)
      fun s call => call.op s.world := by
  refine ⟨fun s initial => ?_, ?_⟩
  · obtain ⟨others, foreign, g, sane, flags, order⟩ := start_sane reserves s initial
    obtain ⟨lexical, spells⟩ := sane.seed flags order
    exact ⟨Trie.seed, rfl, .start initial, sane.spells lexical spells⟩
  · intro s trie call t ⟨reached, spells⟩ taken
    obtain ⟨others, foreign, g, sane, lexical⟩ := lexical_of_reachable reserves s reached
    have ⟨named, allowed, root, fuel, done⟩ := taken
    obtain ⟨g', trie', sane', lexical', step, spells'⟩ := sane.step_spells reserves lexical
      (sane.graph_spells spells) call named allowed fuel done
    exact ⟨trie', step, reached.step taken, root ▸ sane'.spells lexical' spells'⟩

theorem shape_trie {reservations : Nat → Option Nat} (reserves : Reserves reservations) (s : Run)
    (reached : (named reservations).Reachable s) : ∃ trie, (Trie.system Letter).Reachable trie ∧
      Spells s.world s.root trie ∧ ∀ call t, (named reservations).step s call t →
        ∃ trie', Trie.Step trie (call.op s.world) trie' ∧ Spells t.world t.root trie' := by
  have simulates := named_simulates reserves
  obtain ⟨trie, made, _, spells⟩ := simulates.reachable reached
  refine ⟨trie, made, spells, fun call t taken => ?_⟩
  obtain ⟨trie', step, _, spells'⟩ := simulates.step s trie call t ⟨reached, spells⟩ taken
  exact ⟨trie', step, spells'⟩

theorem named_child : ∃ (s : Run) (child : Nat) (r : Option Nat) (after : ShapeWorld),
    (named PageManager.rowOfRegions).Reachable s ∧ child ≠ s.root ∧ Live s.world child ∧
      transitionShape s.world (some child) 6#32 1#16 false false false false = .ok (r, after) := by
  obtain ⟨world, born, grown, _, _, initial, live, done, alive, done', _⟩ := second_transition
  have started : (named PageManager.rowOfRegions).Reachable ⟨world, memoryChunkSize⟩ := .start initial
  have taken : (named PageManager.rowOfRegions).step ⟨world, memoryChunkSize⟩
    (.transitionShape memoryChunkSize 5#32 0#16 false false false false) ⟨born, memoryChunkSize⟩ :=
    ⟨show 5#32 ≠ 0#32 by decide, live, rfl, 0, done⟩
  obtain ⟨⟨r, after⟩, made, _⟩ := (Result.bind_ok _ _ _).mp done'
  exact ⟨_, memoryChunkSize + 96, r, after, started.step taken, by simp, alive, made⟩

theorem shape_trie_child : ∃ (s : Run) (child : Nat) (trie : Trie Letter), child ≠ s.root ∧
    Live s.world child ∧ (Trie.system Letter).Reachable trie ∧ Spells s.world s.root trie := by
  obtain ⟨s, child, _, _, reached, other, live, _⟩ := named_child
  obtain ⟨trie, made, spells, _⟩ := shape_trie rowOfRegions_reserves s reached
  exact ⟨s, child, trie, other, live, made, spells⟩

def Leads (w : ShapeWorld) (entry : TransitionEntry) (word : List Letter) : Prop :=
  ∃ c, entry.targetShape = some c ∧ Live w c ∧ wordOf w c = word

structure Answers (w : ShapeWorld) (trie : Trie Letter) (p : Nat) : Prop where
  root : isRootShape w (some p) = .ok (decide (wordOf w p = []))
  depth : ∀ fuel, (wordOf w p).length < fuel → getShapeChainDepth fuel w p = .ok (wordOf w p).length
  property : ∀ index, ∃ found, getPropertyAt w (some p) index = .ok found ∧
    found.map letterOf = (wordOf w p)[index]?
  named : ∀ propertyAtom, hasProperty w (some p) propertyAtom =
    .ok ((wordOf w p).any fun letter => letter.1 = propertyAtom)
  transition : ∀ propertyAtom attributes, ∃ found,
    findTransition w (some p) propertyAtom attributes = .ok found ∧
      (found = none ↔ wordOf w p ++ [(propertyAtom, attributes)] ∉ trie.words) ∧
      ∀ entry, found = some entry → Leads w entry (wordOf w p ++ [(propertyAtom, attributes)])
  transitionOn : ∀ propertyAtom, ∃ found, hasTransitionOn w (some p) propertyAtom = .ok found ∧
    (found = true ↔ ∃ attributes, wordOf w p ++ [(propertyAtom, attributes)] ∈ trie.words)
  entries : ∀ index, ∃ found, getTransitionAt w (some p) index = .ok found ∧
    ∀ entry, found = some entry → ∃ attributes,
      Leads w entry (wordOf w p ++ [(entry.propertyAtom, attributes)])
  children : ∀ letter, wordOf w p ++ [letter] ∈ trie.words → ∃! index, ∃ entry,
    getTransitionAt w (some p) index = .ok (some entry) ∧ Leads w entry (wordOf w p ++ [letter])

section Queries

variable {reservations : Nat → Option Nat} {others : List PageManager.Chunk} {foreign : List Block}
  {root : Nat} {w w' : ShapeWorld} {g : Graph} {trie : Trie Letter}

theorem Sane.leads (sane : Sane reservations others foreign root w g) (entry : TransitionEntry)
    (word : List Letter) : Leads w entry word ↔
      ∃ c ∈ g.order, entry.targetShape = some c ∧ g.word c = word := by
  constructor
  · rintro ⟨c, target, live, rfl⟩
    have inside := (sane.live_iff c).mp live
    exact ⟨c, inside, target, (sane.wordOf_eq c inside).symm⟩
  · rintro ⟨c, inside, target, rfl⟩
    exact ⟨c, target, (sane.live_iff c).mpr inside, sane.wordOf_eq c inside⟩

theorem Sane.children_once (sane : Sane reservations others foreign root w g) (lexical : g.Lexical)
    (spells : g.Spells trie) (p : Nat) (member : p ∈ g.order) (letter : Letter)
    (there : g.word p ++ [letter] ∈ trie.words) : ∃! index, ∃ entry,
      getTransitionAt w (some p) index = .ok (some entry) ∧ Leads w entry (g.word p ++ [letter]) := by
  obtain ⟨c, inside, spelt⟩ := (spells.words _).mp there
  obtain ⟨entry, listed, target, _⟩ :=
    lexical.entry_of_word sane.rooted p member c inside letter.1 letter.2 spelt
  obtain ⟨index, found⟩ := List.mem_iff_getElem?.mp listed
  refine ⟨index, ⟨entry, ?_, (sane.leads entry _).mpr ⟨c, inside, target, spelt⟩⟩, ?_⟩
  · rw [sane.getTransitionAt_eq p member, found]
  · rintro index' ⟨entry', read, leads⟩
    rw [sane.getTransitionAt_eq p member, Except.ok.injEq] at read
    obtain ⟨c', inside', target', spelt'⟩ := (sane.leads entry' _).mp leads
    obtain rfl := lexical.word_inj sane.rooted c inside c' inside' (spelt'.trans spelt.symm)
    exact sane.rooted.index_unique p member index' index entry' entry read found
      (target'.trans target.symm)

theorem Sane.answers (sane : Sane reservations others foreign root w g) (lexical : g.Lexical)
    (spells : g.Spells trie) (p : Nat) (member : p ∈ g.order) : Answers w trie p := by
  have word := sane.wordOf_eq p member
  have length : (g.word p).length = (g.properties p).length := List.length_map _
  refine ⟨?_, fun fuel enough => ?_, fun index => ?_, fun propertyAtom => ?_,
    fun propertyAtom attributes => ?_, fun propertyAtom => ?_, fun index => ?_, fun letter there => ?_⟩
  · rw [sane.isRootShape_eq p member, word]
    exact congrArg _ (decide_eq_decide.mpr (sane.rooted.word_nil_iff p member).symm)
  · rw [word, length] at enough ⊢
    exact sane.depth p member fuel enough
  · rw [word]
    exact ⟨_, sane.getPropertyAt_eq p member index, List.getElem?_map.symm⟩
  · rw [word, sane.hasProperty_eq p member, Except.ok.injEq, Bool.eq_iff_iff, List.find?_isSome]
    simp only [Graph.word, letterOf, List.any_map, List.any_eq_true, Function.comp_apply]
    rfl
  · refine ⟨_, sane.findTransition_eq p member propertyAtom attributes, ⟨fun absent there => ?_, fun none => ?_⟩,
      fun entry found => ?_⟩
    · rw [word] at there
      obtain ⟨c, inside, spelt⟩ := (spells.words _).mp there
      exact lexical.find_none sane.rooted p member propertyAtom attributes absent c inside spelt
    · cases found : (g.entries p).find? (g.matching propertyAtom attributes) with
      | none => rfl
      | some entry =>
          obtain ⟨c, inside, _, spelt⟩ := lexical.find_word sane.rooted p member _ _ entry found
          exact (none (word ▸ spelt ▸ spells.inside c inside)).elim
    · rw [word, sane.leads]
      exact lexical.find_word sane.rooted p member _ _ entry found
  · refine ⟨_, sane.hasTransitionOn_eq p member propertyAtom, ?_⟩
    rw [word, List.any_eq_true]
    constructor
    · rintro ⟨entry, listed, same⟩
      obtain rfl := of_decide_eq_true same
      obtain ⟨c, inside, target, _⟩ := sane.rooted.targets p member entry listed
      obtain ⟨attributes, _, spelt⟩ := lexical.label_eq p member entry listed c inside target
      exact ⟨attributes, spelt ▸ spells.inside c inside⟩
    · rintro ⟨attributes, there⟩
      obtain ⟨c, inside, spelt⟩ := (spells.words _).mp there
      obtain ⟨entry, listed, _, labelled⟩ :=
        lexical.entry_of_word sane.rooted p member c inside propertyAtom attributes spelt
      exact ⟨entry, listed, decide_eq_true (congrArg Prod.fst labelled)⟩
  · refine ⟨_, sane.getTransitionAt_eq p member index, fun entry found => ?_⟩
    have listed := List.mem_of_getElem? found
    obtain ⟨c, inside, target, _⟩ := sane.rooted.targets p member entry listed
    obtain ⟨attributes, _, spelt⟩ := lexical.label_eq p member entry listed c inside target
    exact ⟨attributes, (sane.leads entry _).mpr ⟨c, inside, target, word ▸ spelt⟩⟩
  · rw [word] at there ⊢
    exact sane.children_once lexical spells p member letter there

end Queries

theorem trie_queries {reservations : Nat → Option Nat} (reserves : Reserves reservations) (s : Run)
    (reached : (named reservations).Reachable s) (trie : Trie Letter)
    (spells : Spells s.world s.root trie) (p : Nat) (live : Live s.world p) :
    Answers s.world trie p := by
  obtain ⟨others, foreign, g, sane, lexical⟩ := lexical_of_reachable reserves s reached
  exact sane.answers lexical (sane.graph_spells spells) p ((sane.live_iff p).mp live)

theorem trie_queries_child : ∃ (s : Run) (child : Nat) (trie : Trie Letter), child ≠ s.root ∧
    Live s.world child ∧ Spells s.world s.root trie ∧ Answers s.world trie child := by
  obtain ⟨s, child, _, _, reached, other, live, _⟩ := named_child
  obtain ⟨trie, _, _, spells⟩ := (named_simulates rowOfRegions_reserves).reachable reached
  exact ⟨s, child, trie, other, live, spells,
    trie_queries rowOfRegions_reserves s reached trie spells child live⟩

structure ReadBack (before after : ShapeWorld) (p : Nat) (r : Option Nat) (propertyAtom : Atom)
    (isReadonly isHidden isGetter isSetter : Bool) : Prop where
  spelt : ∃ c, r = some c ∧ Live after c ∧ parentOf after c = some p ∧ wordOf after c =
    wordOf before p ++ [(propertyAtom, attributesOf isReadonly isHidden isGetter isSetter)]
  property : ∃ property, getPropertyAt after r (wordOf before p).length = .ok (some property) ∧
    getLastProperty after r = .ok (some property) ∧ property.nameAtom = propertyAtom ∧
    isPropertyReadonly (some property) = isReadonly ∧ isPropertyHidden (some property) = isHidden ∧
    isPropertyGetter (some property) = isGetter ∧ isPropertySetter (some property) = isSetter
  transition : ∃ entry, findTransition after (some p) propertyAtom
      (attributesOf isReadonly isHidden isGetter isSetter) = .ok (some entry) ∧
    entry.targetShape = r ∧ entry.propertyAtom = propertyAtom ∧
    ∃ index, getTransitionAt after (some p) index = .ok (some entry)
  on : hasTransitionOn after (some p) propertyAtom = .ok true
  below : isRootShape after r = .ok false

theorem transition_read_back {reservations : Nat → Option Nat} (reserves : Reserves reservations) (s : Run)
    (reached : (named reservations).Reachable s) (p : Nat) (live : Live s.world p) (propertyAtom : Atom)
    (nonzero : propertyAtom ≠ 0#32) (offset : BitVec 16) (isReadonly isHidden isGetter isSetter : Bool)
    (r : Option Nat) (after : ShapeWorld)
    (done : transitionShape s.world (some p) propertyAtom offset isReadonly isHidden isGetter isSetter =
      .ok (r, after)) :
    ReadBack s.world after p r propertyAtom isReadonly isHidden isGetter isSetter := by
  obtain ⟨others, foreign, g, sane, lexical⟩ := lexical_of_reachable reserves s reached
  obtain ⟨_, _, _, spells⟩ := (named_simulates reserves).reachable reached
  have member := (sane.live_iff p).mp live
  obtain ⟨g', c, sane', lexical', _, rfl, inside, member', kept, spelt⟩ := sane.transition_spells reserves
    lexical (sane.graph_spells spells) p member propertyAtom nonzero offset isReadonly isHidden isGetter
    isSetter r done
  have word := sane.wordOf_eq p member
  have rooted := sane'.rooted
  obtain ⟨q, inside', above, same⟩ := rooted.word_above c inside _ _ spelt
  obtain rfl := lexical'.word_inj rooted p member' q inside' (same.trans kept.symm)
  obtain ⟨property, longer⟩ := rooted.inherits c inside q above
  have made : letterOf property =
      (propertyAtom, attributesOf isReadonly isHidden isGetter isSetter) := by
    rw [Graph.word, longer, List.map_append, ← kept] at spelt
    exact List.singleton_inj.mp (List.append_cancel_left spelt)
  have length : (wordOf s.world q).length = (g'.properties q).length := by
    rw [word, ← kept, Graph.word, List.length_map]
  obtain ⟨entry, found⟩ : ∃ entry, (g'.entries q).find? (g'.matching propertyAtom
      (attributesOf isReadonly isHidden isGetter isSetter)) = some entry := by
    refine Option.ne_none_iff_exists'.mp fun absent => ?_
    exact lexical'.find_none rooted q member' _ _ absent c inside (kept ▸ spelt)
  obtain ⟨c', inside'', target, spelt'⟩ := lexical'.find_word rooted q member' _ _ entry found
  obtain rfl := lexical'.word_inj rooted c inside c' inside'' (spelt'.trans (kept ▸ spelt.symm))
  have name : entry.propertyAtom = propertyAtom :=
    congrArg Prod.fst ((Graph.matching_iff _ _ _).mp (List.find?_some found))
  have listed := List.mem_of_find?_eq_some found
  obtain ⟨index, here⟩ := List.mem_iff_getElem?.mp listed
  refine ⟨⟨c', rfl, (sane'.live_iff c').mpr inside, (sane'.parentOf_eq c' inside).trans above, ?_⟩,
    ⟨property, ?_, ?_, congrArg Prod.fst made,
      hasAttribute_attributesOf _ _ _ _ property (congrArg Prod.snd made)⟩,
    ⟨entry, ?_, target, name, index, ?_⟩, ?_, ?_⟩
  · rw [sane'.wordOf_eq c' inside, spelt, word]
  · rw [sane'.getPropertyAt_eq c' inside, length, longer, List.getElem?_concat_length]
  · obtain ⟨held, stands⟩ := sane'.heap
    rw [getLastProperty_ok stands c' inside, longer, List.getLast?_concat]
  · rw [sane'.findTransition_eq q member', found]
  · rw [sane'.getTransitionAt_eq q member', here]
  · rw [sane'.hasTransitionOn_eq q member', List.any_eq_true.mpr ⟨entry, listed, decide_eq_true name⟩]
  · have below : c' ≠ s.root := fun top => by simp [(rooted.word_nil_iff c' inside).mpr top] at spelt
    rw [sane'.isRootShape_eq c' inside, decide_eq_false below]

theorem transition_read_back_child : ∃ (s : Run) (child : Nat) (r : Option Nat) (after : ShapeWorld),
    child ≠ s.root ∧ Live s.world child ∧
      ReadBack s.world after child r 6#32 false false false false := by
  obtain ⟨s, child, r, after, reached, other, live, done⟩ := named_child
  exact ⟨s, child, r, after, other, live, transition_read_back rowOfRegions_reserves s reached child live
    6#32 (by decide) 1#16 false false false false r after done⟩

end Shape

end ElySquare
