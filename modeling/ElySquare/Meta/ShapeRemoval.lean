import ElySquare.Meta.ShapeQueries

set_option autoImplicit false

namespace ElySquare

namespace Shape

open Transition

-- What the sweep does with a dead shape, done by hand.
def removeShape (w : ShapeWorld) (p : Nat) : Result ShapeWorld := do
  let w ← forgetShape w (some p)
  killShape w (some p)

structure Removed (before after : ShapeWorld) (p : Nat) : Prop where
  live : ∀ q, Live after q ↔ Live before q ∧ q ≠ p
  layouts : ∀ q, Live after q → propertiesOf after q = propertiesOf before q ∧
    parentOf after q = parentOf before q
  entries : ∀ q, Live after q → (entriesOf after q).Perm
    ((entriesOf before q).filter fun entry => entry.targetShape ≠ some p)

section Remove

variable {reservations : Nat → Option Nat} {others : List PageManager.Chunk} {foreign : List Block}
  {root : Nat} {w : ShapeWorld} {g : Graph}

theorem Stands.propertiesOf_eq {held : Nat → Option ShapeObject}
    (stands : Stands reservations others foreign w held g) (p : Nat) (member : p ∈ g.order) :
    propertiesOf w p = g.properties p := by
  have laid := stands.lays.laid p member
  have used : usedProperties w (g.node p).shape = .ok (g.properties p) :=
    laid.usedProperties_ok _ laid.propertyCount rfl fun x there => stands.keeps.stored x _ there
  simp only [propertiesOf, stands.shapeAt_eq p member, used]

theorem Stands.entriesOf_eq {held : Nat → Option ShapeObject}
    (stands : Stands reservations others foreign w held g) (p : Nat) (member : p ∈ g.order) :
    entriesOf w p = g.entries p := by
  simp only [entriesOf, stands.shapeAt_eq p member, usedEntries_ok stands p member]

theorem Sane.removes (sane : Sane reservations others foreign root w g) (p : Nat) (member : p ∈ g.order)
    (below : p ≠ root) : ∃ after, removeShape w p = .ok after ∧ Removed w after p ∧
      ((∀ x ∈ g.order, g.parent x ≠ some p) → ∃ g', Sane reservations others foreign root after g') := by
  obtain ⟨rest, split, top⟩ := sane.split
  have planted := sane.planted rest split
  obtain ⟨earlier, after, rfl⟩ := List.append_of_mem ((List.mem_cons.mp (split ▸ member)).resolve_left below)
  obtain ⟨b, above⟩ : ∃ b, (root :: earlier).getLast? = some b :=
    ⟨_, List.getLast?_eq_some_getLast (List.cons_ne_nil root earlier)⟩
  obtain ⟨q, w₁, held₁, entries, slack, parent, done₁, perm, _, stands₁⟩ := planted.forget b above
  have order₁ : (g.forget p b q entries slack).order = g.order := Graph.unlink_order
  obtain ⟨w₂, held₂, done₂, _, stands₂⟩ := killShape_ok stands₁ p (order₁ ▸ member)
  have pruned : Graph.Pruned (fun x => x ≠ p) g ((g.forget p b q entries slack).drop p) :=
    Graph.forget_pruned sane.rooted.branching member parent perm
  have live (x : Nat) : Live w₂ x ↔ x ∈ g.order ∧ x ≠ p := by
    rw [stands₂.live_iff, pruned.order, List.mem_filter, decide_eq_true_iff]
  have done : removeShape w p = .ok w₂ := by
    rw [removeShape, done₁, Result.ok_bind, done₂]
  refine ⟨w₂, done, ⟨fun x => ?_, fun x alive => ?_, fun x alive => ?_⟩, fun leaf => ?_⟩
  · rw [live, sane.live_iff]
  · have old := ((live x).mp alive).1
    have inside := (stands₂.live_iff x).mp alive
    rw [stands₂.propertiesOf_eq x inside, stands₂.parentOf_eq x inside, sane.propertiesOf_eq x old,
      sane.parentOf_eq x old]
    exact ⟨pruned.properties x inside, pruned.parent x inside⟩
  · have old := ((live x).mp alive).1
    have inside := (stands₂.live_iff x).mp alive
    rw [stands₂.entriesOf_eq x inside, sane.entriesOf_eq x old]
    refine (pruned.entries x inside).trans (List.Perm.of_eq (List.filter_congr fun entry listed => ?_))
    obtain ⟨c, _, target, _⟩ := sane.rooted.targets x old entry listed
    simp [target]
  · obtain ⟨w₃, w₄, g', forgot, killed, planted', pruned', _⟩ := planted.remove b above leaf
    cases done₁.symm.trans forgot
    cases done₂.symm.trans killed
    have rooted := sane.rooted.prune (fun x => x ≠ p) (decide_eq_true below.symm)
      (fun x inside _ y outer => decide_eq_true fun here => leaf x inside (here ▸ outer)) pruned'
    exact ⟨g', planted'.sane rooted⟩

theorem Sane.leaf_iff (sane : Sane reservations others foreign root w g) (p : Nat) (member : p ∈ g.order) :
    (∀ x ∈ g.order, g.parent x ≠ some p) ↔ getTransitionAt w (some p) 0 = .ok none := by
  rw [sane.getTransitionAt_eq p member, Except.ok.injEq]
  constructor
  · intro leaf
    cases entries : g.entries p with
    | nil => rfl
    | cons entry rest =>
        obtain ⟨c, inside, _, above⟩ := sane.rooted.targets p member entry (entries ▸ List.mem_cons_self)
        exact (leaf c inside above).elim
  · intro none x inside above
    obtain ⟨entry, listed, _⟩ := sane.rooted.exists_entry x inside p above
    obtain ⟨first, rest, entries⟩ := List.exists_cons_of_ne_nil (List.ne_nil_of_mem listed)
    rw [entries] at none
    cases none

theorem Sane.orphaned (sane : Sane reservations others foreign root w g) (p : Nat) (after : ShapeWorld)
    (removed : Removed w after p) (x : Nat) (inside : x ∈ g.order) (above : g.parent x = some p)
    (order : List Nat) : ¬ Consistent after root order := by
  intro consistent
  have other : x ≠ p := (sane.rooted.tree.forest.parent_ne x p inside above).symm
  have live : Live after x := (removed.live x).mpr ⟨(sane.live_iff x).mpr inside, other⟩
  have above' : parentOf after x = some p := by
    rw [(removed.layouts x live).2, sane.parentOf_eq x inside, above]
  have below : x ≠ root := fun top => by
    rw [(sane.rooted.tree.orphan x inside).mpr top] at above
    cases above
  obtain ⟨before, rest, split⟩ := List.append_of_mem ((consistent.listed.live x).mp live)
  obtain ⟨q, earlier, parent⟩ := consistent.parents before x rest split below
  cases above'.symm.trans parent
  have alive : Live after p := (consistent.listed.live p).mpr (split ▸ List.mem_append_left _ earlier)
  exact ((removed.live p).mp alive).2 rfl

end Remove

inductive ManagedCall
  | on (call : Call)
  | remove (p : Nat)

def ManagedAllowed (w : ShapeWorld) (root : Nat) : ManagedCall → Prop
  | .on call => Allowed w call
  | .remove p => Live w p ∧ p ≠ root ∧ getTransitionAt w (some p) 0 = .ok none

def performManaged (fuel : Nat) (w : ShapeWorld) : ManagedCall → Result ShapeWorld
  | .on call => perform fuel w call
  | .remove p => removeShape w p

def managed (reservations : Nat → Option Nat) : System Run ManagedCall where
  start := (system reservations).start
  step s call t := ManagedAllowed s.world s.root call ∧ t.root = s.root ∧
    ∃ fuel, performManaged fuel s.world call = .ok t.world

section Reachable

variable {reservations : Nat → Option Nat}

theorem managed_sane (reserves : Reserves reservations) (s : Run)
    (reached : (managed reservations).Reachable s) :
    ∃ others foreign g, Sane reservations others foreign s.root s.world g := by
  induction reached with
  | start initial =>
      obtain ⟨others, foreign, g, sane, _⟩ := start_sane reserves _ initial
      exact ⟨others, foreign, g, sane⟩
  | @step s t call _ taken ih =>
      obtain ⟨others, foreign, g, sane⟩ := ih
      obtain ⟨allowed, root, fuel, done⟩ := taken
      cases call with
      | on call =>
          obtain ⟨g', sane', _⟩ := (perform_meets reserves sane call allowed fuel).holds _ done
          exact ⟨others, foreign, g', root ▸ sane'⟩
      | remove p =>
          obtain ⟨live, below, leaf⟩ := allowed
          have member := (sane.live_iff p).mp live
          obtain ⟨after, done', _, kept⟩ := sane.removes p member below
          cases done'.symm.trans done
          obtain ⟨g', sane'⟩ := kept ((sane.leaf_iff p member).mpr leaf)
          exact ⟨others, foreign, g', root ▸ sane'⟩

theorem removal_by_hand (reserves : Reserves reservations) (s : Run)
    (reached : (managed reservations).Reachable s) :
    (∃ order, Consistent s.world s.root order) ∧ ∀ p, Live s.world p → p ≠ s.root →
      ∃ after, removeShape s.world p = .ok after ∧ Removed s.world after p ∧
        ((∃ order, Consistent after s.root order) ↔ getTransitionAt s.world (some p) 0 = .ok none) := by
  obtain ⟨others, foreign, g, sane⟩ := managed_sane reserves s reached
  refine ⟨⟨g.order, sane.consistent⟩, fun p live below => ?_⟩
  have member := (sane.live_iff p).mp live
  obtain ⟨after, done, removed, kept⟩ := sane.removes p member below
  refine ⟨after, done, removed, ?_⟩
  rw [← sane.leaf_iff p member]
  refine ⟨fun ⟨order, consistent⟩ x inside above => ?_, fun leaf => ?_⟩
  · exact sane.orphaned p after removed x inside above order consistent
  · obtain ⟨g', sane'⟩ := kept leaf
    exact ⟨g'.order, sane'.consistent⟩

end Reachable

theorem managed_reachable {reservations : Nat → Option Nat} (s : Run)
    (reached : (system reservations).Reachable s) : (managed reservations).Reachable s := by
  induction reached with
  | start initial => exact .start initial
  | @step before after call _ taken ih =>
      have taken : (managed reservations).step before (.on call) after := taken
      exact ih.step taken

theorem removal_by_hand_child : ∃ (s : Run) (child : Nat) (after : ShapeWorld), child ≠ s.root ∧
    Live s.world child ∧ removeShape s.world child = .ok after ∧ Removed s.world after child := by
  obtain ⟨s, child, reached, other, live, _⟩ := child_reached
  obtain ⟨after, done, removed, _⟩ :=
    (removal_by_hand rowOfRegions_reserves s (managed_reachable s reached)).2 child live other
  exact ⟨s, child, after, other, live, done, removed⟩

end Shape

end ElySquare
