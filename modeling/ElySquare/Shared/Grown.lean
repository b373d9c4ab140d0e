import Mathlib.Data.List.Basic
import Mathlib.Data.List.Induction
import Mathlib.Data.List.Nodup

set_option autoImplicit false

/-- Trees whose nodes are listed in an order in which they can be grown: parents before children. -/
structure Forest {α : Type} (order : List α) (parent : α → Option α) : Prop where
  distinct : order.Nodup
  earlier : ∀ before p after, order = before ++ p :: after → ∀ q, parent p = some q → q ∈ before

namespace Forest

variable {α : Type} {order : List α} {parent parent' : α → Option α}

theorem parent_mem (forest : Forest order parent) (p q : α) (member : p ∈ order)
    (above : parent p = some q) : q ∈ order := by
  obtain ⟨before, after, rfl⟩ := List.append_of_mem member
  exact List.mem_append_left _ (forest.earlier before p after rfl q above)

theorem parent_ne (forest : Forest order parent) (p q : α) (member : p ∈ order)
    (above : parent p = some q) : q ≠ p := by
  rintro rfl
  obtain ⟨before, after, rfl⟩ := List.append_of_mem member
  have twice := forest.earlier before q after rfl q above
  exact List.disjoint_of_nodup_append forest.distinct twice List.mem_cons_self

theorem later (forest : Forest order parent) (before : List α) (p : α) (after : List α)
    (split : order = before ++ p :: after) (x : α) (member : x ∈ order) (above : parent x = some p) :
    x ∈ after := by
  have different := forest.parent_ne x p member above
  have distinct := forest.distinct
  subst split
  rcases List.mem_append.mp member with early | late
  · obtain ⟨first, middle, rfl⟩ := List.append_of_mem early
    have again := forest.earlier first x (middle ++ p :: after) (by simp) p above
    exact (List.disjoint_of_nodup_append distinct (List.mem_append_left _ again)
      List.mem_cons_self).elim
  · exact (List.mem_cons.mp late).resolve_left different.symm

theorem congr (forest : Forest order parent) (same : ∀ p ∈ order, parent' p = parent p) :
    Forest order parent' := by
  refine ⟨forest.distinct, fun before p after split q above => ?_⟩
  have member : p ∈ order := split ▸ by simp
  rw [same p member] at above
  exact forest.earlier before p after split q above

theorem grow (forest : Forest order parent) (child : α) (fresh : child ∉ order)
    (inside : ∀ q, parent' child = some q → q ∈ order) (same : ∀ p ∈ order, parent' p = parent p) :
    Forest (order ++ [child]) parent' := by
  refine ⟨?_, fun before p after split x outer => ?_⟩
  · exact List.nodup_append.mpr ⟨forest.distinct, List.nodup_singleton child, fun x old y new same =>
      fresh (List.mem_singleton.mp new ▸ same ▸ old)⟩
  · rcases List.eq_nil_or_concat after with rfl | ⟨rest, last, rfl⟩
    · obtain ⟨rfl, new⟩ := List.append_inj' split rfl
      obtain rfl := (List.cons.inj new).1
      exact inside x outer
    · rw [List.concat_eq_append, ← List.cons_append, ← List.append_assoc] at split
      exact (forest.congr same).earlier before p rest (List.append_inj' split rfl).1 x outer

theorem prune (forest : Forest order parent) (keep : α → Bool)
    (closed : ∀ p ∈ order, keep p = true → ∀ q, parent p = some q → keep q = true) :
    Forest (order.filter keep) parent := by
  refine ⟨forest.distinct.filter keep, fun before p after split q above => ?_⟩
  obtain ⟨left, right, rfl, rfl, rest⟩ := List.filter_eq_append_iff.mp split
  obtain ⟨skipped, tail, rfl, none, kept, _⟩ := List.filter_eq_cons_iff.mp rest
  have early := forest.earlier (left ++ skipped) p tail (by simp) q above
  have kept' := closed p (by simp) kept q above
  rcases List.mem_append.mp early with inside | outside
  · exact List.mem_filter.mpr ⟨inside, kept'⟩
  · exact (none q outside kept').elim

end Forest

structure Grown {α : Type} (order : List α) (root : α) (parent : α → Option α) : Prop where
  first : order.head? = some root
  distinct : order.Nodup
  orphan : ∀ p ∈ order, parent p = none ↔ p = root
  earlier : ∀ before p after, order = before ++ p :: after → ∀ q, parent p = some q → q ∈ before

namespace Grown

variable {α : Type} {order : List α} {root : α} {parent parent' : α → Option α}

theorem forest (tree : Grown order root parent) : Forest order parent := ⟨tree.distinct, tree.earlier⟩

theorem root_mem (tree : Grown order root parent) : root ∈ order :=
  List.mem_of_mem_head? tree.first

theorem parent_mem (tree : Grown order root parent) (p q : α) (member : p ∈ order)
    (above : parent p = some q) : q ∈ order :=
  tree.forest.parent_mem p q member above

theorem exists_parent (tree : Grown order root parent) (p : α) (member : p ∈ order)
    (below : p ≠ root) : ∃ q, parent p = some q :=
  Option.ne_none_iff_exists'.mp (mt (tree.orphan p member).mp below)

theorem congr (tree : Grown order root parent) (same : ∀ p ∈ order, parent' p = parent p) :
    Grown order root parent' := by
  obtain ⟨distinct, earlier⟩ := tree.forest.congr same
  refine ⟨tree.first, distinct, fun p member => ?_, earlier⟩
  rw [same p member]
  exact tree.orphan p member

theorem single (root : α) (orphan : parent root = none) : Grown [root] root parent := by
  refine ⟨rfl, List.nodup_singleton root, fun p member => ?_, fun before p after split q above => ?_⟩
  · obtain rfl := List.mem_singleton.mp member
    simp [orphan]
  · have member : p ∈ [root] := split ▸ by simp
    obtain rfl := List.mem_singleton.mp member
    rw [orphan] at above
    cases above

theorem grow (tree : Grown order root parent) (child q : α) (fresh : child ∉ order) (member : q ∈ order)
    (above : parent' child = some q) (same : ∀ p ∈ order, parent' p = parent p) :
    Grown (order ++ [child]) root parent' := by
  obtain ⟨distinct, earlier⟩ := tree.forest.grow child fresh
    (fun x outer => Option.some.inj (above.symm.trans outer) ▸ member) same
  refine ⟨?_, distinct, fun p inside => ?_, earlier⟩
  · rw [List.head?_append, tree.first]
    rfl
  · rcases List.mem_append.mp inside with old | new
    · exact (tree.congr same).orphan p old
    · obtain rfl := List.mem_singleton.mp new
      have notRoot : p ≠ root := fun top => fresh (top ▸ tree.root_mem)
      simp [above, notRoot]

theorem prune (tree : Grown order root parent) (keep : α → Bool) (top : keep root = true)
    (closed : ∀ p ∈ order, keep p = true → ∀ q, parent p = some q → keep q = true) :
    Grown (order.filter keep) root parent := by
  obtain ⟨distinct, earlier⟩ := tree.forest.prune keep closed
  refine ⟨?_, distinct, fun p inside => tree.orphan p (List.mem_of_mem_filter inside), earlier⟩
  have first := tree.first
  cases order with
  | nil => cases first
  | cons head rest =>
      cases first
      rw [List.filter_cons_of_pos top]
      rfl

-- What holds of the root and goes down from parents to their children holds of every node. The
-- induction is on the number of nodes that are listed before.
theorem induct (tree : Grown order root parent) (property : α → Prop) (top : property root)
    (down : ∀ p ∈ order, ∀ q ∈ order, parent p = some q → property q → property p) (p : α)
    (member : p ∈ order) : property p := by
  obtain ⟨before, after, split⟩ := List.append_of_mem member
  induction length : before.length using Nat.strongRecOn generalizing p before after with
  | ind n ih =>
    by_cases here : p = root
    · exact here ▸ top
    · obtain ⟨q, above⟩ := tree.exists_parent p member here
      have inside := tree.parent_mem p q member above
      obtain ⟨first, middle, rfl⟩ := List.append_of_mem (tree.earlier before p after split q above)
      have shorter : first.length < n := by
        rw [← length, List.length_append, List.length_cons]
        omega
      exact down p member q inside above
        (ih first.length shorter q inside first (middle ++ p :: after) (by simp [split]) rfl)

end Grown
