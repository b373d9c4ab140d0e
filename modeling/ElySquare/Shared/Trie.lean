import Mathlib.Data.Set.Insert
import ElySquare.Shared.Run

set_option autoImplicit false

@[ext] structure Trie (Letter : Type) where
  words : Set (List Letter)
  marked : Set (List Letter)
  blank : [] ∈ words
  closed : ∀ word letter, word ++ [letter] ∈ words → word ∈ words
  within : marked ⊆ words

namespace Trie

variable {Letter : Type}

def seed : Trie Letter where
  words := {[]}
  marked := {[]}
  blank := rfl
  closed word letter member := by cases List.append_ne_nil_of_right_ne_nil word (by simp) member
  within := subset_rfl

def insert (trie : Trie Letter) (word : List Letter) (letter : Letter) (inside : word ∈ trie.words) :
    Trie Letter where
  words := Insert.insert (word ++ [letter]) trie.words
  marked := trie.marked
  blank := .inr trie.blank
  closed word' letter' member := by
    rcases member with same | old
    · obtain ⟨rfl, _⟩ := List.append_inj' same rfl
      exact .inr inside
    · exact .inr (trie.closed word' letter' old)
  within := trie.within.trans (Set.subset_insert _ _)

def mark (trie : Trie Letter) (word : List Letter) (inside : word ∈ trie.words) : Trie Letter where
  words := trie.words
  marked := Insert.insert word trie.marked
  blank := trie.blank
  closed := trie.closed
  within := Set.insert_subset inside trie.within

def Upward (trie : Trie Letter) : Prop :=
  ∀ word letter, word ++ [letter] ∈ trie.marked → word ∈ trie.marked

-- Only the marked words are kept, and the empty one, which also keeps its mark.
def prune (trie : Trie Letter) (upward : trie.Upward) : Trie Letter where
  words := { word | word ∈ trie.words ∧ (word = [] ∨ word ∈ trie.marked) }
  marked := { word | word ∈ trie.marked ∧ word = [] }
  blank := ⟨trie.blank, .inl rfl⟩
  closed word letter kept := by
    obtain ⟨inside, none | marked⟩ := kept
    · cases List.append_ne_nil_of_right_ne_nil word (by simp) none
    · exact ⟨trie.closed word letter inside, .inr (upward word letter marked)⟩
  within _ kept := ⟨trie.within kept.1, .inl kept.2⟩

inductive Op (Letter : Type)
  | insert (word : List Letter) (letter : Letter)
  | mark (word : List Letter)
  | leave
  | prune

inductive Step : Trie Letter → Op Letter → Trie Letter → Prop
  | insert (trie : Trie Letter) (word : List Letter) (letter : Letter) (inside : word ∈ trie.words) :
      Step trie (.insert word letter) (trie.insert word letter inside)
  | mark (trie : Trie Letter) (word : List Letter) (inside : word ∈ trie.words) :
      Step trie (.mark word) (trie.mark word inside)
  | leave (trie : Trie Letter) : Step trie .leave trie
  | prune (trie : Trie Letter) (upward : trie.Upward) : Step trie .prune (trie.prune upward)

def system (Letter : Type) : Transition.System (Trie Letter) (Op Letter) where
  start trie := trie = seed
  step := Step

theorem insert_again (trie : Trie Letter) (word : List Letter) (letter : Letter)
    (inside : word ∈ trie.words) (there : word ++ [letter] ∈ trie.words) :
    trie.insert word letter inside = trie :=
  Trie.ext (Set.insert_eq_of_mem there) rfl

end Trie
