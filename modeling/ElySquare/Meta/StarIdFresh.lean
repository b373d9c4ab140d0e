import Mathlib.Data.List.Pairwise
import ElySquare.Meta.StarIdCalls

set_option autoImplicit false

namespace ElySquare

namespace ALAR

open Transition

/-- An id that a call has returned, and what stood in memory from buffer[7] of numToStarId on. `written` is
whether a call of staridize did not find its text, and so wrote one. -/
inductive Issued
  | fresh (stack : List Byte) (id : Atom)
  | interned (stack : List Byte) (id : Atom) (written : Bool)
deriving DecidableEq, Repr

namespace Issued

def stack : Issued → List Byte
  | .fresh stack _ => stack
  | .interned stack _ _ => stack

def id : Issued → Atom
  | .fresh _ id => id
  | .interned _ id _ => id

def isFresh : Issued → Bool
  | .fresh _ _ => true
  | .interned _ _ _ => false

def isWritten : Issued → Bool
  | .fresh _ _ => false
  | .interned _ _ written => written

end Issued

structure Issuing where
  alar : ALAR
  world : AlarWorld
  log : List Issued

inductive IssuingCall
  | getNewStarId (stack : List Byte)
  | staridize (text : Option (List Byte)) (length : Nat) (stack : List Byte)
deriving DecidableEq, Repr

def issuing (reservations : Nat → Option Nat) : System Issuing IssuingCall where
  start s := ∃ (Memory : Type) (_ : LinkStore Memory) (creating after : World Memory)
    (others : List PageManager.Chunk) (live : List Block) (bins : Nat → List Nat) (starIDMaxCount : Nat),
    MetaArena.Sound reservations creating others live bins ∧ starIDMaxCount < 2 ^ 16 ∧
    construct (some creating) starIDMaxCount = .ok (s.alar, s.world, after) ∧ s.log = []
  step s call t :=
    match call with
    | .getNewStarId stack => t.world = s.world ∧ ∃ id,
        getNewStarId s.alar stack = .ok (id, t.alar) ∧ t.log = .fresh stack id :: s.log
    | .staridize text length stack => length < 2 ^ 63 ∧ ∃ id,
        staridize s.alar s.world stack text length = .ok (id, t.alar, t.world) ∧
        t.log = .interned stack id
          (decide (getStarIdOf s.alar s.world stack text length = .ok brokenAtom)) :: s.log

def Unshared (log : List Issued) : Prop :=
  log.Pairwise fun later earlier => later.isFresh = true ∨ earlier.isFresh = true → later.id ≠ earlier.id

def TextsFirst (log : List Issued) : Prop :=
  log.Pairwise fun later earlier => later.isWritten = true → earlier.isFresh = false

def Ended (log : List Issued) : Prop := ∀ issued ∈ log, issued.stack.head? = some 0#8

/-- The ids of getNewStarId are those of the places without a text below createdPlacesCount; the other ids
are those of texts. -/
structure Separate (reservations : Nat → Option Nat) (s : Issuing) : Prop where
  stocked : ∃ others texts, Stocked reservations others s.alar s.world texts ∧
    (∀ issued ∈ s.log, issued.isFresh = true →
      ∃ i, i < s.alar.createdPlacesCount ∧ texts i = none ∧ issued.id = starIdOf i) ∧
    (∀ issued ∈ s.log, issued.isFresh = false → ∃ i text, texts i = some text ∧ issued.id = starIdOf i) ∧
    ∀ i, i < s.alar.createdPlacesCount → texts i = none →
      ∃ issued ∈ s.log, issued.isFresh = true ∧ issued.id = starIdOf i
  unshared : Unshared s.log

theorem starIdOf_inj (i j : Nat) (small : i < 2 ^ 16) (small' : j < 2 ^ 16)
    (same : starIdOf i = starIdOf j) : i = j := by
  rw [← starIdToNum_starIdOf i small, same, starIdToNum_starIdOf j small']

theorem numToStarId_ended (stack : List Byte) (i : Nat) (small : i < 2 ^ 16) (id : Atom)
    (ended : stack.head? = some 0#8) (named : numToStarId stack i = .ok id) : id = starIdOf i := by
  obtain ⟨rest, rfl⟩ := List.head?_eq_some_iff.mp ended
  exact Except.ok.inj (named.symm.trans (numToStarId_ok rest i small))

section Steps

variable {reservations : Nat → Option Nat} {s t : Issuing}

theorem Separate.getNewStarId (separate : Separate reservations s) (stack : List Byte)
    (ended : stack.head? = some 0#8) (id : Atom) (world : t.world = s.world)
    (made : ALAR.getNewStarId s.alar stack = .ok (id, t.alar)) (log : t.log = .fresh stack id :: s.log) :
    Separate reservations t := by
  obtain ⟨⟨others, texts, stocked, fresh, interned, handed⟩, unshared⟩ := separate
  have few := stocked.few
  obtain ⟨room, named, grown⟩ := getNewStarId_ok stack few.2 id t.alar made
  obtain rfl := numToStarId_ended stack _ (by omega) id ended named
  have free : texts s.alar.createdPlacesCount = none := by
    by_contra taken
    obtain ⟨text, holds⟩ := Option.ne_none_iff_exists'.mp taken
    exact Nat.lt_irrefl _ (stocked.created _ text holds)
  have more : t.alar.createdPlacesCount = s.alar.createdPlacesCount + 1 := by rw [grown]
  refine ⟨⟨others, texts, ?_, fun issued listed isFresh => ?_, fun issued listed other => ?_,
    fun i below empty => ?_⟩, ?_⟩
  · rw [grown, world]
    exact stocked.handOut room
  · rcases List.mem_cons.mp (log ▸ listed) with rfl | old
    · exact ⟨_, by omega, free, rfl⟩
    · obtain ⟨i, below, empty, same⟩ := fresh issued old isFresh
      exact ⟨i, by omega, empty, same⟩
  · rcases List.mem_cons.mp (log ▸ listed) with rfl | old
    · cases other
    · exact interned issued old other
  · rw [log]
    by_cases here : i = s.alar.createdPlacesCount
    · exact ⟨_, List.mem_cons_self, rfl, by rw [here]; rfl⟩
    · obtain ⟨issued, listed, isFresh, same⟩ := handed i (by omega) empty
      exact ⟨issued, List.mem_cons_of_mem _ listed, isFresh, same⟩
  · -- every id before is one of a place below
    rw [log]
    refine List.pairwise_cons.mpr ⟨fun issued listed _ same => ?_, unshared⟩
    obtain ⟨i, below, id⟩ : ∃ i, i < s.alar.createdPlacesCount ∧ issued.id = starIdOf i := by
      cases isFresh : issued.isFresh with
      | true =>
          obtain ⟨i, below, _, id⟩ := fresh issued listed isFresh
          exact ⟨i, below, id⟩
      | false =>
          obtain ⟨i, text, holds, id⟩ := interned issued listed isFresh
          exact ⟨i, stocked.created i text holds, id⟩
    have index := starIdOf_inj _ i (by omega) (by omega) (same.trans id)
    omega

theorem Separate.found (separate : Separate reservations s) (stack : List Byte)
    (ended : stack.head? = some 0#8) (id : Atom) (alar : t.alar = s.alar) (world : t.world = s.world)
    (there : ∀ others texts, Stocked reservations others s.alar s.world texts →
      ∃ i text, texts i = some text ∧ numToStarId stack i = .ok id)
    (log : t.log = .interned stack id false :: s.log) : Separate reservations t := by
  obtain ⟨⟨others, texts, stocked, fresh, interned, handed⟩, unshared⟩ := separate
  have few := stocked.few
  obtain ⟨i, text, holds, named⟩ := there others texts stocked
  have below := stocked.created i text holds
  obtain rfl := numToStarId_ended stack i (by omega) id ended named
  refine ⟨⟨others, texts, ?_, fun issued listed isFresh => ?_, fun issued listed other => ?_,
    fun j below empty => ?_⟩, ?_⟩
  · rw [alar, world]
    exact stocked
  · rcases List.mem_cons.mp (log ▸ listed) with rfl | old
    · cases isFresh
    · rw [alar]
      exact fresh issued old isFresh
  · rcases List.mem_cons.mp (log ▸ listed) with rfl | old
    · exact ⟨i, text, holds, rfl⟩
    · exact interned issued old other
  · rw [alar] at below
    obtain ⟨issued, listed, isFresh, same⟩ := handed j below empty
    exact ⟨issued, log ▸ List.mem_cons_of_mem _ listed, isFresh, same⟩
  · rw [log]
    refine List.pairwise_cons.mpr ⟨fun issued listed either same => ?_, unshared⟩
    obtain ⟨j, below', empty, id⟩ := fresh issued listed (either.resolve_left (by simp [Issued.isFresh]))
    obtain rfl := starIdOf_inj i j (by omega) (by omega) (same.trans id)
    rw [empty] at holds
    cases holds

theorem Separate.written (separate : Separate reservations s) (plain : ∀ issued ∈ s.log, issued.isFresh = false)
    (stack : List Byte) (ended : stack.head? = some 0#8) (id : Atom)
    (there : ∀ others texts, Stocked reservations others s.alar s.world texts → ∃ i new,
      texts i = none ∧ (∀ k, k < i → texts k ≠ none) ∧ numToStarId stack i = .ok id ∧
      t.alar.createdPlacesCount = max s.alar.createdPlacesCount (i + 1) ∧
      Stocked reservations others t.alar t.world (Function.update texts i (some new)))
    (log : t.log = .interned stack id true :: s.log) : Separate reservations t := by
  obtain ⟨⟨others, texts, stocked, fresh, interned, handed⟩, unshared⟩ := separate
  obtain ⟨i, new, free, used, named, created, stocked'⟩ := there others texts stocked
  have below := stocked'.created i new (Function.update_self ..)
  have few := stocked'.few
  obtain rfl := numToStarId_ended stack i (by omega) id ended named
  have still (j : Nat) (text : List Byte) (holds : texts j = some text) :
      Function.update texts i (some new) j = some text := by
    rw [Function.update_of_ne (fun same => by rw [same, free] at holds; cases holds), holds]
  have plain' : ∀ issued ∈ t.log, issued.isFresh = false := by
    rw [log]
    exact List.forall_mem_cons.mpr ⟨rfl, plain⟩
  refine ⟨⟨others, _, stocked', fun issued listed isFresh => ?_, fun issued listed _ => ?_,
    fun j below' empty => ?_⟩, ?_⟩
  · rw [plain' issued listed] at isFresh
    cases isFresh
  · rcases List.mem_cons.mp (log ▸ listed) with rfl | old
    · exact ⟨i, new, Function.update_self .., rfl⟩
    · obtain ⟨j, text, holds, same⟩ := interned issued old (plain issued old)
      exact ⟨j, text, still j text holds, same⟩
  · have other : j ≠ i := fun same => by simp [same] at empty
    rw [Function.update_of_ne other] at empty
    by_cases early : j < s.alar.createdPlacesCount
    · obtain ⟨issued, listed, isFresh, _⟩ := handed j early empty
      rw [plain issued listed] at isFresh
      cases isFresh
    · exact (used j (by omega) empty).elim
  · refine List.pairwise_of_forall_mem_list fun later inLater earlier inEarlier either => ?_
    rw [plain' later inLater, plain' earlier inEarlier] at either
    simp at either

theorem Separate.shares (separate : Separate reservations s) (issued : Issued) (listed : issued ∈ s.log)
    (isFresh : issued.isFresh = true) (stack : List Byte) (ended : stack.head? = some 0#8) (id : Atom)
    (there : ∀ others texts, Stocked reservations others s.alar s.world texts → ∃ i,
      texts i = none ∧ (∀ k, k < i → texts k ≠ none) ∧ numToStarId stack i = .ok id) :
    ∃ other ∈ s.log, other.isFresh = true ∧ id = other.id := by
  obtain ⟨⟨others, texts, stocked, fresh, _, handed⟩, _⟩ := separate
  obtain ⟨i, free, used, named⟩ := there others texts stocked
  obtain ⟨j, below, empty, _⟩ := fresh issued listed isFresh
  have first : i ≤ j := Nat.le_of_not_lt fun before => used j before empty
  have few := stocked.few
  obtain rfl := numToStarId_ended stack i (by omega) id ended named
  obtain ⟨other, listed', isFresh', same⟩ := handed i (by omega) free
  exact ⟨other, listed', isFresh', same.symm⟩

theorem construct_created {Memory : Type} [LinkStore Memory] (creating : Option (World Memory))
    (starIDMaxCount : Nat) (alar : ALAR) (w : AlarWorld) (after : World Memory)
    (made : construct creating starIDMaxCount = .ok (alar, w, after)) : alar.createdPlacesCount = 0 := by
  cases creating with
  | none => cases made
  | some creating =>
      obtain ⟨_, _, made⟩ := (Result.bind_ok _ _ _).mp made
      obtain ⟨_, _, made⟩ := (Result.bind_ok _ _ _).mp made
      obtain ⟨_, _, made⟩ := (Result.bind_ok _ _ _).mp made
      obtain ⟨_, _, made⟩ := (Result.bind_ok _ _ _).mp made
      obtain ⟨_, _, made⟩ := (Result.bind_ok _ _ _).mp made
      cases made
      rfl

def Accounted (reservations : Nat → Option Nat) (s : Issuing) : Prop :=
  Ended s.log → (TextsFirst s.log → Separate reservations s) ∧ (¬ TextsFirst s.log → ¬ Unshared s.log)

theorem Accounted.cons (accounted : Accounted reservations s) (issued : Issued)
    (log : t.log = issued :: s.log)
    (early : ∀ earlier ∈ s.log, issued.isWritten = true → earlier.isFresh = false)
    (next : issued.stack.head? = some 0#8 → Separate reservations s → Separate reservations t) :
    Accounted reservations t := by
  intro ended
  rw [Ended, log, List.forall_mem_cons] at ended
  obtain ⟨separate, shared⟩ := accounted ended.2
  have first : TextsFirst t.log ↔ TextsFirst s.log := by
    rw [TextsFirst, log, List.pairwise_cons]
    exact and_iff_right early
  refine ⟨fun texts => next ended.1 (separate (first.mp texts)), fun late => ?_⟩
  rw [Unshared, log, List.pairwise_cons]
  exact fun unshared => shared (mt first.mpr late) unshared.2

theorem Accounted.late (accounted : Accounted reservations s) (stack : List Byte) (id : Atom)
    (issued : Issued) (listed : issued ∈ s.log) (isFresh : issued.isFresh = true)
    (there : ∀ others texts, Stocked reservations others s.alar s.world texts → ∃ i,
      texts i = none ∧ (∀ k, k < i → texts k ≠ none) ∧ numToStarId stack i = .ok id)
    (log : t.log = .interned stack id true :: s.log) : Accounted reservations t := by
  intro ended
  rw [Ended, log, List.forall_mem_cons] at ended
  obtain ⟨separate, shared⟩ := accounted ended.2
  refine ⟨fun texts => ?_, fun _ => ?_⟩
  · rw [TextsFirst, log, List.pairwise_cons] at texts
    rw [texts.1 issued listed rfl] at isFresh
    cases isFresh
  · rw [Unshared, log, List.pairwise_cons]
    rintro ⟨apart, unshared⟩
    by_cases texts : TextsFirst s.log
    · obtain ⟨other, listed', isFresh', same⟩ :=
        (separate texts).shares issued listed isFresh stack ended.1 id there
      exact apart other listed' (.inr isFresh') same
    · exact shared texts unshared

theorem accounted_staridize (reserves : Reserves reservations) (text : Option (List Byte)) (length : Nat)
    (short : length < 2 ^ 63) (stack : List Byte) (id : Atom) (accounted : Accounted reservations s)
    (made : staridize s.alar s.world stack text length = .ok (id, t.alar, t.world))
    (log : t.log = .interned stack id
      (decide (getStarIdOf s.alar s.world stack text length = .ok brokenAtom)) :: s.log) :
    Accounted reservations t := by
  have cases_ (others : List PageManager.Chunk) (texts : Nat → Option (List Byte))
      (stocked : Stocked reservations others s.alar s.world texts) :=
    stocked.staridize_cases reserves stack text length short id t.alar t.world made
  by_cases missed : getStarIdOf s.alar s.world stack text length = .ok brokenAtom
  · rw [decide_eq_true missed] at log
    -- where a new text goes
    have there (others : List PageManager.Chunk) (texts : Nat → Option (List Byte))
        (stocked : Stocked reservations others s.alar s.world texts) : ∃ i new, texts i = none ∧
          (∀ k, k < i → texts k ≠ none) ∧ numToStarId stack i = .ok id ∧
          t.alar.createdPlacesCount = max s.alar.createdPlacesCount (i + 1) ∧
          Stocked reservations others t.alar t.world (Function.update texts i (some new)) := by
      rcases cases_ others texts stocked with ⟨found, known, _⟩ | ⟨_, i, _, _, new, entered, free, used, stocked'⟩
      · exact (known (Except.ok.inj (found.symm.trans missed))).elim
      · exact ⟨i, new, free, used, entered.named, (entered.created stocked.few.2).2, stocked'⟩
    by_cases plain : ∀ issued ∈ s.log, issued.isFresh = false
    · exact accounted.cons _ log (fun issued listed _ => plain issued listed) fun nul separate =>
        separate.written plain stack nul id there log
    · push Not at plain
      obtain ⟨issued, listed, isFresh⟩ := plain
      refine accounted.late stack id issued listed (by simpa using isFresh) (fun others texts stocked => ?_) log
      obtain ⟨i, _, free, used, named, _⟩ := there others texts stocked
      exact ⟨i, free, used, named⟩
  · rw [decide_eq_false missed] at log
    refine accounted.cons _ log (fun _ _ written => by cases written) fun nul separate => ?_
    obtain ⟨others, texts, stocked, _⟩ := separate.stocked
    rcases cases_ others texts stocked with ⟨_, _, alar, world, _⟩ | ⟨broken, _⟩
    · refine separate.found stack nul id alar world (fun others texts stocked => ?_) log
      rcases cases_ others texts stocked with ⟨_, _, _, _, there⟩ | ⟨broken, _⟩
      · exact there
      · exact (missed broken).elim
    · exact (missed broken).elim

theorem accounted_of_reachable (reserves : Reserves reservations)
    (reached : (issuing reservations).Reachable s) : Accounted reservations s := by
  refine System.invariant _ (Accounted reservations) ?_ ?_ reached
  · rintro s ⟨Memory, links, creating, after, others, live, bins, starIDMaxCount, sound, ushort, made, log⟩ _
    have sane := (construct_meets reserves creating others live bins sound starIDMaxCount ushort).holds _ made
    have created := construct_created _ _ _ _ _ made
    refine ⟨fun _ => ⟨⟨_, _, sane.stocked, ?_⟩, ?_⟩, fun late => (late ?_).elim⟩
    · rw [log]
      exact ⟨fun _ listed => (by cases listed), fun _ listed => (by cases listed), fun i below => by omega⟩
    · rw [log]
      exact List.Pairwise.nil
    · rw [log]
      exact List.Pairwise.nil
  · rintro s call t accounted taken
    cases call with
    | getNewStarId stack =>
        obtain ⟨world, id, made, log⟩ := taken
        exact accounted.cons _ log (fun _ _ written => by cases written) fun nul separate =>
          separate.getNewStarId stack nul id world made log
    | staridize text length stack =>
        obtain ⟨short, id, made, log⟩ := taken
        exact accounted_staridize reserves text length short stack id accounted made log

theorem fresh_ids_unshared (reserves : Reserves reservations) (s : Issuing)
    (reached : (issuing reservations).Reachable s) (ended : Ended s.log) :
    Unshared s.log ↔ TextsFirst s.log := by
  obtain ⟨separate, shared⟩ := accounted_of_reachable reserves reached ended
  exact ⟨fun unshared => not_not.mp fun late => shared late unshared, fun texts => (separate texts).unshared⟩

end Steps

-- A registry of four places: its first new id is that of its first text when the id comes first.
theorem fresh_then_text : ∃ s, (issuing PageManager.rowOfRegions).Reachable s ∧
    s.log = [.interned [0#8] 0x80000000#32 true, .fresh [0#8] 0x80000000#32] ∧ ¬ Unshared s.log := by
  have run : Result.passes (PageManager.construct PageManager.rowOfRegions) (fun fresh =>
      Result.passes (MetaArena.construct fresh pageSize (Heap.empty : Heap AlarObject)) fun creating =>
      Result.passes (construct (some creating) 4) fun made =>
      Result.passes (getNewStarId made.1 [0#8]) fun one =>
      Result.passes (staridize one.2 made.2.1 [0#8] (some [97#8]) 1) fun two =>
      one.1 = 0x80000000#32 && two.1 = 0x80000000#32 &&
        decide (getStarIdOf one.2 made.2.1 [0#8] (some [97#8]) 1 = .ok brokenAtom)) = true := by
    decide +kernel
  simp only [Result.passes_iff, Bool.and_eq_true, decide_eq_true_eq] at run
  obtain ⟨fresh, first, creating, built, ⟨alar, world, after⟩, made, ⟨_, alar₁⟩, one,
    ⟨_, alar₂, world₂⟩, two, ⟨rfl, rfl⟩, missed⟩ := run
  have sound := MetaArena.firstPage_sound fresh first _ _ built
  have started : (issuing PageManager.rowOfRegions).Reachable ⟨alar, world, []⟩ :=
    .start ⟨_, _, creating, after, _, _, _, 4, sound, by decide, made, rfl⟩
  have second : (issuing PageManager.rowOfRegions).step ⟨alar, world, []⟩ (.getNewStarId [0#8])
      ⟨alar₁, world, [.fresh [0#8] 0x80000000#32]⟩ := ⟨rfl, _, one, rfl⟩
  have third : (issuing PageManager.rowOfRegions).step ⟨alar₁, world, [.fresh [0#8] 0x80000000#32]⟩
      (.staridize (some [97#8]) 1 [0#8])
      ⟨alar₂, world₂, [.interned [0#8] 0x80000000#32 true, .fresh [0#8] 0x80000000#32]⟩ :=
    ⟨by decide, _, two, by rw [decide_eq_true missed]⟩
  exact ⟨_, (started.step second).step third, rfl, fun unshared =>
    (List.pairwise_cons.mp unshared).1 _ List.mem_cons_self (.inr rfl) rfl⟩

theorem fresh_ids_unshared_pair : ∃ s, (issuing PageManager.rowOfRegions).Reachable s ∧
    s.log = [.fresh [0#8] 0x80000001#32, .interned [0#8] 0x80000000#32 true] ∧
    (Unshared s.log ↔ TextsFirst s.log) := by
  have run : Result.passes (PageManager.construct PageManager.rowOfRegions) (fun fresh =>
      Result.passes (MetaArena.construct fresh pageSize (Heap.empty : Heap AlarObject)) fun creating =>
      Result.passes (construct (some creating) 4) fun made =>
      Result.passes (staridize made.1 made.2.1 [0#8] (some [97#8]) 1) fun one =>
      Result.passes (getNewStarId one.2.1 [0#8]) fun two =>
      one.1 = 0x80000000#32 && two.1 = 0x80000001#32 &&
        decide (getStarIdOf made.1 made.2.1 [0#8] (some [97#8]) 1 = .ok brokenAtom)) = true := by
    decide +kernel
  simp only [Result.passes_iff, Bool.and_eq_true, decide_eq_true_eq] at run
  obtain ⟨fresh, first, creating, built, ⟨alar, world, after⟩, made, ⟨_, alar₁, world₁⟩, one,
    ⟨_, alar₂⟩, two, ⟨rfl, rfl⟩, missed⟩ := run
  have sound := MetaArena.firstPage_sound fresh first _ _ built
  have started : (issuing PageManager.rowOfRegions).Reachable ⟨alar, world, []⟩ :=
    .start ⟨_, _, creating, after, _, _, _, 4, sound, by decide, made, rfl⟩
  have second : (issuing PageManager.rowOfRegions).step ⟨alar, world, []⟩ (.staridize (some [97#8]) 1 [0#8])
      ⟨alar₁, world₁, [.interned [0#8] 0x80000000#32 true]⟩ :=
    ⟨by decide, _, one, by rw [decide_eq_true missed]⟩
  have third : (issuing PageManager.rowOfRegions).step
      ⟨alar₁, world₁, [.interned [0#8] 0x80000000#32 true]⟩ (.getNewStarId [0#8])
      ⟨alar₂, world₁, [.fresh [0#8] 0x80000001#32, .interned [0#8] 0x80000000#32 true]⟩ :=
    ⟨rfl, _, two, rfl⟩
  refine ⟨_, (started.step second).step third, rfl, fresh_ids_unshared rowOfRegions_reserves _
    ((started.step second).step third) fun issued listed => ?_⟩
  simp only [List.mem_cons, List.not_mem_nil, or_false] at listed
  rcases listed with rfl | rfl <;> rfl

end ALAR

end ElySquare
