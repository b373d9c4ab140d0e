import ElySquare.Meta.StarIdCalls

set_option autoImplicit false

namespace ElySquare

namespace ALAR

open Transition

structure Lifecycle where
  alar : ALAR
  world : AlarWorld
  swept : Nat

inductive LifecycleCall
  | staridize (text : Option (List Byte)) (length : Nat) (stack : List Byte)
  | getNewStarId (stack : List Byte)
  | sweepPlaces
deriving DecidableEq, Repr

/-- Every run of calls that return, on a fresh registry in any arena. No code marks a place. -/
def lifecycle (reservations : Nat → Option Nat) : System Lifecycle LifecycleCall where
  start s := ∃ (Memory : Type) (_ : LinkStore Memory) (creating after : World Memory)
    (others : List PageManager.Chunk) (live : List Block) (bins : Nat → List Nat) (starIDMaxCount : Nat),
    MetaArena.Sound reservations creating others live bins ∧ starIDMaxCount < 2 ^ 16 ∧
    construct (some creating) starIDMaxCount = .ok (s.alar, s.world, after) ∧ s.swept = 0
  step s call t :=
    match call with
    | .staridize text length stack => length < 2 ^ 63 ∧ t.swept = s.swept ∧ ∃ id,
        staridize s.alar s.world stack text length = .ok (id, t.alar, t.world)
    | .getNewStarId stack => t.world = s.world ∧ t.swept = s.swept ∧ ∃ id,
        getNewStarId s.alar stack = .ok (id, t.alar)
    | .sweepPlaces => t.alar = s.alar ∧ ∃ killed,
        sweepPlaces s.alar s.world = .ok (killed, t.world) ∧ t.swept = s.swept + killed

def inUse (alar : ALAR) (w : AlarWorld) : Nat :=
  (List.range alar.starIDMaxCount).countP (isOccupied alar w)

-- Each block that is not given back is one of the three arrays, one of the two of a place in use, or the
-- pointer of a place that was swept.
def Balanced (s : Lifecycle) : Prop :=
  Loans.lentCount s.world.calls =
    Loans.returnedCount s.world.calls + 3 + 2 * inUse s.alar s.world + s.swept

def Unmarked (alar : ALAR) (w : AlarWorld) (texts : Nat → Option (List Byte)) : Prop :=
  ∀ i text, texts i = some text → isMarked alar w i = false

def Lifecycle.Sane (reservations : Nat → Option Nat) (s : Lifecycle) : Prop :=
  (∃ others texts, Stocked reservations others s.alar s.world texts ∧ Unmarked s.alar s.world texts) ∧
    Balanced s

theorem countP_range_update (f : Nat → Bool) (n i : Nat) (below : i < n) (free : f i = false) :
    (List.range n).countP (Function.update f i true) = (List.range n).countP f + 1 := by
  induction n with
  | zero => exact (Nat.not_lt_zero i below).elim
  | succ n ih =>
      rw [List.range_succ, List.countP_append, List.countP_append]
      by_cases here : i = n
      · have before : (List.range n).countP (Function.update f i true) = (List.range n).countP f :=
          List.countP_congr fun j listed => by
            rw [Function.update_of_ne (by have := List.mem_range.mp listed; omega)]
        subst here
        rw [before]
        simp [free]
      · rw [ih (by omega)]
        simp only [List.countP_singleton, Function.update_of_ne (Ne.symm here)]
        omega

section Steps

variable {reservations : Nat → Option Nat} {others : List PageManager.Chunk} {alar alar' : ALAR}
  {w w' middle : AlarWorld} {texts : Nat → Option (List Byte)}

theorem Stocked.inUse (stocked : Stocked reservations others alar w texts) :
    inUse alar w = (List.range alar.starIDMaxCount).countP fun i => (texts i).isSome :=
  List.countP_congr fun i _ => by rw [stocked.occupied i]

theorem setLen_unmarked (place : StarPlace) (length : Nat) :
    (place.setLen length).isMarkedAlive = false := by
  have clear : ~~~stringFlags.gcMarkRawMask &&& stringFlags.gcMarkRawMask = 0#64 := by decide
  simp [StarPlace.isMarkedAlive, StarPlace.setLen, BitVec.and_assoc, clear]

theorem writeText_places (reserves : Reserves reservations)
    (stocked : Stocked reservations others alar w texts) (raw : Option (List Byte)) (length : Nat)
    (short : length < 2 ^ 63) (chars : List Byte) (ref : Nat)
    (written : writeText w raw length = .ok (chars, ref, middle)) :
    middle.memory alar.placelist = w.memory alar.placelist := by
  obtain ⟨held, places, hashes, flags, keeps, shelves⟩ := stocked
  have readable : length ≤ (raw.getD []).length := by
    obtain ⟨_, _, rest⟩ := (Result.bind_ok _ _ _).mp written
    obtain ⟨_, first, _⟩ := (Result.bind_ok _ _ _).mp rest
    rw [firstBytes] at first
    split at first
    · assumption
    · cases first
  obtain ⟨_, held', ptr, keeps', more, _⟩ :=
    (writeText_meets reserves keeps raw length readable short).holds _ written
  exact (keeps'.stored _ _ (more _ _ shelves.placelist)).trans (keeps.stored _ _ shelves.placelist).symm

theorem Entered.unmarked (reserves : Reserves reservations)
    (stocked : Stocked reservations others alar w texts) (unmarked : Unmarked alar w texts)
    {stack : List Byte} {text : Option (List Byte)} {length i ref : Nat} {id : Atom}
    (entered : Entered alar w stack text length id alar' w' i ref middle) (short : length < 2 ^ 63)
    (new : List Byte) : Unmarked alar' w' (Function.update texts i (some new)) := by
  intro j other holds
  by_cases here : j = i
  · obtain ⟨place, there⟩ := entered.here
    rw [here, isMarked, there]
    exact setLen_unmarked _ length
  · rw [Function.update_of_ne here] at holds
    obtain ⟨chars, written⟩ := entered.written
    have same := writeText_places reserves stocked text length short chars ref written
    have place : placeAt alar' w' j = placeAt alar w j := by
      rw [entered.there j here]
      simp only [placeAt, element, read, same]
    rw [isMarked, place]
    exact unmarked j other holds

-- Without marks every place in use dies, and no length is lost.
theorem Unmarked.harmless (stocked : Stocked reservations others alar w texts)
    (unmarked : Unmarked alar w texts) : Harmless alar w := by
  intro i _ occupied marked
  rw [stocked.occupied 0] at occupied
  obtain ⟨text, holds⟩ := Option.isSome_iff_exists.mp occupied
  rw [unmarked 0 text holds] at marked
  cases marked

theorem Unmarked.dead (stocked : Stocked reservations others alar w texts)
    (unmarked : Unmarked alar w texts) (i : Nat) : isDead alar w i = isOccupied alar w i := by
  rw [isDead, stocked.occupied i]
  cases holds : texts i with
  | none => rfl
  | some text => simp [unmarked i text holds]

theorem forall₂_member {α β : Type} {related : α → β → Prop} {left : List α} {right : List β}
    (pairs : List.Forall₂ related left right) :
    (∀ b ∈ right, ∃ a ∈ left, related a b) ∧ ∀ a ∈ left, ∃ b ∈ right, related a b := by
  induction pairs with
  | nil => simp
  | cons pair _ ih =>
      obtain ⟨ihRight, ihLeft⟩ := ih
      simp only [List.mem_cons, forall_eq_or_imp, exists_eq_or_imp]
      exact ⟨⟨.inl pair, fun b listed => .inr (ihRight b listed)⟩,
        .inl pair, fun a listed => .inr (ihLeft a listed)⟩

structure SweptAll (reservations : Nat → Option Nat) (others : List PageManager.Chunk) (alar : ALAR)
    (w w' : AlarWorld) (events : List (Loans.Event Nat Nat)) : Prop where
  stocked : Stocked reservations others alar w' fun _ => none
  calls : w'.calls = events ++ w.calls
  number : events.length = inUse alar w
  texts : ∀ event ∈ events, ∃ i, isOccupied alar w i = true ∧ Frees alar w i event
  places : ∀ i, isOccupied alar w i = true → ∃ event ∈ events, Frees alar w i event

theorem Unmarked.sweep (stocked : Stocked reservations others alar w texts)
    (unmarked : Unmarked alar w texts) : ∃ w' events, sweepPlaces alar w = .ok (inUse alar w, w') ∧
      SweptAll reservations others alar w w' events := by
  obtain ⟨w', swept, done⟩ := sweepPlaces_swept stocked (unmarked.harmless stocked)
  have gone : (fun i => if i ∈ List.range alar.createdPlacesCount ∧ isDead alar w i = true then none
      else texts i) = fun _ => none := by
    funext i
    cases holds : texts i with
    | none => simp
    | some text =>
        have listed := List.mem_range.mpr (stocked.created i text holds)
        have dead : isDead alar w i = true := by simp [unmarked.dead stocked, stocked.occupied i, holds]
        rw [if_pos ⟨listed, dead⟩]
  have number : (deadPlaces alar w).length = inUse alar w := by
    rw [deadPlaces, ALAR.inUse, ← List.countP_eq_length_filter]
    exact List.countP_congr fun i _ => by rw [unmarked.dead stocked i]
  obtain ⟨events, frees, calls⟩ := done.returned
  have stocked' := done.stocked
  rw [gone] at stocked'
  rw [← stocked.deadPlaces] at frees swept
  rw [number] at swept
  obtain ⟨right, left⟩ := forall₂_member frees
  refine ⟨w', events.reverse, swept, stocked', calls, ?_, fun event listed => ?_, fun i occupied => ?_⟩
  · rw [List.length_reverse, ← frees.length_eq, number]
  · obtain ⟨i, dead, frees⟩ := right event (List.mem_reverse.mp listed)
    exact ⟨i, unmarked.dead stocked i ▸ (List.mem_filter.mp dead).2, frees⟩
  · have dead := (unmarked.dead stocked i).trans occupied
    have below : i < alar.starIDMaxCount := by
      rw [stocked.occupied i] at occupied
      obtain ⟨text, holds⟩ := Option.isSome_iff_exists.mp occupied
      exact Nat.lt_of_lt_of_le (stocked.created i text holds) stocked.few.1
    obtain ⟨event, listed, frees⟩ := left i (List.mem_filter.mpr ⟨List.mem_range.mpr below, dead⟩)
    exact ⟨event, List.mem_reverse.mpr listed, frees⟩

theorem SweptAll.returns {events : List (Loans.Event Nat Nat)}
    (swept : SweptAll reservations others alar w w' events) (event : Loans.Event Nat Nat)
    (listed : event ∈ events) : event.isLent = false := by
  obtain ⟨_, _, _, _, _, _, rfl⟩ := swept.texts event listed
  rfl

variable {s t : Lifecycle}

theorem Lifecycle.Sane.staridize (reserves : Reserves reservations) (sane : s.Sane reservations)
    (text : Option (List Byte)) (length : Nat) (stack : List Byte) (short : length < 2 ^ 63)
    (swept : t.swept = s.swept) (id : Atom)
    (made : ALAR.staridize s.alar s.world stack text length = .ok (id, t.alar, t.world)) :
    t.Sane reservations := by
  obtain ⟨⟨others, texts, stocked, unmarked⟩, balanced⟩ := sane
  rcases stocked.staridize_cases reserves stack text length short id t.alar t.world made with
    ⟨_, _, alar, world, _⟩ | ⟨_, i, ref, middle, new, entered, free, _, stocked'⟩
  · refine ⟨⟨others, texts, ?_⟩, ?_⟩
    · rw [alar, world]
      exact ⟨stocked, unmarked⟩
    · rw [Balanced, alar, world, swept]
      exact balanced
  · refine ⟨⟨others, _, stocked', entered.unmarked reserves stocked unmarked short new⟩, ?_⟩
    have same : t.alar.starIDMaxCount = s.alar.starIDMaxCount := by rw [entered.grown]
    have more : inUse t.alar t.world = inUse s.alar s.world + 1 := by
      rw [stocked'.inUse, stocked.inUse, same, ← countP_range_update _ _ i entered.inside (by simp [free])]
      congr 1
      funext j
      by_cases here : j = i
      · simp [here]
      · simp [Function.update_of_ne here]
    obtain ⟨chars, written⟩ := entered.written
    obtain ⟨ptr, calls⟩ := writeText_calls text length chars ref middle written
    rw [← entered.calls] at calls
    rw [Balanced, calls, Loans.lentCount_lent, Loans.lentCount_lent, Loans.returnedCount_lent,
      Loans.returnedCount_lent, more, swept]
    rw [Balanced] at balanced
    omega

theorem Lifecycle.Sane.getNewStarId (sane : s.Sane reservations) (stack : List Byte)
    (world : t.world = s.world) (swept : t.swept = s.swept) (id : Atom)
    (made : ALAR.getNewStarId s.alar stack = .ok (id, t.alar)) : t.Sane reservations := by
  obtain ⟨⟨others, texts, stocked, unmarked⟩, balanced⟩ := sane
  obtain ⟨room, _, grown⟩ := getNewStarId_ok stack stocked.few.2 id t.alar made
  refine ⟨⟨others, texts, ?_, ?_⟩, ?_⟩
  · rw [grown, world]
    exact stocked.handOut room
  · rw [grown, world]
    exact unmarked
  · rw [Balanced, grown, world, swept]
    exact balanced

theorem Lifecycle.Sane.sweepPlaces (sane : s.Sane reservations) (alar : t.alar = s.alar) (killed : Nat)
    (made : ALAR.sweepPlaces s.alar s.world = .ok (killed, t.world)) (swept : t.swept = s.swept + killed) :
    t.Sane reservations := by
  obtain ⟨⟨others, texts, stocked, unmarked⟩, balanced⟩ := sane
  obtain ⟨w', events, done, all⟩ := unmarked.sweep stocked
  obtain ⟨rfl, world⟩ := Prod.mk.inj (Except.ok.inj (made.symm.trans done))
  have stocked' := all.stocked
  rw [← world, ← alar] at stocked'
  refine ⟨⟨others, _, stocked', fun i text holds => (by cases holds)⟩, ?_⟩
  have none : inUse t.alar t.world = 0 := by
    rw [stocked'.inUse]
    simp
  obtain ⟨lent, returned⟩ := Loans.counts_returned s.world.calls events all.returns
  have calls := all.calls
  have number := all.number
  rw [Balanced, world, calls, lent, returned, ← world, none, swept]
  rw [Balanced] at balanced
  omega

theorem construct_calls {Memory : Type} [LinkStore Memory] (creating : Option (World Memory))
    (starIDMaxCount : Nat) (after : World Memory)
    (made : construct creating starIDMaxCount = .ok (alar, w, after)) :
    Loans.lentCount w.calls = 3 ∧ Loans.returnedCount w.calls = 0 := by
  cases creating with
  | none => cases made
  | some creating =>
      obtain ⟨_, _, made⟩ := (Result.bind_ok _ _ _).mp made
      obtain ⟨w₀, fresh, made⟩ := (Result.bind_ok _ _ _).mp made
      obtain ⟨⟨_, w₁⟩, first, made⟩ := (Result.bind_ok _ _ _).mp made
      obtain ⟨⟨_, w₂⟩, second, made⟩ := (Result.bind_ok _ _ _).mp made
      obtain ⟨⟨_, w₃⟩, third, made⟩ := (Result.bind_ok _ _ _).mp made
      cases made
      have empty : w₀.calls = [] := by
        obtain ⟨_, _, fresh⟩ := (Result.bind_ok _ _ _).mp fresh
        cases fresh
        rfl
      have one := (metallocOr_calls _ _ _ _ _ first).trans (congrArg _ empty)
      have two := (metallocOr_calls _ _ _ _ _ second).trans (congrArg _ one)
      have three := (metallocOr_calls _ _ _ _ _ third).trans (congrArg _ two)
      refine ⟨(congrArg Loans.lentCount three).trans rfl, (congrArg Loans.returnedCount three).trans rfl⟩

theorem lifecycle_sane (reserves : Reserves reservations)
    (reached : (lifecycle reservations).Reachable s) : s.Sane reservations := by
  refine System.invariant _ (Lifecycle.Sane reservations) ?_ ?_ reached
  · rintro s ⟨Memory, links, creating, after, others, live, bins, starIDMaxCount, sound, ushort, made, swept⟩
    have sane := (construct_meets reserves creating others live bins sound starIDMaxCount ushort).holds _ made
    obtain ⟨lent, returned⟩ := construct_calls _ _ _ made
    refine ⟨⟨_, _, sane.stocked, fun i text holds => (by cases holds)⟩, ?_⟩
    have none : ALAR.inUse s.alar s.world = 0 := by
      rw [sane.stocked.inUse]
      exact List.countP_eq_zero.mpr fun i _ holds => by cases holds
    rw [Balanced, lent, returned, none, swept]
  · intro s call t sane taken
    cases call with
    | staridize text length stack =>
        obtain ⟨short, swept, id, made⟩ := taken
        exact sane.staridize reserves text length stack short swept id made
    | getNewStarId stack =>
        obtain ⟨world, swept, id, made⟩ := taken
        exact sane.getNewStarId stack world swept id made
    | sweepPlaces =>
        obtain ⟨alar, killed, made, swept⟩ := taken
        exact sane.sweepPlaces alar killed made swept

end Steps

def Owns (alar : ALAR) (w : AlarWorld) (i : Nat) (b : Block) : Prop :=
  ∃ place ref ptr, placeAt alar w i = .ok place ∧ place.ptr = some ref ∧ textPtr w place = .ok ptr ∧
    (b = ⟨ptr, place.len⟩ ∨ b = ⟨ref, sizeofPointer⟩)

def GivesBack (alar : ALAR) (w w' : AlarWorld) : Prop :=
  ∀ i b, isDead alar w i = true → Owns alar w i b → alignSize b.size ≤ alignQuantum * numBuckets →
    MetaArena.OnFreeList w' b.ptr

section Back

variable {reservations : Nat → Option Nat} {others : List PageManager.Chunk} {alar : ALAR}
  {w w' : AlarWorld} {texts : Nat → Option (List Byte)} {events : List (Loans.Event Nat Nat)}

theorem Stocked.onFreeList (stocked : Stocked reservations others alar w texts) (p : Nat) :
    MetaArena.OnFreeList w p ↔ ∃ size, Loans.last w.calls p = some (.returned p size) ∧
      alignSize size ≤ alignQuantum * numBuckets := by
  obtain ⟨_, _, _, _, keeps, _⟩ := stocked
  obtain ⟨live, bins, sound, _⟩ := keeps.blocks
  exact sound.onFreeList_iff p

-- The pointer to a text is never given back, so its block is still out.
theorem SweptAll.ref_out (stocked : Stocked reservations others alar w texts)
    (swept : SweptAll reservations others alar w w' events) (i ref : Nat) (place : StarPlace)
    (occupied : isOccupied alar w i = true) (there : placeAt alar w i = .ok place)
    (pointer : place.ptr = some ref) :
    Loans.last w'.calls ref = some (.lent ref sizeofPointer) := by
  obtain ⟨held, places, hashes, flags, keeps, shelves⟩ := stocked
  -- what the places in use have in the heap
  have entry (j : Nat) (used : isOccupied alar w j = true) : ∃ place ref ptr chars,
      placeAt alar w j = .ok place ∧ place.ptr = some ref ∧ textPtr w place = .ok ptr ∧
        held ref = some (.ref ptr) ∧ held ptr = some (.text chars) := by
    rw [occupied_eq keeps shelves j] at used
    obtain ⟨text, holds⟩ := Option.isSome_iff_exists.mp used
    obtain ⟨place, ref, ptr, at', pointer, _, atRef, chars⟩ := (shelves.entries j text holds).stored
    refine ⟨place, ref, ptr, _, element_ok keeps _ _ shelves.placelist asPlaces places rfl j _ at', pointer,
      ?_, atRef, chars⟩
    simp only [textPtr, pointer, read_ok keeps ref _ atRef asRef ptr rfl]
  obtain ⟨place', ref', ptr, _, there', pointer', _, atRef, _⟩ := entry i occupied
  obtain rfl := Except.ok.inj (there.symm.trans there')
  obtain rfl := Option.some.inj (pointer.symm.trans pointer')
  have others_ : Loans.last w'.calls ref = Loans.last w.calls ref := by
    rw [swept.calls]
    apply Loans.last_others
    intro event listed same
    obtain ⟨j, used, place₁, ptr₁, there₁, text₁, rfl⟩ := swept.texts event listed
    obtain ⟨place₂, _, ptr₂, chars, there₂, _, text₂, _, atText⟩ := entry j used
    obtain rfl := Except.ok.inj (there₁.symm.trans there₂)
    obtain rfl := Except.ok.inj (text₁.symm.trans text₂)
    rw [Loans.Event.key] at same
    rw [same, atRef] at atText
    cases atText
  obtain ⟨live, bins, sound, listed⟩ := keeps.blocks
  exact others_.trans ((sound.booked.inUse ⟨ref, sizeofPointer⟩).mp
    ((listed _).mpr (.inr ⟨_, atRef, rfl⟩)))

theorem SweptAll.text_back (swept : SweptAll reservations others alar w w' events) (i ptr : Nat)
    (place : StarPlace) (occupied : isOccupied alar w i = true) (there : placeAt alar w i = .ok place)
    (text : textPtr w place = .ok ptr) (small : alignSize place.len ≤ alignQuantum * numBuckets) :
    MetaArena.OnFreeList w' ptr := by
  obtain ⟨event, listed, place', ptr', there', text', rfl⟩ := swept.places i occupied
  obtain rfl := Except.ok.inj (there.symm.trans there')
  obtain rfl := Except.ok.inj (text.symm.trans text')
  obtain ⟨newest, listed', found⟩ := Loans.last_append events w.calls ptr ⟨_, listed, rfl⟩
  rw [← swept.calls] at found
  have key := Loans.last_key found
  obtain ⟨_, _, place', ptr', _, _, rfl⟩ := swept.texts newest listed'
  obtain rfl : ptr' = ptr := key
  have member : Loans.Event.returned ptr' place.len ∈ w'.calls :=
    swept.calls ▸ List.mem_append_left _ listed
  have legal : Loans.Legal alignSize w'.calls := by
    obtain ⟨_, _, _, _, keeps, _⟩ := swept.stocked
    obtain ⟨live, bins, sound, _⟩ := keeps.blocks
    exact sound.booked.legal
  obtain ⟨newest', found', same⟩ := legal.same_class _ member
  obtain rfl := Option.some.inj (found.symm.trans found')
  exact (swept.stocked.onFreeList ptr').mpr ⟨_, found, Nat.le_trans (Nat.le_of_eq same) small⟩

theorem SweptAll.not_givesBack (stocked : Stocked reservations others alar w texts)
    (unmarked : Unmarked alar w texts) (swept : SweptAll reservations others alar w w' events) (i : Nat)
    (occupied : isOccupied alar w i = true) : ¬ GivesBack alar w w' := by
  intro back
  obtain ⟨event, _, place, ptr, there, text, _⟩ := swept.places i occupied
  cases pointer : place.ptr with
  | none =>
      rw [textPtr, pointer] at text
      cases text
  | some ref =>
      have on := back i ⟨ref, sizeofPointer⟩ ((unmarked.dead stocked i).trans occupied)
        ⟨place, ref, ptr, there, pointer, text, .inr rfl⟩
        (show alignSize sizeofPointer ≤ alignQuantum * numBuckets by decide)
      obtain ⟨size, found, _⟩ := (swept.stocked.onFreeList ref).mp on
      cases found.symm.trans (swept.ref_out stocked i ref place occupied there pointer)

theorem swept_blocks_back (reserves : Reserves reservations) (s : Lifecycle)
    (reached : (lifecycle reservations).Reachable s) :
    (∃ killed w', sweepPlaces s.alar s.world = .ok (killed, w') ∧
      (∀ i place ptr, isDead s.alar s.world i = true → placeAt s.alar s.world i = .ok place →
        textPtr s.world place = .ok ptr → alignSize place.len ≤ alignQuantum * numBuckets →
        MetaArena.OnFreeList w' ptr) ∧
      (GivesBack s.alar s.world w' ↔ inUse s.alar s.world = 0)) ∧
    ∃ out : List Nat, out.Nodup ∧ (∀ p, p ∈ out ↔ Loans.Out s.world.calls p) ∧
      out.length = 3 + 2 * inUse s.alar s.world + s.swept := by
  obtain ⟨⟨others, texts, stocked, unmarked⟩, balanced⟩ := lifecycle_sane reserves reached
  obtain ⟨w', events, swept, all⟩ := unmarked.sweep stocked
  refine ⟨⟨_, w', swept, fun i place ptr dead there text small => ?_, ⟨fun back => ?_, fun none => ?_⟩⟩, ?_⟩
  · exact all.text_back i ptr place (unmarked.dead stocked i ▸ dead) there text small
  · refine List.countP_eq_zero.mpr fun i _ occupied => ?_
    exact all.not_givesBack stocked unmarked i occupied back
  · intro i b dead _ _
    rw [unmarked.dead stocked i] at dead
    obtain ⟨event, listed, _⟩ := all.places i dead
    have positive := List.length_pos_of_mem listed
    have number := all.number
    omega
  · obtain ⟨_, _, _, _, keeps, _⟩ := stocked
    obtain ⟨live, bins, sound, _⟩ := keeps.blocks
    have out (p : Nat) : p ∈ live.map Block.ptr ↔ Loans.Out s.world.calls p := by
      constructor
      · intro listed
        obtain ⟨b, alive, rfl⟩ := List.mem_map.mp listed
        exact ⟨b.size, (sound.booked.inUse b).mp alive⟩
      · rintro ⟨size, found⟩
        exact List.mem_map.mpr ⟨⟨p, size⟩, (sound.booked.inUse ⟨p, size⟩).mpr found, rfl⟩
    refine ⟨_, sound.distinct, out, ?_⟩
    have count := sound.booked.legal.balance _ sound.distinct out
    rw [Balanced] at balanced
    omega

end Back

theorem one_cycle : ∃ s t, (lifecycle PageManager.rowOfRegions).Reachable s ∧
    isOccupied s.alar s.world 0 = true ∧ sweepPlaces s.alar s.world = .ok (1, t.world) ∧
    (lifecycle PageManager.rowOfRegions).step s .sweepPlaces t ∧ t.swept = 1 := by
  have run : Result.passes (PageManager.construct PageManager.rowOfRegions) (fun fresh =>
      Result.passes (MetaArena.construct fresh pageSize (Heap.empty : Heap AlarObject)) fun creating =>
      Result.passes (construct (some creating) 4) fun made =>
      Result.passes (staridize made.1 made.2.1 [0#8] (some [97#8]) 1) fun one =>
      Result.passes (sweepPlaces one.2.1 one.2.2) fun swept =>
      isOccupied one.2.1 one.2.2 0 && swept.1 = 1) = true := by decide +kernel
  simp only [Result.passes_iff, Bool.and_eq_true, decide_eq_true_eq] at run
  obtain ⟨fresh, first, creating, built, ⟨alar, world, after⟩, made, ⟨_, alar₁, world₁⟩, one, ⟨_, world₂⟩,
    swept, occupied, rfl⟩ := run
  have sound := MetaArena.firstPage_sound fresh first _ _ built
  have started : (lifecycle PageManager.rowOfRegions).Reachable ⟨alar, world, 0⟩ :=
    .start ⟨_, _, creating, after, _, _, _, 4, sound, by decide, made, rfl⟩
  have second : (lifecycle PageManager.rowOfRegions).step ⟨alar, world, 0⟩
      (.staridize (some [97#8]) 1 [0#8]) ⟨alar₁, world₁, 0⟩ := ⟨by decide, rfl, _, one⟩
  exact ⟨⟨alar₁, world₁, 0⟩, ⟨alar₁, world₂, 1⟩, started.step second, occupied, swept,
    ⟨rfl, 1, swept, rfl⟩, rfl⟩

theorem swept_blocks_back_cycle : ∃ s, (lifecycle PageManager.rowOfRegions).Reachable s ∧ s.swept = 1 ∧
    ∃ out : List Nat, out.Nodup ∧ (∀ p, p ∈ out ↔ Loans.Out s.world.calls p) ∧
      out.length = 3 + 2 * inUse s.alar s.world + 1 := by
  obtain ⟨s, t, reached, _, _, taken, swept⟩ := one_cycle
  obtain ⟨_, out, once, all, number⟩ := swept_blocks_back rowOfRegions_reserves t (reached.step taken)
  exact ⟨t, reached.step taken, swept, out, once, all, swept ▸ number⟩

-- The block of the pointer to the text is on no list after the sweep.
theorem swept_pointer_lost : ∃ s w', (lifecycle PageManager.rowOfRegions).Reachable s ∧
    isOccupied s.alar s.world 0 = true ∧ sweepPlaces s.alar s.world = .ok (1, w') ∧
    ¬ GivesBack s.alar s.world w' := by
  obtain ⟨s, t, reached, occupied, swept, _⟩ := one_cycle
  obtain ⟨⟨others, texts, stocked, unmarked⟩, _⟩ := lifecycle_sane rowOfRegions_reserves reached
  obtain ⟨w', events, swept', all⟩ := unmarked.sweep stocked
  obtain ⟨_, same⟩ := Prod.mk.inj (Except.ok.inj (swept.symm.trans swept'))
  exact ⟨s, t.world, reached, occupied, swept, same ▸ all.not_givesBack stocked unmarked 0 occupied⟩

end ALAR

end ElySquare
