import ElySquare.Meta.StarIdRun

set_option autoImplicit false

namespace ElySquare

section Numbers

def starValue (num : Nat) (text : List Byte) : Nat :=
  text.foldl (fun num c => num * 36 + starDigit c) num

theorem starValue_mod (text : List Byte) (num : Nat) :
    starValue (num % 2 ^ 16) text % 2 ^ 16 = starValue num text % 2 ^ 16 := by
  induction text generalizing num with
  | nil => exact Nat.mod_mod ..
  | cons c text ih =>
      have step : (num % 2 ^ 16 * 36 + starDigit c) % 2 ^ 16 = (num * 36 + starDigit c) % 2 ^ 16 := by
        omega
      change starValue (num % 2 ^ 16 * 36 + starDigit c) text % 2 ^ 16 =
        starValue (num * 36 + starDigit c) text % 2 ^ 16
      rw [← ih (num % 2 ^ 16 * 36 + starDigit c), step, ih]

theorem starNumber_value (text rest : List Byte) (free : 0#8 ∉ text) (num : Nat)
    (small : num < 2 ^ 16) :
    starNumber (text ++ 0#8 :: rest) num = .ok (starValue num text % 2 ^ 16) := by
  induction text generalizing num with
  | nil => exact congrArg Except.ok (Nat.mod_eq_of_lt small).symm
  | cons c text ih =>
      have notEnd : c ≠ 0#8 := fun nul => free (nul ▸ List.mem_cons_self)
      have step : (num * 36 % 2 ^ 16 + starDigit c) % 2 ^ 16 = (num * 36 + starDigit c) % 2 ^ 16 := by
        omega
      rw [List.cons_append, starNumber, if_neg notEnd,
        ih (fun inside => free (List.mem_cons_of_mem _ inside)) _ (Nat.mod_lt _ (by decide)), step,
        starValue_mod]
      rfl

theorem starNumber_junk (stack : List Byte) (num n : Nat) (small : num < 2 ^ 16)
    (read : starNumber stack num = .ok n) :
    n = starValue num (stack.takeWhile fun c => c ≠ 0#8) % 2 ^ 16 := by
  induction stack generalizing num with
  | nil => cases read
  | cons c stack ih =>
      rw [starNumber] at read
      by_cases nul : c = 0#8
      · rw [if_pos nul] at read
        cases read
        simpa [nul, starValue] using (Nat.mod_eq_of_lt small).symm
      · rw [if_neg nul] at read
        have step : (num * 36 % 2 ^ 16 + starDigit c) % 2 ^ 16 = (num * 36 + starDigit c) % 2 ^ 16 := by
          omega
        rw [ih _ (Nat.mod_lt _ (by decide)) read, step, starValue_mod,
          List.takeWhile_cons_of_pos (by simpa using nul)]
        rfl

end Numbers

section Packed

def packed (text : List Byte) : Atom := ssoBytes (text.take 4) &&& ~~~stringFlags.starIdStarMask

def SamePacked (left right : List Byte) : Prop :=
  (∀ k, k < 3 → left.getD k 0#8 = right.getD k 0#8) ∧
    left.getD 3 0#8 &&& 127#8 = right.getD 3 0#8 &&& 127#8

theorem ssoBytes_bit (bytes : List Byte) (i : Nat) (inside : i < 32) :
    (ssoBytes bytes).getLsbD i = (bytes.getD (i / 8) 0#8).getLsbD (i % 8) := by
  induction bytes generalizing i with
  | nil => simp [ssoBytes]
  | cons c bytes ih =>
      have step : ssoBytes (c :: bytes) = ssoBytes bytes <<< 8 ||| c.zeroExtend 32 := rfl
      rw [step, BitVec.getLsbD_or, BitVec.getLsbD_shiftLeft, BitVec.getLsbD_setWidth]
      by_cases low : i < 8
      · simp [low, inside, Nat.div_eq_of_lt low, Nat.mod_eq_of_lt low]
      · have next : i / 8 = (i - 8) / 8 + 1 := by omega
        have rest : (i - 8) % 8 = i % 8 := by omega
        rw [ih (i - 8) (by omega), next, rest, BitVec.getLsbD_of_ge c i (by omega)]
        simp [low, inside]

theorem packed_bit (text : List Byte) (i : Nat) (inside : i < 32) :
    (packed text).getLsbD i = (decide (i ≠ 31) && (text.getD (i / 8) 0#8).getLsbD (i % 8)) := by
  have mask : ∀ i < 32, (~~~stringFlags.starIdStarMask).getLsbD i = decide (i ≠ 31) := by decide
  have first : (text.take 4).getD (i / 8) 0#8 = text.getD (i / 8) 0#8 := by
    simp [List.getD_eq_getElem?_getD, List.getElem?_take_of_lt (show i / 8 < 4 by omega)]
  rw [packed, BitVec.getLsbD_and, mask i inside, ssoBytes_bit _ i inside, first, Bool.and_comm]

theorem packed_eq (left right : List Byte) : packed left = packed right ↔ SamePacked left right := by
  have low : ∀ i < 8, (127#8).getLsbD i = decide (i ≠ 7) := by decide
  constructor
  · intro same
    have bits (i : Nat) (inside : i < 31) :
        (left.getD (i / 8) 0#8).getLsbD (i % 8) = (right.getD (i / 8) 0#8).getLsbD (i % 8) := by
      have bit := congrArg (fun atom => atom.getLsbD i) same
      simpa [packed_bit _ i (show i < 32 by omega), show i ≠ 31 by omega] using bit
    refine ⟨fun k few => BitVec.eq_of_getLsbD_eq fun i small => ?_,
      BitVec.eq_of_getLsbD_eq fun i small => ?_⟩
    · have bit := bits (8 * k + i) (by omega)
      rwa [show (8 * k + i) / 8 = k by omega, show (8 * k + i) % 8 = i by omega] at bit
    · rw [BitVec.getLsbD_and, BitVec.getLsbD_and, low i small]
      by_cases top : i = 7
      · simp [top]
      · have bit := bits (8 * 3 + i) (by omega)
        rw [show (8 * 3 + i) / 8 = 3 by omega, show (8 * 3 + i) % 8 = i by omega] at bit
        rw [bit]
  · rintro ⟨first, fourth⟩
    refine BitVec.eq_of_getLsbD_eq fun i inside => ?_
    rw [packed_bit left i inside, packed_bit right i inside]
    by_cases early : i / 8 < 3
    · rw [first (i / 8) early]
    · by_cases top : i = 31
      · simp [top]
      · have bit := congrArg (fun byte => byte.getLsbD (i % 8)) fourth
        simp only [BitVec.getLsbD_and, low (i % 8) (Nat.mod_lt _ (by decide)),
          show i % 8 ≠ 7 by omega, ne_eq, not_false_eq_true, decide_true, Bool.and_true] at bit
        rw [show i / 8 = 3 by omega, bit]

theorem packed_plain (text : List Byte) : (packed text).getLsbD 31 = false := by
  rw [packed_bit text 31 (by decide)]
  rfl

end Packed

section Short

theorem charToAtom_star (text rest : List Byte) (free : 0#8 ∉ text) :
    charToAtom (some (byteOf '*' :: text ++ 0#8 :: rest)) =
      .ok (starIdOf (starValue 0 text % 2 ^ 16)) := by
  rw [List.cons_append, charToAtom]
  simp only [if_true, starNumber_value text rest free 0 (by decide)]
  rfl

theorem strlen_text (text rest : List Byte) (free : 0#8 ∉ text) :
    strlen (text ++ 0#8 :: rest) = .ok text.length := by
  have found : (text ++ 0#8 :: rest).findIdx? (· = 0#8) = some text.length := by
    rw [List.findIdx?_append, List.findIdx?_eq_none_iff.mpr]
    · simp [List.findIdx?_cons]
    · intro c inside
      simpa using fun nul : c = 0#8 => free (nul ▸ inside)
  simp only [strlen, found]

theorem charToAtom_packed (text rest : List Byte) (free : 0#8 ∉ text)
    (plain : text.head? ≠ some (byteOf '*')) :
    charToAtom (some (text ++ 0#8 :: rest)) = .ok (packed text) := by
  have length := strlen_text text rest free
  have taken : (text ++ 0#8 :: rest).take (min 4 text.length) = text.take 4 := by
    rw [List.take_append_of_le_length (Nat.min_le_right ..), ← List.take_take, List.take_length]
  cases text with
  | nil => rfl
  | cons c text =>
      have other : c ≠ byteOf '*' := fun star => plain (by rw [star]; rfl)
      rw [List.cons_append] at length taken ⊢
      rw [charToAtom]
      simp only [if_neg other, length, Result.ok_bind, taken]
      rfl

end Short

namespace ALAR

open Interning Transition

structure Interned where
  text : List Byte
  stack : List Byte
  atom : Atom
deriving DecidableEq, Repr

structure Naming where
  alar : ALAR
  world : AlarWorld
  log : List Interned

def order : List Interned → List (List Byte)
  | [] => []
  | call :: earlier => if call.text ∈ order earlier then order earlier else order earlier ++ [call.text]

structure NamingCall where
  text : List Byte
  length : Nat
  stack : List Byte
deriving DecidableEq, Repr

def naming (reservations : Nat → Option Nat) : System Naming NamingCall where
  start s := ∃ (Memory : Type) (_ : LinkStore Memory) (creating after : World Memory)
    (others : List PageManager.Chunk) (live : List Block) (bins : Nat → List Nat) (starIDMaxCount : Nat),
    MetaArena.Sound reservations creating others live bins ∧ starIDMaxCount < 2 ^ 16 ∧
    construct (some creating) starIDMaxCount = .ok (s.alar, s.world, after) ∧ s.log = []
  step s call t := Explicit call.length ∧ ∃ id,
    staridize s.alar s.world call.stack (some call.text) call.length = .ok (id, t.alar, t.world) ∧
    t.log = ⟨call.text.take call.length, call.stack, id⟩ :: s.log

inductive Name
  | short (text : List Byte)
  | long (text stack : List Byte)
deriving DecidableEq, Repr

def Name.text : Name → List Byte
  | short text => text
  | long text _ => text

inductive Turned (s : Naming) : Name → Atom → Prop
  | short (text rest : List Byte) (id : Atom) (sso : isSSO text.length = true)
      (made : charToAtom (some (text ++ 0#8 :: rest)) = .ok id) : Turned s (.short text) id
  | long (text stack : List Byte) (id : Atom) (long : isSSO text.length = false)
      (listed : ⟨text, stack, id⟩ ∈ s.log) : Turned s (.long text stack) id

-- The number that a star id is made of, before it wraps: what stands after the star of a short
-- text; the place of a long one, with the characters up to the first NUL after the buffer.
def Name.number (log : List Interned) : Name → Option Nat
  | short text => if text.head? = some (byteOf '*') then some (starValue 0 text.tail) else none
  | long text stack => some (starValue ((order log).idxOf text) (stack.takeWhile fun c => c ≠ 0#8))

def Alike (log : List Interned) (a b : Name) : Prop :=
  match a.number log, b.number log with
  | some m, some n => m % 2 ^ 16 = n % 2 ^ 16
  | none, none => SamePacked a.text b.text
  | _, _ => False

structure Ordered (reservations : Nat → Option Nat) (s : Naming) : Prop where
  places : ∃ others table, Sane reservations others s.alar s.world table ∧
    ∀ k, table.textAt k = (order s.log)[k]?
  listed : ∀ call ∈ s.log, call.text ∈ order s.log ∧ (order s.log).idxOf call.text < 2 ^ 16 ∧
    numToStarId call.stack ((order s.log).idxOf call.text) = .ok call.atom

section Reachable

variable {reservations : Nat → Option Nat} {s : Naming}

theorem order_again (text stack : List Byte) (id : Atom) (known : text ∈ order s.log) :
    order (⟨text, stack, id⟩ :: s.log) = order s.log := if_pos known

theorem order_new (text stack : List Byte) (id : Atom) (new : text ∉ order s.log) :
    order (⟨text, stack, id⟩ :: s.log) = order s.log ++ [text] := if_neg new

theorem Ordered.again (ordered : Ordered reservations s) (text stack : List Byte) (id : Atom)
    (known : text ∈ order s.log) (small : (order s.log).idxOf text < 2 ^ 16)
    (named : numToStarId stack ((order s.log).idxOf text) = .ok id) (t : Naming)
    (log : t.log = ⟨text, stack, id⟩ :: s.log)
    (places : ∃ others table, Sane reservations others t.alar t.world table ∧
      ∀ k, table.textAt k = (order s.log)[k]?) : Ordered reservations t := by
  have same : order t.log = order s.log := log ▸ order_again text stack id known
  refine ⟨same ▸ places, fun call member => ?_⟩
  rw [same]
  rw [log] at member
  rcases List.mem_cons.mp member with rfl | before
  · exact ⟨known, small, named⟩
  · exact ordered.listed call before

theorem Ordered.enter (ordered : Ordered reservations s) (text stack : List Byte) (id : Atom)
    (new : text ∉ order s.log) (small : (order s.log).length < 2 ^ 16)
    (named : numToStarId stack (order s.log).length = .ok id) (t : Naming)
    (log : t.log = ⟨text, stack, id⟩ :: s.log)
    (places : ∃ others table, Sane reservations others t.alar t.world table ∧
      ∀ k, table.textAt k = (order s.log ++ [text])[k]?) : Ordered reservations t := by
  have grown : order t.log = order s.log ++ [text] := log ▸ order_new text stack id new
  refine ⟨grown ▸ places, fun call member => ?_⟩
  rw [grown]
  rw [log] at member
  rcases List.mem_cons.mp member with rfl | before
  · rw [List.idxOf_append_of_notMem new, List.idxOf_cons_self, Nat.add_zero]
    exact ⟨List.mem_append_right _ List.mem_cons_self, small, named⟩
  · obtain ⟨known, rest⟩ := ordered.listed call before
    rw [List.idxOf_append_of_mem known]
    exact ⟨List.mem_append_left _ known, rest⟩

theorem ordered_step (reserves : Reserves reservations) (ordered : Ordered reservations s) (t : Naming)
    (call : NamingCall) (taken : (naming reservations).step s call t) : Ordered reservations t := by
  obtain ⟨⟨nonzero, short⟩, id, made, log⟩ := taken
  obtain ⟨others, table, sane, held⟩ := ordered.places
  obtain ⟨forFound, found, _⟩ := (Result.bind_ok _ _ _).mp made
  have readable := readable_of_ok _ _ _ _ _ nonzero _ found
  obtain ⟨i, table', small, named, interns, used, sane'⟩ :=
    (staridize_places reserves sane call.stack call.text call.length nonzero short readable).holds _ made
  generalize call.text.take call.length = text at *
  rcases interns with ⟨rfl, holds⟩ | ⟨absent, free, rfl⟩
  · rw [held i] at holds
    have known : text ∈ order s.log := List.mem_of_getElem? holds
    have place : (order s.log).idxOf text = i :=
      table'.once _ _ text ((held _).trans (List.getElem?_idxOf known)) ((held i).trans holds)
    exact ordered.again text call.stack id known (place ▸ small) (place ▸ named) t log
      ⟨others, table', sane', held⟩
  · have new : text ∉ order s.log := fun known =>
      absent _ ((held _).trans (List.getElem?_idxOf known))
    have last : i = (order s.log).length := by
      have beyond : (order s.log).length ≤ i := List.getElem?_eq_none_iff.mp ((held i).symm.trans free)
      rcases used with same | used
      · have here := congrArg (fun table => table.textAt i) same
        simp [free] at here
      · by_contra other
        exact used (order s.log).length (by omega) ((held _).trans (List.getElem?_eq_none (Nat.le_refl _)))
    refine ordered.enter text call.stack id new (last ▸ small) (last ▸ named) t log
      ⟨others, _, sane', fun k => ?_⟩
    by_cases here : k = i
    · rw [here, Table.enter_here, last]
      simp
    · rw [Table.enter_there k here, held k]
      by_cases before : k < (order s.log).length
      · rw [List.getElem?_append_left before]
      · rw [List.getElem?_eq_none (by omega), List.getElem?_eq_none (by simp; omega)]

theorem ordered_of_reachable (reserves : Reserves reservations)
    (reached : (naming reservations).Reachable s) : Ordered reservations s := by
  refine System.invariant _ (Ordered reservations) ?_
    (fun s call t ordered taken => ordered_step reserves ordered t call taken) reached
  rintro s ⟨Memory, links, creating, after, others, live, bins, starIDMaxCount, sound, ushort, made, log⟩
  have sane := (construct_meets reserves creating others live bins sound starIDMaxCount ushort).holds _ made
  refine ⟨⟨_, Table.empty, sane, fun k => ?_⟩, fun call member => ?_⟩
  · rw [log]
    rfl
  · rw [log] at member
    cases member

theorem Ordered.turned (ordered : Ordered reservations s) (a : Name) (id : Atom)
    (turned : Turned s a id) (free : 0#8 ∉ a.text) :
    (∃ n, a.number s.log = some n ∧ id = starIdOf (n % 2 ^ 16)) ∨
      a.number s.log = none ∧ id = packed a.text := by
  cases turned with
  | short text rest id sso made =>
      unfold Name.number
      by_cases star : text.head? = some (byteOf '*')
      · obtain ⟨tail, rfl⟩ : ∃ tail, text = byteOf '*' :: tail := by
          cases text with
          | nil => cases star
          | cons c tail => exact ⟨tail, by rw [Option.some.inj star]⟩
        have value := charToAtom_star tail rest fun inside => free (List.mem_cons_of_mem _ inside)
        exact .inl ⟨_, if_pos star, Except.ok.inj (made.symm.trans value)⟩
      · exact .inr ⟨if_neg star, Except.ok.inj (made.symm.trans (charToAtom_packed text rest free star))⟩
  | long text stack id long listed =>
      obtain ⟨_, small, named⟩ := ordered.listed _ listed
      rw [numToStarId_eq _ _ small] at named
      obtain ⟨n, read, same⟩ := (Result.bind_ok _ _ _).mp named
      refine .inl ⟨_, rfl, ?_⟩
      rw [← starNumber_junk stack _ n small read]
      exact (Except.ok.inj same).symm

theorem starIdOf_star (n : Nat) : (starIdOf n).getLsbD 31 = true := by
  rw [starIdOf, BitVec.getLsbD_or]
  simp [stringFlags.starIdStarMask]

theorem Ordered.same_atom (ordered : Ordered reservations s) (a b : Name) (id id' : Atom)
    (turned : Turned s a id) (turned' : Turned s b id') (free : 0#8 ∉ a.text) (free' : 0#8 ∉ b.text) :
    id = id' ↔ Alike s.log a b := by
  have small (n : Nat) : n % 2 ^ 16 < 2 ^ 16 := Nat.mod_lt _ (by decide)
  have apart (n : Nat) (text : List Byte) : starIdOf n ≠ packed text := fun same => by
    have bit := congrArg (fun atom => atom.getLsbD 31) same
    simp only [starIdOf_star, packed_plain] at bit
    cases bit
  unfold Alike
  rcases ordered.turned a id turned free with ⟨m, number, rfl⟩ | ⟨number, rfl⟩ <;>
    rcases ordered.turned b id' turned' free' with ⟨n, number', rfl⟩ | ⟨number', rfl⟩ <;>
    simp only [number, number']
  · refine ⟨fun same => ?_, fun same => congrArg starIdOf same⟩
    have index := congrArg starIdToNum same
    rwa [starIdToNum_starIdOf _ (small m), starIdToNum_starIdOf _ (small n)] at index
  · exact iff_of_false (apart _ _) id
  · exact iff_of_false (fun same => apart _ _ same.symm) id
  · exact packed_eq a.text b.text

theorem Ordered.long_unlike (ordered : Ordered reservations s) (left right : Interned)
    (listed : left ∈ s.log) (listed' : right ∈ s.log) (different : left.text ≠ right.text)
    (rest rest' : List Byte) :
    ¬ Alike s.log (.long left.text (0#8 :: rest)) (.long right.text (0#8 :: rest')) := by
  obtain ⟨known, small, _⟩ := ordered.listed left listed
  obtain ⟨known', small', _⟩ := ordered.listed right listed'
  intro alike
  have same : (order s.log).idxOf left.text = (order s.log).idxOf right.text := by
    have numbers : (order s.log).idxOf left.text % 2 ^ 16 = (order s.log).idxOf right.text % 2 ^ 16 := alike
    rwa [Nat.mod_eq_of_lt small, Nat.mod_eq_of_lt small'] at numbers
  exact different ((List.idxOf_inj known).mp same)

theorem atoms_identify_names (reserves : Reserves reservations) (s : Naming)
    (reached : (naming reservations).Reachable s) (a b : Name) (id id' : Atom)
    (turned : Turned s a id) (turned' : Turned s b id') (free : 0#8 ∉ a.text) (free' : 0#8 ∉ b.text) :
    (a.text ≠ b.text → id ≠ id') ↔ (a.text ≠ b.text → ¬ Alike s.log a b) := by
  have same := (ordered_of_reachable reserves reached).same_atom a b id id' turned turned' free free'
  exact forall_congr' fun _ => not_congr same

end Reachable

theorem eight_named : ∃ s, (naming PageManager.rowOfRegions).Reachable s ∧
    s.log = [⟨[97#8, 98#8, 99#8, 100#8, 101#8, 102#8, 103#8, 104#8], [0#8], 0x80000000#32⟩] := by
  have run : Result.passes (PageManager.construct PageManager.rowOfRegions) (fun fresh =>
      Result.passes (MetaArena.construct fresh pageSize (Heap.empty : Heap AlarObject)) fun creating =>
      Result.passes (construct (some creating) 4) fun made =>
      Result.passes (staridize made.1 made.2.1 [0#8]
        (some [97#8, 98#8, 99#8, 100#8, 101#8, 102#8, 103#8, 104#8]) 8) fun one =>
      one.1 = 0x80000000#32) = true := by decide +kernel
  simp only [Result.passes_iff, decide_eq_true_eq] at run
  obtain ⟨fresh, first, creating, built, ⟨alar, world, after⟩, made, ⟨_, alar₁, world₁⟩, one, rfl⟩ := run
  have sound := MetaArena.firstPage_sound fresh first _ _ built
  have started : (naming PageManager.rowOfRegions).Reachable ⟨alar, world, []⟩ :=
    .start ⟨_, _, creating, after, _, _, _, 4, sound, by decide, made, rfl⟩
  have second : (naming PageManager.rowOfRegions).step ⟨alar, world, []⟩
      ⟨[97#8, 98#8, 99#8, 100#8, 101#8, 102#8, 103#8, 104#8], 8, [0#8]⟩ ⟨alar₁, world₁, _⟩ :=
    ⟨⟨by decide, by decide⟩, _, one, rfl⟩
  exact ⟨_, started.step second, rfl⟩

theorem atoms_identify_names_eight : ∃ s, (naming PageManager.rowOfRegions).Reachable s ∧
    (([97#8, 98#8] : List Byte) ≠ [97#8, 98#8, 99#8, 100#8, 101#8, 102#8, 103#8, 104#8] →
      0x6261#32 ≠ 0x80000000#32) := by
  obtain ⟨s, reached, log⟩ := eight_named
  have short : Turned s (.short [97#8, 98#8]) 0x6261#32 := .short _ [] _ rfl rfl
  have long : Turned s (.long [97#8, 98#8, 99#8, 100#8, 101#8, 102#8, 103#8, 104#8] [0#8])
      0x80000000#32 := .long _ _ _ rfl (log ▸ List.mem_cons_self)
  refine ⟨s, reached, (atoms_identify_names rowOfRegions_reserves s reached _ _ _ _ short long
    (by decide) (by decide)).mpr fun _ => ?_⟩
  rw [log]
  exact fun alike => alike

-- Two texts of five characters get one atom, and so do the text `*` and the first longer text.
theorem atoms_collide : ∃ s, (naming PageManager.rowOfRegions).Reachable s ∧
    (∃ id, Turned s (.short [97#8, 98#8, 99#8, 100#8, 101#8]) id ∧
      Turned s (.short [97#8, 98#8, 99#8, 100#8, 102#8]) id) ∧
    ∃ id, Turned s (.short [42#8]) id ∧
      Turned s (.long [97#8, 98#8, 99#8, 100#8, 101#8, 102#8, 103#8, 104#8] [0#8]) id := by
  obtain ⟨s, reached, log⟩ := eight_named
  exact ⟨s, reached, ⟨0x64636261#32, .short _ [] _ rfl rfl, .short _ [] _ rfl rfl⟩,
    0x80000000#32, .short _ [] _ rfl rfl, .long _ _ _ rfl (log ▸ List.mem_cons_self)⟩

end ALAR

end ElySquare
