import Mathlib.Data.List.GetD
import ElySquare.Shared.FirstRun
import ElySquare.Allocators.PageManager

set_option autoImplicit false

namespace ElySquare.PageManager

open FirstRun

def pageBit (bitmap : List (BitVec 64)) (idx : Nat) : Bool :=
  (bitmap.getD (idx / 64) 0#64).getLsbD (idx % 64)

def PageFree (bitmap : List (BitVec 64)) (idx : Nat) : Prop :=
  idx < 64 * bitmap.length ∧ pageBit bitmap idx = false

theorem pageBit_word (bitmap : List (BitVec 64)) (i b : Nat) (inside : b < 64) :
    pageBit bitmap (i * 64 + b) = (bitmap.getD i 0#64).getLsbD b := by
  unfold pageBit
  rw [show (i * 64 + b) / 64 = i by omega, show (i * 64 + b) % 64 = b by omega]

theorem pageBit_outside (bitmap : List (BitVec 64)) (idx : Nat) (outside : 64 * bitmap.length ≤ idx) :
    pageBit bitmap idx = false := by
  unfold pageBit
  rw [List.getD_eq_default _ _ (by omega)]
  simp

theorem bitmap_ext (left right : List (BitVec 64)) (length : left.length = right.length)
    (bits : ∀ idx, pageBit left idx = pageBit right idx) : left = right := by
  apply List.ext_getElem length
  intro i inLeft inRight
  apply BitVec.eq_of_getLsbD_eq
  intro b inside
  have same := bits (i * 64 + b)
  rw [pageBit_word _ _ _ inside, pageBit_word _ _ _ inside] at same
  simpa [inLeft, inRight] using same

theorem zeros_skipped (word : BitVec 64) (b j : Nat) (above : b ≤ j)
    (below : j < b + (word >>> b).ctz.toNat) : word.getLsbD j = false := by
  have clear := BitVec.getLsbD_false_of_lt_ctz (x := word >>> b) (i := j - b) (by omega)
  rw [BitVec.getLsbD_ushiftRight] at clear
  rwa [Nat.add_sub_cancel' above] at clear

theorem ones_skipped (word : BitVec 64) (b j : Nat) (above : b ≤ j)
    (below : j < b + (~~~(word >>> b)).ctz.toNat) (inside : j < 64) : word.getLsbD j = true := by
  have clear := BitVec.getLsbD_false_of_lt_ctz (x := ~~~(word >>> b)) (i := j - b) (by omega)
  rw [BitVec.getLsbD_not, BitVec.getLsbD_ushiftRight, Nat.add_sub_cancel' above] at clear
  simpa [show j - b < 64 by omega] using clear

variable {bitmap : List (BitVec 64)} {pageCount : Nat}

theorem free_of_bit (i j : Nat) (present : i < bitmap.length) (above : i * 64 ≤ j)
    (below : j < i * 64 + 64) :
    PageFree bitmap j ↔ (bitmap.getD i 0#64).getLsbD (j - i * 64) = false := by
  have bit := pageBit_word bitmap i (j - i * 64) (by omega)
  rw [Nat.add_sub_cancel' above] at bit
  rw [← bit]
  exact and_iff_right (by omega)

def ScanMeets (free : Nat → Prop) (pageCount pos : Nat) : Scan → Prop
  | .found start => First free pageCount start
  | .run length start => Partial free pageCount pos length start

def skipped (b count : Nat) : Nat := if count > 64 - b then 64 - b else count

theorem skipped_le (b count : Nat) : skipped b count ≤ count ∧ skipped b count ≤ 64 - b := by
  unfold skipped
  split <;> omega

theorem zeros_free (i b : Nat) (present : i < bitmap.length) (inside : b < 64) (j : Nat)
    (above : i * 64 + b ≤ j)
    (below : j < i * 64 + b + skipped b ((bitmap.getD i 0#64) >>> b).ctz.toNat) :
    PageFree bitmap j := by
  have step := skipped_le b ((bitmap.getD i 0#64) >>> b).ctz.toNat
  rw [free_of_bit i j present (by omega) (by omega)]
  exact zeros_skipped _ b _ (by omega) (by omega)

theorem ones_occupied (i b : Nat) (present : i < bitmap.length) (inside : b < 64) (j : Nat)
    (above : i * 64 + b ≤ j)
    (below : j < i * 64 + b + skipped b (~~~((bitmap.getD i 0#64) >>> b)).ctz.toNat) :
    ¬ PageFree bitmap j := by
  have step := skipped_le b (~~~((bitmap.getD i 0#64) >>> b)).ctz.toNat
  rw [free_of_bit i j present (by omega) (by omega), ones_skipped _ b _ (by omega) (by omega)]
  · exact Bool.noConfusion
  · omega

theorem scanBits_meets (i b runLength runStart : Nat) (present : i < bitmap.length) (inside : b ≤ 64)
    (known : Partial (PageFree bitmap) pageCount (i * 64 + b) runLength runStart) :
    ScanMeets (PageFree bitmap) pageCount (i * 64 + 64)
      (scanBits pageCount i (bitmap.getD i 0#64) b runLength runStart) := by
  fun_induction scanBits pageCount i (bitmap.getD i 0#64) b runLength runStart with
  | case1 b runLength runStart small zero count zeros start length enough =>
      exact known.found zeros (zeros_free i b present small) enough
  | case2 b runLength runStart small zero count zeros start length few ih =>
      have step := skipped_le b count
      refine ih (by change b + skipped b count ≤ 64; omega) ?_
      have grown := known.grow zeros (zeros_free i b present small) (Nat.lt_of_not_le few)
      rwa [Nat.add_assoc] at grown
  | case3 b runLength runStart small one count ones ih =>
      have step := skipped_le b count
      have moves : 0 < ones := by
        have set := mt (and_one_eq_zero ((bitmap.getD i 0#64) >>> b)).mpr one
        have positive := ctz_pos (~~~((bitmap.getD i 0#64) >>> b)) (by simpa using set)
        change 0 < skipped b count
        unfold skipped
        split <;> omega
      refine ih (by change b + skipped b count ≤ 64; omega) ?_
      have cleared := known.reset ones (ones_occupied i b present small) moves
      rwa [Nat.add_assoc] at cleared
  | case4 b runLength runStart done =>
      have whole : b = 64 := by omega
      subst whole
      exact known

theorem scanWords_meets (i runLength runStart : Nat) (rest : List (BitVec 64))
    (suffix : rest = bitmap.drop i)
    (known : Partial (PageFree bitmap) pageCount (i * 64) runLength runStart) :
    match scanWords pageCount i runLength runStart rest with
    | some start => First (PageFree bitmap) pageCount start
    | none => ∀ start, ¬ Run (PageFree bitmap) pageCount start := by
  induction rest generalizing i runLength runStart with
  | nil =>
      have past : bitmap.length ≤ i := List.drop_eq_nil_iff.mp suffix.symm
      exact known.finish fun j free => by have := free.1; omega
  | cons word rest ih =>
      have present : i < bitmap.length := by
        by_contra past
        rw [List.drop_eq_nil_iff.mpr (by omega)] at suffix
        cases suffix
      rw [List.drop_eq_getElem_cons present] at suffix
      obtain ⟨wordEq, restEq⟩ := List.cons.inj suffix
      have read : bitmap.getD i 0#64 = word := by simp [present, wordEq]
      have next : (i + 1) * 64 = i * 64 + 64 := by omega
      have bits (j : Nat) (above : i * 64 ≤ j) (below : j < i * 64 + 64) :
          PageFree bitmap j ↔ word.getLsbD (j - i * 64) = false := by
        rw [← read]
        exact free_of_bit i j present above below
      unfold scanWords
      by_cases full : word = BitVec.allOnes 64
      · rw [if_pos full]
        refine ih (i + 1) 0 runStart restEq (next ▸ known.reset 64 (fun j above below => ?_) (by omega))
        rw [bits j above below, full, BitVec.getLsbD_allOnes]
        simp only [show j - i * 64 < 64 by omega, decide_true]
        exact Bool.noConfusion
      rw [if_neg full]
      by_cases empty : word = 0#64
      · rw [if_pos empty]
        have clear (j : Nat) (above : i * 64 ≤ j) (below : j < i * 64 + 64) : PageFree bitmap j := by
          rw [bits j above below, empty, BitVec.getLsbD_zero]
        dsimp only
        by_cases enough : runLength + 64 ≥ pageCount
        · rw [if_pos enough]
          exact known.found 64 clear enough
        · rw [if_neg enough]
          exact ih (i + 1) _ _ restEq (next ▸ known.grow 64 clear (by omega))
      · rw [if_neg empty]
        have stopped := scanBits_meets i 0 runLength runStart present (by omega) known
        rw [read] at stopped
        cases scanned : scanBits pageCount i word 0 runLength runStart with
        | found start =>
            rw [scanned] at stopped
            exact stopped
        | run length start =>
            rw [scanned, ← next] at stopped
            exact ih (i + 1) length start restEq stopped

theorem scanWords_some (positive : 0 < pageCount) (start : Nat) :
    scanWords pageCount 0 0 0 bitmap = some start ↔ First (PageFree bitmap) pageCount start := by
  have meets := @scanWords_meets bitmap pageCount 0 0 0 bitmap rfl
    (by rw [Nat.zero_mul]; exact Partial.empty positive)
  cases scanned : scanWords pageCount 0 0 0 bitmap with
  | none =>
      rw [scanned] at meets
      exact iff_of_false (by simp) fun first => meets start first.run
  | some other =>
      rw [scanned] at meets
      constructor
      · rintro ⟨⟩
        exact meets
      · intro first
        rw [First.unique _ meets first]

theorem scanWords_none (positive : 0 < pageCount) :
    scanWords pageCount 0 0 0 bitmap = none ↔ ∀ start, ¬ Run (PageFree bitmap) pageCount start := by
  have meets := @scanWords_meets bitmap pageCount 0 0 0 bitmap rfl
    (by rw [Nat.zero_mul]; exact Partial.empty positive)
  cases scanned : scanWords pageCount 0 0 0 bitmap with
  | none =>
      rw [scanned] at meets
      exact iff_of_true rfl meets
  | some other =>
      rw [scanned] at meets
      exact iff_of_false (by simp) fun none => none other meets.run

inductive Turn
  | found (start : Nat)
  | next (b runLength runStart : Nat)
deriving DecidableEq, Repr

-- One turn of that loop at bit `b`.
def bitTurn (pageCount i : Nat) (word : BitVec 64) (b runLength runStart : Nat) : Turn :=
  if (word >>> b) &&& 1#64 = 0#64 then
    let count := (word >>> b).ctz.toNat
    let zeros := if count > 64 - b then 64 - b else count
    let runStart := if runLength = 0 then i * 64 + b else runStart
    let runLength := runLength + zeros
    if runLength ≥ pageCount then .found runStart else .next (b + zeros) runLength runStart
  else
    let count := (~~~(word >>> b)).ctz.toNat
    let ones := if count > 64 - b then 64 - b else count
    .next (b + ones) 0 runStart

def bitTurns (pageCount i : Nat) (word : BitVec 64) : Nat → Nat → Nat → Nat → Option Scan
  | 0, b, runLength, runStart => if b < 64 then none else some (.run runLength runStart)
  | turns + 1, b, runLength, runStart =>
    if b < 64 then
      match bitTurn pageCount i word b runLength runStart with
      | .found start => some (.found start)
      | .next b runLength runStart => bitTurns pageCount i word turns b runLength runStart
    else some (.run runLength runStart)

theorem skipped_pos (b count : Nat) (inside : b < 64) (moves : 0 < count) : 0 < skipped b count := by
  unfold skipped
  split <;> omega

theorem bitTurn_advances (i : Nat) (word : BitVec 64) (b runLength runStart b' length start : Nat)
    (inside : b < 64) (turn : bitTurn pageCount i word b runLength runStart = .next b' length start) :
    b < b' ∧ b' ≤ 64 := by
  unfold bitTurn at turn
  by_cases free : (word >>> b) &&& 1#64 = 0#64
  · have moves := skipped_pos b _ inside (ctz_pos _ ((and_one_eq_zero _).mp free))
    have step := skipped_le b (word >>> b).ctz.toNat
    rw [if_pos free] at turn
    change (if runLength + skipped b (word >>> b).ctz.toNat ≥ pageCount then _ else
      Turn.next (b + skipped b (word >>> b).ctz.toNat) _ _) = _ at turn
    split at turn
    · cases turn
    · injection turn with moved
      omega
  · have set := mt (and_one_eq_zero (word >>> b)).mpr free
    have moves := skipped_pos b _ inside (ctz_pos (~~~(word >>> b)) (by simpa using set))
    have step := skipped_le b (~~~(word >>> b)).ctz.toNat
    rw [if_neg free] at turn
    injection turn with moved
    change b + skipped b (~~~(word >>> b)).ctz.toNat = b' at moved
    omega

theorem scanBits_turn (i : Nat) (word : BitVec 64) (b runLength runStart : Nat) (inside : b < 64) :
    scanBits pageCount i word b runLength runStart =
      match bitTurn pageCount i word b runLength runStart with
      | .found start => .found start
      | .next b runLength runStart => scanBits pageCount i word b runLength runStart := by
  rw [scanBits, dif_pos inside]
  unfold bitTurn
  by_cases free : (word >>> b) &&& 1#64 = 0#64
  · rw [dif_pos free, if_pos free]
    dsimp only
    by_cases enough : runLength + skipped b (word >>> b).ctz.toNat ≥ pageCount
    · unfold skipped at enough
      rw [if_pos enough, if_pos enough]
    · unfold skipped at enough
      rw [if_neg enough, if_neg enough]
  · rw [dif_neg free, if_neg free]

-- Since every turn moves on, as many turns as there are bits left are enough.
theorem bitTurns_ends (i : Nat) (word : BitVec 64) (turns b runLength runStart : Nat)
    (enough : 64 ≤ b + turns) :
    bitTurns pageCount i word turns b runLength runStart =
      some (scanBits pageCount i word b runLength runStart) := by
  induction turns generalizing b runLength runStart with
  | zero =>
      have done : ¬ b < 64 := by omega
      rw [bitTurns, if_neg done, scanBits, dif_neg done]
  | succ turns ih =>
      rw [bitTurns]
      by_cases inside : b < 64
      · rw [if_pos inside, scanBits_turn i word b runLength runStart inside]
        cases turn : bitTurn pageCount i word b runLength runStart with
        | found start => rfl
        | next b' length start =>
            have advances := bitTurn_advances i word b runLength runStart b' length start inside turn
            exact ih b' length start (by omega)
      · rw [if_neg inside, scanBits, dif_neg inside]

def firstFit (bitmap : List (BitVec 64)) (pageCount : Nat) : Option Nat :=
  search (fun idx => decide (idx < 64 * bitmap.length) && !pageBit bitmap idx) (64 * bitmap.length)
    pageCount

theorem pageFree_decided (idx : Nat) :
    (decide (idx < 64 * bitmap.length) && !pageBit bitmap idx) = true ↔ PageFree bitmap idx := by
  rw [Bool.and_eq_true, decide_eq_true_eq, Bool.not_eq_true']
  exact Iff.rfl

theorem scan_first_fit (bitmap : List (BitVec 64)) (pageCount : Nat) (positive : 1 ≤ pageCount) :
    (∀ start, scanWords pageCount 0 0 0 bitmap = some start ↔ First (PageFree bitmap) pageCount start) ∧
    (scanWords pageCount 0 0 0 bitmap = none ↔
      ∀ start, ¬ FirstRun.Run (PageFree bitmap) pageCount start) ∧
    scanWords pageCount 0 0 0 bitmap = firstFit bitmap pageCount ∧
    ∀ (i : Nat) (word : BitVec 64) (b runLength runStart : Nat), b < 64 →
      (∀ b' length start, bitTurn pageCount i word b runLength runStart = .next b' length start →
        b < b' ∧ b' ≤ 64) ∧
      bitTurns pageCount i word (64 - b) b runLength runStart =
        some (scanBits pageCount i word b runLength runStart) := by
  have bounded (j : Nat) (free : PageFree bitmap j) : j < 64 * bitmap.length := free.1
  refine ⟨scanWords_some positive, scanWords_none positive, ?_, fun i word b length start inside => ?_⟩
  · cases scanned : scanWords pageCount 0 0 0 bitmap with
    | none =>
        have none := (scanWords_none positive).mp scanned
        exact ((search_none pageFree_decided bounded positive).mpr none).symm
    | some start =>
        have first := (scanWords_some positive start).mp scanned
        exact ((search_some pageFree_decided bounded positive start).mpr first).symm
  · exact ⟨fun b' length' start' => bitTurn_advances i word b length start b' length' start' inside,
      bitTurns_ends i word (64 - b) b length start (by omega)⟩

theorem scan_first_fit_border :
    scanWords 2 0 0 0 [0x7ffffffffffffffd#64, 0xfffffffffffffffe#64] = some 63 :=
  (scan_first_fit _ 2 (by decide)).2.2.1.trans (by decide +kernel)

end ElySquare.PageManager
