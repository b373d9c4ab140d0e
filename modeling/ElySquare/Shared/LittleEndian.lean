import Mathlib.Algebra.Group.Nat.Defs

set_option autoImplicit false

namespace LittleEndian

-- The number in the `count` bytes from `address`, least significant byte first.
def read (memory : Nat → BitVec 8) (address : Nat) : Nat → Nat
  | 0 => 0
  | count + 1 => (memory address).toNat + 2 ^ 8 * read memory (address + 1) count

def write (memory : Nat → BitVec 8) (address count value : Nat) : Nat → BitVec 8 := fun x =>
  if address ≤ x ∧ x < address + count then BitVec.ofNat 8 (value / 2 ^ (8 * (x - address)))
  else memory x

theorem write_outside (memory : Nat → BitVec 8) (address count value x : Nat)
    (outside : x < address ∨ address + count ≤ x) : write memory address count value x = memory x :=
  if_neg (by omega)

theorem read_congr (left right : Nat → BitVec 8) (address count : Nat)
    (same : ∀ x, address ≤ x → x < address + count → left x = right x) :
    read left address count = read right address count := by
  induction count generalizing address with
  | zero => rfl
  | succ count ih =>
      unfold read
      rw [same address (Nat.le_refl _) (by omega),
        ih (address + 1) fun x above below => same x (by omega) (by omega)]

theorem read_write (memory : Nat → BitVec 8) (address count value : Nat)
    (small : value < 2 ^ (8 * count)) :
    read (write memory address count value) address count = value := by
  induction count generalizing address value memory with
  | zero =>
      unfold read
      have : 2 ^ (8 * 0) = 1 := rfl
      omega
  | succ count ih =>
      have first : write memory address (count + 1) value address = BitVec.ofNat 8 value := by
        unfold write
        rw [if_pos (by omega), Nat.sub_self, Nat.mul_zero, Nat.pow_zero, Nat.div_one]
      -- the bytes after the first are a write of the rest of the value
      have rest : read (write memory address (count + 1) value) (address + 1) count =
          value / 2 ^ 8 := by
        rw [← ih memory (address + 1) (value / 2 ^ 8)]
        · refine read_congr _ _ _ _ fun x above below => ?_
          unfold write
          rw [if_pos (by omega), if_pos (by omega), Nat.div_div_eq_div_mul, ← Nat.pow_add]
          congr 3
          omega
        · have grown : 2 ^ (8 * (count + 1)) = 2 ^ (8 * count) * 2 ^ 8 := by
            rw [← Nat.pow_add]
            rfl
          rw [grown] at small
          exact Nat.div_lt_of_lt_mul (by omega)
      unfold read
      rw [first, rest, BitVec.toNat_ofNat]
      exact Nat.mod_add_div value (2 ^ 8)

theorem read_write_outside (memory : Nat → BitVec 8) (address count value other amount : Nat)
    (outside : other + amount ≤ address ∨ address + count ≤ other) :
    read (write memory address count value) other amount = read memory other amount :=
  read_congr _ _ _ _ fun _ above below => write_outside _ _ _ _ _ (by omega)

theorem testBit_read (memory : Nat → BitVec 8) (address count i : Nat) :
    (read memory address count).testBit i =
      (decide (i < 8 * count) && (memory (address + i / 8)).getLsbD (i % 8)) := by
  induction count generalizing address i with
  | zero => simp [read]
  | succ count ih =>
      unfold read
      rw [Nat.add_comm, Nat.testBit_two_pow_mul_add _ (memory address).isLt]
      by_cases first : i < 8
      · rw [if_pos first, Nat.div_eq_of_lt first, Nat.mod_eq_of_lt first]
        have inside : i < 8 * (count + 1) := by omega
        simp [inside, BitVec.getLsbD]
      · have same : (i < 8 * (count + 1)) = (i - 8 < 8 * count) := propext (by omega)
        rw [if_neg first, ih, show address + 1 + (i - 8) / 8 = address + i / 8 by omega,
          show (i - 8) % 8 = i % 8 by omega]
        simp only [same]

theorem write_bit (memory : Nat → BitVec 8) (address count value x i : Nat) (above : address ≤ x)
    (below : x < address + count) (small : i < 8) :
    (write memory address count value x).getLsbD i = value.testBit (8 * (x - address) + i) := by
  unfold write
  rw [if_pos ⟨above, below⟩, BitVec.getLsbD_ofNat, Nat.testBit_div_two_pow, Nat.add_comm]
  simp [small]

end LittleEndian
