import Mathlib

set_option autoImplicit false

namespace Word32

/-!
# Wrapping 32-bit words

Unsigned machine words are natural numbers below `size`; every operation that can leave that
range reduces its result.
-/

def size : Nat := 4294967296

def wrap (n : Nat) : Nat := n % 4294967296

def add (a b : Nat) : Nat := (a + b) % 4294967296

def sub (a b : Nat) : Nat := (a + (4294967296 - b % 4294967296)) % 4294967296

def mul (a b : Nat) : Nat := (a * b) % 4294967296

@[simp] theorem wrap_of_lt {n : Nat} (small : n < 4294967296) : wrap n = n :=
  Nat.mod_eq_of_lt small

@[simp] theorem add_of_lt {a b : Nat} (small : a + b < 4294967296) : add a b = a + b :=
  Nat.mod_eq_of_lt small

@[simp] theorem mul_of_lt {a b : Nat} (small : a * b < 4294967296) : mul a b = a * b :=
  Nat.mod_eq_of_lt small

@[simp] theorem sub_of_le {a b : Nat} (le : b ≤ a) (small : a < 4294967296) : sub a b = a - b := by
  unfold sub
  omega

theorem wrap_lt (n : Nat) : wrap n < 4294967296 := Nat.mod_lt _ (by decide)

theorem add_lt (a b : Nat) : add a b < 4294967296 := Nat.mod_lt _ (by decide)

theorem sub_lt (a b : Nat) : sub a b < 4294967296 := Nat.mod_lt _ (by decide)

theorem sub_eq_zero {a b : Nat} (ha : a < 4294967296) (hb : b < 4294967296) :
    sub a b = 0 ↔ a = b := by
  unfold sub
  omega

theorem and_high_mask (n k w : Nat) (small : n < 2 ^ (k + w)) :
    n &&& ((2 ^ w - 1) <<< k) = n / 2 ^ k * 2 ^ k := by
  rw [← Nat.shiftRight_eq_div_pow, ← Nat.shiftLeft_eq]
  apply Nat.eq_of_testBit_eq
  intro i
  simp only [Nat.testBit_and, Nat.testBit_shiftLeft, Nat.testBit_two_pow_sub_one,
    Nat.testBit_shiftRight]
  by_cases low : k ≤ i
  · have index : k + (i - k) = i := by omega
    by_cases high : i - k < w
    · simp [low, high, index]
    · have out : n.testBit i = false := by
        apply Nat.testBit_lt_two_pow
        exact small.trans_le (Nat.pow_le_pow_right (by decide) (by omega))
      simp [low, index, out]
  · simp [low]

theorem and_page_mask {n : Nat} (small : n < 4294967296) :
    n &&& 0xFFFFF000 = 4096 * (n / 4096) :=
  (and_high_mask n 12 20 small).trans (Nat.mul_comm _ _)

theorem and_low_mask (n : Nat) : n &&& 0xFFF = n % 4096 :=
  Nat.and_two_pow_sub_one_eq_mod n 12

theorem and_page_bit (n : Nat) : n &&& 4096 = 4096 * (n / 4096 % 2) := by
  have bit := Nat.and_two_pow n 12
  simp only [Nat.testBit_eq_decide_div_mod_eq, Nat.reducePow] at bit
  rw [bit]
  rcases Nat.mod_two_eq_zero_or_one (n / 4096) with even | odd
  · simp [even]
  · simp [odd]

end Word32
