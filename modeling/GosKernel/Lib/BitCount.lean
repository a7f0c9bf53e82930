import Mathlib.Data.Nat.Bitwise

/-!
# Counting bits

`bitCount w n` is the number of set bits of `n` below `w`. Taking the lowest set bit away,
`n &&& (n - 1)`, leaves one less (`bitCount_and_pred`).
-/

namespace GosKernel

/-- The number of set bits below `w`. -/
def bitCount (w n : Nat) : Nat := (List.range w).countP n.testBit

theorem bitCount_zero_right (w : Nat) : bitCount w 0 = 0 := by
  simp [bitCount]

theorem bitCount_succ (w n : Nat) : bitCount (w + 1) n = n % 2 + bitCount w (n / 2) := by
  have htail : (n.testBit ∘ Nat.succ) = (n / 2).testBit := by
    funext i
    exact Nat.testBit_succ n i
  rw [bitCount, List.range_succ_eq_map, List.countP_cons, List.countP_map, htail, Nat.add_comm,
    bitCount, Nat.testBit_zero]
  rcases Nat.mod_two_eq_zero_or_one n with h | h <;> simp [h]

/-- An odd number loses its lowest bit. -/
theorem and_pred_odd (q : Nat) : (2 * q + 1) &&& (2 * q + 1 - 1) = 2 * q := by
  refine Nat.eq_of_testBit_eq fun i => ?_
  rw [Nat.testBit_and, Nat.add_sub_cancel]
  cases i with
  | zero => simp
  | succ i =>
    rw [Nat.testBit_succ, Nat.testBit_succ, show (2 * q + 1) / 2 = q by omega,
      show 2 * q / 2 = q by omega, Bool.and_self]

/-- In an even number the bit is further up. -/
theorem and_pred_even (q : Nat) : 2 * q &&& (2 * q - 1) = 2 * (q &&& (q - 1)) := by
  refine Nat.eq_of_testBit_eq fun i => ?_
  rw [Nat.testBit_and]
  cases i with
  | zero => simp
  | succ i =>
    rw [Nat.testBit_succ, Nat.testBit_succ, Nat.testBit_succ, show 2 * q / 2 = q by omega,
      show (2 * q - 1) / 2 = q - 1 by omega, show 2 * (q &&& (q - 1)) / 2 = q &&& (q - 1) by omega,
      Nat.testBit_and]

/-- **The lowest set bit is taken away.** -/
theorem bitCount_and_pred {w n : Nat} (hn : n ≠ 0) (hlt : n < 2 ^ w) :
    bitCount w (n &&& (n - 1)) + 1 = bitCount w n := by
  induction w generalizing n with
  | zero => omega
  | succ w ih =>
    obtain ⟨q, rfl | rfl⟩ : ∃ q, n = 2 * q ∨ n = 2 * q + 1 := ⟨n / 2, by omega⟩
    · have hq : q ≠ 0 := by omega
      rw [and_pred_even, bitCount_succ, bitCount_succ, Nat.mul_mod_right, Nat.mul_mod_right,
        Nat.mul_div_cancel_left _ (by decide), Nat.mul_div_cancel_left _ (by decide), Nat.zero_add,
        Nat.zero_add, ih hq (by omega)]
    · rw [and_pred_odd, bitCount_succ, bitCount_succ, show 2 * q / 2 = q by omega,
        show (2 * q + 1) / 2 = q by omega]
      omega

end GosKernel
