import Mathlib.Data.Int.ModEq
import Mathlib.Tactic.Ring

/-!
# One's-complement sums

Words of `w` bits are added with an end-around carry: what leaves the word at the top is
added again at the bottom. This is addition modulo `2^w - 1`, in which zero has two
representations, all bits clear and all bits set; the sum is the first one only if all words
are zero.

- `Reps w n a`: the word `a` represents the number `n`. It is determined by `n`
  (`Reps.eq_iff`), so ways to add differ only in when they carry;
- `Reps.carry`: carrying once;
- `sum_reps`: adding word by word, with the carry after each addition.
-/

namespace GosKernel.OnesComplement

/-- What is above `w` bits is added to what is below. -/
def carry (w n : Nat) : Nat := n % 2 ^ w + n / 2 ^ w

/-- The sum of a list of words, carried after every addition. -/
def sum (w : Nat) (words : List Nat) : Nat := words.foldl (fun acc word => carry w (acc + word)) 0

/-- The word `a` is the one's-complement representation of `n`. -/
structure Reps (w n a : Nat) : Prop where
  lt : a < 2 ^ w
  mod : a ≡ n [MOD 2 ^ w - 1]
  zero : a = 0 ↔ n = 0

section

variable {w n n' a a' : Nat}

theorem carry_modEq (w n : Nat) : carry w n ≡ n [MOD 2 ^ w - 1] := by
  have hone : 2 ^ w ≡ 1 [MOD 2 ^ w - 1] :=
    ((Nat.modEq_iff_dvd' Nat.one_le_two_pow).mpr dvd_rfl).symm
  calc carry w n ≡ n % 2 ^ w + 1 * (n / 2 ^ w) [MOD 2 ^ w - 1] := by rw [Nat.one_mul]; rfl
    _ ≡ n % 2 ^ w + 2 ^ w * (n / 2 ^ w) [MOD 2 ^ w - 1] :=
      (hone.symm.mul_right (n / 2 ^ w)).add_left (n % 2 ^ w)
    _ = n := Nat.mod_add_div n (2 ^ w)

theorem carry_eq_zero : carry w n = 0 ↔ n = 0 := by
  constructor
  · intro h
    obtain ⟨hlow, hhigh⟩ := Nat.add_eq_zero_iff.mp h
    rw [← Nat.mod_add_div n (2 ^ w), hlow, hhigh, Nat.mul_zero]
  · rintro rfl
    simp [carry]

/-- Carrying may go down to the word, or only nearer to it. -/
theorem Reps.carry (h : Reps w (carry w n) a) : Reps w n a :=
  ⟨h.lt, h.mod.trans (carry_modEq w n), h.zero.trans carry_eq_zero⟩

theorem Reps.of_lt (h : n < 2 ^ w) : Reps w n n := ⟨h, rfl, Iff.rfl⟩

/-- Two congruent words differ by nothing, or by all of `2^w - 1`. -/
theorem eq_of_modEq (hle : a ≤ a') (hlt : a' < 2 ^ w) (hmod : a ≡ a' [MOD 2 ^ w - 1])
    (hzero : a = 0 ↔ a' = 0) : a = a' := by
  obtain ⟨q, hq⟩ := (Nat.modEq_iff_dvd' hle).mp hmod
  rcases q with _ | q
  · omega
  · have hge : 2 ^ w - 1 ≤ (2 ^ w - 1) * (q + 1) := Nat.le_mul_of_pos_right _ (Nat.succ_pos q)
    omega

/-- **A word is determined** by the number modulo `2^w - 1`, and by whether it is zero. -/
theorem Reps.eq_iff (h : Reps w n a) (h' : Reps w n' a') :
    a = a' ↔ n ≡ n' [MOD 2 ^ w - 1] ∧ (n = 0 ↔ n' = 0) := by
  constructor
  · rintro rfl
    exact ⟨h.mod.symm.trans h'.mod, h.zero.symm.trans h'.zero⟩
  · rintro ⟨hmod, hzero⟩
    have hcong : a ≡ a' [MOD 2 ^ w - 1] := h.mod.trans (hmod.trans h'.mod.symm)
    have hz : a = 0 ↔ a' = 0 := h.zero.trans (hzero.trans h'.zero.symm)
    rcases Nat.le_total a a' with hle | hle
    · exact eq_of_modEq hle h'.lt hcong hz
    · exact (eq_of_modEq hle h.lt hcong.symm hz.symm).symm

/-- All bits are set for the multiples of `2^w - 1` other than zero. -/
theorem Reps.eq_ones_iff (h : Reps w n a) (hw : 1 < 2 ^ w) :
    a = 2 ^ w - 1 ↔ n ≠ 0 ∧ 2 ^ w - 1 ∣ n := by
  rw [Ne, ← h.zero, ← h.mod.dvd_iff dvd_rfl]
  constructor
  · rintro rfl
    exact ⟨by omega, dvd_rfl⟩
  · rintro ⟨hne, hdvd⟩
    have hle := Nat.le_of_dvd (Nat.pos_of_ne_zero hne) hdvd
    have hlt := h.lt
    omega

theorem Reps.add (h : Reps w n a) {b : Nat} (hb : b < 2 ^ w) :
    Reps w (n + b) (OnesComplement.carry w (a + b)) := by
  refine ⟨?_, (carry_modEq w (a + b)).trans (h.mod.add_right b), ?_⟩
  · have hlt := h.lt
    unfold OnesComplement.carry
    rcases Nat.lt_or_ge (a + b) (2 ^ w) with hsum | hsum
    · rw [Nat.mod_eq_of_lt hsum, Nat.div_eq_of_lt hsum]
      exact hsum
    · -- the carry is one, and what it is added to is less than all ones
      have hdiv : (a + b) / 2 ^ w = 1 := Nat.div_eq_of_lt_le (by omega) (by omega)
      have hmod : (a + b) % 2 ^ w = a + b - 2 ^ w := by
        rw [Nat.mod_eq_sub_mod hsum, Nat.mod_eq_of_lt (by omega)]
      omega
  · rw [carry_eq_zero, Nat.add_eq_zero_iff, Nat.add_eq_zero_iff, h.zero]

end

/-- **The sum of words** represents the sum of the numbers. -/
theorem sum_reps {w : Nat} {words : List Nat} (h : ∀ b ∈ words, b < 2 ^ w) :
    Reps w words.sum (sum w words) := by
  have hfold : ∀ n a, Reps w n a → Reps w (n + words.sum)
      (words.foldl (fun acc word => carry w (acc + word)) a) := by
    induction words with
    | nil => exact fun n a hreps => hreps
    | cons b words ih =>
      intro n a hreps
      rw [List.sum_cons, ← Nat.add_assoc]
      exact ih (fun c hc => h c (List.mem_cons_of_mem b hc)) _ _
        (hreps.add (h b List.mem_cons_self))
  have hall := hfold 0 0 (.of_lt (Nat.two_pow_pos w))
  rwa [Nat.zero_add] at hall

end GosKernel.OnesComplement
