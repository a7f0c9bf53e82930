import Mathlib.Logic.Function.Iterate

/-!
# Reflected cyclic redundancy checks

A register of `w` bits takes in a message one bit at a time, least significant bit first.
`poly` is the polynomial with its coefficients reflected, the highest one left out.

- `bitStep poly c`: shift the register by one bit;
- `crcBits poly c bits`: take in the bits of a message;
- `bitStep_xor`: the shift is linear, so a message can be xored into the register as a
  whole (`crcBits_word`) and a word of it looked up in a table (`bitSteps_split`);
- `bitStep_injective`: the shift loses nothing, so messages that differ in no more bits in a
  row than the register has are told apart (`crcBits_inj`, `crcBits_injective`).
-/

namespace GosKernel.Crc

open List Function

variable {w : Nat} (poly : BitVec w)

/-- One shift of the register. -/
def bitStep (c : BitVec w) : BitVec w := if c.getLsbD 0 then (c >>> 1) ^^^ poly else c >>> 1

/-- Take in one bit of the message. -/
def feedBit (c : BitVec w) (bit : Bool) : BitVec w :=
  bitStep poly (c ^^^ BitVec.ofNat w bit.toNat)

/-- Take in the bits of a message. -/
def crcBits (c : BitVec w) (bits : List Bool) : BitVec w := bits.foldl (feedBit poly) c

/-- The low `n` bits of a word, in the order they are taken in. -/
def lowBits (n : Nat) (v : BitVec w) : List Bool := (List.range n).map v.getLsbD

variable {poly}

/-! ## Linearity -/

theorem bitStep_of_even {c : BitVec w} (h : c.getLsbD 0 = false) : bitStep poly c = c >>> 1 := by
  unfold bitStep
  rw [h]
  rfl

theorem bitStep_of_odd {c : BitVec w} (h : c.getLsbD 0 = true) :
    bitStep poly c = (c >>> 1) ^^^ poly := by
  unfold bitStep
  rw [h]
  rfl

/-- **The shift is linear.** -/
theorem bitStep_xor (x y : BitVec w) :
    bitStep poly (x ^^^ y) = bitStep poly x ^^^ bitStep poly y := by
  have hbit : (x ^^^ y).getLsbD 0 = (x.getLsbD 0 ^^ y.getLsbD 0) := BitVec.getLsbD_xor
  have hshift : (x ^^^ y) >>> 1 = (x >>> 1) ^^^ (y >>> 1) := BitVec.ushiftRight_xor_distrib ..
  cases hx : x.getLsbD 0 with
  | false =>
    cases hy : y.getLsbD 0 with
    | false =>
      rw [hx, hy] at hbit
      rw [bitStep_of_even hbit, bitStep_of_even hx, bitStep_of_even hy, hshift]
    | true =>
      rw [hx, hy] at hbit
      rw [bitStep_of_odd hbit, bitStep_of_even hx, bitStep_of_odd hy, hshift, BitVec.xor_assoc]
  | true =>
    cases hy : y.getLsbD 0 with
    | false =>
      rw [hx, hy] at hbit
      rw [bitStep_of_odd hbit, bitStep_of_odd hx, bitStep_of_even hy, hshift, BitVec.xor_assoc,
        BitVec.xor_comm (y >>> 1), BitVec.xor_assoc]
    | true =>
      -- the polynomial comes in twice and cancels
      rw [hx, hy] at hbit
      rw [bitStep_of_even hbit, bitStep_of_odd hx, bitStep_of_odd hy, hshift, BitVec.xor_assoc,
        BitVec.xor_comm poly, BitVec.xor_assoc, BitVec.xor_self,
        BitVec.xor_zero]

theorem bitSteps_xor (n : Nat) (x y : BitVec w) :
    (bitStep poly)^[n] (x ^^^ y) = (bitStep poly)^[n] x ^^^ (bitStep poly)^[n] y := by
  induction n generalizing x y with
  | zero => rfl
  | succ n ih =>
    rw [iterate_succ_apply, iterate_succ_apply, iterate_succ_apply,
      bitStep_xor, ih]

/-- As long as zeros are shifted out, the polynomial does not come in. -/
theorem bitSteps_of_low_zero {n : Nat} {c : BitVec w} (h : ∀ i < n, c.getLsbD i = false) :
    (bitStep poly)^[n] c = c >>> n := by
  induction n generalizing c with
  | zero => exact (BitVec.ushiftRight_zero c).symm
  | succ n ih =>
    have hstep : bitStep poly c = c >>> 1 := bitStep_of_even (h 0 (Nat.succ_pos n))
    have hlow : ∀ i < n, (c >>> 1).getLsbD i = false := by
      intro i hi
      rw [BitVec.getLsbD_ushiftRight]
      exact h (1 + i) (by omega)
    rw [iterate_succ_apply, hstep, ih hlow, ← BitVec.shiftRight_add, Nat.add_comm]

/-! ## Words -/

/-- **Words at a time.** Taking in the low bits of a word is xoring the word into the
register and shifting, up to the bits of the word that are left. -/
theorem crcBits_word (n : Nat) (c v : BitVec w) :
    crcBits poly c (lowBits n v) = (bitStep poly)^[n] (c ^^^ v) ^^^ (v >>> n) := by
  induction n with
  | zero =>
    show c = (c ^^^ v) ^^^ (v >>> 0)
    rw [BitVec.ushiftRight_zero, BitVec.xor_assoc, BitVec.xor_self, BitVec.xor_zero]
  | succ n ih =>
    have hsnoc : crcBits poly c (lowBits (n + 1) v) =
        feedBit poly (crcBits poly c (lowBits n v)) (v.getLsbD n) := by
      unfold crcBits lowBits
      rw [range_succ, map_append, foldl_append]
      rfl
    -- the bit that is taken in cancels the lowest one of what is left of the word
    have heven : ((v >>> n) ^^^ BitVec.ofNat w (v.getLsbD n).toNat).getLsbD 0 = false := by
      rw [BitVec.getLsbD_xor, BitVec.getLsbD_ushiftRight]
      cases hbit : v.getLsbD n with
      | false => simp
      | true =>
        have hw : 0 < w := Nat.zero_lt_of_lt (BitVec.lt_of_getLsbD hbit)
        simp [hw]
    have hshift : ((v >>> n) ^^^ BitVec.ofNat w (v.getLsbD n).toNat) >>> 1 = v >>> (n + 1) := by
      have hone : BitVec.ofNat w (v.getLsbD n).toNat >>> 1 = 0#w := by
        refine BitVec.eq_of_getLsbD_eq fun i _ => ?_
        cases v.getLsbD n with
        | false => simp
        | true => simp
      rw [BitVec.ushiftRight_xor_distrib, hone, BitVec.xor_zero, ← BitVec.shiftRight_add]
    rw [hsnoc, ih]
    unfold feedBit
    rw [BitVec.xor_assoc, bitStep_xor, bitStep_of_even heven, hshift,
      iterate_succ_apply']

/-- **Table lookup.** The shifts of a register are those of its low bits, which a table can
hold, and of the rest, which is only moved. -/
theorem bitSteps_split (n : Nat) (x low : BitVec w)
    (hlow : ∀ i < n, low.getLsbD i = x.getLsbD i) (hhigh : low >>> n = 0#w) :
    (bitStep poly)^[n] x = (bitStep poly)^[n] low ^^^ (x >>> n) := by
  have hrest : ∀ i < n, (low ^^^ x).getLsbD i = false := by
    intro i hi
    rw [BitVec.getLsbD_xor, hlow i hi, Bool.xor_self]
  have hsum : x = low ^^^ (low ^^^ x) := by
    rw [← BitVec.xor_assoc, BitVec.xor_self, BitVec.zero_xor]
  calc (bitStep poly)^[n] x
      = (bitStep poly)^[n] (low ^^^ (low ^^^ x)) := by rw [← hsum]
    _ = (bitStep poly)^[n] low ^^^ ((low ^^^ x) >>> n) := by
        rw [bitSteps_xor, bitSteps_of_low_zero hrest]
    _ = (bitStep poly)^[n] low ^^^ (x >>> n) := by
        rw [BitVec.ushiftRight_xor_distrib, hhigh, BitVec.zero_xor]

theorem crcBits_append (c : BitVec w) (l1 l2 : List Bool) :
    crcBits poly c (l1 ++ l2) = crcBits poly (crcBits poly c l1) l2 :=
  foldl_append

/-! ## Injectivity -/

theorem bitStep_eq_zero {c : BitVec w} (hpoly : poly.msb = true) (h : bitStep poly c = 0#w) :
    c = 0#w := by
  cases hc : c.getLsbD 0 with
  | true =>
    -- the polynomial came in, and its highest coefficient is not shifted away
    rw [bitStep_of_odd hc, BitVec.xor_eq_zero_iff] at h
    rw [← h] at hpoly
    simp at hpoly
  | false =>
    rw [bitStep_of_even hc] at h
    refine BitVec.eq_of_getLsbD_eq fun i _ => ?_
    cases i with
    | zero => rw [hc, BitVec.getLsbD_zero]
    | succ i =>
      have hi : (c >>> 1).getLsbD i = false := by rw [h, BitVec.getLsbD_zero]
      rw [BitVec.getLsbD_ushiftRight, Nat.add_comm] at hi
      rw [hi, BitVec.getLsbD_zero]

/-- **The shift loses nothing** when the polynomial has its highest coefficient. -/
theorem bitStep_injective (hpoly : poly.msb = true) : Injective (bitStep poly) := by
  intro x y hxy
  have hsum : bitStep poly (x ^^^ y) = 0#w := by rw [bitStep_xor, hxy, BitVec.xor_self]
  exact BitVec.xor_eq_zero_iff.mp (bitStep_eq_zero hpoly hsum)

theorem crcBits_injective (hpoly : poly.msb = true) (bits : List Bool) :
    Injective fun c => crcBits poly c bits := by
  induction bits with
  | nil => exact injective_id
  | cons bit bits ih =>
    intro x y hxy
    exact BitVec.xor_left_inj _ |>.mp (bitStep_injective hpoly (ih hxy))

theorem exists_lowBits (bits : List Bool) (h : bits.length ≤ w) :
    ∃ v : BitVec w, lowBits bits.length v = bits ∧ v >>> bits.length = 0#w := by
  have hbit : ∀ i, ((BitVec.ofBoolListLE bits).setWidth w).getLsbD i = bits.getD i false := by
    intro i
    by_cases hi : i < w
    · simp [hi]
    · simp [List.getElem?_eq_none (Nat.le_trans h (Nat.le_of_not_lt hi))]
  refine ⟨(BitVec.ofBoolListLE bits).setWidth w, ?_, ?_⟩
  · refine ext_getElem (by simp [lowBits]) fun i _ hi => ?_
    simp [lowBits, hbit, List.getElem?_eq_getElem hi]
  · refine BitVec.eq_of_getLsbD_eq fun i _ => ?_
    simp

/-- **Bursts.** Messages no longer than the register are told apart. -/
theorem crcBits_inj {c : BitVec w} {l1 l2 : List Bool} (hpoly : poly.msb = true)
    (hlen : l1.length = l2.length) (hw : l1.length ≤ w)
    (h : crcBits poly c l1 = crcBits poly c l2) : l1 = l2 := by
  obtain ⟨v1, hv1, hz1⟩ := exists_lowBits l1 hw
  obtain ⟨v2, hv2, hz2⟩ := exists_lowBits l2 (hlen ▸ hw)
  rw [← hv1, ← hv2, crcBits_word, crcBits_word, hz1, hz2, BitVec.xor_zero, BitVec.xor_zero,
    ← hlen] at h
  have hsum := (bitStep_injective hpoly).iterate _ h
  rw [← hv1, ← hv2, hlen, (BitVec.xor_right_inj c).mp hsum]

end GosKernel.Crc
