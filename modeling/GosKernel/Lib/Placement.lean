import Mathlib.Data.List.Basic

/-!
# Blocks in a buffer

`setSlice buf start stop d` replaces a slice of a list by another list, which may be longer or
shorter. Placing blocks one after the other (`placeAll`) leaves each where it was put, if no
two of them overlap and none starts behind the end of the buffer.
-/

namespace GosKernel.Placement

open List

variable {β : Type}

/-- Replace `buf[start:stop]`. A slice ends with the list at the latest. -/
def setSlice (buf : List β) (start stop : Nat) (d : List β) : List β :=
  buf.take start ++ d ++ buf.drop (max start stop)

variable {buf d : List β} {start stop : Nat}

/-- What replaces a slice that is at least as long grows the list by what is behind its end. -/
theorem length_setSlice_le (h : d.length ≤ stop - start) :
    (setSlice buf start stop d).length ≤ max buf.length (start + d.length) := by
  rw [setSlice, length_append, length_append, length_take, length_drop]
  omega

theorem getElem?_setSlice (hstart : start ≤ buf.length) (x : Nat) :
    (setSlice buf start (start + d.length) d)[x]? =
      if start ≤ x ∧ x < start + d.length then d[x - start]? else buf[x]? := by
  have htake : (buf.take start).length = start := length_take_of_le hstart
  rw [setSlice, append_assoc]
  by_cases hlo : x < start
  · rw [if_neg (by omega), List.getElem?_append_left (by omega), List.getElem?_take_of_lt hlo]
  · rw [List.getElem?_append_right (by omega), htake]
    by_cases hhi : x < start + d.length
    · rw [if_pos (by omega), List.getElem?_append_left (by omega)]
    · rw [if_neg (by omega), List.getElem?_append_right (by omega), List.getElem?_drop]
      congr 1
      omega

/-! ## Blocks -/

/-- Where a block is put, and what it is. -/
abbrev Block (β : Type) := Nat × List β

def Block.end (b : Block β) : Nat := b.1 + b.2.length

/-- The index is in the block. -/
def Block.Covers (b : Block β) (x : Nat) : Prop := b.1 ≤ x ∧ x < b.end

/-- The blocks do not overlap. -/
def Block.Apart (b c : Block β) : Prop := ∀ x, b.Covers x → ¬ c.Covers x

/-- Put the blocks into the buffer, one after the other. -/
def placeAll (bs : List (Block β)) (buf : List β) : List β :=
  bs.foldl (fun buf b => setSlice buf b.1 b.end b.2) buf

variable {b : Block β} {bs : List (Block β)}

theorem length_place (hb : b.1 ≤ buf.length) :
    (setSlice buf b.1 b.end b.2).length = max buf.length b.end := by
  rw [setSlice, length_append, length_append, length_take, length_drop, Block.end]
  omega

/-- What starts inside the buffer still does when a block was put. -/
theorem le_length_place {c : Block β} (hb : b.1 ≤ buf.length) (hc : c.1 ≤ buf.length) :
    c.1 ≤ (setSlice buf b.1 b.end b.2).length := by
  rw [length_place hb]
  exact Nat.le_trans hc (Nat.le_max_left _ _)

section

variable (hstart : ∀ b ∈ bs, b.1 ≤ buf.length)
include hstart

theorem length_placeAll_le {n : Nat}
    (hend : ∀ b ∈ bs, b.end ≤ n) (hbuf : buf.length ≤ n) : (placeAll bs buf).length ≤ n := by
  induction bs generalizing buf with
  | nil => exact hbuf
  | cons b bs ih =>
    obtain ⟨hb, hstart⟩ := forall_mem_cons.mp hstart
    obtain ⟨hbend, hend⟩ := forall_mem_cons.mp hend
    refine ih (fun c hc => le_length_place hb (hstart c hc)) hend ?_
    rw [length_place hb]
    exact Nat.max_le.mpr ⟨hbuf, hbend⟩

theorem length_le_placeAll :
    buf.length ≤ (placeAll bs buf).length ∧ ∀ b ∈ bs, b.end ≤ (placeAll bs buf).length := by
  induction bs generalizing buf with
  | nil => exact ⟨Nat.le_refl _, forall_mem_nil _⟩
  | cons b bs ih =>
    obtain ⟨hb, hstart⟩ := forall_mem_cons.mp hstart
    obtain ⟨hbuf, hends⟩ := ih fun c hc => le_length_place hb (hstart c hc)
    rw [length_place hb] at hbuf
    obtain ⟨hbuf, hbend⟩ := Nat.max_le.mp hbuf
    exact ⟨hbuf, forall_mem_cons.mpr ⟨hbend, hends⟩⟩

theorem getElem?_placeAll_of_not
    {x : Nat} (hx : ∀ b ∈ bs, ¬ b.Covers x) : (placeAll bs buf)[x]? = buf[x]? := by
  induction bs generalizing buf with
  | nil => rfl
  | cons b bs ih =>
    obtain ⟨hb, hstart⟩ := forall_mem_cons.mp hstart
    obtain ⟨hbx, hx⟩ := forall_mem_cons.mp hx
    rw [placeAll, foldl_cons, ← placeAll, ih (fun c hc => le_length_place hb (hstart c hc)) hx]
    exact (getElem?_setSlice hb x).trans (if_neg hbx)

/-- **Each block is where it was put.** -/
theorem getElem?_placeAll_of_mem (hapart : bs.Pairwise Block.Apart) (hb : b ∈ bs) {i : Nat}
    (hi : i < b.2.length) : (placeAll bs buf)[b.1 + i]? = b.2[i]? := by
  induction bs generalizing buf with
  | nil => cases hb
  | cons c bs ih =>
    obtain ⟨hc, hstart⟩ := forall_mem_cons.mp hstart
    obtain ⟨hapart1, hapart⟩ := pairwise_cons.mp hapart
    have hstart' : ∀ e ∈ bs, e.1 ≤ (setSlice buf c.1 c.end c.2).length :=
      fun e he => le_length_place hc (hstart e he)
    rw [placeAll, foldl_cons, ← placeAll]
    rcases mem_cons.mp hb with rfl | hb
    · -- no later block covers the place
      have hcovers : b.Covers (b.1 + i) := ⟨Nat.le_add_right _ _, Nat.add_lt_add_left hi _⟩
      rw [getElem?_placeAll_of_not hstart' fun e he => hapart1 e he _ hcovers]
      refine (getElem?_setSlice hc _).trans ((if_pos hcovers).trans ?_)
      rw [Nat.add_sub_cancel_left]
    · exact ih hstart' hapart hb

end

end GosKernel.Placement
