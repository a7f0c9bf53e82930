import GosKernel.Kernel.Tar

/-!
# Which headers `tar_find` examines (`src/kernel/tar.c`)

The test of the loop is `ptr + 512 <= end`, and the pointer moves by up to 64 GiB at a
time. Both additions are modulo `2^64`, so near the end of the address space the test
accepts headers that the archive does not have.

- `NeverWraps.walk`: the walk as long as no address wraps;
- `tar_find_inside_iff`: when `tar_find` stays inside of the archive and returns.
-/

namespace GosKernel.Tar

open Strings List

/-! ## The headers examined -/

/-- The loop of `tar_find` (tar.c:42-51) with the headers it examines, in order. -/
def tarFindTrace (m : ByteMem) (name last : Nat) : (fuel ptr : Nat) → Option Nat × List Nat
  | 0, _ => (none, [])
  | fuel + 1, ptr =>
    if wrap64 (ptr + tarBlockSize) ≤ last then
      if m ptr = 0 then (some 0, [ptr])
      else
        match tarMatches m name fuel ptr with
        | none => (none, [ptr])
        | some true => (some ptr, [ptr])
        | some false =>
          let r := tarFindTrace m name last fuel (tarNext m ptr)
          (r.1, ptr :: r.2)
    else (some 0, [])

/-- The headers that `tar_find` examines. -/
def tarExamined (t : TarState) (m : ByteMem) (name fuel : Nat) : List Nat :=
  if t.start = 0 ∨ name = 0 then []
  else (tarFindTrace m name (wrap64 (t.start + t.size)) fuel t.start).2

/-- The call returns, and every header that it examines lies in the archive. -/
def StaysInside (t : TarState) (m : ByteMem) (name : Nat) : Prop :=
  ∃ r N, ∀ fuel, N ≤ fuel → tarFind t m name fuel = some r ∧
    ∀ p ∈ tarExamined t m name fuel, t.start ≤ p ∧ p + tarBlockSize ≤ t.start + t.size

section Trace

variable {m : ByteMem} {name last fuel ptr : Nat}

theorem tarFindTrace_fst (m : ByteMem) (name last fuel ptr : Nat) :
    (tarFindTrace m name last fuel ptr).1 = tarFindLoop m name last fuel ptr := by
  induction fuel generalizing ptr with
  | zero => rfl
  | succ fuel ih =>
    unfold tarFindTrace tarFindLoop
    split
    · split
      · rfl
      · cases tarMatches m name fuel ptr with
        | none => rfl
        | some found =>
          cases found with
          | true => rfl
          | false => exact ih _
    · rfl

end Trace

/-! ## How far a step goes -/

section Steps

variable {m : ByteMem}

theorem tarOctalToSize_lt {n a val d : Nat} (hval : val < 8 ^ d) :
    tarOctalToSize m n a val < 8 ^ (d + n) := by
  induction n generalizing a val d with
  | zero => exact hval
  | succ n ih =>
    rw [tarOctalToSize]
    split
    case isTrue hdigit =>
      have hstep : wrap64 (val * 8 + ((m a).toNat - 48)) < 8 ^ (d + 1) := by
        refine (Nat.mod_le _ _).trans_lt ?_
        omega
      rw [show d + (n + 1) = d + 1 + n by omega]
      exact ih hstep
    case isFalse => exact hval.trans_le (Nat.pow_le_pow_right (by decide) (by omega))

theorem tarGetSize_lt (m : ByteMem) (p : Nat) : tarGetSize m p < 2 ^ 36 := by
  unfold tarGetSize
  split
  · decide
  · exact tarOctalToSize_lt (n := sizeofSize) (d := 0) (by decide)

/-- The blocks from a header that says `size` to the next one. -/
def stride (size : Nat) : Nat := 1 + (size + tarBlockSize - 1) / tarBlockSize

theorem stride_pos (size : Nat) : 1 ≤ stride size := Nat.le_add_right 1 _

theorem stride_le {size : Nat} (h : size < 2 ^ 36) : stride size ≤ 2 ^ 27 + 1 := by
  unfold stride tarBlockSize
  omega

/-- **A step** is a whole number of blocks. Only the last addition can wrap. -/
theorem tarNext_eq (m : ByteMem) (p : Nat) :
    tarNext m p = wrap64 (p + tarBlockSize * stride (tarGetSize m p)) := by
  have hsize := tarGetSize_lt m p
  have hle := stride_le hsize
  have hblocks : wrap64 (tarGetSize m p + tarBlockSize - 1) = tarGetSize m p + tarBlockSize - 1 :=
    wrap64_of_lt (by unfold tarBlockSize; omega)
  have hstep : wrap64 (tarBlockSize * stride (tarGetSize m p))
      = tarBlockSize * stride (tarGetSize m p) := wrap64_of_lt (by unfold tarBlockSize; omega)
  unfold tarNext
  rw [hblocks]
  exact congrArg (fun n => wrap64 (p + n)) hstep

end Steps

/-! ## The walk without wrapping -/

/-- Where header `k` is if no addition wraps: behind the blocks of the one before. -/
def place (m : ByteMem) (start : Nat) : Nat → Nat
  | 0 => start
  | k + 1 => place m start k + tarBlockSize * stride (tarGetSize m (place m start k))

/-- The header at `p` is below `last` and the walk goes on behind it: it has a name, and is not the
header of `n`. -/
structure PassedOver (m : ByteMem) (n : CString) (last p : Nat) : Prop where
  room : p + tarBlockSize ≤ last
  named : m p ≠ 0
  other : ¬ (tarIsValid m p = true ∧ IsString m p n)

section Walk

variable {m : ByteMem} {start size name last fuel p k : Nat} {n : CString}

theorem le_place (m : ByteMem) (start k : Nat) : start ≤ place m start k := by
  induction k with
  | zero => exact le_rfl
  | succ k ih => exact ih.trans (Nat.le_add_right ..)

theorem tarNext_place (m : ByteMem) (start k : Nat) (hlt : place m start k < 2 ^ 64) :
    tarNext m (wrap64 (place m start k)) = wrap64 (place m start (k + 1)) := by
  rw [wrap64_of_lt hlt]
  exact tarNext_eq _ _

theorem tarMatches_string (hn : IsString m name n) (hfuel : n.bytes.length < fuel) :
    tarMatches m name fuel p = some (decide (tarIsValid m p = true ∧ IsString m p n)) := by
  obtain ⟨r, hiff, hr⟩ : ∃ r, (r = 0 ↔ IsString m p n) ∧
      ∀ fuel, n.bytes.length < fuel → strcmp m m fuel p name = some r := strcmp_returns hn
  unfold tarMatches
  by_cases hvalid : tarIsValid m p
  · rw [if_pos hvalid, hr fuel hfuel, Option.map_some]
    simp [hvalid, hiff]
  · rw [if_neg hvalid]
    simp [hvalid]

/-- **One round** at a header that is passed over. -/
theorem PassedOver.step (h : PassedOver m n last p) (hlast : last < 2 ^ 64)
    (hn : IsString m name n) (hfuel : n.bytes.length < fuel) :
    tarFindTrace m name last (fuel + 1) p
      = ((tarFindTrace m name last fuel (tarNext m p)).1,
          p :: (tarFindTrace m name last fuel (tarNext m p)).2) := by
  rw [tarFindTrace, if_pos (block_in_range h.room hlast), if_neg h.named, tarMatches_string hn hfuel,
    decide_eq_false h.other]

/-- Any other header whose block does not wrap is the last one. -/
theorem tarFindTrace_last (h : ¬ PassedOver m n last p) (hlt : p + tarBlockSize < 2 ^ 64)
    (hn : IsString m name n) (hstart : start ≤ p) :
    ∃ r, ∀ fuel, n.bytes.length + 1 < fuel → (tarFindTrace m name last fuel p).1 = some r ∧
      ∀ q ∈ (tarFindTrace m name last fuel p).2, start ≤ q ∧ q + tarBlockSize ≤ last := by
  by_cases hroom : p + tarBlockSize ≤ last
  · have hin : ∀ q ∈ [p], start ≤ q ∧ q + tarBlockSize ≤ last :=
      forall_mem_singleton.mpr ⟨hstart, hroom⟩
    refine ⟨if m p = 0 then 0 else p, fun fuel hfuel => ?_⟩
    obtain ⟨fuel, rfl⟩ := fuel_succ hfuel
    rw [tarFindTrace, wrap64_of_lt hlt, if_pos hroom]
    by_cases hzero : m p = 0
    · rw [if_pos hzero, if_pos hzero]
      exact ⟨rfl, hin⟩
    · rw [if_neg hzero, if_neg hzero, tarMatches_string hn (by omega),
        decide_eq_true (not_not.mp fun hother => h ⟨hroom, hzero, hother⟩)]
      exact ⟨rfl, hin⟩
  · refine ⟨0, fun fuel hfuel => ?_⟩
    obtain ⟨fuel, rfl⟩ := fuel_succ hfuel
    rw [tarFindTrace, wrap64_of_lt hlt, if_neg hroom]
    exact ⟨rfl, fun q hq => absurd hq not_mem_nil⟩

/-- A header is examined if the test of the loop lets it through. -/
theorem mem_tarFindTrace (hroom : wrap64 (p + tarBlockSize) ≤ last) :
    p ∈ (tarFindTrace m name last (fuel + 1) p).2 := by
  rw [tarFindTrace, if_pos hroom]
  split
  · exact mem_singleton_self p
  · split
    · exact mem_singleton_self p
    · exact mem_singleton_self p
    · exact mem_cons_self

/-- No header that the walk gets to is near the end of the address space. -/
def NeverWraps (m : ByteMem) (n : CString) (start last : Nat) : Prop :=
  ∀ k, (∀ i < k, PassedOver m n last (place m start i)) →
    place m start k + tarBlockSize < 2 ^ 64

/-- **The walk** is the one without wrapping. Every round leaves at least one block behind. -/
theorem NeverWraps.walk (h : NeverWraps m n start last) (hlast : last < 2 ^ 64)
    (hn : IsString m name n) {rounds : Nat} (hk : ∀ i < k, PassedOver m n last (place m start i))
    (hleft : last < place m start k + tarBlockSize * rounds) :
    ∃ r, ∀ fuel, rounds + n.bytes.length + 1 < fuel →
      (tarFindTrace m name last fuel (place m start k)).1 = some r ∧
      ∀ q ∈ (tarFindTrace m name last fuel (place m start k)).2,
        start ≤ q ∧ q + tarBlockSize ≤ last := by
  induction rounds generalizing k with
  | zero =>
    have hend : ¬ PassedOver m n last (place m start k) := fun hp => by
      have hroom := hp.room
      omega
    rw [Nat.zero_add]
    exact tarFindTrace_last hend (h k hk) hn (le_place m start k)
  | succ rounds ih =>
    have hlt := h k hk
    by_cases hp : PassedOver m n last (place m start k)
    · have hk' : ∀ i < k + 1, PassedOver m n last (place m start i) := fun i hi =>
        (Nat.lt_succ_iff_lt_or_eq.mp hi).elim (hk i) fun hi => hi ▸ hp
      have hlt' := h (k + 1) hk'
      have hnext : tarNext m (place m start k) = place m start (k + 1) := by
        have hnext := tarNext_place m start k (by omega)
        rwa [wrap64_of_lt (by omega), wrap64_of_lt (by omega)] at hnext
      have hstride : tarBlockSize ≤ tarBlockSize * stride (tarGetSize m (place m start k)) :=
        Nat.le_mul_of_pos_right _ (stride_pos _)
      obtain ⟨r, hr⟩ := ih hk' (by
        rw [place]
        rw [Nat.mul_succ] at hleft
        omega)
      refine ⟨r, fun fuel hfuel => ?_⟩
      obtain ⟨fuel, rfl⟩ := fuel_succ hfuel
      obtain ⟨hret, hin⟩ := hr fuel (by omega)
      rw [hp.step hlast hn (by omega), hnext]
      exact ⟨hret, forall_mem_cons.mpr ⟨⟨le_place m start k, hp.room⟩, hin⟩⟩
    · obtain ⟨r, hr⟩ := tarFindTrace_last hp hlt hn (le_place m start k)
      exact ⟨r, fun fuel hfuel => hr fuel (by omega)⟩

/-- What is examined from a header on that the walk gets to, also if its address wraps, is examined
from the start on. -/
theorem mem_walk (hlast : last < 2 ^ 64) (hstart : start < 2 ^ 64) (hn : IsString m name n)
    (hk : ∀ i < k, PassedOver m n last (place m start i)) (hfuel : n.bytes.length < fuel)
    (hp : p ∈ (tarFindTrace m name last fuel (wrap64 (place m start k))).2) :
    p ∈ (tarFindTrace m name last (fuel + k) start).2 := by
  induction k generalizing fuel with
  | zero =>
    rw [place, wrap64_of_lt hstart] at hp
    exact hp
  | succ k ih =>
    have hpass := hk k (Nat.lt_succ_self k)
    have hroom := hpass.room
    have hlt : place m start k < 2 ^ 64 := by omega
    have hback : p ∈ (tarFindTrace m name last (fuel + 1) (wrap64 (place m start k))).2 := by
      rw [wrap64_of_lt hlt, hpass.step hlast hn hfuel]
      rw [← tarNext_place m start k hlt, wrap64_of_lt hlt] at hp
      exact mem_cons_of_mem _ hp
    have hmem := ih (fun i hi => hk i (by omega)) (by omega) hback
    rwa [Nat.add_right_comm] at hmem

end Walk

/-- **Inside of the archive.** For every archive below `2^64` with any contents, and every name:
`tar_find` returns and examines only headers that lie in the archive, if none of the headers that it
gets to is so near to the end of the address space that the next address wraps. Unless the archive is
almost as large as the address space, so that wrapping could lead back into it, this is exact. -/
theorem tar_find_inside_iff {m : ByteMem} {start size name : Nat} {n : CString}
    (hend : start + size ≤ 2 ^ 64 - 1) (hn : IsString m name n) :
    (start = 0 ∨ name = 0 ∨ NeverWraps m n start (start + size) →
      StaysInside (tarInit start size) m name) ∧
    (size < 2 ^ 64 - 2 ^ 36 → StaysInside (tarInit start size) m name →
      start = 0 ∨ name = 0 ∨ NeverWraps m n start (start + size)) := by
  have hlast : wrap64 (start + size) = start + size := wrap64_of_lt (by omega)
  by_cases hnull : start = 0 ∨ name = 0
  · have hstays : StaysInside (tarInit start size) m name := by
      refine ⟨0, 0, fun fuel _ => ⟨if_pos hnull, fun p hp => ?_⟩⟩
      rw [show tarExamined (tarInit start size) m name fuel = [] from if_pos hnull] at hp
      exact absurd hp not_mem_nil
    exact ⟨fun _ => hstays, fun _ _ => or_assoc.mp (.inl hnull)⟩
  have hexamined (fuel : Nat) : tarExamined (tarInit start size) m name fuel
      = (tarFindTrace m name (start + size) fuel start).2 :=
    (if_neg hnull).trans (by rw [← hlast]; rfl)
  have hfind (fuel : Nat) : tarFind (tarInit start size) m name fuel
      = (tarFindTrace m name (start + size) fuel start).1 :=
    (tarFind_eq (fun h => hnull (.inl h)) (fun h => hnull (.inr h)) (by omega) fuel).trans
      (tarFindTrace_fst ..).symm
  refine ⟨fun h => ?_, fun hsize hstays => .inr (.inr fun k hk => ?_)⟩
  · have hrounds : start + size < place m start 0 + tarBlockSize * (size + 1) := by
      unfold place tarBlockSize
      omega
    obtain ⟨r, hr⟩ := ((or_assoc.mpr h).resolve_left hnull).walk
      (by omega) hn (fun i hi => absurd hi (Nat.not_lt_zero i)) hrounds
    refine ⟨r, size + n.bytes.length + 3, fun fuel hfuel => ?_⟩
    rw [hfind, hexamined]
    exact hr fuel (by omega)
  · -- a header whose address or block wraps is let through, and it is not in the archive
    by_contra hwrap
    have hplace : place m start k ≤ start + size + 2 ^ 36 := by
      cases k with
      | zero => exact (Nat.le_add_right ..).trans (Nat.le_add_right ..)
      | succ k =>
        have hroom := (hk k (Nat.lt_succ_self k)).room
        have hstride := stride_le (tarGetSize_lt m (place m start k))
        rw [place]
        unfold tarBlockSize at *
        omega
    have hroom : wrap64 (wrap64 (place m start k) + tarBlockSize) ≤ start + size := by
      have := le_place m start k
      unfold wrap64 tarBlockSize at *
      omega
    obtain ⟨r, N, hret⟩ := hstays
    obtain ⟨hlo, hhi⟩ : start ≤ wrap64 (place m start k) ∧
        wrap64 (place m start k) + tarBlockSize ≤ start + size := by
      refine (hret (N + n.bytes.length + 1 + k) (by omega)).2 _ ?_
      rw [hexamined]
      exact mem_walk (by omega) (by omega) hn hk (by omega) (mem_tarFindTrace hroom)
    unfold wrap64 tarBlockSize at *
    omega

/-- Two blocks at 1 MiB: the name of the first header is empty. -/
theorem tar_find_inside_iff_low : StaysInside (tarInit 0x100000 1024) (fun _ => 0) 1 := by
  refine (tar_find_inside_iff (by decide) (n := ⟨[], by decide⟩) (by decide)).1 (.inr (.inr ?_))
  rintro (_ | k) hk
  · decide
  · exact absurd rfl (hk 0 k.succ_pos).named

/-- An archive of one header, 1 KiB below the end of the address space. The header says that its file
is empty, the header behind it ends where the addresses do, and the loop goes on there. -/
theorem tar_find_leaves_archive :
    tarExamined (tarInit (2 ^ 64 - 1024) 512) (fun x => if x = 1 then 0 else 0x78) 1 2
      = [2 ^ 64 - 1024, 2 ^ 64 - 512] ∧
    IsString (fun x => if x = 1 then 0 else 0x78) 1 ⟨[], by decide⟩ := by
  decide +kernel

end GosKernel.Tar
