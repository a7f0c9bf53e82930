import Mathlib.Data.List.Nodup
import Mathlib.Data.List.Perm.Basic
import Mathlib.Algebra.Group.End

/-!
# Arrays as functions: rearrangements, comparators, binary heaps

An array of `n` elements is a function on positions of which the first `n` matter.

- `Within π lo hi`: the permutation `π` moves only positions of `[lo, hi)`. What a
  sorting algorithm does to an array `f` is `f ∘ π`;
- `Comparator cmp`: `cmp` orders by the sign of its result, as comparison functions in C do;
- `HeapFrom r f s n`: the heap order of `[0, n)` below the position `s`, and
  `HeapExcept r f s n h`: the same but for the position `h`, which is being sifted down
  (`HeapFrom.except`, `HeapExcept.move`, `HeapExcept.finish`);
- `SortedFrom r f e n`: positions from `e` on are in their final place. Exchanging the root
  of a heap with its last element moves `e` down by one (`SortedFrom.extract`).
-/

namespace GosKernel.Sorting

open List

universe u

variable {α : Type u}

/-! ## Rearranging a range -/

/-- `π` moves only positions of `[lo, hi)`. -/
def Within (π : Equiv.Perm Nat) (lo hi : Nat) : Prop := ∀ k, ¬ (lo ≤ k ∧ k < hi) → π k = k

section Within

variable {π ρ : Equiv.Perm Nat} {lo hi : Nat}

theorem Within.one (lo hi : Nat) : Within 1 lo hi := fun _ _ => rfl

theorem Within.mul (h : Within π lo hi) (h' : Within ρ lo hi) : Within (π * ρ) lo hi := by
  intro k hk
  rw [Equiv.Perm.mul_apply, h' k hk, h k hk]

theorem Within.swap {i j : Nat} (hi' : lo ≤ i ∧ i < hi) (hj : lo ≤ j ∧ j < hi) :
    Within (Equiv.swap i j) lo hi := by
  intro k hk
  refine Equiv.swap_apply_of_ne_of_ne ?_ ?_
  · rintro rfl
    exact hk hi'
  · rintro rfl
    exact hk hj

theorem Within.mono {lo' hi' : Nat} (h : Within π lo hi) (hlo : lo' ≤ lo) (hhi : hi ≤ hi') :
    Within π lo' hi' :=
  fun k hk => h k fun hx => hk ⟨by omega, by omega⟩

theorem Within.mem_iff (h : Within π lo hi) (k : Nat) :
    (lo ≤ π k ∧ π k < hi) ↔ (lo ≤ k ∧ k < hi) := by
  constructor
  · intro hk
    by_contra hout
    rw [h k hout] at hk
    exact hout hk
  · intro hk
    by_contra hout
    have hfix : π k = k := π.injective (h (π k) hout)
    rw [hfix] at hout
    exact hout hk

theorem Within.lt_iff (h : Within π 0 hi) (k : Nat) : π k < hi ↔ k < hi := by
  have := h.mem_iff k
  omega

end Within

/-- The first `n` elements. -/
def segment (f : Nat → α) (n : Nat) : List α := (List.range n).map f

theorem segment_congr {f g : Nat → α} {n : Nat} (h : ∀ k, k < n → f k = g k) :
    segment f n = segment g n :=
  map_congr_left fun k hk => h k (mem_range.mp hk)

theorem Within.segment_perm {π : Equiv.Perm Nat} {n : Nat} (h : Within π 0 n) (f : Nat → α) :
    (segment (f ∘ π) n).Perm (segment f n) := by
  have hperm : ((List.range n).map π).Perm (List.range n) := by
    refine (perm_ext_iff_of_nodup (nodup_range.map π.injective) nodup_range).mpr ?_
    intro k
    simp only [mem_map, mem_range]
    constructor
    · rintro ⟨l, hl, rfl⟩
      exact (h.lt_iff l).mpr hl
    · intro hk
      refine ⟨π.symm k, ?_, π.apply_symm_apply k⟩
      rwa [← h.lt_iff, π.apply_symm_apply]
  rw [segment, ← map_map]
  exact hperm.map f

/-! ## Comparators -/

/-- `cmp` is a total preorder, by the sign of its result. -/
structure Comparator (cmp : α → α → Int) : Prop where
  flip : ∀ a b, cmp a b < 0 ↔ 0 < cmp b a
  trans : ∀ a b c, cmp a b ≤ 0 → cmp b c ≤ 0 → cmp a c ≤ 0

section Comparator

variable {cmp : α → α → Int}

/-- The order of a comparison function. -/
def Below (cmp : α → α → Int) (a b : α) : Prop := cmp a b ≤ 0

instance : DecidableRel (Below cmp) := fun a b => inferInstanceAs (Decidable (cmp a b ≤ 0))

theorem Comparator.self (h : Comparator cmp) (a : α) : cmp a a = 0 := by
  have := h.flip a a
  omega

theorem Comparator.refl (h : Comparator cmp) (a : α) : Below cmp a a := (h.self a).le

theorem Comparator.isPreorder (h : Comparator cmp) : IsPreorder α (Below cmp) where
  refl := h.refl
  trans := h.trans

theorem Comparator.below_of_not_lt (h : Comparator cmp) {a b : α} (hlt : ¬ cmp a b < 0) :
    Below cmp b a := by
  rw [h.flip] at hlt
  unfold Below
  omega

end Comparator

/-! ## Heap order -/

/-- Where the parent of a position of `[0, n)` is at or behind `s`, the element is at most
that of the parent. -/
def HeapFrom (r : α → α → Prop) (f : Nat → α) (s n : Nat) : Prop :=
  ∀ c, 0 < c → c < n → s ≤ (c - 1) / 2 → r (f c) (f ((c - 1) / 2))

/-- Heap order but for the children of `h`; they are at most the parent of `h`. -/
structure HeapExcept (r : α → α → Prop) (f : Nat → α) (s n h : Nat) : Prop where
  ordered : ∀ c, 0 < c → c < n → s ≤ (c - 1) / 2 → (c - 1) / 2 ≠ h → r (f c) (f ((c - 1) / 2))
  grand : 0 < h → s ≤ (h - 1) / 2 → ∀ c, 0 < c → c < n → (c - 1) / 2 = h →
    r (f c) (f ((h - 1) / 2))

section Heap

variable {r : α → α → Prop} {f : Nat → α} {s n h : Nat}

theorem HeapFrom.except (hf : HeapFrom r f (s + 1) n) : HeapExcept r f s n s where
  ordered c hpos hlt hs hne := hf c hpos hlt (by omega)
  grand hpos hs := by omega

theorem HeapExcept.finish (hf : HeapExcept r f s n h)
    (hchild : ∀ c, 0 < c → c < n → (c - 1) / 2 = h → r (f c) (f h)) : HeapFrom r f s n := by
  intro c hpos hlt hs
  by_cases hc : (c - 1) / 2 = h
  · rw [hc]
    exact hchild c hpos hlt hc
  · exact hf.ordered c hpos hlt hs hc

/-- The position is exchanged with the largest of its children. -/
theorem HeapExcept.move (hf : HeapExcept r f s n h) {c : Nat} (hpos : 0 < c) (hlt : c < n)
    (hc : (c - 1) / 2 = h) (hs : s ≤ h) (hle : r (f h) (f c))
    (hmax : ∀ d, 0 < d → d < n → (d - 1) / 2 = h → r (f d) (f c)) :
    HeapExcept r (f ∘ Equiv.swap h c) s n c := by
  have hroot : (f ∘ Equiv.swap h c) h = f c := congrArg f (Equiv.swap_apply_left h c)
  have hleaf : (f ∘ Equiv.swap h c) c = f h := congrArg f (Equiv.swap_apply_right h c)
  have hother : ∀ k, k ≠ h → k ≠ c → (f ∘ Equiv.swap h c) k = f k := fun k hkh hkc =>
    congrArg f (Equiv.swap_apply_of_ne_of_ne hkh hkc)
  constructor
  · intro d hdpos hdlt hds hdc
    by_cases hd : d = c
    · rw [hd, hc, hleaf, hroot]
      exact hle
    by_cases hdh : d = h
    · -- the new element at `h` was a grandchild of its parent
      rw [hdh] at hdpos hdlt hds ⊢
      rw [hroot, hother _ (by omega) (by omega)]
      exact hf.grand hdpos hds c hpos hlt hc
    rw [hother d hdh hd]
    by_cases hparent : (d - 1) / 2 = h
    · rw [hparent, hroot]
      exact hmax d hdpos hdlt hparent
    · rw [hother _ hparent hdc]
      exact hf.ordered d hdpos hdlt hds hparent
  · -- what is below `c` was below the element that has moved up
    intro _ _ d hdpos hdlt hparent
    rw [hc, hroot, hother d (by omega) (by omega), ← hparent]
    exact hf.ordered d hdpos hdlt (by omega) (by omega)

/-- The root of a heap is the largest element. -/
theorem HeapFrom.le_root [IsPreorder α r] (hf : HeapFrom r f 0 n) {k : Nat} (hk : k < n) :
    r (f k) (f 0) := by
  induction k using Nat.strong_induction_on with
  | _ k ih =>
    rcases Nat.eq_zero_or_pos k with rfl | hpos
    · exact refl_of r (f 0)
    · exact trans_of r (hf k hpos hk (Nat.zero_le _)) (ih _ (by omega) (by omega))

/-- The heap without its root, whose place an arbitrary element has taken. -/
theorem HeapFrom.swap_root {e : Nat} (hf : HeapFrom r f 0 (e + 1)) :
    HeapFrom r (f ∘ Equiv.swap 0 e) 1 e := by
  have hother : ∀ k, k ≠ 0 → k ≠ e → (f ∘ Equiv.swap 0 e) k = f k := fun k h0 he =>
    congrArg f (Equiv.swap_apply_of_ne_of_ne h0 he)
  intro c hpos hlt hs
  rw [hother c (by omega) (by omega), hother _ (by omega) (by omega)]
  exact hf c hpos (by omega) (Nat.zero_le _)

/-! ## The sorted part -/

/-- Everything from position `e` on is at least what is before it. -/
def SortedFrom (r : α → α → Prop) (f : Nat → α) (e n : Nat) : Prop :=
  ∀ j, e ≤ j → j < n → ∀ i, i < j → r (f i) (f j)

theorem SortedFrom.rearrange {e : Nat} {π : Equiv.Perm Nat} (hf : SortedFrom r f e n)
    (hπ : Within π 0 e) : SortedFrom r (f ∘ π) e n := by
  intro j hj hn i hij
  have hfix : π j = j := hπ j (by omega)
  have hlt : π i < j := by
    rcases Nat.lt_or_ge i e with hi | hi
    · exact lt_of_lt_of_le ((hπ.lt_iff i).mpr hi) hj
    · rwa [hπ i (by omega)]
  show r (f (π i)) (f (π j))
  rw [hfix]
  exact hf j hj hn _ hlt

/-- The root of the heap goes in front of the sorted part. -/
theorem SortedFrom.extract [IsPreorder α r] {e : Nat} (hheap : HeapFrom r f 0 (e + 1))
    (hf : SortedFrom r f (e + 1) n) : SortedFrom r (f ∘ Equiv.swap 0 e) e n := by
  intro j hj hn i hij
  have hwithin : Within (Equiv.swap 0 e) 0 (e + 1) := .swap (by omega) (by omega)
  show r (f (Equiv.swap 0 e i)) (f (Equiv.swap 0 e j))
  rcases Nat.eq_or_lt_of_le hj with rfl | hlt
  · rw [Equiv.swap_apply_right]
    exact hheap.le_root ((hwithin.lt_iff i).mpr (by omega))
  · exact hf.rearrange hwithin j hlt hn i hij

theorem SortedFrom.pairwise (hf : SortedFrom r f 1 n) : (segment f n).Pairwise r := by
  rw [segment, pairwise_map]
  refine pairwise_lt_range.imp_of_mem fun {i j} _ hj hij => ?_
  exact hf j (by omega) (mem_range.mp hj) i hij

end Heap

end GosKernel.Sorting
