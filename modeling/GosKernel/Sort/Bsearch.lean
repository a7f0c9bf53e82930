import GosKernel.Defs
import GosKernel.Lib.ByteMem
import Mathlib.Tactic.IntervalCases

/-!
# Binary search (`lib/sort.c`)

`bsearch` halves a window `[lo, hi)` of indices until the element in the middle compares
equal to the key or the window is empty. The model also keeps the indices that are probed.

- **`bsearch_correct`**.
-/

namespace GosKernel.Sort

variable {κ : Type} {size : Nat}

/-! ## The code -/

/-- `&arr[k * size]`. -/
def elemPtr (base size k : Nat) : Nat := wrap64 (base + wrap64 (k * size))

/-- The element at `p`. -/
def elemAt (size : Nat) (m : ByteMem) (p : Nat) : Fin size → UInt8 := fun b => m (wrap64 (p + b))

/-- The loop of `bsearch`: the address returned, and the indices probed. -/
def bsearchLoop (cmp : κ → (Fin size → UInt8) → Int) (m : ByteMem) (key : κ) (base : Nat) :
    (fuel lo hi : Nat) → Option (Nat × List Nat)
  | 0, _, _ => none
  | fuel + 1, lo, hi =>
    if lo < hi then
      let mid := wrap64 (lo + sub64 hi lo / 2)
      let c := cmp key (elemAt size m (elemPtr base size mid))
      if c = 0 then some (elemPtr base size mid, [mid])
      else if c < 0 then
        (bsearchLoop cmp m key base fuel lo mid).map fun r => (r.1, mid :: r.2)
      else
        (bsearchLoop cmp m key base fuel (wrap64 (mid + 1)) hi).map fun r => (r.1, mid :: r.2)
    else some (0, [])

/-- `bsearch` (sort.c:84-97). -/
def bsearch (cmp : κ → (Fin size → UInt8) → Int) (m : ByteMem) (key : κ) (base nmemb fuel : Nat) :
    Option (Nat × List Nat) :=
  bsearchLoop cmp m key base fuel 0 nmemb

/-! ## The window -/

/-- `le` is a total preorder that agrees with `probe`, the comparison of the key with an
element: what is not below an element above the key is above the key, and what is not
above an element below the key is below the key. -/
structure Consistent {α : Type} (le : α → α → Prop) (probe : α → Int) : Prop where
  preorder : IsPreorder α le
  total : ∀ a b, le a b ∨ le b a
  above : ∀ a b, le a b → probe a < 0 → probe b < 0
  below : ∀ a b, le a b → 0 < probe b → 0 < probe a

/-- Only indices below `hi` were probed, and the address is that of an element of `[lo, hi)` that
compares equal, or `NULL` because there is none. -/
def Finds (probe : Nat → Int) (addr : Nat → Nat) (lo hi : Nat) (r : Nat × List Nat) : Prop :=
  (∀ k ∈ r.2, k < hi) ∧
    ((∃ k, lo ≤ k ∧ k < hi ∧ probe k = 0 ∧ r.1 = addr k) ∨
      (∀ k, lo ≤ k → k < hi → probe k ≠ 0) ∧ r.1 = 0)

section Window

variable {probe : Nat → Int} {addr : Nat → Nat} {lo mid hi : Nat} {r : Nat × List Nat}

/-- From the middle on there is nothing. -/
theorem Finds.left (h : Finds probe addr lo mid r) (hmid : mid < hi)
    (hnone : ∀ k, mid ≤ k → k < hi → probe k ≠ 0) : Finds probe addr lo hi (r.1, mid :: r.2) := by
  obtain ⟨hprobes, hfound⟩ := h
  refine ⟨List.forall_mem_cons.mpr ⟨hmid, fun k hk => (hprobes k hk).trans hmid⟩, ?_⟩
  rcases hfound with ⟨k, hlo, hk, hzero⟩ | ⟨hno, hnull⟩
  · exact .inl ⟨k, hlo, hk.trans hmid, hzero⟩
  · refine .inr ⟨fun k hlo hk => ?_, hnull⟩
    by_cases hkm : k < mid
    · exact hno k hlo hkm
    · exact hnone k (Nat.le_of_not_lt hkm) hk

/-- Up to the middle there is nothing. -/
theorem Finds.right (h : Finds probe addr (mid + 1) hi r) (hlo : lo ≤ mid) (hmid : mid < hi)
    (hnone : ∀ k, k ≤ mid → probe k ≠ 0) : Finds probe addr lo hi (r.1, mid :: r.2) := by
  obtain ⟨hprobes, hfound⟩ := h
  refine ⟨List.forall_mem_cons.mpr ⟨hmid, hprobes⟩, ?_⟩
  rcases hfound with ⟨k, hk, hrest⟩ | ⟨hno, hnull⟩
  · exact .inl ⟨k, hlo.trans (Nat.le_of_succ_le hk), hrest⟩
  · refine .inr ⟨fun k _ hk => ?_, hnull⟩
    by_cases hkm : k ≤ mid
    · exact hnone k hkm
    · exact hno k (Nat.lt_of_not_le hkm) hk

end Window

/-! ## The loop -/

section Loop

variable {cmp : κ → (Fin size → UInt8) → Int} {m : ByteMem} {key : κ} {base nmemb : Nat}

/-- The comparison of the key with element `k`. -/
def probeAt (cmp : κ → (Fin size → UInt8) → Int) (m : ByteMem) (key : κ) (base k : Nat) : Int :=
  cmp key (elemAt size m (elemPtr base size k))

/-- The loop over a window: the induction is on how long the window may be, and both halves
are shorter. -/
theorem bsearchLoop_finds (hn : nmemb < 2 ^ 64)
    (habove : ∀ i j, i ≤ j → j < nmemb → probeAt cmp m key base i < 0 → probeAt cmp m key base j < 0)
    (hbelow : ∀ i j, i ≤ j → j < nmemb → 0 < probeAt cmp m key base j → 0 < probeAt cmp m key base i)
    {n lo hi : Nat} (hhi : hi ≤ nmemb) (hlen : hi - lo ≤ n) :
    ∃ r, Finds (probeAt cmp m key base) (elemPtr base size) lo hi r ∧
      ∀ fuel, n < fuel → bsearchLoop cmp m key base fuel lo hi = some r := by
  induction n generalizing lo hi with
  | zero =>
    refine ⟨(0, []), ⟨nofun, .inr ⟨fun k hlo hk => by omega, rfl⟩⟩, fun fuel hfuel => ?_⟩
    obtain ⟨fuel, rfl⟩ := Nat.exists_eq_add_of_lt hfuel
    rw [bsearchLoop, if_neg (by omega)]
  | succ n ih =>
    by_cases hlt : lo < hi
    swap
    · obtain ⟨r, hfinds, hrun⟩ := ih hhi (show hi - lo ≤ n by omega)
      exact ⟨r, hfinds, fun fuel hfuel => hrun fuel (by omega)⟩
    obtain ⟨mid, hmid⟩ : ∃ mid, lo + (hi - lo) / 2 = mid := ⟨_, rfl⟩
    -- one round, whatever the comparison says
    have hround : ∀ fuel, bsearchLoop cmp m key base (fuel + 1) lo hi =
        if probeAt cmp m key base mid = 0 then some (elemPtr base size mid, [mid])
        else if probeAt cmp m key base mid < 0 then
          (bsearchLoop cmp m key base fuel lo mid).map fun r => (r.1, mid :: r.2)
        else (bsearchLoop cmp m key base fuel (mid + 1) hi).map fun r => (r.1, mid :: r.2) := by
      intro fuel
      have hnext : wrap64 (mid + 1) = mid + 1 := wrap64_of_lt (by omega)
      rw [bsearchLoop, if_pos hlt, sub64_of_le hlt.le (by omega), wrap64_of_lt (by omega), hmid]
      simp only [hnext]
      rfl
    rcases Int.lt_trichotomy (probeAt cmp m key base mid) 0 with hneg | hzero | hpos
    · obtain ⟨r, hfinds, hrun⟩ := ih (show mid ≤ nmemb by omega) (show mid - lo ≤ n by omega)
      refine ⟨(r.1, mid :: r.2), hfinds.left (by omega) fun k hk hkhi => ?_, fun fuel hfuel => ?_⟩
      · exact (habove mid k hk (by omega) hneg).ne
      · obtain ⟨fuel, rfl⟩ := Nat.exists_eq_add_one_of_ne_zero (Nat.ne_zero_of_lt hfuel)
        rw [hround, if_neg hneg.ne, if_pos hneg, hrun fuel (by omega)]
        rfl
    · refine ⟨(elemPtr base size mid, [mid]), ⟨?_, .inl ⟨mid, by omega, by omega, hzero, rfl⟩⟩,
        fun fuel hfuel => ?_⟩
      · exact List.forall_mem_singleton.mpr (show mid < hi by omega)
      · obtain ⟨fuel, rfl⟩ := Nat.exists_eq_add_one_of_ne_zero (Nat.ne_zero_of_lt hfuel)
        rw [hround, if_pos hzero]
    · obtain ⟨r, hfinds, hrun⟩ := ih hhi (show hi - (mid + 1) ≤ n by omega)
      refine ⟨(r.1, mid :: r.2), hfinds.right (by omega) (by omega) fun k hk => ?_,
        fun fuel hfuel => ?_⟩
      · exact (hbelow k mid hk (by omega) hpos).ne'
      · obtain ⟨fuel, rfl⟩ := Nat.exists_eq_add_one_of_ne_zero (Nat.ne_zero_of_lt hfuel)
        rw [hround, if_neg hpos.ne', if_neg hpos.not_gt, hrun fuel (by omega)]
        rfl

end Loop

/-- **`bsearch` is correct.** On an array in non-decreasing order it returns, has probed indices
of the array only, and gives the address of an element that compares equal to the key if
there is one, and `NULL` if there is none. -/
theorem bsearch_correct (cmp : κ → (Fin size → UInt8) → Int) (m : ByteMem) (key : κ)
    {base nmemb : Nat} {le : (Fin size → UInt8) → (Fin size → UInt8) → Prop}
    (hle : Consistent le (cmp key)) (hn : nmemb < 2 ^ 64) (hsorted : ∀ i j, i < j → j < nmemb →
      le (elemAt size m (elemPtr base size i)) (elemAt size m (elemPtr base size j))) :
    ∃ r probes, (∃ n, ∀ fuel, n ≤ fuel → bsearch cmp m key base nmemb fuel = some (r, probes)) ∧
      (∀ k ∈ probes, k < nmemb) ∧
      ((∃ k < nmemb, cmp key (elemAt size m (elemPtr base size k)) = 0) →
        ∃ k < nmemb, cmp key (elemAt size m (elemPtr base size k)) = 0 ∧ r = elemPtr base size k) ∧
      ((∀ k < nmemb, cmp key (elemAt size m (elemPtr base size k)) ≠ 0) → r = 0) := by
  have hmono : ∀ i j, i ≤ j → j < nmemb →
      le (elemAt size m (elemPtr base size i)) (elemAt size m (elemPtr base size j)) := by
    intro i j hij hj
    rcases Nat.lt_or_eq_of_le hij with hlt | rfl
    · exact hsorted i j hlt hj
    · exact hle.preorder.refl _
  obtain ⟨⟨r, probes⟩, ⟨hprobes, hfound⟩, hrun⟩ := bsearchLoop_finds hn
    (fun i j hij hj => hle.above _ _ (hmono i j hij hj))
    (fun i j hij hj => hle.below _ _ (hmono i j hij hj)) (le_refl nmemb) (Nat.sub_le nmemb 0)
  refine ⟨r, probes, ⟨nmemb + 1, fun fuel hfuel => hrun fuel hfuel⟩, hprobes, ?_, ?_⟩
  · rintro ⟨k, hk, hzero⟩
    rcases hfound with ⟨k', -, hk', hfound⟩ | ⟨hnone, -⟩
    · exact ⟨k', hk', hfound⟩
    · exact absurd hzero (hnone k (Nat.zero_le k) hk)
  · intro hnone
    rcases hfound with ⟨k, -, hk, hzero, -⟩ | ⟨-, hnull⟩
    · exact absurd hzero (hnone k hk)
    · exact hnull

/-- The bytes 2, 5, 5 at `0x1000`, and the key 5. -/
theorem bsearch_correct_three : ∃ r probes,
    (∃ n, ∀ fuel, n ≤ fuel → bsearch (fun (key : Int) (e : Fin 1 → UInt8) => key - (e 0).toNat)
      (fun a => if a = 0x1000 then 2 else 5) 5 0x1000 3 fuel = some (r, probes)) ∧
    ∃ k < 3, r = elemPtr 0x1000 1 k := by
  have hle : Consistent (fun a b : Fin 1 → UInt8 => (a 0).toNat ≤ (b 0).toNat)
      ((fun (key : Int) (e : Fin 1 → UInt8) => key - (e 0).toNat) 5) :=
    ⟨{ refl := fun _ => le_refl _, trans := fun _ _ _ => le_trans }, fun _ _ => Nat.le_total _ _,
      fun a b hab ha => by dsimp only at *; omega, fun a b hab hb => by dsimp only at *; omega⟩
  have hsorted : ∀ i j, i < j → j < 3 →
      (elemAt 1 (fun a => if a = 0x1000 then 2 else 5) (elemPtr 0x1000 1 i) 0).toNat ≤
        (elemAt 1 (fun a => if a = 0x1000 then 2 else 5) (elemPtr 0x1000 1 j) 0).toNat := by
    intro i j hij hj
    interval_cases j <;> interval_cases i <;> decide
  obtain ⟨r, probes, hrun, -, hfound, -⟩ :=
    bsearch_correct (fun (key : Int) e => key - (e 0).toNat) (fun a => if a = 0x1000 then 2 else 5) 5
      hle (by norm_num) hsorted
  obtain ⟨k, hk, -, hr⟩ := hfound ⟨1, by decide, by decide⟩
  exact ⟨r, probes, hrun, k, hk, hr⟩

end GosKernel.Sort
