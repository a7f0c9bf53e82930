import GosKernel.Sort.Elements

/-!
# `heapsort` (`lib/sort.c`)

- **`heapsort_sorts`**: so the array is sorted.
-/

namespace GosKernel.Sort

open Exec Sorting

/-! ## The code -/

section Code

variable {σ : Type} (M : ElemMachine σ)

/-- How a round of `sift_down` chooses `swap_idx` (sort.c:53-60). -/
def swapIdx (base root last : Nat) : Exec σ Nat := do
  let child := wrap64 (root * 2 + 1)
  let c ← M.cmp (base + root) (base + child)
  let idx := if c < 0 then child else root
  if wrap64 (child + 1) ≤ last then do
    let c ← M.cmp (base + idx) (base + wrap64 (child + 1))
    pure (if c < 0 then wrap64 (child + 1) else idx)
  else pure idx

/-- `sift_down` (sort.c:48-65); `last` is its parameter `end`. -/
def siftDown (base last : Nat) : (fuel root : Nat) → Exec σ Unit
  | 0, _ => .stop
  | fuel + 1, root =>
    if wrap64 (root * 2 + 1) ≤ last then do
      let idx ← swapIdx M base root last
      if idx = root then pure ()
      else do
        M.swap (base + root) (base + idx)
        siftDown base last fuel idx
    else pure ()

/-- The first loop of `heapsort` (sort.c:72-75). -/
def heapBuild (base nmemb inner : Nat) : (fuel : Nat) → (start : Int) → Exec σ Unit
  | 0, _ => .stop
  | fuel + 1, start =>
    if 0 ≤ start then do
      siftDown M base (sub64 nmemb 1) inner start.toNat
      heapBuild base nmemb inner fuel (start - 1)
    else pure ()

/-- The second loop of `heapsort` (sort.c:77-81). -/
def heapExtract (base inner : Nat) : (fuel last : Nat) → Exec σ Unit
  | 0, _ => .stop
  | fuel + 1, last =>
    if 0 < last then do
      M.swap base (base + last)
      siftDown M base (sub64 last 1) inner 0
      heapExtract base inner fuel (sub64 last 1)
    else pure ()

/-- `heapsort` (sort.c:67-82). -/
def heapsort (fuel base nmemb : Nat) : Exec σ Unit :=
  if nmemb ≤ 1 then pure ()
  else do
    let count := toInt32 nmemb
    let start := (count - 2).tdiv 2
    heapBuild M base nmemb fuel fuel start
    heapExtract M base fuel fuel (sub64 nmemb 1)

end Code

/-! ## `sift_down` -/

section View

variable {σ α : Type} {M : ElemMachine σ} {cmp : α → α → Int} {base n : Nat}
  {V : ArrayView M cmp base n} {s : σ} {f : Nat → α}

section

variable (hcmp : Comparator cmp)
include hcmp

/-- The larger of two elements, as the code finds it. -/
theorem below_pick (f : Nat → α) (a b : Nat) :
    Below cmp (f a) (f (if cmp (f a) (f b) < 0 then b else a)) ∧
      Below cmp (f b) (f (if cmp (f a) (f b) < 0 then b else a)) := by
  split
  · exact ⟨le_of_lt ‹_›, hcmp.refl _⟩
  · exact ⟨hcmp.refl _, hcmp.below_of_not_lt ‹_›⟩

/-- `swap_idx` is the position or a child of it, whichever element is the largest. -/
theorem swapIdx_spec (hn : n < 2 ^ 31) (h : V.Holds s f) {root last : Nat}
    (hlast : last < n) (hchild : root * 2 + 1 ≤ last) :
    ∃ c, Returns (swapIdx M base root last) s c s ∧
      (c = root ∨ 0 < c ∧ c ≤ last ∧ (c - 1) / 2 = root) ∧ Below cmp (f root) (f c) ∧
      ∀ d, 0 < d → d < last + 1 → (d - 1) / 2 = root → Below cmp (f d) (f c) := by
  have hwrap : wrap64 (root * 2 + 1) = root * 2 + 1 := wrap64_of_lt (by omega)
  have hwrap' : wrap64 (root * 2 + 1 + 1) = root * 2 + 1 + 1 := wrap64_of_lt (by omega)
  have hcomp := V.compare h (show root < n by omega) (show root * 2 + 1 < n by omega)
  obtain ⟨hroot, hleft⟩ := below_pick hcmp f root (root * 2 + 1)
  -- `idx` is the larger of the position and its first child
  obtain ⟨idx, hidx⟩ : ∃ idx, idx =
    if cmp (f root) (f (root * 2 + 1)) < 0 then root * 2 + 1 else root := ⟨_, rfl⟩
  rw [← hidx] at hroot hleft
  have hcase : idx = root ∨ idx = root * 2 + 1 := by
    rw [hidx]
    split
    · exact .inr rfl
    · exact .inl rfl
  by_cases hsecond : root * 2 + 1 + 1 ≤ last
  · have hcomp' := V.compare h (show idx < n by omega) (show root * 2 + 1 + 1 < n by omega)
    obtain ⟨hold, hright⟩ := below_pick hcmp f idx (root * 2 + 1 + 1)
    refine ⟨_, ?_, ?_, hcmp.trans _ _ _ hroot hold, fun d hpos hlt hparent => ?_⟩
    · rw [Returns, swapIdx, hwrap, hcomp.bind_eq, hwrap', if_pos hsecond, ← hidx,
        hcomp'.bind_eq]
      rfl
    · split
      · exact .inr ⟨by omega, hsecond, by omega⟩
      · rcases hcase with hi | hi
        · exact .inl hi
        · exact .inr ⟨by omega, by omega, by omega⟩
    · rcases (show d = root * 2 + 1 ∨ d = root * 2 + 1 + 1 by omega) with rfl | rfl
      · exact hcmp.trans _ _ _ hleft hold
      · exact hright
  · refine ⟨idx, ?_, ?_, hroot, fun d hpos hlt hparent => ?_⟩
    · rw [Returns, swapIdx, hwrap, hcomp.bind_eq, hwrap', if_neg hsecond, ← hidx]
      rfl
    · rcases hcase with hi | hi
      · exact .inl hi
      · exact .inr ⟨by omega, by omega, by omega⟩
    · rw [show d = root * 2 + 1 by omega]
      exact hleft

/-- **`sift_down`** restores the heap order from `start` on, if only `root` is out of order.
Every round moves `root` to a child. -/
theorem siftDown_spec (hn : n < 2 ^ 31) {start last root : Nat}
    (hlast : last < n) (hstart : start ≤ root) (hroot : root ≤ last) (h : V.Holds s f)
    (hheap : HeapExcept (Below cmp) f start (last + 1) root) :
    ∃ s' π, (∀ fuel, last < root + fuel → Returns (siftDown M base last fuel root) s () s') ∧
      Within π start (last + 1) ∧ V.Holds s' (f ∘ π) ∧
      HeapFrom (Below cmp) (f ∘ π) start (last + 1) := by
  induction hd : last - root using Nat.strong_induction_on generalizing root f s with
  | _ d ih =>
    have hwrap : wrap64 (root * 2 + 1) = root * 2 + 1 := wrap64_of_lt (by omega)
    by_cases hchild : root * 2 + 1 ≤ last
    · obtain ⟨c, hpick, hcase, hle, hmax⟩ := swapIdx_spec hcmp hn h hlast hchild
      by_cases hc : c = root
      · -- the early return: both children are at most the element
        refine ⟨s, 1, fun fuel hfuel => ?_, Within.one _ _, h, hheap.finish (hc ▸ hmax)⟩
        obtain ⟨fuel, rfl⟩ := fuel_succ (show 0 < fuel by omega)
        rw [Returns, siftDown, hwrap, if_pos hchild, hpick.bind_eq, if_pos hc]
        rfl
      · obtain ⟨hpos, hclast, hparent⟩ := hcase.resolve_left hc
        obtain ⟨s1, hswap, h1⟩ := V.exchange h (show root < n by omega) (show c < n by omega)
          (Ne.symm hc)
        -- the child has moved up, and its place is the one out of order now
        have hheap1 := hheap.move hpos (by omega) hparent hstart hle hmax
        obtain ⟨s', π, hret, hπ, h', hheap'⟩ :=
          ih (last - c) (by omega) (by omega) hclast h1 hheap1 rfl
        refine ⟨s', Equiv.swap root c * π, fun fuel hfuel => ?_, ?_, h', hheap'⟩
        · obtain ⟨fuel, rfl⟩ := fuel_succ (show 0 < fuel by omega)
          rw [Returns, siftDown, hwrap, if_pos hchild, hpick.bind_eq, if_neg hc,
            hswap.bind_eq]
          exact hret fuel (by omega)
        · exact (Within.swap (by omega) (by omega)).mul hπ
    · -- a position without children
      refine ⟨s, 1, fun fuel hfuel => ?_, Within.one _ _, h,
        hheap.finish fun d hpos hlt hparent => by omega⟩
      obtain ⟨fuel, rfl⟩ := fuel_succ (show 0 < fuel by omega)
      rw [siftDown, hwrap, if_neg hchild]
      rfl

/-! ## The two loops -/

omit hcmp in
theorem sub64_one_add {n : Nat} (hpos : 0 < n) (hn : n < 2 ^ 31) : sub64 n 1 + 1 = n := by
  rw [sub64_of_le hpos (by omega)]
  omega

/-- The first loop: the heap order from `k` on becomes the heap order. -/
theorem heapBuild_spec (hn : n < 2 ^ 31) {k : Nat} (hk : k ≤ n)
    (h : V.Holds s f) (hheap : HeapFrom (Below cmp) f k n) :
    ∃ s' π, (∀ inner fuel, n ≤ inner → k < fuel →
        Returns (heapBuild M base n inner fuel ((k : Int) - 1)) s () s') ∧
      Within π 0 n ∧ V.Holds s' (f ∘ π) ∧ HeapFrom (Below cmp) (f ∘ π) 0 n := by
  induction k generalizing f s with
  | zero =>
    refine ⟨s, 1, fun inner fuel _ hfuel => ?_, Within.one _ _, h, hheap⟩
    obtain ⟨fuel, rfl⟩ := fuel_succ (show 0 < fuel by omega)
    rfl
  | succ k ih =>
    have hend : sub64 n 1 + 1 = n := sub64_one_add (by omega) hn
    have hstart : ((k + 1 : Nat) : Int) - 1 = k := by omega
    have hexcept : HeapExcept (Below cmp) f k (sub64 n 1 + 1) k := by
      rw [hend]
      exact hheap.except
    obtain ⟨s1, π1, hsift, hπ1, h1, hheap1⟩ :=
      siftDown_spec hcmp hn (by omega) le_rfl (by omega) h hexcept
    rw [hend] at hπ1 hheap1
    obtain ⟨s', π, hret, hπ, h', hheap'⟩ := ih (by omega) h1 hheap1
    refine ⟨s', π1 * π, fun inner fuel hinner hfuel => ?_,
      (hπ1.mono (Nat.zero_le _) le_rfl).mul hπ, h', hheap'⟩
    obtain ⟨fuel, rfl⟩ := fuel_succ (show 0 < fuel by omega)
    rw [Returns, heapBuild, hstart, if_pos (by omega), Int.toNat_natCast,
      (hsift inner (by omega)).bind_eq]
    exact hret inner fuel hinner (by omega)

/-- The second loop: a heap of `last + 1` elements before the sorted part. -/
theorem heapExtract_spec (hn : n < 2 ^ 31) {last : Nat} (hlast : last < n)
    (h : V.Holds s f) (hheap : HeapFrom (Below cmp) f 0 (last + 1))
    (hsorted : SortedFrom (Below cmp) f (last + 1) n) :
    ∃ s' π, (∀ inner fuel, n ≤ inner → last < fuel →
        Returns (heapExtract M base inner fuel last) s () s') ∧
      Within π 0 n ∧ V.Holds s' (f ∘ π) ∧ SortedFrom (Below cmp) (f ∘ π) 1 n := by
  have := hcmp.isPreorder
  induction last generalizing f s with
  | zero =>
    refine ⟨s, 1, fun inner fuel _ hfuel => ?_, Within.one _ _, h, hsorted⟩
    obtain ⟨fuel, rfl⟩ := fuel_succ hfuel
    rfl
  | succ last ih =>
    have hend : sub64 (last + 1) 1 = last :=
      Nat.succ.inj (sub64_one_add (Nat.succ_pos last) (by omega))
    -- the largest element goes to the end, and what has taken its place is sifted down
    obtain ⟨s1, hswap, h1⟩ := V.exchange h (show 0 < n by omega) hlast (by omega)
    obtain ⟨s2, π2, hsift, hπ2, h2, hheap2⟩ := siftDown_spec hcmp hn (show last < n by omega)
      le_rfl (Nat.zero_le _) h1 hheap.swap_root.except
    have hsorted2 := (SortedFrom.extract hheap hsorted).rearrange hπ2
    obtain ⟨s', π, hret, hπ, h', hsorted'⟩ := ih (by omega) h2 hheap2 hsorted2
    refine ⟨s', Equiv.swap 0 (last + 1) * π2 * π, fun inner fuel hinner hfuel => ?_, ?_, h',
      hsorted'⟩
    · obtain ⟨fuel, rfl⟩ := fuel_succ hfuel
      rw [Returns, heapExtract, if_pos (by omega),
        (show Returns (M.swap base (base + (last + 1))) s () s1 from hswap).bind_eq,
        hend, (hsift inner (by omega)).bind_eq]
      exact hret inner fuel hinner (by omega)
    · exact ((Within.swap (by omega) (by omega)).mul (hπ2.mono le_rfl (by omega))).mul hπ

/-- `heapsort` on any array that it can see. -/
theorem heapsort_spec (hn : n < 2 ^ 31) (h : V.Holds s f) :
    ∃ s' π, Converges (heapsort M · base n) s () s' ∧ Within π 0 n ∧ V.Holds s' (f ∘ π) ∧
      (segment (f ∘ π) n).Pairwise (Below cmp) := by
  by_cases hsmall : n ≤ 1
  · refine ⟨s, 1, ⟨0, fun fuel _ => ?_⟩, Within.one _ _, h, ?_⟩
    · show heapsort M fuel base n s = _
      rw [heapsort, if_pos hsmall]
      rfl
    · exact SortedFrom.pairwise fun j hj hlt => by omega
  · -- the positions behind `(n - 2) / 2` have no children
    have hleaves : HeapFrom (Below cmp) f ((n - 2) / 2 + 1) n := fun c hpos hlt hs => by omega
    have hstart : (toInt32 n - 2).tdiv 2 = (((n - 2) / 2 + 1 : Nat) : Int) - 1 := by
      rw [toInt32_of_lt hn, Int.tdiv_eq_ediv_of_nonneg (by omega)]
      omega
    have hend : sub64 n 1 + 1 = n := sub64_one_add (by omega) hn
    obtain ⟨s1, π1, hbuild, hπ1, h1, hheap1⟩ := heapBuild_spec hcmp hn (by omega) h hleaves
    obtain ⟨s', π, hextract, hπ, h', hsorted⟩ := heapExtract_spec hcmp hn
      (show sub64 n 1 < n by omega) h1 (by rw [hend]; exact hheap1) fun j hj hlt => by omega
    refine ⟨s', π1 * π, ⟨n + 1, fun fuel hfuel => ?_⟩, hπ1.mul hπ, h', hsorted.pairwise⟩
    show heapsort M fuel base n s = _
    rw [heapsort, if_neg hsmall, hstart, (hbuild fuel fuel (by omega) (by omega)).bind_eq]
    exact hextract fuel fuel (by omega) (by omega)

end

end View

/-! ## Arrays in memory -/

/-- **`heapsort` sorts**, for every array of at most `INT_MAX` elements and every comparison
function that is a total preorder: it returns, without leaving the array; the elements are
a permutation of what they were, in non-decreasing order; and no other byte of memory
has changed. -/
theorem heapsort_sorts {size nmemb : Nat} {cmp : (Fin size → UInt8) → (Fin size → UInt8) → Int}
    (hcmp : Comparator cmp) (hn : nmemb ≤ 2 ^ 31 - 1) (base : Nat) (m : ByteMem) :
    ∃ m', Converges (heapsort (bytes base size nmemb cmp) · 0 nmemb) m () m' ∧
      (elements base size 0 nmemb m').Perm (elements base size 0 nmemb m) ∧
      (elements base size 0 nmemb m').Pairwise (fun a b => cmp a b ≤ 0) ∧
      ∀ x, x < base ∨ base + nmemb * size ≤ x → m' x = m x := by
  let V : ArrayView (bytes base size nmemb cmp) cmp 0 nmemb := bytesView m (by omega)
  have hview : V.Holds m (fun k => elem base size m (0 + k)) := ⟨fun _ _ => rfl, Framed.refl _ _ _ _ _⟩
  obtain ⟨m', π, hret, hπ, ⟨helem, hframe⟩, hsorted⟩ := heapsort_spec hcmp (by omega) hview
  have hsegment : elements base size 0 nmemb m' = _ := segment_congr helem
  refine ⟨m', hret, ?_, ?_, fun x hx => hframe x ?_⟩
  · rw [hsegment]
    exact hπ.segment_perm _
  · rw [hsegment]
    exact hsorted
  · rw [Nat.zero_mul, Nat.zero_add]
    exact hx

/-- Three bytes. -/
theorem heapsort_sorts_three :
    ∃ m', Converges (heapsort (bytes 0 1 3 byteCmp) · 0 3) (ByteMem.ofList [3, 1, 2]) () m' ∧
      (elements 0 1 0 3 m').Pairwise (fun a b => byteCmp a b ≤ 0) := by
  obtain ⟨m', hret, -, hsorted, -⟩ :=
    heapsort_sorts byteCmp_comparator (show 3 ≤ 2 ^ 31 - 1 by norm_num) 0 (ByteMem.ofList [3, 1, 2])
  exact ⟨m', hret, hsorted⟩

end GosKernel.Sort
