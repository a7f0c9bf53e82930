import GosKernel.Defs
import Mathlib.Order.Interval.Finset.Nat
import Mathlib.Tactic.IntervalCases

/-!
# The physical memory manager (`mm/pmm/pmm.c`)

A bitmap with one bit per 4 KiB frame, set for used frames, a count of the used
frames, and a hint from where searches start. The bitmap is the byte array of the
source; `pmmTestBit` is the only reader of it, and `pmmTestBit_set` /
`pmmTestBit_clear` say what the two writers do to it, so that nothing below this
section looks at bytes.

Every operation has one specification lemma: `pmmAllocPage_spec`,
`pmmAllocPages_spec`, `pmmFreePage_spec`, `pmmMarkUsedStep_spec`.
-/

namespace GosKernel.Mm

open List Function

def pmmPageSize : Nat := 4096

def pmmMaxPages : Nat := 0x1000000

def pmmBitmapSize : Nat := pmmMaxPages / 8

/-- First address of the available region. -/
def availStart : Nat := 0x100000

/-- End of the available region (256 MiB). -/
def availEnd : Nat := 0x10000000

/-- The static variables of `pmm.c`. -/
structure Pmm where
  bitmap : Nat → BitVec 8
  totalPages : Nat
  usedPages : Nat
  firstFreePage : Nat

/-- The variables as the zeroed `.bss` has them before `pmm_init`. -/
def Pmm.bss : Pmm := ⟨fun _ => 0, 0, 0, 0⟩

/-- `pmm_set_bit`. -/
def pmmSetBit (p : Pmm) (page : Nat) : Pmm :=
  { p with
    bitmap := update p.bitmap (page / 8)
      (p.bitmap (page / 8) ||| (1#8 <<< (page % 8))) }

/-- `pmm_clear_bit`. -/
def pmmClearBit (p : Pmm) (page : Nat) : Pmm :=
  { p with
    bitmap := update p.bitmap (page / 8)
      (p.bitmap (page / 8) &&& ~~~(1#8 <<< (page % 8))) }

/-- `pmm_test_bit`. -/
def pmmTestBit (p : Pmm) (page : Nat) : Bool :=
  (p.bitmap (page / 8) &&& (1#8 <<< (page % 8))) != 0

/-- `phys_to_page`. -/
def physToPage (addr : Nat) : Nat := addr / pmmPageSize

theorem physToPage_mul (g : Nat) : physToPage (g * 4096) = g := by
  unfold physToPage pmmPageSize
  omega

/-- `PMM_PAGE_ALIGN_DOWN`: clear the offset bits of an address. -/
def pmmPageAlignDown (x : Nat) : Nat := x / pmmPageSize * pmmPageSize

/-- The body of the loop of `pmm_mark_used`. -/
def pmmMarkUsedStep (p : Pmm) (page : Nat) : Pmm :=
  if !pmmTestBit p page then
    { pmmSetBit p page with usedPages := wrap64 (p.usedPages + 1) }
  else p

/-- `pmm_mark_used` (pmm.c:64-72). -/
def pmmMarkUsed (p : Pmm) (physAddr pages : Nat) : Pmm :=
  let startPage := physToPage (pmmPageAlignDown physAddr)
  (List.range pages).foldl (fun p i => pmmMarkUsedStep p (wrap64 (startPage + i))) p

/-- `pmm_init` (pmm.c:34-62). `kernelEnd` is the address of the linker symbol
`_kernel_end`. -/
def pmmInit (kernelEnd : Nat) (p : Pmm) : Pmm :=
  let p1 : Pmm := { p with
    bitmap := fun i => if i < pmmBitmapSize then 0xFF else p.bitmap i
    totalPages := (availEnd - availStart) / pmmPageSize }
  let p2 := (List.range ((availEnd - availStart) / pmmPageSize)).foldl
    (fun p i => pmmClearBit p (physToPage (availStart + i * pmmPageSize))) p1
  let kernelEndPhys := sub64 kernelEnd kernelVbase
  let p3 := pmmMarkUsed p2 0x100000
    (wrap64 (sub64 kernelEndPhys 0x100000 + pmmPageSize - 1) / pmmPageSize)
  { p3 with firstFreePage := physToPage availStart }

/-- The search of `pmm_alloc_page`: the first clear bit among the `n` pages from
`page` on. -/
def pmmFindClear (p : Pmm) : Nat → Nat → Option Nat
  | _, 0 => none
  | page, n + 1 => if !pmmTestBit p page then some page else pmmFindClear p (page + 1) n

/-- `pmm_alloc_page` (pmm.c:87-98); `0` is `NULL`. -/
def pmmAllocPage (p : Pmm) : Nat × Pmm :=
  match pmmFindClear p p.firstFreePage (p.totalPages - p.firstFreePage) with
  | some page =>
    (wrap64 (page * pmmPageSize),
      { pmmSetBit p page with
        usedPages := wrap64 (p.usedPages + 1)
        firstFreePage := page + 1 })
  | none => (0, p)

/-- The inner loop of `pmm_alloc_pages`: the least `i' ≥ i`, `i' < i + n`, such that
page `page + i'` is used. -/
def pmmFirstUsed (p : Pmm) (page : Nat) : Nat → Nat → Option Nat
  | _, 0 => none
  | i, n + 1 => if pmmTestBit p (wrap64 (page + i)) then some i else pmmFirstUsed p page (i + 1) n

/-- Set the bits of the `count` pages from `page` on. -/
def pmmSetBits (p : Pmm) (page count : Nat) : Pmm :=
  (List.range count).foldl (fun p i => pmmSetBit p (wrap64 (page + i))) p

/-- The outer loop of `pmm_alloc_pages`, with fuel. -/
def pmmAllocPagesLoop (p : Pmm) (count : Nat) : Nat → Nat → Option (Nat × Pmm)
  | 0, _ => none
  | fuel + 1, page =>
    if wrap64 (page + count) ≤ p.totalPages then
      match pmmFirstUsed p page 0 count with
      | some i => pmmAllocPagesLoop p count fuel (wrap64 (page + i + 1))
      | none =>
        some (wrap64 (page * pmmPageSize),
          { pmmSetBits p page count with
            usedPages := wrap64 (p.usedPages + count)
            firstFreePage := wrap64 (page + count) })
    else some (0, p)

/-- `pmm_alloc_pages` (pmm.c:100-125); `none` when the fuel runs out. -/
def pmmAllocPages (fuel : Nat) (p : Pmm) (count : Nat) : Option (Nat × Pmm) :=
  if count = 0 then some (0, p)
  else if count = 1 then some (pmmAllocPage p)
  else pmmAllocPagesLoop p count fuel p.firstFreePage

/-- `pmm_free_page` (pmm.c:127-137). -/
def pmmFreePage (p : Pmm) (page : Nat) : Pmm :=
  if page = 0 then p
  else
    let g := physToPage page
    if pmmTestBit p g then
      { pmmClearBit p g with
        usedPages := sub64 p.usedPages 1
        firstFreePage := if g < p.firstFreePage then g else p.firstFreePage }
    else p

/-- `pmm_free_pages` (pmm.c:139-144). -/
def pmmFreePages (p : Pmm) (pages count : Nat) : Pmm :=
  if pages = 0 then p
  else (List.range count).foldl (fun p i => pmmFreePage p (wrap64 (pages + i * pmmPageSize))) p

/-- `pmm_get_used_memory` (pmm.c:150-152). -/
def pmmGetUsedMemory (p : Pmm) : Nat := wrap64 (p.usedPages * pmmPageSize)

/-- `pmm_get_free_memory` (pmm.c:154-156). -/
def pmmGetFreeMemory (p : Pmm) : Nat := wrap64 (sub64 p.totalPages p.usedPages * pmmPageSize)

/-! ## Bits -/

variable {count fuel g i j k kernelEnd n page : Nat} {p p' : Pmm}

theorem mask_test (b : BitVec 8) (hk : k < 8) : ((b &&& (1#8 <<< k)) != 0) = b.getLsbD k := by
  rw [← BitVec.twoPow_eq, BitVec.and_twoPow]
  cases h : b.getLsbD k with
  | false => rfl
  | true =>
    have hbit : (BitVec.twoPow 8 k).getLsbD k = true := by simp [hk]
    have hne : BitVec.twoPow 8 k ≠ 0#8 := by
      intro h0
      rw [h0] at hbit
      simp at hbit
    simpa using hne

theorem mask_set (b : BitVec 8) (hj : j < 8) :
    (b ||| (1#8 <<< j)).getLsbD k = (decide (k = j) || b.getLsbD k) := by
  rw [← BitVec.twoPow_eq, BitVec.getLsbD_or]
  simp [hj, Bool.or_comm, eq_comm]

theorem mask_clear (b : BitVec 8) :
    (b &&& ~~~(1#8 <<< j)).getLsbD k = (!decide (k = j) && b.getLsbD k) := by
  rw [← BitVec.twoPow_eq, BitVec.getLsbD_and, BitVec.getLsbD_not]
  by_cases hk : k < 8
  · simp [hk, Bool.and_comm]
  · have : b.getLsbD k = false := BitVec.getLsbD_of_ge _ _ (by omega)
    simp [this]

theorem pmmTestBit_eq (p : Pmm) (g : Nat) : pmmTestBit p g = (p.bitmap (g / 8)).getLsbD (g % 8) :=
  mask_test _ (Nat.mod_lt _ (by norm_num))

theorem pmmTestBit_set (p : Pmm) (page g : Nat) :
    pmmTestBit (pmmSetBit p page) g = (decide (g = page) || pmmTestBit p g) := by
  rw [pmmTestBit_eq, pmmTestBit_eq, pmmSetBit]
  by_cases hbyte : g / 8 = page / 8
  · have heq : (g % 8 = page % 8) ↔ g = page := by omega
    simp only [hbyte, update_self, mask_set _ (Nat.mod_lt page (by norm_num : 0 < 8)), heq]
  · have hne : g ≠ page := fun h => hbyte (by rw [h])
    simp only [update_of_ne hbyte, hne, decide_false, Bool.false_or]

theorem pmmTestBit_clear (p : Pmm) (page g : Nat) :
    pmmTestBit (pmmClearBit p page) g = (!decide (g = page) && pmmTestBit p g) := by
  rw [pmmTestBit_eq, pmmTestBit_eq, pmmClearBit]
  by_cases hbyte : g / 8 = page / 8
  · have heq : (g % 8 = page % 8) ↔ g = page := by omega
    simp only [hbyte, update_self, mask_clear, heq]
  · have hne : g ≠ page := fun h => hbyte (by rw [h])
    simp only [update_of_ne hbyte, hne, decide_false, Bool.not_false, Bool.true_and]

theorem pmmTestBit_congr (h : p'.bitmap = p.bitmap) (g : Nat) :
    pmmTestBit p' g = pmmTestBit p g := by
  rw [pmmTestBit, pmmTestBit, h]

theorem decide_range_zero (a k : Nat) : decide (a ≤ k ∧ k < a + 0) = false :=
  decide_eq_false (by omega)

theorem decide_range_succ (a n k : Nat) : decide (a ≤ k ∧ k < a + (n + 1)) =
    (decide (k = a + n) || decide (a ≤ k ∧ k < a + n)) := by
  rw [← Bool.decide_or]
  exact decide_eq_decide.mpr (by omega)

/-- A loop that sets the bits of `n` consecutive pages. -/
theorem pmmTestBit_setBits (p : Pmm) (page n g : Nat) (hn : page + n ≤ 2 ^ 64) :
    pmmTestBit (pmmSetBits p page n) g
      = (decide (page ≤ g ∧ g < page + n) || pmmTestBit p g) := by
  unfold pmmSetBits
  induction n with
  | zero =>
    rw [decide_range_zero]
    rfl
  | succ n ih =>
    rw [range_succ, foldl_append, foldl_cons, foldl_nil, pmmTestBit_set,
      ih (by omega), wrap64_of_lt (by omega), decide_range_succ, Bool.or_assoc]

theorem pmmSetBits_totalPages (p : Pmm) (page n : Nat) :
    (pmmSetBits p page n).totalPages = p.totalPages := by
  unfold pmmSetBits
  induction n with
  | zero => rfl
  | succ n ih =>
    rw [range_succ, foldl_append]
    exact ih

/-! ## Searches -/

theorem pmmFindClear_find? (p : Pmm) (page n : Nat) :
    pmmFindClear p page n = (List.range' page n).find? fun g => !pmmTestBit p g := by
  induction n generalizing page with
  | zero => rfl
  | succ n ih =>
    rw [pmmFindClear, ih, range'_succ, find?_cons]
    cases pmmTestBit p page <;> rfl

theorem pmmFindClear_eq_some : pmmFindClear p page n = some g ↔ (page ≤ g ∧ g < page + n) ∧
    pmmTestBit p g = false ∧ ∀ k, page ≤ k → k < g → pmmTestBit p k = true := by
  rw [pmmFindClear_find?, find?_range'_eq_some, and_left_comm, mem_range'_1]
  simp only [Bool.not_eq_true', Bool.not_not]

theorem pmmFindClear_eq_none :
    pmmFindClear p page n = none ↔ ∀ g, page ≤ g → g < page + n → pmmTestBit p g = true := by
  rw [pmmFindClear_find?, find?_range'_eq_none]
  simp only [Bool.not_not]

theorem pmmFirstUsed_find? (p : Pmm) (page i n : Nat) : pmmFirstUsed p page i n =
    (List.range' i n).find? fun k => pmmTestBit p (wrap64 (page + k)) := by
  induction n generalizing i with
  | zero => rfl
  | succ n ih =>
    rw [pmmFirstUsed, ih, range'_succ, find?_cons]
    cases pmmTestBit p (wrap64 (page + i)) <;> rfl

theorem pmmFirstUsed_eq_some : pmmFirstUsed p page i n = some j ↔ (i ≤ j ∧ j < i + n) ∧
    pmmTestBit p (wrap64 (page + j)) = true ∧
      ∀ k, i ≤ k → k < j → pmmTestBit p (wrap64 (page + k)) = false := by
  rw [pmmFirstUsed_find?, find?_range'_eq_some, and_left_comm, mem_range'_1]
  simp only [Bool.not_eq_true']

theorem pmmFirstUsed_eq_none : pmmFirstUsed p page i n = none ↔
    ∀ k, i ≤ k → k < i + n → pmmTestBit p (wrap64 (page + k)) = false := by
  rw [pmmFirstUsed_find?, find?_range'_eq_none]
  simp only [Bool.not_eq_true']

/-! ## The counter

`usedCount` is what the counter is to say: the number of used frames among the
available ones. -/

/-- The used frames of the available region. -/
def usedFrames (f : Nat → Bool) : Finset Nat :=
  (Finset.Ico 0x100 0x10000).filter fun g => f g = true

/-- Number of set bits among the available pages `0x100..0xFFFF`. -/
def usedCount (p : Pmm) : Nat := (usedFrames (pmmTestBit p)).card

theorem mem_usedFrames {f : Nat → Bool} :
    g ∈ usedFrames f ↔ (0x100 ≤ g ∧ g < 0x10000) ∧ f g = true := by
  rw [usedFrames, Finset.mem_filter, Finset.mem_Ico]

theorem usedCount_le (p : Pmm) : usedCount p ≤ 0xFF00 := by
  refine (Finset.card_filter_le _ _).trans ?_
  rw [Nat.card_Ico]

theorem usedCount_congr (h : ∀ g, pmmTestBit p' g = pmmTestBit p g) :
    usedCount p' = usedCount p := by
  rw [usedCount, usedCount, funext h]

/-- Taking a clear frame of the region counts one more. -/
theorem usedCount_set (hlo : 0x100 ≤ g) (hhi : g < 0x10000) (hclear : pmmTestBit p g = false)
    (hbits : ∀ h, pmmTestBit p' h = (decide (h = g) || pmmTestBit p h)) :
    usedCount p' = usedCount p + 1 := by
  have hins : usedFrames (pmmTestBit p') = insert g (usedFrames (pmmTestBit p)) := by
    ext h
    rw [Finset.mem_insert, mem_usedFrames, mem_usedFrames, hbits h]
    by_cases hg : h = g
    · simp [hg, hlo, hhi]
    · simp [hg]
  have hnot : g ∉ usedFrames (pmmTestBit p) := by
    rw [mem_usedFrames, hclear]
    simp
  rw [usedCount, hins, Finset.card_insert_of_notMem hnot]
  rfl

theorem usedCount_clear (hlo : 0x100 ≤ g) (hhi : g < 0x10000) (hset : pmmTestBit p g = true)
    (hbits : ∀ h, pmmTestBit p' h = (!decide (h = g) && pmmTestBit p h)) :
    usedCount p' + 1 = usedCount p := by
  refine (usedCount_set (p := p') (g := g) hlo hhi (by simp [hbits]) fun h => ?_).symm
  rw [hbits h]
  by_cases hg : h = g
  · simp [hg, hset]
  · simp [hg]

theorem usedCount_setBits (hlo : 0x100 ≤ page) (hhi : page + n ≤ 0x10000)
    (hclear : ∀ h, page ≤ h → h < page + n → pmmTestBit p h = false) :
    usedCount (pmmSetBits p page n) = usedCount p + n := by
  induction n with
  | zero => rfl
  | succ n ih =>
    have hprev := ih (by omega) fun h h1 h2 => hclear h h1 (by omega)
    have hbit : pmmTestBit (pmmSetBits p page n) (page + n) = false := by
      rw [pmmTestBit_setBits p page n _ (by omega), hclear _ (by omega) (by omega)]
      simp
    have hbits : ∀ h, pmmTestBit (pmmSetBits p page (n + 1)) h
        = (decide (h = page + n) || pmmTestBit (pmmSetBits p page n) h) := by
      intro h
      rw [pmmTestBit_setBits p page (n + 1) _ (by omega),
        pmmTestBit_setBits p page n _ (by omega), decide_range_succ, Bool.or_assoc]
    rw [usedCount_set (by omega) (by omega) hbit hbits]
    omega

/-! ## Well-formed states -/

/-- Frames of the bitmap outside the available region. -/
def Unavailable (g : Nat) : Prop := g < 0x100 ∨ (0x10000 ≤ g ∧ g < pmmMaxPages)

/-- What every operation keeps: only frames of the available region are ever clear,
the hint lies inside the searched range, and the counter counts. -/
structure Pmm.WF (p : Pmm) : Prop where
  total : p.totalPages = 0xFF00
  unavailable : ∀ g, Unavailable g → pmmTestBit p g = true
  first : p.firstFreePage ≤ 0xFF00
  used : p.usedPages = usedCount p

theorem wf_of_bitmap {q : Pmm} (hbitmap : p.bitmap = q.bitmap) (htotal : p.totalPages = 0xFF00)
    (hbits : ∀ g, Unavailable g → pmmTestBit q g = true) (hfirst : p.firstFreePage ≤ 0xFF00)
    (hused : p.usedPages = usedCount q) : p.WF where
  total := htotal
  unavailable g hg := (pmmTestBit_congr hbitmap g).trans (hbits g hg)
  first := hfirst
  used := hused.trans (usedCount_congr (pmmTestBit_congr hbitmap)).symm

section

variable (h : p.WF)
include h

/-- A clear bit belongs to a frame of the available region. -/
theorem Pmm.WF.region_of_clear (hg : g < pmmMaxPages)
    (hclear : pmmTestBit p g = false) : 0x100 ≤ g ∧ g < 0x10000 := by
  by_contra hout
  have hset := h.unavailable g (by unfold Unavailable; omega)
  rw [hclear] at hset
  cases hset

/-- Clear frames in a row end where the available region ends. -/
theorem Pmm.WF.le_of_clear (hpage : page ≤ 0x20000)
    (hclear : ∀ k < n, pmmTestBit p (wrap64 (page + k)) = false) : page + n ≤ max page 0x10000 := by
  by_contra hgt
  have hk := hclear (max page 0x10000 - page) (by omega)
  rw [wrap64_of_lt (by omega), h.unavailable _ (by unfold Unavailable pmmMaxPages; omega)] at hk
  cases hk

theorem Pmm.WF.used_le : p.usedPages ≤ p.totalPages := by
  rw [h.used, h.total]
  exact usedCount_le p

omit h in
/-- The state in which exactly the available region is clear. -/
theorem wf_of_region_clear (htotal : p.totalPages = 0xFF00) (hused : p.usedPages = 0)
    (hfirst : p.firstFreePage ≤ 0xFF00)
    (hbits : ∀ g < pmmMaxPages, pmmTestBit p g = !decide (0x100 ≤ g ∧ g < 0x10000)) : p.WF := by
  refine ⟨htotal, fun g hg => ?_, hfirst, ?_⟩
  · unfold Unavailable pmmMaxPages at hg
    have hout : ¬ (0x100 ≤ g ∧ g < 0x10000) := by omega
    rw [hbits g (by unfold pmmMaxPages; omega), decide_eq_false hout]
    rfl
  · have hempty : usedFrames (pmmTestBit p) = ∅ := by
      refine Finset.eq_empty_of_forall_notMem fun g hg => ?_
      obtain ⟨hregion, hset⟩ := mem_usedFrames.mp hg
      rw [hbits g (by unfold pmmMaxPages; omega), decide_eq_true hregion] at hset
      cases hset
    rw [hused, usedCount, hempty]
    rfl

omit h in
/-- `p'` is `p` with the `n` clear frames from `g` on taken. -/
structure Takes (p p' : Pmm) (g n : Nat) : Prop where
  lo : 0x100 ≤ g
  hi : g + n ≤ 0xFF00
  clear : ∀ h, g ≤ h → h < g + n → pmmTestBit p h = false
  bits : ∀ h, pmmTestBit p' h = (decide (g ≤ h ∧ h < g + n) || pmmTestBit p h)
  wf : p'.WF

/-- Assembling an allocation: the bits, the counter and the hint together. -/
theorem takes_of_wf (hlo : 0x100 ≤ g) (hhi : g + n ≤ 0xFF00)
    (hclear : ∀ k, g ≤ k → k < g + n → pmmTestBit p k = false)
    (hbitmap : p'.bitmap = (pmmSetBits p g n).bitmap) (htotal : p'.totalPages = p.totalPages)
    (hused : p'.usedPages = wrap64 (p.usedPages + n)) (hfirst : p'.firstFreePage = g + n) :
    Takes p p' g n := by
  have hbits : ∀ k, pmmTestBit p' k = (decide (g ≤ k ∧ k < g + n) || pmmTestBit p k) := by
    intro k
    rw [pmmTestBit_congr hbitmap, pmmTestBit_setBits p g n k (by omega)]
  have hcount : usedCount p' = usedCount p + n := by
    rw [usedCount_congr (pmmTestBit_congr hbitmap)]
    exact usedCount_setBits hlo (by omega) hclear
  refine ⟨hlo, hhi, hclear, hbits, ⟨htotal.trans h.total, fun k hk => ?_, by omega, ?_⟩⟩
  · rw [hbits, h.unavailable k hk, Bool.or_true]
  · have hle := usedCount_le p'
    rw [hused, hcount, h.used, wrap64_of_lt (by omega)]

omit h in
theorem Takes.usedPages (hwf : p.WF) (h : Takes p p' g n) : p'.usedPages = p.usedPages + n := by
  have hlo := h.lo
  have hhi := h.hi
  have hcount : usedCount p' = usedCount (pmmSetBits p g n) := by
    refine usedCount_congr ?_
    intro k
    rw [h.bits, pmmTestBit_setBits p g n k (by omega)]
  rw [h.wf.used, hwf.used, hcount]
  exact usedCount_setBits hlo (by omega) h.clear

theorem pmmGetUsedMemory_eq : pmmGetUsedMemory p = 4096 * p.usedPages := by
  have hle := h.used_le
  rw [h.total] at hle
  show wrap64 (p.usedPages * 4096) = _
  rw [wrap64_of_lt (by omega), Nat.mul_comm]

/-! ## Specifications of the operations -/

/-- `pmm_alloc_page` takes the first clear frame from the hint on, or fails and changes
nothing. -/
theorem pmmAllocPage_spec :
    (pmmAllocPage p = (0, p) ∧ ∀ g, p.firstFreePage ≤ g → g < 0xFF00 → pmmTestBit p g = true) ∨
      ∃ g, (pmmAllocPage p).1 = g * 4096 ∧ Takes p (pmmAllocPage p).2 g 1 ∧
        (pmmAllocPage p).2.firstFreePage = g + 1 ∧
        ∀ k, p.firstFreePage ≤ k → k < g → pmmTestBit p k = true := by
  have htotal := h.total
  unfold pmmAllocPage
  cases hfind : pmmFindClear p p.firstFreePage (p.totalPages - p.firstFreePage) with
  | none => exact .inl ⟨rfl, fun g hg hg' => pmmFindClear_eq_none.mp hfind g hg (by omega)⟩
  | some g =>
    obtain ⟨⟨h1, h2⟩, h3, hbelow⟩ := pmmFindClear_eq_some.mp hfind
    obtain ⟨hlo, -⟩ := h.region_of_clear (by unfold pmmMaxPages; omega) h3
    refine .inr ⟨g, wrap64_of_lt (show g * 4096 < 2 ^ 64 by omega),
      takes_of_wf h hlo (by omega) (fun k hk hk' => ?_) ?_ rfl rfl rfl, rfl, hbelow⟩
    · rw [show k = g by omega, h3]
    · show (pmmSetBit p g).bitmap = (pmmSetBit p (wrap64 (g + 0))).bitmap
      rw [wrap64_of_lt (by omega), Nat.add_zero]

omit h in
/-- The `count` pages from `page` on are free and inside the searched range. -/
structure Fits (p : Pmm) (count page : Nat) : Prop where
  first : p.firstFreePage ≤ page
  last : page + count ≤ p.totalPages
  free : ∀ g, page ≤ g → g < page + count → pmmTestBit p g = false

omit h in
/-- A start that the loop skips would need the used page it met. -/
theorem Fits.past (hfit : Fits p count g) (hwrap : page + count < 2 ^ 64) (hpage : page ≤ g)
    (hfind : pmmFirstUsed p page 0 count = some i) : page + i + 1 ≤ g := by
  obtain ⟨⟨-, hi⟩, hused, -⟩ := pmmFirstUsed_eq_some.mp hfind
  rw [wrap64_of_lt (by omega)] at hused
  by_contra hle
  rw [hfit.free (page + i) (by omega) (by omega)] at hused
  cases hused

omit h in
/-- Where the outer loop of `pmm_alloc_pages` can be: a request small enough to fit,
or one so large that the sum with the page number wraps around. In both cases the
page stays far inside the bitmap. -/
def AllocPagesRange (count page : Nat) : Prop :=
  (count ≤ 0xFF00 ∨ 2 ^ 64 ≤ count + 0xFF00) ∧ count < 2 ^ 64 ∧ page ≤ 0x20000

/-- A loop iteration that skips ahead stays in range. -/
theorem allocPagesRange_skip
    (hr : AllocPagesRange count page) (hle : wrap64 (page + count) ≤ p.totalPages)
    (hskip : pmmFirstUsed p page 0 count = some i) :
    wrap64 (page + i + 1) = page + i + 1 ∧ AllocPagesRange count (page + i + 1) := by
  obtain ⟨hcount, hlt, hpage⟩ := hr
  obtain ⟨⟨-, hi⟩, -, hclear⟩ := pmmFirstUsed_eq_some.mp hskip
  rw [h.total, wrap64] at hle
  rcases hcount with hsmall | hbig
  · have : wrap64 (page + i + 1) = page + i + 1 := wrap64_of_lt (by omega)
    exact ⟨this, .inl hsmall, hlt, by omega⟩
  · -- the sum wrapped: the first page past the available region is used, so the skip is short
    have hi' := h.le_of_clear hpage fun k hk => hclear k (Nat.zero_le k) hk
    have : wrap64 (page + i + 1) = page + i + 1 := wrap64_of_lt (by omega)
    exact ⟨this, .inr hbig, hlt, by omega⟩

/-- **The search** from `page` on ends, with the least page that fits. -/
theorem pmmAllocPagesLoop_spec (hcount : 2 ≤ count) (hr : AllocPagesRange count page)
    (hfuel : 0x20001 < fuel + page) :
    (pmmAllocPagesLoop p count fuel page = some (0, p) ∧ ∀ g, page ≤ g → ¬ Fits p count g) ∨
      ∃ g p', pmmAllocPagesLoop p count fuel page = some (g * 4096, p') ∧ Takes p p' g count ∧
        p'.firstFreePage = g + count ∧ page ≤ g ∧ ∀ g', page ≤ g' → Fits p count g' → g ≤ g' := by
  induction fuel generalizing page with
  | zero =>
    have := hr.2.2
    omega
  | succ fuel ih =>
    have hexact : ∀ g, page ≤ g → Fits p count g → page + count ≤ 0xFF00 := by
      intro g hpage hfit
      have hlast := hfit.last
      rw [h.total] at hlast
      omega
    rw [pmmAllocPagesLoop]
    -- `page + count` may wrap and pass the test of the loop, but then nothing fits
    by_cases hle : wrap64 (page + count) ≤ p.totalPages
    · rw [if_pos hle]
      cases hfind : pmmFirstUsed p page 0 count with
      | some i =>
        obtain ⟨hskip, hr'⟩ := allocPagesRange_skip h hr hle hfind
        -- whatever fits from `page` on lies behind the used page
        have hpast : ∀ g, page ≤ g → Fits p count g → page + i + 1 ≤ g := by
          intro g hpage hfit
          have := hexact g hpage hfit
          exact hfit.past (by omega) hpage hfind
        dsimp only
        rw [hskip]
        rcases ih hr' (by omega) with ⟨hret, hnone⟩ | ⟨g, p', hret, htakes, hhint, hg, hleast⟩
        · exact .inl ⟨hret, fun g hpage hfit => hnone g (hpast g hpage hfit) hfit⟩
        · exact .inr ⟨g, p', hret, htakes, hhint, by omega,
            fun g' hpage hfit => hleast g' (hpast g' hpage hfit) hfit⟩
      | none =>
        have hclear := pmmFirstUsed_eq_none.mp hfind
        obtain ⟨hc, hlt, hpage⟩ := hr
        rw [h.total, wrap64] at hle
        -- a request whose sum wraps would reach past the region, where every page is used
        have hreach := h.le_of_clear hpage fun k hk => hclear k (Nat.zero_le k) (by omega)
        have hfit : page + count ≤ 0xFF00 := by omega
        have hclear' : ∀ k, page ≤ k → k < page + count → pmmTestBit p k = false := by
          intro k hk hk'
          have := hclear (k - page) (by omega) (by omega)
          rwa [wrap64_of_lt (by omega), Nat.add_sub_cancel' hk] at this
        obtain ⟨hlo, -⟩ := h.region_of_clear (by unfold pmmMaxPages; omega)
          (hclear' page (Nat.le_refl _) (by omega))
        have hhint : wrap64 (page + count) = page + count := wrap64_of_lt (by omega)
        have hret : wrap64 (page * pmmPageSize) = page * 4096 :=
          wrap64_of_lt (show page * 4096 < 2 ^ 64 by omega)
        rw [hret]
        exact .inr ⟨page, _, rfl, takes_of_wf h hlo hfit hclear' rfl
          (pmmSetBits_totalPages p page count) rfl hhint, hhint, Nat.le_refl _, fun g' hg' _ => hg'⟩
    · rw [if_neg hle]
      refine .inl ⟨rfl, fun g hpage hfit => ?_⟩
      have := hexact g hpage hfit
      rw [h.total, wrap64_of_lt (by omega)] at hle
      omega

/-- **The skipping search is plain first fit**, and makes at most `0x20002` steps. -/
theorem pmmAllocPages_isLeast (hcount : 2 ≤ count) (hlt : count < 2 ^ 64) (hfuel : 0x20001 < fuel) :
    (pmmAllocPages fuel p count = some (0, p) ∧ ∀ page, ¬ Fits p count page) ∨
      ∃ page p', pmmAllocPages fuel p count = some (page * 4096, p') ∧ Takes p p' page count ∧
        p'.firstFreePage = page + count ∧ IsLeast {g | Fits p count g} page := by
  have hfirst := h.first
  rw [pmmAllocPages, if_neg (by omega), if_neg (by omega)]
  by_cases hle : wrap64 (p.firstFreePage + count) ≤ p.totalPages
  · have hr : AllocPagesRange count p.firstFreePage := by
      rw [h.total, wrap64] at hle
      exact ⟨by omega, hlt, by omega⟩
    rcases pmmAllocPagesLoop_spec h hcount hr (show 0x20001 < fuel + p.firstFreePage by omega) with
      ⟨hret, hnone⟩ | ⟨g, p', hret, htakes, hhint, hg, hleast⟩
    · exact .inl ⟨hret, fun page hfit => hnone page hfit.first hfit⟩
    · exact .inr ⟨g, p', hret, htakes, hhint, ⟨hg, h.total ▸ htakes.hi, htakes.clear⟩,
        fun g' hfit => hleast g' hfit.first hfit⟩
  · -- the loop ends at once, and nothing from the hint on can fit
    obtain ⟨fuel, rfl⟩ : ∃ k, fuel = k + 1 := ⟨fuel - 1, by omega⟩
    rw [pmmAllocPagesLoop, if_neg hle]
    refine .inl ⟨rfl, fun page hfit => ?_⟩
    have hlast := hfit.last
    have hstart := hfit.first
    rw [h.total] at hlast hle
    rw [wrap64_of_lt (by omega)] at hle
    omega

/-- `pmm_alloc_pages` returns. -/
theorem pmmAllocPages_total (hlt : count < 2 ^ 64) (hfuel : 0x20001 < fuel) :
    pmmAllocPages fuel p count = some (0, p) ∨
      ∃ g p', pmmAllocPages fuel p count = some (g * 4096, p') ∧ Takes p p' g count ∧
        p'.firstFreePage = g + count := by
  rcases (show count = 0 ∨ count = 1 ∨ 2 ≤ count by omega) with rfl | rfl | htwo
  · exact .inl rfl
  · rcases pmmAllocPage_spec h with ⟨hfail, -⟩ | ⟨g, hg, htakes, hhint, -⟩
    · exact .inl (congrArg some hfail)
    · exact .inr ⟨g, _, congrArg some (Prod.ext hg rfl), htakes, hhint⟩
  · rcases pmmAllocPages_isLeast h htwo hlt hfuel with ⟨hret, -⟩ | ⟨g, p', hret, htakes, hhint, -⟩
    · exact .inl hret
    · exact .inr ⟨g, p', hret, htakes, hhint⟩

theorem pmmAllocPages_returns (hlt : count < 2 ^ 64) (hfuel : 0x20001 < fuel) :
    (pmmAllocPages fuel p count).isSome := by
  rcases pmmAllocPages_total h hlt hfuel with hret | ⟨g, p', hret, -⟩
  · rw [hret]
    rfl
  · rw [hret]
    rfl

omit h in
theorem pmmAllocPagesLoop_mono {fuel' : Nat} {x : Nat × Pmm}
    (hle : fuel ≤ fuel') (h : pmmAllocPagesLoop p count fuel page = some x) :
    pmmAllocPagesLoop p count fuel' page = some x := by
  induction fuel generalizing page fuel' with
  | zero => cases h
  | succ fuel ih =>
    obtain ⟨k, rfl⟩ : ∃ k, fuel' = k + 1 := ⟨fuel' - 1, by omega⟩
    rw [pmmAllocPagesLoop] at h ⊢
    by_cases hend : wrap64 (page + count) ≤ p.totalPages
    · rw [if_pos hend] at h ⊢
      cases hfind : pmmFirstUsed p page 0 count with
      | some i =>
        rw [hfind] at h
        exact ih (by omega) h
      | none =>
        rw [hfind] at h
        exact h
    · rw [if_neg hend] at h ⊢
      exact h

omit h in
theorem pmmAllocPages_mono {fuel' : Nat} {x : Nat × Pmm} (hle : fuel ≤ fuel')
    (h : pmmAllocPages fuel p count = some x) : pmmAllocPages fuel' p count = some x := by
  unfold pmmAllocPages at h ⊢
  split_ifs at h ⊢
  · exact h
  · exact h
  · exact pmmAllocPagesLoop_mono hle h

/-- `pmm_alloc_pages` fails and changes nothing, or takes `count` adjacent clear
frames. -/
theorem pmmAllocPages_spec {r : Nat} (hlt : count < 2 ^ 64)
    (hret : pmmAllocPages fuel p count = some (r, p')) :
    (r = 0 ∧ p' = p) ∨
      ∃ g, r = g * 4096 ∧ Takes p p' g count ∧ p'.firstFreePage = g + count := by
  have hmore := pmmAllocPages_mono (Nat.le_add_right fuel 0x20002) hret
  rcases pmmAllocPages_total h hlt (show 0x20001 < fuel + 0x20002 by omega) with
    heq | ⟨g, q, heq, htakes, hhint⟩
  · cases hmore.symm.trans heq
    exact .inl ⟨rfl, rfl⟩
  · cases hmore.symm.trans heq
    exact .inr ⟨g, rfl, htakes, hhint⟩

/-- `pmm_free_page` on a frame of the available region clears its bit; on a frame
that is free already it does nothing. -/
theorem pmmFreePage_spec {addr : Nat} (hlo : 0x100 ≤ physToPage addr)
    (hhi : physToPage addr < 0x10000) :
    (∀ k, pmmTestBit (pmmFreePage p addr) k
        = (!decide (k = physToPage addr) && pmmTestBit p k)) ∧ (pmmFreePage p addr).WF := by
  have hne : addr ≠ 0 := by
    unfold physToPage pmmPageSize at hlo
    omega
  unfold pmmFreePage
  rw [if_neg hne]
  dsimp only
  generalize physToPage addr = g at hlo hhi
  have hbits := pmmTestBit_clear p g
  cases hbit : pmmTestBit p g with
  | false =>
    refine ⟨fun k => ?_, h⟩
    by_cases hk : k = g
    · simp [hk, hbit]
    · simp [hk]
  | true =>
    have hcount := usedCount_clear hlo hhi hbit hbits
    have hfirst := h.first
    refine ⟨fun k => Eq.trans (pmmTestBit_congr (p := pmmClearBit p g) (by rfl) k) (hbits k),
      wf_of_bitmap (q := pmmClearBit p g) rfl h.total (fun k hk => ?_) ?_ ?_⟩
    · have hkg : k ≠ g := by
        unfold Unavailable at hk
        omega
      rw [hbits, h.unavailable k hk, decide_eq_false hkg]
      rfl
    · show (if g < p.firstFreePage then g else p.firstFreePage) ≤ 0xFF00
      split <;> omega
    · show sub64 p.usedPages 1 = usedCount (pmmClearBit p g)
      have hle := usedCount_le p
      rw [h.used, sub64_of_le (by omega) (by omega)]
      omega

/-- `pmm_free_pages` on frames of the available region clears exactly their bits. -/
theorem pmmFreePages_spec {addr : Nat} (hne : addr ≠ 0)
    (hregion : ∀ i, i < n → 0x100 ≤ physToPage (wrap64 (addr + i * pmmPageSize)) ∧
      physToPage (wrap64 (addr + i * pmmPageSize)) < 0x10000) :
    (∀ k, pmmTestBit (pmmFreePages p addr n) k
        = (!decide (∃ i < n, k = physToPage (wrap64 (addr + i * pmmPageSize))) &&
            pmmTestBit p k)) ∧ (pmmFreePages p addr n).WF := by
  unfold pmmFreePages
  rw [if_neg hne]
  induction n with
  | zero =>
    refine ⟨fun k => ?_, h⟩
    rfl
  | succ n ih =>
    obtain ⟨hb, hwf⟩ := ih fun i hi => hregion i (by omega)
    obtain ⟨hlo, hhi⟩ := hregion n (by omega)
    obtain ⟨hb', hwf'⟩ := pmmFreePage_spec hwf hlo hhi
    rw [range_succ, foldl_append, foldl_cons, foldl_nil]
    refine ⟨fun k => ?_, hwf'⟩
    have hsplit : (∃ i < n + 1, k = physToPage (wrap64 (addr + i * pmmPageSize))) ↔
        k = physToPage (wrap64 (addr + n * pmmPageSize)) ∨
          ∃ i < n, k = physToPage (wrap64 (addr + i * pmmPageSize)) := by
      rw [Nat.exists_lt_succ_right]
      exact or_comm
    rw [hb' k, hb k, decide_eq_decide.mpr hsplit, Bool.decide_or, Bool.not_or, Bool.and_assoc]

theorem pmmMarkUsedStep_spec (hg : g < pmmMaxPages) :
    (∀ k, pmmTestBit (pmmMarkUsedStep p g) k = (decide (k = g) || pmmTestBit p k)) ∧
      (pmmMarkUsedStep p g).WF := by
  unfold pmmMarkUsedStep
  have hbits := pmmTestBit_set p g
  cases hbit : pmmTestBit p g with
  | true =>
    refine ⟨fun k => ?_, h⟩
    by_cases hk : k = g
    · simp [hk, hbit]
    · simp [hk]
  | false =>
    obtain ⟨hlo, hhi⟩ := h.region_of_clear hg hbit
    have hcount := usedCount_set hlo hhi hbit hbits
    refine ⟨fun k => Eq.trans (pmmTestBit_congr (p := pmmSetBit p g) (by rfl) k) (hbits k),
      wf_of_bitmap (q := pmmSetBit p g) rfl h.total (fun k hk => ?_) h.first ?_⟩
    · rw [hbits, h.unavailable k hk, Bool.or_true]
    · show wrap64 (p.usedPages + 1) = usedCount (pmmSetBit p g)
      have hle := usedCount_le p
      rw [h.used, wrap64_of_lt (by omega), hcount]

/-- `pmm_mark_used` on a range inside the bitmap sets exactly the bits of the range. -/
theorem pmmMarkUsed_spec (addr n : Nat) (hn : physToPage addr + n ≤ pmmMaxPages) :
    (∀ k, pmmTestBit (pmmMarkUsed p addr n) k
        = (decide (physToPage addr ≤ k ∧ k < physToPage addr + n) || pmmTestBit p k)) ∧
      (pmmMarkUsed p addr n).WF := by
  have hstart : physToPage (pmmPageAlignDown addr) = physToPage addr := by
    unfold physToPage pmmPageAlignDown pmmPageSize
    omega
  unfold pmmMarkUsed
  rw [hstart]
  unfold pmmMaxPages at hn
  generalize physToPage addr = start at hn
  induction n with
  | zero =>
    refine ⟨fun k => ?_, h⟩
    rw [decide_range_zero]
    rfl
  | succ n ih =>
    obtain ⟨hb, hwf⟩ := ih (by omega)
    obtain ⟨hb', hwf'⟩ := pmmMarkUsedStep_spec hwf (g := start + n)
      (by unfold pmmMaxPages; omega)
    rw [range_succ, foldl_append, foldl_cons, foldl_nil,
      wrap64_of_lt (by omega)]
    refine ⟨fun k => ?_, hwf'⟩
    rw [hb' k, hb k, decide_range_succ, Bool.or_assoc]

end

/-! ## Initialisation -/

/-- The first page number past the kernel image. -/
def kernelImageEnd (kernelEnd : Nat) : Nat := (kernelEnd - kernelVbase + 4095) / 4096

/-- The linker script places the kernel image at `1 MiB`, mapped into the higher
half, so `_kernel_end` lies above its base. -/
def KernelLinked (kernelEnd : Nat) : Prop :=
  kernelVbase + 0x100000 ≤ kernelEnd ∧ kernelEnd < 2 ^ 64

/-- An image that ends 4 MiB into the higher half. -/
theorem kernelLinked_four_mib : KernelLinked 0xFFFFFFFF80400000 := by
  unfold KernelLinked kernelVbase
  omega

theorem pmmTestBit_clearBits (p : Pmm) (n g : Nat) :
    pmmTestBit ((List.range n).foldl
        (fun p i => pmmClearBit p (physToPage (availStart + i * pmmPageSize))) p) g
      = (!decide (0x100 ≤ g ∧ g < 0x100 + n) && pmmTestBit p g) := by
  induction n with
  | zero =>
    rw [decide_range_zero]
    rfl
  | succ n ih =>
    have hpage : physToPage (availStart + n * pmmPageSize) = 0x100 + n := by
      unfold physToPage availStart pmmPageSize
      omega
    rw [range_succ, foldl_append, foldl_cons, foldl_nil, pmmTestBit_clear,
      ih, hpage, decide_range_succ, Bool.not_or, Bool.and_assoc]

theorem clearBits_counters (p : Pmm) (n : Nat) (f : Nat → Nat) :
    ((List.range n).foldl (fun p i => pmmClearBit p (f i)) p).totalPages = p.totalPages ∧
      ((List.range n).foldl (fun p i => pmmClearBit p (f i)) p).usedPages = p.usedPages ∧
      ((List.range n).foldl (fun p i => pmmClearBit p (f i)) p).firstFreePage
        = p.firstFreePage := by
  induction n with
  | zero => exact ⟨rfl, rfl, rfl⟩
  | succ n ih =>
    rw [range_succ, foldl_append]
    exact ih

/-- `pmm_init` up to the marking of the kernel image: the bitmap with every bit set,
then the available region cleared. -/
def pmmCleared : Pmm :=
  (List.range 0xFF00).foldl
    (fun p i => pmmClearBit p (physToPage (availStart + i * pmmPageSize)))
    { Pmm.bss with
      bitmap := fun i => if i < pmmBitmapSize then 0xFF else Pmm.bss.bitmap i
      totalPages := 0xFF00 }

theorem pmmTestBit_of_ones (h : p.bitmap (g / 8) = 0xFF) : pmmTestBit p g = true := by
  have h8 : g % 8 < 8 := Nat.mod_lt _ (by norm_num)
  rw [pmmTestBit_eq, h]
  interval_cases g % 8 <;> rfl

theorem pmmTestBit_cleared (hg : g < pmmMaxPages) :
    pmmTestBit pmmCleared g = !decide (0x100 ≤ g ∧ g < 0x10000) := by
  have hbyte : g / 8 < pmmBitmapSize := by
    unfold pmmBitmapSize pmmMaxPages at *
    omega
  rw [pmmCleared, pmmTestBit_clearBits, pmmTestBit_of_ones (if_pos hbyte), Bool.and_true]

theorem pmmCleared_wf : pmmCleared.WF := by
  obtain ⟨htotal, hused, hfirst⟩ : pmmCleared.totalPages = 0xFF00 ∧ pmmCleared.usedPages = 0 ∧
    pmmCleared.firstFreePage = 0 := clearBits_counters _ _ _
  exact wf_of_region_clear htotal hused (hfirst.le.trans (Nat.zero_le _))
    fun g hg => pmmTestBit_cleared hg

/-- The state without any frame in use, in closed form. -/
def pmmUnused : Pmm where
  bitmap i := if 0x20 ≤ i ∧ i < 0x2000 then 0 else 0xFF
  totalPages := 0xFF00
  usedPages := 0
  firstFreePage := 0x100

theorem pmmTestBit_unused (g : Nat) :
    pmmTestBit pmmUnused g = !decide (0x100 ≤ g ∧ g < 0x10000) := by
  by_cases hg : 0x100 ≤ g ∧ g < 0x10000
  · have hbyte : pmmUnused.bitmap (g / 8) = 0 := if_pos (by omega)
    rw [pmmTestBit_eq, hbyte, decide_eq_true hg]
    simp
  · rw [pmmTestBit_of_ones (if_neg (by omega)), decide_eq_false hg]
    rfl

theorem pmmUnused_wf : pmmUnused.WF :=
  wf_of_region_clear rfl rfl (by decide) fun g _ => pmmTestBit_unused g

theorem pmmTestBit_setFirst (p : Pmm) (f g : Nat) :
    pmmTestBit { p with firstFreePage := f } g = pmmTestBit p g := rfl

theorem Pmm.WF.setFirst (h : p.WF) {f : Nat} (hf : f ≤ 0xFF00) :
    Pmm.WF { p with firstFreePage := f } :=
  wf_of_bitmap (q := p) (by rfl) h.total h.unavailable hf h.used

theorem pmmInit_eq (hk : KernelLinked kernelEnd) :
    pmmInit kernelEnd .bss
      = { pmmMarkUsed pmmCleared 0x100000 (kernelImageEnd kernelEnd - 0x100) with
          firstFreePage := physToPage availStart } := by
  obtain ⟨hlo, hhi⟩ := hk
  unfold kernelVbase at hlo
  have hphys : sub64 kernelEnd kernelVbase = kernelEnd - kernelVbase :=
    sub64_of_le (by unfold kernelVbase; omega) hhi
  have hcount : wrap64 (sub64 (sub64 kernelEnd kernelVbase) 0x100000 + pmmPageSize - 1)
      / pmmPageSize = kernelImageEnd kernelEnd - 0x100 := by
    rw [hphys, sub64_of_le (by unfold kernelVbase; omega) (by unfold kernelVbase; omega),
      wrap64_of_lt (by unfold kernelVbase pmmPageSize; omega)]
    unfold pmmPageSize kernelImageEnd kernelVbase
    omega
  unfold pmmInit
  dsimp only
  rw [hcount]
  rfl

theorem KernelLinked.image (hk : KernelLinked kernelEnd) :
    0x100 ≤ kernelImageEnd kernelEnd ∧ kernelImageEnd kernelEnd ≤ pmmMaxPages := by
  obtain ⟨hlo, hhi⟩ := hk
  unfold kernelVbase at hlo
  unfold kernelImageEnd kernelVbase pmmMaxPages
  omega

/-- After `pmm_init` the used frames of the region are those of the kernel image. -/
theorem pmmInit_spec (hk : KernelLinked kernelEnd) :
    (pmmInit kernelEnd .bss).WF ∧ (pmmInit kernelEnd .bss).firstFreePage = 0x100 ∧
      ∀ g, 0x100 ≤ g → g < 0x10000 →
        pmmTestBit (pmmInit kernelEnd .bss) g = decide (g < kernelImageEnd kernelEnd) := by
  have hstart : physToPage 0x100000 = 0x100 := by
    unfold physToPage pmmPageSize
    omega
  have himage := hk.image
  obtain ⟨hbits, hwf⟩ := pmmMarkUsed_spec pmmCleared_wf 0x100000
    (kernelImageEnd kernelEnd - 0x100) (by omega)
  rw [pmmInit_eq hk]
  refine ⟨hwf.setFirst (hstart.le.trans (by norm_num)), hstart, fun g hg hg' => ?_⟩
  have hclear : pmmTestBit pmmCleared g = false := by
    rw [pmmTestBit_cleared (by unfold pmmMaxPages; omega), decide_eq_true ⟨hg, hg'⟩]
    rfl
  rw [pmmTestBit_setFirst, hbits, hclear, Bool.or_false, decide_eq_decide]
  omega

/-! ## Before anything is freed -/

/-- The number of frames `pmm_alloc_page` can still hand out: it searches below
`g_pmm_total_pages`. -/
def pmmAvail (p : Pmm) : Nat :=
  ((Finset.Ico 0x100 0xFF00).filter fun g => pmmTestBit p g = false).card

/-- The used frames that a search can meet are exactly those below `n`, as they are until
something is freed. -/
structure Pmm.Packed (p : Pmm) (n : Nat) : Prop where
  wf : p.WF
  lo : 0x100 ≤ n
  hi : n ≤ 0xFF00
  first_lo : 0x100 ≤ p.firstFreePage
  first : p.firstFreePage ≤ n
  bits : ∀ g, 0x100 ≤ g → g < 0xFF00 → pmmTestBit p g = decide (g < n)

theorem Pmm.Packed.avail (h : p.Packed n) : pmmAvail p = 0xFF00 - n := by
  have hframes : ((Finset.Ico 0x100 0xFF00).filter fun g => pmmTestBit p g = false) =
      Finset.Ico n 0xFF00 := by
    ext g
    have := h.lo
    rw [Finset.mem_filter, Finset.mem_Ico, Finset.mem_Ico]
    constructor
    · rintro ⟨⟨hlo, hhi⟩, hclear⟩
      rw [h.bits g hlo hhi, decide_eq_false_iff_not] at hclear
      omega
    · rintro ⟨hlo, hhi⟩
      refine ⟨⟨by omega, hhi⟩, ?_⟩
      rw [h.bits g (by omega) hhi, decide_eq_false (by omega)]
  rw [pmmAvail, hframes, Nat.card_Ico]

/-- Before anything is freed, `pmm_alloc_page` hands out one frame after the other. -/
theorem Pmm.Packed.alloc (h : p.Packed n) :
    (n = 0xFF00 ∧ pmmAllocPage p = (0, p)) ∨
      ((pmmAllocPage p).1 = n * 4096 ∧ Takes p (pmmAllocPage p).2 n 1 ∧
        (pmmAllocPage p).2.Packed (n + 1)) := by
  have htotal := h.wf.total
  have hfirst := h.first
  have hset : ∀ g, p.firstFreePage ≤ g → g < n → pmmTestBit p g = true := by
    intro g hg hgn
    have := h.hi
    have := h.first_lo
    rw [h.bits g (by omega) (by omega), decide_eq_true hgn]
  rcases Nat.lt_or_ge n 0xFF00 with hlt | hge
  · have hclear : pmmTestBit p n = false := by
      rw [h.bits n h.lo (by omega), decide_eq_false (by omega)]
    rcases pmmAllocPage_spec h.wf with ⟨-, hused⟩ | ⟨g, hg, htakes, hfirst', hused⟩
    · rw [hused n hfirst hlt] at hclear
      cases hclear
    · have hfree := htakes.clear g (Nat.le_refl _) (by omega)
      have hlo := h.lo
      obtain rfl : g = n := by
        rcases Nat.lt_trichotomy g n with hgn | hgn | hgn
        · rw [h.bits g htakes.lo (by omega), decide_eq_true hgn] at hfree
          cases hfree
        · exact hgn
        · rw [hused n hfirst hgn] at hclear
          cases hclear
      refine .inr ⟨hg, htakes, htakes.wf, by omega, hlt, by omega, hfirst'.le, fun k hk hk' => ?_⟩
      rw [htakes.bits, h.bits k hk hk', Bool.eq_iff_iff]
      simp only [Bool.or_eq_true, decide_eq_true_eq]
      omega
  · have hn : n = 0xFF00 := Nat.le_antisymm h.hi hge
    refine .inl ⟨hn, ?_⟩
    rw [pmmAllocPage, pmmFindClear_eq_none.mpr fun g hg hg' => hset g hg (by omega)]

/-- `pmm_init` leaves the frames after the kernel image. -/
theorem pmmInit_packed (hk : KernelLinked kernelEnd) :
    (pmmInit kernelEnd .bss).Packed (min (kernelImageEnd kernelEnd) 0xFF00) := by
  obtain ⟨hwf, hfirst, hbits⟩ := pmmInit_spec hk
  have hlo := hk.image.1
  refine ⟨hwf, by omega, by omega, hfirst.ge, by omega, fun g hg hg' => ?_⟩
  rw [hbits g hg (by omega), decide_eq_decide]
  omega

end GosKernel.Mm
