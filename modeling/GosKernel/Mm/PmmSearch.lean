import GosKernel.Mm.PmmOwnership

/-!
# Where the frame allocator searches

Both allocation paths of `pmm.c` start their search at `g_pmm_first_free_page` and end
it at `g_pmm_total_pages`, a number of pages that the loops use as a page number.

- The frames from `0xFF00` on are available and are never handed out (`TailKept`).
-/

namespace GosKernel.Mm

variable {count fuel g kernelEnd n page r : Nat} {e : PmmEvent} {p p' : Pmm} {s s' : PmmSys}

/-! ## The hint -/

/-- No free page of the region lies below the hint. -/
def HintSound (p : Pmm) : Prop :=
  ∀ g, 0x100 ≤ g → g < p.firstFreePage → pmmTestBit p g = true

/-- An allocation keeps the hint sound if and only if it passes over used pages only. -/
theorem HintSound.takes_iff (h : HintSound p) (hwf : p.WF)
    (htakes : Takes p p' g n) (hhint : p'.firstFreePage = g + n) :
    HintSound p' ↔ ∀ k, p.firstFreePage ≤ k → k < g → pmmTestBit p k = true := by
  constructor
  · intro h' k hk hkg
    rcases Nat.lt_or_ge k 0x100 with hlow | hlow
    · exact hwf.unavailable k (.inl hlow)
    · have hset := h' k hlow (by omega)
      rw [htakes.bits, decide_eq_false (by omega)] at hset
      exact hset
  · intro hpassed k hlow hk
    rw [htakes.bits, Bool.or_eq_true, decide_eq_true_eq]
    by_cases hin : g ≤ k
    · exact .inl ⟨hin, by omega⟩
    · right
      rcases Nat.lt_or_ge k p.firstFreePage with hbelow | habove
      · exact h k hlow hbelow
      · exact hpassed k habove (by omega)

/-- `pmm_alloc_page` takes the first free page. -/
theorem HintSound.allocPage (h : HintSound p) (hwf : p.WF) : HintSound (pmmAllocPage p).2 := by
  rcases pmmAllocPage_spec hwf with ⟨hfail, -⟩ | ⟨g, -, htakes, hhint, hused⟩
  · rw [hfail]
    exact h
  · exact (h.takes_iff hwf htakes hhint).mpr hused

/-- `pmm_free_page` lowers the hint to the page it frees. -/
theorem HintSound.freePage (h : HintSound p) (addr : Nat) : HintSound (pmmFreePage p addr) := by
  unfold pmmFreePage
  split
  · exact h
  · dsimp only
    split
    · intro k hlow hk
      have hk' : k < if physToPage addr < p.firstFreePage then physToPage addr
          else p.firstFreePage := hk
      have hne : k ≠ physToPage addr ∧ k < p.firstFreePage := by
        split at hk' <;> omega
      rw [pmmTestBit_congr (p := pmmClearBit p (physToPage addr)) (by rfl) k, pmmTestBit_clear,
        h k hlow hne.2, decide_eq_false hne.1]
      rfl
    · exact h

theorem HintSound.freePages (h : HintSound p) (addr n : Nat) :
    HintSound (pmmFreePages p addr n) := by
  unfold pmmFreePages
  split
  · exact h
  · induction n with
    | zero => exact h
    | succ n ih =>
      rw [List.range_succ, List.foldl_append]
      exact ih.freePage _

/-! ## Callers that allocate and free -/

/-- Allocations, and frees of frames that were allocated. -/
def PmmCall.Uses (owner : Nat → Option Owner) (c : Nat) : PmmCall → Prop
  | allocPage => True
  | allocPages _ => True
  | freePage addr => addr ≠ 0 → owner (physToPage addr) = some (.caller c)
  | freePages addr count => addr ≠ 0 → ∀ i < count,
      owner (physToPage (wrap64 (addr + i * pmmPageSize))) = some (.caller c)
  | markUsed _ _ => False

/-- A call that allocates frames or frees allocated ones. -/
def PmmUse (s : PmmSys) (e : PmmEvent) (s' : PmmSys) : Prop :=
  PmmStep s e s' ∧ e.call.Uses s.owner e.caller

/-- Calls of `pmm_alloc_page` and `pmm_free_page` only. -/
def PmmCall.SinglePage : PmmCall → Prop
  | allocPage => True
  | freePage _ => True
  | _ => False

/-- The call skips a free page: there are `count` free pages in a row from the hint on, but the
first free page is not where they start. -/
def PmmCall.Skips (p : Pmm) : PmmCall → Prop
  | allocPages count => 2 ≤ count ∧ (∃ g, Fits p count g) ∧
      ∃ k, IsLeast {k | p.firstFreePage ≤ k ∧ pmmTestBit p k = false} k ∧ ¬ Fits p count k
  | _ => False

/-- Free pages before the first fit are skipped. -/
theorem skips_iff (hcount : 2 ≤ count) (hleast : IsLeast {g | Fits p count g} g) :
    (PmmCall.allocPages count).Skips p ↔
      ∃ k, p.firstFreePage ≤ k ∧ k < g ∧ pmmTestBit p k = false := by
  have hfree : pmmTestBit p g = false := hleast.1.free g le_rfl (by omega)
  constructor
  · rintro ⟨-, -, k, ⟨⟨hk, hclear⟩, hmin⟩, hfit⟩
    refine ⟨k, hk, lt_of_le_of_ne (hmin ⟨hleast.1.first, hfree⟩) ?_, hclear⟩
    rintro rfl
    exact hfit hleast.1
  · rintro ⟨k, hk, hkg, hclear⟩
    have hex : ∃ k, p.firstFreePage ≤ k ∧ pmmTestBit p k = false := ⟨k, hk, hclear⟩
    refine ⟨hcount, ⟨g, hleast.1⟩, Nat.find hex, ⟨Nat.find_spec hex, fun j hj => Nat.find_min' hex hj⟩,
      fun hfit => ?_⟩
    have hle := hleast.2 hfit
    have hlt := Nat.find_min' hex ⟨hk, hclear⟩
    omega

theorem PmmSys.init_hintSound (hk : KernelLinked kernelEnd) :
    HintSound (PmmSys.init kernelEnd).pmm := by
  intro g hlow hg
  have hfirst : (PmmSys.init kernelEnd).pmm.firstFreePage = 0x100 := (pmmInit_spec hk).2.1
  omega

/-- What `pmm_alloc_pages` does to the hint. -/
theorem HintSound.allocPages_iff (hsound : HintSound p) (hwf : p.WF) (hlt : count < 2 ^ 64)
    (hret : pmmAllocPages fuel p count = some (r, p')) :
    HintSound p' ↔ ¬ (PmmCall.allocPages count).Skips p := by
  rcases (show count = 0 ∨ count = 1 ∨ 2 ≤ count by omega) with rfl | rfl | htwo
  · cases hret
    exact iff_of_true hsound fun h => absurd h.1 (by decide)
  · have hpage : pmmAllocPage p = (r, p') := Option.some.inj hret
    have h := hsound.allocPage hwf
    rw [hpage] at h
    exact iff_of_true h fun h => absurd h.1 (by decide)
  have hmore := pmmAllocPages_mono (Nat.le_add_right fuel 0x20002) hret
  rcases pmmAllocPages_isLeast hwf htwo hlt (show 0x20001 < fuel + 0x20002 by omega) with
    ⟨heq, hnone⟩ | ⟨g, q, heq, htakes, hhint, hleast⟩
  · cases hmore.symm.trans heq
    exact iff_of_true hsound fun h => h.2.1.elim hnone
  · cases hmore.symm.trans heq
    rw [hsound.takes_iff hwf htakes hhint, skips_iff htwo hleast]
    simp only [not_exists, not_and, Bool.not_eq_false]

/-- One call: the hint stays sound unless a free page is skipped. -/
theorem pmmUse_hintSound
    (h : s.Consistent kernelEnd) (hsound : HintSound s.pmm) (huse : PmmUse s e s') :
    HintSound s'.pmm ↔ ¬ e.call.Skips s.pmm := by
  obtain ⟨hstep, hown⟩ := huse
  cases hstep with
  | allocPage c => exact iff_of_true (hsound.allocPage h.wf) id
  | allocPages c hcount hret => exact hsound.allocPages_iff h.wf hcount hret
  | freePage c haddr hfree => exact iff_of_true (hsound.freePage _) id
  | freePages c haddr hfree => exact iff_of_true (hsound.freePages _ _) id
  | markUsed => exact absurd hown id

/-- **The hint is sound until a free page is skipped.** In every state reached from
`pmm_init` by allocations and frees of allocated frames, none of which skipped a free
page, every available page below `g_pmm_first_free_page` is marked used; and the next
call keeps this if and only if it does not skip a free page either. -/
theorem pmm_hint_sound_iff {kernelEnd : Nat} (hk : KernelLinked kernelEnd) {es : List PmmEvent}
    {s : PmmSys} (hrun : Run (fun s e s' => PmmUse s e s' ∧ ¬ e.call.Skips s.pmm)
      (PmmSys.init kernelEnd) es s) :
    HintSound s.pmm ∧ ∀ e s', PmmUse s e s' → (HintSound s'.pmm ↔ ¬ e.call.Skips s.pmm) := by
  have hinv : s.Consistent kernelEnd ∧ HintSound s.pmm := by
    refine hrun.invariant (I := fun s => s.Consistent kernelEnd ∧ HintSound s.pmm) ?_
      ⟨PmmSys.init_consistent hk, PmmSys.init_hintSound hk⟩
    rintro s e s' ⟨h, hsound⟩ ⟨huse, hskip⟩
    exact ⟨pmmStep_consistent s e s' h huse.1, (pmmUse_hintSound h hsound huse).mpr hskip⟩
  exact ⟨hinv.2, fun e s' huse => pmmUse_hintSound hinv.1 hinv.2 huse⟩

/-- A kernel image of 3 MiB, and one page allocated. -/
theorem pmm_hint_sound_iff_first :
    ∃ e s, Run (fun s e s' => PmmUse s e s' ∧ ¬ e.call.Skips s.pmm)
        (PmmSys.init 0xFFFFFFFF80400000) [e] s ∧ HintSound s.pmm := by
  have hk := kernelLinked_four_mib
  have hrun : Run (fun s e s' => PmmUse s e s' ∧ ¬ e.call.Skips s.pmm)
      (PmmSys.init 0xFFFFFFFF80400000)
      [⟨1, .allocPage, (pmmAllocPage (PmmSys.init 0xFFFFFFFF80400000).pmm).1⟩]
      ⟨(pmmAllocPage (PmmSys.init 0xFFFFFFFF80400000).pmm).2, _⟩ :=
    .cons ⟨⟨PmmStep.allocPage _ 1, trivial⟩, id⟩ (.nil _)
  exact ⟨_, _, hrun, (pmm_hint_sound_iff hk hrun).1⟩

theorem grant_page (owner : Nat → Option Owner) (c : Nat) (hg : g ≠ 0) (k : Nat) :
    grant owner c (g * 4096) 1 k = if k = g then some (.caller c) else owner k := by
  have hiff : (g ≤ k ∧ k < g + 1) ↔ k = g := by omega
  rw [grant_apply owner c 1 hg]
  simp only [hiff]

/-- A free page at the hint with a used one behind it is passed over. -/
theorem pmmAllocPages_two_skips (h : p.WF) (hret : pmmAllocPages 0x20002 p 2 = some (r, p'))
    (hfree : pmmTestBit p p.firstFreePage = false)
    (hused : pmmTestBit p (p.firstFreePage + 1) = true) (hfit : Fits p 2 g) :
    p.firstFreePage < p'.firstFreePage ∧ pmmTestBit p' p.firstFreePage = false := by
  rcases pmmAllocPages_isLeast h (Nat.le_refl _) (by norm_num) (Nat.lt_succ_self 0x20001) with
    ⟨-, hnone⟩ | ⟨page, q, heq, htakes, hhint, hleast⟩
  · exact absurd hfit (hnone g)
  · cases hret.symm.trans heq
    have hfirst := hleast.1.first
    have hne : page ≠ p.firstFreePage := by
      rintro rfl
      rw [hleast.1.free _ (by omega) (by omega)] at hused
      cases hused
    refine ⟨by omega, ?_⟩
    rw [htakes.bits, hfree, decide_eq_false (by omega)]
    rfl

/-- The first of the last two pages is freed: the hint is lowered to it, and behind the one
that stays used everything is free. -/
theorem Pmm.Packed.freePage (hp : p.Packed (n + 2)) (hlo : 0x100 ≤ n)
    (hfirst : p.firstFreePage = n + 2) :
    (pmmFreePage p (n * 4096)).WF ∧ (pmmFreePage p (n * 4096)).firstFreePage = n ∧
      ∀ g, n ≤ g → g < 0xFF00 →
        pmmTestBit (pmmFreePage p (n * 4096)) g = decide (g = n + 1) := by
  have hhi := hp.hi
  have hpage := physToPage_mul n
  obtain ⟨hbits, hwf⟩ := pmmFreePage_spec hp.wf
    (show 0x100 ≤ physToPage (n * 4096) by omega) (by omega)
  have hbit : pmmTestBit p n = true := by
    rw [hp.bits n (by omega) (by omega), decide_eq_true (by omega)]
  refine ⟨hwf, ?_, fun g hg hg' => ?_⟩
  · rw [pmmFreePage, if_neg (by omega)]
    rw [hpage, if_pos hbit]
    exact if_pos (by omega)
  · rw [hbits, hp.bits g (by omega) hg', Bool.eq_iff_iff]
    simp only [Bool.and_eq_true, Bool.not_eq_true', decide_eq_false_iff_not, decide_eq_true_eq]
    omega

/-- While nothing has been freed, four calls put a free page below the hint: allocate
two pages, free the first one, and allocate two adjacent pages. -/
theorem Pmm.Packed.passes (hp : s.pmm.Packed n) (hn : n + 4 ≤ 0xFF00) :
    ∃ es s', Run PmmUse s es s' ∧ n < s'.pmm.firstFreePage ∧ pmmTestBit s'.pmm n = false := by
  have hlo := hp.lo
  have hpage := physToPage_mul n
  rcases hp.alloc with ⟨h0, -⟩ | ⟨hret1, -, hp1⟩
  · omega
  have hstep1 := PmmStep.allocPage s 1
  rw [hret1] at hstep1
  generalize (pmmAllocPage s.pmm).2 = p1 at hp1 hstep1
  rcases hp1.alloc with ⟨h0, -⟩ | ⟨hret2, -, hp2⟩
  · omega
  have hstep2 := PmmStep.allocPage ⟨p1, grant s.owner 1 (n * 4096) 1⟩ 1
  have hfirst2 : (pmmAllocPage p1).2.firstFreePage = n + 2 := by
    rcases pmmAllocPage_spec hp1.wf with ⟨hfail, -⟩ | ⟨g, hg, -, hhint, -⟩
    · rw [hfail] at hret2
      omega
    · omega
  rw [hret2] at hstep2
  generalize (pmmAllocPage p1).2 = p2 at hp2 hstep2 hfirst2
  -- the first page is the caller's to free
  have hown : grant (grant s.owner 1 (n * 4096) 1) 1 ((n + 1) * 4096) 1 n = some (.caller 1) := by
    rw [grant_page _ _ (by omega), if_neg (by omega), grant_page _ _ (by omega), if_pos rfl]
  generalize grant (grant s.owner 1 (n * 4096) 1) 1 ((n + 1) * 4096) 1 = owner at hstep2 hown
  rw [← hpage] at hown
  obtain ⟨hwf3, hfirst3, hbits⟩ := hp2.freePage hlo hfirst2
  have hstep3 := PmmStep.freePage ⟨p2, owner⟩ 1 (show n * 4096 < 2 ^ 64 by omega)
    fun _ => ⟨by omega, .inr hown⟩
  generalize pmmFreePage p2 (n * 4096) = p3 at hstep3 hbits hwf3 hfirst3
  -- the search finds no second page next to it
  have hfit : Fits p3 2 (n + 2) := by
    refine ⟨by omega, by rw [hwf3.total]; omega, fun g hg hg' => ?_⟩
    rw [hbits g (by omega) (by omega), decide_eq_false (by omega)]
  obtain ⟨⟨r, p4⟩, hret4⟩ := Option.isSome_iff_exists.mp
    (pmmAllocPages_returns hwf3 (show 2 < 2 ^ 64 by norm_num) (Nat.lt_succ_self 0x20001))
  have hstep4 := PmmStep.allocPages ⟨p3, release owner (n * 4096) 1⟩ 1 (by norm_num) hret4
  obtain ⟨hlt, hbit4⟩ := pmmAllocPages_two_skips hwf3 hret4
    (by rw [hfirst3, hbits n (by omega) (by omega), decide_eq_false (by omega)])
    (by rw [hfirst3, hbits (n + 1) (by omega) (by omega), decide_eq_true rfl]) hfit
  rw [hfirst3] at hlt hbit4
  exact ⟨_, _, .cons ⟨hstep1, trivial⟩ (.cons ⟨hstep2, trivial⟩ (.cons ⟨hstep3, fun _ => hown⟩
    (.cons ⟨hstep4, trivial⟩ (.nil _)))), hlt, hbit4⟩

/-- **A free page below the hint**, behind a kernel image of 3 MiB. -/
theorem pmm_hint_passes_free_page :
    KernelLinked 0xFFFFFFFF80400000 ∧ kernelImageEnd 0xFFFFFFFF80400000 ≤ 0x10000 ∧
      ∃ es s, Run PmmUse (PmmSys.init 0xFFFFFFFF80400000) es s ∧ ¬ HintSound s.pmm := by
  have hk := kernelLinked_four_mib
  have himage : kernelImageEnd 0xFFFFFFFF80400000 = 0x400 := rfl
  have hp : (PmmSys.init 0xFFFFFFFF80400000).pmm.Packed 0x400 := by
    have hp := pmmInit_packed hk
    rwa [himage] at hp
  obtain ⟨es, s, hrun, hlt, hclear⟩ := hp.passes (by norm_num)
  refine ⟨hk, by omega, es, s, hrun, fun hsound => ?_⟩
  rw [hsound 0x400 (by norm_num) hlt] at hclear
  cases hclear

/-! ## Exhaustion -/

/-- The frames from `0xFF00` on stay as `pmm_init` left them: the kernel's or nobody's. -/
def TailKept (kernelEnd : Nat) (s : PmmSys) : Prop :=
  ∀ g, 0xFF00 ≤ g → s.owner g = if g < kernelImageEnd kernelEnd then some .kernel else none

theorem TailKept.not_caller (h : TailKept kernelEnd s)
    (hg : 0xFF00 ≤ g) (c : Nat) : s.owner g ≠ some (.caller c) := by
  rw [h g hg]
  split <;> simp

/-- No call of a single page reaches the frames from `0xFF00` on. -/
theorem pmmUse_tailKept
    (h : s.Consistent kernelEnd) (htail : TailKept kernelEnd s) (huse : PmmUse s e s')
    (hsingle : e.call.SinglePage) : TailKept kernelEnd s' := by
  obtain ⟨hstep, hown⟩ := huse
  intro g hg
  rw [← htail g hg]
  cases hstep with
  | allocPage c =>
    show grant s.owner c (pmmAllocPage s.pmm).1 1 g = s.owner g
    rcases pmmAllocPage_spec h.wf with ⟨hfail, -⟩ | ⟨page, hpage, htakes, -⟩
    · rw [hfail]
      exact if_neg fun hne => hne.1 rfl
    · have hlo := htakes.lo
      have hhi := htakes.hi
      rw [hpage, grant_page _ _ (by omega), if_neg (by omega)]
  | @freePage c addr haddr hfree =>
    -- the frame that is freed is a caller's, so it is another one
    refine if_neg ?_
    rintro ⟨hne, i, hi, rfl⟩
    have hcaller := hown hne
    rw [show i = 0 by omega, Nat.zero_mul, Nat.add_zero, wrap64_of_lt haddr] at hg
    exact htail.not_caller hg c hcaller
  | allocPages => exact absurd hsingle id
  | freePages => exact absurd hsingle id
  | markUsed => exact absurd hsingle id

/-- The free-memory figure is zero when every frame of the region is used. -/
theorem pmmGetFreeMemory_eq_zero_iff (h : p.WF) :
    pmmGetFreeMemory p = 0 ↔ ∀ g, 0x100 ≤ g → g < 0x10000 → pmmTestBit p g = true := by
  have hle := usedCount_le p
  have hfree : pmmGetFreeMemory p = (0xFF00 - usedCount p) * 4096 := by
    unfold pmmGetFreeMemory pmmPageSize
    rw [h.total, h.used, sub64_of_le hle (by norm_num), wrap64_of_lt (by omega)]
  have hcount : usedCount p = 0xFF00 ↔ ∀ g ∈ Finset.Ico 0x100 0x10000, pmmTestBit p g = true := by
    rw [← Finset.card_filter_eq_iff, Nat.card_Ico]
    rfl
  constructor
  · intro h0 g hlo hhi
    exact hcount.mp (by omega) g (Finset.mem_Ico.mpr ⟨hlo, hhi⟩)
  · intro hall
    have hfull := hcount.mpr fun g hg => hall g (Finset.mem_Ico.mp hg).1 (Finset.mem_Ico.mp hg).2
    omega

/-- With a sound hint `pmm_alloc_page` fails only when there is no free page below the
end of its search. -/
theorem pmmAllocPage_eq_null_iff (h : p.WF) (hsound : HintSound p) :
    (pmmAllocPage p).1 = 0 ↔ ∀ g, 0x100 ≤ g → g < 0xFF00 → pmmTestBit p g = true := by
  rcases pmmAllocPage_spec h with ⟨hfail, hused⟩ | ⟨g, hg, htakes, -⟩
  · refine iff_of_true (by rw [hfail]) fun g hlo hhi => ?_
    rcases Nat.lt_or_ge g p.firstFreePage with hbelow | habove
    · exact hsound g hlo hbelow
    · exact hused g habove hhi
  · have hlo := htakes.lo
    have hhi := htakes.hi
    refine iff_of_false (by omega) fun hall => ?_
    have hset := hall g hlo (by omega)
    rw [htakes.clear g (Nat.le_refl _) (by omega)] at hset
    cases hset

/-- What calls of single pages keep. -/
structure SinglePages (kernelEnd : Nat) (s : PmmSys) : Prop where
  consistent : s.Consistent kernelEnd
  hint : HintSound s.pmm
  tail : TailKept kernelEnd s

theorem SinglePages.init (hk : KernelLinked kernelEnd) :
    SinglePages kernelEnd (PmmSys.init kernelEnd) :=
  ⟨PmmSys.init_consistent hk, PmmSys.init_hintSound hk, fun _ _ => rfl⟩

theorem SinglePages.step
    (h : SinglePages kernelEnd s) (huse : PmmUse s e s') (hsingle : e.call.SinglePage) :
    SinglePages kernelEnd s' := by
  refine ⟨pmmStep_consistent s e s' h.consistent huse.1, ?_,
    pmmUse_tailKept h.consistent h.tail huse hsingle⟩
  refine (pmmUse_hintSound h.consistent h.hint huse).mpr ?_
  cases hcall : e.call <;> rw [hcall] at hsingle <;> first | exact id | exact hsingle.elim

/-- **Exhaustion.** In every state reached from `pmm_init` by `pmm_alloc_page` and
`pmm_free_page` (of pages the caller holds), no page from `0xFF00` on was handed out, and
"`pmm_alloc_page` returns `NULL` exactly when `pmm_get_free_memory()` is `0`" holds if
and only if some page below `0xFF00` is free or the kernel image covers the region. -/
theorem pmm_exhaustion_iff {kernelEnd : Nat} (hk : KernelLinked kernelEnd) {es : List PmmEvent}
    {s : PmmSys} (hrun : Run (fun s e s' => PmmUse s e s' ∧ e.call.SinglePage)
      (PmmSys.init kernelEnd) es s) :
    (((pmmAllocPage s.pmm).1 = 0 ↔ pmmGetFreeMemory s.pmm = 0) ↔
      (∃ g, 0x100 ≤ g ∧ g < 0xFF00 ∧ pmmTestBit s.pmm g = false) ∨
        0x10000 ≤ kernelImageEnd kernelEnd) ∧
    ∀ g c, 0xFF00 ≤ g → s.owner g ≠ some (.caller c) := by
  have hinv : SinglePages kernelEnd s :=
    hrun.invariant (fun _ _ _ h hstep => h.step hstep.1 hstep.2) (.init hk)
  refine ⟨?_, fun g c hg => hinv.tail.not_caller hg c⟩
  have hwf := hinv.consistent.wf
  rw [pmmAllocPage_eq_null_iff hwf hinv.hint, pmmGetFreeMemory_eq_zero_iff hwf]
  have htail : ∀ g, 0xFF00 ≤ g → g < 0x10000 →
      pmmTestBit s.pmm g = decide (g < kernelImageEnd kernelEnd) := by
    intro g hlo hhi
    rw [hinv.consistent.owned g (by omega) hhi, hinv.tail g hlo]
    split <;> rename_i hker <;> simp [hker]
  constructor
  · intro hiff
    by_cases hfree : ∃ g, 0x100 ≤ g ∧ g < 0xFF00 ∧ pmmTestBit s.pmm g = false
    · exact .inl hfree
    · -- every page below `0xFF00` is used, so the last one of the region must be too
      right
      have hall : ∀ g, 0x100 ≤ g → g < 0xFF00 → pmmTestBit s.pmm g = true := by
        intro g hlo hhi
        by_contra hclear
        exact hfree ⟨g, hlo, hhi, by simpa using hclear⟩
      have hlast := hiff.mp hall 0xFFFF (by norm_num) (by norm_num)
      rw [htail 0xFFFF (by norm_num) (by norm_num), decide_eq_true_eq] at hlast
      omega
  · rintro (⟨g, hlo, hhi, hclear⟩ | hfull)
    · refine iff_of_false (fun hall => ?_) fun hall => ?_
      · rw [hall g hlo hhi] at hclear
        cases hclear
      · rw [hall g hlo (by omega)] at hclear
        cases hclear
    · constructor
      · intro hall g hlo hhi
        rcases Nat.lt_or_ge g 0xFF00 with hlow | hhigh
        · exact hall g hlo hlow
        · rw [htail g hhigh hhi, decide_eq_true (by omega)]
      · exact fun hall g hlo hhi => hall g hlo (by omega)

/-- The state that `pmm_init` leaves behind a kernel image of 3 MiB. -/
theorem pmm_exhaustion_iff_start :
    (pmmAllocPage (PmmSys.init 0xFFFFFFFF80400000).pmm).1 = 0 ↔
      pmmGetFreeMemory (PmmSys.init 0xFFFFFFFF80400000).pmm = 0 := by
  have hk := kernelLinked_four_mib
  refine ((pmm_exhaustion_iff hk (.nil _)).1).mpr (.inl ⟨0x400, by norm_num, by norm_num, ?_⟩)
  exact (pmmInit_spec hk).2.2 0x400 (by norm_num) (by norm_num)

theorem Pmm.Packed.fill (hp : s.pmm.Packed n) :
    ∃ es s', Run (fun s e s' => PmmUse s e s' ∧ e.call.SinglePage) s es s' ∧
      s'.pmm.Packed 0xFF00 := by
  have hhi := hp.hi
  generalize hk : 0xFF00 - n = k
  induction k generalizing s n with
  | zero =>
    refine ⟨[], s, .nil s, ?_⟩
    rwa [show 0xFF00 = n by omega]
  | succ k ih =>
    rcases hp.alloc with ⟨h0, -⟩ | ⟨-, -, hp'⟩
    · omega
    · obtain ⟨es, s', hrun, hfull⟩ := ih (s := ⟨(pmmAllocPage s.pmm).2, _⟩) hp' hp'.hi (by omega)
      exact ⟨_, s', .cons ⟨⟨PmmStep.allocPage s 1, trivial⟩, trivial⟩ hrun, hfull⟩

/-- **Free memory that is never handed out**: allocate until the first failure. -/
theorem pmm_fails_with_free_memory :
    KernelLinked 0xFFFFFFFF80400000 ∧
      ∃ es s, Run (fun s e s' => PmmUse s e s' ∧ e.call.SinglePage)
          (PmmSys.init 0xFFFFFFFF80400000) es s ∧
        (pmmAllocPage s.pmm).1 = 0 ∧ pmmGetFreeMemory s.pmm ≠ 0 := by
  have hk := kernelLinked_four_mib
  obtain ⟨es, s, hrun, hfull⟩ := Pmm.Packed.fill
    (s := PmmSys.init 0xFFFFFFFF80400000) (pmmInit_packed hk)
  have hinv : SinglePages 0xFFFFFFFF80400000 s :=
    hrun.invariant (fun _ _ _ h hstep => h.step hstep.1 hstep.2) (.init hk)
  refine ⟨hk, es, s, hrun, ?_, fun h0 => ?_⟩
  · rcases hfull.alloc with ⟨-, hfail⟩ | ⟨-, htakes, -⟩
    · rw [hfail]
    · have := htakes.hi
      omega
  · -- page `0xFFFF` is free
    have hset := (pmmGetFreeMemory_eq_zero_iff hfull.wf).mp h0 0xFFFF (by norm_num) (by norm_num)
    rw [hinv.consistent.owned _ (by norm_num) (by norm_num), hinv.tail _ (by norm_num)] at hset
    cases hset

/-! ## First fit in reachable states -/

/-- **Skipping first fit is plain first fit.** In every state reached from `pmm_init` by
allocations and frees of allocated pages, `pmm_alloc_pages(count)` returns for every
64-bit `count ≥ 2`: the least page from the hint on whose `count` pages lie below
`g_pmm_total_pages` and are free, with exactly their bits set; or `NULL` with nothing
changed, which is the case exactly when there is no such page. -/
theorem pmm_alloc_pages_first_fit {kernelEnd : Nat} (hk : KernelLinked kernelEnd)
    {es : List PmmEvent} {s : PmmSys} (hrun : Run PmmUse (PmmSys.init kernelEnd) es s)
    {count : Nat} (hcount : 2 ≤ count) (hlt : count < 2 ^ 64) :
    ∃ r p', (∃ n, ∀ fuel, n ≤ fuel → pmmAllocPages fuel s.pmm count = some (r, p')) ∧
      (∀ page, IsLeast {g | Fits s.pmm count g} page → r = page * 4096 ∧
        ∀ g, pmmTestBit p' g = (decide (page ≤ g ∧ g < page + count) || pmmTestBit s.pmm g)) ∧
      (r = 0 ∧ p' = s.pmm ↔ ¬ ∃ page, Fits s.pmm count page) ∧
      (r = 0 → p' = s.pmm) := by
  have hwf : s.pmm.WF := by
    refine (hrun.invariant (I := PmmSys.Consistent kernelEnd) ?_ (PmmSys.init_consistent hk)).wf
    exact fun s e s' h huse => pmmStep_consistent s e s' h huse.1
  rcases pmmAllocPages_isLeast hwf hcount hlt (Nat.lt_succ_self 0x20001) with
    ⟨hret, hnone⟩ | ⟨g, p', hret, htakes, -, hleast⟩
  · refine ⟨0, s.pmm, ⟨0x20002, fun fuel hfuel => pmmAllocPages_mono hfuel hret⟩,
      fun page hpage => absurd hpage.1 (hnone page), ?_, fun _ => rfl⟩
    exact iff_of_true ⟨rfl, rfl⟩ fun ⟨page, hfit⟩ => hnone page hfit
  · have hlo := htakes.lo
    refine ⟨_, p', ⟨0x20002, fun fuel hfuel => pmmAllocPages_mono hfuel hret⟩,
      fun page hpage => ?_, ?_, fun h0 => by omega⟩
    · rw [hpage.unique hleast]
      exact ⟨rfl, htakes.bits⟩
    · exact iff_of_false (fun h0 => by omega) fun hnone => hnone ⟨g, hleast.1⟩

/-- Two pages, right after `pmm_init`: the first ones behind the kernel image. -/
theorem pmm_alloc_pages_first_fit_two :
    ∃ p' n, ∀ fuel, n ≤ fuel →
      pmmAllocPages fuel (PmmSys.init 0xFFFFFFFF80400000).pmm 2 = some (0x400 * 4096, p') := by
  have hk := kernelLinked_four_mib
  have hbits := (pmmInit_spec hk).2.2
  rw [show kernelImageEnd 0xFFFFFFFF80400000 = 0x400 from rfl] at hbits
  have hleast : IsLeast {g | Fits (PmmSys.init 0xFFFFFFFF80400000).pmm 2 g} 0x400 := by
    refine ⟨⟨(pmmInit_spec hk).2.1.le.trans (by norm_num), ?_, fun g hlo hhi => ?_⟩,
      fun g hfit => ?_⟩
    · exact (pmmInit_spec hk).1.total.symm ▸ (by norm_num)
    · exact (hbits g (by omega) (by omega)).trans (decide_eq_false (by omega))
    · by_contra hlow
      have hfirst := (pmmInit_spec hk).2.1.symm.le.trans hfit.first
      have hfree := hfit.free g (Nat.le_refl _) (by omega)
      rw [show (PmmSys.init 0xFFFFFFFF80400000).pmm = pmmInit 0xFFFFFFFF80400000 .bss from rfl,
        hbits g hfirst (by omega), decide_eq_false_iff_not] at hfree
      omega
  obtain ⟨r, p', ⟨n, hret⟩, hfits, -⟩ := pmm_alloc_pages_first_fit hk (.nil _) (Nat.le_refl 2)
    (by norm_num)
  rw [(hfits 0x400 hleast).1] at hret
  exact ⟨p', n, hret⟩

end GosKernel.Mm
