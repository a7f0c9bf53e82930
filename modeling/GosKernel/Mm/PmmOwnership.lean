import GosKernel.Lib.Run
import GosKernel.Mm.Pmm

/-!
# Physical page ownership

The abstract view of the frame allocator is an ownership map: which caller holds
each frame, the frames of the kernel image being held by the kernel for good.
`PmmStep` runs the allocator next to that map. The map is bookkeeping the allocator
does not see; it says what callers are entitled to: they free only frames they hold,
or frames nobody holds any more.

The invariant `PmmSys.Consistent` ties the two together: among the available frames,
the set bits are the owned ones.
-/

namespace GosKernel.Mm

/-- Who holds a frame. -/
inductive Owner
  | kernel
  | caller (c : Nat)

/-- The allocator and the ownership map. -/
structure PmmSys where
  pmm : Pmm
  owner : Nat → Option Owner

/-- The calls callers make. -/
inductive PmmCall
  | allocPage
  | allocPages (count : Nat)
  | freePage (addr : Nat)
  | freePages (addr count : Nat)
  | markUsed (addr pages : Nat)

/-- A call by a caller, with the value it returned (`0` for the `void` calls). -/
structure PmmEvent where
  caller : Nat
  call : PmmCall
  ret : Nat

/-- The number of frames an allocation asks for. -/
def PmmCall.requested : PmmCall → Option Nat
  | .allocPage => some 1
  | .allocPages count => some count
  | _ => none

/-- The caller receives the `n` frames at the returned address. -/
def grant (owner : Nat → Option Owner) (c ret n : Nat) : Nat → Option Owner := fun g =>
  if ret ≠ 0 ∧ physToPage ret ≤ g ∧ g < physToPage ret + n then some (.caller c) else owner g

theorem grant_apply (owner : Nat → Option Owner) (c n : Nat) {g : Nat} (hg : g ≠ 0) (k : Nat) :
    grant owner c (g * 4096) n k =
      if g ≤ k ∧ k < g + n then some (.caller c) else owner k := by
  have hne : g * 4096 ≠ 0 := by omega
  unfold grant
  rw [physToPage_mul]
  simp only [ne_eq, hne, not_false_eq_true, true_and]

/-- The frames at `n` successive page addresses become free. -/
def release (owner : Nat → Option Owner) (addr n : Nat) : Nat → Option Owner := fun g =>
  if addr ≠ 0 ∧ ∃ i < n, g = physToPage (wrap64 (addr + i * pmmPageSize)) then none else owner g

/-- The free frames of a range become the caller's. -/
def reserve (owner : Nat → Option Owner) (c addr n : Nat) : Nat → Option Owner := fun g =>
  if (physToPage addr ≤ g ∧ g < physToPage addr + n) ∧ (owner g).isNone then some (.caller c)
  else owner g

/-- A caller may pass a frame to `pmm_free_page` if it holds it, or if nobody does
(a repeated free of a frame that has not been handed out again). -/
def MayFree (owner : Nat → Option Owner) (c g : Nat) : Prop :=
  (0x100 ≤ g ∧ g < 0x10000) ∧
    (owner g = none ∨ owner g = some (.caller c))

/-- One call. -/
inductive PmmStep : PmmSys → PmmEvent → PmmSys → Prop
  | allocPage (s : PmmSys) (c : Nat) :
      PmmStep s ⟨c, .allocPage, (pmmAllocPage s.pmm).1⟩
        ⟨(pmmAllocPage s.pmm).2, grant s.owner c (pmmAllocPage s.pmm).1 1⟩
  | allocPages (s : PmmSys) (c : Nat) {count fuel ret : Nat} {p' : Pmm} (hcount : count < 2 ^ 64)
      (hret : pmmAllocPages fuel s.pmm count = some (ret, p')) :
      PmmStep s ⟨c, .allocPages count, ret⟩ ⟨p', grant s.owner c ret count⟩
  | freePage (s : PmmSys) (c : Nat) {addr : Nat} (haddr : addr < 2 ^ 64)
      (hfree : addr ≠ 0 → MayFree s.owner c (physToPage addr)) :
      PmmStep s ⟨c, .freePage addr, 0⟩ ⟨pmmFreePage s.pmm addr, release s.owner addr 1⟩
  | freePages (s : PmmSys) (c : Nat) {addr count : Nat} (haddr : addr < 2 ^ 64)
      (hfree : addr ≠ 0 → ∀ i < count,
        MayFree s.owner c (physToPage (wrap64 (addr + i * pmmPageSize)))) :
      PmmStep s ⟨c, .freePages addr count, 0⟩
        ⟨pmmFreePages s.pmm addr count, release s.owner addr count⟩
  | markUsed (s : PmmSys) (c : Nat) {addr pages : Nat}
      (hregion : 0x100 ≤ physToPage addr ∧ physToPage addr + pages ≤ 0x10000) :
      PmmStep s ⟨c, .markUsed addr pages, 0⟩
        ⟨pmmMarkUsed s.pmm addr pages, reserve s.owner c addr pages⟩

/-- The state after `pmm_init`: the kernel holds its image. -/
def PmmSys.init (kernelEnd : Nat) : PmmSys where
  pmm := pmmInit kernelEnd .bss
  owner g := if g < kernelImageEnd kernelEnd then some .kernel else none

/-- The set bits are the owned frames, and the kernel keeps its image. -/
structure PmmSys.Consistent (kernelEnd : Nat) (s : PmmSys) : Prop where
  wf : s.pmm.WF
  owned : ∀ g, 0x100 ≤ g → g < 0x10000 → pmmTestBit s.pmm g = (s.owner g).isSome
  kernel : ∀ g, 0x100 ≤ g → g < 0x10000 → g < kernelImageEnd kernelEnd →
    s.owner g = some .kernel

variable {kernelEnd n : Nat} {p' : Pmm} {s : PmmSys}

theorem PmmSys.init_consistent (hk : KernelLinked kernelEnd) :
    (PmmSys.init kernelEnd).Consistent kernelEnd := by
  obtain ⟨hwf, -, hbits⟩ := pmmInit_spec hk
  refine ⟨hwf, fun g hg hg' => ?_, fun g _ _ hker => if_pos hker⟩
  show pmmTestBit (pmmInit kernelEnd .bss) g = (if _ then _ else none : Option Owner).isSome
  rw [hbits g hg hg']
  split <;> rename_i h <;> simp [h]

/-- Frames an allocation takes had no owner. -/
theorem PmmSys.Consistent.unowned_of_takes
    (h : s.Consistent kernelEnd) {g k : Nat} (ht : Takes s.pmm p' g n)
    (hk : g ≤ k) (hk' : k < g + n) : s.owner k = none ∧ kernelImageEnd kernelEnd ≤ k := by
  have hlo := ht.lo
  have hhi := ht.hi
  have hfree : s.owner k = none := by
    have := h.owned k (by omega) (by omega)
    rw [ht.clear k hk hk'] at this
    exact Option.isNone_iff_eq_none.mp (by simpa using this.symm)
  refine ⟨hfree, Nat.le_of_not_lt fun hker => ?_⟩
  rw [h.kernel k (by omega) (by omega) hker] at hfree
  cases hfree

/-- Handing out the frames an allocation took keeps the bookkeeping consistent. -/
theorem PmmSys.Consistent.grant (h : s.Consistent kernelEnd) {c ret : Nat}
    (hret : (ret = 0 ∧ p' = s.pmm) ∨
      ∃ g, ret = g * 4096 ∧ Takes s.pmm p' g n ∧ p'.firstFreePage = g + n) :
    PmmSys.Consistent kernelEnd ⟨p', Mm.grant s.owner c ret n⟩ := by
  rcases hret with ⟨rfl, rfl⟩ | ⟨g, rfl, ht, -⟩
  · have hsame : Mm.grant s.owner c 0 n = s.owner := by
      funext k
      exact if_neg fun hk => hk.1 rfl
    exact ⟨h.wf, h.owned, h.kernel⟩
  · have hlo := ht.lo
    have hgrant := grant_apply s.owner c n (show g ≠ 0 by omega)
    refine ⟨ht.wf, fun k hk hk' => ?_, fun k hk hk' hker => ?_⟩
    · show pmmTestBit p' k = (Mm.grant s.owner c (g * 4096) n k).isSome
      rw [ht.bits k, hgrant k, h.owned k hk hk']
      by_cases hin : g ≤ k ∧ k < g + n <;> simp [hin]
    · show Mm.grant s.owner c (g * 4096) n k = some .kernel
      have hout : ¬ (g ≤ k ∧ k < g + n) := fun hin => by
        have := (h.unowned_of_takes ht hin.1 hin.2).2
        omega
      rw [hgrant k, if_neg hout]
      exact h.kernel k hk hk' hker

/-- Freeing frames one may free keeps the bookkeeping consistent. -/
theorem PmmSys.Consistent.release (h : s.Consistent kernelEnd) {c addr : Nat} (hne : addr ≠ 0)
    (hfree : ∀ i < n, MayFree s.owner c (physToPage (wrap64 (addr + i * pmmPageSize))))
    (hwf : p'.WF) (hbits : ∀ k, pmmTestBit p' k
      = (!decide (∃ i < n, k = physToPage (wrap64 (addr + i * pmmPageSize))) &&
          pmmTestBit s.pmm k)) : PmmSys.Consistent kernelEnd ⟨p', Mm.release s.owner addr n⟩ := by
  have hrel : ∀ k, Mm.release s.owner addr n k
      = if ∃ i < n, k = physToPage (wrap64 (addr + i * pmmPageSize)) then none
        else s.owner k := by
    intro k
    unfold Mm.release
    simp only [ne_eq, hne, not_false_eq_true, true_and]
  refine ⟨hwf, fun k hk hk' => ?_, fun k hk hk' hker => ?_⟩
  · show pmmTestBit p' k = (Mm.release s.owner addr n k).isSome
    rw [hbits k, hrel k, h.owned k hk hk']
    by_cases hin : ∃ i < n, k = physToPage (wrap64 (addr + i * pmmPageSize)) <;> simp [hin]
  · show Mm.release s.owner addr n k = some .kernel
    -- the kernel's frames are nobody's to free
    have hout : ¬ ∃ i < n, k = physToPage (wrap64 (addr + i * pmmPageSize)) := by
      rintro ⟨i, hi, rfl⟩
      obtain ⟨-, hown⟩ := hfree i hi
      rw [h.kernel _ hk hk' hker] at hown
      rcases hown with hnone | hcaller
      · cases hnone
      · cases hcaller
    rw [hrel k, if_neg hout]
    exact h.kernel k hk hk' hker

/-- Every call keeps the bookkeeping consistent. -/
theorem pmmStep_consistent (s : PmmSys) (e : PmmEvent) (s' : PmmSys)
    (h : s.Consistent kernelEnd) (hstep : PmmStep s e s') : s'.Consistent kernelEnd := by
  cases hstep with
  | allocPage c =>
    refine h.grant ?_
    rcases pmmAllocPage_spec h.wf with ⟨hfail, -⟩ | ⟨g, hg, htakes, hhint, -⟩
    · rw [hfail]
      exact .inl ⟨rfl, rfl⟩
    · exact .inr ⟨g, hg, htakes, hhint⟩
  | allocPages c hcount hret => exact h.grant (pmmAllocPages_spec h.wf hcount hret)
  | @freePage c addr haddr hfree =>
    by_cases hne : addr = 0
    · subst hne
      exact ⟨h.wf, h.owned, h.kernel⟩
    · have hone : ∀ k, (∃ i < 1, k = physToPage (wrap64 (addr + i * pmmPageSize))) ↔
          k = physToPage addr := by
        simp [wrap64_of_lt haddr]
      obtain ⟨⟨hlo, hhi⟩, -⟩ := hfree hne
      obtain ⟨hbits, hwf⟩ := pmmFreePage_spec h.wf hlo hhi
      refine h.release hne (c := c) (fun i hi => ?_) hwf fun k => ?_
      · rw [show i = 0 by omega, Nat.zero_mul, Nat.add_zero, wrap64_of_lt haddr]
        exact hfree hne
      · rw [hbits k, decide_eq_decide.mpr (hone k)]
  | @freePages c addr count haddr hfree =>
    by_cases hne : addr = 0
    · subst hne
      exact ⟨h.wf, h.owned, h.kernel⟩
    · obtain ⟨hbits, hwf⟩ := pmmFreePages_spec h.wf hne fun i hi => (hfree hne i hi).1
      exact h.release hne (hfree hne) hwf hbits
  | @markUsed c addr pages hregion =>
    obtain ⟨hbits, hwf⟩ := pmmMarkUsed_spec h.wf addr pages (by unfold pmmMaxPages; omega)
    refine ⟨hwf, fun k hk hk' => ?_, fun k hk hk' hker => ?_⟩
    · show pmmTestBit (pmmMarkUsed s.pmm addr pages) k = (reserve s.owner c addr pages k).isSome
      rw [hbits k, h.owned k hk hk', reserve]
      by_cases hin : physToPage addr ≤ k ∧ k < physToPage addr + pages
      · cases hown : s.owner k <;> simp [hin]
      · simp [hin]
    · show reserve s.owner c addr pages k = some .kernel
      rw [reserve, if_neg, h.kernel k hk hk' hker]
      rw [h.kernel k hk hk' hker]
      simp

/-- What an allocation returns: aligned frames of the available region that nobody
held. -/
theorem PmmSys.Consistent.returned {s' : PmmSys} {e : PmmEvent}
    (h : s.Consistent kernelEnd) (hstep : PmmStep s e s')
    (hn : e.call.requested = some n) (hret : e.ret ≠ 0) :
    e.ret % 4096 = 0 ∧ 0x100000 ≤ e.ret ∧ e.ret + n * 4096 ≤ 0x10000000 ∧
      ∀ g, e.ret / 4096 ≤ g → g < e.ret / 4096 + n →
        s.owner g = none ∧ kernelImageEnd kernelEnd ≤ g := by
  have htakes : ∃ g p', e.ret = g * 4096 ∧ Takes s.pmm p' g n := by
    cases hstep with
    | allocPage c =>
      cases hn
      rcases pmmAllocPage_spec h.wf with ⟨hfail, -⟩ | ⟨g, hg, ht, -⟩
      · exact absurd (congrArg Prod.fst hfail) hret
      · exact ⟨g, _, hg, ht⟩
    | allocPages c hcount hpages =>
      cases hn
      rcases pmmAllocPages_spec h.wf hcount hpages with ⟨h0, -⟩ | ⟨g, hg, ht, -⟩
      · exact absurd h0 hret
      · exact ⟨g, _, hg, ht⟩
    | freePage => cases hn
    | freePages => cases hn
    | markUsed => cases hn
  obtain ⟨g, p', hg, ht⟩ := htakes
  have hlo := ht.lo
  have hhi := ht.hi
  refine ⟨by omega, by omega, by omega, fun k hk hk' => ?_⟩
  exact h.unowned_of_takes ht (by omega) (by omega)

/-- **Physical page ownership.** In every state reached from `pmm_init` by
allocations, frees of frames the caller holds or nobody holds, and reservations
inside the available region: whatever an allocation returns next is page-aligned,
lies inside `[0x100000, 0x10000000)`, and consists of frames that neither an earlier
caller nor the kernel image holds; the counter is the number of set bits among the
available pages, so the free-memory figure does not underflow; and every call
returns. -/
theorem pmm_page_ownership {kernelEnd : Nat} (hk : KernelLinked kernelEnd) {es : List PmmEvent}
    {s : PmmSys} (hrun : Run PmmStep (PmmSys.init kernelEnd) es s) :
    (∀ e s' n, PmmStep s e s' → e.call.requested = some n → e.ret ≠ 0 →
      e.ret % 4096 = 0 ∧ 0x100000 ≤ e.ret ∧ e.ret + n * 4096 ≤ 0x10000000 ∧
        ∀ g, e.ret / 4096 ≤ g → g < e.ret / 4096 + n →
          s.owner g = none ∧ kernelImageEnd kernelEnd ≤ g) ∧
      s.pmm.usedPages = usedCount s.pmm ∧
      pmmGetFreeMemory s.pmm = (s.pmm.totalPages - usedCount s.pmm) * 4096 ∧
      usedCount s.pmm ≤ s.pmm.totalPages ∧
      ∀ count, count < 2 ^ 64 → ∃ fuel, (pmmAllocPages fuel s.pmm count).isSome := by
  have h : s.Consistent kernelEnd :=
    hrun.invariant pmmStep_consistent (PmmSys.init_consistent hk)
  have hle := h.wf.used_le
  have htotal := h.wf.total
  rw [h.wf.used] at hle
  refine ⟨fun e s' n hstep hn hret => h.returned hstep hn hret, h.wf.used, ?_, hle,
    fun count hcount => ⟨0x20002, pmmAllocPages_returns h.wf hcount (by norm_num)⟩⟩
  unfold pmmGetFreeMemory pmmPageSize
  rw [h.wf.used, sub64_of_le hle (by omega), wrap64_of_lt (by omega)]

/-- A kernel image that ends at 4 MiB; one allocation has been made. -/
theorem pmm_page_ownership_first :
    ∃ s, Run PmmStep (PmmSys.init 0xFFFFFFFF80400000)
        [⟨1, .allocPage, (pmmAllocPage (pmmInit 0xFFFFFFFF80400000 .bss)).1⟩] s ∧
      s.pmm.usedPages = usedCount s.pmm := by
  have hrun := Run.cons (PmmStep.allocPage (PmmSys.init 0xFFFFFFFF80400000) 1) (Run.nil _)
  exact ⟨_, hrun, (pmm_page_ownership kernelLinked_four_mib hrun).2.1⟩

end GosKernel.Mm
