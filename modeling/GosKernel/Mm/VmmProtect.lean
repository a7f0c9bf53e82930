import GosKernel.Mm.DirectMap
import GosKernel.Mm.VmmRights

/-!
# Changing the protection of a page

`vmm_protect_page` looks the page up, unmaps it and maps it again with the new flags.
The tables of the page are there already, so that mapping it again needs no frame and
the page keeps its own (`vmmProtectPage_spec`). The lookup takes `0` for "not mapped":
the first address of a page that is mapped to frame `0` is refused, and `vmm_init` maps
two such pages.
-/

namespace GosKernel.Mm

open Exec

/-! ## Frames and offsets -/

/-- The frame of an address is found again in a physical address inside it. -/
theorem pageMask_or_offset (x virt : Nat) :
    pageMask (pageMask x ||| (virt &&& 0xFFF)) = pageMask x := by
  unfold pageMask
  rw [Nat.and_or_distrib_right, Nat.and_assoc, Nat.and_self, Nat.and_assoc,
    show 0xFFF &&& 0xFFFFFFFFFFFFF000 = 0 from rfl, Nat.and_zero, Nat.or_zero]

theorem pageMask_or_offset_lt (x virt : Nat) : pageMask x ||| (virt &&& 0xFFF) < 2 ^ 64 := by
  refine Nat.or_lt_two_pow (Nat.and_lt_two_pow _ (by norm_num)) ?_
  exact (Nat.and_le_right).trans_lt (by norm_num)

/-- A physical address is `0` only at the start of frame `0`. -/
theorem frame_or_offset_eq_zero (P virt : Nat) :
    P ||| (virt &&& 0xFFF) = 0 ↔ P = 0 ∧ virt % 4096 = 0 := by
  rw [Nat.or_eq_zero_iff, Nat.and_two_pow_sub_one_eq_mod virt 12]

/-- The frame of a translation comes from an entry. -/
theorem translate_eq_pageMask {σ : Type} {M : Machine σ} {R : TableReads M} {s : VmmState σ}
    {root virt P : Nat} (h : translate R s root virt = some P) : ∃ x, P = pageMask x := by
  obtain ⟨x, -, hx⟩ := Option.bind_eq_some_iff.mp h
  unfold entryFrame at hx
  split at hx
  · exact ⟨x, (Option.some.inj hx).symm⟩
  · cases hx

section Protect

variable {σ : Type} {M : Machine σ} {V : TableView M} {s : VmmState σ} {root : Nat}

/-- **`vmm_protect_page`** refuses a page without translation and the start of frame `0`,
and changes nothing then; otherwise it returns and every page keeps its frame. -/
theorem vmmProtectPage_spec (h : Tables V.toTableReads s root) (virt flags : Nat) :
    (Returns (vmmProtectPage M virt flags) s false s ∧
      ∀ P, translate V.toTableReads s root virt = some P → P = 0 ∧ virt % 4096 = 0) ∨
    ∃ s' P, Returns (vmmProtectPage M virt flags) s true s' ∧ Tables V.toTableReads s' root ∧
      translate V.toTableReads s root virt = some P ∧ ¬ (P = 0 ∧ virt % 4096 = 0) ∧
      ∀ w, translate V.toTableReads s' root w = translate V.toTableReads s root w := by
  have hphys := vmmGetPhys_spec h virt
  unfold vmmProtectPage
  cases htr : translate V.toTableReads s root virt with
  | none =>
    rw [htr] at hphys
    exact .inl ⟨hphys.bind_eq, nofun⟩
  | some P =>
    rw [htr] at hphys
    by_cases hzero : P ||| (virt &&& 0xFFF) = 0
    · refine .inl ⟨?_, fun Q hQ => ?_⟩
      · rw [Returns, hphys.bind_eq, if_pos hzero]
        rfl
      · rw [← Option.some.inj hQ]
        exact (frame_or_offset_eq_zero P virt).mp hzero
    · right
      obtain ⟨x, rfl⟩ := translate_eq_pageMask htr
      obtain ⟨T, hT⟩ : ∃ T, V.table s root (tablePath virt) = some T := by
        by_contra hx
        rw [translate_of_none (Option.eq_none_iff_forall_ne_some.mpr fun T hT => hx ⟨T, hT⟩)] at htr
        cases htr
      obtain ⟨s1, hunmap, h1, -, htab1, htr1⟩ := vmmUnmapPage_spec h virt
      -- the page table is still there, so no frame is needed to map the page again
      have hT1 := (htab1 (tablePath virt) (le_refl 3)).trans hT
      obtain ⟨hentry, hframe⟩ := entryFrame_leaf flags (pageMask_or_offset_lt x virt)
      obtain ⟨s', hset, h', -, -, htr'⟩ := setEntry_leaf h1 virt hT1 hentry
      have hmap : Returns (vmmMapPage M virt (pageMask x ||| (virt &&& 0xFFF)) flags) s1 () s' :=
        (vmmMapPage_present h1 virt _ flags hT1).trans hset
      refine ⟨s', pageMask x, ?_, h', rfl, fun hx => ?_, fun w => ?_⟩
      · rw [Returns, hphys.bind_eq, if_neg hzero, hunmap.bind_eq,
          hmap.bind_eq]
        rfl
      · exact hzero ((frame_or_offset_eq_zero _ virt).mpr hx)
      · rw [htr' w, htr1 w, hframe, pageMask_or_offset]
        -- an address of the same page has the same tables and index
        by_cases hpage : pageNumber w = pageNumber virt
        · obtain ⟨hpath, hindex⟩ := (tablePath_eq_iff w virt).mpr hpage
          rw [if_pos hpage, ← htr]
          unfold translate
          rw [hpath, hindex]
        · rw [if_neg hpage, if_neg hpage]

/-- The two lookups answer the same where the translations are the same. -/
theorem lookups_of_translate {s' : VmmState σ} (h : Tables V.toTableReads s root)
    (h' : Tables V.toTableReads s' root) {w : Nat}
    (htr : translate V.toTableReads s' root w = translate V.toTableReads s root w) :
    ∃ mapped phys, Returns (vmmIsMapped M w) s mapped s ∧ Returns (vmmIsMapped M w) s' mapped s' ∧
      Returns (vmmGetPhys M w) s phys s ∧ Returns (vmmGetPhys M w) s' phys s' := by
  have hmapped := vmmIsMapped_spec h' w
  have hphys := vmmGetPhys_spec h' w
  rw [htr] at hmapped hphys
  exact ⟨_, _, vmmIsMapped_spec h w, hmapped, vmmGetPhys_spec h w, hphys⟩

/-- The last operation on the page of `virt` mapped it to frame `0`. -/
def OnFrameZero (ops : List PageOp) (virt : Nat) : Prop :=
  ∃ v phys, lastTouch ops virt = some (.map v phys) ∧ pageMask phys = 0

theorem Refines.onFrameZero_iff {ops : List PageOp} (h : Refines V.toTableReads root ops s)
    (virt : Nat) : OnFrameZero ops virt ↔ translate V.toTableReads s root virt = some 0 := by
  rw [h.flat virt]
  constructor
  · rintro ⟨v, phys, hlast, hmask⟩
    rw [hlast, ← hmask]
    rfl
  · intro hzero
    match hlast : lastTouch ops virt with
    | none => simp [hlast] at hzero
    | some (.unmap _) => simp [hlast, PageOp.frame] at hzero
    | some (.map v phys) =>
      rw [hlast] at hzero
      exact ⟨v, phys, hlast, Option.some.inj hzero⟩

/-- **Changing protection keeps the mapping**, after any calls on a cleared PML4 and for
every address: `vmm_protect_page` returns `true` exactly for mapped pages if and only if
the address is not the first one of a page mapped to frame `0`. When it returns `true`,
`vmm_is_mapped` and `vmm_get_phys` answer as before for every address; when it returns
`false`, nothing has changed. -/
theorem protect_page_iff {s0 s1 : VmmState σ} (hpml4 : s0.kernelPml4 = root + kernelVbase)
    (hgood : V.Good s0.mach) (hroot : V.own s0.mach root)
    (hclear : Returns (vmmClearLoop M (root + kernelVbase) ptEntries 0) s0 () s1)
    {calls : List VmmCall} (hwords : ∀ c ∈ calls, c.Words) (hrun : Run (VmmStep M) s1 calls s)
    (virt flags : Nat) :
    ∃ ok s' mapped, Returns (vmmProtectPage M virt flags) s ok s' ∧
      Returns (vmmIsMapped M virt) s mapped s ∧
      ((ok = true ↔ mapped = true) ↔
        ¬ (virt % 4096 = 0 ∧ OnFrameZero (calls.flatMap VmmCall.ops) virt)) ∧
      (ok = true → ∀ w, ∃ mapped phys,
        Returns (vmmIsMapped M w) s mapped s ∧ Returns (vmmIsMapped M w) s' mapped s' ∧
        Returns (vmmGetPhys M w) s phys s ∧ Returns (vmmGetPhys M w) s' phys s') ∧
      (ok = false → s' = s) := by
  have h := (refines_of_clear hpml4 hgood hroot hclear).1.run hwords hrun
  rw [h.onFrameZero_iff]
  rcases vmmProtectPage_spec h.tables virt flags with
    ⟨hret, hrefused⟩ | ⟨s', P, hret, h', htr, hzero, hsame⟩
  · refine ⟨false, s, _, hret, vmmIsMapped_spec h.tables virt, ?_, nofun, fun _ => rfl⟩
    cases htr : translate V.toTableReads s root virt with
    | none => simp
    | some P =>
      obtain ⟨rfl, hstart⟩ := hrefused P htr
      simp [hstart]
  · refine ⟨true, s', _, hret, vmmIsMapped_spec h.tables virt, ?_,
      fun _ w => lookups_of_translate h.tables h' (hsame w), nofun⟩
    rw [htr, Option.some.injEq, and_comm]
    exact iff_of_true (by simp) hzero

end Protect

/-- Address `0`, mapped to a frame other than `0`. -/
theorem protect_page_iff_moved :
    ∃ s1 s s', Returns (vmmClearLoop Flat.machine.toMachine (0x1000 + kernelVbase) ptEntries 0)
        rightsStart () s1 ∧
      VmmStep Flat.machine.toMachine s1 (.mapPage 0 0x12000 3) s ∧
      Returns (vmmProtectPage Flat.machine.toMachine 0 pagePresent) s true s' := by
  obtain ⟨s1, hclear, hkeep, -⟩ := vmmClearLoop_spec rightsStart_root.1 512 0 (by omega)
    rightsStart rightsStart_good
  have havail : 3 ≤ flatView.avail s1.mach := hkeep.avail.le
  have hrefines := (refines_of_clear rfl rightsStart_good rightsStart_root hclear).1
  have hwords : (VmmCall.mapPage 0 0x12000 3).Words := ⟨by decide, by decide, by decide⟩
  rcases (VmmCall.mapPage 0 0x12000 3).exec_refines hwords hrefines with
    ⟨-, hlt⟩ | ⟨s, hstep, hs⟩
  · exact absurd havail (Nat.not_le.mpr hlt)
  · obtain ⟨ok, s', mapped, hret, hmapped, hiff, -⟩ := protect_page_iff rfl rightsStart_good
      rightsStart_root hclear (List.forall_mem_singleton.mpr hwords) (.cons hstep (.nil s)) 0
      pagePresent
    have hnot : ¬ (0 % 4096 = 0 ∧
        OnFrameZero ([VmmCall.mapPage 0 0x12000 3].flatMap VmmCall.ops) 0) := by
      rintro ⟨-, v, phys, hlast, hmask⟩
      cases hlast
      cases hmask
    have htrue : mapped = true := by
      have hspec := vmmIsMapped_spec hs.tables 0
      rw [hs.flat 0] at hspec
      exact (hmapped.unique hspec).1
    rw [(hiff.mpr hnot).mpr htrue] at hret
    exact ⟨s1, s, s', hclear, hstep, hret⟩

/-- **A mapped page that is refused**: right after `vmm_init`, the page at `KERNEL_VBASE`. -/
theorem protect_page_refuses_mapped :
    ∃ vmm, Returns (vmmInit Hw.machine) (bootState (fun _ => 0) (kernelVbase + 0x400000)) () vmm ∧
      Canonical kernelVbase ∧
      Returns (vmmIsMapped Hw.machine.toMachine kernelVbase) vmm true vmm ∧
      Returns (vmmProtectPage Hw.machine.toMachine kernelVbase pagePresent) vmm false vmm := by
  have hboot : (pmmInit (kernelVbase + 0x400000) .bss).Packed 0x400 :=
    pmmInit_packed ⟨by omega, by decide⟩
  obtain ⟨vmm, hinit, -, h, -⟩ := (vmmInit_spec
    (bootState (fun _ => 0) (kernelVbase + 0x400000)) rfl hboot).resolve_left fun hx => by omega
  have hphys : Returns (vmmGetPhys Hw.machine.toMachine kernelVbase) vmm 0 vmm :=
    h.getPhys_window (P := 0) (by norm_num)
  have hwalk : walk vmm.mach.ram (0x400 * 4096) kernelVbase = some 0 :=
    h.good.2 0 ⟨by norm_num, by norm_num⟩ id
  have hmapped := vmmIsMapped_spec h kernelVbase
  rw [hwReads_translate, hwalk] at hmapped
  refine ⟨vmm, hinit, .inr (by unfold kernelVbase; norm_num), hmapped, ?_⟩
  rw [Returns, vmmProtectPage, hphys.bind_eq]
  rfl

end GosKernel.Mm
