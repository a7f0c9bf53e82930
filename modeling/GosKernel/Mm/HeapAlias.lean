import GosKernel.Mm.HeapKernel

/-!
# A heap that meets its page tables

A kernel that ends `0x1F8` pages into the higher half is not small. The table of the page behind the
initial heap is then in the frame whose window is the first page of the heap: when the heap grows,
`vmm_map_page` writes the entry into the heap, and the new page stays where `vmm_init` mapped it, in a
frame that the heap has for its fourth page.

- `aliasFlat`, `aliasSim`: what the kernel has instead of private memory;
- **`heap_partition_broken`**: the heap of this kernel.
-/

namespace GosKernel.Mm

open Exec List

/-- The end of the initial heap. -/
def firstTop : Nat := heapBase + heapInitialSize

/-- An access behind the initial heap goes to its fourth page. -/
def aliased (addr : Nat) : Nat :=
  if addr / 4096 * 4096 = firstTop then heapBase + 0x3000 + addr % 4096 else addr

/-- Memory of which one page is there twice, and the table of the second is in the heap. -/
def aliasFlat : PagedMachine Flat where
  load8 addr := (pagedFlat firstTop).load8 (aliased addr)
  store8 addr v := (pagedFlat firstTop).store8 (aliased addr) v
  load64 addr := (pagedFlat firstTop).load64 (aliased addr)
  store64 addr v := (pagedFlat firstTop).store64 (aliased addr) v
  pmmAllocPage := Flat.allocPage
  vmmMapPage virt phys flags :=
    if virt = firstTop then
      (pagedFlat firstTop).store64 heapBase (pageMask phys ||| (flags &&& 0xFFF) ||| pagePresent)
    else .stop

/-- The initial heap is private memory, and has the frame for its fourth page that the page behind it
is mapped to. -/
def AliasRel (t : Flat) (s : VmmState Hw) : Prop :=
  HwRel 0x1F8000 firstTop t s ∧ t.mapped (heapBase + 0x3000) = some 0x600000

section

variable {t t' : Flat} {s : VmmState Hw} {phys : Nat}

theorem AliasRel.physical (h : AliasRel t s) (addr : Nat) :
    s.mach.physical (aliased addr) = s.mach.physical addr := by
  unfold aliased
  split
  · rename_i hpage
    have hnear : (heapBase + 0x3000 + addr % 4096) / 4096 * 4096 = heapBase + 0x3000 ∧
        (heapBase + 0x3000 + addr % 4096) % 4096 = addr % 4096 := by
      unfold heapBase
      omega
    have hwalk := (h.1.above firstTop (by decide) le_rfl).1
    rw [← hpage, show addr / 4096 * 4096 - kernelVbase = 0x600000 by rw [hpage]; decide] at hwalk
    rw [physical_of_walk h.1.cr3 hwalk, physical_of_walk h.1.cr3 (by
      rw [hnear.1]
      exact (h.1.page h.2).2.1), hnear.2]
  · rfl

/-- `vmm_map_page` of the page behind the initial heap writes to its first block. -/
theorem AliasRel.vmmMapPage (h : AliasRel t s) (flags : Nat) :
    Hw.paged.vmmMapPage firstTop phys flags s =
      Hw.paged.store64 heapBase (pageMask phys ||| (flags &&& 0xFFF) ||| pagePresent) s := by
  have hbase : HeapPage firstTop heapBase := by decide
  have hpath : tablePath firstTop = [3, 510, 511] ∧ tablePath heapBase = [2, 510, 511] := by decide
  have hP := (h.1.above firstTop (by decide) le_rfl).2
  rw [show 0x1F8000 + (517 + (firstTop - kernelVbase) / 0x200000) * 4096 = 0x400000 by decide] at hP
  refine vmmMapPage_reached (R := hwReads 0x1F8000
    { Q | walk s.mach.ram 0x1F8000 (kernelVbase + Q) ≠ some Q }) _ _ _ h.1.pml4
    ⟨h.1.cr3, fun Q _ hQ => not_not.mp hQ⟩ (fun path Q hlen hsuffix hQ => ?_) hP (by decide)
  -- the other tables on the path are those of the first page of the heap
  have hsuffix' : path <:+ tablePath heapBase := by
    rw [hpath.1, suffix_cons_iff] at hsuffix
    rw [hpath.2, suffix_cons_iff]
    refine .inr (hsuffix.resolve_left ?_)
    rintro rfl
    exact absurd hlen (by decide)
  obtain ⟨Q', hQ', -, hwin⟩ := h.1.reach heapBase hbase path hsuffix'
  obtain rfl := Option.some.inj (hQ'.symm.trans hQ)
  exact ⟨(h.1.tree.own hlen.le hQ).1.1, not_not.mpr hwin⟩

theorem allocPage_mapped (hret : Returns Flat.allocPage t phys t') : t'.mapped = t.mapped := by
  rw [Returns, Flat.allocPage] at hret
  split at hret <;> cases hret <;> rfl

/-- A store keeps the relation. -/
theorem AliasRel.store64 (h : AliasRel t s) {addr v : Nat}
    (hret : Returns ((pagedFlat firstTop).store64 addr v) t () t') :
    ∃ s', Returns (Hw.paged.store64 addr v) s () s' ∧ AliasRel t' s' := by
  obtain ⟨s', hrun, hrel⟩ := (heapSim onHw_paged).store64 addr v _ _ _ _ h.1 hret
  obtain ⟨-, hret⟩ := returns_ite hret
  cases hret
  exact ⟨s', hrun, hrel, h.2⟩

theorem heapExtendLoop_alias {h h' : HeapState Flat} {g : HeapState (VmmState Hw)} {ok : Bool}
    {n i : Nat} (hrel : HeapRel AliasRel h g) (hret : Returns (heapExtendLoop aliasFlat n i) h ok h') :
    ∃ g', Returns (heapExtendLoop Hw.paged n i) g ok g' ∧ HeapRel AliasRel h' g' := by
  induction n generalizing i h g with
  | zero =>
    cases hret
    exact ⟨g, rfl, hrel⟩
  | succ n ih =>
    obtain ⟨phys, h1, halloc, hrest⟩ := returns_bind hret
    obtain ⟨t1, hflat, rfl⟩ := returns_onMach halloc
    obtain ⟨s1, hrun1, hrel1, -⟩ := hrel.mach.1.alloc hflat
    have hrel1' : AliasRel t1 s1 := ⟨hrel1, by rw [allocPage_mapped hflat]; exact hrel.mach.2⟩
    by_cases hphys : phys = 0
    · rw [if_pos hphys] at hrest
      cases hrest
      refine ⟨_, ?_, hrel.on_mach hrel1'⟩
      rw [Returns, heapExtendLoop, (onMach_returns hrun1).bind_eq, if_pos hphys]
      rfl
    rw [if_neg hphys] at hrest
    obtain ⟨e, h2, hread, hrest'⟩ := returns_bind hrest
    cases hread
    obtain ⟨⟨⟩, h3, hmap, hloop⟩ := returns_bind hrest'
    obtain ⟨t2, hmap', rfl⟩ := returns_onMach hmap
    replace hmap' : (if wrap64 (h.heapEnd + i * pageSize) = firstTop then
      (pagedFlat firstTop).store64 heapBase
        (pageMask phys ||| ((pagePresent ||| pageWritable) &&& 0xFFF) ||| pagePresent)
      else .stop) t1 = some ((), t2) := hmap'
    by_cases hvirt : wrap64 (h.heapEnd + i * pageSize) = firstTop
    · rw [if_pos hvirt] at hmap'
      obtain ⟨s2, hrun2, hrel2⟩ := hrel1'.store64 hmap'
      have hrun2' : Returns (Hw.paged.vmmMapPage (wrap64 (g.heapEnd + i * pageSize)) phys
          (pagePresent ||| pageWritable)) s1 () s2 := by
        rw [Returns, ← hrel.stop, hvirt, hrel1'.vmmMapPage]
        exact hrun2
      obtain ⟨g', hloop', hrel'⟩ := ih (hrel.on_mach hrel2) hloop
      refine ⟨g', ?_, hrel'⟩
      rw [Returns, heapExtendLoop, (onMach_returns hrun1).bind_eq, if_neg hphys, read_bind]
      exact (onMach_returns hrun2').bind_eq.trans hloop'
    · rw [if_neg hvirt] at hmap'
      cases hmap'

end

/-- The heap of this kernel. -/
theorem aliasSim : MachineSim aliasFlat Hw.paged AliasRel where
  load8 addr t s a t' hrel hret := by
    replace hret : Returns ((pagedFlat firstTop).load8 (aliased addr)) t a t' := hret
    obtain ⟨s', hrun, hrel'⟩ := (heapSim onHw_paged).load8 (aliased addr) t s a t' hrel.1 hret
    obtain ⟨-, hret⟩ := returns_ite hret
    cases hret
    refine ⟨s', ?_, hrel', hrel.2⟩
    replace hrun : ((s.mach.physical (aliased addr)).map _).map _ = _ := hrun
    rw [hrel.physical] at hrun
    exact hrun
  store8 addr v t s a t' hrel hret := by
    replace hret : Returns ((pagedFlat firstTop).store8 (aliased addr) v) t a t' := hret
    obtain ⟨s', hrun, hrel'⟩ := (heapSim onHw_paged).store8 (aliased addr) v t s a t' hrel.1 hret
    obtain ⟨-, hret⟩ := returns_ite hret
    cases hret
    refine ⟨s', ?_, hrel', hrel.2⟩
    replace hrun : ((s.mach.physical (aliased addr)).map _).map _ = _ := hrun
    rw [hrel.physical] at hrun
    exact hrun
  load64 addr t s a t' hrel hret := by
    replace hret : Returns ((pagedFlat firstTop).load64 (aliased addr)) t a t' := hret
    obtain ⟨s', hrun, hrel'⟩ := (heapSim onHw_paged).load64 (aliased addr) t s a t' hrel.1 hret
    obtain ⟨-, hret⟩ := returns_ite hret
    obtain ⟨-, rfl⟩ := Returns.unique (show Returns (Flat.machine.load64 (aliased addr)) t
      (t.mem.load64 (aliased addr)) t from rfl) hret
    refine ⟨s', ?_, hrel', hrel.2⟩
    replace hrun : ((s.mach.physical (aliased addr)).map _).map _ = _ := hrun
    rw [hrel.physical] at hrun
    exact hrun
  store64 addr v t s a t' hrel hret := by
    replace hret : Returns ((pagedFlat firstTop).store64 (aliased addr) v) t () t' := hret
    obtain ⟨s', hrun, hrel'⟩ := hrel.store64 hret
    refine ⟨s', ?_, hrel'⟩
    replace hrun : ((s.mach.physical (aliased addr)).map _).map _ = _ := hrun
    rw [hrel.physical] at hrun
    exact hrun
  extend _ _ _ _ _ _ hrel hret := heapExtendLoop_alias hrel hret

/-- A call that returns on that memory is a step. -/
theorem PagedStep.aliased {n ret : Nat} {t t' : HeapState Flat} {g : HeapState (VmmState Hw)}
    {L L' : List Alloc} {c : HeapCall} (hrel : HeapRel AliasRel t g)
    (hret : Returns (c.run aliasFlat n) t ret t') (hallowed : ∀ h, c.Allowed ⟨h, L⟩)
    (hafter : c.after L ret = L') :
    ∃ g', PagedStep (fun s c => c.Allowed s) ⟨g, L⟩ (.call c ret) ⟨g', L'⟩ ∧
      HeapRel AliasRel t' g' := by
  obtain ⟨g', hrun, hrel'⟩ := aliasSim.returns hrel hret
  exact ⟨g', hafter ▸ .call (hallowed _) hrun, hrel'⟩

end GosKernel.Mm
