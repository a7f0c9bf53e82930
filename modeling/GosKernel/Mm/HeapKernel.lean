import GosKernel.Mm.HeapPaged
import GosKernel.Mm.HeapPartition

/-!
# The heap of the running kernel

The heap as the kernel has it: behind the page tables of `vmm_init`, with the frames of `pmm.c`, and
with other code between its calls (`PagedStep`). As long as the page tables of its range are below
it (`SmallKernel`), it is the heap on private memory (`HeapState.flat`).

- `started_spec`: the heap that `heap_init` makes;
- `OnFrames.call`, `OnFrames.other`: one step;
- **`heap_partition_invariant`**: free blocks and allocations partition the heap.
-/

namespace GosKernel.Mm

open Linked Exec TableTree List

/-! ## Memory of its own -/

/-- The byte at a virtual address. -/
def Hw.byteAt (s : Hw) : ByteMem := fun v => ((s.physical v).map s.ram).getD 0

/-- The heap as private memory: what its pages hold, and the frames that are to come. -/
def HeapState.flat (h : HeapState (VmmState Hw)) : HeapState Flat :=
  { h with mach := {
      mem := h.mach.mach.byteAt
      supply := pmmAnswers h.mach.mach.pmm.totalPages h.mach.mach.pmm
      frame := fun P i => h.mach.mach.ram (P + i)
      mapped := fun p => if HeapPage h.heapEnd p then h.mach.mach.physical p else none } }

/-- The same heap, with the same contents. -/
structure SameHeap (t t' : HeapState Flat) : Prop where
  start : t'.heapStart = t.heapStart
  stop : t'.heapEnd = t.heapEnd
  max : t'.heapMax = t.heapMax
  list : t'.heapFreeList = t.heapFreeList
  mem : ∀ x, heapBase ≤ x → x < t.heapEnd → t'.mach.mem x = t.mach.mem x
  mapped : ∀ x, heapBase ≤ x → x < t.heapEnd → t'.mach.Mapped x

section

variable {root top : Nat} {t t' : HeapState Flat} {g : HeapState (VmmState Hw)} {F : List Nat}
  {L : List Alloc}

theorem SameHeap.inv (h : SameHeap t t') (hinv : HeapInv t F L) : HeapInv t' F L := by
  have hend := hinv.end_le
  have hpage := hinv.end_page
  have hmapped := h.mapped
  have hshape := hinv.shape.of_mem_eq h.mem
  rw [← h.stop] at hend hpage hmapped hshape
  rw [← h.list] at hshape
  exact ⟨⟨h.start.trans hinv.start, h.max.trans hinv.max, hend, hpage, hmapped⟩, hshape⟩

theorem SameHeap.headers (h : SameHeap t t') {b : Nat} (hlo : heapBase ≤ b)
    (hhi : b + 32 ≤ t.heapEnd) (f : HeapField) : headers t'.mach.mem b f = headers t.mach.mem b f :=
  headers_congr (fun x hx hx' => h.mem x (by omega) (by omega)) f

theorem HwRel.byteAt {t : Flat} {s : VmmState Hw} (h : HwRel root top t s) {x : Nat}
    (hm : t.Mapped x) : s.mach.byteAt x = t.mem x := by
  obtain ⟨Q, -, hphys, hbytes⟩ := h.physical hm
  have hbyte := hbytes (x % 4096) (Nat.mod_lt _ (by norm_num))
  rw [Nat.div_add_mod'] at hbyte
  rw [Hw.byteAt, hphys]
  exact hbyte

/-- A page of the heap is mapped. -/
theorem HeapRel.page (h : HeapRel (HwRel root top) t g) (hb : HeapBounds t) {p : Nat}
    (hp : HeapPage g.heapEnd p) :
    ∃ Q, t.mach.mapped p = some Q ∧ g.mach.mach.physical p = some Q := by
  obtain ⟨hpage, hlo, hhi⟩ := hp
  obtain ⟨Q, hQ, hphys, -⟩ := h.mach.physical (hb.mapped p hlo (h.stop ▸ hhi))
  rw [show p / 4096 * 4096 = p by omega] at hQ
  rw [hpage] at hphys
  exact ⟨Q, hQ, hphys⟩

/-- **The heap behind the page tables is private memory.** -/
theorem HeapRel.flat (h : HeapRel (HwRel root top) t g) (hb : HeapBounds t) :
    HeapRel (HwRel root top) g.flat g ∧ SameHeap t g.flat := by
  have hmapped : ∀ {p Q}, g.flat.mach.mapped p = some Q → t.mach.mapped p = some Q := by
    intro p Q hQ
    replace hQ : (if HeapPage g.heapEnd p then g.mach.mach.physical p else none) = some Q := hQ
    split at hQ
    · rename_i hp
      obtain ⟨Q', hQ', hphys⟩ := h.page hb hp
      exact hQ'.trans (hphys.symm.trans hQ)
    · cases hQ
  refine ⟨⟨rfl, rfl, rfl, rfl, { h.mach with
    supply := answers_total _, fresh := fun _ _ _ _ _ => rfl, apart := fun hp hp' =>
      h.mach.apart (hmapped hp) (hmapped hp'), page := fun {p Q} hQ => ?_ }⟩,
    h.start.symm, h.stop.symm, h.max.symm, h.list.symm,
    fun x hlo hhi => h.mach.byteAt (hb.mapped x hlo hhi), fun x hlo hhi => ?_⟩
  · obtain ⟨hpage, hwalk, hdata, hbytes⟩ := h.mach.page (hmapped hQ)
    refine ⟨hpage, hwalk, hdata, fun i hi => (hbytes i hi).trans (h.mach.byteAt ?_).symm⟩
    have := hpage.1
    rw [Flat.Mapped, show (p + i) / 4096 * 4096 = p by omega, hmapped hQ]
    rfl
  · have hp : HeapPage g.heapEnd (x / 4096 * 4096) := by
      have hpage := hb.end_page
      have hstop := h.stop
      refine ⟨Nat.mul_mod_left _ _, ?_, by omega⟩
      unfold heapBase at *
      omega
    obtain ⟨Q, -, hphys⟩ := h.page hb hp
    show (if HeapPage g.heapEnd _ then g.mach.mach.physical _ else none).isSome
    rw [if_pos hp, hphys]
    rfl

end

/-! ## Other code -/

/-- The tables of the heap's range at `root`, the window to them, and the pages the heap has, are as
they were in `h`. -/
structure Untouched (root : Nat) (h : HeapState (VmmState Hw)) (m : Hw) : Prop where
  tree : TreeOk root m
  table : ∀ {virt path}, HeapPage heapTop virt → path <:+ tablePath virt →
    tableAt m root path = tableAt h.mach.mach root path
  window : ∀ {virt path P}, HeapPage heapTop virt → path <:+ tablePath virt →
    tableAt m root path = some P →
      walk m.ram root (kernelVbase + P) = walk h.mach.mach.ram root (kernelVbase + P)
  page : ∀ {virt Q}, HeapPage h.heapEnd virt → walk h.mach.mach.ram root virt = some Q →
    walk m.ram root virt = some Q ∧ DataFrame root m Q ∧
      ∀ i < 4096, m.ram (Q + i) = h.mach.mach.ram (Q + i)

/-- Other code has run: it takes and frees frames, writes to memory and maps pages, but it leaves the
heap `h` alone. -/
structure Elsewhere (h : HeapState (VmmState Hw)) (m : VmmState Hw) : Prop where
  cr3 : m.mach.cr3 = h.mach.mach.cr3
  pml4 : m.kernelPml4 = h.mach.kernelPml4
  wf : m.mach.pmm.WF
  untouched : ∀ root, h.mach.mach.cr3 = some root → Untouched root h m.mach

/-- The heap is private memory, behind the tables at some root. -/
def OnFrames (g : HeapState (VmmState Hw)) : Prop :=
  ∃ root, HeapRel (HwRel root heapTop) g.flat g

section Steps

variable {root top : Nat} {t : Flat} {g : HeapState (VmmState Hw)} {m : VmmState Hw}

theorem HwRel.elsewhere (h : HwRel root heapTop t g.mach) (he : Elsewhere g m)
    (hmapped : ∀ {p Q}, t.mapped p = some Q → HeapPage g.heapEnd p) {supply : List Nat}
    {frame : Nat → ByteMem} (hsupply : Answers m.mach.pmm supply)
    (hfresh : ∀ Q, Q % 4096 = 0 → m.mach.Free Q → ∀ i < 4096, m.mach.ram (Q + i) = frame Q i) :
    HwRel root heapTop { t with
      supply := supply
      frame := frame } m := by
  have hu := he.untouched root h.cr3
  refine ⟨h.top_le, he.cr3.trans h.cr3, he.pml4.trans h.pml4, hu.tree, fun virt hv path hpath => ?_,
    fun _ hv hle => absurd hv.2.2 (not_lt.mpr hle), he.wf, hsupply, fun hQ => ?_, h.apart, hfresh⟩
  · obtain ⟨P, hP, hlt, hwin⟩ := h.reach virt hv path hpath
    have hP' := (hu.table hv hpath).trans hP
    exact ⟨P, hP', hlt, (hu.window hv hpath hP').trans hwin⟩
  · obtain ⟨hpage, hwalk, -, hbytes⟩ := h.page hQ
    obtain ⟨hwalk', hdata, hram⟩ := hu.page (hmapped hQ) hwalk
    exact ⟨hpage, hwalk', hdata, fun i hi => (hram i hi).trans (hbytes i hi)⟩

/-- **Other code** leaves the heap as it is. -/
theorem OnFrames.other (h : OnFrames g) (hb : HeapBounds g.flat) (he : Elsewhere g m) :
    OnFrames { g with mach := m } ∧ SameHeap g.flat (HeapState.flat { g with mach := m }) := by
  obtain ⟨root, hrel⟩ := h
  have hrel' : HeapRel (HwRel root heapTop) { g.flat with mach := { g.flat.mach with
      supply := pmmAnswers m.mach.pmm.totalPages m.mach.pmm
      frame := fun P i => m.mach.ram (P + i) } } { g with mach := m } := by
    refine ⟨rfl, rfl, rfl, rfl, hrel.mach.elsewhere he (fun {p Q} hQ => ?_) (answers_total _)
      fun _ _ _ _ _ => rfl⟩
    by_contra hp
    exact absurd ((if_neg hp).symm.trans hQ) (by simp)
  obtain ⟨hflat, hsame⟩ := hrel'.flat ⟨hb.start, hb.max, hb.end_le, hb.end_page, hb.mapped⟩
  exact ⟨⟨root, hflat⟩, hsame.start, hsame.stop, hsame.max, hsame.list, hsame.mem, hsame.mapped⟩

theorem MachineSim.run {σ τ : Type} {M : PagedMachine σ} {N : PagedMachine τ} {R : σ → τ → Prop}
    (h : MachineSim M N R) {n k : Nat} (hnk : n ≤ k) (c : HeapCall) :
    Sim (HeapRel R) (c.run M n) (c.run N k) := by
  cases c with
  | kmalloc size => exact h.kmalloc hnk size
  | kzalloc size => exact h.kzalloc hnk size
  | krealloc ptr newSize => exact h.krealloc hnk ptr newSize
  | kfree ptr => exact (h.kfree ptr).bind fun _ => .pure 0
  | write addr byte => exact (sim_onMach (h.store8 addr byte)).bind fun _ => .pure 0

theorem MachineSim.returns {σ τ : Type} {M : PagedMachine σ} {N : PagedMachine τ}
    {R : σ → τ → Prop} (h : MachineSim M N R) {s s' : HeapState σ} {u : HeapState τ} {c : HeapCall}
    {ret n : Nat} (hrel : HeapRel R s u) (hret : Returns (c.run M n) s ret s') :
    ∃ u', Converges (c.run N) u ret u' ∧ HeapRel R s' u' :=
  Sim.converges (fun _ => h.run le_rfl c) (fun hnm => sim_eq ((MachineSim.refl N).run hnm c)) hrel
    hret

theorem MachineSim.converges {σ τ : Type} {M : PagedMachine σ} {N : PagedMachine τ}
    {R : σ → τ → Prop} (h : MachineSim M N R) {s s' : HeapState σ} {u : HeapState τ} {c : HeapCall}
    {ret : Nat} (hrel : HeapRel R s u) (hconv : Converges (c.run M) s ret s') :
    ∃ u', Converges (c.run N) u ret u' ∧ HeapRel R s' u' := by
  obtain ⟨n, hn⟩ := hconv
  exact h.returns hrel (hn n le_rfl)

/-- **A call** does on the heap what it does on private memory. -/
theorem OnFrames.call {N : PagedMachine (VmmState Hw)} (hN : OnHw N) (h : OnFrames g) {c : HeapCall}
    {ret : Nat} {t' : HeapState Flat} (hflat : Converges (c.run (pagedFlat heapTop)) g.flat ret t')
    (hb : HeapBounds t') :
    ∃ g', Converges (c.run N) g ret g' ∧ OnFrames g' ∧ SameHeap t' g'.flat := by
  obtain ⟨root, hrel⟩ := h
  obtain ⟨g', hrun, hrel'⟩ := (heapSim hN).converges hrel hflat
  obtain ⟨hflat', hsame⟩ := hrel'.flat hb
  exact ⟨g', hrun, ⟨root, hflat'⟩, hsame⟩

/-- The same for a computation that takes no fuel. -/
theorem OnFrames.sim {α : Type} {c : Exec (HeapState Flat) α} {d : Exec (HeapState (VmmState Hw)) α}
    (hsim : ∀ root, Sim (HeapRel (HwRel root heapTop)) c d) (h : OnFrames g) {a : α}
    {t' : HeapState Flat} (hflat : Returns c g.flat a t') (hb : HeapBounds t') :
    ∃ g', Returns d g a g' ∧ OnFrames g' ∧ SameHeap t' g'.flat := by
  obtain ⟨root, hrel⟩ := h
  obtain ⟨g', hrun, hrel'⟩ := hsim root _ _ _ _ hrel hflat
  obtain ⟨hflat', hsame⟩ := hrel'.flat hb
  exact ⟨g', hrun, ⟨root, hflat'⟩, hsame⟩

end Steps

/-! ## The start of the kernel -/

/-- The page tables for the whole range of the heap end up below it. -/
def SmallKernel (kernelEnd : Nat) : Prop := kernelEnd ≤ kernelVbase + 0x1D9000

/-- `vmm_init`, other code, and `heap_init` have run. -/
def Started (kernelEnd : Nat) (g : HeapState (VmmState Hw)) : Prop :=
  ∃ ram vmm m, Returns (vmmInit Hw.machine) (bootState ram kernelEnd) () vmm ∧
    Elsewhere (.bss vmm) m ∧ Returns (heapInit Hw.paged) (.bss m) () g

section Boot

variable {kernelEnd n top : Nat} {vmm m : VmmState Hw} {t : Flat}

/-- Where `vmm_init` puts the tables. -/
theorem HalfTables.table (h : HalfTables (n * 4096) 511 510 (n + 515) 0x40000 vmm.mach)
    (htree : TreeOk (n * 4096) vmm.mach) {virt : Nat} (hv : HeapPage heapTop virt) :
    (∃ j, tablePath virt = [j, 510, 511]) ∧ tableAt vmm.mach (n * 4096) (tablePath virt) =
      some (n * 4096 + (517 + (virt - kernelVbase) / 0x200000) * 4096) := by
  obtain ⟨hpage, hlo, hhi⟩ := hv
  obtain ⟨i, hi, rfl, hj⟩ : ∃ i < 0x40000, virt = kernelVbase + i * 4096 ∧
      i / 512 = (virt - kernelVbase) / 0x200000 ∧ i / 512 ≠ 0 := by
    refine ⟨(virt - kernelVbase) / 4096, ?_⟩
    unfold heapTop heapMaxSize heapBase at *
    unfold kernelVbase at *
    omega
  obtain ⟨h3, h2, h1⟩ := BootHalf.high.indexAt hi
  have hpath : tablePath (kernelVbase + i * 4096) = [⟨i / 512, by omega⟩, 510, 511] := by
    rw [tablePath, h1, h2, h3]
  obtain ⟨P, hP, hlt, hge⟩ := h.lower ⟨i / 512, by omega⟩ (by dsimp only; omega)
  have hPpage := (htree.own (le_refl 3) hP).1.1.1
  dsimp only at hlt hge
  refine ⟨⟨_, hpath⟩, hpath ▸ hP.trans (congrArg some ?_)⟩
  rw [← hj.1]
  omega

/-- The tables of the pages below `top` are below the heap. -/
theorem HalfTables.below (h : HalfTables (n * 4096) 511 510 (n + 515) 0x40000 vmm.mach)
    (htree : TreeOk (n * 4096) vmm.mach) (htop : top ≤ heapTop)
    (hlow : n + 518 + (top - 1 - kernelVbase) / 0x200000 ≤ 0x400) {virt : Nat}
    (hv : HeapPage top virt) {path : List (Fin 512)} (hpath : path <:+ tablePath virt) :
    ∃ P, tableAt vmm.mach (n * 4096) path = some P ∧ P < 0x400000 := by
  obtain ⟨⟨j, hj⟩, htable⟩ := h.table htree (hv.mono htop)
  have hle : (virt - kernelVbase) / 0x200000 ≤ (top - 1 - kernelVbase) / 0x200000 :=
    Nat.div_le_div_right (by have := hv.2.2; omega)
  rw [hj] at hpath htable
  rw [suffix_cons_iff, suffix_cons_iff, suffix_cons_iff, suffix_nil] at hpath
  rcases hpath with rfl | rfl | rfl | rfl
  · exact ⟨_, htable, by omega⟩
  · obtain ⟨P, hP, hlt⟩ := h.upper (by norm_num) [510, 511] (by simp)
    exact ⟨P, hP, by omega⟩
  · obtain ⟨P, hP, hlt⟩ := h.upper (by norm_num) [511] (by simp)
    exact ⟨P, hP, by omega⟩
  · exact ⟨_, rfl, by omega⟩

/-- Before `heap_init` nothing is mapped for the heap, and the tables are there. -/
theorem boot_rel (htables : Tables (hwReads (n * 4096) ∅) vmm (n * 4096))
    (hhalf : HalfTables (n * 4096) 511 510 (n + 515) 0x40000 vmm.mach)
    (he : Elsewhere (.bss vmm) m) (htop : top ≤ heapTop)
    (hlow : n + 518 + (top - 1 - kernelVbase) / 0x200000 ≤ 0x400)
    (habove : ∀ virt, HeapPage heapTop virt → top ≤ virt →
      walk m.mach.ram (n * 4096) virt = walk vmm.mach.ram (n * 4096) virt)
    (hnone : ∀ p, t.mapped p = none)
    (hsupply : Answers m.mach.pmm t.supply)
    (hfresh : ∀ Q, Q % 4096 = 0 → m.mach.Free Q → ∀ i < 4096, m.mach.ram (Q + i) = t.frame Q i) :
    HwRel (n * 4096) top t m := by
  have hu := he.untouched (n * 4096) htables.good.1
  refine ⟨htop, he.cr3.trans htables.good.1, he.pml4.trans htables.pml4, hu.tree,
    fun virt hv path hpath => ?_, fun virt hv hle => ⟨(habove virt hv hle).trans ?_,
      (hu.table hv suffix_rfl).trans (hhalf.table htables.tree hv).2⟩, he.wf, hsupply, fun {p Q} hQ => ?_, fun {p p' Q} hQ => ?_, hfresh⟩
  · obtain ⟨P, hP, hlt⟩ := hhalf.below htables.tree htop hlow hv hpath
    have hv' := hv.mono htop
    have hP' := (hu.table hv' hpath).trans hP
    refine ⟨P, hP', hlt, (hu.window hv' hpath hP').trans ?_⟩
    exact htables.good.2 P (htables.tree.own hpath.length_le hP).1.1 (Set.notMem_empty P)
  · obtain ⟨hpage, hlo, hhi⟩ := hv
    have hframed : Framed (virt - kernelVbase) ∧ kernelVbase + (virt - kernelVbase) = virt := by
      unfold Framed
      unfold heapTop heapMaxSize heapBase at *
      unfold kernelVbase
      omega
    have hwin := htables.good.2 _ hframed.1 (Set.notMem_empty _)
    rwa [hframed.2] at hwin
  all_goals
    rw [hnone] at hQ
    cases hQ

/-- `heap_init` behind the page tables. -/
theorem heapInit_hw {root : Nat} {t : HeapState Flat} {g g' : HeapState (VmmState Hw)}
    (hrel : HeapRel (HwRel root heapTop) t g) (hinit : Returns (heapInit Hw.paged) g () g') :
    ∃ t', HeapRel (HwRel root heapTop) t' g' ∧ HeapInv t' [heapBase] [] := by
  cases hserves : serves 512 t.mach.supply with
  | true =>
    obtain ⟨t', hflat, hinv⟩ := (heapInit_spec onPages_paged t).1 hserves
    obtain ⟨u, hrun, hrel'⟩ := (heapSim onHw_paged).heapInit _ _ _ _ hrel hflat
    rw [(hinit.unique hrun).2]
    exact ⟨t', hrel', hinv⟩
  | false =>
    -- `heap_extend` fails, and `heap_init` stops
    have hrel0 : HeapRel (HwRel root heapTop)
        { t with heapStart := heapBase, heapEnd := heapBase, heapMax := heapBase + heapMaxSize }
        { g with heapStart := heapBase, heapEnd := heapBase, heapMax := heapBase + heapMaxSize } :=
      ⟨rfl, rfl, rfl, hrel.list, hrel.mach⟩
    obtain ⟨f, hext, -⟩ := heapExtend_spec onPages_paged 512 { t with
        heapStart := heapBase, heapEnd := heapBase, heapMax := heapBase + heapMaxSize }
      (show heapBase % 4096 = 0 by decide) le_rfl
      (show heapBase + 512 * 4096 ≤ heapBase + heapMaxSize by decide)
    rw [show serves 512 _ = false from hserves] at hext
    obtain ⟨u, hrun, -⟩ := (heapSim onHw_paged).heapExtend 512 _ _ _ _ hrel0 hext
    obtain ⟨⟨⟩, g1, hupd, hret⟩ := returns_bind hinit
    cases hupd
    obtain ⟨r, g2, hext', hret⟩ := returns_bind hret
    rw [if_pos (show r = 0 from (hext'.unique hrun).1)] at hret
    cases hret

/-- **The heap of a small kernel**, when it starts. -/
theorem started_spec {g : HeapState (VmmState Hw)} (hk : KernelLinked kernelEnd)
    (hsmall : SmallKernel kernelEnd) (h : Started kernelEnd g) :
    OnFrames g ∧ HeapInv g.flat [heapBase] [] := by
  obtain ⟨ram, vmm, m, hvmm, he, hinit⟩ := h
  rcases vmmInit_spec (bootState ram kernelEnd) rfl (pmmInit_packed hk) with
    ⟨hstop, -⟩ | ⟨s', hvmm', -, htables, -, hhalf⟩
  · exact absurd (hvmm.symm.trans hstop) (by simp)
  rw [← (hvmm.unique hvmm').2] at htables hhalf
  have hn : min (kernelImageEnd kernelEnd) 0xFF00 + 551 ≤ 0x400 := by
    unfold SmallKernel at hsmall
    unfold kernelImageEnd
    omega
  generalize min (kernelImageEnd kernelEnd) 0xFF00 = n at *
  have hrel : HeapRel (HwRel (n * 4096) heapTop) (HeapState.flat (.bss m)) (.bss m) := by
    refine ⟨rfl, rfl, rfl, rfl, boot_rel htables hhalf he le_rfl ?_
      (fun _ hv hle => absurd hv.2.2 (not_lt.mpr hle)) (fun p => if_neg ?_)
      (answers_total _) fun _ _ _ _ _ => rfl⟩
    · rw [show (heapTop - 1 - kernelVbase) / 0x200000 = 33 by decide]
      omega
    · rintro ⟨-, -, hlt⟩
      exact absurd hlt (Nat.not_lt_zero p)
  obtain ⟨t', hrel', hinv⟩ := heapInit_hw hrel hinit
  obtain ⟨hflat, hsame⟩ := hrel'.flat hinv.toHeapBounds
  exact ⟨⟨_, hflat⟩, hsame.inv hinv⟩

instance (s : Hw) (P : Nat) : Decidable (s.Free P) := inferInstanceAs (Decidable (_ = _))

/-- The free frames are full of `byte`. -/
def Hw.filled (s : Hw) (byte : UInt8) : Hw :=
  { s with ram := fun x => if s.Free x then byte else s.ram x }

/-- The first `n` pages of the heap have the frames from `first` on. -/
def bootMapped (first n p : Nat) : Option Nat :=
  if HeapPage (heapBase + n * 4096) p then some ((first + (p - heapBase) / 4096) * 4096) else none

/-- Private memory with the frames from `first` on, full of `byte`, the first `n` of them mapped. -/
def bootFlat (first n : Nat) (byte : UInt8) : Flat where
  mem _ := byte
  supply := (List.range' (first + n) (0xFF00 - first - n)).map (· * 4096)
  frame _ _ := byte
  mapped := bootMapped first n

/-- In the loop of `heap_init`. -/
def bootHeap (first n : Nat) (byte : UInt8) : HeapState Flat :=
  ⟨heapBase, heapBase, heapBase + heapMaxSize, 0, bootFlat first n byte⟩

/-- Private memory with the header of the first block. -/
def initBlock (f : Flat) : Flat :=
  { f with
    mem := (((f.mem.store64 heapBase heapMagicFree).store64 (heapBase + 8)
      (heapInitialSize - sizeofHeapBlock)).store64 (heapBase + 16) 0).store64 (heapBase + 24) 0 }

/-- The heap that `heap_init` makes. -/
def initialHeap (first : Nat) (byte : UInt8) : HeapState Flat :=
  ⟨heapBase, heapBase + heapInitialSize, heapBase + heapMaxSize, heapBase,
    initBlock (bootFlat first 512 byte)⟩

section Initial

variable {first i : Nat} {byte : UInt8}

theorem initBlock_supply (f : Flat) : (initBlock f).supply = f.supply := rfl

theorem bootFlat_supply : (bootFlat first n byte).supply =
    (List.range' (first + n) (0xFF00 - first - n)).map (· * 4096) := rfl

theorem bootMapped_succ : Function.update (bootMapped first i) (heapBase + i * 4096)
    (some ((first + i) * 4096)) = bootMapped first (i + 1) := by
  funext p
  rw [Function.update_apply]
  have hbase : heapBase % 4096 = 0 := by decide
  unfold bootMapped
  by_cases hp : p = heapBase + i * 4096
  · have hin : HeapPage (heapBase + (i + 1) * 4096) p := by
      unfold HeapPage
      omega
    rw [if_pos hp, if_pos hin, hp, Nat.add_sub_cancel_left, Nat.mul_div_cancel _ (by norm_num)]
  · have hiff : HeapPage (heapBase + (i + 1) * 4096) p ↔ HeapPage (heapBase + i * 4096) p := by
      unfold HeapPage
      omega
    rw [if_neg hp]
    exact if_congr hiff.symm rfl rfl

theorem heapExtendLoop_boot (htop : heapBase + (i + n) * 4096 ≤ top) (hmax : i + n ≤ 512) (hpos : 0 < first)
    (hlast : first + i + n ≤ 0xFF00) :
    Returns (heapExtendLoop (pagedFlat top) n i) (bootHeap first i byte) true
      (bootHeap first (i + n) byte) := by
  induction n generalizing i with
  | zero => rfl
  | succ n ih =>
    have hnext : heapBase + (i + 1 + n) * 4096 ≤ top ∧ i + 1 + n ≤ 512 ∧ first + (i + 1) + n ≤ 0xFF00 := by
      omega
    have hsupply : (bootFlat first i byte).supply = (first + i) * 4096 ::
        (bootFlat first (i + 1) byte).supply := by
      rw [bootFlat_supply, bootFlat_supply, show 0xFF00 - first - i = 0xFF00 - first - (i + 1) + 1 by omega]
      rfl
    have halloc : Returns (onMach (pagedFlat top).pmmAllocPage) (bootHeap first i byte)
        ((first + i) * 4096) { bootHeap first i byte with mach := { bootFlat first i byte with
          supply := (bootFlat first (i + 1) byte).supply } } := by
      refine onMach_returns ?_
      show Flat.allocPage (bootFlat first i byte) = _
      rw [Flat.allocPage, hsupply]
    have hvirt : wrap64 ((bootHeap first i byte).heapEnd + i * pageSize) = heapBase + i * 4096 :=
      wrap64_of_lt (show heapBase + i * 4096 < _ by unfold heapBase; omega)
    have hpage : HeapPage top (heapBase + i * 4096) := by
      unfold HeapPage heapBase at *
      omega
    have hmap : Returns (onMach ((pagedFlat top).vmmMapPage (heapBase + i * 4096) ((first + i) * 4096)
        (pagePresent ||| pageWritable))) { bootHeap first i byte with mach := { bootFlat first i byte with
          supply := (bootFlat first (i + 1) byte).supply } } () (bootHeap first (i + 1) byte) := by
      refine onMach_returns ?_
      show (if HeapPage top _ then _ else _ : Exec Flat Unit) _ = _
      rw [if_pos hpage]
      have hmem : ByteMem.overlay (fun _ => byte) (heapBase + i * 4096) 4096 (fun _ => byte) =
          fun _ => byte := funext fun x => ite_self _
      exact congrArg₂ (fun mem mapped => some ((), (⟨mem, _, _, mapped⟩ : Flat))) hmem bootMapped_succ
    rw [Returns, heapExtendLoop, halloc.bind_eq, if_neg (by omega), read_bind, hvirt, hmap.bind_eq,
      Nat.add_comm n 1, ← Nat.add_assoc]
    exact ih hnext.1 hnext.2.1 hnext.2.2

theorem heapInit_of_loop {f f' : Flat} (hm : f'.Mapped heapBase)
    (hloop : Returns (heapExtendLoop (pagedFlat top) 512 0)
      ⟨heapBase, heapBase, heapBase + heapMaxSize, 0, f⟩ true
      ⟨heapBase, heapBase, heapBase + heapMaxSize, 0, f'⟩) :
    Returns (heapInit (pagedFlat top)) (.bss f) ()
      ⟨heapBase, heapBase + heapInitialSize, heapBase + heapMaxSize, heapBase, initBlock f'⟩ := by
  have hext : Returns (heapExtend (pagedFlat top) 512) ⟨heapBase, heapBase, heapBase + heapMaxSize, 0, f⟩
      heapBase ⟨heapBase, heapBase + heapInitialSize, heapBase + heapMaxSize, 0, f'⟩ := by
    rw [Returns, heapExtend, hloop.bind_eq, if_pos rfl, read_bind, update_bind]
    exact congrArg (fun e => some (heapBase, (⟨heapBase, e, heapBase + heapMaxSize, 0, f'⟩ : HeapState Flat)))
      (wrap64_of_lt (show heapBase + 512 * 4096 < 2 ^ 64 by decide))
  have hset (h : HeapState Flat) (hm : h.mach.Mapped heapBase) (g : HeapField) (v : Nat) :
      Returns (setField (pagedFlat top) heapBase g v) h () { h with
        mach := { h.mach with mem := h.mach.mem.store64 (heapBase + g.offset) v } } := by
    refine onMach_returns (if_pos ⟨?_, ?_⟩)
    · rw [Flat.Mapped, show (heapBase + g.offset) / 4096 * 4096 = heapBase / 4096 * 4096 by
        cases g <;> decide]
      exact hm
    · cases g <;> decide
  rw [Returns, heapInit, update_bind, show heapInitialSize / pageSize = 512 from rfl,
    show wrap64 (heapBase + heapMaxSize) = heapBase + heapMaxSize by decide]
  refine hext.bind_eq.trans ?_
  rw [if_neg (by decide), read_bind, heapInitBlock, setFreeList, update_bind]
  refine ((hset _ ?_ _ _).bind_eq).trans ?_
  · exact hm
  refine ((hset _ ?_ _ _).bind_eq).trans ?_
  · exact hm
  refine ((hset _ ?_ _ _).bind_eq).trans ?_
  · exact hm
  exact hset _ hm _ _

theorem heapInit_boot (htop : heapBase + heapInitialSize ≤ top) (hpos : 0 < first)
    (hlast : first + 512 ≤ 0xFF00) :
    Returns (heapInit (pagedFlat top)) (.bss (bootFlat first 0 byte)) () (initialHeap first byte) := by
  have hm : (bootFlat first 512 byte).Mapped heapBase := by
    show (bootMapped first 512 heapBase).isSome
    rw [bootMapped, if_pos (by decide)]
    rfl
  refine heapInit_of_loop hm ?_
  have h := @heapExtendLoop_boot 512 top first 0 byte
  rw [Nat.zero_add, Nat.add_zero] at h
  exact h htop (by norm_num) hpos hlast

theorem initialHeap_inv (hpos : 0 < first) (hlast : first + 512 ≤ 0xFF00) :
    HeapInv (initialHeap first byte) [heapBase] [] :=
  heapInit_inv onPages_paged (heapInit_boot (by decide) hpos hlast)

end Initial

/-- The frames that are free after `vmm_init` may hold anything. -/
theorem exists_boot (hk : KernelLinked kernelEnd) (hn : kernelImageEnd kernelEnd = n) {first : Nat}
    (hfirst : n + 1029 = first) (hroom : first ≤ 0xFF00) (byte : UInt8) (htop : top ≤ heapTop)
    (hlow : n + 518 + (top - 1 - kernelVbase) / 0x200000 ≤ 0x400) :
    ∃ vmm m, Returns (vmmInit Hw.machine) (bootState (fun _ => 0) kernelEnd) () vmm ∧
      Elsewhere (.bss vmm) m ∧ HwRel (n * 4096) top (bootFlat first 0 byte) m := by
  have hpacked := pmmInit_packed hk
  rw [hn, min_eq_left (by omega)] at hpacked
  rcases vmmInit_spec (bootState (fun _ => 0) kernelEnd) rfl hpacked with
    ⟨-, hlt⟩ | ⟨vmm, hvmm, -, htables, hpacked', hhalf⟩
  · omega
  have hkept : ∀ path P, path.length ≤ 3 → tableAt vmm.mach (n * 4096) path = some P → ∀ i,
      (vmm.mach.filled byte).ent P i = vmm.mach.ent P i := by
    intro path P hlen hP i
    obtain ⟨hok, hused⟩ := htables.tree.own hlen hP
    have hpage := hok.1.1
    refine ByteMem.load64_congr fun x hlo hhi => if_neg fun hfree => hused ?_
    show pmmTestBit vmm.mach.pmm (P / 4096) = false
    rwa [show P / 4096 = x / 4096 by omega]
  obtain ⟨htable, hwalk⟩ := tables_congr hkept
  have he : Elsewhere (.bss vmm) { vmm with mach := vmm.mach.filled byte } := by
    refine ⟨rfl, rfl, hpacked'.wf, fun root hroot => ?_⟩
    obtain rfl := Option.some.inj (htables.good.1.symm.trans hroot)
    refine ⟨TreeOk.congr htables.tree rfl htable, fun _ hpath => htable _ hpath.length_le,
      fun _ _ _ => hwalk _, ?_⟩
    rintro virt Q ⟨-, -, hlt⟩
    exact absurd hlt (Nat.not_lt_zero virt)
  rw [hfirst] at hpacked'
  refine ⟨vmm, _, hvmm, he, boot_rel htables hhalf he htop hlow (fun _ _ _ => hwalk _)
    (fun p => if_neg ?_) hpacked'.answers fun Q hQ hfree i hi => if_pos ?_⟩
  · rintro ⟨-, hlo, hlt⟩
    omega
  · show pmmTestBit vmm.mach.pmm ((Q + i) / 4096) = false
    rw [show (Q + i) / 4096 = Q / 4096 by omega]
    exact hfree

/-- A kernel whose first pages of the heap have their tables below it starts. -/
theorem exists_started (hk : KernelLinked kernelEnd) (hn : kernelImageEnd kernelEnd = n) {first : Nat}
    (hfirst : n + 1029 = first) (byte : UInt8) (hinit : heapBase + heapInitialSize ≤ top)
    (htop : top ≤ heapTop) (hlow : n + 518 + (top - 1 - kernelVbase) / 0x200000 ≤ 0x400) :
    ∃ g, Started kernelEnd g ∧ HeapRel (HwRel (n * 4096) top) (initialHeap first byte) g := by
  obtain ⟨vmm, m, hvmm, he, hrel⟩ := exists_boot hk hn hfirst (by omega) byte htop hlow
  have hrel0 : HeapRel (HwRel (n * 4096) top) (.bss (bootFlat first 0 byte)) (.bss m) :=
    ⟨rfl, rfl, rfl, rfl, hrel⟩
  obtain ⟨g, hrun, hrel'⟩ := (heapSim onHw_paged).heapInit _ _ _ _ hrel0
    (heapInit_boot hinit (by omega) (by omega))
  exact ⟨g, ⟨_, vmm, m, hvmm, he, hrun⟩, hrel'⟩

/-- The heap that `heap_init` makes, where `k` frames are left. -/
def lastFrames (first k : Nat) (byte : UInt8) : HeapState Flat :=
  { initialHeap first byte with
    mach := { (initialHeap first byte).mach with
      supply := (List.range' (0xFF00 - k) k).map (· * 4096) } }

/-- Other code may take frames. -/
theorem Elsewhere.takes {root top : Nat} {t : HeapState Flat} {g : HeapState (VmmState Hw)}
    (hrel : HeapRel (HwRel root top) t g) (hb : HeapBounds t) {q : Pmm} (hwf : q.WF)
    (hbits : ∀ P, pmmTestBit q P = false → pmmTestBit g.mach.mach.pmm P = false) :
    Elsewhere g { g.mach with mach := { g.mach.mach with pmm := q } } := by
  refine ⟨rfl, rfl, hwf, fun root' hroot => ?_⟩
  obtain rfl := Option.some.inj (hrel.mach.cr3.symm.trans hroot)
  refine ⟨hrel.mach.tree.mono fun _ hP => ⟨hP.1, fun hx => hP.2 (hbits _ hx)⟩, fun _ _ => rfl,
    fun _ _ _ => rfl, fun {virt Q} hv hQ => ⟨hQ, ?_, fun _ _ => rfl⟩⟩
  obtain ⟨Q', hQ', -⟩ := hrel.page hb hv
  obtain ⟨-, hwalk, hdata, -⟩ := hrel.mach.page hQ'
  obtain rfl := Option.some.inj (hwalk.symm.trans hQ)
  exact ⟨hdata.page, fun hx => hdata.used (hbits _ hx), hdata.apart⟩

/-- Any number of the frames are taken. -/
theorem Answers.drop {p : Pmm} {supply : List Nat} (h : Answers p supply) (hwf : p.WF) (k : Nat) :
    ∃ q, q.WF ∧ Answers q (supply.drop k) ∧
      ∀ P, pmmTestBit q P = false → pmmTestBit p P = false := by
  induction k generalizing p supply with
  | zero => exact ⟨p, hwf, h, fun _ hP => hP⟩
  | succ k ih =>
    rcases h.alloc hwf with ⟨-, rfl⟩ | ⟨_, rest, -, rfl, htakes, hrest⟩
    · rw [drop_nil]
      exact ⟨p, hwf, h, fun _ hP => hP⟩
    · obtain ⟨q, hq, hanswers, hbits⟩ := ih hrest htakes.wf
      refine ⟨q, hq, hanswers, fun P hP => ?_⟩
      have hP' := hbits P hP
      rw [htakes.bits, Bool.or_eq_false_iff] at hP'
      exact hP'.2

/-- Other code may leave any number of frames to the heap. -/
theorem HeapRel.leaves {root first k : Nat} {byte : UInt8} {g : HeapState (VmmState Hw)}
    (hrel : HeapRel (HwRel root top) (initialHeap first byte) g) (hpos : 0 < first)
    (hk : first + 512 + k ≤ 0xFF00) :
    ∃ m, Elsewhere g m ∧ HeapRel (HwRel root top) (lastFrames first k byte) { g with mach := m } := by
  obtain ⟨q, hwf, hanswers, hbits⟩ :=
    hrel.mach.supply.drop hrel.mach.wf (0xFF00 - first - 512 - k)
  have hdrop : (initialHeap first byte).mach.supply.drop (0xFF00 - first - 512 - k) =
      (List.range' (0xFF00 - k) k).map (· * 4096) := by
    rw [show (initialHeap first byte).mach = initBlock (bootFlat first 512 byte) from rfl,
      initBlock_supply, bootFlat_supply, ← map_drop, drop_range', Nat.mul_one,
      show first + 512 + (0xFF00 - first - 512 - k) = 0xFF00 - k by omega,
      show 0xFF00 - first - 512 - (0xFF00 - first - 512 - k) = k by omega]
  rw [hdrop] at hanswers
  exact ⟨_, .takes hrel (initialHeap_inv hpos (by omega)).toHeapBounds hwf hbits,
    hrel.on_mach (hrel.mach.takes hwf hanswers hbits)⟩

end Boot

/-- A kernel that ends one and a half megabytes into the higher half. -/
theorem linked_small : KernelLinked (kernelVbase + 0x180000) ∧ SmallKernel (kernelVbase + 0x180000) := by
  unfold KernelLinked SmallKernel kernelVbase
  omega

theorem exists_small (byte : UInt8) : ∃ g, Started (kernelVbase + 0x180000) g ∧
    HeapRel (HwRel 0x180000 heapTop) (initialHeap 0x585 byte) g :=
  exists_started linked_small.1 (n := 0x180) (by decide) (by decide) byte (by decide) le_rfl (by decide)

/-! ## Runs -/

/-- The heap, and the allocations that are live. -/
structure PagedHeap where
  heap : HeapState (VmmState Hw)
  live : List Alloc

def PagedHeap.flat (s : PagedHeap) : HeapSys := ⟨s.heap.flat, s.live⟩

/-- A call of the heap that returned `ret` (`0` for the `void` calls), or other code. -/
inductive PagedEvent
  | call (c : HeapCall) (ret : Nat)
  | other

/-- One step, where callers make the calls of `ok`. -/
inductive PagedStep (ok : HeapSys → HeapCall → Prop) : PagedHeap → PagedEvent → PagedHeap → Prop
  | call {s : PagedHeap} {c : HeapCall} {ret : Nat} {h' : HeapState (VmmState Hw)} (hok : ok s.flat c)
      (hrun : Converges (c.run Hw.paged) s.heap ret h') :
      PagedStep ok s (.call c ret) ⟨h', c.after s.live ret⟩
  | other {s : PagedHeap} {m : VmmState Hw} (h : Elsewhere s.heap m) :
      PagedStep ok s .other ⟨{ s.heap with mach := m }, s.live⟩

/-- The heap is private memory, and well formed. -/
def PagedOk (s : PagedHeap) : Prop := OnFrames s.heap ∧ ∃ F, HeapInv s.heap.flat F s.live

/-- A step of calls that keep private memory well formed. -/
theorem pagedStep_ok {ok : HeapSys → HeapCall → Prop}
    (hok : ∀ {t : HeapState Flat} {F : List Nat} {L : List Alloc} {c : HeapCall}, HeapInv t F L →
      ok ⟨t, L⟩ c → ∃ ret t', Converges (c.run (pagedFlat heapTop)) t ret t' ∧
        ∃ F', HeapInv t' F' (c.after L ret))
    (s : PagedHeap) (e : PagedEvent) (s' : PagedHeap) (h : PagedOk s) (hstep : PagedStep ok s e s') :
    PagedOk s' := by
  obtain ⟨hon, F, hinv⟩ := h
  cases hstep with
  | call hallowed hrun =>
    obtain ⟨ret, t', hflat, F', hinv'⟩ := hok hinv hallowed
    obtain ⟨g', hrun', hon', hsame⟩ := hon.call onHw_paged hflat hinv'.toHeapBounds
    obtain ⟨rfl, rfl⟩ := hrun'.unique hrun
    exact ⟨hon', F', hsame.inv hinv'⟩
  | other he =>
    obtain ⟨hon', hsame⟩ := hon.other hinv.toHeapBounds he
    exact ⟨hon', F, hsame.inv hinv⟩

theorem started_ok {kernelEnd : Nat} {g : HeapState (VmmState Hw)} (hk : KernelLinked kernelEnd)
    (hsmall : SmallKernel kernelEnd) (h : Started kernelEnd g) : PagedOk ⟨g, []⟩ :=
  ⟨(started_spec hk hsmall h).1, _, (started_spec hk hsmall h).2⟩

/-- The heap of a small kernel, at some time. -/
def Running (g : HeapState (VmmState Hw)) : Prop :=
  ∃ kernelEnd g0 es live, KernelLinked kernelEnd ∧ SmallKernel kernelEnd ∧ Started kernelEnd g0 ∧
    Run (PagedStep fun s c => c.Allowed s) ⟨g0, []⟩ es ⟨g, live⟩

theorem Running.ok {g : HeapState (VmmState Hw)} (h : Running g) :
    OnFrames g ∧ ∃ F L, HeapInv g.flat F L := by
  obtain ⟨_, _, _, _, hk, hsmall, hstart, hrun⟩ := h
  obtain ⟨hon, F, hinv⟩ := hrun.invariant (pagedStep_ok fun hinv hallowed =>
    HeapCall.run_spec onPages_paged hinv _ hallowed) (started_ok hk hsmall hstart)
  exact ⟨hon, F, _, hinv⟩

theorem Started.running {g : HeapState (VmmState Hw)} (h : Started (kernelVbase + 0x180000) g) :
    Running g :=
  ⟨_, g, [], [], linked_small.1, linked_small.2, h, .nil _⟩

/-- A call that returns on private memory is a step. -/
theorem PagedStep.of_returns {root n ret : Nat} {t t' : HeapState Flat} {g : HeapState (VmmState Hw)}
    {F : List Nat} {L L' : List Alloc} {c : HeapCall} (hrel : HeapRel (HwRel root heapTop) t g)
    (hinv : HeapInv t F L) (hret : Returns (c.run (pagedFlat heapTop) n) t ret t')
    (hallowed : ∀ h, c.Allowed ⟨h, L⟩) (hafter : c.after L ret = L') :
    ∃ g', PagedStep (fun s c => c.Allowed s) ⟨g, L⟩ (.call c ret) ⟨g', L'⟩ ∧
      HeapRel (HwRel root heapTop) t' g' ∧ ∃ F', HeapInv t' F' L' := by
  subst hafter
  obtain ⟨_, hconv, heq⟩ := (MachineSim.refl _).returns (.refl t) hret
  obtain rfl := heq.eq
  obtain ⟨r, u, hconv', F', hinv'⟩ := c.run_spec onPages_paged hinv (hallowed t)
  obtain ⟨rfl, rfl⟩ := hconv.unique hconv'
  obtain ⟨g', hrun, hrel'⟩ := (heapSim onHw_paged).converges hrel hconv
  exact ⟨g', .call (hallowed _) hrun, hrel', F', hinv'⟩

/-- The headers in the memory of the heap. -/
def PagedHeap.headers (s : PagedHeap) : Headers := Mm.headers s.heap.mach.mach.byteAt

end GosKernel.Mm
