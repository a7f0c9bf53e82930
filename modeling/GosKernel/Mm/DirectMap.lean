import GosKernel.Ipc.SharedMem
import GosKernel.Mm.Hardware
import GosKernel.Mm.Heap

/-!
# The direct map

`vmm_init` maps the first gigabyte of physical memory at `0` and at `KERNEL_VBASE`, and
switches to the new tables (`vmmInit_spec`). The VMM itself relies on the second of the
two, the window, ever after. The heap and shared memory map their pages inside the
window: `direct_map_preserved` says when the window survives that, and
`shm_create_breaks_window` that it does not in general.
-/

namespace GosKernel.Mm

open Exec Ipc List

/-! ## The tables `vmm_init` needs -/

variable {i n phys root base : Nat} {a b : Fin 512} {k : Kernel} {ops : List PageOp}
  {s : VmmState Hw}

/-- The gigabytes of `vmm_init`, with their indices in the PML4 and in the table below it. -/
inductive BootHalf : Nat → Fin 512 → Fin 512 → Prop
  | low : BootHalf 0 0 0
  | high : BootHalf kernelVbase 511 510

theorem BootHalf.indexAt (h : BootHalf base a b) (hi : i < 0x40000) :
    indexAt (base + i * 4096) 3 = a ∧ indexAt (base + i * 4096) 2 = b ∧
      indexAt (base + i * 4096) 1 = ⟨i / 512, by omega⟩ := by
  refine ⟨Fin.ext ?_, Fin.ext ?_, Fin.ext ?_⟩
  all_goals
    show vmmVirtToIndex _ _ = _
    rw [vmmVirtToIndex_eq]
    cases h <;> norm_num only [kernelVbase] <;> show _ = _ <;> omega

/-- The operations of `vmm_init`. -/
def bootOps : List PageOp := mapRangeOps 0 0 0x40000 0 ++ mapRangeOps kernelVbase 0 0x40000 0

variable {fuel virt : Nat} {op : PageOp} {s' v : VmmState Hw}

theorem BootHalf.tablePaths (h : BootHalf base a b) (hi : i < 0x40000) :
    tablePaths (wrap64 (base + i * pageSize)) =
      [[a], [b, a], [⟨i / 512, by omega⟩, b, a]] := by
  obtain ⟨h3, h2, h1⟩ := h.indexAt hi
  rw [wrap64_of_lt (show base + i * pageSize < 2 ^ 64 by
    cases h <;> unfold pageSize <;> norm_num only [kernelVbase] <;> omega)]
  unfold Mm.tablePaths tablePath pageSize
  rw [h1, h2, h3]

/-- The frames that mapping the first `c` pages of a half takes for tables. -/
def taken (c : Nat) : Nat := if c = 0 then 0 else 2 + (c + 511) / 512

/-- The tables of the first `c` pages of a half, when the frames from `m` on were taken for them:
the two upper ones come first, and then one page table after the other. -/
structure HalfTables (root : Nat) (a b : Fin 512) (m c : Nat) (s : Hw) : Prop where
  absent : c = 0 → tableAt s root [a] = none
  upper : 0 < c → ∀ path ∈ [[a], [b, a]], ∃ P, tableAt s root path = some P ∧ P / 4096 < m + 3
  lower : ∀ j : Fin 512, 512 * j.val < c → ∃ P, tableAt s root [j, b, a] = some P ∧
    P / 4096 < m + 3 + j ∧ (j.val ≠ 0 → m + 2 + j ≤ P / 4096)
  rest : ∀ j : Fin 512, c ≤ 512 * j.val → tableAt s root [j, b, a] = none

/-- The state after the first `c` pages of a half. -/
structure Built (root : Nat) (a b : Fin 512) (ops : List PageOp) (m c : Nat) (s : VmmState Hw) :
    Prop where
  refines : Refines bootView.toTableReads root ops s
  packed : s.mach.pmm.Packed (m + taken c)
  tables : HalfTables root a b m c s.mach
  high : a ≠ 511 → tableAt s.mach root [511] = none

/-! ## What the tables hold afterwards -/

/-- In a range that touches the page once, the last touch is at that index. -/
theorem lastTouch_rangeOps (op : Nat → PageOp) {v : Nat} (ops : List PageOp) (hi : i < n)
    (hop : ∀ j < n, (op j).touches v = decide (j = i)) :
    lastTouch (ops ++ rangeOps op n 0) v = some (op i) := by
  induction n with
  | zero => omega
  | succ n ih =>
    have hlast : rangeOps op (n + 1) 0 = rangeOps op n 0 ++ [op n] := by
      unfold rangeOps
      rw [range'_concat]
      simp
    rw [hlast, ← append_assoc, lastTouch_snoc, hop n (Nat.lt_succ_self n)]
    by_cases heq : n = i
    · rw [decide_eq_true heq, heq]
      rfl
    · rw [decide_eq_false heq]
      exact ih (by omega) fun j hj => hop j (by omega)

/-- After `bootOps` the window leads to every frame. -/
theorem lastTouch_bootOps {P : Nat} (hP : Framed P) :
    (lastTouch bootOps (kernelVbase + P)).bind PageOp.frame = some P := by
  obtain ⟨hpage, hlt⟩ := hP
  have hlast := lastTouch_rangeOps (v := kernelVbase + P) (n := 0x40000) (i := P / 4096)
    (fun i => .map (wrap64 (kernelVbase + i * pageSize)) (wrap64 (0 + i * pageSize)))
    (mapRangeOps 0 0 0x40000 0) (by omega) fun j hj => by
      unfold PageOp.touches PageOp.virt pageSize
      rw [decide_eq_decide]
      dsimp only
      rw [wrap64_of_lt (by unfold kernelVbase; omega)]
      unfold pageNumber kernelVbase
      omega
  unfold bootOps mapRangeOps
  unfold mapRangeOps at hlast
  rw [hlast]
  show some (pageMask (wrap64 (0 + P / 4096 * pageSize))) = some P
  rw [Nat.zero_add, show P / 4096 * pageSize = P by unfold pageSize; omega,
    wrap64_of_lt (by omega), pageMask_eq (by omega), show P / 4096 * 4096 = P by omega]

/-! ## `vmm_init` -/

/-- The frames the boot view takes come one after the other. -/
theorem Keeps.packed {k : Nat} (h : Keeps bootView k s s')
    (hpacked : s.mach.pmm.Packed n) : s'.mach.pmm.Packed (n + k) := by
  obtain ⟨-, n', hpacked'⟩ := h.good
  have havail : pmmAvail s.mach.pmm = pmmAvail s'.mach.pmm + k := h.avail
  rw [hpacked.avail, hpacked'.avail] at havail
  have := hpacked.hi
  have := hpacked'.hi
  have hn : n' = n + k := by omega
  rw [← hn]
  exact hpacked'

/-- The frame of a table that is new lies between the first free frames before and after. -/
theorem Grows.frame {m m' P : Nat} {path : List (Fin 512)} (h : Grows bootView root s s')
    (hpacked : s.mach.pmm.Packed m) (hpacked' : s'.mach.pmm.Packed m')
    (h' : Tables bootView.toTableReads s' root) (hlen : path.length ≤ 3)
    (hnone : tableAt s.mach root path = none) (hP : tableAt s'.mach root path = some P) :
    m ≤ P / 4096 ∧ P / 4096 < m' := by
  have hfree : pmmTestBit s.mach.pmm (P / 4096) = false := h.fresh hlen hnone hP
  have hused : ¬ pmmTestBit s'.mach.pmm (P / 4096) = false := (h'.tree.own hlen hP).2
  have hhi : P / 4096 < 0xFF00 := (h'.tree.own hlen hP).1.2
  have hlo := (hpacked.wf.region_of_clear (hhi.trans (by decide)) hfree).1
  rw [hpacked.bits _ hlo hhi, decide_eq_false_iff_not] at hfree
  rw [hpacked'.bits _ hlo hhi, decide_eq_false_iff_not] at hused
  omega

section Half

variable {c m : Nat} (hhalf : BootHalf base a b)
include hhalf

/-- The tables that are missing for the next page. -/
theorem Built.missing (h : Built root a b ops m c s) (hc : c < 0x40000) :
    taken c + Mm.missing bootView s root (wrap64 (base + c * pageSize)) = taken (c + 1) := by
  rw [Mm.missing, hhalf.tablePaths hc, countP_cons, countP_cons, countP_cons, countP_nil]
  simp only [decide_eq_true_eq]
  rcases Nat.eq_zero_or_pos c with rfl | hpos
  · have h1 : bootView.table s root [a] = none := h.tables.absent rfl
    have h2 := bootView.table_cons_none h1 b
    rw [if_pos h1, if_pos h2, if_pos (bootView.table_cons_none h2 _)]
    rfl
  obtain ⟨P1, h1, -⟩ := h.tables.upper hpos [a] (by simp)
  obtain ⟨P2, h2, -⟩ := h.tables.upper hpos [b, a] (by simp)
  have hpresent : ∀ {path : List (Fin 512)} {P : Nat}, tableAt s.mach root path = some P →
      (if bootView.table s root path = none then 1 else 0) = 0 := by
    intro path P hP
    rw [show bootView.table s root path = some P from hP]
    rfl
  rw [hpresent h1, hpresent h2]
  have htaken : taken c = 2 + (c + 511) / 512 := if_neg (by omega)
  have htaken' : taken (c + 1) = 2 + (c + 1 + 511) / 512 := if_neg (by omega)
  by_cases hnew : c ≤ 512 * (c / 512)
  · have hnone : bootView.table s root [⟨c / 512, by omega⟩, b, a] = none := h.tables.rest _ hnew
    rw [if_pos hnone]
    omega
  · obtain ⟨P, hP, -⟩ := h.tables.lower ⟨c / 512, by omega⟩ (not_le.mp hnew)
    rw [hpresent hP]
    omega

/-- The next page: `vmm_map_page` halts for want of frames, or takes those of its tables. -/
theorem Built.mapPage (h : Built root a b ops m c s) (hc : c < 0x40000) (flags : Nat) :
    (vmmMapPage Hw.machine.toMachine (wrap64 (base + c * pageSize)) (wrap64 (0 + c * pageSize))
        flags s = none ∧ 0xFF00 < m + taken (c + 1)) ∨
    ∃ s', Returns (vmmMapPage Hw.machine.toMachine (wrap64 (base + c * pageSize))
        (wrap64 (0 + c * pageSize)) flags) s () s' ∧
      Built root a b (ops ++ [.map (wrap64 (base + c * pageSize)) (wrap64 (0 + c * pageSize))]) m
        (c + 1) s' := by
  have hmissing := h.missing hhalf hc
  have hpaths := hhalf.tablePaths hc
  rcases vmmMapPage_spec h.refines.tables (wrap64 (base + c * pageSize)) flags
    (wrap64_lt (0 + c * pageSize)) with ⟨hstop, havail⟩ | ⟨s', hrun, h', hkeep, hgrow, htab, htr⟩
  · have havail' : pmmAvail s.mach.pmm < _ := havail
    rw [h.packed.avail] at havail'
    exact .inl ⟨hstop, by omega⟩
  have hpacked := hkeep.packed h.packed
  rw [Nat.add_assoc, hmissing] at hpacked
  -- a table of this page that was missing is there now, in one of the frames just taken
  have hnew : ∀ path ∈ [[a], [b, a], [⟨c / 512, by omega⟩, b, a]],
      tableAt s.mach root path = none → ∃ P, tableAt s'.mach root path = some P ∧
        m + taken c ≤ P / 4096 ∧ P / 4096 < m + taken (c + 1) := by
    intro path hpath hnone
    have hlen : path.length ≤ 3 := length_of_mem_tablePaths (hpaths ▸ hpath)
    cases hP : tableAt s'.mach root path with
    | none => exact absurd (hpaths ▸ hpath) ((htab path hlen).mp hP).2
    | some P => exact ⟨P, rfl, hgrow.frame h.packed hpacked h' hlen hnone hP⟩
  have hupper : ∀ path ∈ [[a], [b, a]], path ∈ [[a], [b, a], [⟨c / 512, by omega⟩, b, a]] :=
    fun path hpath => mem_append_left [_] hpath
  refine .inr ⟨s', hrun, h.refines.snoc h' htr, hpacked, ⟨nofun, fun _ path hpath => ?_,
    fun j hj => ?_, fun j hj => (htab _ (by simp)).mpr ⟨h.tables.rest j (by omega), ?_⟩⟩,
    fun ha => (htab _ (by simp)).mpr ⟨h.high ha, ?_⟩⟩
  · rcases Nat.eq_zero_or_pos c with rfl | hpos
    · have h1 : bootView.table s root [a] = none := h.tables.absent rfl
      have hnone : tableAt s.mach root path = none := by
        simp only [mem_cons, not_mem_nil, or_false] at hpath
        rcases hpath with rfl | rfl
        · exact h1
        · exact bootView.table_cons_none h1 b
      obtain ⟨P, hP, -, hlt⟩ := hnew path (hupper path hpath) hnone
      exact ⟨P, hP, hlt⟩
    · obtain ⟨P, hP, hlt⟩ := h.tables.upper hpos path hpath
      exact ⟨P, hgrow.kept (length_of_mem_tablePaths (hpaths ▸ hupper path hpath)) hP, hlt⟩
  · by_cases hold : 512 * j.val < c
    · obtain ⟨P, hP, hbounds⟩ := h.tables.lower j hold
      exact ⟨P, hgrow.kept (by simp) hP, hbounds⟩
    · have hcj : j = ⟨c / 512, by omega⟩ := Fin.ext (by show j.val = c / 512; omega)
      obtain ⟨P, hP, hlo, hhi⟩ := hnew [j, b, a] (by rw [hcj]; simp)
        (h.tables.rest j (by omega))
      refine ⟨P, hP, ?_⟩
      unfold taken at hlo hhi
      rw [if_neg (by omega)] at hhi
      refine ⟨by omega, fun hne => ?_⟩
      rw [if_neg (by omega)] at hlo
      omega
  · rw [hpaths]
    intro hx
    have hjc : j = ⟨c / 512, by omega⟩ := by simpa using hx
    rw [hjc] at hj
    have hj' : c + 1 ≤ 512 * (c / 512) := hj
    omega
  · rw [hpaths]
    simpa using fun hx => ha hx.symm

/-- The loop of `vmm_map_range`, page after page. -/
theorem Built.mapRange (flags n i : Nat) (hi : i + n ≤ 0x40000) (h : Built root a b ops m i s) :
    (vmmMapRangeLoop Hw.machine.toMachine base 0 flags n i s = none ∧
      0xFF00 < m + taken (i + n)) ∨
    ∃ s', Returns (vmmMapRangeLoop Hw.machine.toMachine base 0 flags n i) s () s' ∧
      Built root a b (ops ++ mapRangeOps base 0 n i) m (i + n) s' := by
  induction n generalizing i ops s with
  | zero =>
    refine .inr ⟨s, rfl, ?_⟩
    rw [show mapRangeOps base 0 0 i = [] from rfl, append_nil]
    exact h
  | succ n ih =>
    have hmono : taken (i + 1) ≤ taken (i + (n + 1)) := by
      unfold taken
      rw [if_neg (by omega), if_neg (by omega)]
      omega
    rcases h.mapPage hhalf (by omega) flags with ⟨hstop, hlt⟩ | ⟨s1, hrun, h1⟩
    · exact .inl ⟨bind_of_stops hstop, by omega⟩
    rcases ih (i + 1) (by omega) h1 with ⟨hstop, hlt⟩ | ⟨s', hrun', h'⟩
    · exact .inl ⟨hrun.bind_eq.trans hstop, by rwa [Nat.add_assoc, Nat.add_comm 1] at hlt⟩
    · refine .inr ⟨s', hrun.bind_eq.trans hrun', ?_⟩
      rw [Nat.add_assoc, Nat.add_comm 1, append_assoc, singleton_append] at h'
      exact h'

end Half

/-- The mappings of `vmm_init`. -/
def bootMaps : Exec (VmmState Hw) Unit :=
  vmmMapRange Hw.machine.toMachine 0 0 0x40000 (pagePresent ||| pageWritable) >>= fun _ =>
    vmmMapRange Hw.machine.toMachine kernelVbase 0 0x40000 (pagePresent ||| pageWritable)

/-- What `vmm_init` does once it has a frame for the PML4. -/
theorem vmmInit_build {m : Nat} (s1 : VmmState Hw) (hpml4 : s1.kernelPml4 = root + kernelVbase)
    (hcr3 : s1.mach.cr3 = none) (hpacked : s1.mach.pmm.Packed m)
    (hown : bootView.own s1.mach root) :
    ∃ s2, Returns (vmmClearLoop Hw.machine.toMachine (root + kernelVbase) ptEntries 0) s1 () s2 ∧
      ((bootMaps s2 = none ∧ 0xFF00 < m + 1028) ∨
        ∃ s4, Returns bootMaps s2 () s4 ∧ Built root 511 510 bootOps (m + 514) 0x40000 s4) := by
  have hgood : bootView.Good s1.mach := ⟨hcr3, m, hpacked⟩
  obtain ⟨s2, hclear, hkeep2, -⟩ := vmmClearLoop_spec (V := bootView) hown.1 512 0 (by omega) s1
    hgood
  obtain ⟨h2, hempty⟩ := refines_of_clear (V := bootView) hpml4 hgood hown hclear
  have hbuilt : ∀ {a b : Fin 512} {s : VmmState Hw} {ops : List PageOp} {m : Nat},
      Refines bootView.toTableReads root ops s → s.mach.pmm.Packed m →
      tableAt s.mach root [a] = none → tableAt s.mach root [511] = none →
      Built root a b ops m 0 s := by
    intro a b s ops m h hp ha hhigh
    refine ⟨h, hp, ⟨fun _ => ha, fun hx => absurd hx (lt_irrefl 0), fun j hj => absurd hj
      (Nat.not_lt_zero _), fun j _ => ?_⟩, fun _ => hhigh⟩
    exact bootView.table_cons_none (bootView.table_cons_none ha b) j
  refine ⟨s2, hclear, ?_⟩
  rcases (hbuilt h2 (hkeep2.packed hpacked) (hempty 0 []) (hempty 511 [])).mapRange
    BootHalf.low (pagePresent ||| pageWritable) 0x40000 0 (by omega) with
    ⟨hstop, hlt⟩ | ⟨s3, hrun3, h3⟩
  · exact .inl ⟨bind_of_stops hstop, hlt.trans (show m + 514 < m + 1028 by omega)⟩
  rcases (hbuilt h3.refines h3.packed (h3.high (by decide)) (h3.high (by decide))).mapRange
    BootHalf.high (pagePresent ||| pageWritable) 0x40000 0 (by omega) with
    ⟨hstop, hlt⟩ | ⟨s4, hrun4, h4⟩
  · exact .inl ⟨hrun3.bind_eq.trans hstop, hlt⟩
  · exact .inr ⟨s4, hrun3.bind_eq.trans hrun4, h4⟩

/-- Seen from the new tables, the window reaches every frame. -/
theorem tables_of_boot (h : Refines bootView.toTableReads root bootOps s) :
    Tables (hwReads root ∅) { s with mach := { s.mach with cr3 := some root } } root := by
  refine ⟨h.tables.pml4, ⟨rfl, fun P hP _ => ?_⟩,
    h.tables.tree.mono fun P hP => ⟨⟨hP.1.1, id⟩, hP.2⟩⟩
  have hflat := h.flat (kernelVbase + P)
  rw [lastTouch_bootOps hP] at hflat
  exact (translate_eq_walk (R := bootView.toTableReads) rfl s _ _).symm.trans hflat

/-- `vmm_init` from the frame it gets for the PML4 on. -/
theorem vmmInit_run {s0 : VmmState Hw} {m1 : Hw} {m : Nat}
    (halloc : Returns (vmmOnMach Hw.machine.pmmAllocPage) s0 root { s0 with mach := m1 })
    (hcr3 : m1.cr3 = none) (hpacked : m1.pmm.Packed m) (hown : bootView.own m1 root) :
    (vmmInit Hw.machine s0 = none ∧ 0xFF00 < m + 1028) ∨
    ∃ s4, Returns (vmmInit Hw.machine) s0 ()
        { s4 with mach := { s4.mach with cr3 := some root } } ∧
      Built root 511 510 bootOps (m + 514) 0x40000 s4 := by
  have hroot : root + kernelVbase < 2 ^ 64 := hown.1.1.page.2
  have hset : Returns (Exec.update fun h : VmmState Hw =>
      { h with kernelPml4 := wrap64 (root + kernelVbase) }) { s0 with mach := m1 } ()
      ⟨root + kernelVbase, m1⟩ := by
    rw [wrap64_of_lt hroot]
    rfl
  obtain ⟨s2, hclear, hmaps⟩ := vmmInit_build ⟨root + kernelVbase, m1⟩ rfl hcr3 hpacked
    hown
  have hmain : vmmInit Hw.machine s0 =
      (bootMaps >>= fun _ => vmmSwitchPml4 Hw.machine (root + kernelVbase)) s2 := by
    unfold vmmInit bootMaps
    rw [halloc.bind_eq, hset.bind_eq, read_bind, bind_assoc]
    exact hclear.bind_eq
  unfold Returns
  rw [hmain]
  rcases hmaps with ⟨hstop, hlt⟩ | ⟨s4, hrun, h4⟩
  · exact .inl ⟨bind_of_stops hstop, hlt⟩
  · refine .inr ⟨s4, ?_, h4⟩
    rw [hrun.bind_eq]
    unfold vmmSwitchPml4
    rw [sub64_of_le (Nat.le_add_left _ _) hroot, Nat.add_sub_cancel]
    rfl

/-- **`vmm_init`** halts if there are less than 1029 frames. Otherwise it takes them, those of the
tables at `KERNEL_VBASE` last, and leaves a machine whose window reaches every frame of the first
gigabyte. -/
theorem vmmInit_spec (s0 : VmmState Hw) (hcr3 : s0.mach.cr3 = none)
    (hpacked : s0.mach.pmm.Packed n) :
    (vmmInit Hw.machine s0 = none ∧ 0xFF00 < n + 1029) ∨
    ∃ s', Returns (vmmInit Hw.machine) s0 () s' ∧ n + 1029 ≤ 0xFF00 ∧
      Tables (hwReads (n * 4096) ∅) s' (n * 4096) ∧ s'.mach.pmm.Packed (n + 1029) ∧
      HalfTables (n * 4096) 511 510 (n + 515) 0x40000 s'.mach := by
  rcases hpacked.alloc with ⟨hn, hfail⟩ | ⟨hret, htakes, hpacked1⟩
  · -- the PML4 is in frame `0`, and there is no frame for the next table
    have halloc : Returns (vmmOnMach Hw.machine.pmmAllocPage) s0 0 { s0 with mach := s0.mach } := by
      show some ((pmmAllocPage s0.mach.pmm).1,
        { s0 with mach := { s0.mach with pmm := (pmmAllocPage s0.mach.pmm).2 } }) = _
      rw [hfail]
    have hown : bootView.own s0.mach 0 := by
      refine ⟨⟨⟨by norm_num, by norm_num⟩, by norm_num⟩, fun hfree => ?_⟩
      have hbit : pmmTestBit s0.mach.pmm 0 = false := hfree
      rw [hpacked.wf.unavailable 0 (.inl (by norm_num))] at hbit
      cases hbit
    rcases vmmInit_run halloc hcr3 hpacked hown with ⟨hstop, -⟩ | ⟨s4, -, h4⟩
    · exact .inl ⟨hstop, by omega⟩
    · have := h4.packed.hi
      omega
  · have halloc : Returns (vmmOnMach Hw.machine.pmmAllocPage) s0 (n * 4096)
        { s0 with mach := { s0.mach with pmm := (pmmAllocPage s0.mach.pmm).2 } } := by
      rw [← hret]
      rfl
    have hhi := hpacked1.hi
    have hown : bootView.own { s0.mach with pmm := (pmmAllocPage s0.mach.pmm).2 } (n * 4096) := by
      refine ⟨⟨⟨by omega, by omega⟩, by omega⟩, fun hfree => ?_⟩
      have hbit : pmmTestBit (pmmAllocPage s0.mach.pmm).2 (n * 4096 / 4096) = false := hfree
      rw [htakes.bits] at hbit
      simp at hbit
    rcases vmmInit_run halloc hcr3 hpacked1 hown with ⟨hstop, hlt⟩ | ⟨s4, hrun, h4⟩
    · exact .inl ⟨hstop, by omega⟩
    · have hpacked4 : s4.mach.pmm.Packed (n + 1029) := h4.packed
      have htab4 := h4.tables
      rw [Nat.add_assoc] at htab4
      have := hpacked4.hi
      exact .inr ⟨_, hrun, by omega, tables_of_boot h4.refines, hpacked4,
        htab4.absent, htab4.upper, htab4.lower, htab4.rest⟩

/-! ## The kernel -/

/-- Below the heap: the machine behind the page tables. -/
def Hw.paged : PagedMachine (VmmState Hw) where
  load8 addr := vmmOnMach (Hw.machine.load8 addr)
  store8 addr v := vmmOnMach (Hw.machine.store8 addr v)
  load64 addr := vmmOnMach (Hw.machine.load64 addr)
  store64 addr v := vmmOnMach (Hw.machine.store64 addr v)
  pmmAllocPage := vmmOnMach Hw.machine.pmmAllocPage
  vmmMapPage := vmmMapPage Hw.machine.toMachine

/-- Below shared memory: the heap, the VMM and the hardware. -/
def Hw.shm : ShmMachine (HeapState (VmmState Hw)) where
  pmmAllocPages fuel count := onMach (vmmOnMach fun s =>
    (pmmAllocPages fuel s.pmm count).map fun r => (r.1, { s with pmm := r.2 }))
  vmmMapRange virt phys count flags :=
    onMach (vmmMapRange Hw.machine.toMachine virt phys count flags)

/-- The kernel's memory management: shared memory, heap, VMM and hardware. -/
abbrev Kernel := ShmState (HeapState (VmmState Hw))

/-- The kernel after `vmm_init`. -/
def Kernel.booted (vmm : VmmState Hw) : Kernel := .bss (.bss vmm)

def Kernel.vmm (k : Kernel) : VmmState Hw := k.mach.mach

/-- The calls that may edit the tables once they are set up. -/
inductive KernelCall
  | heapInit
  | kmalloc (size : Nat)
  | kfree (ptr : Nat)
  | shmCreate (name : Option CString) (size : Nat) (outAddr : Bool)
  | shmClose (name : CString)

namespace KernelCall

/-- Run the call; the result is that of `kmalloc`. -/
def run : KernelCall → (fuel : Nat) → Exec Kernel Nat
  | heapInit, _ => (fun _ => 0) <$> shmOnMach (Mm.heapInit Hw.paged)
  | kmalloc size, fuel => shmOnMach (Mm.kmalloc Hw.paged fuel size)
  | kfree ptr, _ => (fun _ => 0) <$> shmOnMach (Mm.kfree Hw.paged ptr)
  | shmCreate name size outAddr, fuel => (fun _ => 0) <$> Ipc.shmCreate Hw.shm fuel name size outAddr
  | shmClose name, _ => (fun _ => 0) <$> Ipc.shmClose name

end KernelCall

/-- The kernel, and the pointers `kmalloc` gave out. -/
structure KernelSys where
  kernel : Kernel
  live : List Nat

/-- Sizes are 64-bit words, and only live pointers are freed. -/
def KernelCall.Allowed (s : KernelSys) : KernelCall → Prop
  | heapInit => True
  | kmalloc size => size < 2 ^ 64
  | kfree ptr => ptr = 0 ∨ ptr ∈ s.live
  | shmCreate _ size _ => size < 2 ^ 64
  | shmClose _ => True

/-- The live pointers after a call. -/
def KernelCall.after (live : List Nat) (ret : Nat) : KernelCall → List Nat
  | kmalloc _ => if ret = 0 then live else ret :: live
  | kfree ptr => live.erase ptr
  | _ => live

/-- A call that returns. -/
inductive KernelStep : KernelSys → KernelCall → KernelSys → Prop
  | call {s : KernelSys} {c : KernelCall} {ret : Nat} {k : Kernel} (hallowed : c.Allowed s)
      (hrun : Converges c.run s.kernel ret k) : KernelStep s c ⟨k, c.after s.live ret⟩

/-- The call maps nothing in the window but frames in their own place: it does not
start the heap, and a region that is new is given the frames its address stands for. -/
def KernelCall.InPlace (k : Kernel) : KernelCall → Prop
  | heapInit => False
  | shmCreate name size _ => ∀ name', name = some name' → shmFind k.regions name' = none →
      ∀ i, shmFindFree k.regions = some i → ∀ fuel phys pmm,
        pmmAllocPages fuel k.vmm.mach.pmm (shmPages size) = some (phys, pmm) →
          phys = 0 ∨ kernelVbase + phys = shmVirt i
  | _ => True

/-- A call that returns and maps frames of the window only in their own place. -/
def InPlaceStep (s : KernelSys) (c : KernelCall) (s' : KernelSys) : Prop :=
  KernelStep s c s' ∧ c.InPlace s.kernel

/-! ## Mapping frames in their own place -/

section InPlace

variable {root : Nat} {s : VmmState Hw}

/-- Where the window reaches the frame, `vmm_get_phys` returns the physical address. -/
theorem Tables.getPhys_window (h : Tables (hwReads root ∅) s root) {P : Nat} (hP : P < 2 ^ 30) :
    Returns (vmmGetPhys Hw.machine.toMachine (kernelVbase + P)) s P s := by
  have hphys := vmmGetPhys_spec h (kernelVbase + P)
  have hpage : pageNumber (kernelVbase + P) = pageNumber (kernelVbase + P / 4096 * 4096) := by
    unfold pageNumber kernelVbase
    omega
  rw [hwReads_translate, walk_congr hpage,
    h.good.2 (P / 4096 * 4096) ⟨by omega, by omega⟩ id] at hphys
  have hvalue : P / 4096 * 4096 ||| ((kernelVbase + P) &&& 0xFFF) = P := by
    rw [Nat.and_two_pow_sub_one_eq_mod (kernelVbase + P) 12, or_of_aligned (by omega)
      (Nat.mod_lt _ (by norm_num))]
    unfold kernelVbase
    omega
  dsimp only at hphys
  rw [hvalue] at hphys
  exact hphys

theorem Tables.takeFrames {H : Set Nat} (h : Tables (hwReads root H) s root) (pmm : Pmm)
    (hbits : ∀ g, pmmTestBit s.mach.pmm g = true → pmmTestBit pmm g = true) :
    Tables (hwReads root H) { s with mach := { s.mach with pmm := pmm } } root := by
  refine ⟨h.pml4, h.good, h.tree.mono fun P hP => ⟨hP.1, fun hfree => hP.2 ?_⟩⟩
  have hclear : pmmTestBit pmm (P / 4096) = false := hfree
  show pmmTestBit s.mach.pmm (P / 4096) = false
  by_contra hset
  rw [hbits _ (by simpa using hset)] at hclear
  cases hclear

/-- The loop of `vmm_map_range` on frames in their own place. -/
theorem vmmMapRangeLoop_inPlace (F flags n i : Nat) (hF : F % 4096 = 0)
    (hend : F + 4096 * (i + n) ≤ 2 ^ 30) (h : Tables (hwReads root ∅) s root) :
    ∃ m, Returns (vmmMapRangeLoop Hw.machine.toMachine (kernelVbase + F) F flags n i) s ()
        { s with mach := m } ∧
      Tables (hwReads root ∅) { s with mach := m } root ∧ m.pmm = s.mach.pmm := by
  induction n generalizing i s with
  | zero => exact ⟨s.mach, rfl, h, rfl⟩
  | succ n ih =>
    have hQ : Framed (F + 4096 * i) := ⟨by omega, by omega⟩
    have hvirt : wrap64 (kernelVbase + F + i * pageSize) = kernelVbase + (F + 4096 * i) := by
      rw [wrap64_of_lt (by unfold kernelVbase pageSize; omega)]
      unfold pageSize
      omega
    have hphys : wrap64 (F + i * pageSize) = F + 4096 * i := by
      rw [wrap64_of_lt (by unfold pageSize; omega)]
      unfold pageSize
      omega
    have hwalk := h.good.2 _ hQ id
    obtain ⟨m1, hrun, h1, hpmm, -⟩ := vmmMapPage_window ∅ h hQ (F + 4096 * i) flags
      (by omega) (fun _ hx => hx)
      (.inl (by rw [pageMask_eq (by omega)]; have := hQ.1; omega))
      (by rw [hwalk]; exact Option.some_ne_none _) fun _ _ _ _ => id
    obtain ⟨m, hrun', h', hpmm'⟩ := ih (i + 1) (by omega) h1
    refine ⟨m, ?_, h', hpmm'.trans hpmm⟩
    unfold vmmMapRangeLoop
    rw [Returns, hvirt, hphys, hrun.bind_eq]
    exact hrun'

end InPlace

/-! ## The invariant -/

/-- Before `heap_init`, `kmalloc` returns `NULL` and changes nothing. -/
theorem kmalloc_unstarted {σ : Type} (M : PagedMachine σ) (m : σ) (size : Nat) :
    Converges (fun fuel => kmalloc M fuel size) (.bss m) 0 (.bss m) := by
  refine ⟨2, fun fuel hfuel => ?_⟩
  obtain ⟨fuel, rfl⟩ : ∃ k, fuel = k + 2 := ⟨fuel - 2, by omega⟩
  show kmalloc M (fuel + 2) size (.bss m) = some (0, .bss m)
  rw [kmalloc, kmallocBody]
  split
  · rfl
  · -- the list is empty, and the limit leaves no room for a page
    show kmallocGrow M _ _ (.bss m) = _
    unfold kmallocGrow
    rw [read_id_bind]
    have hpages : kmallocPages (kmallocRound size) * pageSize < 2 ^ 64 := by
      unfold kmallocPages
      have := wrap64_lt (wrap64 (kmallocRound size + sizeofHeapBlock) + (pageSize - 1))
      unfold pageSize at this ⊢
      omega
    rw [Exec.ite_apply]
    show (if 0 < wrap64 (0 + kmallocPages (kmallocRound size) * pageSize) then _ else _) = _
    rw [Nat.zero_add, wrap64_of_lt hpages]
    rcases Nat.eq_zero_or_pos (kmallocPages (kmallocRound size)) with hzero | hpos
    · -- a request that wraps around needs no page; the new memory is at `NULL`
      rw [hzero]
      rfl
    · rw [if_pos (Nat.mul_pos hpos (by decide))]
      rfl

/-- The window reaches every frame, and the heap is not started. -/
structure DirectMapped (s : KernelSys) : Prop where
  tables : ∃ root, Tables (hwReads root ∅) s.kernel.vmm root
  wf : s.kernel.vmm.mach.pmm.WF
  unstarted : s.kernel.mach = .bss s.kernel.vmm
  live : s.live = []

theorem DirectMapped.of_mach {s s' : KernelSys} (h : DirectMapped s)
    (hmach : s'.kernel.mach = s.kernel.mach) (hlive : s'.live = []) : DirectMapped s' := by
  have hvmm : s'.kernel.vmm = s.kernel.vmm := congrArg HeapState.mach hmach
  refine ⟨?_, ?_, ?_, hlive⟩
  · rw [hvmm]
    exact h.tables
  · rw [hvmm]
    exact h.wf
  · rw [hmach, hvmm]
    exact h.unstarted

theorem onVmm_returns {α : Type} {c : Exec (VmmState Hw) α} {a : α} (h : Returns c k.vmm a v) :
    Returns (shmOnMach (onMach c)) k a { k with mach := { k.mach with mach := v } } := by
  have h' : c k.mach.mach = some (a, v) := h
  unfold Returns shmOnMach onMach
  rw [h']
  rfl

theorem shm_pmmAllocPages {k1 : Kernel} {count : Nat}
    (h : Returns (shmOnMach (Hw.shm.pmmAllocPages fuel count)) k phys k1) :
    ∃ pmm, pmmAllocPages fuel k.vmm.mach.pmm count = some (phys, pmm) ∧
      k1 = { k with mach := { k.mach with
        mach := { k.vmm with mach := { k.vmm.mach with pmm := pmm } } } } := by
  unfold Returns shmOnMach Hw.shm onMach vmmOnMach at h
  dsimp only at h
  cases hpages : pmmAllocPages fuel k.vmm.mach.pmm count with
  | none =>
    have hnone : pmmAllocPages fuel k.mach.mach.mach.pmm count = none := hpages
    rw [hnone] at h
    cases h
  | some r =>
    have hsome : pmmAllocPages fuel k.mach.mach.mach.pmm count = some r := hpages
    rw [hsome] at h
    cases h
    exact ⟨r.2, rfl, rfl⟩

theorem shmCreateAt_inPlace {k' : Kernel} {size : Nat} {i : Fin shmMaxRegions}
    {name : CString} {r : Int × Option Nat} (h : Tables (hwReads root ∅) k.vmm root)
    (hwf : k.vmm.mach.pmm.WF)
    (hplace : ∀ phys pmm, pmmAllocPages fuel k.vmm.mach.pmm (shmPages size) = some (phys, pmm) →
      phys = 0 ∨ kernelVbase + phys = shmVirt i)
    (hrun : Returns (shmCreateAt Hw.shm fuel i name size) k r k') :
    Tables (hwReads root ∅) k'.vmm root ∧ k'.vmm.mach.pmm.WF ∧
      k'.mach = { k.mach with mach := k'.vmm } := by
  obtain ⟨phys, k1, halloc, hrest⟩ := returns_bind hrun
  obtain ⟨pmm, hpages, rfl⟩ := shm_pmmAllocPages halloc
  have hcount : shmPages size < 2 ^ 64 :=
    lt_of_le_of_lt (Nat.div_le_self _ _) (wrap64_lt _)
  rcases pmmAllocPages_spec hwf hcount hpages with ⟨rfl, rfl⟩ | ⟨g, rfl, htakes, -⟩
  · cases hrest
    exact ⟨h, hwf, rfl⟩
  · have hlo := htakes.lo
    have hhi := htakes.hi
    have hne : g * 4096 ≠ 0 := by omega
    have hvirt : shmVirt i = kernelVbase + g * 4096 :=
      ((hplace _ _ hpages).resolve_left hne).symm
    have h1 := h.takeFrames pmm fun g' hg' => by rw [htakes.bits, hg', Bool.or_true]
    obtain ⟨m, hmap, h', hpmm⟩ := vmmMapRangeLoop_inPlace (g * 4096)
      (pagePresent ||| pageWritable ||| pageUser) (shmPages size) 0 (by omega) (by omega) h1
    rw [if_neg hne] at hrest
    obtain ⟨⟨⟩, k2, hmap', hset⟩ := returns_bind hrest
    rw [hvirt] at hmap'
    obtain ⟨-, rfl⟩ := hmap'.unique (onVmm_returns hmap)
    cases hset
    refine ⟨h', ?_, rfl⟩
    show m.pmm.WF
    rw [hpmm]
    exact htakes.wf

/-- One call keeps the window, if it maps frames in their own place. -/
theorem kernelStep_directMapped (s : KernelSys) (c : KernelCall) (s' : KernelSys)
    (h : DirectMapped s) (hstep : InPlaceStep s c s') : DirectMapped s' := by
  obtain ⟨⟨root, htables⟩, hwf, hun, hlive⟩ := h
  obtain ⟨⟨hallowed, hrun⟩, hplace⟩ := hstep
  obtain ⟨fuel, hfuel⟩ := hrun
  have hret := hfuel fuel (Nat.le_refl fuel)
  cases c with
  | heapInit => exact hplace.elim
  | kmalloc size =>
    -- the heap is not started: `NULL`, and nothing changed
    obtain ⟨n, hnull⟩ := kmalloc_unstarted Hw.paged s.kernel.vmm size
    have hnull' : Returns (shmOnMach (kmalloc Hw.paged (fuel + n) size)) s.kernel 0 s.kernel := by
      unfold Returns shmOnMach
      rw [hun, show kmalloc Hw.paged (fuel + n) size (.bss s.kernel.vmm) = _ from
        hnull (fuel + n) (Nat.le_add_left _ _)]
      show some (0, ({ s.kernel with mach := .bss s.kernel.vmm } : Kernel)) = _
      rw [← hun]
    obtain ⟨rfl, rfl⟩ := (hfuel (fuel + n) (Nat.le_add_right _ _)).unique hnull'
    exact ⟨⟨root, htables⟩, hwf, hun, hlive⟩
  | kfree ptr =>
    rw [KernelCall.Allowed, hlive] at hallowed
    rcases hallowed with rfl | hmem
    · obtain ⟨u, hret', -⟩ := returns_map hret
      cases hret'
      exact ⟨⟨root, htables⟩, hwf, hun, by rw [hlive]; rfl⟩
    · exact absurd hmem not_mem_nil
  | shmCreate name size outAddr =>
    obtain ⟨r, hret', -⟩ := returns_map hret
    rcases shmCreate_cases hret' with
      ⟨-, rfl⟩ | ⟨name', hname, -, ⟨i, -, -, rfl⟩ | ⟨i, hfind, hfree, hnew⟩⟩
    · exact DirectMapped.of_mach ⟨⟨root, htables⟩, hwf, hun, hlive⟩ rfl hlive
    · exact DirectMapped.of_mach ⟨⟨root, htables⟩, hwf, hun, hlive⟩ rfl hlive
    · obtain ⟨h', hwf', hun'⟩ := shmCreateAt_inPlace htables hwf
        (hplace name' hname hfind i hfree fuel) hnew
      rw [hun] at hun'
      exact ⟨⟨root, h'⟩, hwf', hun', hlive⟩
  | shmClose name =>
    obtain ⟨r, hret', -⟩ := returns_map hret
    exact DirectMapped.of_mach ⟨⟨root, htables⟩, hwf, hun, hlive⟩ (shmClose_mach hret') hlive

theorem map_one_page {virt' phys' flags : Nat}
    (hvirt : wrap64 (virt + 0 * pageSize) = virt') (hphys : wrap64 (phys + 0 * pageSize) = phys')
    (h : Returns (vmmMapPage Hw.machine.toMachine virt' phys' flags) s () s') :
    Returns (vmmMapRange Hw.machine.toMachine virt phys 1 flags) s () s' := by
  unfold vmmMapRange vmmMapRangeLoop
  rw [hvirt, hphys]
  exact h.bind_eq

/-- The first region, of one page: its frame is the next one, and its address that of
slot `0`. -/
theorem shmCreate_first {vmm : VmmState Hw} (hpacked : vmm.mach.pmm.Packed n)
    (hn : n < 0xFF00) (name : CString)
    (hmap : Returns (vmmMapRange Hw.machine.toMachine (shmVirt 0) (n * 4096) 1
        (pagePresent ||| pageWritable ||| pageUser))
      { vmm with mach := { vmm.mach with pmm := (pmmAllocPage vmm.mach.pmm).2 } } () v) :
    ∃ s, KernelStep ⟨.booted vmm, []⟩ (.shmCreate (some name) 1 true) s ∧ s.kernel.vmm = v := by
  obtain ⟨hret, -⟩ := hpacked.alloc.resolve_left fun hx => by omega
  have hne : n * 4096 ≠ 0 := by
    have := hpacked.lo
    omega
  let k1 : Kernel := .booted { vmm with mach :=
    { vmm.mach with pmm := (pmmAllocPage vmm.mach.pmm).2 } }
  have halloc : ∀ fuel, Returns (shmOnMach (Hw.shm.pmmAllocPages fuel 1)) (Kernel.booted vmm)
      (n * 4096) k1 := fun fuel => by
    rw [← hret]
    rfl
  have hmap' := onVmm_returns (k := k1) hmap
  let k2 : Kernel := { k1 with mach := { k1.mach with mach := v } }
  let region : ShmRegion :=
    ⟨name.take (shmNameMax - 1), shmVirt 0, wrap64 (1 * pageSize), 1, true⟩
  let k3 : Kernel := { k2 with regions := Function.update k2.regions 0 region }
  have hcreate : ∀ fuel, Returns (shmCreateAt Hw.shm fuel 0 name 1) (Kernel.booted vmm)
      (0, some (shmVirt 0)) k3 := fun fuel => by
    refine ((halloc fuel).bind_eq).trans ?_
    rw [if_neg hne]
    exact hmap'.bind_eq
  have hconv : Converges (KernelCall.shmCreate (some name) 1 true).run (Kernel.booted vmm) 0 k3 := by
    refine ⟨0, fun fuel _ => ?_⟩
    have hrun : shmCreate Hw.shm fuel (some name) 1 true (Kernel.booted vmm) = _ := hcreate fuel
    show ((fun _ => 0) <$> shmCreate Hw.shm fuel (some name) 1 true) (Kernel.booted vmm) = _
    rw [map_apply, hrun]
    rfl
  exact ⟨⟨k3, []⟩, .call (show 1 < 2 ^ 64 by norm_num) hconv, rfl⟩

/-- The machine when `vmm_init` is called. -/
def bootState (ram : ByteMem) (kernelEnd : Nat) : VmmState Hw :=
  ⟨0, ⟨ram, none, pmmInit kernelEnd .bss⟩⟩

/-- **Direct-map preservation.** In every state reached from `vmm_init` by calls that map
frames of the window only in their own place, `vmm_get_phys (KERNEL_VBASE + P)` is `P`
for every physical address `P` below 1 GiB. -/
theorem direct_map_preserved {ram : ByteMem} {kernelEnd : Nat} (hk : KernelLinked kernelEnd)
    {vmm : VmmState Hw} (hinit : Returns (vmmInit Hw.machine) (bootState ram kernelEnd) () vmm)
    {calls : List KernelCall} {s : KernelSys} (hrun : Run InPlaceStep ⟨.booted vmm, []⟩ calls s)
    {P : Nat} (hP : P < 2 ^ 30) :
    Returns (vmmGetPhys Hw.machine.toMachine (kernelVbase + P)) s.kernel.vmm P s.kernel.vmm := by
  have hstart : DirectMapped ⟨.booted vmm, []⟩ := by
    rcases vmmInit_spec (bootState ram kernelEnd) rfl (pmmInit_packed hk) with
      ⟨hstop, -⟩ | ⟨vmm', hinit', -, htables, hpacked, -⟩
    · rw [Returns, hstop] at hinit
      cases hinit
    · obtain ⟨-, rfl⟩ := hinit.unique hinit'
      exact ⟨⟨_, htables⟩, hpacked.wf, rfl, rfl⟩
  obtain ⟨⟨root, h⟩, -⟩ := hrun.invariant kernelStep_directMapped hstart
  exact h.getPhys_window hP

/-- A kernel image that ends where the first region finds its frame in place. -/
theorem direct_map_preserved_first :
    ∃ vmm s, Returns (vmmInit Hw.machine) (bootState (fun _ => 0) (kernelVbase + 0x7FB000)) () vmm ∧
      Run InPlaceStep ⟨.booted vmm, []⟩ [.shmCreate (some ⟨[97], by decide⟩) 1 true] s ∧
      Returns (vmmGetPhys Hw.machine.toMachine (kernelVbase + 0xC00123)) s.kernel.vmm 0xC00123
        s.kernel.vmm := by
  have hk : KernelLinked (kernelVbase + 0x7FB000) := ⟨by omega, by decide⟩
  have hboot : (pmmInit (kernelVbase + 0x7FB000) .bss).Packed 0x7FB := pmmInit_packed hk
  obtain ⟨vmm, hinit, -, h, hpacked, -⟩ := (vmmInit_spec
    (bootState (fun _ => 0) (kernelVbase + 0x7FB000)) rfl hboot).resolve_left fun hx => by omega
  obtain ⟨hret, htakes, -⟩ := hpacked.alloc.resolve_left fun hx => by omega
  have h1 := h.takeFrames (pmmAllocPage vmm.mach.pmm).2 fun g hg => by
    rw [htakes.bits, hg, Bool.or_true]
  obtain ⟨m, hmap, -⟩ := vmmMapRangeLoop_inPlace (0xC00 * 4096)
    (pagePresent ||| pageWritable ||| pageUser) 1 0 (by norm_num) (by norm_num) h1
  obtain ⟨s, hstep, -⟩ := shmCreate_first hpacked (by norm_num) ⟨[97], by decide⟩ hmap
  have hplace : (KernelCall.shmCreate (some ⟨[97], by decide⟩) 1 true).InPlace (.booted vmm) := by
    rintro name - - i hi fuel phys pmm hpages
    cases hi
    have hphys : pmmAllocPage vmm.mach.pmm = (phys, pmm) := Option.some.inj hpages
    rw [hphys] at hret
    exact .inr (congrArg (kernelVbase + ·) hret)
  have hrun : Run InPlaceStep ⟨.booted vmm, []⟩ [.shmCreate (some ⟨[97], by decide⟩) 1 true] s :=
    .cons ⟨hstep, hplace⟩ (.nil s)
  exact ⟨vmm, s, hinit, hrun, direct_map_preserved hk hinit hrun (by norm_num)⟩

/-- The window breaks: with a kernel image of 3 MiB, `vmm_init` takes the frames up to
`0x805000`, and the first region is mapped to that frame, in the place of `0xC00000`. -/
theorem shm_create_breaks_window :
    ∃ vmm s, Returns (vmmInit Hw.machine) (bootState (fun _ => 0) (kernelVbase + 0x400000)) () vmm ∧
      Run KernelStep ⟨.booted vmm, []⟩ [.shmCreate (some ⟨[97], by decide⟩) 1 true] s ∧
      Returns (vmmGetPhys Hw.machine.toMachine (kernelVbase + 0xC00000)) s.kernel.vmm 0x805000
        s.kernel.vmm := by
  have hboot : (pmmInit (kernelVbase + 0x400000) .bss).Packed 0x400 :=
    pmmInit_packed ⟨by omega, by decide⟩
  obtain ⟨vmm, hinit, -, h, hpacked, -⟩ := (vmmInit_spec
    (bootState (fun _ => 0) (kernelVbase + 0x400000)) rfl hboot).resolve_left fun hx => by omega
  obtain ⟨-, htakes, hpacked'⟩ := hpacked.alloc.resolve_left fun hx => by omega
  have h1 := h.takeFrames (pmmAllocPage vmm.mach.pmm).2 fun g hg => by
    rw [htakes.bits, hg, Bool.or_true]
  have hQ : Framed 0xC00000 := ⟨by norm_num, by norm_num⟩
  obtain ⟨m, hrun, h', -, -, hwalk⟩ := vmmMapPage_window {0xC00000} h1 hQ 0x805000
    (pagePresent ||| pageWritable ||| pageUser) (by norm_num) (Set.empty_subset _) (.inr rfl)
    (by rw [h1.good.2 _ hQ id]; exact Option.some_ne_none _) (by
      -- no table lies in the frame that is cut off, as that is still free
      rintro path P hlen hP rfl
      refine (h1.tree.own hlen hP).2 ?_
      show pmmTestBit (pmmAllocPage vmm.mach.pmm).2 (0xC00000 / 4096) = false
      rw [hpacked'.bits _ (by norm_num) (by norm_num)]
      rfl)
  have hvirt : wrap64 (shmVirt 0 + 0 * pageSize) = kernelVbase + 0xC00000 := by decide
  have hphys : wrap64 (0x805 * 4096 + 0 * pageSize) = 0x805000 := by decide
  have hmap := map_one_page hvirt hphys hrun
  obtain ⟨s, hstep, hvmm⟩ := shmCreate_first hpacked (by norm_num) ⟨[97], by decide⟩ hmap
  refine ⟨vmm, s, hinit, .cons hstep (.nil _), ?_⟩
  rw [hvmm]
  have hget := vmmGetPhys_spec h' (kernelVbase + 0xC00000)
  rw [hwReads_translate, hwalk] at hget
  exact hget

end GosKernel.Mm
