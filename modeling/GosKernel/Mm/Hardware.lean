import GosKernel.Mm.Pmm
import GosKernel.Mm.VmmRefinement

/-!
# Physical memory behind the page tables

The machine the kernel really runs on: virtual addresses go through the tables that
`cr3` points to, and the VMM edits these very tables through the window at
`KERNEL_VBASE`. Until `vmm_init` loads `cr3`, the tables of the boot code are in use,
and the window is fixed (`bootView`). Afterwards it is what the tables make of it:
`hwReads root H` is the view of a machine whose window still reaches all frames but
those in `H`.
-/

namespace GosKernel.Mm

open Exec

/-! ## The machine -/

/-- Physical memory, the page-table base register and the frame allocator. -/
structure Hw where
  ram : ByteMem
  /-- `none` while the tables of the boot code are in use. -/
  cr3 : Option Nat
  pmm : Pmm

/-- The tables of the boot code (boot.asm:116-162): the first gigabyte, at address `0`
and at `KERNEL_VBASE`. -/
def bootTranslate (virt : Nat) : Option Nat :=
  if virt < 2 ^ 30 then some virt
  else if kernelVbase ≤ virt ∧ virt < kernelVbase + 2 ^ 30 then some (virt - kernelVbase)
  else none

/-- One level of a walk: the frame that entry `i` of the table refers to. -/
def walkStep (ram : ByteMem) (i : Fin 512) (table : Nat) : Option Nat :=
  entryFrame (ram.load64 (table + 8 * i))

/-- The walk of the memory management unit: the frame of the page of `virt`. -/
def walk (ram : ByteMem) (cr3 virt : Nat) : Option Nat :=
  (walkStep ram (indexAt virt 3) cr3).bind fun pdpt =>
    (walkStep ram (indexAt virt 2) pdpt).bind fun pd =>
      (walkStep ram (indexAt virt 1) pd).bind fun pt => walkStep ram (indexAt virt 0) pt

namespace Hw

/-- The physical address behind `virt`; `none` is a page fault. -/
def physical (s : Hw) (virt : Nat) : Option Nat :=
  match s.cr3 with
  | none => bootTranslate virt
  | some cr3 => (walk s.ram cr3 virt).map (· + virt % 4096)

/-- The machine with its paging unit. Words are aligned in all modelled code, so that
one translation serves a whole word. -/
def machine : MmuMachine Hw where
  load8 addr := fun s => (s.physical addr).map fun p => (s.ram p, s)
  store8 addr v := fun s =>
    (s.physical addr).map fun p => ((), { s with ram := Function.update s.ram p v })
  load64 addr := fun s => (s.physical addr).map fun p => (s.ram.load64 p, s)
  store64 addr v := fun s =>
    (s.physical addr).map fun p => ((), { s with ram := s.ram.store64 p v })
  pmmAllocPage := fun s => some ((pmmAllocPage s.pmm).1, { s with pmm := (pmmAllocPage s.pmm).2 })
  writeCr3 phys := .update fun s => { s with cr3 := some phys }

/-- Entry `i` of the table in frame `P`. -/
def ent (s : Hw) (P : Nat) (i : Fin 512) : Nat := s.ram.load64 (P + 8 * i)

/-- The frame is still up for allocation. -/
def Free (s : Hw) (P : Nat) : Prop := pmmTestBit s.pmm (P / 4096) = false

end Hw

/-! ## Walks -/

theorem walk_congr {v w : Nat} (h : pageNumber v = pageNumber w) (ram : ByteMem) (cr3 : Nat) :
    walk ram cr3 v = walk ram cr3 w := by
  obtain ⟨hpath, h0⟩ := (tablePath_eq_iff v w).mpr h
  unfold tablePath at hpath
  simp only [List.cons.injEq, and_true] at hpath
  obtain ⟨h1, h2, h3⟩ := hpath
  unfold walk
  rw [h0, h1, h2, h3]

/-- The walk is the translation the code's tables stand for. -/
theorem translate_eq_walk {M : Machine Hw} {R : TableReads M} (hR : R.ent = Hw.ent)
    (s : VmmState Hw) (root virt : Nat) : translate R s root virt = walk s.mach.ram root virt := by
  unfold translate TableTree.leaf tablePath walk
  rw [hR]
  simp only [TableTree.node, Option.bind_map, Option.bind_assoc]
  rfl

/-- Addresses in the window are in the page of their frame. -/
theorem pageNumber_window {P x : Nat} (hP : P % 4096 = 0) (hx : x < 4096) :
    pageNumber (P + kernelVbase + x) = pageNumber (kernelVbase + P) := by
  unfold pageNumber kernelVbase
  omega

/-- The entries after a write to entry `i` of the table in frame `P`. -/
theorem ent_store64 {s : Hw} {P Q v : Nat} (i j : Fin 512) (hP : P % 4096 = 0)
    (hQ : Q % 4096 = 0) (hv : v < 2 ^ 64) :
    Hw.ent { s with ram := s.ram.store64 (P + 8 * i) v } Q j =
      if Q = P ∧ j = i then v else Hw.ent s Q j := by
  split
  · rename_i h
    rw [h.1, h.2]
    exact ByteMem.load64_store64_self hv
  · rename_i h
    exact ByteMem.load64_store64_of_disjoint (entry_apart i j hP hQ h)

/-! ## The two views -/

/-- Frames the window is made for: the first gigabyte. -/
def Framed (P : Nat) : Prop := P % 4096 = 0 ∧ P < 2 ^ 30

theorem Framed.page {P : Nat} (h : Framed P) : P % 4096 = 0 ∧ P + kernelVbase < 2 ^ 64 := by
  obtain ⟨hP, hlt⟩ := h
  unfold kernelVbase
  omega

theorem physical_boot {s : Hw} (hcr3 : s.cr3 = none) {P : Nat} (hP : Framed P) (i : Fin 512) :
    s.physical (P + kernelVbase + 8 * i) = some (P + 8 * i) := by
  obtain ⟨hpage, hlt⟩ := hP
  unfold Hw.physical
  rw [hcr3, show P + kernelVbase + 8 * i.val = P + 8 * i + kernelVbase by omega]
  rw [bootTranslate, if_neg (by unfold kernelVbase; omega), if_pos (by omega), Nat.add_sub_cancel]

theorem window_injective {P Q : Nat} (hP : Framed P) (hQ : Framed Q)
    (h : pageNumber (kernelVbase + P) = pageNumber (kernelVbase + Q)) : P = Q := by
  obtain ⟨hP, hPlt⟩ := hP
  obtain ⟨hQ, hQlt⟩ := hQ
  unfold pageNumber kernelVbase at h
  omega

/-- An access through the window, where it leads to the frame. -/
theorem physical_window {s : Hw} {root P : Nat} (hcr3 : s.cr3 = some root) (hP : Framed P)
    (hwalk : walk s.ram root (kernelVbase + P) = some P) (i : Fin 512) :
    s.physical (P + kernelVbase + 8 * i) = some (P + 8 * i) := by
  unfold Hw.physical
  rw [hcr3]
  show (walk s.ram root _).map _ = _
  rw [walk_congr (pageNumber_window hP.1 (by omega)), hwalk]
  have hmod : (P + kernelVbase + 8 * i.val) % 4096 = 8 * i := by
    have := hP.1
    unfold kernelVbase
    omega
  rw [hmod]
  rfl

/-- While the boot tables are in use and nothing was freed, the VMM's assumptions hold. -/
def bootView : TableView Hw.machine.toMachine where
  ent := Hw.ent
  ok P := Framed P ∧ P / 4096 < 0xFF00
  Free := Hw.Free
  Good s := s.cr3 = none ∧ ∃ n, s.pmm.Packed n
  avail s := pmmAvail s.pmm
  ok_page h := h.1.page
  load {s P} i hgood hP := by
    show (s.physical _).map _ = _
    rw [physical_boot hgood.1 hP.1]
    rfl
  store {s P v} i hgood hP hv := by
    refine ⟨{ s with ram := s.ram.store64 (P + 8 * i) v }, ?_, hgood,
      fun Q hQ j => ent_store64 i j hP.1.1 hQ.1.1 hv, fun _ hQ => hQ, rfl⟩
    show (s.physical _).map _ = _
    rw [physical_boot hgood.1 hP.1]
    rfl
  alloc {s} hgood := by
    obtain ⟨hcr3, n, hpacked⟩ := hgood
    have hlo := hpacked.lo
    rcases hpacked.alloc with ⟨hn, hfail⟩ | ⟨hret, htakes, hpacked'⟩
    · refine .inl ⟨by rw [hpacked.avail, hn], s, ?_⟩
      show some ((pmmAllocPage s.pmm).1, { s with pmm := (pmmAllocPage s.pmm).2 }) = _
      rw [hfail]
    · have hhi := hpacked'.hi
      refine .inr ⟨n * 4096, { s with pmm := (pmmAllocPage s.pmm).2 }, ?_, by omega,
        ⟨⟨by omega, by omega⟩, by omega⟩, ?_, ?_, ⟨hcr3, n + 1, hpacked'⟩, fun _ _ _ => rfl, fun Q hQ => ?_, ?_⟩
      · rw [← hret]
        rfl
      · show pmmTestBit s.pmm (n * 4096 / 4096) = false
        rw [Nat.mul_div_cancel n (by norm_num)]
        exact htakes.clear n (Nat.le_refl n) (Nat.lt_succ_self n)
      · show ¬ pmmTestBit (pmmAllocPage s.pmm).2 (n * 4096 / 4096) = false
        rw [Nat.mul_div_cancel n (by norm_num), htakes.bits]
        simp
      · have hbit : pmmTestBit (pmmAllocPage s.pmm).2 (Q / 4096) = false := hQ
        rw [htakes.bits, Bool.or_eq_false_iff] at hbit
        exact hbit.2
      · show pmmAvail s.pmm = pmmAvail (pmmAllocPage s.pmm).2 + 1
        rw [hpacked.avail, hpacked'.avail]
        omega

/-- On the tables below `root`, where the window reaches all frames but those in `H`. -/
def hwReads (root : Nat) (H : Set Nat) : TableReads Hw.machine.toMachine where
  ent := Hw.ent
  ok P := Framed P ∧ P ∉ H
  Free := Hw.Free
  Good s := s.cr3 = some root ∧
    ∀ P, Framed P → P ∉ H → walk s.ram root (kernelVbase + P) = some P
  ok_page h := h.1.page
  load {s P} i hgood hP := by
    show (s.physical _).map _ = _
    rw [physical_window hgood.1 hP.1 (hgood.2 P hP.1 hP.2)]
    rfl

section Window

variable {root : Nat} {H : Set Nat} {s : VmmState Hw}

/-- The frames of the tables. -/
def tableAt (s : Hw) (root : Nat) (path : List (Fin 512)) : Option Nat :=
  TableTree.node entryFrame s.ent root path

theorem hwReads_translate (s : VmmState Hw) (virt : Nat) :
    translate (hwReads root H) s root virt = walk s.mach.ram root virt :=
  translate_eq_walk (R := hwReads root H) rfl s root virt

/-- A page that has a translation has a page table. -/
theorem tableAt_of_walk {s : Hw} {virt : Nat} (h : walk s.ram root virt ≠ none) :
    ∃ P, tableAt s root (tablePath virt) = some P := by
  by_contra hx
  have hnone : (hwReads root ∅).table ⟨0, s⟩ root (tablePath virt) = none :=
    Option.eq_none_iff_forall_ne_some.mpr fun P hP => hx ⟨P, hP⟩
  have htr := translate_of_none hnone
  rw [hwReads_translate] at htr
  exact h htr

/-- The tables stand in frames of their own that are in use. -/
def TreeOk (root : Nat) (s : Hw) : Prop :=
  TableTree entryFrame ((hwReads root ∅).own s) s.ent root 3

/-- `vmm_map_page` where the tables are there and the window reaches them: one entry is written. -/
theorem vmmMapPage_store (hcr3 : s.mach.cr3 = some root)
    (hpml4 : s.kernelPml4 = root + kernelVbase) (htree : TreeOk root s.mach) {virt P : Nat}
    (hwin : ∀ path Q, path <:+ tablePath virt → tableAt s.mach root path = some Q →
      walk s.mach.ram root (kernelVbase + Q) = some Q)
    (hP : tableAt s.mach root (tablePath virt) = some P) (phys flags : Nat) (hphys : phys < 2 ^ 64) :
    ∃ ram, Returns (vmmMapPage Hw.machine.toMachine virt phys flags) s ()
        { s with mach := { s.mach with ram := ram } } ∧
      (∀ x, x < P ∨ P + 4096 ≤ x → ram x = s.mach.ram x) ∧
      TreeOk root { s.mach with ram := ram } ∧
      (∀ path, path.length ≤ 3 →
        tableAt { s.mach with ram := ram } root path = tableAt s.mach root path) ∧
      ∀ w, walk ram root w =
        if pageNumber w = pageNumber virt then some (pageMask phys)
        else walk s.mach.ram root w := by
  have hPown := htree.own (le_refl 3) hP
  obtain ⟨hentry, hframe⟩ := entryFrame_leaf flags hphys
  generalize hv : pageMask phys ||| (flags &&& 0xFFF) ||| pagePresent = v at hentry hframe
  let m : Hw := { s.mach with ram := s.mach.ram.store64 (P + 8 * indexAt virt 0) v }
  obtain ⟨htree', htable, htr⟩ := tree_write_entry (R := hwReads root ∅) htree { s with mach := m }
    virt hP fun Q hQ j => ent_store64 _ j hPown.1.1.1 hQ.1.1.1 hentry
  refine ⟨m.ram, ?_, fun x hx => ByteMem.store64_outside (by omega), htree', htable, fun w => ?_⟩
  · -- the window reaches at least the frames of these tables
    have hmap := vmmMapPage_reached (R := hwReads root
      { Q | walk s.mach.ram root (kernelVbase + Q) ≠ some Q }) virt phys flags hpml4
      ⟨hcr3, fun Q _ hQ => not_not.mp hQ⟩ (fun path Q hlen hpath hQ =>
        ⟨(htree.own hlen.le hQ).1.1, not_not.mpr (hwin path Q hpath hQ)⟩) hP hPown.1.1.page.2
    have hstore : Hw.machine.store64 (P + kernelVbase + 8 * indexAt virt 0) v s.mach =
        some ((), m) := by
      show (s.mach.physical _).map _ = _
      rw [physical_window hcr3 hPown.1.1 (hwin _ P List.suffix_rfl hP)]
      rfl
    rw [Returns, hmap, hv]
    unfold setEntry vmmOnMach
    rw [hstore]
    rfl
  · have hw := htr w
    rw [hwReads_translate, hwReads_translate, hframe] at hw
    exact hw

/-- **Mapping a page of the window** changes where the window leads for one frame: it
stays sound for all others, as long as the tables themselves do not lie in that frame. -/
theorem vmmMapPage_window (H' : Set Nat) (h : Tables (hwReads root H) s root) {Q : Nat}
    (hQ : Framed Q) (phys flags : Nat) (hphys : phys < 2 ^ 64) (hsub : H ⊆ H')
    (hhole : pageMask phys = Q ∨ Q ∈ H') (hpage : walk s.mach.ram root (kernelVbase + Q) ≠ none)
    (htables : ∀ path P, path.length ≤ 3 → tableAt s.mach root path = some P → P ∉ H') :
    ∃ m, Returns (vmmMapPage Hw.machine.toMachine (kernelVbase + Q) phys flags) s ()
        { s with mach := m } ∧
      Tables (hwReads root H') { s with mach := m } root ∧ m.pmm = s.mach.pmm ∧
      (∀ path, path.length ≤ 3 → tableAt m root path = tableAt s.mach root path) ∧
      ∀ w, walk m.ram root w =
        if pageNumber w = pageNumber (kernelVbase + Q) then some (pageMask phys)
        else walk s.mach.ram root w := by
  obtain ⟨P, hP⟩ := tableAt_of_walk hpage
  obtain ⟨ram, hrun, -, htree, htable, hwalk⟩ := vmmMapPage_store h.good.1 h.pml4
    (h.tree.mono fun R hR => ⟨⟨hR.1.1, id⟩, hR.2⟩) (fun path R hpath hR =>
      have hown := (h.tree.own hpath.length_le hR).1
      h.good.2 R hown.1 hown.2) hP phys flags hphys
  refine ⟨_, hrun, ⟨h.pml4, ⟨h.good.1, fun R hR hRH => ?_⟩, htree.inj, fun {path R} hlen hR => ?_⟩,
    rfl, htable, hwalk⟩
  · rw [hwalk]
    by_cases hRQ : R = Q
    · rcases hhole with hmask | hmem
      · rw [hRQ, if_pos rfl, hmask]
      · exact absurd (hRQ ▸ hmem) hRH
    · rw [if_neg fun hx => hRQ (window_injective hR hQ hx)]
      exact h.good.2 R hR fun hx => hRH (hsub hx)
  · exact ⟨⟨(htree.own hlen hR).1.1, htables path R hlen ((htable path hlen).symm.trans hR)⟩,
      (htree.own hlen hR).2⟩

end Window

end GosKernel.Mm
