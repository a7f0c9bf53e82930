import GosKernel.Lib.Run
import GosKernel.Mm.VmmTables

/-!
# The page tables refine a flat map

The purpose of the VMM in its own terms: a sequence of operations on single pages
(`PageOp`), and for every address the last one that touched its page (`lastTouch`).
The calls are sequences of such operations (`VmmCall.ops`), and on every machine with
a `TableView` the tables hold exactly what the last operations say (`Refines`).
-/

namespace GosKernel.Mm

open Exec TableTree List

/-! ## The flat map -/

/-- What a call does to one page. -/
inductive PageOp
  | map (virt phys : Nat)
  | unmap (virt : Nat)
deriving DecidableEq, Repr

namespace PageOp

def virt : PageOp → Nat
  | map virt _ => virt
  | unmap virt => virt

/-- The frame the page has afterwards. -/
def frame : PageOp → Option Nat
  | map _ phys => some (pageMask phys)
  | unmap _ => none

/-- The operation is on the page of `v`, as far as the tables can tell. -/
def touches (op : PageOp) (v : Nat) : Bool := pageNumber op.virt = pageNumber v

end PageOp

/-- The last of the operations that touched the page of `v`. -/
def lastTouch (ops : List PageOp) (v : Nat) : Option PageOp := ops.reverse.find? (·.touches v)

theorem lastTouch_snoc (ops : List PageOp) (op : PageOp) (v : Nat) :
    lastTouch (ops ++ [op]) v = if op.touches v then some op else lastTouch ops v := by
  unfold lastTouch
  rw [reverse_append, reverse_singleton, singleton_append, find?_cons]
  cases op.touches v <;> rfl

theorem lastTouch_append_of_untouched {ops ops' : List PageOp} {v : Nat}
    (h : ∀ op ∈ ops', op.touches v = false) : lastTouch (ops ++ ops') v = lastTouch ops v := by
  have hnone : ops'.reverse.find? (·.touches v) = none := by
    rw [find?_eq_none]
    intro op hop
    simp [h op (mem_reverse.mp hop)]
  unfold lastTouch
  rw [reverse_append, find?_append, hnone, Option.none_or]

/-- Addresses whose bits 48 to 63 copy bit 47. -/
def Canonical (v : Nat) : Prop := v < 2 ^ 47 ∨ 2 ^ 64 - 2 ^ 47 ≤ v ∧ v < 2 ^ 64

/-- For canonical addresses the tables tell all pages apart. -/
theorem pageNumber_eq_iff {v w : Nat} (hv : Canonical v) (hw : Canonical w) :
    pageNumber v = pageNumber w ↔ v / 4096 = w / 4096 := by
  unfold Canonical at hv hw
  unfold pageNumber
  omega

/-! ## The calls -/

/-- The calls that edit the tables. -/
inductive VmmCall
  | mapPage (virt phys flags : Nat)
  | unmapPage (virt : Nat)
  | mapRange (virt phys count flags : Nat)
  | unmapRange (virt count : Nat)
deriving DecidableEq, Repr

namespace VmmCall

def exec {σ : Type} (M : Machine σ) : VmmCall → Exec (VmmState σ) Unit
  | mapPage virt phys flags => vmmMapPage M virt phys flags
  | unmapPage virt => vmmUnmapPage M virt
  | mapRange virt phys count flags => vmmMapRange M virt phys count flags
  | unmapRange virt count => vmmUnmapRange M virt count

/-- The arguments are 64-bit words. -/
def Words : VmmCall → Prop
  | mapPage virt phys flags => virt < 2 ^ 64 ∧ phys < 2 ^ 64 ∧ flags < 2 ^ 64
  | unmapPage virt => virt < 2 ^ 64
  | mapRange virt phys count flags =>
    virt < 2 ^ 64 ∧ phys < 2 ^ 64 ∧ count < 2 ^ 64 ∧ flags < 2 ^ 64
  | unmapRange virt count => virt < 2 ^ 64 ∧ count < 2 ^ 64

end VmmCall

/-- The pages of a range, from index `i` on: what `op` does to each. -/
def rangeOps (op : Nat → PageOp) (n i : Nat) : List PageOp := (List.range' i n).map op

/-- The page operations a call stands for. -/
def VmmCall.ops : VmmCall → List PageOp
  | mapPage virt phys _ => [.map virt phys]
  | unmapPage virt => [.unmap virt]
  | mapRange virt phys count _ =>
    rangeOps (fun i => .map (wrap64 (virt + i * pageSize)) (wrap64 (phys + i * pageSize))) count 0
  | unmapRange virt count => rangeOps (fun i => .unmap (wrap64 (virt + i * pageSize))) count 0

theorem rangeOps_succ (op : Nat → PageOp) (n i : Nat) :
    rangeOps op (n + 1) i = op i :: rangeOps op n (i + 1) := rfl

/-- A call that returns. -/
def VmmStep {σ : Type} (M : Machine σ) (s : VmmState σ) (c : VmmCall) (s' : VmmState σ) : Prop :=
  Returns (c.exec M) s () s'

/-! ## Private memory keeps the promises -/

/-- Two entries are the same word or disjoint ones. -/
theorem entry_apart {P Q : Nat} (i j : Fin 512) (hP : P % 4096 = 0) (hQ : Q % 4096 = 0)
    (hne : ¬ (Q = P ∧ j = i)) : P + 8 * i.val + 8 ≤ Q + 8 * j ∨ Q + 8 * j.val + 8 ≤ P + 8 * i := by
  omega

/-- Tables in private memory, with frames from a list of distinct ones. -/
def flatView : TableView Flat.machine.toMachine where
  ent s P i := s.mem.load64 (P + kernelVbase + 8 * i)
  ok P := P % 4096 = 0 ∧ P + kernelVbase < 2 ^ 64
  Free s P := P ∈ s.supply
  Good s := s.supply.Nodup ∧ ∀ P ∈ s.supply, P ≠ 0 ∧ P % 4096 = 0 ∧ P + kernelVbase < 2 ^ 64
  avail s := s.supply.length
  ok_page h := h
  load _ _ _ := rfl
  store {s P v} i hgood hP hv := by
    refine ⟨_, rfl, hgood, fun Q hQ j => ?_, fun _ hQ => hQ, rfl⟩
    show (s.mem.store64 _ v).load64 _ = _
    split
    · rename_i h
      rw [h.1, h.2]
      exact ByteMem.load64_store64_self hv
    · rename_i h
      refine ByteMem.load64_store64_of_disjoint ?_
      have := entry_apart i j hP.1 hQ.1 h
      omega
  alloc {s} hgood := by
    cases hsupply : s.supply with
    | nil => exact .inl ⟨rfl, s, by simp [Flat.machine, Flat.allocPage, hsupply]⟩
    | cons P rest =>
      rw [hsupply] at hgood
      obtain ⟨hP, hrest⟩ := List.nodup_cons.mp hgood.1
      obtain ⟨hne, hok⟩ := hgood.2 P List.mem_cons_self
      refine .inr ⟨P, { s with supply := rest }, by simp [Flat.machine, Flat.allocPage, hsupply],
        hne, hok, by simp, hP, ⟨hrest, fun Q hQ => hgood.2 Q (List.mem_cons_of_mem _ hQ)⟩,
        fun _ _ _ => rfl, fun Q hQ => List.mem_cons_of_mem _ hQ, ?_⟩
      simp

/-! ## Refinement -/

section Refinement

variable {σ : Type} {M : Machine σ} {root : Nat}

/-- The tables hold what the operations say. -/
structure Refines (R : TableReads M) (root : Nat) (ops : List PageOp) (s : VmmState σ) : Prop where
  tables : Tables R s root
  flat : ∀ v, translate R s root v = (lastTouch ops v).bind PageOp.frame

variable {s s' : VmmState σ}

theorem Refines.snoc {R : TableReads M} {ops : List PageOp}
    (h : Refines R root ops s) (h' : Tables R s' root) {op : PageOp}
    (htr : ∀ w, translate R s' root w =
      if pageNumber w = pageNumber op.virt then op.frame else translate R s root w) :
    Refines R root (ops ++ [op]) s' := by
  refine ⟨h', fun v => ?_⟩
  rw [htr v, lastTouch_snoc, h.flat v]
  unfold PageOp.touches
  by_cases hpage : pageNumber v = pageNumber op.virt
  · rw [if_pos hpage, if_pos (decide_eq_true hpage.symm)]
    rfl
  · rw [if_neg hpage, if_neg (by simpa using fun h => hpage h.symm)]

variable {V : TableView M}

/-- `vmm_map_page` halts only when there are too few frames for the tables needed. -/
theorem vmmMapPage_refines {ops : List PageOp}
    (h : Refines V.toTableReads root ops s) (virt flags : Nat) {phys : Nat}
    (hphys : phys < 2 ^ 64) :
    (vmmMapPage M virt phys flags s = none ∧ V.avail s.mach < 3) ∨
    ∃ s', Returns (vmmMapPage M virt phys flags) s () s' ∧ V.avail s.mach ≤ V.avail s'.mach + 3 ∧
      Refines V.toTableReads root (ops ++ [.map virt phys]) s' := by
  have hle := missing_le (V := V) s root virt
  rcases vmmMapPage_spec h.tables virt flags hphys with
    ⟨hstop, havail⟩ | ⟨s', hrun, h', hkeep, -, -, htr⟩
  · exact .inl ⟨hstop, by omega⟩
  · have := hkeep.avail
    exact .inr ⟨s', hrun, by omega, h.snoc h' htr⟩

theorem vmmUnmapPage_refines {ops : List PageOp}
    (h : Refines V.toTableReads root ops s) (virt : Nat) :
    ∃ s', Returns (vmmUnmapPage M virt) s () s' ∧
      Refines V.toTableReads root (ops ++ [.unmap virt]) s' := by
  obtain ⟨s', hrun, h', -, -, htr⟩ := vmmUnmapPage_spec h.tables virt
  exact ⟨s', hrun, h.snoc h' htr⟩

/-- The pages of a range, from index `i` on. -/
def mapRangeOps (virt phys n i : Nat) : List PageOp :=
  rangeOps (fun i => .map (wrap64 (virt + i * pageSize)) (wrap64 (phys + i * pageSize))) n i

/-- The loop of `vmm_map_range`: page after page, with three tables at most for each. -/
theorem vmmMapRangeLoop_refines (virt phys flags n i : Nat) {ops : List PageOp}
    (h : Refines V.toTableReads root ops s) :
    (vmmMapRangeLoop M virt phys flags n i s = none ∧ V.avail s.mach < 3 * n) ∨
    ∃ s', Returns (vmmMapRangeLoop M virt phys flags n i) s () s' ∧
      Refines V.toTableReads root (ops ++ mapRangeOps virt phys n i) s' := by
  induction n generalizing i ops s with
  | zero =>
    refine .inr ⟨s, rfl, ?_⟩
    rw [show mapRangeOps virt phys 0 i = [] from rfl, append_nil]
    exact h
  | succ n ih =>
    have hsplit : mapRangeOps virt phys (n + 1) i =
        .map (wrap64 (virt + i * pageSize)) (wrap64 (phys + i * pageSize)) ::
          mapRangeOps virt phys n (i + 1) := rfl
    rw [hsplit]
    rcases vmmMapPage_refines h (wrap64 (virt + i * pageSize)) flags
      (wrap64_lt (phys + i * pageSize)) with ⟨hstop, havail⟩ | ⟨s1, hrun, havail, h1⟩
    · exact .inl ⟨bind_of_stops hstop, by omega⟩
    rcases ih (i + 1) h1 with ⟨hstop, havail'⟩ | ⟨s', hrun', h'⟩
    · exact .inl ⟨hrun.bind_eq.trans hstop, by omega⟩
    · refine .inr ⟨s', hrun.bind_eq.trans hrun', ?_⟩
      rw [← singleton_append, ← append_assoc]
      exact h'

theorem vmmUnmapRangeLoop_refines (virt n i : Nat) {ops : List PageOp}
    (h : Refines V.toTableReads root ops s) :
    ∃ s', Returns (vmmUnmapRangeLoop M virt n i) s () s' ∧
      Refines V.toTableReads root
        (ops ++ rangeOps (fun i => .unmap (wrap64 (virt + i * pageSize))) n i) s' := by
  induction n generalizing i ops s with
  | zero => exact ⟨s, rfl, by rw [rangeOps]; simpa using h⟩
  | succ n ih =>
    obtain ⟨s1, hrun, h1⟩ := vmmUnmapPage_refines h (wrap64 (virt + i * pageSize))
    obtain ⟨s', hrun', h'⟩ := ih (i + 1) h1
    refine ⟨s', hrun.bind_eq.trans hrun', ?_⟩
    rw [rangeOps_succ, ← singleton_append, ← append_assoc]
    exact h'

/-- **Every call** either halts for want of frames or does its operations. -/
theorem VmmCall.exec_refines (c : VmmCall) (hc : c.Words) {ops : List PageOp}
    (h : Refines V.toTableReads root ops s) :
    (c.exec M s = none ∧ V.avail s.mach < 3 * c.ops.length) ∨
    ∃ s', Returns (c.exec M) s () s' ∧ Refines V.toTableReads root (ops ++ c.ops) s' := by
  cases c with
  | mapPage virt phys flags =>
    rcases vmmMapPage_refines h virt flags hc.2.1 with ⟨hstop, havail⟩ | ⟨s', hrun, -, h'⟩
    · exact .inl ⟨hstop, havail⟩
    · exact .inr ⟨s', hrun, h'⟩
  | unmapPage virt =>
    obtain ⟨s', hrun, h'⟩ := vmmUnmapPage_refines h virt
    exact .inr ⟨s', hrun, h'⟩
  | mapRange virt phys count flags =>
    rcases vmmMapRangeLoop_refines virt phys flags count 0 h with
      ⟨hstop, havail⟩ | ⟨s', hrun, h'⟩
    · refine .inl ⟨hstop, havail.trans_eq ?_⟩
      rw [VmmCall.ops, rangeOps, length_map, length_range']
    · exact .inr ⟨s', hrun, h'⟩
  | unmapRange virt count =>
    obtain ⟨s', hrun, h'⟩ := vmmUnmapRangeLoop_refines virt count 0 h
    exact .inr ⟨s', hrun, h'⟩

/-- Once the PML4 is cleared, there are no tables below it and nothing is mapped. -/
theorem refines_of_clear {s0 : VmmState σ} (hpml4 : s0.kernelPml4 = root + kernelVbase)
    (hgood : V.Good s0.mach) (hroot : V.own s0.mach root)
    (hclear : Returns (vmmClearLoop M (root + kernelVbase) ptEntries 0) s0 () s) :
    Refines V.toTableReads root [] s ∧ ∀ i path, V.table s root (i :: path) = none := by
  obtain ⟨s', hrun, hkeep, hent⟩ := vmmClearLoop_spec hroot.1 512 0 (by omega) s0 hgood
  obtain ⟨-, rfl⟩ := hclear.unique hrun
  have hempty : ∀ i, entryFrame (V.ent s.mach root i) = none := fun i => by
    rw [hent root hroot.1 i, if_pos ⟨rfl, by omega⟩, entryFrame_zero]
  have htable : ∀ i path, V.table s root (i :: path) = none := TableTree.node_single hempty
  exact ⟨⟨⟨hkeep.pml4.trans hpml4, hkeep.good, .single (hkeep.own hroot) hempty⟩,
    fun v => translate_of_none (htable _ _)⟩, htable⟩

theorem Refines.run (h : Refines V.toTableReads root [] s) {calls : List VmmCall}
    (hwords : ∀ c ∈ calls, c.Words) (hrun : Run (VmmStep M) s calls s') :
    Refines V.toTableReads root (calls.flatMap VmmCall.ops) s' := by
  suffices hgen : ∀ ops, Refines V.toTableReads root ops s →
      Refines V.toTableReads root (ops ++ calls.flatMap VmmCall.ops) s' from hgen [] h
  clear h
  induction hrun with
  | nil s => simp
  | @cons s s1 s' c calls hstep _ ih =>
    intro ops h
    rw [flatMap_cons, ← append_assoc]
    refine ih (fun c' hc' => hwords c' (mem_cons_of_mem _ hc')) _ ?_
    rcases c.exec_refines (hwords c mem_cons_self) h with ⟨hstop, -⟩ | ⟨s1', hrun', h'⟩
    · rw [VmmStep, Returns, hstop] at hstep
      cases hstep
    · rw [(hstep.unique hrun').2]
      exact h'

/-- **The page tables refine a flat map.** After any calls on a cleared PML4, for every
canonical address `v`: `vmm_is_mapped` answers whether the last operation that touched
the page of `v` was a map, and then `vmm_get_phys` returns that operation's frame with
the offset of `v`; a call that does not touch the page of `v` changes neither answer. A
call only fails to return for want of frames. -/
theorem page_tables_refine_flat_map {s0 s1 s : VmmState σ}
    (hpml4 : s0.kernelPml4 = root + kernelVbase) (hgood : V.Good s0.mach)
    (hroot : V.own s0.mach root)
    (hclear : Returns (vmmClearLoop M (root + kernelVbase) ptEntries 0) s0 () s1)
    {calls : List VmmCall} (hwords : ∀ c ∈ calls, c.Words) (hrun : Run (VmmStep M) s1 calls s)
    {v : Nat} (hv : Canonical v) :
    (∀ op : PageOp, Canonical op.virt → (op.touches v ↔ op.virt / 4096 = v / 4096)) ∧
    (∃ mapped, Returns (vmmIsMapped M v) s mapped s ∧
      (mapped = true ↔
        ∃ virt phys, lastTouch (calls.flatMap VmmCall.ops) v = some (.map virt phys))) ∧
    (∀ virt phys, lastTouch (calls.flatMap VmmCall.ops) v = some (.map virt phys) →
      Returns (vmmGetPhys M v) s (pageMask phys ||| (v &&& 0xFFF)) s) ∧
    (∀ (c : VmmCall) (s' : VmmState σ), c.Words → VmmStep M s c s' →
      (∀ op ∈ c.ops, op.touches v = false) →
      ∃ mapped phys, Returns (vmmIsMapped M v) s mapped s ∧ Returns (vmmIsMapped M v) s' mapped s' ∧
        Returns (vmmGetPhys M v) s phys s ∧ Returns (vmmGetPhys M v) s' phys s') ∧
    ∀ c : VmmCall, c.Words → 3 * c.ops.length ≤ V.avail s.mach → ∃ s', VmmStep M s c s' := by
  have h := (refines_of_clear hpml4 hgood hroot hclear).1.run hwords hrun
  refine ⟨fun op hop => ?_, ⟨_, vmmIsMapped_spec h.tables v, ?_⟩, fun virt phys hlast => ?_,
    fun c s' hc hstep hother => ?_, fun c hc havail => ?_⟩
  · rw [← pageNumber_eq_iff hop hv]
    exact decide_eq_true_iff
  · rw [h.flat v]
    constructor
    · intro hsome
      match hlast : lastTouch (calls.flatMap VmmCall.ops) v with
      | none => simp [hlast] at hsome
      | some (.unmap _) => simp [hlast, PageOp.frame] at hsome
      | some (.map virt phys) => exact ⟨virt, phys, rfl⟩
    · rintro ⟨virt, phys, hlast⟩
      rw [hlast]
      rfl
  · have hphys := vmmGetPhys_spec h.tables v
    rw [h.flat v, hlast] at hphys
    exact hphys
  · have h' : Refines V.toTableReads root (calls.flatMap VmmCall.ops ++ c.ops) s' := by
      rcases c.exec_refines hc h with ⟨hstop, -⟩ | ⟨s'', hrun', h'⟩
      · rw [VmmStep, Returns, hstop] at hstep
        cases hstep
      · rw [(hstep.unique hrun').2]
        exact h'
    have hsame : translate V.toTableReads s' root v = translate V.toTableReads s root v := by
      rw [h'.flat v, h.flat v, lastTouch_append_of_untouched hother]
    have hmapped := vmmIsMapped_spec h'.tables v
    have hphys := vmmGetPhys_spec h'.tables v
    rw [hsame] at hmapped hphys
    exact ⟨_, _, vmmIsMapped_spec h.tables v, hmapped, vmmGetPhys_spec h.tables v, hphys⟩
  · rcases c.exec_refines hc h with ⟨-, hlt⟩ | ⟨s', hrun', -⟩
    · exact absurd havail (by omega)
    · exact ⟨s', hrun'⟩

end Refinement

/-- One page mapped on an empty tree, and an address in it. -/
theorem page_tables_refine_flat_map_first : let s0 : VmmState Flat :=
      ⟨0x1000 + kernelVbase, ⟨fun _ => 0xFF, [0x2000, 0x3000, 0x4000], fun _ _ => 0, fun _ => none⟩⟩
    ∃ s1 s, Returns (vmmClearLoop Flat.machine.toMachine (0x1000 + kernelVbase) ptEntries 0) s0 ()
        s1 ∧
      Run (VmmStep Flat.machine.toMachine) s1 [.mapPage 0xFFFF800000000000 0x12345 3] s ∧
      Returns (vmmGetPhys Flat.machine.toMachine 0xFFFF800000000678) s 0x12678 s := by
  intro s0
  have hgood : flatView.Good s0.mach := by
    show List.Nodup [0x2000, 0x3000, 0x4000] ∧ ∀ P ∈ [0x2000, 0x3000, 0x4000], P ≠ 0 ∧
      P % 4096 = 0 ∧ P + kernelVbase < 2 ^ 64
    decide
  have hroot : flatView.own s0.mach 0x1000 := by
    show (0x1000 % 4096 = 0 ∧ 0x1000 + kernelVbase < 2 ^ 64) ∧ 0x1000 ∉ [0x2000, 0x3000, 0x4000]
    decide
  obtain ⟨s1, hclear, hkeep, -⟩ := vmmClearLoop_spec hroot.1 512 0 (by omega) s0 hgood
  have hv : Canonical 0xFFFF800000000678 := by
    unfold Canonical
    norm_num
  have havail : 3 ≤ flatView.avail s1.mach := hkeep.avail.le
  obtain ⟨s, hstep⟩ := (page_tables_refine_flat_map rfl hgood hroot hclear (by simp) (.nil s1)
    hv).2.2.2.2 (.mapPage 0xFFFF800000000000 0x12345 3) (by simp [VmmCall.Words]) havail
  have hrun := Run.cons hstep (.nil s)
  exact ⟨s1, s, hclear, hrun, (page_tables_refine_flat_map rfl hgood hroot hclear
    (by simp [VmmCall.Words]) hrun hv).2.2.1 0xFFFF800000000000 0x12345 (by decide)⟩

end GosKernel.Mm
