import GosKernel.Mm.Pmm
import GosKernel.Mm.VmmRefinement

/-!
# Physical memory behind a page map

A machine whose accesses go through a map from pages to frames, and fault where there is
none. It is what the page tables of `vmm.c` stand for (`vmmMapPage_simulates`), without the
frames the tables themselves take.

`Owns s0 s T`: since `s0` the pages of `T`, and no others, were mapped, each to a frame of
its own.
-/

namespace GosKernel.Mm

open Exec

instance (v : Nat) : Decidable (Canonical v) := inferInstanceAs (Decidable (_ ∨ _))

/-- Physical memory, the frame allocator, and the frame of every page that is mapped. -/
structure Paging where
  ram : ByteMem
  pmm : Pmm
  page : Nat → Option Nat

namespace Paging

/-- The physical address behind `virt`; `none` is a fault. -/
def physical (s : Paging) (virt : Nat) : Option Nat :=
  if Canonical virt then (s.page (pageNumber virt)).map (· + virt % 4096) else none

/-- The byte that is read at `virt`. -/
def byte (s : Paging) (virt : Nat) : Option UInt8 := (s.physical virt).map s.ram

/-- The machine with the frame allocator of `pmm.c`. The kernel may write to every page
that is mapped: `CR0.WP` is never set (boot.asm:94-96). -/
def machine : PagedMachine Paging where
  load8 addr := fun s => (s.physical addr).map fun p => (s.ram p, s)
  store8 addr v := fun s =>
    (s.physical addr).map fun p => ((), { s with ram := Function.update s.ram p v })
  load64 addr := fun s => (s.physical addr).map fun p => (s.ram.load64 p, s)
  store64 addr v := fun s =>
    (s.physical addr).map fun p => ((), { s with ram := s.ram.store64 p v })
  pmmAllocPage := fun s => some ((pmmAllocPage s.pmm).1, { s with pmm := (pmmAllocPage s.pmm).2 })
  vmmMapPage virt phys _ := .update fun s =>
    { s with page := Function.update s.page (pageNumber virt) (some (pageMask phys)) }

/-- **`vmm_map_page` of this machine is that of `vmm.c`**: where the map was what the tables say, on
any machine on which they can be edited, it is so again. -/
theorem vmmMapPage_simulates {σ : Type} {M : Machine σ} {V : TableView M} {root : Nat}
    {s s' : VmmState σ} {p p' : Paging} (h : Tables V.toTableReads s root)
    (hmap : ∀ v, translate V.toTableReads s root v = p.page (pageNumber v)) {virt phys flags : Nat}
    (hphys : phys < 2 ^ 64) (hvmm : Returns (vmmMapPage M virt phys flags) s () s')
    (hp : Returns (machine.vmmMapPage virt phys flags) p () p') :
    Tables V.toTableReads s' root ∧
      ∀ v, translate V.toTableReads s' root v = p'.page (pageNumber v) := by
  cases hp
  rcases vmmMapPage_spec h virt flags hphys with ⟨hstop, -⟩ | ⟨s1, hrun, h1, -, -, -, htr⟩
  · rw [Returns, hstop] at hvmm
    cases hvmm
  · obtain ⟨-, rfl⟩ := hrun.unique hvmm
    refine ⟨h1, fun v => ?_⟩
    rw [htr, hmap]
    exact (Function.update_apply ..).symm

end Paging

/-- Since `s0` exactly the pages of `T` were mapped, each to a frame of its own. -/
structure Owns (s0 s : Paging) (T : Set Nat) : Prop where
  wf : s.pmm.WF
  taken : ∀ n ∈ T, ∃ g, s.page n = some (g * 4096) ∧ pmmTestBit s.pmm g = true
  inj : ∀ m ∈ T, ∀ n ∈ T, s.page m = s.page n → m = n
  rest : ∀ n, n ∉ T → s.page n = s0.page n

namespace Owns

variable {s0 s s' : Paging} {T : Set Nat}

theorem start (hwf : s0.pmm.WF) : Owns s0 s0 ∅ where
  wf := hwf
  taken n hn := absurd hn (Set.notMem_empty n)
  inj m hm := absurd hm (Set.notMem_empty m)
  rest _ _ := rfl

theorem map (h : Owns s0 s T) {phys virt flags : Nat} {s1 s2 : Paging}
    (halloc : Returns Paging.machine.pmmAllocPage s phys s1) (hphys : phys ≠ 0)
    (hmap : Returns (Paging.machine.vmmMapPage virt phys flags) s1 () s2) :
    Owns s0 s2 (insert (pageNumber virt) T) ∧ s2.ram = s.ram ∧
      ∀ n, n ≠ pageNumber virt → s2.page n = s.page n := by
  cases halloc
  cases hmap
  rcases pmmAllocPage_spec h.wf with ⟨hfail, -⟩ | ⟨g, hg, htakes, -⟩
  · rw [hfail] at hphys
    exact absurd rfl hphys
  have hhi := htakes.hi
  have hmask : pageMask (g * 4096) = g * 4096 := by
    rw [pageMask_eq (by omega)]
    omega
  have hnew : ∀ n, n ∈ T → s.page n ≠ some (g * 4096) := by
    intro n hn heq
    obtain ⟨f, hf, hbit⟩ := h.taken n hn
    have hfg : f = g := by
      rw [hf, Option.some.injEq] at heq
      omega
    rw [hfg, htakes.clear g le_rfl (by omega)] at hbit
    cases hbit
  have hpage : ∀ n, Function.update s.page (pageNumber virt) (some (pageMask (pmmAllocPage s.pmm).1)) n
      = if n = pageNumber virt then some (g * 4096) else s.page n := by
    intro n
    rw [hg, hmask, Function.update_apply]
  refine ⟨⟨htakes.wf, ?_, ?_, ?_⟩, rfl, ?_⟩
  · intro n hn
    dsimp only
    rw [hpage]
    by_cases heq : n = pageNumber virt
    · refine ⟨g, if_pos heq, ?_⟩
      rw [htakes.bits, decide_eq_true ⟨le_rfl, by omega⟩, Bool.true_or]
    · obtain ⟨f, hf, hbit⟩ := h.taken n (hn.resolve_left heq)
      refine ⟨f, by rw [if_neg heq, hf], ?_⟩
      rw [htakes.bits, hbit, Bool.or_true]
  · intro m hm n hn
    dsimp only
    rw [hpage, hpage]
    by_cases hm' : m = pageNumber virt <;> by_cases hn' : n = pageNumber virt
    · exact fun _ => hm'.trans hn'.symm
    · rw [if_pos hm', if_neg hn']
      exact fun heq => absurd heq.symm (hnew n (hn.resolve_left hn'))
    · rw [if_neg hm', if_pos hn']
      exact fun heq => absurd heq (hnew m (hm.resolve_left hm'))
    · rw [if_neg hm', if_neg hn']
      exact h.inj m (hm.resolve_left hm') n (hn.resolve_left hn')
  · intro n hn
    dsimp only
    rw [hpage, if_neg fun heq => hn (.inl heq)]
    exact h.rest n fun hT => hn (.inr hT)
  · intro n hn
    dsimp only
    rw [hpage, if_neg hn]

/-- A byte is written to a page that was not mapped in `s0`: it is one of `T`, and no other
byte of these pages changes. -/
theorem store (h : Owns s0 s T) {x : Nat} {v : UInt8}
    (hunmapped : pageNumber x ∉ T → s0.page (pageNumber x) = none)
    (hstore : Returns (Paging.machine.store8 x v) s () s') :
    pageNumber x ∈ T ∧ Owns s0 s' T ∧
      ∀ y, pageNumber y ∈ T → s'.byte y = if y = x then some v else s.byte y := by
  obtain ⟨p, hp, heq⟩ := Option.map_eq_some_iff.mp hstore
  cases heq
  have hx : Canonical x := by
    by_contra hx
    rw [Paging.physical, if_neg hx] at hp
    cases hp
  rw [Paging.physical, if_pos hx] at hp
  have hT : pageNumber x ∈ T := by
    by_contra hT
    rw [h.rest _ hT, hunmapped hT] at hp
    cases hp
  obtain ⟨g, hg, -⟩ := h.taken _ hT
  rw [hg, Option.map_some, Option.some.injEq] at hp
  refine ⟨hT, ⟨h.wf, h.taken, h.inj, h.rest⟩, ?_⟩
  intro y hy
  obtain ⟨f, hf, -⟩ := h.taken _ hy
  have hsame : ∀ t : Paging, t.page = s.page →
      t.byte y = if Canonical y then some (t.ram (f * 4096 + y % 4096)) else none := by
    intro t ht
    rw [Paging.byte, Paging.physical, ht, hf]
    split <;> rfl
  rw [hsame s rfl, hsame { s with ram := Function.update s.ram p v } rfl]
  by_cases hcan : Canonical y
  · rw [if_pos hcan, if_pos hcan]
    by_cases hyx : y = x
    · have hfg : f = g := by
        rw [hyx, hg, Option.some.injEq] at hf
        omega
      rw [if_pos hyx, hfg, hyx, hp]
      exact congrArg some (Function.update_self p v s.ram)
    · -- two frames are different, or two offsets
      have hne : f * 4096 + y % 4096 ≠ p := by
        intro hsum
        have hfg : f = g := by omega
        have hpage := h.inj _ hy _ hT (by rw [hf, hg, hfg])
        have hdiv := (pageNumber_eq_iff hcan hx).mp hpage
        omega
      rw [if_neg hyx]
      exact congrArg some (Function.update_of_ne hne v s.ram)
  · have hyx : y ≠ x := fun heq => hcan (heq ▸ hx)
    rw [if_neg hcan, if_neg hcan, if_neg hyx]

end Owns

end GosKernel.Mm
