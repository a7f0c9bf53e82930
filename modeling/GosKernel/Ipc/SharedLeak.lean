import GosKernel.Ipc.SharedCalls

/-!
# What shared memory takes and does not give back

`shm_close` marks the slot of a region as free and leaves its frames and its mapping.
**`shm_conserves_iff`**: a run of calls ends with the memory it began with, and with no
address of a destroyed region mapped, exactly if it made no region.
-/

namespace GosKernel.Ipc

open Exec Mm

variable {σ : Type}

/-- What can be seen of the machine below: the memory in use, pages of page tables not
counted, and the virtual addresses that are mapped. -/
structure Accounting (M : ShmMachine σ) where
  inv : σ → Prop
  used : σ → Nat
  mapped : σ → Nat → Prop
  noEmpty : NoEmptyRange M
  alloc : ∀ {fuel count : Nat} {s : σ} {phys : Nat} {s' : σ}, count < 2 ^ 64 → inv s →
    Returns (M.pmmAllocPages fuel count) s phys s' →
    inv s' ∧ used s' = used s + (if phys = 0 then 0 else 4096 * count) ∧
      ∀ v, mapped s v → mapped s' v
  map : ∀ {virt phys count flags : Nat} {s s' : σ}, inv s →
    Returns (M.vmmMapRange virt phys count flags) s () s' →
    inv s' ∧ used s' = used s ∧ (∀ v, mapped s v → mapped s' v) ∧
      ∀ v, virt ≤ v → v < virt + 4096 * count → mapped s' v

/-- The table and the machine, with the address and the pages of every region that was
made so far. -/
structure Tracked (σ : Type) where
  shm : ShmState σ
  made : List (Nat × Nat)

inductive TrackedStep (M : ShmMachine σ) : Tracked σ → ShmEvent → Tracked σ → Prop
  | makes {t : Tracked σ} {name : CString} {size fuel : Nat} {i : Fin shmMaxRegions}
      {ret : Int × Option Nat} {s' : ShmState σ}
      (h : ShmStep M t.shm (.create name size ret) s')
      (hmake : MakesRegion M fuel t.shm name size i s') :
      TrackedStep M t (.create name size ret) ⟨s', (shmVirt i, shmPages size) :: t.made⟩
  | other {t : Tracked σ} {e : ShmEvent} {s' : ShmState σ} (h : ShmStep M t.shm e s')
      (hno : ∀ name size ret fuel i, e = .create name size ret →
        ¬ MakesRegion M fuel t.shm name size i s') :
      TrackedStep M t e ⟨s', t.made⟩

/-- The pages of all the regions that were made. -/
def Tracked.pages (t : Tracked σ) : Nat := (t.made.map Prod.snd).sum

section Steps

variable {M : ShmMachine σ} (A : Accounting M)

/-- Everything that was taken is still taken, and still mapped. -/
structure Held (before : Nat) (t : Tracked σ) : Prop where
  inv : A.inv t.shm.mach
  used : A.used t.shm.mach = before + 4096 * t.pages
  mapped : ∀ r ∈ t.made, ∀ v, r.1 ≤ v → v < r.1 + 4096 * r.2 → A.mapped t.shm.mach v
  pages : ∀ r ∈ t.made, 0 < r.2

variable {A}

theorem shmPages_lt (size : Nat) : shmPages size < 2 ^ 64 :=
  lt_of_le_of_lt (Nat.div_le_self _ _) (wrap64_lt _)

variable {before : Nat} {e : ShmEvent} {s' : ShmState σ} {t : Tracked σ}

theorem Held.makes (h : Held A before t) {name : CString} {size fuel : Nat} {i : Fin shmMaxRegions}
    (hmake : MakesRegion M fuel t.shm name size i s') :
    Held A before ⟨s', (shmVirt i, shmPages size) :: t.made⟩ := by
  obtain ⟨phys, m, halloc, hphys, hmap⟩ := hmake.machine
  obtain ⟨hinv, hused, hkeep⟩ := A.alloc (shmPages_lt size) h.inv halloc
  obtain ⟨hinv', hused', hkeep', hnew⟩ := A.map hinv hmap
  have hpos : 0 < shmPages size := by
    rcases Nat.eq_zero_or_pos (shmPages size) with hzero | hpos
    · rw [hzero] at halloc
      exact absurd (A.noEmpty _ _ _ _ halloc) hphys
    · exact hpos
  constructor
  · exact hinv'
  · show A.used s'.mach = before + 4096 * (shmPages size + t.pages)
    rw [hused', hused, if_neg hphys, h.used]
    omega
  · intro r hr v hlo hhi
    rcases List.mem_cons.mp hr with rfl | hold
    · exact hnew v hlo hhi
    · exact hkeep' v (hkeep v (h.mapped r hold v hlo hhi))
  · intro r hr
    rcases List.mem_cons.mp hr with rfl | hold
    · exact hpos
    · exact h.pages r hold

/-- A call that makes no region takes nothing, and gives nothing back. -/
theorem Held.other (h : Held A before t) (hstep : ShmStep M t.shm e s')
    (hno : ∀ name size ret fuel i, e = .create name size ret →
      ¬ MakesRegion M fuel t.shm name size i s') : Held A before ⟨s', t.made⟩ := by
  have hsame : ∀ s : ShmState σ, s.mach = t.shm.mach → Held A before ⟨s, t.made⟩ := by
    intro s hs
    constructor
    · exact hs ▸ h.inv
    · exact hs ▸ h.used
    · exact hs ▸ h.mapped
    · exact h.pages
  cases e with
  | create name size ret =>
    obtain ⟨-, fuel, hret⟩ := hstep
    rcases shmCreate_outcome hret with ⟨i, -, -, -, rfl⟩ | ⟨i, -, -, hmake⟩ | ⟨-, -, hmach⟩
    · exact hsame _ rfl
    · exact absurd hmake (hno name size ret fuel i rfl)
    · rcases hmach with heq | halloc
      · exact hsame s' heq
      · obtain ⟨hinv, hused, hkeep⟩ := A.alloc (shmPages_lt size) h.inv halloc
        constructor
        · exact hinv
        · show A.used s'.mach = before + 4096 * t.pages
          rw [hused, h.used, if_pos rfl, Nat.add_zero]
        · intro r hr v hlo hhi
          exact hkeep v (h.mapped r hr v hlo hhi)
        · exact h.pages
  | opened name ret =>
    rcases shmOpen_cases hstep with ⟨i, -, -, rfl⟩ | ⟨-, -, rfl⟩
    · exact hsame _ rfl
    · exact hsame _ rfl
  | close name ret => exact hsame s' (shmClose_mach hstep)

theorem TrackedStep.held {t' : Tracked σ}
    (h : Held A before t) (hstep : TrackedStep M t e t') : Held A before t' := by
  cases hstep with
  | makes _ hmake => exact h.makes hmake
  | other hstep hno => exact h.other hstep hno

end Steps

/-- No valid region has the address. -/
def Destroyed (s : ShmState σ) (addr : Nat) : Prop :=
  ∀ i, (s.regions i).valid = true → (s.regions i).addr ≠ addr

/-- The memory in use is what it was, and no address of a destroyed region is mapped. -/
def GivenBack {M : ShmMachine σ} (A : Accounting M) (before : Nat) (t : Tracked σ) : Prop :=
  A.used t.shm.mach = before ∧ ∀ r ∈ t.made, Destroyed t.shm r.1 →
    ∀ v, r.1 ≤ v → v < r.1 + 4096 * r.2 → ¬ A.mapped t.shm.mach v

/-- **Conservation fails with the first region.** A run of calls that ends without a
region conserves memory and mappings if and only if it made no region: what was taken is
the pages of all regions that were made, and these are all still mapped. -/
theorem shm_conserves_iff {M : ShmMachine σ} (A : Accounting M) {s : ShmState σ}
    (hinv : A.inv s.mach) {es : List ShmEvent} {t : Tracked σ}
    (hrun : Run (TrackedStep M) ⟨s, []⟩ es t) (hend : ∀ i, (t.shm.regions i).valid = false) :
    (GivenBack A (A.used s.mach) t ↔ t.made = []) ∧
    A.used t.shm.mach = A.used s.mach + 4096 * t.pages ∧
    ∀ r ∈ t.made, ∀ v, r.1 ≤ v → v < r.1 + 4096 * r.2 → A.mapped t.shm.mach v := by
  have h0 : Held A (A.used s.mach) ⟨s, []⟩ := by
    refine ⟨hinv, rfl, ?_, ?_⟩
    · intro r hr
      cases hr
    · intro r hr
      cases hr
  have h := hrun.invariant (I := Held A (A.used s.mach)) (fun _ _ _ hs hstep => hstep.held hs) h0
  refine ⟨⟨?_, ?_⟩, h.used, h.mapped⟩
  · rintro ⟨-, hunmapped⟩
    cases hmade : t.made with
    | nil => rfl
    | cons r rest =>
      -- the region is destroyed, and its first address is mapped
      have hr : r ∈ t.made := hmade ▸ List.mem_cons_self
      have hpos := h.pages r hr
      have hgone : Destroyed t.shm r.1 := by
        intro i hi
        rw [hend i] at hi
        cases hi
      exact absurd (h.mapped r hr r.1 (Nat.le_refl _) (by omega))
        (hunmapped r hr hgone r.1 (Nat.le_refl _) (by omega))
  · intro hmade
    constructor
    · rw [h.used, Tracked.pages, hmade]
      rfl
    · intro r hr
      rw [hmade] at hr
      cases hr

/-! ## The PMM -/

/-- The memory that `pmm_get_used_memory` reports, and the ranges that were mapped. -/
def pmmAccounting : Accounting pmmShm where
  inv s := s.1.WF
  used s := pmmGetUsedMemory s.1
  mapped s v := ∃ r ∈ s.2, r.1 ≤ v ∧ v < r.1 + 4096 * r.2.2
  noEmpty := by
    intro fuel s phys s' h
    cases h
    rfl
  alloc := by
    intro fuel count s phys s' hlt hwf h
    obtain ⟨r, hr, heq⟩ := Option.map_eq_some_iff.mp h
    cases heq
    rcases pmmAllocPages_spec hwf hlt hr with ⟨hzero, hsame⟩ | ⟨g, hg, htakes, -⟩
    · rw [hzero, if_pos rfl, hsame]
      exact ⟨hwf, rfl, fun v hv => hv⟩
    · have hne : r.1 ≠ 0 := by
        have := htakes.lo
        omega
      refine ⟨htakes.wf, ?_, fun v hv => hv⟩
      rw [if_neg hne, pmmGetUsedMemory_eq htakes.wf, pmmGetUsedMemory_eq hwf,
        Takes.usedPages hwf htakes]
      omega
  map := by
    intro virt phys count flags s s' hwf h
    cases h
    refine ⟨hwf, rfl, ?_, ?_⟩
    · rintro v ⟨r, hr, hv⟩
      exact ⟨r, List.mem_cons_of_mem _ hr, hv⟩
    · intro v hlo hhi
      exact ⟨_, List.mem_cons_self, hlo, hhi⟩

/-- A region of one page is made and closed: the page is not given back. -/
theorem shm_conserves_iff_closed :
    ∃ (es : List ShmEvent) (t : Tracked (Pmm × List (Nat × Nat × Nat))),
      Run (TrackedStep pmmShm) ⟨.bss (pmmUnused, []), []⟩ es t ∧
      (∀ i, (t.shm.regions i).valid = false) ∧ t.made = [(shmVirt 0, 1)] ∧
      ¬ GivenBack pmmAccounting 0 t ∧ pmmGetUsedMemory t.shm.mach.1 = 4096 := by
  have heval : ((shmCreate pmmShm 1 (some ⟨[97], by decide⟩) 100 true (.bss (pmmUnused, []))).bind
      fun r => (shmClose ⟨[97], by decide⟩ r.2).map fun q =>
        (r.1.1, decide (∀ i, (q.2.regions i).valid = false))) = some (0, true) := by decide +kernel
  obtain ⟨⟨r, s1⟩, hcreate, hrest⟩ := Option.bind_eq_some_iff.mp heval
  obtain ⟨⟨c, s2⟩, hclose, heq⟩ := Option.map_eq_some_iff.mp hrest
  obtain ⟨hr, hgone⟩ := Prod.mk.inj heq
  have hgone : ∀ i, (s2.regions i).valid = false := of_decide_eq_true hgone
  rcases shmCreate_outcome hcreate with ⟨i, -, hfind, -⟩ | ⟨i, -, -, hmake⟩ | ⟨hfail, -⟩
  · exact absurd (hfind.symm.trans (show _ = none by decide +kernel)) (Option.some_ne_none i)
  · have hslot : i = 0 :=
      Option.some.inj (hmake.free.symm.trans (show _ = some 0 by decide +kernel))
    have hmade : TrackedStep pmmShm ⟨.bss (pmmUnused, []), []⟩ (.create _ 100 r) _ :=
      .makes ⟨by decide, 1, hcreate⟩ hmake
    have hrun := Run.cons hmade
      (.cons (.other (e := .close ⟨[97], by decide⟩ c) hclose nofun) (.nil _))
    obtain ⟨hiff, hused, -⟩ := shm_conserves_iff pmmAccounting
      (s := .bss (pmmUnused, [])) pmmUnused_wf hrun hgone
    refine ⟨_, _, hrun, hgone, by rw [hslot]; rfl, fun h => ?_, hused.trans rfl⟩
    exact List.cons_ne_nil _ _ (hiff.mp h)
  · exact absurd hr hfail

/-- A region of one page is made and closed again: its page is still in use, and its
address still mapped. -/
theorem closed_region_leaks :
    ((shmCreate pmmShm 1 (some ⟨[97], by decide⟩) 100 true (.bss freeFrames)).bind fun r =>
      (shmClose ⟨[97], by decide⟩ r.2).map fun q => (r.1.1, q.1, (q.2.regions 0).valid))
      = some (0, 0, false) ∧
    ((shmCreate pmmShm 1 (some ⟨[97], by decide⟩) 100 true (.bss freeFrames)).bind fun r =>
      (shmClose ⟨[97], by decide⟩ r.2).map fun q => (pmmGetUsedMemory q.2.mach.1, q.2.mach.2))
      = some (4096, [(shmVirt 0, 0x100000, 1)]) ∧
    pmmGetUsedMemory freeFrames.1 = 0 := by
  decide +kernel

end GosKernel.Ipc
