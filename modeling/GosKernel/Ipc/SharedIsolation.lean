import GosKernel.Ipc.SharedCalls
import GosKernel.Mm.HeapEnds

/-!
# Where shared regions and the heap meet

A region's address is given by its slot, in steps of 1 MiB from 12 MiB above the base of
the kernel; its size is the caller's, and the heap may grow from 4 MiB to 68 MiB above
the base. **`shm_isolated`**: regions and heap stay apart as long as no region is made
over another one or over the heap, and the heap is not extended over a region.
-/

namespace GosKernel.Ipc

open Exec Mm Function

variable {σ : Type}

/-- Shared memory and the heap. The answers of the PMM to the heap are part of its own
machine, so nothing is assumed about how the two share the frames. -/
structure Space (σ : Type) where
  shm : ShmState σ
  heap : HeapState Flat

inductive SpaceEvent
  | shm (e : ShmEvent)
  | kmalloc (size ret : Nat)

/-- A call of shared memory, or a `kmalloc` of a size that the heap may have. -/
inductive SpaceStep (M : ShmMachine σ) : Space σ → SpaceEvent → Space σ → Prop
  | shm {s : Space σ} {e : ShmEvent} {shm' : ShmState σ} (h : ShmStep M s.shm e shm') :
      SpaceStep M s (.shm e) { s with shm := shm' }
  | kmalloc {s : Space σ} {size ret : Nat} {heap' : HeapState Flat} (hsize : size ≤ heapMaxSize)
      (h : Converges (Mm.kmalloc Flat.machine · size) s.heap ret heap') :
      SpaceStep M s (.kmalloc size ret) { s with heap := heap' }

/-- Slot `i` has room for `bytes`: up to the next valid region, behind those below it,
and above the heap. -/
def RoomAt (s : Space σ) (i : Fin shmMaxRegions) (bytes : Nat) : Prop :=
  s.heap.heapEnd ≤ shmVirt i ∧ ∀ j, (s.shm.regions j).valid = true →
    (j < i → (s.shm.regions j).size ≤ (i.val - j.val) * 0x100000) ∧
    (i < j → bytes ≤ (j.val - i.val) * 0x100000)

/-- A region is made only where there is room for it, and the heap is extended only up
to the first region. -/
def SpaceEvent.Roomy (s : Space σ) : SpaceEvent → Prop
  | .shm (.create name size _) => shmFind s.shm.regions name = none →
      ∀ i, shmFindFree s.shm.regions = some i → RoomAt s i (4096 * shmPages size)
  | .shm _ => True
  | .kmalloc size _ => Extends s.heap size → ∀ i, (s.shm.regions i).valid = true →
      s.heap.heapEnd + 4096 * growth size ≤ (s.shm.regions i).addr

def RoomyStep (M : ShmMachine σ) (s : Space σ) (e : SpaceEvent) (s' : Space σ) : Prop :=
  SpaceStep M s e s' ∧ e.Roomy s

/-- The addresses of a region. -/
def ShmRegion.range (r : ShmRegion) : Nat × Nat := (r.addr, r.addr + r.size)

/-- Valid regions are apart from each other and from the heap. -/
def Isolated (s : Space σ) : Prop :=
  (∀ i j, (s.shm.regions i).valid = true → (s.shm.regions j).valid = true → i ≠ j →
    Apart (s.shm.regions i).range (s.shm.regions j).range) ∧
  ∀ i, (s.shm.regions i).valid = true →
    Apart (s.shm.regions i).range (s.heap.heapStart, s.heap.heapEnd)

/-- Every region ends before the next one, and they all lie above the heap. -/
structure Spread (regions : Fin shmMaxRegions → ShmRegion) (heapEnd : Nat) : Prop where
  addr : ∀ i, (regions i).valid = true → (regions i).addr = shmVirt i
  above : ∀ i, (regions i).valid = true → heapEnd ≤ shmVirt i
  next : ∀ i j, (regions i).valid = true → (regions j).valid = true → i < j →
    (regions i).size ≤ (j.val - i.val) * 0x100000

theorem shmVirt_add {i j : Fin shmMaxRegions} (h : i < j) :
    shmVirt i + (j.val - i.val) * 0x100000 = shmVirt j := by
  unfold shmVirt
  omega

theorem Spread.isolated {s : Space σ} (h : Spread s.shm.regions s.heap.heapEnd) : Isolated s := by
  have hlt : ∀ i j, (s.shm.regions i).valid = true → (s.shm.regions j).valid = true → i < j →
      Apart (s.shm.regions i).range (s.shm.regions j).range := by
    intro i j hi hj hij
    have hnext := h.next i j hi hj hij
    have hvirt := shmVirt_add hij
    left
    show (s.shm.regions i).addr + (s.shm.regions i).size ≤ (s.shm.regions j).addr
    rw [h.addr i hi, h.addr j hj]
    omega
  constructor
  · intro i j hi hj hne
    rcases lt_or_gt_of_ne hne with hij | hji
    · exact hlt i j hi hj hij
    · exact (hlt j i hj hi hji).symm
  · intro i hi
    right
    show s.heap.heapEnd ≤ (s.shm.regions i).addr
    rw [h.addr i hi]
    exact h.above i hi

section Steps

variable {regions : Fin shmMaxRegions → ShmRegion} {heapEnd : Nat}

theorem Spread.congr {regions' : Fin shmMaxRegions → ShmRegion} (h : Spread regions heapEnd)
    (hsame : ∀ i, (regions' i).valid = true → (regions i).valid = true ∧
      (regions' i).addr = (regions i).addr ∧ (regions' i).size = (regions i).size) :
    Spread regions' heapEnd := by
  constructor
  · intro i hi
    obtain ⟨hv, ha, -⟩ := hsame i hi
    rw [ha]
    exact h.addr i hv
  · intro i hi
    exact h.above i (hsame i hi).1
  · intro i j hi hj hij
    obtain ⟨hv, -, hsize⟩ := hsame i hi
    rw [hsize]
    exact h.next i j hv (hsame j hj).1 hij

theorem Spread.update {i : Fin shmMaxRegions} {r : ShmRegion} (h : Spread regions heapEnd)
    (hr : r.valid = true → (regions i).valid = true ∧ r.addr = (regions i).addr ∧
      r.size = (regions i).size) : Spread (Function.update regions i r) heapEnd := by
  refine h.congr ?_
  intro j hj
  by_cases hji : j = i
  · subst hji
    rw [update_self] at hj ⊢
    exact hr hj
  · rw [update_of_ne hji] at hj ⊢
    exact ⟨hj, rfl, rfl⟩

end Steps

theorem Spread.make {s : Space σ} (h : Spread s.shm.regions s.heap.heapEnd)
    {i : Fin shmMaxRegions} {name : CString} {size : Nat}
    (hroom : RoomAt s i (4096 * shmPages size)) :
    Spread (Function.update s.shm.regions i (newRegion i name size)) s.heap.heapEnd := by
  obtain ⟨habove, hother⟩ := hroom
  have hsize : (newRegion i name size).size ≤ 4096 * shmPages size := by
    show (shmPages size * 4096) % 2 ^ 64 ≤ 4096 * shmPages size
    omega
  constructor
  · intro j hj
    by_cases hji : j = i
    · subst hji
      rw [update_self]
      rfl
    · rw [update_of_ne hji] at hj ⊢
      exact h.addr j hj
  · intro j hj
    by_cases hji : j = i
    · rw [hji]
      exact habove
    · rw [update_of_ne hji] at hj
      exact h.above j hj
  · intro j k hj hk hjk
    by_cases hji : j = i
    · subst hji
      rw [update_of_ne (ne_of_gt hjk)] at hk
      rw [update_self]
      exact hsize.trans ((hother k hk).2 hjk)
    · rw [update_of_ne hji] at hj ⊢
      by_cases hki : k = i
      · subst hki
        exact (hother j hj).1 hjk
      · rw [update_of_ne hki] at hk
        exact h.next j k hj hk hjk

/-- What the run keeps: a well-formed heap, and regions above it and apart. -/
def SpaceOk (s : Space σ) : Prop :=
  (∃ F L, HeapInv s.heap F L) ∧ Spread s.shm.regions s.heap.heapEnd

theorem RoomyStep.ok {M : ShmMachine σ} {s s' : Space σ} {e : SpaceEvent} (hok : SpaceOk s)
    (h : RoomyStep M s e s') : SpaceOk s' := by
  obtain ⟨⟨F, L, hinv⟩, hspread⟩ := hok
  obtain ⟨hstep, hroomy⟩ := h
  cases hstep with
  | @shm e shm' hstep =>
    refine ⟨⟨F, L, hinv⟩, ?_⟩
    cases e with
    | create name size ret =>
      obtain ⟨-, fuel, hret⟩ := hstep
      rcases shmCreate_outcome hret with ⟨i, -, -, -, rfl⟩ | ⟨i, -, -, hmake⟩ | ⟨-, hreg, -⟩
      · exact hspread.update fun hv => ⟨hv, rfl, rfl⟩
      · rw [hmake.regions]
        exact hspread.make (hroomy hmake.absent i hmake.free)
      · rw [hreg]
        exact hspread
    | opened name ret =>
      rcases shmOpen_cases hstep with ⟨i, -, -, rfl⟩ | ⟨-, -, rfl⟩
      · exact hspread.update fun hv => ⟨hv, rfl, rfl⟩
      · exact hspread
    | close name ret =>
      rcases shmClose_cases hstep with ⟨i, hfind, -, rfl⟩ | ⟨-, -, rfl⟩
      · exact hspread.update fun _ => ⟨(shmFind_some hfind).1, rfl, rfl⟩
      · exact hspread
  | @kmalloc size ret heap' hsize hrun =>
    have hinv' : ∃ F' L', HeapInv heap' F' L' := by
      rcases Nat.eq_zero_or_pos size with rfl | hpos
      · obtain ⟨N, hN⟩ := hrun
        cases hN (N + 1) (by omega)
        exact ⟨F, L, hinv⟩
      · obtain ⟨r, t, hrun', -, hout⟩ := kmalloc_spec onPages_machine hinv hpos hsize
        obtain ⟨-, rfl⟩ := hrun.unique hrun'
        rcases hout with ⟨-, h⟩ | ⟨b, F', -, h⟩
        · exact ⟨F, L, h⟩
        · exact ⟨F', _, h⟩
    refine ⟨hinv', ?_⟩
    refine ⟨hspread.addr, ?_, hspread.next⟩
    intro i hi
    rcases (kmalloc_heapEnd onPages_machine hinv hsize hrun).2 with hend | ⟨hext, hend⟩
    · rw [hend]
      exact hspread.above i hi
    · rw [hend, ← hspread.addr i hi]
      exact hroomy hext i hi

/-- The heap after `heap_init`, with an empty table. -/
theorem SpaceOk.start {m : σ} {heap0 heap : HeapState Flat}
    (hinit : Returns (heapInit Flat.machine) heap0 () heap) : SpaceOk (σ := σ) ⟨.bss m, heap⟩ := by
  obtain ⟨hyes, hno⟩ := heapInit_spec onPages_machine heap0
  cases hserves : serves 512 heap0.mach.supply with
  | false =>
    rw [Returns, hno hserves] at hinit
    cases hinit
  | true =>
    obtain ⟨heap', hret, hinv⟩ := hyes hserves
    obtain ⟨-, rfl⟩ := hinit.unique hret
    refine ⟨⟨_, _, hinv⟩, ?_, ?_, ?_⟩
    · intro i hi
      cases hi
    · intro i hi
      cases hi
    · intro i j hi
      cases hi

/-- **Isolation.** In every state reached, after `heap_init` and from an empty table, by
calls that make regions only where there is room and extend the heap only up to the first
region, the valid regions are apart from each other and from the heap. -/
theorem shm_isolated {M : ShmMachine σ} {m : σ} {heap0 heap : HeapState Flat}
    (hinit : Returns (heapInit Flat.machine) heap0 () heap) {es : List SpaceEvent}
    {s : Space σ} (hrun : Run (RoomyStep M) ⟨.bss m, heap⟩ es s) : Isolated s :=
  (hrun.invariant (I := SpaceOk) (fun _ _ _ hs h => h.ok hs) (.start hinit)).2.isolated

/-- A small region on an empty table, and then a small allocation. -/
theorem shm_isolated_small :
    ∃ (heap0 heap : HeapState Flat) (es : List SpaceEvent)
      (s : Space (Pmm × List (Nat × Nat × Nat))),
      Returns (heapInit Flat.machine) heap0 () heap ∧
      Run (RoomyStep pmmShm) ⟨.bss freeFrames, heap⟩ es s ∧ es.length = 2 ∧
      (s.shm.regions 0).valid = true ∧ Isolated s := by
  obtain ⟨heap0, hserves⟩ : ∃ heap0 : HeapState Flat, serves 512 heap0.mach.supply = true :=
    ⟨.bss ⟨fun _ => 0, List.replicate 512 4096, fun _ _ => 0, fun _ => none⟩, by decide +kernel⟩
  obtain ⟨heap, hinit, hinv⟩ := (heapInit_spec onPages_machine heap0).1 hserves
  have hend : heap.heapEnd = 0xFFFFFFFF80600000 := heapInit_heapEnd hinit
  obtain ⟨r, heap', hkmalloc, -⟩ :=
    kmalloc_spec onPages_machine hinv (by decide : 0 < 100) (by decide : 100 ≤ heapMaxSize)
  have heval : (shmCreate pmmShm 1 (some ⟨[97], by decide⟩) 100 true (.bss freeFrames)).map
      (fun q => (q.1.1, (q.2.regions 0).valid, (q.2.regions 0).addr)) =
      some (0, true, shmVirt 0) := by decide +kernel
  obtain ⟨⟨ret, shm'⟩, hret, heq⟩ := Option.map_eq_some_iff.mp heval
  have hvalid : (shm'.regions 0).valid = true := congrArg (·.2.1) heq
  have hcreate : RoomyStep pmmShm ⟨.bss freeFrames, heap⟩
      (.shm (.create ⟨[97], by decide⟩ 100 ret)) ⟨shm', heap⟩ := by
    refine ⟨.shm ⟨by decide, 1, hret⟩, ?_⟩
    intro _ i _
    refine ⟨?_, ?_⟩
    · show heap.heapEnd ≤ 0xFFFFFFFF80C00000 + i.val * 0x100000
      omega
    · intro j hj
      cases hj
  have hstep : RoomyStep pmmShm ⟨shm', heap⟩ (.kmalloc 100 r) ⟨shm', heap'⟩ := by
    refine ⟨.kmalloc (by decide) hkmalloc, ?_⟩
    intro _ i hi
    have hspread := (hcreate.ok (.start hinit)).2
    rw [hspread.addr i hi]
    show heap.heapEnd + 4096 * 1 ≤ 0xFFFFFFFF80C00000 + i.val * 0x100000
    omega
  have hrun := Run.cons hcreate (.cons hstep (.nil _))
  exact ⟨heap0, heap, _, _, hinit, hrun, rfl, hvalid, shm_isolated hinit hrun⟩

/-- A region of one page more than 1 MiB, and then another one: both are valid, and the
second starts inside the first. -/
theorem large_region_overlaps :
    ((shmCreate pmmShm 2 (some ⟨[97], by decide⟩) 0x100001 true (.bss freeFrames)).bind fun r =>
      (shmCreate pmmShm 2 (some ⟨[98], by decide⟩) 1 true r.2).map fun q =>
        [(q.2.regions 0).range, (q.2.regions 1).range])
      = some [(shmVirt 0, shmVirt 0 + 0x101000), (shmVirt 1, shmVirt 1 + 0x1000)] ∧
    ((shmCreate pmmShm 2 (some ⟨[97], by decide⟩) 0x100001 true (.bss freeFrames)).bind fun r =>
      (shmCreate pmmShm 2 (some ⟨[98], by decide⟩) 1 true r.2).map fun q =>
        ((q.2.regions 0).valid, (q.2.regions 1).valid)) = some (true, true) ∧
    shmVirt 1 < shmVirt 0 + 0x101000 := by
  decide +kernel

end GosKernel.Ipc
