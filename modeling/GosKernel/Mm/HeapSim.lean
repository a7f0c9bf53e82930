import GosKernel.Mm.Heap

/-!
# The heap over other machines

The code uses nothing of a machine but its six operations, so whatever it returns over one
machine it returns over every other that answers these in the same way (`MachineSim`), and
with more fuel too. The two calls of `heap_extend` go together, because what `vmm_map_page`
does depends on where the frame came from.
-/

namespace GosKernel.Mm

open Exec

variable {σ τ : Type}

/-- The globals are the same, and the machines are related. -/
structure HeapRel (R : σ → τ → Prop) (h : HeapState σ) (g : HeapState τ) : Prop where
  start : h.heapStart = g.heapStart
  stop : h.heapEnd = g.heapEnd
  max : h.heapMax = g.heapMax
  list : h.heapFreeList = g.heapFreeList
  mach : R h.mach g.mach

/-- What `M` answers, `N` answers too, as far as `R` can tell. -/
structure MachineSim (M : PagedMachine σ) (N : PagedMachine τ) (R : σ → τ → Prop) : Prop where
  load8 : ∀ addr, Sim R (M.load8 addr) (N.load8 addr)
  store8 : ∀ addr v, Sim R (M.store8 addr v) (N.store8 addr v)
  load64 : ∀ addr, Sim R (M.load64 addr) (N.load64 addr)
  store64 : ∀ addr v, Sim R (M.store64 addr v) (N.store64 addr v)
  extend : ∀ n i, Sim (HeapRel R) (heapExtendLoop M n i) (heapExtendLoop N n i)

variable {R : σ → τ → Prop}

/-- Only the machines differ. -/
theorem HeapRel.on_mach {υ ω : Type} {S : υ → ω → Prop} {h : HeapState σ} {g : HeapState τ} {t : υ}
    {s : ω} (hrel : HeapRel R h g) (hS : S t s) :
    HeapRel S { h with mach := t } { g with mach := s } :=
  ⟨hrel.start, hrel.stop, hrel.max, hrel.list, hS⟩

theorem sim_onMach {α : Type} {c : Exec σ α} {d : Exec τ α} (h : Sim R c d) :
    Sim (HeapRel R) (Mm.onMach c) (Mm.onMach d) := by
  intro s t a s' hst hret
  obtain ⟨m, hc, rfl⟩ := returns_onMach hret
  obtain ⟨t1, hd, hR⟩ := h s.mach t.mach a m hst.mach hc
  exact ⟨_, onMach_returns hd, hst.on_mach hR⟩

theorem sim_setFreeList (b : Nat) :
    Sim (HeapRel R) (Mm.setFreeList (σ := σ) b) (Mm.setFreeList (σ := τ) b) :=
  .update fun _ _ hst => ⟨hst.start, hst.stop, hst.max, rfl, hst.mach⟩

theorem sim_readFreeList :
    Sim (HeapRel R) (Exec.read HeapState.heapFreeList) (Exec.read HeapState.heapFreeList) :=
  .read fun _ _ hst => hst.list

namespace MachineSim

variable {M : PagedMachine σ} {N : PagedMachine τ} (h : MachineSim M N R)

include h

/-! ## One lemma for each function -/

theorem getField (b : Nat) (f : HeapField) :
    Sim (HeapRel R) (Mm.getField M b f) (Mm.getField N b f) := (sim_onMach (h.load64 _))

theorem setField (b : Nat) (f : HeapField) (v : Nat) :
    Sim (HeapRel R) (Mm.setField M b f v) (Mm.setField N b f v) := (sim_onMach (h.store64 _ _))

theorem setFieldIf (b : Nat) (f : HeapField) (v : Nat) :
    Sim (HeapRel R) (Mm.setFieldIf M b f v) (Mm.setFieldIf N b f v) :=
  .ite (h.setField _ _ _) (.pure ())

theorem setNextOf (b v : Nat) : Sim (HeapRel R) (Mm.setNextOf M b v) (Mm.setNextOf N b v) :=
  .ite (h.setField _ _ _) (sim_setFreeList v)

theorem pushFreeList (b : Nat) : Sim (HeapRel R) (Mm.pushFreeList M b) (Mm.pushFreeList N b) :=
  sim_readFreeList.bind fun _ => (h.setField _ _ _).bind fun _ => (h.setField _ _ _).bind fun _ =>
    (h.setFieldIf _ _ _).bind fun _ => sim_setFreeList b

theorem heapExtend (pages : Nat) :
    Sim (HeapRel R) (Mm.heapExtend M pages) (Mm.heapExtend N pages) := by
  refine (h.extend pages 0).bind fun ok => .ite ?_ (.pure 0)
  refine (Sim.read fun _ _ hst => hst.stop).bind fun _ => Sim.bind ?_ fun _ => .pure _
  refine .update fun s t hst => ⟨hst.start, ?_, hst.max, hst.list, hst.mach⟩
  rw [hst.stop]

theorem adjacent (b c : Nat) : Sim (HeapRel R) (Mm.adjacent M b c) (Mm.adjacent N b c) :=
  (h.getField _ _).bind fun _ => .pure _

theorem heapCoalesceNext (b : Nat) :
    Sim (HeapRel R) (Mm.heapCoalesceNext M b) (Mm.heapCoalesceNext N b) := by
  refine (h.getField _ _).bind fun next => .ite ?_ (.pure ())
  refine (h.adjacent _ _).bind fun adj => .ite ?_ (.pure ())
  exact (h.getField _ _).bind fun _ => (h.getField _ _).bind fun _ =>
    (h.setField _ _ _).bind fun _ => (h.getField _ _).bind fun _ =>
    (h.setField _ _ _).bind fun _ => h.setFieldIf _ _ _

theorem heapCoalescePrev (b : Nat) :
    Sim (HeapRel R) (Mm.heapCoalescePrev M b) (Mm.heapCoalescePrev N b) := by
  refine (h.getField _ _).bind fun prev => .ite ?_ (.pure b)
  refine (h.adjacent _ _).bind fun adj => .ite ?_ (.pure b)
  exact (h.getField _ _).bind fun _ => (h.getField _ _).bind fun _ =>
    (h.setField _ _ _).bind fun _ => (h.getField _ _).bind fun _ =>
    (h.setField _ _ _).bind fun _ => (h.setFieldIf _ _ _).bind fun _ => .pure prev

theorem heapCoalesce (b : Nat) : Sim (HeapRel R) (Mm.heapCoalesce M b) (Mm.heapCoalesce N b) :=
  (h.heapCoalesceNext b).bind fun _ => h.heapCoalescePrev b

theorem heapInitBlock (b : Nat) : Sim (HeapRel R) (Mm.heapInitBlock M b) (Mm.heapInitBlock N b) :=
  (sim_setFreeList b).bind fun _ => (h.setField _ _ _).bind fun _ => (h.setField _ _ _).bind fun _ =>
    (h.setField _ _ _).bind fun _ => h.setField _ _ _

theorem heapInit : Sim (HeapRel R) (Mm.heapInit M) (Mm.heapInit N) := by
  refine Sim.bind (.update fun s t hst => ⟨rfl, rfl, rfl, hst.list, hst.mach⟩) fun _ => ?_
  refine (h.heapExtend _).bind fun mem => .ite (.stop _) ?_
  exact (Sim.read fun _ _ hst => hst.start).bind fun _ => h.heapInitBlock _

theorem kmallocSplit (b n : Nat) :
    Sim (HeapRel R) (Mm.kmallocSplit M b n) (Mm.kmallocSplit N b n) :=
  (h.setField _ _ _).bind fun _ => (h.getField _ _).bind fun _ => (h.setField _ _ _).bind fun _ =>
    (h.getField _ _).bind fun _ => (h.setField _ _ _).bind fun _ => (h.getField _ _).bind fun _ =>
    (h.setField _ _ _).bind fun _ => (h.getField _ _).bind fun _ =>
    (h.setFieldIf _ _ _).bind fun _ => (h.getField _ _).bind fun _ =>
    (h.setNextOf _ _).bind fun _ => h.setField _ _ _

theorem kmallocUnlink (b : Nat) : Sim (HeapRel R) (Mm.kmallocUnlink M b) (Mm.kmallocUnlink N b) :=
  (h.getField _ _).bind fun _ => (h.getField _ _).bind fun _ => (h.setNextOf _ _).bind fun _ =>
    (h.getField _ _).bind fun _ => (h.getField _ _).bind fun _ => h.setFieldIf _ _ _

theorem kmallocTake (b n : Nat) : Sim (HeapRel R) (Mm.kmallocTake M b n) (Mm.kmallocTake N b n) :=
  ((h.getField _ _).bind fun _ => .ite (h.kmallocSplit _ _) (h.kmallocUnlink _)).bind fun _ =>
    (h.setField _ _ _).bind fun _ => (h.setField _ _ _).bind fun _ =>
    (h.setField _ _ _).bind fun _ => .pure _

theorem kmallocScan (size : Nat) {n m : Nat} (hnm : n ≤ m) (b : Nat) :
    Sim (HeapRel R) (Mm.kmallocScan M size n b) (Mm.kmallocScan N size m b) := by
  induction n generalizing m b with
  | zero => exact .stop _
  | succ n ih =>
    obtain ⟨m, rfl⟩ := fuel_succ hnm
    refine .ite (.pure none) ((h.getField _ _).bind fun magic => .ite (.pure (some 0)) ?_)
    refine (h.getField _ _).bind fun blockSize => .ite ((h.kmallocTake _ _).map some) ?_
    exact (h.getField _ _).bind fun next => ih (Nat.le_of_succ_le_succ hnm) next

theorem kmallocAddBlock (b n : Nat) :
    Sim (HeapRel R) (Mm.kmallocAddBlock M b n) (Mm.kmallocAddBlock N b n) :=
  (h.setField _ _ _).bind fun _ => (h.setField _ _ _).bind fun _ => h.pushFreeList b

/-- The limits of the heap are read at once, so the test is on related states. -/
theorem kmallocGrow (size : Nat) {c : Exec (HeapState σ) Nat} {d : Exec (HeapState τ) Nat}
    (hcd : Sim (HeapRel R) c d) :
    Sim (HeapRel R) (Mm.kmallocGrow M size c) (Mm.kmallocGrow N size d) := by
  intro s t r s' hst
  have hrest := Sim.ite (R := HeapRel R)
    (p := s.heapMax < wrap64 (s.heapEnd + kmallocPages size * pageSize)) (Sim.pure 0)
    ((h.heapExtend (kmallocPages size)).bind fun newMem => Sim.ite (p := newMem = 0) (Sim.pure 0)
      ((h.kmallocAddBlock newMem (kmallocPages size)).bind fun _ => hcd)) s t r s' hst
  unfold Mm.kmallocGrow
  simp only [Returns, read_id_bind, ← hst.max, ← hst.stop] at hrest ⊢
  exact hrest

theorem kmallocBody {n m : Nat} (hnm : n ≤ m) (size : Nat) {c : Exec (HeapState σ) Nat}
    {d : Exec (HeapState τ) Nat} (hcd : Sim (HeapRel R) c d) :
    Sim (HeapRel R) (Mm.kmallocBody M n size c) (Mm.kmallocBody N m size d) := by
  refine .ite (.pure 0) (sim_readFreeList.bind fun head => ?_)
  refine (h.kmallocScan _ hnm _).bind fun found => ?_
  cases found with
  | some ptr => exact .pure ptr
  | none => exact h.kmallocGrow _ hcd

theorem kmalloc {n m : Nat} (hnm : n ≤ m) (size : Nat) :
    Sim (HeapRel R) (Mm.kmalloc M n size) (Mm.kmalloc N m size) := by
  induction n generalizing m size with
  | zero => exact .stop _
  | succ n ih =>
    obtain ⟨m, rfl⟩ := fuel_succ hnm
    have hle := Nat.le_of_succ_le_succ hnm
    exact h.kmallocBody hle size (ih hle _)

theorem kzallocLoop (ptr n i : Nat) :
    Sim (HeapRel R) (Mm.kzallocLoop M ptr n i) (Mm.kzallocLoop N ptr n i) := by
  induction n generalizing i with
  | zero => exact .pure ()
  | succ n ih => exact (sim_onMach (h.store8 _ _)).bind fun _ => ih (i + 1)

theorem kzalloc {n m : Nat} (hnm : n ≤ m) (size : Nat) :
    Sim (HeapRel R) (Mm.kzalloc M n size) (Mm.kzalloc N m size) :=
  (h.kmalloc hnm size).bind fun ptr =>
    .ite ((h.kzallocLoop _ _ _).bind fun _ => .pure ptr) (.pure ptr)

theorem kfree (ptr : Nat) : Sim (HeapRel R) (Mm.kfree M ptr) (Mm.kfree N ptr) := by
  refine .ite (.pure ()) ((h.getField _ _).bind fun magic => .ite (.pure ()) ?_)
  exact (h.setField _ _ _).bind fun _ => (h.pushFreeList _).bind fun _ =>
    (h.heapCoalesce _).bind fun _ => .pure ()

theorem ksize (ptr : Nat) : Sim (HeapRel R) (Mm.ksize M ptr) (Mm.ksize N ptr) :=
  .ite (.pure 0) ((h.getField _ _).bind fun _ => .ite (.pure 0) (h.getField _ _))

theorem kreallocCopy (b src dst : Nat) {n m : Nat} (hnm : n ≤ m) (i : Nat) :
    Sim (HeapRel R) (Mm.kreallocCopy M b src dst n i) (Mm.kreallocCopy N b src dst m i) := by
  induction n generalizing m i with
  | zero => exact .stop _
  | succ n ih =>
    obtain ⟨m, rfl⟩ := fuel_succ hnm
    refine (h.getField _ _).bind fun size => .ite ?_ (.pure ())
    exact (sim_onMach (h.load8 _)).bind fun _ => (sim_onMach (h.store8 _ _)).bind fun _ =>
      ih (Nat.le_of_succ_le_succ hnm) (i + 1)

theorem krealloc {n m : Nat} (hnm : n ≤ m) (ptr newSize : Nat) :
    Sim (HeapRel R) (Mm.krealloc M n ptr newSize) (Mm.krealloc N m ptr newSize) := by
  refine .ite (h.kmalloc hnm newSize) (.ite ((h.kfree ptr).bind fun _ => .pure 0) ?_)
  refine (h.getField _ _).bind fun magic => .ite (.pure 0) ?_
  refine (h.getField _ _).bind fun size => .ite (.pure ptr) ?_
  refine (h.kmalloc hnm newSize).bind fun newPtr => .ite (.pure 0) ?_
  exact (h.kreallocCopy _ _ _ hnm _).bind fun _ => (h.kfree ptr).bind fun _ => .pure newPtr

end MachineSim

/-! ## Fuel -/

theorem HeapRel.eq {h g : HeapState σ} (hrel : HeapRel Eq h g) : h = g := by
  cases h
  cases g
  obtain ⟨hstart, hstop, hmax, hlist, hmach⟩ := hrel
  simp_all

theorem HeapRel.refl (h : HeapState σ) : HeapRel Eq h h := ⟨rfl, rfl, rfl, rfl, rfl⟩

theorem MachineSim.refl (M : PagedMachine σ) : MachineSim M M Eq where
  load8 _ := .refl _
  store8 _ _ := .refl _
  load64 _ := .refl _
  store64 _ _ := .refl _
  extend _ _ := by
    intro s t a s' hst h
    obtain rfl := hst.eq
    exact ⟨s', h, .refl s'⟩

/-- A simulation of a machine by itself says that nothing changes. -/
theorem sim_eq {α : Type} {c d : Exec (HeapState σ) α} (h : Sim (HeapRel Eq) c d) : Sim Eq c d := by
  rintro s s a s' rfl hret
  obtain ⟨t, hd, hrel⟩ := h s s a s' (.refl s) hret
  exact ⟨t, hd, hrel.eq⟩

end GosKernel.Mm
