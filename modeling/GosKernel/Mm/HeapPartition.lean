import GosKernel.Lib.Run
import GosKernel.Mm.HeapEnds

/-!
# The heap partition invariant

Callers make any calls on the heap, with live pointers, and write inside the payloads
they own; `pmm_alloc_page` answers each call as it likes. In every state this leads
to, the blocks on the free list and the live allocations partition the heap.
-/

namespace GosKernel.Mm

open Linked Exec

/-- What callers do: the entry points of the heap, and writes. -/
inductive HeapCall
  | kmalloc (size : Nat)
  | kzalloc (size : Nat)
  | krealloc (ptr newSize : Nat)
  | kfree (ptr : Nat)
  | write (addr : Nat) (byte : UInt8)

/-- A call, the answers `pmm_alloc_page` has for it, what the frames hold, and the
value returned (`0` for the `void` calls). -/
structure HeapEvent where
  call : HeapCall
  supply : List Nat
  frame : Nat → ByteMem
  ret : Nat

/-- The heap, and the allocations that are live. -/
structure HeapSys where
  heap : HeapState Flat
  live : List Alloc

/-- The heap as a call finds it. -/
def HeapSys.serving (s : HeapSys) (supply : List Nat) (frame : Nat → ByteMem) : HeapState Flat :=
  { s.heap with mach := { s.heap.mach with
    supply := supply
    frame := frame } }

namespace HeapCall

/-- Requests of at most `HEAP_MAX_SIZE`, pointers that are `NULL` or live, writes inside
live payloads. -/
def Allowed (s : HeapSys) : HeapCall → Prop
  | kmalloc size => size ≤ heapMaxSize
  | kzalloc size => size ≤ heapMaxSize
  | krealloc ptr newSize => newSize ≤ heapMaxSize ∧ (ptr = 0 ∨ ∃ a ∈ s.live, a.ptr = ptr)
  | kfree ptr => ptr = 0 ∨ ∃ a ∈ s.live, a.ptr = ptr
  | write addr _ => ∃ a ∈ s.live, a.ptr ≤ addr ∧
      addr < a.ptr + headers s.heap.mach.mem a.block .size

/-- The code a call runs. -/
def run {σ : Type} (M : PagedMachine σ) : HeapCall → (fuel : Nat) → Exec (HeapState σ) Nat
  | kmalloc size, fuel => Mm.kmalloc M fuel size
  | kzalloc size, fuel => Mm.kzalloc M fuel size
  | krealloc ptr newSize, fuel => Mm.krealloc M fuel ptr newSize
  | kfree ptr, _ => do
    Mm.kfree M ptr
    pure 0
  | write addr byte, _ => do
    onMach (M.store8 addr byte)
    pure 0

/-- A pointer that was returned is live. -/
def granted (live : List Alloc) (size ret : Nat) : List Alloc :=
  if ret = 0 then live else ⟨ret - sizeofHeapBlock, size⟩ :: live

/-- A pointer that was freed is not. -/
def dropped (live : List Alloc) (ptr : Nat) : List Alloc :=
  live.filter fun a => a.ptr ≠ ptr

/-- The live allocations after a call that returned `ret`. A `krealloc` that fails
keeps the old allocation. -/
def after (live : List Alloc) (ret : Nat) : HeapCall → List Alloc
  | kmalloc size => granted live size ret
  | kzalloc size => granted live size ret
  | krealloc ptr newSize =>
    if ret = 0 ∧ newSize ≠ 0 then live else granted (dropped live ptr) newSize ret
  | kfree ptr => dropped live ptr
  | write _ _ => live

end HeapCall

/-- One call. -/
inductive HeapStep : HeapSys → HeapEvent → HeapSys → Prop
  | call {s : HeapSys} {e : HeapEvent} {h' : HeapState Flat} (hallowed : e.call.Allowed s)
      (hrun : Converges (e.call.run Flat.machine) (s.serving e.supply e.frame) e.ret h') :
      HeapStep s e ⟨h', e.call.after s.live e.ret⟩

/-! ## Every call keeps the heap well formed -/

section

variable {s : HeapState Flat} {F : List Nat} {L : List Alloc}

/-- Dropping a live pointer drops one allocation. -/
theorem HeapInv.perm_dropped (h : HeapInv s F L) {a : Alloc} (ha : a ∈ L) :
    L.Perm (a :: HeapCall.dropped L a.ptr) := by
  obtain ⟨L1, L2, rfl⟩ := List.append_of_mem ha
  have hperm : (L1 ++ a :: L2).Perm (a :: (L1 ++ L2)) := List.perm_middle
  have hinv : HeapInv s F (a :: (L1 ++ L2)) := ⟨h.toHeapBounds, h.shape.perm hperm⟩
  have hne : ∀ c ∈ L1 ++ L2, decide (c.ptr ≠ a.ptr) = true := by
    intro c hc
    have := hinv.live_ne hc
    unfold Alloc.ptr
    simpa using fun heq => this heq.symm
  have hdrop : HeapCall.dropped (L1 ++ a :: L2) a.ptr = L1 ++ L2 := by
    unfold HeapCall.dropped
    rw [List.filter_append, List.filter_cons_of_neg (by simp), ← List.filter_append]
    exact List.filter_eq_self.mpr hne
  rw [hdrop]
  exact hperm

theorem HeapInv.dropped_null (h : HeapInv s F L) : HeapCall.dropped L 0 = L :=
  List.filter_eq_self.mpr fun a ha => by simpa using (h.header_of_live ha).1

theorem AllocOutcome.granted {L' : List Alloc} {size r : Nat} (h : AllocOutcome F L L' size r s) :
    (r = 0 ∧ HeapInv s F L) ∨ (r ≠ 0 ∧ ∃ F', HeapInv s F' (HeapCall.granted L' size r)) := by
  rcases h with ⟨hr, hinv⟩ | ⟨b, F', rfl, hinv⟩
  · exact .inl ⟨hr, hinv⟩
  · refine .inr ⟨ptr_ne_zero b, F', ?_⟩
    exact hinv

theorem AllocOutcome.granted_self {size r : Nat} (h : AllocOutcome F L L size r s) :
    ∃ F', HeapInv s F' (HeapCall.granted L size r) := by
  rcases h.granted with ⟨hr, hinv⟩ | ⟨-, hinv⟩
  · refine ⟨F, ?_⟩
    unfold HeapCall.granted
    rwa [if_pos hr]
  · exact hinv

end

theorem kmalloc_zero {σ : Type} (M : PagedMachine σ) (s : HeapState σ) :
    Converges (Mm.kmalloc M · 0) s 0 s ∧ Converges (Mm.kzalloc M · 0) s 0 s := by
  constructor <;>
  · refine ⟨1, fun fuel hfuel => ?_⟩
    obtain ⟨k, rfl⟩ := fuel_succ hfuel
    rfl

section

variable {G : PagedMachine Flat} (hG : OnPages G)

include hG

theorem krealloc_run_spec {s : HeapState Flat} {F : List Nat} {L : List Alloc} {ptr newSize : Nat}
    (h : HeapInv s F L) (hmax : newSize ≤ heapMaxSize) (hptr : ptr = 0 ∨ ∃ a ∈ L, a.ptr = ptr) :
    ∃ ret h', Converges ((HeapCall.krealloc ptr newSize).run G) s ret h' ∧
      ∃ F', HeapInv h' F' ((HeapCall.krealloc ptr newSize).after L ret) := by
  have hafter : ∀ {L' : List Alloc} {ret : Nat}, HeapCall.dropped L ptr = L' → ret ≠ 0 →
      (HeapCall.krealloc ptr newSize).after L ret = HeapCall.granted L' newSize ret := by
    rintro L' ret rfl hret
    exact if_neg fun hx => hret hx.1
  rcases hptr with rfl | ⟨a, ha, rfl⟩
  · -- `krealloc(NULL, newSize)` is `kmalloc(newSize)`
    have hdrop := h.dropped_null
    rcases Nat.eq_zero_or_pos newSize with rfl | hpos
    · refine ⟨0, s, (kmalloc_zero G s).1, F, ?_⟩
      rw [HeapCall.after, hdrop]
      exact h
    · obtain ⟨r, s', hrun, -, hout⟩ := kmalloc_spec hG h hpos hmax
      refine ⟨r, s', hrun, ?_⟩
      rcases hout.granted with ⟨rfl, hinv⟩ | ⟨hr, hinv⟩
      · refine ⟨F, ?_⟩
        rw [HeapCall.after, if_pos ⟨rfl, by omega⟩]
        exact hinv
      · rw [hafter hdrop hr]
        exact hinv
  · have hperm := h.perm_dropped ha
    have hinv0 : HeapInv s F (a :: HeapCall.dropped L a.ptr) :=
      ⟨h.toHeapBounds, h.shape.perm hperm⟩
    rcases Nat.eq_zero_or_pos newSize with rfl | hpos
    · obtain ⟨s', F', hrun, hinv, -⟩ := kfree_spec hG hinv0
      refine ⟨0, s', ⟨0, fun fuel _ => ?_⟩, F', ?_⟩
      · show Mm.krealloc G fuel a.ptr 0 s = _
        rw [Mm.krealloc, if_neg (h.header_of_live ha).1, if_pos rfl, hrun.bind_eq]
        rfl
      · rw [HeapCall.after]
        exact hinv
    · obtain ⟨r, s', hrun, -, hout, -⟩ := krealloc_spec hG hinv0 hpos hmax
      refine ⟨r, s', hrun, ?_⟩
      rcases hout.granted with ⟨rfl, hinv⟩ | ⟨hr, hinv⟩
      · refine ⟨F, ?_⟩
        rw [HeapCall.after, if_pos ⟨rfl, by omega⟩]
        exact ⟨hinv.toHeapBounds, hinv.shape.perm hperm.symm⟩
      · rw [hafter rfl hr]
        exact hinv

/-- A call that callers may make returns, and the heap is well formed afterwards. -/
theorem HeapCall.run_spec {s : HeapState Flat} {F : List Nat} {L : List Alloc} (h : HeapInv s F L)
    (c : HeapCall) (hallowed : c.Allowed ⟨s, L⟩) :
    ∃ ret h', Converges (c.run G) s ret h' ∧ ∃ F', HeapInv h' F' (c.after L ret) := by
  cases c with
  | kmalloc size =>
    rcases Nat.eq_zero_or_pos size with rfl | hpos
    · exact ⟨0, s, (kmalloc_zero G s).1, F, h⟩
    · obtain ⟨r, s', hrun, -, hout⟩ := kmalloc_spec hG h hpos hallowed
      exact ⟨r, s', hrun, hout.granted_self⟩
  | kzalloc size =>
    rcases Nat.eq_zero_or_pos size with rfl | hpos
    · exact ⟨0, s, (kmalloc_zero G s).2, F, h⟩
    · obtain ⟨r, s', hrun, -, hout⟩ := kzalloc_spec hG h hpos hallowed
      exact ⟨r, s', hrun, hout.granted_self⟩
  | krealloc ptr newSize => exact krealloc_run_spec hG h hallowed.1 hallowed.2
  | kfree ptr =>
    rcases hallowed with rfl | ⟨a, ha, rfl⟩
    · refine ⟨0, s, ⟨0, fun _ _ => rfl⟩, F, ?_⟩
      rw [HeapCall.after, h.dropped_null]
      exact h
    · have hperm := h.perm_dropped ha
      obtain ⟨s', F', hrun, hinv', -⟩ :=
        kfree_spec hG (L := dropped L a.ptr) ⟨h.toHeapBounds, h.shape.perm hperm⟩
      exact ⟨0, s', ⟨0, fun _ _ => hrun.bind_eq⟩, F', hinv'⟩
  | write addr byte =>
    obtain ⟨a, ha, hlo, hhi⟩ := hallowed
    refine ⟨0, { s with mach := { s.mach with mem := Function.update s.mach.mem addr byte } },
      ⟨0, fun _ _ => ?_⟩, F, h.write ha ⟨rfl, fun x hx => ?_⟩⟩
    · rw [run, Returns, bind_apply, onMach, hG.store8 _ (h.payload_mapped ha hlo hhi)]
      rfl
    · have hhi' : addr < a.ptr + headers s.mach.mem a.block .size := hhi
      exact Function.update_of_ne (by omega) _ _

/-- `heap_init` either faults or leaves a heap of one free block. -/
theorem heapInit_inv {s0 h : HeapState Flat} (hinit : Returns (heapInit G) s0 () h) :
    HeapInv h [heapBase] [] := by
  cases hserves : serves 512 s0.mach.supply with
  | true =>
    obtain ⟨h', hrun', hinv⟩ := (heapInit_spec hG s0).1 hserves
    rw [(hinit.unique hrun').2]
    exact hinv
  | false =>
    rw [Returns, (heapInit_spec hG s0).2 hserves] at hinit
    cases hinit

end

theorem HeapInv.serving {s : HeapSys} {F : List Nat} (h : HeapInv s.heap F s.live)
    (supply : List Nat) (frame : Nat → ByteMem) : HeapInv (s.serving supply frame) F s.live :=
  ⟨⟨h.start, h.max, h.end_le, h.end_page, h.mapped⟩, h.shape⟩

/-- One step keeps the heap well formed. -/
theorem heapStep_inv (s : HeapSys) (e : HeapEvent) (s' : HeapSys)
    (h : ∃ F, HeapInv s.heap F s.live) (hstep : HeapStep s e s') :
    ∃ F, HeapInv s'.heap F s'.live := by
  obtain ⟨F, h⟩ := h
  cases hstep with
  | call hallowed hrun =>
    obtain ⟨ret, h', hrun', F', hinv⟩ :=
      HeapCall.run_spec onPages_machine (h.serving e.supply e.frame) e.call hallowed
    obtain ⟨rfl, rfl⟩ := hrun'.unique hrun
    exact ⟨F', hinv⟩

end GosKernel.Mm
