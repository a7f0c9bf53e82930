import GosKernel.Mm.HeapSizes

/-!
# When `kmalloc` succeeds, and what `krealloc` keeps

For every heap that calls lead to, and whatever `pmm_alloc_page` answers:

- **`kmalloc_succeeds_iff`**: `kmalloc` succeeds exactly when a free block is large enough
  or the heap can be extended;
- **`krealloc_preserves`**: `krealloc` moves the payload and leaves the rest alone.
-/

namespace GosKernel.Mm

open Exec Linked List

/-- The blocks on the free list of `s` are those of `F`, in this order. -/
structure FreeList (s : HeapState Flat) (F : List Nat) : Prop where
  links : DSeg id (headers s.mach.mem · .next) (headers s.mach.mem · .prev) 0 F 0
  head_eq : s.heapFreeList = headOr id F 0
  ne_null : ∀ b ∈ F, b ≠ 0

theorem HeapInv.freeList {s : HeapState Flat} {F : List Nat} {L : List Alloc} (h : HeapInv s F L) :
    FreeList s F where
  links := h.shape.links
  head_eq := h.shape.head_eq
  ne_null _ hb := h.shape.ne_zero (mem_append_left _ hb)

theorem FreeList.unique {s : HeapState Flat} {F F' : List Nat} (h : FreeList s F)
    (h' : FreeList s F') : F = F' :=
  h.links.sseg.unique Function.injective_id h'.links.sseg h.ne_null h'.ne_null
    (h.head_eq.symm.trans h'.head_eq)

/-! ## Activations -/

section Calls

variable {σ : Type} (M : PagedMachine σ)

/-- `kmalloc` with at most `calls` activations: it stops where there would be one more.
The fuel bounds the search only. -/
def kmallocCalls : (calls fuel size : Nat) → Exec (HeapState σ) Nat
  | 0, _, _ => .stop
  | calls + 1, fuel, size => kmallocBody M fuel size (kmallocCalls calls fuel (kmallocRound size))

/-- What returns within these activations is what `kmalloc` does. -/
theorem kmallocCalls_sim (calls fuel size : Nat) :
    Sim (HeapRel Eq) (kmallocCalls M calls fuel size) (kmalloc M (calls + fuel) size) := by
  induction calls generalizing size with
  | zero => exact .stop _
  | succ calls ih =>
    rw [Nat.add_right_comm]
    exact (MachineSim.refl M).kmallocBody (Nat.le_add_left _ _) size (ih _)

end Calls

section Paths

variable {G : PagedMachine Flat} (hG : OnPages G) {s s' : HeapState Flat} {F : List Nat}
  {L : List Alloc} {size r : Nat}

section

variable (h : HeapInv s F L)
include hG h

/-- **Two activations are enough**, on each of the five ways. -/
theorem KmallocPath.calls (hpos : 0 < size) (hmax : size ≤ heapMaxSize)
    (hpath : KmallocPath G s F L size r s') :
    Converges (kmallocCalls G 2 · size) s r s' := by
  refine ⟨F.length + 2, fun fuel hfuel => ?_⟩
  show kmallocCalls G 2 fuel size s = some (r, s')
  rw [kmallocCalls, kmallocBody_eq hG h hpos (by omega), ← fits]
  cases hpath with
  | zero hsize => omega
  | found hfind htake =>
    rw [hfind]
    exact htake
  | limit hfind hover =>
    rw [hfind]
    rw [kmallocGrow, read_id_bind, ← growth, wrap64_growth h hpos hmax, if_pos hover]
    rfl
  | noPages hfind hroom hext =>
    rw [hfind]
    dsimp only
    rw [kmallocGrow_of_room h hroom, hext.bind_eq, if_pos rfl]
    rfl
  | @extended s1 s2 r s' hfind hroom hext hadd hinv hfit htake =>
    rw [hfind]
    rw [kmallocGrow_of_room h hroom, hext.bind_eq, if_neg h.heapEnd_ne_zero,
      hadd.bind_eq]
    -- the second activation finds the new block at once
    obtain ⟨-, hle, -, hidem⟩ := kmallocRound_spec hpos hmax
    have hfind2 : fits s2 (s.heapEnd :: F) (kmallocRound size) = some s.heapEnd := by
      rw [fits, hidem, List.find?_cons_of_pos (by simpa using hfit)]
    have hlen : (s.heapEnd :: F).length < fuel := by
      rw [List.length_cons]
      omega
    rw [kmallocCalls, kmallocBody_eq hG hinv (by omega) hlen, ← fits, hfind2, hidem]
    exact htake

/-! ## Success -/

theorem kmallocTake_ne_null {b n : Nat} (hb : b ∈ F) (hal : n % 16 = 0)
    (hfit : n ≤ headers s.mach.mem b .size)
    (htake : Returns (kmallocTake G b n) s r s') : r ≠ 0 := by
  obtain ⟨F1, F2, rfl⟩ := List.append_of_mem hb
  obtain ⟨t, F', hrun, -⟩ := kmallocTake_spec hG h hal hfit le_rfl
  rw [(htake.unique hrun).1]
  exact Nat.ne_of_gt (Nat.add_pos_right _ (by decide))

omit hG h in
theorem fits_eq_none_iff :
    fits s F size = none ↔ ¬ ∃ b ∈ F, kmallocRound size ≤ headers s.mach.mem b .size := by
  simp [fits]

/-- `heap_extend` succeeds exactly if the pages can be had. -/
theorem heapExtend_ne_null_iff {pages : Nat} (hroom : s.heapEnd + 4096 * pages ≤ s.heapMax)
    (hext : Returns (heapExtend G pages) s r s') :
    r ≠ 0 ↔ serves pages s.mach.supply = true := by
  have hmax := h.max
  obtain ⟨t, hrun, -⟩ := heapExtend_spec hG pages s h.end_page h.shape.lo_le (by omega)
  rw [(hext.unique hrun).1]
  cases serves pages s.mach.supply with
  | true => exact iff_of_true h.heapEnd_ne_zero rfl
  | false => exact iff_of_false (fun hne => hne rfl) nofun

/-- **Which ways end in an allocation.** -/
theorem KmallocPath.ne_null_iff (hpos : 0 < size) (hmax : size ≤ heapMaxSize)
    (hpath : KmallocPath G s F L size r s') :
    r ≠ 0 ↔ (∃ b ∈ F, kmallocRound size ≤ headers s.mach.mem b .size) ∨
      s.heapEnd + 4096 * growth size ≤ s.heapMax ∧
        serves (growth size) s.mach.supply = true := by
  obtain ⟨hal, -⟩ := kmallocRound_spec hpos hmax
  cases hpath with
  | zero hsize => omega
  | @found b _ _ hfind htake =>
    have hfit : kmallocRound size ≤ headers s.mach.mem b .size := by
      simpa using List.find?_some hfind
    have hb : b ∈ F := List.mem_of_find?_eq_some hfind
    exact iff_of_true (kmallocTake_ne_null hG h hb hal hfit htake) (.inl ⟨b, hb, hfit⟩)
  | limit hfind hover =>
    refine iff_of_false (fun hne => hne rfl) ?_
    rintro (hfree | ⟨hroom, -⟩)
    · exact fits_eq_none_iff.mp hfind hfree
    · omega
  | noPages hfind hroom hext =>
    refine iff_of_false (fun hne => hne rfl) ?_
    rintro (hfree | ⟨-, hserves⟩)
    · exact fits_eq_none_iff.mp hfind hfree
    · exact (heapExtend_ne_null_iff hG h hroom hext).mpr hserves rfl
  | extended hfind hroom hext hadd hinv hfit htake =>
    refine iff_of_true (kmallocTake_ne_null hG hinv List.mem_cons_self hal hfit htake)
      (.inr ⟨hroom, ?_⟩)
    exact (heapExtend_ne_null_iff hG h hroom hext).mp h.heapEnd_ne_zero

end

/-- A request that the heap may be asked for rounds without wrapping. -/
theorem rounds_of_le (hmax : size ≤ heapMaxSize) : Rounds size := by
  unfold heapMaxSize at hmax
  unfold Rounds roundUp
  omega

end Paths

/-- **`kmalloc` succeeds exactly when it can.** In every state reached from `heap_init`,
and whatever `pmm_alloc_page` answers: `kmalloc(size)` returns, with at most two
activations; the result is not `NULL` if and only if some free block holds the rounded
size, or the pages for it fit below `g_heap_max` and can all be had; and every live
allocation is as it was. -/
theorem kmalloc_succeeds_iff {s0 h : HeapState Flat}
    (hinit : Returns (heapInit Flat.machine) s0 () h) {es : List HeapEvent} {s : HeapSys}
    (hrun : Run HeapStep ⟨h, []⟩ es s) {size : Nat} (hpos : 0 < size) (hmax : size ≤ heapMaxSize)
    (supply : List Nat) (frame : Nat → ByteMem) :
    ∃ F r h', FreeList s.heap F ∧
      Converges (kmalloc Flat.machine · size) (s.serving supply frame) r h' ∧
      Converges (kmallocCalls Flat.machine 2 · size) (s.serving supply frame) r h' ∧
      (r ≠ 0 ↔ (∃ b ∈ F, roundUp size ≤ headers s.heap.mach.mem b .size) ∨
        s.heap.heapEnd + pagesFor size * 4096 ≤ s.heap.heapMax ∧
          serves (pagesFor size) supply = true) ∧
      LiveKept s.heap h' s.live := by
  obtain ⟨F, hinv⟩ := hrun.invariant heapStep_inv ⟨_, heapInit_inv onPages_machine hinit⟩
  have hinv' := hinv.serving supply frame
  obtain ⟨r, h', hconv, hkept, -⟩ := kmalloc_spec onPages_machine hinv' hpos hmax
  have hpath := kmalloc_path onPages_machine hinv' hmax hconv
  refine ⟨F, r, h', hinv.freeList, hconv, hpath.calls onPages_machine hinv' hpos hmax, ?_, hkept⟩
  have hiff := hpath.ne_null_iff onPages_machine hinv' hpos hmax
  rw [kmallocRound_eq (rounds_of_le hmax), growth_eq (rounds_of_le hmax), Nat.mul_comm 4096] at hiff
  exact hiff

/-- The heap after `heap_init`: its block holds a page. -/
theorem kmalloc_succeeds_iff_page :
    ∃ (h : HeapState Flat) (r : Nat) (h' : HeapState Flat),
      Returns (heapInit Flat.machine)
        (.bss ⟨fun _ => 0, List.replicate 512 0x600000, fun _ _ => 0, fun _ => none⟩) () h ∧
      Converges (kmallocCalls Flat.machine 2 · 4096)
        (HeapSys.serving ⟨h, []⟩ [] fun _ _ => 0) r h' ∧ r ≠ 0 := by
  obtain ⟨h, hinit, hinv, hsize⟩ := heapInit_frames
  obtain ⟨F, r, h', hfree, -, hcalls, hiff, -⟩ := kmalloc_succeeds_iff hinit (.nil _)
    (show 0 < 4096 by decide) (by decide) [] (fun _ _ => 0)
  have hF : F = [heapBase] := hfree.unique hinv.freeList
  exact ⟨h, r, h', hinit, hcalls, hiff.mpr (.inl ⟨heapBase, hF ▸ List.mem_cons_self,
    (show roundUp 4096 ≤ heapInitialSize - sizeofHeapBlock by decide).trans_eq hsize.symm⟩)⟩

/-! ## `krealloc` -/

section Realloc

variable {s : HeapState Flat} {F : List Nat} {L : List Alloc}

/-- `ksize` of a pointer whose block is free. -/
theorem ksize_freed {a : Alloc} (hptr : a.ptr ≠ 0) (hblock : sub64 a.ptr sizeofHeapBlock = a.block)
    (hmagic : headers s.mach.mem a.block .magic = heapMagicFree) :
    Returns (ksize Flat.machine a.ptr) s 0 s := by
  have hread : Returns (getField Flat.machine a.block .magic) s heapMagicFree s :=
    congrArg (fun m => some (m, s)) hmagic
  rw [Returns, ksize, if_neg hptr, hblock, hread.bind_eq, if_pos (by decide)]
  rfl

/-- The size of a live allocation that was kept. -/
theorem ksize_kept {s' : HeapState Flat} {F' : List Nat} {a : Alloc} (h : HeapInv s' F' L)
    (ha : a ∈ L) (hkept : LiveKept s s' L) :
    Returns (ksize Flat.machine a.ptr) s' (headers s.mach.mem a.block .size) s' := by
  rw [← hkept.size_eq ha]
  exact ksize_live onPages_machine h ha

end Realloc

/-- **`krealloc` preserves data and neighbours.** In every state reached from `heap_init`,
for every live pointer and whatever `pmm_alloc_page` answers, `krealloc(p, new_size)`
returns, and the heap is well formed with the live allocations that result.

If it returns `r ≠ NULL`: `ksize(r)` is at least `new_size`, the payload of `p` is found at
`r` up to the smaller size, the block of `p` is free unless `r = p`, and every other
live allocation is as it was. If it returns `NULL`, all of them are, `p` among them. -/
theorem krealloc_preserves {s0 h : HeapState Flat}
    (hinit : Returns (heapInit Flat.machine) s0 () h) {es : List HeapEvent} {s : HeapSys}
    (hrun : Run HeapStep ⟨h, []⟩ es s) {a : Alloc} (ha : a ∈ s.live) {newSize : Nat}
    (hpos : 0 < newSize) (hmax : newSize ≤ heapMaxSize) (supply : List Nat)
    (frame : Nat → ByteMem) :
    ∃ n r h', Returns (ksize Flat.machine a.ptr) s.heap n s.heap ∧
      Converges (krealloc Flat.machine · a.ptr newSize) (s.serving supply frame) r h' ∧
      (∃ F, HeapInv h' F ((HeapCall.krealloc a.ptr newSize).after s.live r)) ∧
      (r ≠ 0 →
        (∃ m, Returns (ksize Flat.machine r) h' m h' ∧ newSize ≤ m) ∧
        (∀ j, j < min n newSize → h'.mach.mem (r + j) = s.heap.mach.mem (a.ptr + j)) ∧
        (r ≠ a.ptr → Returns (ksize Flat.machine a.ptr) h' 0 h') ∧
        LiveKept s.heap h' (HeapCall.dropped s.live a.ptr)) ∧
      (r = 0 → Returns (ksize Flat.machine a.ptr) h' n h' ∧ LiveKept s.heap h' s.live) := by
  obtain ⟨F, hinv⟩ := hrun.invariant heapStep_inv ⟨_, heapInit_inv onPages_machine hinit⟩
  have hinv' := hinv.serving supply frame
  have hperm := hinv'.perm_dropped ha
  have hinv0 : HeapInv (s.serving supply frame) F (a :: HeapCall.dropped s.live a.ptr) :=
    ⟨hinv'.toHeapBounds, hinv'.shape.perm hperm⟩
  obtain ⟨hptr, hblock, -⟩ := hinv'.header_of_live ha
  -- one run, seen by what it does to `a` and by what it leaves in the heap
  obtain ⟨r, h', hconv, hkept, hout, hbytes, hfreed, hfailed⟩ := krealloc_spec onPages_machine hinv0 hpos hmax
  obtain ⟨r', t, hconv', F', hafter⟩ :=
    krealloc_run_spec onPages_machine hinv' hmax (.inr ⟨a, ha, rfl⟩)
  obtain ⟨rfl, rfl⟩ := hconv.unique hconv'
  refine ⟨_, r, h', ksize_live onPages_machine hinv ha, hconv, ⟨F', hafter⟩, fun hr => ?_, fun hr => ?_⟩
  · obtain ⟨b, F'', hrb, hinv''⟩ := hout.resolve_left fun hx => hr hx.1
    have hnew : (⟨b, newSize⟩ : Alloc) ∈ ⟨b, newSize⟩ :: HeapCall.dropped s.live a.ptr :=
      List.mem_cons_self
    have hsize := ksize_live onPages_machine hinv'' hnew
    rw [show (⟨b, newSize⟩ : Alloc).ptr = r from hrb.symm] at hsize
    refine ⟨⟨_, hsize, (hinv''.shape.used _ hnew).2⟩, fun j hj => ?_,
      fun hne => ksize_freed hptr hblock (hfreed hr hne), hkept⟩
    exact hbytes hr j (lt_of_lt_of_le hj (min_le_left _ _))
  · have hall : LiveKept s.heap h' s.live := fun c hc =>
      hfailed hr c (hperm.mem_iff.mp hc)
    rw [HeapCall.after, if_pos ⟨hr, by omega⟩] at hafter
    exact ⟨ksize_kept hafter ha hall, hall⟩

/-- An allocation of 100 bytes, enlarged to 200. -/
theorem krealloc_preserves_grown :
    ∃ (h : HeapState Flat) (p : Nat) (s : HeapSys) (r : Nat) (h' : HeapState Flat),
      Returns (heapInit Flat.machine)
        (.bss ⟨fun _ => 0, List.replicate 512 0x600000, fun _ _ => 0, fun _ => none⟩) () h ∧
      Run HeapStep ⟨h, []⟩ [⟨.kmalloc 100, [], fun _ _ => 0, p⟩] s ∧ p ≠ 0 ∧
      Converges (krealloc Flat.machine · p 200) (s.serving [] fun _ _ => 0) r h' := by
  obtain ⟨h, hinit, hinv, hsize⟩ := heapInit_frames
  have hinv' := HeapInv.serving (s := ⟨h, []⟩) hinv [] fun _ _ => 0
  obtain ⟨p, t, hconv, -, hout⟩ := kmalloc_spec onPages_machine hinv' (show 0 < 100 by decide) (by decide)
  have hstep : HeapStep ⟨h, []⟩ ⟨.kmalloc 100, [], fun _ _ => 0, p⟩
      ⟨t, HeapCall.granted [] 100 p⟩ := .call (show 100 ≤ heapMaxSize by decide) hconv
  have hp : p ≠ 0 := by
    refine ((kmalloc_path onPages_machine hinv' (by decide) hconv).ne_null_iff onPages_machine hinv'
      (by decide) (by decide)).mpr (.inl ⟨heapBase, List.mem_cons_self, ?_⟩)
    show kmallocRound 100 ≤ headers h.mach.mem heapBase .size
    rw [hsize]
    decide
  obtain ⟨b, F', rfl, -⟩ := hout.resolve_left fun hx => hp hx.1
  have hlive : (⟨b, 100⟩ : Alloc) ∈ HeapCall.granted [] 100 (b + sizeofHeapBlock) := by
    exact List.mem_cons_self
  obtain ⟨n, r, h', -, hre, -⟩ := krealloc_preserves hinit (.cons hstep (.nil _)) hlive
    (show 0 < 200 by decide) (by decide) [] (fun _ _ => 0)
  exact ⟨h, _, _, r, h', hinit, .cons hstep (.nil _), hp, hre⟩

end GosKernel.Mm
