import GosKernel.Mm.HeapShape

/-!
# The heap code on private memory

Symbolic execution of the allocator on `Flat`, over any machine that behaves on the
pages that were mapped (`OnPages`). While the code edits headers, the
state is described by `HeapAt s0 H W φ head`: the headers of the blocks in `H` are
those of the abstract map `φ`, and compared to `s0` only headers of blocks in `W`
were written. Reads and writes of members then become reads and updates of `φ`, and
each function of the allocator is seen to compute the abstract operation of
`HeapShape` it implements.
-/

namespace GosKernel.Mm

open Linked Exec List Headers

/-! ## Mapped pages -/

/-- The end of the range of the heap. -/
def heapTop : Nat := heapBase + heapMaxSize

/-- A page of the range of the heap, below `top`. -/
def HeapPage (top virt : Nat) : Prop := virt % 4096 = 0 ∧ heapBase ≤ virt ∧ virt < top

instance (top virt : Nat) : Decidable (HeapPage top virt) := inferInstanceAs (Decidable (_ ∧ _))

/-- On mapped pages, and for the mapping of heap pages, `G` is the machine whose memory is
private. -/
structure OnPages (G : PagedMachine Flat) : Prop where
  load8 : ∀ {s : Flat} {addr : Nat}, s.Mapped addr → G.load8 addr s = some (s.mem addr, s)
  store8 : ∀ {s : Flat} {addr : Nat} (v : UInt8), s.Mapped addr →
    G.store8 addr v s = some ((), { s with mem := Function.update s.mem addr v })
  load64 : ∀ {s : Flat} {addr : Nat}, s.Mapped addr → addr % 8 = 0 →
    G.load64 addr s = some (s.mem.load64 addr, s)
  store64 : ∀ {s : Flat} {addr : Nat} (v : Nat), s.Mapped addr → addr % 8 = 0 →
    G.store64 addr v s = some ((), { s with mem := s.mem.store64 addr v })
  alloc : G.pmmAllocPage = Flat.allocPage
  map : ∀ {virt : Nat} (phys flags : Nat), HeapPage heapTop virt →
    G.vmmMapPage virt phys flags = Flat.machine.vmmMapPage virt phys flags

theorem onPages_machine : OnPages Flat.machine :=
  ⟨fun _ => rfl, fun _ _ => rfl, fun _ _ => rfl, fun _ _ _ => rfl, rfl, fun _ _ _ => rfl⟩

/-- The machine that faults on pages that were not mapped, and maps no pages but those of the heap
below `top`. -/
def pagedFlat (top : Nat) : PagedMachine Flat where
  load8 addr := fun s => if s.Mapped addr then Flat.machine.load8 addr s else none
  store8 addr v := fun s => if s.Mapped addr then Flat.machine.store8 addr v s else none
  load64 addr := fun s =>
    if s.Mapped addr ∧ addr % 8 = 0 then Flat.machine.load64 addr s else none
  store64 addr v := fun s =>
    if s.Mapped addr ∧ addr % 8 = 0 then Flat.machine.store64 addr v s else none
  pmmAllocPage := Flat.allocPage
  vmmMapPage virt phys flags :=
    if HeapPage top virt then Flat.machine.vmmMapPage virt phys flags else .stop

theorem onPages_paged : OnPages (pagedFlat heapTop) :=
  ⟨fun h => if_pos h, fun _ h => if_pos h, fun h h8 => if_pos ⟨h, h8⟩,
    fun _ h h8 => if_pos ⟨h, h8⟩, rfl, fun _ _ h => if_pos h⟩

/-! ## Headers in memory -/

/-- The headers found in memory. -/
def headers (m : ByteMem) : Headers := fun b f => m.load64 (b + f.offset)

theorem headers_lt (m : ByteMem) (b : Nat) (f : HeapField) : headers m b f < 2 ^ 64 :=
  m.load64_lt _

/-- The headers at the addresses of `H` do not overlap. -/
def Spaced (H : List Nat) : Prop :=
  ∀ x ∈ H, ∀ y ∈ H, x = y ∨ x + 32 ≤ y ∨ y + 32 ≤ x

theorem spaced_singleton (b : Nat) : Spaced [b] := fun _ hx _ hy =>
  .inl ((mem_singleton.mp hx).trans (mem_singleton.mp hy).symm)

theorem HeapField.offset_le (f : HeapField) : f.offset + 8 ≤ 32 := by
  cases f <;> decide

theorem HeapField.offset_apart {f g : HeapField} (h : f ≠ g) :
    f.offset + 8 ≤ g.offset ∨ g.offset + 8 ≤ f.offset := by
  cases f <;> cases g <;> first | exact absurd rfl h | decide

variable {G : PagedMachine Flat} (hG : OnPages G)

variable {F : List Nat} {L : List Alloc} {b head hi lo : Nat} {s s' : HeapState Flat} {φ : Headers}

theorem headers_store64 (m : ByteMem) {x : Nat} (g f : HeapField) {v : Nat} (hv : v < 2 ^ 64)
    (hsp : x = b ∨ x + 32 ≤ b ∨ b + 32 ≤ x) :
    headers (m.store64 (b + f.offset) v) x g = (headers m).set b f v x g := by
  have hf := f.offset_le
  have hg := g.offset_le
  rw [set_apply]
  split
  · rename_i h
    rw [h.1, h.2]
    exact ByteMem.load64_store64_self hv
  · rename_i h
    refine ByteMem.load64_store64_of_disjoint ?_
    by_cases hxb : x = b
    · have := HeapField.offset_apart fun hfg : f = g => h ⟨hxb, hfg.symm⟩
      omega
    · omega

theorem headers_congr {m m' : ByteMem} (h : ByteMem.Agree m m' b 32) (f : HeapField) :
    headers m b f = headers m' b f :=
  ByteMem.load64_congr (h.mono (by omega) (by have := f.offset_le; omega))

/-- The members of the header at `b` lie in mapped pages. -/
def Reached (s : HeapState Flat) (b : Nat) : Prop :=
  b % 16 = 0 ∧ ∀ x, b ≤ x → x < b + 32 → s.mach.Mapped x

theorem Reached.field (h : Reached s b) (f : HeapField) :
    s.mach.Mapped (b + f.offset) ∧ (b + f.offset) % 8 = 0 := by
  have hf := f.offset_le
  refine ⟨h.2 _ (by omega) (by omega), ?_⟩
  have hb := h.1
  cases f <;> simp only [HeapField.offset] <;> omega

include hG in
theorem getField_run (h : Reached s b) (f : HeapField) :
    Returns (getField G b f) s (headers s.mach.mem b f) s := by
  rw [Returns, getField, onMach, hG.load64 (h.field f).1 (h.field f).2]
  rfl

include hG in
theorem getField_bind {α : Type} (h : Reached s b) (f : HeapField)
    (g : Nat → Exec (HeapState Flat) α) :
    (getField G b f >>= g) s = g (headers s.mach.mem b f) s := (getField_run hG h f).bind_eq

/-! ## Symbolic states -/

/-- The headers of `H` are those of `φ`, the free list starts at `head`, and compared
to `s0` only headers of `W` and the free-list pointer were written. -/
structure HeapAt (s0 : HeapState Flat) (H W : List Nat) (φ : Headers) (head : Nat)
    (s : HeapState Flat) : Prop where
  reach : ∀ b ∈ H, Reached s b
  view : ∀ b ∈ H, ∀ f, headers s.mach.mem b f = φ b f
  frame : ∀ x, (∀ b ∈ W, x < b ∨ b + 32 ≤ x) → s.mach.mem x = s0.mach.mem x
  head_eq : s.heapFreeList = head
  rest : s = { s0 with
    heapFreeList := s.heapFreeList
    mach := { s0.mach with mem := s.mach.mem } }

section

variable {s0 s : HeapState Flat} {H W : List Nat} {φ : Headers} {head : Nat}

theorem HeapAt.heapEnd_eq (h : HeapAt s0 H W φ head s) : s.heapEnd = s0.heapEnd :=
  (congrArg HeapState.heapEnd h.rest).trans rfl

end

theorem heapAt_self {H : List Nat} (h : ∀ b ∈ H, Reached s b) (W : List Nat) :
    HeapAt s H W (headers s.mach.mem) s.heapFreeList s :=
  ⟨h, fun _ _ _ => rfl, fun _ _ => rfl, rfl, rfl⟩

section Rules

variable {s0 : HeapState Flat} {H W : List Nat} {φ : Headers} {head b v : Nat} {f : HeapField}

include hG in
theorem getField_at (hb : b ∈ H) :
    Triple (HeapAt s0 H W φ head) (getField G b f)
      fun x s => x = φ b f ∧ HeapAt s0 H W φ head s :=
  fun s hs => ⟨_, s, getField_run hG (hs.reach b hb) f, hs.view b hb f, hs⟩

variable (hsp : Spaced H) (hWH : W ⊆ H)
include hG hsp hWH

theorem setField_at (hb : b ∈ W) (hv : v < 2 ^ 64) :
    Triple (HeapAt s0 H W φ head) (setField G b f v)
      fun _ s => HeapAt s0 H W (φ.set b f v) head s := by
  intro s hs
  have hreach := (hs.reach b (hWH hb)).field f
  have hrun : Returns (setField G b f v) s () { s with mach := { s.mach with
      mem := s.mach.mem.store64 (b + f.offset) v } } := by
    rw [Returns, setField, onMach, hG.store64 v hreach.1 hreach.2]
    rfl
  refine ⟨(), _, hrun, hs.reach, fun x hx g => ?_, fun x hx => ?_, hs.head_eq, ?_⟩
  · show headers (s.mach.mem.store64 (b + f.offset) v) x g = _
    rw [headers_store64 _ _ _ hv (hsp x hx b (hWH hb)), set_apply, set_apply,
      hs.view x hx]
  · show s.mach.mem.store64 (b + f.offset) v x = _
    have hfar := hx b hb
    have hf := f.offset_le
    rw [← hs.frame x hx]
    exact ByteMem.store64_outside (by omega)
  · have hrest := hs.rest
    rw [hrest]

theorem setFieldIf_at (hb : b ≠ 0 → b ∈ W) (hv : v < 2 ^ 64) :
    Triple (HeapAt s0 H W φ head) (setFieldIf G b f v)
      fun _ s => HeapAt s0 H W (φ.setIf b f v) head s := by
  unfold setFieldIf setIf
  split
  · rename_i hne
    exact setField_at hG hsp hWH (hb hne) hv
  · exact Triple.pure fun _ hs => hs

omit hG hsp hWH in
theorem setFreeList_at : Triple (HeapAt s0 H W φ head) (setFreeList b)
    fun _ s => HeapAt s0 H W φ b s := by
  intro s hs
  refine ⟨(), _, rfl, hs.reach, hs.view, hs.frame, rfl, ?_⟩
  have hrest := hs.rest
  rw [hrest]

theorem setNextOf_at (hb : b ≠ 0 → b ∈ W) (hv : v < 2 ^ 64) :
    Triple (HeapAt s0 H W φ head) (setNextOf G b v)
      fun _ s => HeapAt s0 H W (φ.setIf b .next v) (if b ≠ 0 then head else v) s := by
  unfold setNextOf setIf
  split
  · rename_i hne
    exact setField_at hG hsp hWH (hb hne) hv
  · exact setFreeList_at

end Rules

/-! ## What each function does to the headers -/

section Functions

variable {s0 : HeapState Flat} {H W : List Nat} {φ : Headers} {head b size : Nat}
variable (hsp : Spaced H) (hWH : W ⊆ H) (hlt : ∀ x f, φ x f < 2 ^ 64)
include hG hsp hWH

include hlt in
theorem kmallocUnlink_at (hb : b ∈ W) (hprev : φ b .prev ≠ 0 → φ b .prev ∈ W)
    (hnext : φ b .next ≠ 0 → φ b .next ∈ W) :
    Triple (HeapAt s0 H W φ head) (kmallocUnlink G b) fun _ s =>
      HeapAt s0 H W (φ.unlink b) (if φ b .prev ≠ 0 then head else φ b .next) s := by
  -- the write through `prev` does not change what `b` itself says
  have hnext' : φ.setIf (φ b .prev) .next (φ b .next) b .next = φ b .next := by
    unfold setIf
    split
    · rw [set_apply, ite_eq_right_iff]
      exact fun _ => rfl
    · rfl
  have hprev' : φ.setIf (φ b .prev) .next (φ b .next) b .prev = φ b .prev :=
    setIf_of_field_ne _ _ _ _ (by decide)
  refine (getField_at hG (hWH hb)).bind_eq ?_
  refine (getField_at hG (hWH hb)).bind_eq ?_
  refine (setNextOf_at hG hsp hWH hprev (hlt _ _)).seq ?_
  refine (getField_at hG (hWH hb)).bind_eq ?_
  refine (getField_at hG (hWH hb)).bind_eq ?_
  rw [hnext', hprev']
  exact setFieldIf_at hG hsp hWH hnext (hlt _ _)

include hlt in
theorem kmallocSplit_at {n : Nat} (hn : n = b + sizeofHeapBlock + size) (hn64 : n < 2 ^ 64)
    (hfit : sizeofHeapBlock + size ≤ φ b .size) (hb : b ∈ W) (hnW : n ∈ W) (hnb : b ≠ n)
    (hbnext : b ≠ φ b .next) (hprev : φ b .prev ≠ 0 → φ b .prev ∈ W)
    (hnext : φ b .next ≠ 0 → φ b .next ∈ W) :
    Triple (HeapAt s0 H W φ head) (kmallocSplit G b size) fun _ s =>
      HeapAt s0 H W ((φ.replace b n (φ b .size - sizeofHeapBlock - size)).set b .size size)
        (if φ b .prev ≠ 0 then head else n) s := by
  have hsz := hlt b .size
  have hsub : sub64 (sub64 (φ b .size) sizeofHeapBlock) size
      = φ b .size - sizeofHeapBlock - size := by
    rw [sub64_of_le (by omega) hsz, sub64_of_le (by omega) (by omega)]
  unfold kmallocSplit
  rw [← hn, wrap64_of_lt hn64]
  refine (setField_at hG hsp hWH hnW (by decide)).seq ?_
  refine (getField_at hG (hWH hb)).bind_eq ?_
  rw [set_of_ne _ _ _ _ hnb, hsub]
  refine (setField_at hG hsp hWH hnW (by omega)).seq ?_
  refine (getField_at hG (hWH hb)).bind_eq ?_
  simp only [set_of_ne _ _ _ _ hnb]
  refine (setField_at hG hsp hWH hnW (hlt _ _)).seq ?_
  refine (getField_at hG (hWH hb)).bind_eq ?_
  simp only [set_of_ne _ _ _ _ hnb]
  refine (setField_at hG hsp hWH hnW (hlt _ _)).seq ?_
  refine (getField_at hG (hWH hb)).bind_eq ?_
  simp only [set_of_ne _ _ _ _ hnb]
  refine (setFieldIf_at hG hsp hWH hnext hn64).seq ?_
  refine (getField_at hG (hWH hb)).bind_eq ?_
  rw [setIf_of_ne _ _ _ _ hbnext]
  simp only [set_of_ne _ _ _ _ hnb]
  refine (setNextOf_at hG hsp hWH hprev hn64).seq ?_
  exact setField_at hG hsp hWH hb (by omega)

/-- The end of `kmallocTake`, after the block left the list. -/
theorem kmallocTake_of_carve {φ' : Headers} {head' : Nat} (hb : b ∈ W)
    (hcarve : Triple (HeapAt s0 H W φ head) (kmallocCarve G b size) fun _ s =>
      HeapAt s0 H W φ' head' s) :
    Triple (HeapAt s0 H W φ head) (kmallocTake G b size) fun r s =>
      r = wrap64 (b + sizeofHeapBlock) ∧ HeapAt s0 H W (φ'.markUsed b) head' s := by
  refine hcarve.seq ?_
  refine (setField_at hG hsp hWH hb (by decide)).seq ?_
  refine (setField_at hG hsp hWH hb (by decide)).seq ?_
  refine (setField_at hG hsp hWH hb (by decide)).seq ?_
  exact Triple.pure fun s hs => ⟨rfl, hs⟩

theorem pushFreeList_at (hb : b ∈ W) (hb64 : b < 2 ^ 64) (hhead64 : head < 2 ^ 64)
    (hhead : head ≠ 0 → head ∈ W) :
    Triple (HeapAt s0 H W φ head) (pushFreeList G b) fun _ s =>
      HeapAt s0 H W (φ.push b head) b s := by
  refine (Triple.read fun s hs => hs.head_eq).bind_eq ?_
  refine (setField_at hG hsp hWH hb hhead64).seq ?_
  refine (setField_at hG hsp hWH hb (by decide)).seq ?_
  refine (setFieldIf_at hG hsp hWH hhead hb64).seq ?_
  exact setFreeList_at

theorem kmallocAddBlock_at (pages : Nat) (hb : b ∈ W) (hb64 : b < 2 ^ 64)
    (hhead64 : head < 2 ^ 64) (hhead : head ≠ 0 → head ∈ W) :
    Triple (HeapAt s0 H W φ head) (kmallocAddBlock G b pages) fun _ s =>
      HeapAt s0 H W (((φ.set b .magic heapMagicFree).set b .size
        (sub64 (pages * pageSize) sizeofHeapBlock)).push b head) b s := by
  refine (setField_at hG hsp hWH hb (by decide)).seq ?_
  refine (setField_at hG hsp hWH hb (wrap64_lt _)).seq ?_
  exact pushFreeList_at hG hsp hWH hb hb64 hhead64 hhead

theorem heapInitBlock_at (hb : b ∈ W) :
    Triple (HeapAt s0 H W φ head) (heapInitBlock G b) fun _ s =>
      HeapAt s0 H W ((((φ.set b .magic heapMagicFree).set b .size
        (heapInitialSize - sizeofHeapBlock)).set b .next 0).set b .prev 0) b s := by
  refine setFreeList_at.seq ?_
  refine (setField_at hG hsp hWH hb (by decide)).seq ?_
  refine (setField_at hG hsp hWH hb (by decide)).seq ?_
  refine (setField_at hG hsp hWH hb (by decide)).seq ?_
  exact setField_at hG hsp hWH hb (by decide)

/-- The first half of `heap_coalesce` swallows a successor that starts where the block
ends. -/
theorem heapCoalesceNext_at {c : Nat} (hb : b ∈ W) (hc : c ∈ W) (hbc : c ≠ b) (hc0 : c ≠ 0)
    (hnext : φ b .next = c) (hadj : wrap64 (b + sizeofHeapBlock + φ b .size) = c)
    (hb64 : b < 2 ^ 64) (hsize : φ b .size + (sizeofHeapBlock + φ c .size) < 2 ^ 64)
    (hnn : φ c .next ≠ 0 → φ c .next ∈ W) (hnn64 : φ c .next < 2 ^ 64) :
    Triple (HeapAt s0 H W φ head) (heapCoalesceNext G b) fun _ s =>
      HeapAt s0 H W (φ.merge b c) head s := by
  refine (getField_at hG (hWH hb)).bind_eq ?_
  rw [hnext, if_pos hc0]
  have hadjacent : Triple (HeapAt s0 H W φ head) (adjacent G b c) fun r s =>
      r = true ∧ HeapAt s0 H W φ head s := by
    refine (getField_at hG (hWH hb)).bind_eq ?_
    rw [decide_eq_true hadj]
    exact Triple.pure fun s hs => ⟨rfl, hs⟩
  refine hadjacent.bind_eq ?_
  refine (getField_at hG (hWH hb)).bind_eq ?_
  refine (getField_at hG (hWH hc)).bind_eq ?_
  refine (setField_at hG hsp hWH hb (wrap64_lt _)).seq ?_
  refine (getField_at hG (hWH hc)).bind_eq ?_
  rw [set_of_ne _ _ _ _ hbc, wrap64_of_lt hsize]
  refine (setField_at hG hsp hWH hb hnn64).seq ?_
  exact setFieldIf_at hG hsp hWH hnn hb64

omit hsp in
/-- A block that does not end where its successor starts is left alone. -/
theorem heapCoalesceNext_apart_at (hb : b ∈ W)
    (hadj : φ b .next ≠ 0 → wrap64 (b + sizeofHeapBlock + φ b .size) ≠ φ b .next) :
    Triple (HeapAt s0 H W φ head) (heapCoalesceNext G b) fun _ s =>
      HeapAt s0 H W φ head s := by
  refine (getField_at hG (hWH hb)).bind_eq ?_
  by_cases hnext : φ b .next = 0
  · rw [if_neg (not_not.mpr hnext)]
    exact Triple.pure fun s hs => hs
  · rw [if_pos hnext]
    have hadjacent : Triple (HeapAt s0 H W φ head) (adjacent G b (φ b .next))
        fun r s => r = false ∧ HeapAt s0 H W φ head s := by
      refine (getField_at hG (hWH hb)).bind_eq ?_
      rw [decide_eq_false (hadj hnext)]
      exact Triple.pure fun s hs => ⟨rfl, hs⟩
    refine hadjacent.bind_eq ?_
    exact Triple.pure fun s hs => hs

omit hsp in
/-- The second half does nothing for the first block of the list. -/
theorem heapCoalescePrev_at (hb : b ∈ W) (hprev : φ b .prev = 0) :
    Triple (HeapAt s0 H W φ head) (heapCoalescePrev G b) fun r s =>
      r = b ∧ HeapAt s0 H W φ head s := by
  refine (getField_at hG (hWH hb)).bind_eq ?_
  rw [if_neg (not_not.mpr hprev)]
  exact Triple.pure fun s hs => ⟨rfl, hs⟩

end Functions

/-! ## The invariant -/

section

variable (h : HeapShape φ lo hi head F L)
include h

theorem HeapShape.spaced : Spaced (blocks F L) := by
  intro x hx y hy
  by_cases hxy : x = y
  · exact .inl hxy
  · have := h.apart hx hy hxy
    unfold sizeofHeapBlock at this
    omega

theorem HeapShape.spaced_cons {n : Nat}
    (hfar : ∀ x ∈ blocks F L, x + 32 ≤ n ∨ n + 32 ≤ x) : Spaced (n :: blocks F L) := by
  intro x hx y hy
  rcases mem_cons.mp hx with hxn | hx <;> rcases mem_cons.mp hy with hyn | hy
  · exact .inl (hxn.trans hyn.symm)
  · exact .inr (hxn ▸ (hfar y hy).symm)
  · exact .inr (hyn ▸ hfar x hx)
  · exact h.spaced x hx y hy

/-- The headers of free blocks lie outside live blocks. -/
theorem HeapShape.free_apart {w : Nat} (hw : w ∈ F) {a : Alloc} (ha : a ∈ L) :
    w + 32 ≤ a.block ∨ a.block + sizeofHeapBlock + φ a.block .size ≤ w := by
  have := h.apart (mem_append_left _ hw)
    (mem_append_right _ (mem_map_of_mem ha)) (h.free_ne_live hw ha)
  unfold sizeofHeapBlock at this ⊢
  omega

theorem HeapShape.head_mem (hne : head ≠ 0) : head ∈ F := by
  have hhead := h.head_eq
  rcases headOr_eq_or F 0 with h0 | ⟨b, hb, hb'⟩
  · exact absurd (hhead.trans h0) hne
  · rw [hhead, hb']
    exact hb

end

/-- The bounds of the heap. -/
structure HeapBounds (s : HeapState Flat) : Prop where
  start : s.heapStart = heapBase
  max : s.heapMax = heapBase + heapMaxSize
  end_le : s.heapEnd ≤ heapBase + heapMaxSize
  end_page : s.heapEnd % 4096 = 0
  /-- All pages of the heap were mapped. -/
  mapped : ∀ x, heapBase ≤ x → x < s.heapEnd → s.mach.Mapped x

/-- A well-formed heap: free list `F`, live allocations `L`. -/
structure HeapInv (s : HeapState Flat) (F : List Nat) (L : List Alloc) : Prop
    extends HeapBounds s where
  shape : HeapShape (headers s.mach.mem) heapBase s.heapEnd s.heapFreeList F L

/-- Header and payload of every live allocation are as they were. -/
def LiveKept (s s' : HeapState Flat) (L : List Alloc) : Prop :=
  ∀ a ∈ L, ByteMem.Agree s'.mach.mem s.mach.mem a.block
    (sizeofHeapBlock + headers s.mach.mem a.block .size)

theorem HeapAt.inv {H W : List Nat} (hat : HeapAt s H W φ head s') (h : HeapBounds s)
    (hshape : HeapShape φ heapBase s.heapEnd head F L) (hsub : blocks F L ⊆ H) :
    HeapInv s' F L := by
  rw [hat.rest, hat.head_eq]
  exact ⟨⟨h.start, h.max, h.end_le, h.end_page, h.mapped⟩,
    hshape.congr fun b hb f => hat.view b (hsub hb) f⟩

theorem HeapAt.liveKept {H W : List Nat} (hat : HeapAt s H W φ head s')
    (hW : ∀ w ∈ W, ∀ a ∈ L, w + 32 ≤ a.block ∨
      a.block + sizeofHeapBlock + headers s.mach.mem a.block .size ≤ w) : LiveKept s s' L := by
  intro a ha x hlo hhi
  refine hat.frame x fun w hw => ?_
  rcases hW w hw a ha with h | h
  · exact .inr (by omega)
  · exact .inl (by omega)

section

variable {s : HeapState Flat} {F : List Nat} {L : List Alloc}

/-- Every block lies in the 64 MiB from `heapBase` on. -/
theorem HeapInv.range (h : HeapInv s F L) {b : Nat} (hb : b ∈ blocks F L) :
    0xFFFFFFFF80400000 ≤ b ∧
      b + sizeofHeapBlock + headers s.mach.mem b .size ≤ 0xFFFFFFFF84400000 := by
  obtain ⟨hlo, hhi⟩ := h.shape.bounds hb
  have hend := h.end_le
  unfold heapBase heapMaxSize at hend
  exact ⟨hlo, by omega⟩

theorem HeapInv.reached (h : HeapInv s F L) : ∀ b ∈ blocks F L, Reached s b := by
  intro b hb
  obtain ⟨hlo, hhi⟩ := h.shape.bounds hb
  refine ⟨(h.shape.aligned b hb).1, fun x hx hx' => h.mapped x (by omega) ?_⟩
  unfold sizeofHeapBlock at hhi
  omega

/-- The links of a free block are `NULL` or free blocks. -/
theorem HeapInv.links_mem {F1 F2 : List Nat} {b : Nat} (h : HeapInv s (F1 ++ b :: F2) L) :
    (headers s.mach.mem b .next ≠ 0 → headers s.mach.mem b .next ∈ F1 ++ b :: F2) ∧
      (headers s.mach.mem b .prev ≠ 0 → headers s.mach.mem b .prev ∈ F1 ++ b :: F2) := by
  obtain ⟨hnext, hprev⟩ := h.shape.link_mem
  exact ⟨fun hne => by simp [hnext.resolve_left hne], fun hne => by simp [hprev.resolve_left hne]⟩

end

/-- Header and payload of the blocks on the free list, in the order of the list. -/
def freeExtents (s : HeapState Flat) (F : List Nat) : List (Nat × Nat) :=
  F.map (headers s.mach.mem).extent

/-- One extent is handed out, as a whole or up to `n`. -/
inductive Taken : List (Nat × Nat) → List (Nat × Nat) → Prop
  | whole (E1 E2 : List (Nat × Nat)) (I : Nat × Nat) : Taken (E1 ++ I :: E2) (E1 ++ E2)
  | split (E1 E2 : List (Nat × Nat)) {b n e : Nat} (hlo : b < n) (hhi : n < e) :
      Taken (E1 ++ (b, e) :: E2) (E1 ++ (n, e) :: E2)

/-- The first extent swallows the second one if that starts where it ends. -/
inductive Coalesced : List (Nat × Nat) → List (Nat × Nat) → Prop
  | merge {b c e : Nat} (E : List (Nat × Nat)) : Coalesced ((b, c) :: (c, e) :: E) ((b, e) :: E)
  | apart {I : Nat × Nat} {E : List (Nat × Nat)} (h : ∀ J E', E = J :: E' → I.2 ≠ J.1) :
      Coalesced (I :: E) (I :: E)

/-- The tail `n` of block `b` takes its place. -/
theorem taken_split {F1 F2 : List Nat} {n e : Nat}
    (hb : (headers s.mach.mem).extent b = (b, e)) (hlo : b < n) (hhi : n < e)
    (htail : (headers s'.mach.mem).extent n = (n, e))
    (hother : ∀ x ∈ F1 ++ F2, (headers s'.mach.mem).extent x = (headers s.mach.mem).extent x) :
    Taken (freeExtents s (F1 ++ b :: F2)) (freeExtents s' (F1 ++ n :: F2)) := by
  have h1 : freeExtents s' F1 = freeExtents s F1 :=
    map_congr_left fun x hx => hother x (mem_append_left _ hx)
  have h2 : freeExtents s' F2 = freeExtents s F2 :=
    map_congr_left fun x hx => hother x (mem_append_right _ hx)
  have hnew : freeExtents s' (F1 ++ n :: F2) =
      freeExtents s' F1 ++ (n, e) :: freeExtents s' F2 := by
    rw [freeExtents, map_append, map_cons, htail]
    rfl
  have hold : freeExtents s (F1 ++ b :: F2) =
      freeExtents s F1 ++ (b, e) :: freeExtents s F2 := by
    rw [freeExtents, map_append, map_cons, hb]
    rfl
  rw [hnew, hold, h1, h2]
  exact .split _ _ hlo hhi

section Take

variable {s : HeapState Flat} {F1 F2 : List Nat} {L : List Alloc} {b size r : Nat}

section

variable (h : HeapInv s (F1 ++ b :: F2) L)
include hG h

omit hG in
/-- The tail of a free block is apart from all headers. -/
theorem HeapInv.tail_apart {n : Nat}
    (hsplit : size + 48 ≤ headers s.mach.mem b .size) (hn : b + sizeofHeapBlock + size = n) :
    ∀ x ∈ blocks (F1 ++ b :: F2) L, x + 32 ≤ n ∨ n + 32 ≤ x := by
  have h32 : sizeofHeapBlock = 32 := rfl
  intro x hx
  by_cases hxb : x = b
  · omega
  · have hb : b ∈ blocks (F1 ++ b :: F2) L := mem_append_left _ (by simp)
    have := h.shape.apart hx hb hxb
    omega

omit hG in
/-- So is its header, which lies in mapped pages. -/
theorem HeapInv.tail_reached {n : Nat} (hal : size % 16 = 0)
    (hsplit : size + 48 ≤ headers s.mach.mem b .size) (hn : b + sizeofHeapBlock + size = n) :
    ∀ x ∈ n :: blocks (F1 ++ b :: F2) L, Reached s x := by
  intro x hx
  rcases mem_cons.mp hx with rfl | hx
  · have hb : b ∈ blocks (F1 ++ b :: F2) L := mem_append_left _ (by simp)
    obtain ⟨hlo, hhi⟩ := h.shape.bounds hb
    have hb16 := (h.shape.aligned b hb).1
    have h32 : sizeofHeapBlock = 32 := rfl
    exact ⟨by omega, fun y hy hy' => h.mapped y (by omega) (by omega)⟩
  · exact h.reached x hx

/-- What is written when the front of a free block is handed out. -/
theorem kmallocTake_split_heapAt {n : Nat}
    (hal : size % 16 = 0) (hsplit : size + 48 ≤ headers s.mach.mem b .size) (hr : r ≤ size)
    (hn : b + sizeofHeapBlock + size = n) :
    ∃ s', Returns (kmallocTake G b size) s (b + sizeofHeapBlock) s' ∧
      HeapAt s (n :: blocks (F1 ++ b :: F2) L) (n :: (F1 ++ b :: F2))
        ((((headers s.mach.mem).replace b n
          (headers s.mach.mem b .size - sizeofHeapBlock - size)).set b .size size).markUsed b)
        (if headers s.mach.mem b .prev ≠ 0 then s.heapFreeList else n) s' ∧
      HeapInv s' (F1 ++ n :: F2) (⟨b, r⟩ :: L) ∧ LiveKept s s' L := by
  have hbF : b ∈ F1 ++ b :: F2 := by simp
  have hb : b ∈ blocks (F1 ++ b :: F2) L := mem_append_left _ hbF
  obtain ⟨hblo, hbhi⟩ := h.range hb
  obtain ⟨hnext, hprev⟩ := h.links_mem
  have h32 : sizeofHeapBlock = 32 := rfl
  have hwrap : wrap64 (size + sizeofHeapBlock + heapBlockAlign) = size + 48 :=
    wrap64_of_lt (by unfold heapBlockAlign; omega)
  have hsp := h.shape.spaced_cons (h.tail_apart hsplit hn)
  have hWH : n :: (F1 ++ b :: F2) ⊆ n :: blocks (F1 ++ b :: F2) L :=
    cons_subset_cons _ (subset_append_left _ _)
  have hbnext : b ≠ headers s.mach.mem b .next := fun heq => by
    rcases h.shape.link_mem.1 with h0 | hm
    · omega
    · rw [← heq] at hm
      have := h.shape.free_nodup
      grind
  have hbW : b ∈ n :: (F1 ++ b :: F2) := mem_cons_of_mem _ hbF
  obtain ⟨r', s', hrun, hr', hat⟩ := kmallocTake_of_carve hG hsp hWH hbW
    ((getField_at hG (hWH hbW)).bind_eq (by
      rw [if_pos (hwrap.trans_le hsplit)]
      exact kmallocSplit_at hG hsp hWH (headers_lt _) hn.symm (by omega) (by omega) hbW mem_cons_self
        (by omega) hbnext (fun hne => mem_cons_of_mem _ (hprev hne))
        fun hne => mem_cons_of_mem _ (hnext hne))) s (heapAt_self (h.tail_reached hal hsplit hn) _)
  rw [hr', wrap64_of_lt (by omega)] at hrun
  refine ⟨s', hrun, hat, hat.inv h.toHeapBounds (h.shape.split hn.symm hal hsplit hr) ?_, ?_⟩
  · intro x hx
    rcases mem_cons.mp ((HeapShape.blocks_free_perm F1 F2 n _).mem_iff.mp hx) with hxn | hx
    · exact mem_cons.mpr (.inl hxn)
    · exact mem_cons_of_mem _ ((HeapShape.blocks_take_perm F1 F2 b r L).mem_iff.mpr hx)
  · refine hat.liveKept fun w hw a ha => ?_
    rcases mem_cons.mp hw with rfl | hw
    · have := h.shape.apart hb (mem_append_right _ (mem_map_of_mem ha))
        (h.shape.free_ne_live hbF ha)
      omega
    · exact h.shape.free_apart hw ha

omit hG h in
/-- The block `b` of the list is handed out for `r` bytes, or its front is. -/
def HandsOut (G : PagedMachine Flat) (s : HeapState Flat) (F : List Nat) (L : List Alloc) (b size r : Nat) : Prop :=
  ∃ s' F', Returns (kmallocTake G b size) s (b + sizeofHeapBlock) s' ∧
    HeapInv s' F' (⟨b, r⟩ :: L) ∧ LiveKept s s' L ∧ s'.heapEnd = s.heapEnd ∧
    Taken (freeExtents s F) (freeExtents s' F')

/-- Handing out the front of a free block: the tail stays on the list. -/
theorem kmallocTake_split (hal : size % 16 = 0) (hsplit : size + 48 ≤ headers s.mach.mem b .size)
    (hr : r ≤ size) : HandsOut G s (F1 ++ b :: F2) L b size r := by
  have h32 : sizeofHeapBlock = 32 := rfl
  generalize hn : b + sizeofHeapBlock + size = n
  have hfar := h.tail_apart hsplit hn
  obtain ⟨s', hrun, hat, hinv, hkept⟩ := kmallocTake_split_heapAt hG h hal hsplit hr hn
  refine ⟨s', F1 ++ n :: F2, hrun, hinv, hkept, hat.heapEnd_eq, ?_⟩
  -- the tail has the end of the block, and the other blocks are as they were
  refine taken_split rfl (by omega) (by omega) ?_ fun x hx => ?_
  · unfold extent
    rw [hat.view n mem_cons_self, size_split_tail _ _ _ (by omega), Prod.mk.injEq]
    exact ⟨rfl, by omega⟩
  · have hxF : x ∈ F1 ++ b :: F2 := by
      rcases mem_append.mp hx with hx | hx
      · exact mem_append_left _ hx
      · exact mem_append_right _ (mem_cons_of_mem _ hx)
    have hxb : x ≠ b := by
      rintro rfl
      exact (nodup_middle.mp h.shape.free_nodup |> nodup_cons.mp).1 hx
    have hxn := hfar x (mem_append_left _ hxF)
    unfold extent
    rw [hat.view x (mem_cons_of_mem _ (mem_append_left _ hxF)),
      size_split _ _ _ hxb (by omega)]

/-- Handing out a free block as a whole. -/
theorem kmallocTake_whole (hfit : size ≤ headers s.mach.mem b .size)
    (hsplit : ¬ size + 48 ≤ headers s.mach.mem b .size) (hr : r ≤ size) :
    HandsOut G s (F1 ++ b :: F2) L b size r := by
  have hbF : b ∈ F1 ++ b :: F2 := by simp
  have hb : b ∈ blocks (F1 ++ b :: F2) L := mem_append_left _ hbF
  obtain ⟨hblo, hbhi⟩ := h.range hb
  obtain ⟨hnext, hprev⟩ := h.links_mem
  have hwrap : wrap64 (size + sizeofHeapBlock + heapBlockAlign) = size + 48 :=
    wrap64_of_lt (by unfold heapBlockAlign; omega)
  have hWH : F1 ++ b :: F2 ⊆ blocks (F1 ++ b :: F2) L := subset_append_left _ _
  obtain ⟨r', s', hrun, hr', hat⟩ := kmallocTake_of_carve hG h.shape.spaced hWH hbF
    ((getField_at hG (hWH hbF)).bind_eq (by
      rw [if_neg (hwrap ▸ hsplit)]
      exact kmallocUnlink_at hG h.shape.spaced hWH (headers_lt _) hbF hprev hnext)) s
    (heapAt_self h.reached _)
  rw [hr', wrap64_of_lt (by omega)] at hrun
  refine ⟨s', F1 ++ F2, hrun, hat.inv h.toHeapBounds (h.shape.unlink (hr.trans hfit)) ?_, ?_,
    hat.heapEnd_eq, ?_⟩
  · intro x hx
    exact (HeapShape.blocks_take_perm F1 F2 b r L).mem_iff.mpr hx
  · exact hat.liveKept fun w hw a ha => h.shape.free_apart hw ha
  · have hother : ∀ x ∈ F1 ++ F2, (headers s'.mach.mem).extent x = (headers s.mach.mem).extent x := by
      intro x hx
      have hxF : x ∈ F1 ++ b :: F2 := by grind
      unfold extent
      rw [hat.view x (mem_append_left _ hxF), size_unlink]
    have hE : freeExtents s' (F1 ++ F2) = freeExtents s F1 ++ freeExtents s F2 := by
      rw [freeExtents, map_congr_left hother, map_append]
      rfl
    rw [hE, freeExtents, map_append]
    exact .whole _ _ _

theorem kmallocTake_spec (hal : size % 16 = 0) (hfit : size ≤ headers s.mach.mem b .size)
    (hr : r ≤ size) : HandsOut G s (F1 ++ b :: F2) L b size r := by
  by_cases hsplit : size + 48 ≤ headers s.mach.mem b .size
  · exact kmallocTake_split hG h hal hsplit hr
  · exact kmallocTake_whole hG h hfit hsplit hr

end

end Take

section

include hG

/-- New pages `[e, s.heapEnd)` behind a well-formed heap become its first free block. -/
theorem kmallocAddBlock_spec {e pages : Nat} (hb : HeapBounds s)
    (h : HeapShape (headers s.mach.mem) heapBase e s.heapFreeList F L)
    (hend : s.heapEnd = e + pages * 4096) (hpages : 32 ≤ pages * 4096) :
    ∃ s', Returns (kmallocAddBlock G e pages) s () s' ∧ HeapInv s' (e :: F) L ∧
      LiveKept s s' L ∧ headers s'.mach.mem e .size = pages * 4096 - 32 := by
  have hle := hb.end_le
  have hpage := hb.end_page
  unfold heapBase heapMaxSize at hle
  have hbelow : ∀ x ∈ blocks F L, x + 32 + headers s.mach.mem x .size ≤ e := fun x hx =>
    (h.bounds hx).2
  have hfar : ∀ x ∈ blocks F L, x + 32 ≤ e ∨ e + 32 ≤ x := fun x hx =>
    .inl (by have := hbelow x hx; omega)
  have hWH : e :: F ⊆ e :: blocks F L := cons_subset_cons _ (subset_append_left _ _)
  have hlo := h.lo_le
  have hreach : ∀ x ∈ e :: blocks F L, Reached s x := by
    intro x hx
    rcases mem_cons.mp hx with rfl | hx
    · exact ⟨by omega, fun y hy hy' => hb.mapped y (by omega) (by omega)⟩
    · have hbounds := h.bounds hx
      unfold sizeofHeapBlock at hbounds
      exact ⟨(h.aligned x hx).1, fun y hy hy' => hb.mapped y (by omega) (by omega)⟩
  have hhead : s.heapFreeList < 2 ^ 64 := by
    by_cases hne : s.heapFreeList = 0
    · omega
    · have := hbelow _ (mem_append_left _ (h.head_mem hne))
      omega
  have hsize : sub64 (pages * pageSize) sizeofHeapBlock = pages * 4096 - 32 :=
    sub64_of_le hpages (show pages * 4096 < 2 ^ 64 by omega)
  obtain ⟨⟨⟩, s', hrun, hat⟩ := kmallocAddBlock_at hG (h.spaced_cons hfar) hWH pages
    mem_cons_self (by omega) hhead (fun hne => mem_cons_of_mem _ (h.head_mem hne)) s
    (heapAt_self hreach _)
  rw [hsize] at hat
  refine ⟨s', hrun, ?_, hat.liveKept fun w hw a ha => ?_, ?_⟩
  · have hgrow := h.grow (pages * 4096 - 32) (by omega) (by omega)
    rw [show e + sizeofHeapBlock + (pages * 4096 - 32) = s.heapEnd by
      unfold sizeofHeapBlock; omega] at hgrow
    exact hat.inv hb hgrow (List.Subset.refl _)
  · rcases mem_cons.mp hw with rfl | hw
    · exact .inr (hbelow _ (mem_append_right _ (mem_map_of_mem ha)))
    · exact h.free_apart hw ha
  · rw [hat.view e mem_cons_self]
    simp [Headers.push, set_apply, setIf_of_field_ne]

omit hG in
/-- The extents of the list after its first two blocks have become one. -/
theorem coalesced_merge {c : Nat}
    (hc : b + sizeofHeapBlock + headers s.mach.mem b .size = c) (hb : b ∉ F) (hview : ∀ x ∈ b :: F,
      headers s'.mach.mem x .size = (headers s.mach.mem).merge b c x .size) :
    Coalesced (freeExtents s (b :: c :: F)) (freeExtents s' (b :: F)) := by
  have hother : ∀ x ∈ F, (headers s'.mach.mem).extent x = (headers s.mach.mem).extent x := by
    intro x hx
    have hxb : x ≠ b := fun heq => hb (heq ▸ hx)
    unfold extent
    rw [hview x (mem_cons_of_mem _ hx), size_merge_of_ne _ c hxb]
  have hfirst : (headers s'.mach.mem).extent b =
      (b, c + sizeofHeapBlock + headers s.mach.mem c .size) := by
    rw [← extent_merge _ hc]
    unfold extent
    rw [hview b mem_cons_self]
  have hnew : freeExtents s' (b :: F) =
      (b, c + sizeofHeapBlock + headers s.mach.mem c .size) :: freeExtents s F := by
    rw [freeExtents, map_cons, hfirst, map_congr_left hother]
    rfl
  have hold : freeExtents s (b :: c :: F) =
      (b, c) :: (c, c + sizeofHeapBlock + headers s.mach.mem c .size) :: freeExtents s F := by
    simp only [freeExtents, map_cons, extent, hc]
  rw [hnew, hold]
  exact .merge _

/-- A first block that does not end where the second one starts is left alone. -/
theorem heapCoalesce_apart (h : HeapInv s (b :: F) L)
    (hadj : ¬ ∃ c F3, F = c :: F3 ∧ b + sizeofHeapBlock + headers s.mach.mem b .size = c) :
    ∃ s', Returns (heapCoalesce G b) s b s' ∧
      HeapAt s (blocks (b :: F) L) (b :: F) (headers s.mach.mem) s.heapFreeList s' := by
  have hb : b ∈ blocks (b :: F) L := by simp [blocks]
  obtain ⟨hblo, hbhi⟩ := h.range hb
  have hWH : b :: F ⊆ blocks (b :: F) L := subset_append_left _ _
  have hprev : headers s.mach.mem b .prev = 0 := h.shape.links.1
  have hnext : headers s.mach.mem b .next = headOr id F 0 := h.shape.links.2.1
  have hwrap : wrap64 (b + sizeofHeapBlock + headers s.mach.mem b .size)
      = b + sizeofHeapBlock + headers s.mach.mem b .size := wrap64_of_lt (by omega)
  have hapart : headers s.mach.mem b .next ≠ 0 →
      wrap64 (b + sizeofHeapBlock + headers s.mach.mem b .size) ≠ headers s.mach.mem b .next := by
    intro hne heq
    cases F with
    | nil => exact hne hnext
    | cons c F3 => exact hadj ⟨c, F3, rfl, (hwrap.symm.trans heq).trans hnext⟩
  obtain ⟨r, s', hrun, hr, hat⟩ := ((heapCoalesceNext_apart_at hG hWH mem_cons_self
    hapart).seq (heapCoalescePrev_at hG hWH mem_cons_self hprev)) s (heapAt_self h.reached _)
  rw [hr] at hrun
  exact ⟨s', hrun, hat⟩

/-- Coalescing the first block of the list. -/
theorem heapCoalesce_spec (h : HeapInv s (b :: F) L) :
    ∃ s' F', Returns (heapCoalesce G b) s b s' ∧ HeapInv s' F' L ∧ LiveKept s s' L ∧
      Coalesced (freeExtents s (b :: F)) (freeExtents s' F') ∧ s'.heapEnd = s.heapEnd := by
  have h32 : sizeofHeapBlock = 32 := rfl
  have hb : b ∈ blocks (b :: F) L := by simp [blocks]
  obtain ⟨hblo, hbhi⟩ := h.range hb
  have hWH : b :: F ⊆ blocks (b :: F) L := subset_append_left _ _
  have hwrap : wrap64 (b + sizeofHeapBlock + headers s.mach.mem b .size)
      = b + sizeofHeapBlock + headers s.mach.mem b .size := wrap64_of_lt (by omega)
  by_cases hadj : ∃ c F3, F = c :: F3 ∧ b + sizeofHeapBlock + headers s.mach.mem b .size = c
  · obtain ⟨c, F3, rfl, hc⟩ := hadj
    have hcmem : c ∈ blocks (b :: c :: F3) L := by simp [blocks]
    obtain ⟨hclo, hchi⟩ := h.range hcmem
    have hnn : headers s.mach.mem c .next ≠ 0 → headers s.mach.mem c .next ∈ b :: c :: F3 :=
      (show HeapInv s ([b] ++ c :: F3) L from h).links_mem.1
    have hmerge := h.shape.merge hc
    have hmprev : (headers s.mach.mem).merge b c b .prev = 0 := hmerge.links.1
    have hnext : headers s.mach.mem b .next = c := h.shape.links.2.1
    obtain ⟨r, s', hrun, hr, hat⟩ := ((heapCoalesceNext_at hG h.shape.spaced hWH (by simp)
      (by simp) (by omega) (by omega) hnext (hwrap.trans hc) (by omega) (by omega) hnn
      (headers_lt _ _ _)).seq (heapCoalescePrev_at hG hWH (by simp) hmprev)) s (heapAt_self h.reached _)
    rw [hr] at hrun
    refine ⟨s', b :: F3, hrun, hat.inv h.toHeapBounds hmerge fun x hx => ?_,
      hat.liveKept fun w hw a ha => h.shape.free_apart hw ha, ?_, hat.heapEnd_eq⟩
    · rcases mem_append.mp hx with hx | hx
      · exact mem_append_left _ (by grind)
      · exact mem_append_right _ hx
    · have hnot : b ∉ F3 := fun hmem =>
        (nodup_cons.mp h.shape.free_nodup).1 (mem_cons_of_mem c hmem)
      exact coalesced_merge hc hnot fun x hx => hat.view x (mem_append_left _ (by grind)) .size
  · obtain ⟨s', hrun, hat⟩ := heapCoalesce_apart hG h hadj
    refine ⟨s', b :: F, hrun, hat.inv h.toHeapBounds h.shape (List.Subset.refl _),
      hat.liveKept fun w hw a ha => h.shape.free_apart hw ha, ?_, hat.heapEnd_eq⟩
    have hE : freeExtents s' (b :: F) = freeExtents s (b :: F) := by
      refine map_congr_left fun x hx => ?_
      unfold extent
      rw [hat.view x (mem_append_left _ hx)]
    rw [hE]
    refine .apart ?_
    rintro J E' hJ hend
    cases F with
    | nil => cases hJ
    | cons c F3 =>
      obtain ⟨rfl, -⟩ := List.cons.inj hJ
      exact hadj ⟨c, F3, rfl, hend⟩

/-- The search takes the first block that is large enough, if there is one. -/
theorem kmallocScan_eq (size : Nat) (hreach : ∀ b ∈ F, Reached s b)
    (hF : SSeg id (headers s.mach.mem · .next) F 0) (hne : ∀ b ∈ F, b ≠ 0)
    (hmagic : ∀ b ∈ F, headers s.mach.mem b .magic = heapMagicFree) {fuel : Nat}
    (hfuel : F.length < fuel) :
    kmallocScan G size fuel (headOr id F 0) s =
      match F.find? fun b => size ≤ headers s.mach.mem b .size with
      | none => some (none, s)
      | some b => (some <$> kmallocTake G b size) s := by
  induction F generalizing fuel with
  | nil =>
    obtain ⟨fuel, rfl⟩ := Nat.exists_eq_add_of_lt hfuel
    rfl
  | cons b F ih =>
    obtain ⟨fuel, rfl⟩ := fuel_succ hfuel
    have hnext : headers s.mach.mem b .next = headOr id F 0 := hF.1
    have hlen : F.length < fuel := by simpa using hfuel
    have hb := hreach b mem_cons_self
    have hrest := ih (fun c hc => hreach c (mem_cons_of_mem _ hc)) hF.2 (fun c hc => hne c (mem_cons_of_mem _ hc))
      (fun c hc => hmagic c (mem_cons_of_mem _ hc)) hlen
    rw [headOr_cons, id_eq, kmallocScan, if_neg (hne b mem_cons_self),
      getField_bind hG hb, hmagic b mem_cons_self,
      if_neg (by simp), getField_bind hG hb]
    by_cases hfit : size ≤ headers s.mach.mem b .size
    · rw [if_pos hfit, find?_cons_of_pos (by simpa using hfit)]
    · rw [if_neg hfit, find?_cons_of_neg (by simpa using hfit), getField_bind hG hb,
        hnext]
      exact hrest

end

end GosKernel.Mm
