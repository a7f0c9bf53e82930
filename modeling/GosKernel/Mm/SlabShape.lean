import GosKernel.Mm.Slab
import GosKernel.Lib.Linked
import Mathlib.Data.List.Perm.Subperm

/-!
# Slabs in memory

What the pages of a cache hold, and how the edits of the code change it.
-/

namespace GosKernel.Slab

open Linked List Function

/-! ## Objects -/

section Objects

variable {sz a b x y i j : Nat}

/-- The address of object `i` of the slab at `a`. -/
def objAddr (sz a i : Nat) : Nat := a + sizeofSlab + i * sz

/-- The objects of the slab at `a`. -/
def slabObjects (sz a : Nat) : List Nat := (List.range (slabCount sz)).map (objAddr sz a)

theorem mem_slabObjects : x ∈ slabObjects sz a ↔ ∃ i < slabCount sz, objAddr sz a i = x := by
  simp [slabObjects]

theorem length_slabObjects : (slabObjects sz a).length = slabCount sz := by
  simp [slabObjects]

theorem objAddr_lo : a + 48 ≤ objAddr sz a i := Nat.le_add_right _ _

theorem objAddr_apart (hij : i < j) : objAddr sz a i + sz ≤ objAddr sz a j := by
  have hmul : (i + 1) * sz ≤ j * sz := Nat.mul_le_mul_right sz hij
  rw [Nat.succ_mul] at hmul
  unfold objAddr
  omega

theorem slabCount_mul_le (sz : Nat) : slabCount sz * sz ≤ 4048 := Nat.div_mul_le_self 4048 sz

theorem slabCount_lt (sz : Nat) : slabCount sz < 2 ^ 64 :=
  lt_of_le_of_lt (Nat.div_le_self 4048 sz) (by norm_num)

theorem slabObjects_bounds (hx : x ∈ slabObjects sz a) :
    a + 48 ≤ x ∧ x + sz ≤ a + 48 + slabCount sz * sz ∧ x + sz ≤ a + 4096 := by
  obtain ⟨i, hi, rfl⟩ := mem_slabObjects.mp hx
  have hend : objAddr sz a i + sz ≤ objAddr sz a (slabCount sz) := objAddr_apart hi
  have hmul := slabCount_mul_le sz
  have hlast : objAddr sz a (slabCount sz) = a + 48 + slabCount sz * sz := rfl
  exact ⟨objAddr_lo, by omega, by omega⟩

theorem slabObjects_apart (hx : x ∈ slabObjects sz a) (hy : y ∈ slabObjects sz a) (hne : x ≠ y) :
    x + sz ≤ y ∨ y + sz ≤ x := by
  obtain ⟨i, -, rfl⟩ := mem_slabObjects.mp hx
  obtain ⟨j, -, rfl⟩ := mem_slabObjects.mp hy
  rcases Nat.lt_trichotomy i j with hij | rfl | hij
  · exact .inl (objAddr_apart hij)
  · exact absurd rfl hne
  · exact .inr (objAddr_apart hij)

theorem slabObjects_nodup (hlo : 8 ≤ sz) : (slabObjects sz a).Nodup := by
  refine List.Nodup.map_on (fun i _ j _ hij => ?_) nodup_range
  rcases Nat.lt_trichotomy i j with h | h | h
  · have hlt : objAddr sz a i + sz ≤ objAddr sz a j := objAddr_apart h
    omega
  · exact h
  · have hlt : objAddr sz a j + sz ≤ objAddr sz a i := objAddr_apart h
    omega

/-- Where a slab can be: at a page of the kernel's address space, not the last one. -/
structure PageAddr (a : Nat) : Prop where
  aligned : a % 4096 = 0
  pos : 0 < a
  lt : a + 4096 < 2 ^ 64

theorem PageAddr.apart (ha : PageAddr a) (hb : PageAddr b) (hne : a ≠ b) :
    a + 4096 ≤ b ∨ b + 4096 ≤ a := by
  have := ha.aligned
  have := hb.aligned
  omega

end Objects

/-! ## One slab -/

/-- The members of the headers found in memory. -/
def fields (m : ByteMem) (a : Nat) (f : SlabField) : Nat := m.load64 (a + f.offset)

/-- The page at `a` is a slab with the free list `c`. -/
structure SlabPage (sz : Nat) (m : ByteMem) (a : Nat) (c : List Nat) : Prop where
  memory : fields m a .memory = a + sizeofSlab
  objSize : fields m a .objSize = sz
  objCount : fields m a .objCount = slabCount sz
  used : fields m a .used + c.length = slabCount sz
  freeList : SList id m.load64 (fields m a .freeList) c 0
  nodup : c.Nodup
  objects : ∀ x ∈ c, x ∈ slabObjects sz a

section Page

variable {sz a x : Nat} {m m' : ByteMem} {c : List Nat}

theorem SlabField.offset_le (f : SlabField) : f.offset + 8 ≤ 48 := by
  cases f <;> decide

theorem fields_lt (m : ByteMem) (a : Nat) (f : SlabField) : fields m a f < 2 ^ 64 := m.load64_lt _

/-- All of a slab but its place in the lists is in its header, behind `next`, and in the
first words of its free objects. -/
theorem SlabPage.congr (h : SlabPage sz m a c) (hhead : ByteMem.Agree m' m (a + 8) 40)
    (hlinks : ∀ x ∈ c, ByteMem.Agree m' m x 8) : SlabPage sz m' a c := by
  have hfield : ∀ f : SlabField, 8 ≤ f.offset → fields m' a f = fields m a f := fun f hf =>
    ByteMem.load64_congr (hhead.mono (by omega) (by have := f.offset_le; omega))
  refine ⟨?_, ?_, ?_, ?_, ?_, h.nodup, h.objects⟩
  · rw [hfield .memory (by decide), h.memory]
  · rw [hfield .objSize (by decide), h.objSize]
  · rw [hfield .objCount (by decide), h.objCount]
  · rw [hfield .used (by decide), h.used]
  · rw [hfield .freeList (by decide)]
    exact h.freeList.congr fun x hx => ByteMem.load64_congr (hlinks x hx)

/-- The same for a memory that agrees on the page. -/
theorem SlabPage.of_agree (hlo : 8 ≤ sz) (h : SlabPage sz m a c)
    (hpage : ByteMem.Agree m' m (a + 8) 4088) : SlabPage sz m' a c := by
  refine h.congr (hpage.mono (by omega) (by omega)) fun x hx => ?_
  have hx := slabObjects_bounds (h.objects x hx)
  exact hpage.mono (by omega) (by omega)

/-- Writing one member of the header changes no other and no object. -/
theorem fields_store64 {f g : SlabField} {v : Nat} (hfg : f ≠ g) :
    fields (m.store64 (a + f.offset) v) a g = fields m a g := by
  refine ByteMem.load64_store64_of_disjoint ?_
  have : f.offset + 8 ≤ g.offset ∨ g.offset + 8 ≤ f.offset := by
    cases f <;> cases g <;> first | exact absurd rfl hfg | decide
  omega

theorem fields_store64_self {f : SlabField} {v : Nat} (hv : v < 2 ^ 64) :
    fields (m.store64 (a + f.offset) v) a f = v :=
  ByteMem.load64_store64_self hv

theorem load64_store64_object (hx : x ∈ slabObjects sz a) {f : SlabField} {v : Nat} :
    (m.store64 (a + f.offset) v).load64 x = m.load64 x := by
  refine ByteMem.load64_store64_of_disjoint ?_
  have := slabObjects_bounds hx
  have := f.offset_le
  omega

/-- The memory after `slab->free_list = *(void **)obj; slab->used++`. -/
def takeMem (m : ByteMem) (a x : Nat) : ByteMem :=
  (m.store64 (a + SlabField.freeList.offset) (m.load64 x)).store64 (a + SlabField.used.offset)
    (wrap64 (fields m a .used + 1))

theorem SlabPage.take (h : SlabPage sz m a (x :: c)) : SlabPage sz (takeMem m a x) a c := by
  obtain ⟨-, hnd⟩ := nodup_cons.mp h.nodup
  have hused := h.used
  have hcount := slabCount_lt sz
  rw [length_cons] at hused
  have hadd : wrap64 (fields m a .used + 1) = fields m a .used + 1 := wrap64_of_lt (by omega)
  refine ⟨?_, ?_, ?_, ?_, ?_, hnd, fun y hy => h.objects y (mem_cons_of_mem _ hy)⟩
  · rw [takeMem, fields_store64 (by decide), fields_store64 (by decide), h.memory]
  · rw [takeMem, fields_store64 (by decide), fields_store64 (by decide), h.objSize]
  · rw [takeMem, fields_store64 (by decide), fields_store64 (by decide), h.objCount]
  · rw [takeMem, fields_store64_self (wrap64_lt _)]
    omega
  · rw [takeMem, fields_store64 (by decide), fields_store64_self (m.load64_lt x)]
    refine h.freeList.pop.congr fun y hy => ?_
    have hy := h.objects y (mem_cons_of_mem _ hy)
    rw [load64_store64_object hy, load64_store64_object hy]

/-- The memory after `*(void **)obj = slab->free_list; slab->free_list = obj; slab->used--`. -/
def putMem (m : ByteMem) (a x : Nat) : ByteMem :=
  ((m.store64 x (fields m a .freeList)).store64 (a + SlabField.freeList.offset) x).store64
    (a + SlabField.used.offset) (sub64 (fields m a .used) 1)

theorem SlabPage.put (hlo : 8 ≤ sz) (h : SlabPage sz m a c) (hx : x ∈ slabObjects sz a)
    (hxc : x ∉ c) (hlt : x < 2 ^ 64) (hroom : c.length < slabCount sz) :
    SlabPage sz (putMem m a x) a (x :: c) := by
  have hbounds := slabObjects_bounds hx
  have hobj : ∀ g, fields (m.store64 x (fields m a .freeList)) a g = fields m a g := fun g =>
    ByteMem.load64_store64_of_disjoint (by have := g.offset_le; omega)
  have hused := h.used
  have hsub : sub64 (fields m a .used) 1 = fields m a .used - 1 :=
    sub64_of_le (by omega) (fields_lt m a .used)
  have hkeep : ∀ g, g ≠ .freeList → g ≠ .used → fields (putMem m a x) a g = fields m a g :=
    fun g h1 h2 => by rw [putMem, fields_store64 h2.symm, fields_store64 h1.symm, hobj]
  -- the used count is that of the old memory: the stores before it do not reach it
  refine ⟨?_, ?_, ?_, ?_, ?_, nodup_cons.mpr ⟨hxc, h.nodup⟩, ?_⟩
  · rw [hkeep _ (by decide) (by decide), h.memory]
  · rw [hkeep _ (by decide) (by decide), h.objSize]
  · rw [hkeep _ (by decide) (by decide), h.objCount]
  · rw [putMem, fields_store64_self (by have := fields_lt m a .used; omega),
      length_cons]
    omega
  · rw [putMem, fields_store64 (by decide), fields_store64_self hlt]
    refine h.freeList.push ?_ fun y hy => ?_
    · rw [load64_store64_object hx, load64_store64_object hx]
      exact ByteMem.load64_store64_self (fields_lt m a .freeList)
    · have hy' := h.objects y hy
      rw [load64_store64_object hy', load64_store64_object hy']
      refine ByteMem.load64_store64_of_disjoint ?_
      have := slabObjects_apart hx hy' fun hxy => hxc (hxy ▸ hy)
      omega
  · intro y hy
    rcases mem_cons.mp hy with rfl | hy
    · exact hx
    · exact h.objects y hy

end Page

/-! ## The cache -/

/-- The three lists of a cache, and the free list of each slab. -/
structure SlabLists where
  slabsFull : List Nat
  slabsPartial : List Nat
  slabsFree : List Nat
  chain : Nat → List Nat

/-- The slabs of all lists. -/
def SlabLists.slabs (V : SlabLists) : List Nat := V.slabsFull ++ (V.slabsPartial ++ V.slabsFree)

/-- The same lists, with the free list of one slab replaced. -/
def SlabLists.setChain (V : SlabLists) (a : Nat) (c : List Nat) : SlabLists :=
  { V with chain := Function.update V.chain a c }

@[simp] theorem SlabLists.setChain_self (V : SlabLists) (a : Nat) (c : List Nat) :
    (V.setChain a c).chain a = c := update_self ..

theorem SlabLists.setChain_of_ne (V : SlabLists) {a b : Nat} (c : List Nat) (h : b ≠ a) :
    (V.setChain a c).chain b = V.chain b := update_of_ne h ..

/-- In a cache with the members `C`, the memory `m` holds the slabs `pages`, on the lists
`V`, and the objects that were handed out are `live`. -/
structure Layout (sz : Nat) (pages live : List Nat) (V : SlabLists) (C : SlabCache)
    (m : ByteMem) : Prop where
  objSize : C.objSize = sz
  pageAddr : ∀ a ∈ pages, PageAddr a
  /-- Every slab is on exactly one list. -/
  perm : V.slabs.Perm pages
  nodup : pages.Nodup
  slabsFull : SList id (fields m · .next) C.slabsFull V.slabsFull 0
  slabsPartial : SList id (fields m · .next) C.slabsPartial V.slabsPartial 0
  slabsFree : SList id (fields m · .next) C.slabsFree V.slabsFree 0
  page : ∀ a ∈ pages, SlabPage sz m a (V.chain a)
  liveNodup : live.Nodup
  /-- An object is live when it is in no free list. -/
  live_iff : ∀ x, x ∈ live ↔ ∃ a ∈ pages, x ∈ slabObjects sz a ∧ x ∉ V.chain a

/-- The bytes of the allocator: all of its pages but the live objects. -/
def Owned (sz : Nat) (pages live : List Nat) (y : Nat) : Prop :=
  (∃ a ∈ pages, a ≤ y ∧ y < a + 4096) ∧ ∀ x ∈ live, y < x ∨ x + sz ≤ y

namespace Layout

section

variable {sz a b x v : Nat} {pages live live' c l l1 l2 : List Nat} {V V' : SlabLists}
  {C C' : SlabCache} {m m' : ByteMem}

section

variable (h : Layout sz pages live V C m)
include h

theorem mem_slabs : a ∈ V.slabs ↔ a ∈ pages := h.perm.mem_iff

theorem slabs_nodup : V.slabs.Nodup := h.perm.nodup_iff.mpr h.nodup

theorem full_mem (ha : a ∈ V.slabsFull) : a ∈ pages :=
  h.mem_slabs.mp (mem_append_left _ ha)

theorem partial_mem (ha : a ∈ V.slabsPartial) : a ∈ pages :=
  h.mem_slabs.mp (mem_append_right _ (mem_append_left _ ha))

theorem free_mem (ha : a ∈ V.slabsFree) : a ∈ pages :=
  h.mem_slabs.mp (mem_append_right _ (mem_append_right _ ha))

theorem apart (ha : a ∈ pages) (hb : b ∈ pages) (hne : a ≠ b) : a + 4096 ≤ b ∨ b + 4096 ≤ a :=
  (h.pageAddr a ha).apart (h.pageAddr b hb) hne

theorem slab_unique (ha : a ∈ pages) (hb : b ∈ pages)
    (hxa : x ∈ slabObjects sz a) (hxb : x ∈ slabObjects sz b) (hlo : 8 ≤ sz) : a = b := by
  by_contra hne
  have := h.apart ha hb hne
  have := slabObjects_bounds hxa
  have := slabObjects_bounds hxb
  omega

/-- Of the objects of a slab, those that are not free are live. -/
theorem live_iff_of_mem (hsz : 8 ≤ sz) (ha : a ∈ pages)
    (hx : x ∈ slabObjects sz a) : x ∈ live ↔ x ∉ V.chain a := by
  rw [h.live_iff]
  constructor
  · rintro ⟨b, hb, hxb, hxc⟩
    obtain rfl := h.slab_unique ha hb hx hxb hsz
    exact hxc
  · exact fun hxc => ⟨a, ha, hx, hxc⟩

theorem head_lt {nx : Nat → Nat} {head : Nat}
    (hl : SList id nx head l 0) (hmem : ∀ a ∈ l, a ∈ pages) : head < 2 ^ 64 := by
  rw [hl.1]
  cases l with
  | nil => exact Nat.two_pow_pos 64
  | cons a l =>
    have := (h.pageAddr a (hmem a mem_cons_self)).lt
    show a < 2 ^ 64
    omega

/-! ### What the allocator owns -/

theorem owned_header (ha : a ∈ pages) {y : Nat} (hlo : a ≤ y)
    (hhi : y < a + 48) : Owned sz pages live y := by
  refine ⟨⟨a, ha, hlo, by omega⟩, fun x hx => ?_⟩
  obtain ⟨b, hb, hxb, -⟩ := (h.live_iff x).mp hx
  have hbounds := slabObjects_bounds hxb
  by_cases hab : a = b
  · subst hab
    omega
  · have := h.apart ha hb hab
    omega

theorem owned_chain (hsz : 8 ≤ sz) (ha : a ∈ pages)
    (hx : x ∈ V.chain a) {y : Nat} (hlo : x ≤ y) (hhi : y < x + 8) : Owned sz pages live y := by
  have hxa := (h.page a ha).objects x hx
  have hbounds := slabObjects_bounds hxa
  refine ⟨⟨a, ha, by omega, by omega⟩, fun z hz => ?_⟩
  obtain ⟨b, hb, hzb, hzc⟩ := (h.live_iff z).mp hz
  by_cases hab : a = b
  · subst hab
    have := slabObjects_apart hxa hzb fun hxz => hzc (hxz ▸ hx)
    omega
  · have := h.apart ha hb hab
    have := slabObjects_bounds hzb
    omega

/-- **Frame.** Whoever leaves the bytes of the allocator alone leaves the layout alone. -/
theorem of_agree (hsz : 8 ≤ sz)
    (hown : ∀ y, Owned sz pages live y → m' y = m y) : Layout sz pages live V C m' := by
  have hheader : ∀ a ∈ pages, ByteMem.Agree m' m a 48 := fun a ha y hlo hhi =>
    hown y (h.owned_header ha hlo hhi)
  have hnext : ∀ a ∈ pages, fields m' a .next = fields m a .next := fun a ha =>
    ByteMem.load64_congr ((hheader a ha).mono (Nat.le_refl a) (by show a + 8 ≤ a + 48; omega))
  refine
    { h with
      slabsFull := h.slabsFull.congr fun a ha => hnext a (h.full_mem ha)
      slabsPartial := h.slabsPartial.congr fun a ha => hnext a (h.partial_mem ha)
      slabsFree := h.slabsFree.congr fun a ha => hnext a (h.free_mem ha)
      page := fun a ha => ?_ }
  refine (h.page a ha).congr ((hheader a ha).mono (by omega) (by omega)) fun x hx => ?_
  exact fun y hlo hhi => hown y (h.owned_chain hsz ha hx hlo hhi)

/-! ### Edits inside a page -/

/-- Edit one slab behind its `next`: everything else stays. -/
theorem editPage (hsz : 8 ≤ sz) (ha : a ∈ pages)
    (hout : ∀ y, y < a + 8 ∨ a + 4096 ≤ y → m' y = m y) (hpage : SlabPage sz m' a c)
    (hnd : live'.Nodup) (hin : ∀ x ∈ slabObjects sz a, (x ∈ live' ↔ x ∉ c))
    (hother : ∀ x, x ∉ slabObjects sz a → (x ∈ live' ↔ x ∈ live)) :
    Layout sz pages live' (V.setChain a c) C m' := by
  have hnext : ∀ b ∈ pages, fields m' b .next = fields m b .next := by
    intro b hb
    refine ByteMem.load64_congr fun y hlo hhi => hout y ?_
    have hhi : y < b + 8 := hhi
    by_cases hab : a = b
    · omega
    · have := h.apart ha hb hab
      omega
  refine
    { h with
      slabsFull := h.slabsFull.congr fun b hb => hnext b (h.full_mem hb)
      slabsPartial := h.slabsPartial.congr fun b hb => hnext b (h.partial_mem hb)
      slabsFree := h.slabsFree.congr fun b hb => hnext b (h.free_mem hb)
      page := fun b hb => ?_
      liveNodup := hnd
      live_iff := fun x => ?_ }
  · by_cases hba : b = a
    · subst hba
      rwa [SlabLists.setChain_self]
    · rw [V.setChain_of_ne c hba]
      refine (h.page b hb).of_agree hsz fun y hlo hhi => hout y ?_
      have := h.apart ha hb (Ne.symm hba)
      omega
  · by_cases hxa : x ∈ slabObjects sz a
    · rw [hin x hxa]
      constructor
      · intro hxc
        refine ⟨a, ha, hxa, ?_⟩
        rwa [SlabLists.setChain_self]
      · rintro ⟨b, hb, hxb, hxc⟩
        obtain rfl := h.slab_unique ha hb hxa hxb hsz
        rwa [SlabLists.setChain_self] at hxc
    · rw [hother x hxa, h.live_iff]
      -- the slab of `x` is another one, whose free list stays
      have hne : ∀ b, x ∈ slabObjects sz b → b ≠ a := fun b hxb hba => hxa (hba ▸ hxb)
      constructor
      · rintro ⟨b, hb, hxb, hxc⟩
        refine ⟨b, hb, hxb, ?_⟩
        rwa [V.setChain_of_ne c (hne b hxb)]
      · rintro ⟨b, hb, hxb, hxc⟩
        rw [V.setChain_of_ne c (hne b hxb)] at hxc
        exact ⟨b, hb, hxb, hxc⟩

omit h in
theorem takeMem_outside (m : ByteMem) (a x : Nat) {y : Nat} (hy : y < a + 8 ∨ a + 4096 ≤ y) :
    takeMem m a x y = m y := by
  have hfree : SlabField.freeList.offset = 8 := rfl
  have hused : SlabField.used.offset = 40 := rfl
  rw [takeMem, ByteMem.store64_outside (by omega), ByteMem.store64_outside (by omega)]

omit h in
theorem putMem_outside (hx : x ∈ slabObjects sz a) (hsz : 8 ≤ sz) {y : Nat}
    (hy : y < a + 8 ∨ a + 4096 ≤ y) : putMem m a x y = m y := by
  have hbounds := slabObjects_bounds hx
  have hfree : SlabField.freeList.offset = 8 := rfl
  have hused : SlabField.used.offset = 40 := rfl
  rw [putMem, ByteMem.store64_outside (by omega), ByteMem.store64_outside (by omega),
    ByteMem.store64_outside (by omega)]

theorem take (hsz : 8 ≤ sz) (ha : a ∈ pages) (hc : V.chain a = x :: c) :
    x ∉ live ∧ Layout sz pages (x :: live) (V.setChain a c) C
      (takeMem m a x) := by
  have hpage := h.page a ha
  rw [hc] at hpage
  have hxa := hpage.objects x mem_cons_self
  have hxc := (nodup_cons.mp hpage.nodup).1
  have hiff : ∀ y ∈ slabObjects sz a, (y ∈ live ↔ y ∉ x :: c) := fun y hya =>
    hc ▸ h.live_iff_of_mem hsz ha hya
  have hx : x ∉ live := fun hx => (hiff x hxa).mp hx mem_cons_self
  refine ⟨hx, h.editPage hsz ha (fun y hy => takeMem_outside m a x hy) hpage.take
    (nodup_cons.mpr ⟨hx, h.liveNodup⟩) (fun y hya => ?_) fun y hya => ?_⟩
  · rw [mem_cons, hiff y hya]
    by_cases hyx : y = x
    · subst hyx
      simp [hxc]
    · simp [hyx]
  · have hyx : y ≠ x := fun hyx => hya (hyx ▸ hxa)
    simp [hyx]

theorem put (hsz : 8 ≤ sz) (ha : a ∈ pages) (hx : x ∈ live) (hxa : x ∈ slabObjects sz a) :
    x ∉ V.chain a ∧ (V.chain a).length < slabCount sz ∧
      Layout sz pages (live.erase x)
        (V.setChain a (x :: V.chain a)) C (putMem m a x) := by
  have hpage := h.page a ha
  have hxc := (h.live_iff_of_mem hsz ha hxa).mp hx
  -- the free list and `x` are different objects of the slab, so `x` leaves room
  have hroom : (x :: V.chain a).length ≤ (slabObjects sz a).length := by
    have hnd : (x :: V.chain a).Nodup := nodup_cons.mpr ⟨hxc, hpage.nodup⟩
    refine (subperm_of_subset hnd fun y hy => ?_).length_le
    rcases mem_cons.mp hy with rfl | hy
    · exact hxa
    · exact hpage.objects y hy
  rw [length_slabObjects] at hroom
  have hlt : x < 2 ^ 64 := by
    have := (h.pageAddr a ha).lt
    have := slabObjects_bounds hxa
    omega
  refine ⟨hxc, hroom, h.editPage hsz ha (fun y hy => putMem_outside hxa hsz hy)
    (hpage.put hsz hxa hxc hlt hroom) (h.liveNodup.erase x) (fun y hya => ?_) fun y hya => ?_⟩
  · rw [h.liveNodup.mem_erase_iff, h.live_iff_of_mem hsz ha hya, mem_cons, not_or]
  · have hyx : y ≠ x := fun hyx => hya (hyx ▸ hxa)
    rw [h.liveNodup.mem_erase_iff]
    exact and_iff_right hyx

/-! ### A new page -/

/-- A new slab, with all of its objects free, becomes the list of free slabs. -/
theorem addPage (hsz : 8 ≤ sz) (ha : PageAddr a)
    (hnew : a ∉ pages) (hfree : V.slabsFree = []) (hout : ∀ y, y < a ∨ a + 4096 ≤ y → m' y = m y)
    (hpage : SlabPage sz m' a (slabObjects sz a)) (hnext : fields m' a .next = 0) :
    Layout sz (a :: pages) live
      { V.setChain a (slabObjects sz a) with slabsFree := [a] }
      { C with slabsFree := a } m' := by
  have hne : ∀ b ∈ pages, b ≠ a := fun b hb hba => hnew (hba ▸ hb)
  have hagree : ∀ b ∈ pages, ByteMem.Agree m' m b 4096 := by
    intro b hb y hlo hhi
    have := (h.pageAddr b hb).apart ha (hne b hb)
    exact hout y (by omega)
  have hkeep : ∀ b ∈ pages, fields m' b .next = fields m b .next := fun b hb =>
    ByteMem.load64_congr ((hagree b hb).mono (Nat.le_refl b) (by show b + 8 ≤ b + 4096; omega))
  refine ⟨h.objSize, ?_, ?_, nodup_cons.mpr ⟨hnew, h.nodup⟩,
    h.slabsFull.congr fun b hb => hkeep b (h.full_mem hb),
    h.slabsPartial.congr fun b hb => hkeep b (h.partial_mem hb), ⟨rfl, hnext, trivial⟩, ?_,
    h.liveNodup, fun x => ?_⟩
  · intro b hb
    rcases mem_cons.mp hb with rfl | hb
    · exact ha
    · exact h.pageAddr b hb
  · have hperm := h.perm
    rw [SlabLists.slabs, hfree, append_nil] at hperm
    show (V.slabsFull ++ (V.slabsPartial ++ [a])).Perm (a :: pages)
    rw [← append_assoc]
    exact (perm_append_singleton a _).trans (hperm.cons a)
  · intro b hb
    rcases mem_cons.mp hb with rfl | hb
    · show SlabPage sz m' b ((V.setChain b _).chain b)
      rwa [SlabLists.setChain_self]
    · show SlabPage sz m' b ((V.setChain a _).chain b)
      rw [V.setChain_of_ne _ (hne b hb)]
      exact (h.page b hb).of_agree hsz ((hagree b hb).mono (by omega) (by omega))
  · rw [h.live_iff]
    constructor
    · rintro ⟨b, hb, hxb, hxc⟩
      refine ⟨b, mem_cons_of_mem _ hb, hxb, ?_⟩
      rwa [V.setChain_of_ne _ (hne b hb)]
    · rintro ⟨b, hb, hxb, hxc⟩
      rcases mem_cons.mp hb with rfl | hb
      · rw [SlabLists.setChain_self] at hxc
        exact absurd hxb hxc
      · rw [V.setChain_of_ne _ (hne b hb)] at hxc
        exact ⟨b, hb, hxb, hxc⟩

/-! ### Edits of the lists -/

/-- Edits of the lists touch no slab behind its `next`. -/
theorem relist (hsz : 8 ≤ sz) (hsize : C'.objSize = C.objSize)
    (hperm : V'.slabs.Perm V.slabs) (hchain : V'.chain = V.chain)
    (hagree : ∀ a ∈ pages, ByteMem.Agree m' m (a + 8) 4088)
    (hfull : SList id (fields m' · .next) C'.slabsFull V'.slabsFull 0)
    (hpart : SList id (fields m' · .next) C'.slabsPartial V'.slabsPartial 0)
    (hfree : SList id (fields m' · .next) C'.slabsFree V'.slabsFree 0) :
    Layout sz pages live V' C' m' where
  objSize := hsize.trans h.objSize
  pageAddr := h.pageAddr
  perm := hperm.trans h.perm
  nodup := h.nodup
  slabsFull := hfull
  slabsPartial := hpart
  slabsFree := hfree
  page := fun a ha => hchain ▸ (h.page a ha).of_agree hsz (hagree a ha)
  liveNodup := h.liveNodup
  live_iff := fun x => hchain ▸ h.live_iff x

end

section SetNext

variable (h : Layout sz pages live V C m) (ha : a ∈ pages) (m1 : ByteMem)
include h ha

/-- `slab->next = v` changes no slab behind its `next`. -/
theorem agree_setNext (hb : b ∈ pages) :
    ByteMem.Agree (m1.store64 (a + SlabField.next.offset) v) m1 (b + 8) 4088 := by
  refine ByteMem.agree_store64 ?_
  show a + 8 ≤ b + 8 ∨ b + 8 + 4088 ≤ a
  by_cases hab : a = b
  · omega
  · have := h.apart ha hb hab
    omega

theorem next_setNext (hb : b ∈ pages) (hab : b ≠ a) :
    fields (m1.store64 (a + SlabField.next.offset) v) b .next = fields m1 b .next := by
  refine ByteMem.load64_store64_of_disjoint ?_
  have := h.apart ha hb hab.symm
  omega

theorem setNext_frame {head : Nat} (hl : SList id (fields m1 · .next) head l 0)
    (hmem : ∀ b ∈ l, b ∈ pages) (hal : a ∉ l) :
    SList id (fields (m1.store64 (a + SlabField.next.offset) v) · .next) head l 0 :=
  hl.congr fun b hb => h.next_setNext ha m1 (hmem b hb) fun hba => hal (hba ▸ hb)

/-- The slab comes in front of the list whose head it is given. -/
theorem setNext_push {head : Nat} (hl : SList id (fields m1 · .next) head l 0)
    (hmem : ∀ b ∈ l, b ∈ pages) (hal : a ∉ l) :
    SList id (fields (m1.store64 (a + SlabField.next.offset) head) · .next) a (a :: l) 0 :=
  hl.push (fields_store64_self (h.head_lt hl hmem)) fun b hb =>
    h.next_setNext ha m1 (hmem b hb) fun hba => hal (hba ▸ hb)

end SetNext

theorem not_mem_of_perm (h : Layout sz pages live V C m)
    (hl : V.slabs.Perm (a :: (l ++ (l1 ++ l2)))) : a ∉ l ∧ a ∉ l1 ∧ a ∉ l2 := by
  have ha : a ∉ l ++ (l1 ++ l2) := (nodup_cons.mp (hl.nodup_iff.mp h.slabs_nodup)).1
  obtain ⟨hl, hrest⟩ := not_or.mp (mt mem_append.mpr ha)
  exact ⟨hl, not_or.mp (mt mem_append.mpr hrest)⟩

theorem freeToPartial (h : Layout sz pages live V C m) (hsz : 8 ≤ sz) (hV : V.slabsFree = a :: l) :
    Layout sz pages live { V with slabsFree := l, slabsPartial := a :: V.slabsPartial }
      { C with slabsFree := fields m a .next, slabsPartial := a }
      (m.store64 (a + SlabField.next.offset) C.slabsPartial) := by
  have ha : a ∈ pages := h.free_mem (hV ▸ mem_cons_self)
  have hfree := h.slabsFree
  rw [hV] at hfree
  have hperm : V.slabs.Perm (a :: (V.slabsFull ++ (V.slabsPartial ++ l))) := by
    rw [SlabLists.slabs, hV]
    exact (perm_middle.append_left _).trans perm_middle
  obtain ⟨hafull, hapart, hafree⟩ := h.not_mem_of_perm hperm
  refine h.relist hsz rfl (perm_middle.trans hperm.symm) rfl
    (fun b hb => h.agree_setNext ha m hb) ?_ ?_ ?_
  · exact h.setNext_frame ha m h.slabsFull (fun b hb => h.full_mem hb) hafull
  · exact h.setNext_push ha m h.slabsPartial (fun b hb => h.partial_mem hb) hapart
  · exact h.setNext_frame ha m hfree.pop
      (fun b hb => h.free_mem (hV ▸ mem_cons_of_mem _ hb)) hafree

theorem partialToFull (h : Layout sz pages live V C m) (hsz : 8 ≤ sz)
    (hV : V.slabsPartial = a :: l) :
    Layout sz pages live { V with slabsPartial := l, slabsFull := a :: V.slabsFull }
      { C with slabsPartial := fields m a .next, slabsFull := a }
      (m.store64 (a + SlabField.next.offset) C.slabsFull) := by
  have ha : a ∈ pages := h.partial_mem (hV ▸ mem_cons_self)
  have hpart := h.slabsPartial
  rw [hV] at hpart
  have hperm : V.slabs.Perm (a :: (V.slabsFull ++ (l ++ V.slabsFree))) := by
    rw [SlabLists.slabs, hV]
    exact perm_middle
  obtain ⟨hafull, hapart, hafree⟩ := h.not_mem_of_perm hperm
  refine h.relist hsz rfl hperm.symm rfl (fun b hb => h.agree_setNext ha m hb) ?_ ?_ ?_
  · exact h.setNext_push ha m h.slabsFull (fun b hb => h.full_mem hb) hafull
  · exact h.setNext_frame ha m hpart.pop
      (fun b hb => h.partial_mem (hV ▸ mem_cons_of_mem _ hb)) hapart
  · exact h.setNext_frame ha m h.slabsFree (fun b hb => h.free_mem hb) hafree

/-- The members and the memory after `if (prev) prev->next = v; else cache->slabs_full = v`. -/
def unlinked (C : SlabCache) (m : ByteMem) (prev v : Nat) : SlabCache × ByteMem :=
  if prev ≠ 0 then (C, m.store64 (prev + SlabField.next.offset) v)
  else ({ C with slabsFull := v }, m)

theorem unlinked_cons {p : Nat} (hp : p ≠ 0) :
    unlinked C m p v = (C, m.store64 (p + SlabField.next.offset) v) := if_pos hp

/-- Unlinking a full slab leaves it on no list. -/
theorem unlink (h : Layout sz pages live V C m) (hV : V.slabsFull = l1 ++ a :: l2)
    (hr : unlinked C m (lastOr id 0 l1) (fields m a .next) = (C', m')) :
    C' = { C with slabsFull := C'.slabsFull } ∧
      (∀ b ∈ pages, ByteMem.Agree m' m (b + 8) 4088) ∧
      SList id (fields m' · .next) C'.slabsFull (l1 ++ l2) 0 ∧
      SList id (fields m' · .next) C.slabsPartial V.slabsPartial 0 ∧
      SList id (fields m' · .next) C.slabsFree V.slabsFree 0 := by
  have hfull := h.slabsFull
  have hnd := h.slabs_nodup
  rw [hV] at hfull
  rw [SlabLists.slabs, hV] at hnd
  obtain ⟨hndfull, -, hdis⟩ := nodup_append.mp hnd
  have hmem : ∀ b ∈ l1 ++ a :: l2, b ∈ pages := fun b hb => h.full_mem (hV ▸ hb)
  cases l1 with
  | nil =>
    cases hr
    exact ⟨rfl, fun b _ => ByteMem.Agree.refl _ _ _, hfull.pop, h.slabsPartial, h.slabsFree⟩
  | cons b l1 =>
    -- the predecessor is the last slab of `b :: l1`, which is on the full list only
    set p := lastOr id 0 (b :: l1) with hp
    have hpl : p ∈ b :: l1 := by
      rcases @lastOr_eq_or _ _ id b l1 with hpb | ⟨d, hd, hpd⟩
      · exact hp.trans hpb ▸ mem_cons_self
      · exact hp.trans hpd ▸ mem_cons_of_mem _ hd
    have hpfull : p ∈ b :: l1 ++ a :: l2 := mem_append_left _ hpl
    have hpp := hmem p hpfull
    have hp0 : p ≠ 0 := (h.pageAddr p hpp).pos.ne'
    have hlt : fields m a .next < 2 ^ 64 := fields_lt m a .next
    rw [unlinked_cons hp0] at hr
    cases hr
    refine ⟨rfl, fun d hd => h.agree_setNext hpp m hd, ?_, ?_, ?_⟩
    · refine hfull.remove (p := 0) injective_id hndfull (fun d hd => ?_) fun d hd => ?_
      · exact (h.pageAddr d (hmem d (mem_append_right _ (mem_cons_of_mem _ hd)))).pos.ne'
      · have hdp : d ∈ pages := by
          rcases mem_append.mp hd with hd | hd
          · exact hmem d (mem_append_left _ hd)
          · exact hmem d (mem_append_right _ (mem_cons_of_mem _ hd))
        show _ = if d = p then fields m a .next else fields m d .next
        by_cases hdp' : d = p
        · rw [if_pos hdp', hdp']
          exact fields_store64_self hlt
        · rw [if_neg hdp']
          exact h.next_setNext hpp m hdp hdp'
    · refine h.setNext_frame hpp m h.slabsPartial (fun d hd => h.partial_mem hd) fun hpd => ?_
      exact hdis p hpfull p (mem_append_left _ hpd) rfl
    · refine h.setNext_frame hpp m h.slabsFree (fun d hd => h.free_mem hd) fun hpd => ?_
      exact hdis p hpfull p (mem_append_right _ hpd) rfl

/-- Moving a full slab, wherever it is on its list, to the partial ones. -/
theorem fullToPartial (h : Layout sz pages live V C m) (hsz : 8 ≤ sz)
    (hV : V.slabsFull = l1 ++ a :: l2)
    (hr : unlinked C m (lastOr id 0 l1) (fields m a .next) = (C', m')) :
    Layout sz pages live { V with slabsFull := l1 ++ l2, slabsPartial := a :: V.slabsPartial }
      { C' with slabsPartial := a } (m'.store64 (a + SlabField.next.offset) C.slabsPartial) := by
  have ha : a ∈ pages := h.full_mem (hV ▸ mem_append_right _ mem_cons_self)
  obtain ⟨hC, hagree, hfull, hpart, hfree⟩ := h.unlink hV hr
  have hperm : V.slabs.Perm (a :: (l1 ++ l2 ++ (V.slabsPartial ++ V.slabsFree))) := by
    rw [SlabLists.slabs, hV]
    exact perm_middle.append_right _
  obtain ⟨hafull, hapart, hafree⟩ := h.not_mem_of_perm hperm
  refine h.relist hsz (hC ▸ rfl) (perm_middle.trans hperm.symm) rfl
    (fun b hb => (h.agree_setNext ha m' hb).trans (hagree b hb)) ?_ ?_ ?_
  · refine h.setNext_frame ha m' hfull (fun b hb => h.full_mem (hV ▸ ?_)) hafull
    rcases mem_append.mp hb with hb | hb
    · exact mem_append_left _ hb
    · exact mem_append_right _ (mem_cons_of_mem _ hb)
  · exact h.setNext_push ha m' hpart (fun b hb => h.partial_mem hb) hapart
  · rw [hC]
    exact h.setNext_frame ha m' hfree (fun b hb => h.free_mem hb) hafree

end

end Layout

end GosKernel.Slab
