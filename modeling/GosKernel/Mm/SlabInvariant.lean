import GosKernel.Lib.Run
import GosKernel.Mm.Pmm
import GosKernel.Mm.SlabShape

/-!
# The invariant of a slab cache

The functions of `slab.c` on private memory, and what holds in every state that calls
of them reach.

- `slabCreate_spec`, `slabPick_spec`, `slabTake_spec`, `slabOwner_spec`, `slabPut_start`: what
  each part of the code does to the layout;
- **`slab_cache_invariant`**: every state of every run.
-/

namespace GosKernel.Slab

open Linked Exec List

/-! ## The code on private memory -/

/-- Private memory. -/
abbrev flat : Machine Flat := Flat.machine.toMachine

/-- The state with other members of the cache and another memory. -/
def SlabState.store (s : SlabState Flat) (C : SlabCache) (m : ByteMem) : SlabState Flat :=
  ⟨C, { s.mach with mem := m }⟩

section Create

variable {sz a : Nat}

section

variable {α : Type} (s : SlabState Flat) (a x v : Nat) (f : SlabField)

theorem getField_bind (g : Nat → Exec (SlabState Flat) α) :
    (getField flat a f >>= g) s = g (fields s.mach.mem a f) s := rfl

theorem setField_bind (g : Unit → Exec (SlabState Flat) α) : (setField flat a f v >>= g) s =
    g () (s.store s.cache (s.mach.mem.store64 (a + f.offset) v)) := rfl

theorem storeWord_bind (g : Unit → Exec (SlabState Flat) α) :
    (onMach (flat.store64 x v) >>= g) s = g () (s.store s.cache (s.mach.mem.store64 x v)) := rfl

end

/-- The objects from number `i` on. -/
def objectsFrom (sz a i n : Nat) : List Nat := (List.range' i n).map (objAddr sz a)

theorem objectsFrom_succ (sz a i n : Nat) :
    objectsFrom sz a i (n + 1) = objAddr sz a i :: objectsFrom sz a (i + 1) n := rfl

theorem objectsFrom_zero (sz a : Nat) : objectsFrom sz a 0 (slabCount sz) = slabObjects sz a := by
  rw [objectsFrom, slabObjects, range_eq_range']

/-- The loop chains the objects from number `i` on behind the word at `current`. -/
theorem slabBuild_spec (hsz : 8 ≤ sz) (ha : PageAddr a) {n i current : Nat} {s : SlabState Flat}
    (hin : i + n = slabCount sz) (hmemory : fields s.mach.mem a .memory = a + 48)
    (hlo : current = a + 8 ∨ a + 48 ≤ current) (hhi : current + 8 ≤ objAddr sz a i) :
    ∃ m', Returns (slabBuild flat a sz n i current) s () (s.store s.cache m') ∧
      SList id m'.load64 (m'.load64 current) (objectsFrom sz a i n) 0 ∧
      ∀ y, y < current ∨ current + 8 ≤ y → y < objAddr sz a i ∨ a + 4096 ≤ y →
        m' y = s.mach.mem y := by
  induction n generalizing i current s with
  | zero =>
    refine ⟨s.mach.mem.store64 current 0, rfl, ⟨?_, trivial⟩, fun y hy _ => ?_⟩
    · exact ByteMem.load64_store64_self (Nat.two_pow_pos 64)
    · exact ByteMem.store64_outside (by omega)
  | succ n ih =>
    have hend : objAddr sz a i + sz ≤ a + 4096 :=
      (slabObjects_bounds (mem_slabObjects.mpr ⟨i, by omega, rfl⟩)).2.2
    have hpage := ha.lt
    have hstep : objAddr sz a i + sz ≤ objAddr sz a (i + 1) := objAddr_apart (Nat.lt_succ_self i)
    have hlow : a + 48 ≤ objAddr sz a i := objAddr_lo
    have hword : wrap64 (a + 48 + i * sz) = objAddr sz a i :=
      wrap64_of_lt (show objAddr sz a i < 2 ^ 64 by omega)
    set m1 := s.mach.mem.store64 current (objAddr sz a i)
    have hnext : m1.load64 current = objAddr sz a i := ByteMem.load64_store64_self (by omega)
    have hmemory1 : fields m1 a .memory = a + 48 := by
      rw [← hmemory]
      refine ByteMem.load64_store64_of_disjoint ?_
      have : SlabField.memory.offset = 16 := rfl
      omega
    obtain ⟨m', hrun, hlist, hframe⟩ := ih (s := s.store s.cache m1)
      (show i + 1 + n = slabCount sz by omega) hmemory1 (.inr hlow)
      (show objAddr sz a i + 8 ≤ objAddr sz a (i + 1) by omega)
    -- the word at `current` is before the objects that the rest of the loop writes to
    have hkeep : m'.load64 current = objAddr sz a i := by
      rw [← hnext]
      exact ByteMem.load64_congr fun y h1 h2 => hframe y (by omega) (by omega)
    refine ⟨m', ?_, ?_, fun y hy hy' => ?_⟩
    · rw [Returns, slabBuild, getField_bind, hmemory, hword,
        (show Returns (onMach (flat.store64 current (objAddr sz a i))) s ()
          (s.store s.cache m1) from rfl).bind_eq,
        (show Returns (onMach (flat.load64 current)) (s.store s.cache m1)
          (m1.load64 current) _ from rfl).bind_eq, hnext]
      exact hrun
    · rw [objectsFrom_succ]
      exact ⟨hkeep, hlist⟩
    · rw [hframe y (by omega) (by omega)]
      exact ByteMem.store64_outside (by omega)

/-- The memory after the header of a new slab was written. -/
def headerMem (sz a : Nat) (m : ByteMem) : ByteMem :=
  ((((m.store64 (a + SlabField.memory.offset) (a + 48)).store64 (a + SlabField.objSize.offset)
    sz).store64 (a + SlabField.objCount.offset) (slabCount sz)).store64
      (a + SlabField.used.offset) 0).store64 (a + SlabField.next.offset) 0

theorem headerMem_outside (sz a : Nat) (m : ByteMem) {y : Nat} (hy : y < a ∨ a + 48 ≤ y) :
    headerMem sz a m y = m y := by
  have hfar : ∀ f : SlabField, y < a + f.offset ∨ a + f.offset + 8 ≤ y := fun f => by
    have := f.offset_le
    omega
  rw [headerMem, ByteMem.store64_outside (hfar .next), ByteMem.store64_outside (hfar .used),
    ByteMem.store64_outside (hfar .objCount), ByteMem.store64_outside (hfar .objSize),
    ByteMem.store64_outside (hfar .memory)]

theorem fields_headerMem (hlt : a + 48 < 2 ^ 64) (hsz : sz < 2 ^ 64) (m : ByteMem) :
    fields (headerMem sz a m) a .memory = a + 48 ∧ fields (headerMem sz a m) a .objSize = sz ∧
      fields (headerMem sz a m) a .objCount = slabCount sz ∧
      fields (headerMem sz a m) a .used = 0 ∧ fields (headerMem sz a m) a .next = 0 := by
  have hne : ∀ (f g : SlabField) (m : ByteMem) (v : Nat), f ≠ g →
      fields (m.store64 (a + f.offset) v) a g = fields m a g := fun _ _ _ _ => fields_store64
  unfold headerMem
  refine ⟨?_, ?_, ?_, ?_, fields_store64_self (Nat.two_pow_pos 64)⟩
  · rw [hne _ _ _ _ (by decide), hne _ _ _ _ (by decide), hne _ _ _ _ (by decide),
      hne _ _ _ _ (by decide), fields_store64_self hlt]
  · rw [hne _ _ _ _ (by decide), hne _ _ _ _ (by decide), hne _ _ _ _ (by decide),
      fields_store64_self hsz]
  · rw [hne _ _ _ _ (by decide), hne _ _ _ _ (by decide), fields_store64_self (slabCount_lt sz)]
  · rw [hne _ _ _ _ (by decide), fields_store64_self (Nat.two_pow_pos 64)]

theorem pmmAllocPage_returns {s : SlabState Flat} {phys : Nat} {rest : List Nat}
    (hsupply : s.mach.supply = phys :: rest) :
    Returns (onMach flat.pmmAllocPage) s phys ⟨s.cache, { s.mach with supply := rest }⟩ := by
  show ((Flat.allocPage s.mach).map _) = _
  unfold Flat.allocPage
  rw [hsupply]
  rfl

/-- `slab_create` without a frame. -/
theorem slabCreate_null {s : SlabState Flat} {rest : List Nat} (hsupply : s.mach.supply = 0 :: rest) :
    Returns (slabCreate flat sz) s 0 ⟨s.cache, { s.mach with supply := rest }⟩ := by
  rw [Returns, slabCreate, (pmmAllocPage_returns hsupply).bind_eq]
  rfl

/-- `slab_create` on a frame from `pmm_alloc_page`: a slab with all objects free. -/
theorem slabCreate_spec (hsz : 8 ≤ sz) (hlt : sz < 2 ^ 64) {s : SlabState Flat} {phys : Nat}
    {rest : List Nat} (hsupply : s.mach.supply = phys :: rest) (hphys : phys ≠ 0)
    (ha : PageAddr (phys + kernelVbase)) :
    ∃ m', Returns (slabCreate flat sz) s (phys + kernelVbase)
        ⟨s.cache, { s.mach with mem := m', supply := rest }⟩ ∧
      SlabPage sz m' (phys + kernelVbase) (slabObjects sz (phys + kernelVbase)) ∧
      fields m' (phys + kernelVbase) .next = 0 ∧
      ∀ y, y < phys + kernelVbase ∨ phys + kernelVbase + 4096 ≤ y → m' y = s.mach.mem y := by
  obtain ⟨a, hadef⟩ : ∃ a, phys + kernelVbase = a := ⟨_, rfl⟩
  have hpage : a + 4096 < 2 ^ 64 := hadef ▸ ha.lt
  rw [hadef] at ha ⊢
  obtain ⟨hmemory, hobjSize, hobjCount, hused, hnext⟩ :=
    fields_headerMem (show a + 48 < 2 ^ 64 by omega) hlt s.mach.mem
  set m1 := headerMem sz a s.mach.mem
  set s1 : SlabState Flat := ⟨s.cache, { s.mach with mem := m1, supply := rest }⟩
  have hlow : a + 48 ≤ objAddr sz a 0 := objAddr_lo
  obtain ⟨m', hrun, hlist, hframe⟩ := slabBuild_spec hsz ha (s := s1)
    (Nat.zero_add (slabCount sz)) hmemory (.inl rfl) (by omega)
  have hfield : ∀ f, f ≠ .freeList → fields m' a f = fields m1 a f := fun f hf => by
    refine ByteMem.load64_congr fun y h1 h2 => hframe y ?_ ?_
    · cases f with
      | freeList => exact absurd rfl hf
      | next => exact .inl (by show y < a + 8; exact h2)
      | memory => exact .inr h1
      | objSize => exact .inr (le_trans (by show a + 8 + 8 ≤ a + 24; omega) h1)
      | objCount => exact .inr (le_trans (by show a + 8 + 8 ≤ a + 32; omega) h1)
      | used => exact .inr (le_trans (by show a + 8 + 8 ≤ a + 40; omega) h1)
    · have := f.offset_le
      omega
  refine ⟨m', ?_, ⟨?_, ?_, ?_, ?_, ?_, slabObjects_nodup hsz, fun x hx => hx⟩, ?_, fun y hy => ?_⟩
  · rw [Returns, slabCreate, (pmmAllocPage_returns hsupply).bind_eq, if_neg hphys,
      if_neg (show sz ≠ 0 by omega), hadef, wrap64_of_lt (show a < 2 ^ 64 by omega),
      wrap64_of_lt (show a + sizeofSlab < 2 ^ 64 by rw [sizeofSlab]; omega)]
    show (slabBuild flat a sz (slabCount sz) 0 (a + 8) >>= fun _ => pure a) s1 = _
    exact hrun.bind_eq
  · rw [hfield _ (by decide), hmemory]
    rfl
  · rw [hfield _ (by decide), hobjSize]
  · rw [hfield _ (by decide), hobjCount]
  · rw [hfield _ (by decide), hused, length_slabObjects, Nat.zero_add]
  · rw [← objectsFrom_zero]
    exact hlist
  · rw [hfield _ (by decide), hnext]
  · rw [hframe y (by omega) (by omega)]
    exact headerMem_outside sz a s.mach.mem (by omega)

end Create

/-! ## Allocating -/

/-- The list a slab is on says how many of its objects are free. -/
structure Classified (sz : Nat) (V : SlabLists) : Prop where
  slabsFull : ∀ a ∈ V.slabsFull, V.chain a = []
  slabsPartial : ∀ a ∈ V.slabsPartial, V.chain a ≠ []
  slabsFree : ∀ a ∈ V.slabsFree, (V.chain a).length = slabCount sz

/-- A slab changes and comes to the list it belongs to. The others stay where they are. -/
theorem Classified.move {sz a : Nat} {V V' : SlabLists} (h : Classified sz V)
    (hnd : V'.slabs.Nodup) (hfull : V'.slabsFull ⊆ a :: V.slabsFull)
    (hpart : V'.slabsPartial ⊆ a :: V.slabsPartial) (hfree : V'.slabsFree ⊆ a :: V.slabsFree)
    (hchain : ∀ b, b ≠ a → V'.chain b = V.chain b)
    (ha : a ∈ V'.slabsFull ∧ V'.chain a = [] ∨ a ∈ V'.slabsPartial ∧ V'.chain a ≠ [] ∨
      a ∈ V'.slabsFree ∧ (V'.chain a).length = slabCount sz) : Classified sz V' := by
  obtain ⟨-, hnd', hdis⟩ := nodup_append.mp hnd
  obtain ⟨-, -, hdis'⟩ := nodup_append.mp hnd'
  refine ⟨fun b hb => ?_, fun b hb => ?_, fun b hb => ?_⟩ <;> by_cases hba : b = a
  · subst hba
    rcases ha with ⟨-, hc⟩ | ⟨hm, -⟩ | ⟨hm, -⟩
    · exact hc
    · exact absurd rfl (hdis b hb b (mem_append_left _ hm))
    · exact absurd rfl (hdis b hb b (mem_append_right _ hm))
  · rw [hchain b hba]
    exact h.slabsFull b ((mem_cons.mp (hfull hb)).resolve_left hba)
  · subst hba
    rcases ha with ⟨hm, -⟩ | ⟨-, hc⟩ | ⟨hm, -⟩
    · exact absurd rfl (hdis b hm b (mem_append_left _ hb))
    · exact hc
    · exact absurd rfl (hdis' b hb b hm)
  · rw [hchain b hba]
    exact h.slabsPartial b ((mem_cons.mp (hpart hb)).resolve_left hba)
  · subst hba
    rcases ha with ⟨hm, -⟩ | ⟨hm, -⟩ | ⟨-, hc⟩
    · exact absurd rfl (hdis b hm b (mem_append_right _ hb))
    · exact absurd rfl (hdis' b hm b hb)
    · exact hc
  · rw [hchain b hba]
    exact h.slabsFree b ((mem_cons.mp (hfree hb)).resolve_left hba)

/-- The invariant of a cache between two calls. -/
structure SlabInv (sz : Nat) (pages live : List Nat) (V : SlabLists) (s : SlabState Flat) :
    Prop where
  layout : Layout sz pages live V s.cache s.mach.mem
  classified : Classified sz V

/-- The slab in the frame that `pmm_alloc_page` returned. -/
def granted (phys : Nat) : List Nat := if phys = 0 then [] else [phys + kernelVbase]

/-- An answer of `pmm_alloc_page`: `NULL`, or a page that the cache does not have. -/
def Fresh (pages : List Nat) (phys : Nat) : Prop :=
  phys = 0 ∨ PageAddr (phys + kernelVbase) ∧ phys + kernelVbase ∉ pages

/-- The pages of the cache after a call for which the answer was `phys`, if it asked. -/
def pagesAfter (pages : List Nat) (phys : Nat) (s' : SlabState Flat) : List Nat :=
  if s'.mach.supply = [] then granted phys ++ pages else pages

section Alloc

variable {sz a x phys : Nat} {pages live l : List Nat} {V : SlabLists} {s : SlabState Flat}

variable {ctor : Option (Nat → Exec Flat Unit)} {own : Nat → Prop} {s' : SlabState Flat}

theorem pagesAfter_of_not_asked (h : s'.mach.supply = [phys]) :
    pagesAfter pages phys s' = pages := if_neg (by rw [h]; exact cons_ne_nil _ _)

theorem SlabInv.addPage (h : SlabInv sz pages live V s) (hsz : 8 ≤ sz) (ha : PageAddr a)
    (hnew : a ∉ pages) (hfree : V.slabsFree = []) {m' : ByteMem}
    (hout : ∀ y, y < a ∨ a + 4096 ≤ y → m' y = s.mach.mem y)
    (hpage : SlabPage sz m' a (slabObjects sz a)) (hnext : fields m' a .next = 0)
    (supply : List Nat) :
    SlabInv sz (a :: pages) live { V.setChain a (slabObjects sz a) with slabsFree := [a] }
      ⟨{ s.cache with slabsFree := a }, { s.mach with mem := m', supply := supply }⟩ := by
  have hlayout := h.layout.addPage hsz ha hnew hfree hout hpage hnext
  refine ⟨hlayout, h.classified.move hlayout.slabs_nodup (subset_cons_self _ _)
    (subset_cons_self _ _) (cons_subset_cons _ (nil_subset _)) (fun b => V.setChain_of_ne _)
    (.inr (.inr ⟨mem_singleton_self a, ?_⟩))⟩
  rw [SlabLists.setChain_self, length_slabObjects]

/-- The first free slab, or a new one, is the first of the free slabs. -/
theorem slabFreeOrNew_spec (h : SlabInv sz pages live V s) (hsz : 8 ≤ sz) (hlt : sz < 2 ^ 64)
    (hsupply : s.mach.supply = [phys]) (hfresh : Fresh pages phys) :
    ∃ a s' V', Returns (slabFreeOrNew flat) s a s' ∧
      SlabInv sz (pagesAfter pages phys s') live V' s' ∧
      (a = 0 ∧ phys = 0 ∧ s'.mach.supply = [] ∨ a ≠ 0 ∧ ∃ l, V'.slabsFree = a :: l) := by
  have hstart : slabFreeOrNew flat s =
      (if s.cache.slabsFree ≠ 0 then pure s.cache.slabsFree
        else do
          let slab ← slabCreate flat sz
          if slab = 0 then pure 0
          else do
            setSlabsFree slab
            pure slab : Exec (SlabState Flat) Nat) s := by
    rw [← h.layout.objSize, slabFreeOrNew, read_bind, Exec.ite_apply, Exec.ite_apply]
    rfl
  cases hV : V.slabsFree with
  | cons a l =>
    have hhead : s.cache.slabsFree = a := h.layout.slabsFree.1.trans (hV ▸ rfl)
    have ha : a ∈ pages := h.layout.free_mem (hV ▸ mem_cons_self)
    have ha0 : a ≠ 0 := (h.layout.pageAddr a ha).pos.ne'
    refine ⟨a, s, V, ?_, ?_, .inr ⟨ha0, l, hV⟩⟩
    · rw [Returns, hstart, hhead, if_pos ha0]
      rfl
    · rwa [pagesAfter_of_not_asked hsupply]
  | nil =>
    have hhead : s.cache.slabsFree = 0 := h.layout.slabsFree.1.trans (hV ▸ rfl)
    rw [hhead, if_neg (not_not.mpr rfl)] at hstart
    by_cases hphys : phys = 0
    · refine ⟨0, ⟨s.cache, { s.mach with supply := [] }⟩, V, ?_, ?_, .inl ⟨rfl, hphys, rfl⟩⟩
      · rw [Returns, hstart, (slabCreate_null (hphys ▸ hsupply)).bind_eq]
        rfl
      · rw [pagesAfter, if_pos rfl, granted, if_pos hphys]
        exact ⟨h.layout, h.classified⟩
    · obtain ⟨hpage, hnew⟩ := hfresh.resolve_left hphys
      obtain ⟨m', hrun, hslab, hnext, hframe⟩ := slabCreate_spec hsz hlt hsupply hphys hpage
      have hinv := h.addPage hsz hpage hnew hV hframe hslab hnext []
      set a := phys + kernelVbase
      refine ⟨a, ⟨{ s.cache with slabsFree := a }, { s.mach with mem := m', supply := [] }⟩,
        { V.setChain a (slabObjects sz a) with slabsFree := [a] }, ?_, ?_,
        .inr ⟨hpage.pos.ne', [], rfl⟩⟩
      · rw [Returns, hstart, hrun.bind_eq, if_neg hpage.pos.ne']
        rfl
      · rw [pagesAfter, if_pos rfl, granted, if_neg hphys]
        exact hinv

/-- The slab that is picked is the first of the partial ones. -/
theorem slabPick_spec (h : SlabInv sz pages live V s) (hsz : 8 ≤ sz) (hle : sz ≤ 4048)
    (hsupply : s.mach.supply = [phys]) (hfresh : Fresh pages phys) :
    ∃ a s' V', Returns (slabPick flat) s a s' ∧
      SlabInv sz (pagesAfter pages phys s') live V' s' ∧
      (a = 0 ∧ phys = 0 ∧ s'.mach.supply = [] ∨ a ≠ 0 ∧ ∃ l, V'.slabsPartial = a :: l) := by
  cases hV : V.slabsPartial with
  | cons a l =>
    have hhead : s.cache.slabsPartial = a := h.layout.slabsPartial.1.trans (hV ▸ rfl)
    have ha : a ∈ pages := h.layout.partial_mem (hV ▸ mem_cons_self)
    have ha0 : a ≠ 0 := (h.layout.pageAddr a ha).pos.ne'
    refine ⟨a, s, V, ?_, ?_, .inr ⟨ha0, l, hV⟩⟩
    · rw [Returns, slabPick, read_bind, hhead, if_pos ha0]
      rfl
    · rwa [pagesAfter_of_not_asked hsupply]
  | nil =>
    have hhead : s.cache.slabsPartial = 0 := h.layout.slabsPartial.1.trans (hV ▸ rfl)
    obtain ⟨a, s1, V1, hrun, hinv, ha⟩ :=
      slabFreeOrNew_spec h hsz (lt_of_le_of_lt hle (by norm_num)) hsupply hfresh
    have hstart : slabPick flat s =
        (if a = 0 then pure 0
          else do
            slabFreeToPartial flat a
            pure a : Exec (SlabState Flat) Nat) s1 := by
      rw [slabPick, read_bind, hhead]
      exact hrun.bind_eq
    rcases ha with ⟨ha0, hnull⟩ | ⟨ha0, l, hl⟩
    · refine ⟨0, s1, V1, ?_, hinv, .inl ⟨rfl, hnull⟩⟩
      rw [Returns, hstart, if_pos ha0]
      rfl
    · have hmove := hinv.layout.freeToPartial hsz hl
      refine ⟨a, s1.store { s1.cache with
          slabsFree := fields s1.mach.mem a .next, slabsPartial := a }
          (s1.mach.mem.store64 (a + SlabField.next.offset) s1.cache.slabsPartial),
        { V1 with slabsFree := l, slabsPartial := a :: V1.slabsPartial }, ?_, ⟨hmove, ?_⟩,
        .inr ⟨ha0, _, rfl⟩⟩
      · rw [Returns, hstart, if_neg ha0]
        rfl
      · -- a free slab has all of its objects, and there is at least one
        have hlen := hinv.classified.slabsFree a (hl ▸ mem_cons_self)
        refine hinv.classified.move hmove.slabs_nodup (subset_cons_self _ _) (Subset.refl _)
          (fun b hb => mem_cons_of_mem _ (hl ▸ mem_cons_of_mem _ hb)) (fun _ _ => rfl)
          (.inr (.inl ⟨mem_cons_self, ne_nil_of_length_pos (hlen ▸ Nat.div_pos hle (by omega))⟩))

/-- The computation returns, takes no page, and leaves these bytes alone. -/
def Leaves (own : Nat → Prop) (c : Exec Flat Unit) : Prop :=
  ∀ t, ∃ t', Returns c t () t' ∧ t'.supply = t.supply ∧ ∀ y, own y → t'.mem y = t.mem y

theorem Leaves.mono {own' : Nat → Prop} {c : Exec Flat Unit} (h : Leaves own c)
    (hsub : ∀ y, own' y → own y) : Leaves own' c := fun t => by
  obtain ⟨t', hrun, hsupply, hown⟩ := h t
  exact ⟨t', hrun, hsupply, fun y hy => hown y (hsub y hy)⟩

/-- A callback that leaves the bytes of the allocator alone. -/
theorem callback_spec {f : Option (Nat → Exec Flat Unit)}
    (hf : ∀ g, f = some g → Leaves own (g x)) (s : SlabState Flat) :
    ∃ t, Returns (callback f x) s () ⟨s.cache, t⟩ ∧ t.supply = s.mach.supply ∧
      ∀ y, own y → t.mem y = s.mach.mem y := by
  cases f with
  | none => exact ⟨s.mach, rfl, rfl, fun _ _ => rfl⟩
  | some g =>
    obtain ⟨t, hrun, hsupply, hown⟩ := hf g rfl s.mach
    refine ⟨t, ?_, hsupply, hown⟩
    show ((g x s.mach).map _) = _
    rw [show g x s.mach = some ((), t) from hrun]
    rfl

/-- `slab_alloc` up to the check whether the slab is full: the stores and the constructor. -/
theorem slabTake_eq {x : Nat} {t : Flat} (hfirst : fields s.mach.mem a .freeList = x) (hx : x ≠ 0)
    (hcall : Returns (callback ctor x) (s.store s.cache (takeMem s.mach.mem a x)) ()
      ⟨s.cache, t⟩) :
    slabTake flat ctor a s =
      (slabCheckFull flat a >>= fun _ => pure x) (⟨s.cache, t⟩ : SlabState Flat) := by
  rw [slabTake, getField_bind, hfirst]
  rw [if_neg hx]
  show (callback ctor x >>= fun _ => slabCheckFull flat a >>= fun _ => pure x)
    (s.store s.cache ((s.mach.mem.store64 (a + SlabField.freeList.offset)
      (s.mach.mem.load64 x)).store64 (a + SlabField.used.offset)
        (wrap64 (fields (s.mach.mem.store64 (a + SlabField.freeList.offset)
          (s.mach.mem.load64 x)) a .used + 1)))) = _
  rw [fields_store64 (by decide)]
  exact hcall.bind_eq

/-- Taking an object from the first partial slab. -/
theorem slabTake_spec (h : SlabInv sz pages live V s) (hsz : 8 ≤ sz) (hV : V.slabsPartial = a :: l)
    (hctor : ∀ f, ctor = some f → ∀ x, Leaves (Owned sz pages (x :: live)) (f x)) :
    ∃ x s' V', Returns (slabTake flat ctor a) s x s' ∧ x ≠ 0 ∧ x ∉ live ∧
      SlabInv sz pages (x :: live) V' s' ∧ s'.mach.supply = s.mach.supply := by
  have ha : a ∈ pages := h.layout.partial_mem (hV ▸ mem_cons_self)
  obtain ⟨x, c, hc⟩ := exists_cons_of_ne_nil
    (h.classified.slabsPartial a (hV ▸ mem_cons_self))
  obtain ⟨hlive, htake⟩ := h.layout.take hsz ha hc
  have hpage := h.layout.page a ha
  rw [hc] at hpage
  have hx0 : x ≠ 0 := by
    have := slabObjects_bounds (hpage.objects x mem_cons_self)
    omega
  obtain ⟨t, hcall, hsupply, hown⟩ := callback_spec (fun f hf => hctor f hf x)
    (s.store s.cache (takeMem s.mach.mem a x))
  have hlayout := htake.of_agree hsz hown
  have hpage' := hlayout.page a ha
  rw [SlabLists.setChain_self] at hpage'
  have hstart := slabTake_eq hpage.freeList.1 hx0 hcall
  have hused := hpage'.used
  have hcheck : slabCheckFull flat a ⟨s.cache, t⟩ =
      (if slabCount sz ≤ fields t.mem a .used then slabPartialToFull flat a else pure () :
        Exec (SlabState Flat) Unit) ⟨s.cache, t⟩ := by
    rw [slabCheckFull, getField_bind,
      getField_bind, hpage'.objCount]
  cases c with
  | nil =>
    -- that was the last free object
    have hmove := hlayout.partialToFull hsz hV
    rw [length_nil, Nat.add_zero] at hused
    rw [if_pos hused.ge] at hcheck
    refine ⟨x, ⟨{ s.cache with slabsPartial := fields t.mem a .next, slabsFull := a },
      { t with mem := t.mem.store64 (a + SlabField.next.offset) s.cache.slabsFull }⟩,
      { V.setChain a [] with slabsPartial := l, slabsFull := a :: V.slabsFull },
      ?_, hx0, hlive, ⟨hmove, ?_⟩, hsupply⟩
    · rw [Returns, hstart, bind_apply, hcheck]
      rfl
    · exact h.classified.move hmove.slabs_nodup (Subset.refl _)
        (fun b hb => mem_cons_of_mem _ (hV ▸ mem_cons_of_mem _ hb)) (subset_cons_self _ _)
        (fun b => V.setChain_of_ne _) (.inl ⟨mem_cons_self, V.setChain_self a []⟩)
  | cons y c =>
    rw [length_cons] at hused
    rw [if_neg (by omega)] at hcheck
    refine ⟨x, ⟨s.cache, t⟩, V.setChain a (y :: c), ?_, hx0, hlive, ⟨hlayout, ?_⟩, hsupply⟩
    · rw [Returns, hstart, bind_apply, hcheck]
      rfl
    · refine h.classified.move hlayout.slabs_nodup (subset_cons_self _ _) (subset_cons_self _ _)
        (subset_cons_self _ _) (fun b => V.setChain_of_ne _)
        (.inr (.inl ⟨hV ▸ mem_cons_self, ?_⟩))
      rw [V.setChain_self]
      exact cons_ne_nil y c

/-- `slab_alloc` returns an object that was not live, or `NULL` if it asked for a page and got
none. -/
theorem slabAlloc_spec (h : SlabInv sz pages live V s) (hsz : 8 ≤ sz) (hle : sz ≤ 4048)
    (hsupply : s.mach.supply = [phys]) (hfresh : Fresh pages phys) (hctor : ∀ f, ctor = some f →
      ∀ x, Leaves (Owned sz (granted phys ++ pages) (x :: live)) (f x)) :
    ∃ x s' V', Returns (slabAlloc flat ctor) s x s' ∧ x ∉ live ∧
      SlabInv sz (pagesAfter pages phys s') (if x = 0 then live else x :: live) V' s' ∧
      (x = 0 → phys = 0 ∧ s'.mach.supply = []) := by
  obtain ⟨a, s1, V1, hpick, hinv, ha⟩ := slabPick_spec h hsz hle hsupply hfresh
  rcases ha with ⟨ha0, hnull⟩ | ⟨ha0, l, hl⟩
  · refine ⟨0, s1, V1, ?_, fun h0 => ?_, ?_, fun _ => hnull⟩
    · rw [Returns, slabAlloc, hpick.bind_eq, if_pos ha0]
      rfl
    · obtain ⟨b, -, hb, -⟩ := (h.layout.live_iff 0).mp h0
      have := slabObjects_bounds hb
      omega
    · rwa [if_pos rfl]
  · have hsub : ∀ x y, Owned sz (pagesAfter pages phys s1) (x :: live) y →
        Owned sz (granted phys ++ pages) (x :: live) y := by
      rintro x y ⟨⟨b, hb, hby⟩, hxy⟩
      refine ⟨⟨b, ?_, hby⟩, hxy⟩
      unfold pagesAfter at hb
      split at hb
      · exact hb
      · exact mem_append_right _ hb
    obtain ⟨x, s', V', htake, hx0, hxlive, hinv', hkeep⟩ := slabTake_spec hinv hsz hl
      fun f hf x => (hctor f hf x).mono (hsub x)
    refine ⟨x, s', V', ?_, hxlive, ?_, fun hx => absurd hx hx0⟩
    · rw [Returns, slabAlloc, hpick.bind_eq, if_neg ha0]
      exact htake
    · rw [if_neg hx0]
      have hpages : pagesAfter pages phys s' = pagesAfter pages phys s1 := by
        rw [pagesAfter, pagesAfter, hkeep]
      rwa [hpages]

end Alloc

/-! ## Freeing -/

section Free

variable {sz a b x prev slab fuel : Nat} {pages live l l1 l2 : List Nat} {V : SlabLists}
  {s : SlabState Flat}

/-- The range test of `slab_free` finds the slab of an object. -/
theorem Layout.inRange_iff {C : SlabCache} {m : ByteMem} (h : Layout sz pages live V C m)
    (hsz : 8 ≤ sz) (ha : a ∈ pages) (hb : b ∈ pages) (hx : x ∈ slabObjects sz a) :
    (fields m b .memory ≤ x ∧
      x < wrap64 (fields m b .memory + fields m b .objCount * fields m b .objSize)) ↔ b = a := by
  have hmul := slabCount_mul_le sz
  have hpage := (h.pageAddr b hb).lt
  have hbounds := slabObjects_bounds hx
  rw [(h.page b hb).memory, (h.page b hb).objCount, (h.page b hb).objSize, sizeofSlab,
    wrap64_of_lt (by omega)]
  constructor
  · rintro ⟨hlo, hhi⟩
    by_contra hne
    have := h.apart hb ha hne
    omega
  · rintro rfl
    omega

section

variable (h : Layout sz pages live V s.cache s.mach.mem)
include h

/-- The search passes the slabs that the object does not lie in. -/
theorem slabFind_skip (hsz : 8 ≤ sz) (ha : a ∈ pages) (hx : x ∈ slabObjects sz a) {q : Nat}
    (hl : SList id (fields s.mach.mem · .next) slab l q) (hmem : ∀ b ∈ l, b ∈ pages)
    (hal : a ∉ l) : slabFind flat x (fuel + 1 + l.length) prev slab s =
      slabFind flat x (fuel + 1) (lastOr id prev l) q s := by
  induction l generalizing prev slab with
  | nil =>
    obtain rfl : slab = q := hl.1
    rfl
  | cons b l ih =>
    obtain rfl : slab = b := hl.1
    have hb := hmem slab mem_cons_self
    rw [length_cons, ← Nat.add_assoc, slabFind, if_neg (h.pageAddr slab hb).pos.ne',
      getField_bind, getField_bind,
      getField_bind,
      if_neg (mt (h.inRange_iff hsz ha hb hx).mp (ne_of_not_mem_cons hal).symm)]
    exact ih hl.pop (fun d hd => hmem d (mem_cons_of_mem _ hd)) (not_mem_of_not_mem_cons hal)

/-- A list with the slab of the object: the search stops there, with its predecessor. -/
theorem slabFind_hit (hsz : 8 ≤ sz) (hx : x ∈ slabObjects sz a)
    (hl : SList id (fields s.mach.mem · .next) slab (l1 ++ a :: l2) 0)
    (hmem : ∀ b ∈ l1 ++ a :: l2, b ∈ pages) (hnd : (l1 ++ a :: l2).Nodup) :
    Returns (slabFind flat x (fuel + 1 + l1.length) prev slab) s (lastOr id prev l1, a) s := by
  have ha : a ∈ pages := hmem a (mem_append_right _ mem_cons_self)
  have hl1 : SList id (fields s.mach.mem · .next) slab l1 a :=
    ⟨hl.1.trans (headOr_append l1 _ 0), (sseg_append.mp hl.2).1⟩
  rw [Returns, slabFind_skip h hsz ha hx hl1 (fun b hb => hmem b (mem_append_left _ hb))
      fun hal => (nodup_append.mp hnd).2.2 a hal a mem_cons_self rfl,
    slabFind, if_neg (h.pageAddr a ha).pos.ne', getField_bind,
    getField_bind, getField_bind,
    if_pos ((h.inRange_iff hsz ha ha hx).mpr rfl)]
  rfl

end

section

variable (h : SlabInv sz pages live V s)
include h

theorem SlabInv.slab_of_live (hsz : 8 ≤ sz) (hx : x ∈ live) :
    ∃ a ∈ pages, x ∈ slabObjects sz a ∧ (a ∈ V.slabsPartial ∨ a ∈ V.slabsFull) := by
  obtain ⟨a, ha, hxa, -⟩ := (h.layout.live_iff x).mp hx
  refine ⟨a, ha, hxa, ?_⟩
  rcases mem_append.mp (h.layout.mem_slabs.mpr ha) with hfull | hrest
  · exact .inr hfull
  · rcases mem_append.mp hrest with hpart | hfree
    · exact .inl hpart
    · -- a free slab has no live object
      have hroom := (h.layout.put hsz ha hx hxa).2.1
      have hlen := h.classified.slabsFree a hfree
      omega

/-- The slab of a live object is found, on the list it is on. -/
theorem slabOwner_spec (hsz : 8 ≤ sz) (ha : a ∈ pages)
    (hx : x ∈ slabObjects sz a) (hfuel : pages.length < fuel) :
    (∀ l1 l2, V.slabsPartial = l1 ++ a :: l2 →
      Returns (slabOwner flat fuel x) s (lastOr id 0 l1, a) s) ∧
    (∀ l1 l2, V.slabsFull = l1 ++ a :: l2 →
      Returns (slabOwner flat fuel x) s (lastOr id 0 l1, a) s) := by
  obtain ⟨hndf, hndp, hdis⟩ := nodup_append.mp h.layout.slabs_nodup
  have hlen := h.layout.perm.length_eq
  have hpart := h.layout.slabsPartial
  have hfull := h.layout.slabsFull
  rw [SlabLists.slabs, length_append, length_append] at hlen
  constructor
  · intro l1 l2 hV
    have hnd := (nodup_append.mp hndp).1
    rw [hV] at hpart hnd hlen
    rw [length_append] at hlen
    obtain ⟨k, rfl⟩ : ∃ k, fuel = k + 1 + l1.length := ⟨fuel - 1 - l1.length, by omega⟩
    rw [Returns, slabOwner, read_bind, (slabFind_hit h.layout hsz hx hpart
      (fun b hb => h.layout.partial_mem (hV ▸ hb)) hnd).bind_eq,
      if_pos (h.layout.pageAddr a ha).pos.ne']
    rfl
  · intro l1 l2 hV
    have hap : a ∉ V.slabsPartial := fun hap =>
      hdis a (hV ▸ mem_append_right _ mem_cons_self) a (mem_append_left _ hap) rfl
    rw [hV] at hfull hndf hlen
    rw [length_append] at hlen
    have hmiss : Returns (slabFind flat x fuel 0 s.cache.slabsPartial) s
        (lastOr id 0 V.slabsPartial, 0) s := by
      obtain ⟨k, rfl⟩ : ∃ k, fuel = k + 1 + V.slabsPartial.length :=
        ⟨fuel - 1 - V.slabsPartial.length, by omega⟩
      exact slabFind_skip h.layout hsz ha hx hpart (fun b => h.layout.partial_mem) hap
    obtain ⟨k, rfl⟩ : ∃ k, fuel = k + 1 + l1.length := ⟨fuel - 1 - l1.length, by omega⟩
    rw [Returns, slabOwner, read_bind, hmiss.bind_eq, if_neg (not_not.mpr rfl)]
    exact slabFind_hit h.layout hsz hx hfull (fun b hb => h.layout.full_mem (hV ▸ hb)) hndf

omit h in
theorem slabFullToPartial_returns {C' : SlabCache} {m' : ByteMem}
    (hr : Layout.unlinked s.cache s.mach.mem prev (fields s.mach.mem a .next) = (C', m'))
    (hC : C'.slabsPartial = s.cache.slabsPartial) :
    Returns (slabFullToPartial flat prev a) s ()
      (s.store { C' with slabsPartial := a }
        (m'.store64 (a + SlabField.next.offset) s.cache.slabsPartial)) := by
  have hset : Returns (setNextOf flat prev (fields s.mach.mem a .next)) s () (s.store C' m') := by
    unfold setNextOf
    unfold Layout.unlinked at hr
    by_cases hprev : prev ≠ 0
    · rw [if_pos hprev] at hr ⊢
      cases hr
      rfl
    · rw [if_neg hprev] at hr ⊢
      cases hr
      rfl
  rw [Returns, slabFullToPartial, getField_bind,
    hset.bind_eq, ← hC]
  rfl

variable {dtor : Option (Nat → Exec Flat Unit)}

omit h in
/-- What giving back does up to the check whether the slab was full. -/
theorem slabPut_start (hx : x ∈ slabObjects sz a) {t : Flat}
    (hcall : Returns (callback dtor x) s () ⟨s.cache, t⟩) :
    slabPut flat dtor prev a x s =
      slabCheckPartial flat prev a ⟨s.cache, { t with mem := putMem t.mem a x }⟩ := by
  have hobj : ∀ v, fields (t.mem.store64 x v) a .used = fields t.mem a .used := fun v => by
    refine ByteMem.load64_store64_of_disjoint (.inr ?_)
    have := slabObjects_bounds hx
    show a + 40 + 8 ≤ x
    omega
  have hused : fields ((t.mem.store64 x (fields t.mem a .freeList)).store64
      (a + SlabField.freeList.offset) x) a .used = fields t.mem a .used := by
    rw [fields_store64 (by decide), hobj]
  rw [slabPut, hcall.bind_eq, getField_bind,
    storeWord_bind, setField_bind,
    getField_bind, setField_bind]
  refine congrArg (slabCheckPartial flat prev a) ?_
  rw [putMem, ← hused]
  rfl

omit h in
theorem slabCheckPartial_eq {c : List Nat} (hpage : SlabPage sz s.mach.mem a (x :: c)) :
    slabCheckPartial flat prev a s =
      (if c = [] then slabFullToPartial flat prev a else pure () : Exec (SlabState Flat) Unit) s := by
  have hused := hpage.used
  have hcount := slabCount_lt sz
  rw [length_cons] at hused
  rw [slabCheckPartial, getField_bind,
    getField_bind, hpage.objCount, sub64_of_le (by omega) hcount]
  by_cases hc : c = []
  · rw [if_pos hc, if_pos (by rw [hc, length_nil] at hused; omega)]
  · have hpos : 0 < c.length := length_pos_of_ne_nil hc
    rw [if_neg hc, if_neg (by omega)]

omit h in
/-- What giving back does: the object comes to the free list, and the slab, if it was full, to
the partial ones. -/
theorem slabPut_spec (h : Layout sz pages live V s.cache s.mach.mem) (hsz : 8 ≤ sz)
    (ha : a ∈ pages) (hx : x ∈ live) (hxa : x ∈ slabObjects sz a)
    (hdtor : ∀ f, dtor = some f → Leaves (Owned sz pages live) (f x)) (prev : Nat) :
    ∃ s', Layout sz pages (live.erase x) (V.setChain a (x :: V.chain a)) s'.cache s'.mach.mem ∧
      slabPut flat dtor prev a x s = (if V.chain a = [] then slabFullToPartial flat prev a
        else pure () : Exec (SlabState Flat) Unit) s' := by
  obtain ⟨t, hcall, -, hown⟩ := callback_spec hdtor s
  obtain ⟨-, -, hput⟩ := (h.of_agree hsz hown).put hsz ha hx hxa
  have hpage := hput.page a ha
  rw [SlabLists.setChain_self] at hpage
  exact ⟨⟨s.cache, { t with mem := putMem t.mem a x }⟩, hput,
    (slabPut_start hxa hcall).trans (slabCheckPartial_eq hpage)⟩

/-- Giving back an object of a partial slab. -/
theorem slabPut_of_partial (hsz : 8 ≤ sz) (hx : x ∈ live)
    (hxa : x ∈ slabObjects sz a) (haV : a ∈ V.slabsPartial)
    (hdtor : ∀ f, dtor = some f → Leaves (Owned sz pages live) (f x)) :
    ∃ s' V', Returns (slabPut flat dtor prev a x) s () s' ∧
      SlabInv sz pages (live.erase x) V' s' := by
  obtain ⟨s', hput, hrun⟩ :=
    slabPut_spec h.layout hsz (h.layout.partial_mem haV) hx hxa hdtor prev
  rw [if_neg (h.classified.slabsPartial a haV)] at hrun
  refine ⟨s', V.setChain a (x :: V.chain a), hrun, hput, ?_⟩
  refine h.classified.move hput.slabs_nodup (subset_cons_self _ _) (subset_cons_self _ _)
    (subset_cons_self _ _) (fun b => V.setChain_of_ne _) (.inr (.inl ⟨haV, ?_⟩))
  rw [V.setChain_self]
  exact cons_ne_nil _ _

/-- Giving back an object of a full slab: it moves to the partial ones. -/
theorem slabPut_of_full (hsz : 8 ≤ sz) (hx : x ∈ live)
    (hxa : x ∈ slabObjects sz a) (hV : V.slabsFull = l1 ++ a :: l2)
    (hdtor : ∀ f, dtor = some f → Leaves (Owned sz pages live) (f x)) :
    ∃ s' V', Returns (slabPut flat dtor (lastOr id 0 l1) a x) s () s' ∧
      SlabInv sz pages (live.erase x) V' s' := by
  have haV : a ∈ V.slabsFull := hV ▸ mem_append_right _ mem_cons_self
  obtain ⟨s', hput, hrun⟩ :=
    slabPut_spec h.layout hsz (h.layout.full_mem haV) hx hxa hdtor (lastOr id 0 l1)
  rw [if_pos (h.classified.slabsFull a haV)] at hrun
  obtain ⟨C', m', hr⟩ : ∃ C' m', Layout.unlinked s'.cache s'.mach.mem (lastOr id 0 l1)
    (fields s'.mach.mem a .next) = (C', m') := ⟨_, _, rfl⟩
  have hC := (hput.unlink hV hr).1
  have hmove := hput.fullToPartial hsz hV hr
  refine ⟨_, _, hrun.trans (slabFullToPartial_returns hr (hC ▸ rfl)), hmove, ?_⟩
  have hsub : l1 ++ l2 ⊆ a :: V.slabsFull := fun b hb =>
    mem_cons_of_mem _ (hV ▸ perm_middle.mem_iff.mpr (mem_cons_of_mem _ hb))
  refine h.classified.move hmove.slabs_nodup hsub (Subset.refl _) (subset_cons_self _ _)
    (fun b => V.setChain_of_ne _) (.inr (.inl ⟨mem_cons_self, ?_⟩))
  rw [V.setChain_self]
  exact cons_ne_nil _ _

/-- `slab_free` of a live object returns it to its slab. -/
theorem slabFree_spec (hsz : 8 ≤ sz) (hx : x ∈ live)
    (hdtor : ∀ f, dtor = some f → Leaves (Owned sz pages live) (f x)) :
    ∃ s' V', Converges (slabFree flat dtor · x) s () s' ∧
      SlabInv sz pages (live.erase x) V' s' := by
  obtain ⟨a, ha, hxa, haV⟩ := h.slab_of_live hsz hx
  have ha0 := (h.layout.pageAddr a ha).pos.ne'
  have hx0 : x ≠ 0 := by
    have := slabObjects_bounds hxa
    omega
  have hrun : ∀ {prev s'}, (∀ fuel, pages.length < fuel →
      Returns (slabOwner flat fuel x) s (prev, a) s) →
      Returns (slabPut flat dtor prev a x) s () s' → Converges (slabFree flat dtor · x) s () s' := by
    intro prev s' howner hput
    refine ⟨pages.length + 1, fun fuel hfuel => ?_⟩
    show slabFree flat dtor fuel x s = _
    rw [slabFree, if_neg hx0, (howner fuel hfuel).bind_eq, if_neg ha0]
    exact hput
  rcases haV with haV | haV
  · obtain ⟨l1, l2, hV⟩ := append_of_mem haV
    obtain ⟨s', V', hput, hinv⟩ := slabPut_of_partial h hsz hx hxa haV hdtor
    exact ⟨s', V', hrun (fun fuel hfuel => (slabOwner_spec h hsz ha hxa hfuel).1 l1 l2 hV) hput,
      hinv⟩
  · obtain ⟨l1, l2, hV⟩ := append_of_mem haV
    obtain ⟨s', V', hput, hinv⟩ := slabPut_of_full h hsz hx hxa hV hdtor
    exact ⟨s', V', hrun (fun fuel hfuel => (slabOwner_spec h hsz ha hxa hfuel).2 l1 l2 hV) hput,
      hinv⟩

end

end Free

/-! ## Runs -/

/-- A cache with the pages it got and the objects it handed out. -/
structure SlabSys where
  st : SlabState Flat
  pages : List Nat
  live : List Nat

/-- The state for a call in which `pmm_alloc_page`, if it is asked, answers `phys`. -/
def SlabSys.serving (r : SlabSys) (phys : Nat) : SlabState Flat :=
  ⟨r.st.cache, { r.st.mach with supply := [phys] }⟩

/-- The frames of `pmm.c` are such answers. -/
theorem pageAddr_pmmAllocPage {p : Mm.Pmm} (h : p.WF) :
    (Mm.pmmAllocPage p).1 = 0 ∨ PageAddr ((Mm.pmmAllocPage p).1 + kernelVbase) := by
  have hbase : kernelVbase = 0xFFFFFFFF80000000 := rfl
  rcases Mm.pmmAllocPage_spec h with ⟨hnull, -⟩ | ⟨g, hg, htakes, -⟩
  · exact .inl (congrArg Prod.fst hnull)
  · have := htakes.hi
    exact .inr ⟨by omega, by omega, by omega⟩

/-- What can happen to a cache. Callbacks may do something else in every call, so an event
brings them along. -/
inductive SlabEvent
  | alloc (phys : Nat) (ctor : Option (Nat → Exec Flat Unit)) (obj : Nat)
  | free (dtor : Option (Nat → Exec Flat Unit)) (obj : Nat)
  | write (mem : ByteMem)

/-- One event. Only live objects are freed, `pmm_alloc_page` answers with fresh pages, and
the callbacks and the writes of the client leave the bytes of the allocator alone. -/
inductive SlabStep (sz : Nat) : SlabSys → SlabEvent → SlabSys → Prop
  | alloc {r : SlabSys} {phys obj : Nat} {ctor : Option (Nat → Exec Flat Unit)}
      {s' : SlabState Flat} (hfresh : Fresh r.pages phys)
      (hctor : ∀ f, ctor = some f →
        ∀ x, Leaves (Owned sz (granted phys ++ r.pages) (x :: r.live)) (f x))
      (hrun : Returns (slabAlloc flat ctor) (r.serving phys) obj s') :
      SlabStep sz r (.alloc phys ctor obj)
        ⟨s', pagesAfter r.pages phys s', if obj = 0 then r.live else obj :: r.live⟩
  | free {r : SlabSys} {obj : Nat} {dtor : Option (Nat → Exec Flat Unit)} {s' : SlabState Flat}
      (hlive : obj ∈ r.live)
      (hdtor : ∀ f, dtor = some f → Leaves (Owned sz r.pages r.live) (f obj))
      (hrun : Converges (slabFree flat dtor · obj) r.st () s') :
      SlabStep sz r (.free dtor obj) ⟨s', r.pages, r.live.erase obj⟩
  | write {r : SlabSys} {mem : ByteMem}
      (hown : ∀ y, Owned sz r.pages r.live y → mem y = r.st.mach.mem y) :
      SlabStep sz r (.write mem) ⟨r.st.store r.st.cache mem, r.pages, r.live⟩

section Runs

variable {sz : Nat} {r r' : SlabSys} {e : SlabEvent}

theorem SlabInv.serving {V : SlabLists} (h : SlabInv sz r.pages r.live V r.st) (phys : Nat) :
    SlabInv sz r.pages r.live V (r.serving phys) :=
  ⟨h.layout, h.classified⟩

/-- Every event keeps the invariant. -/
theorem SlabInv.step (hsz : 8 ≤ sz) (hle : sz ≤ 4048) {V : SlabLists}
    (h : SlabInv sz r.pages r.live V r.st) (hstep : SlabStep sz r e r') :
    ∃ V', SlabInv sz r'.pages r'.live V' r'.st := by
  cases hstep with
  | alloc hfresh hctor hrun =>
    obtain ⟨x, s', V', hrun', -, hinv, -⟩ := slabAlloc_spec (h.serving _) hsz hle rfl hfresh hctor
    obtain ⟨rfl, rfl⟩ := hrun.unique hrun'
    exact ⟨V', hinv⟩
  | free hlive hdtor hrun =>
    obtain ⟨s', V', hrun', hinv⟩ := slabFree_spec h hsz hlive hdtor
    obtain ⟨-, rfl⟩ := hrun.unique hrun'
    exact ⟨V', hinv⟩
  | write hown => exact ⟨V, h.layout.of_agree hsz hown, h.classified⟩

/-- A new cache has one slab, with all objects free, if there is room for one at all. -/
theorem slabCacheCreate_spec {block objSize phys cache : Nat} {s0 s : SlabState Flat}
    (hsize : objSize < 2 ^ 64) (hfresh : Fresh [] phys) (hsupply : s0.mach.supply = [phys])
    (hcreate : Returns (slabCacheCreate flat block objSize) s0 cache s) (hcache : cache ≠ 0) :
    8 ≤ s.cache.objSize ∧ (s.cache.objSize ≤ 4048 ↔ objSize ≤ 4048) ∧
      ∃ V, SlabInv s.cache.objSize (granted phys) [] V s ∧ V.slabsPartial = [] ∧
        V.slabsFree = [phys + kernelVbase] := by
  obtain ⟨sz, hsz, hlo, hhi, hlt⟩ : ∃ sz,
      (if objSize < sizeofPtr then sizeofPtr else objSize) = sz ∧ 8 ≤ sz ∧
        (sz ≤ 4048 ↔ objSize ≤ 4048) ∧ sz < 2 ^ 64 := by
    refine ⟨_, rfl, ?_⟩
    rw [sizeofPtr]
    split <;> omega
  have hblock : block ≠ 0 := by
    intro hblock
    rw [Returns, slabCacheCreate, if_pos hblock] at hcreate
    cases hcreate
    exact hcache rfl
  -- the cache without slabs
  set s1 : SlabState Flat := ⟨⟨sz, 0, 0, 0⟩, s0.mach⟩ with hs1
  have hstart : slabCacheCreate flat block objSize s0 =
      (slabCreate flat sz >>= fun slab => do
        setSlabsFree slab
        if slab = 0 then pure 0 else pure block : Exec (SlabState Flat) Nat) s1 := by
    rw [slabCacheCreate, if_neg hblock]
    subst hsz
    rfl
  have hempty : SlabInv sz [] [] ⟨[], [], [], fun _ => []⟩ s1 :=
    ⟨⟨rfl, forall_mem_nil _, .nil, .nil, ⟨rfl, trivial⟩, ⟨rfl, trivial⟩, ⟨rfl, trivial⟩,
        forall_mem_nil _, .nil, by simp⟩,
      forall_mem_nil _, forall_mem_nil _, forall_mem_nil _⟩
  by_cases hphys : phys = 0
  · rw [Returns, hstart, (slabCreate_null (s := s1) (hphys ▸ hsupply)).bind_eq] at hcreate
    cases hcreate
    exact absurd rfl hcache
  · obtain ⟨hpage, hnew⟩ := hfresh.resolve_left hphys
    obtain ⟨m', hslab, hslabPage, hnext, hframe⟩ :=
      slabCreate_spec hlo hlt (s := s1) hsupply hphys hpage
    have hinv := hempty.addPage hlo hpage hnew rfl hframe hslabPage hnext []
    rw [Returns, hstart, hslab.bind_eq, if_neg hpage.pos.ne'] at hcreate
    cases hcreate
    rw [granted, if_neg hphys]
    exact ⟨hlo, hhi, _, hinv, rfl, rfl⟩

theorem slabRun_inv {block objSize phys cache : Nat} {s0 s : SlabState Flat}
    {es : List SlabEvent} (hsize : objSize ≤ slabTotalSize - sizeofSlab)
    (hfresh : Fresh [] phys) (hsupply : s0.mach.supply = [phys])
    (hcreate : Returns (slabCacheCreate flat block objSize) s0 cache s) (hcache : cache ≠ 0)
    (hrun : Run (SlabStep s.cache.objSize) ⟨s, granted phys, []⟩ es r) :
    8 ≤ s.cache.objSize ∧ s.cache.objSize ≤ 4048 ∧
      ∃ V, SlabInv s.cache.objSize r.pages r.live V r.st := by
  obtain ⟨hsz, hle, V0, hnew, -⟩ :=
    slabCacheCreate_spec (hsize.trans_lt (by decide)) hfresh hsupply hcreate hcache
  have hle := hle.mpr hsize
  exact ⟨hsz, hle, hrun.invariant (I := fun r => ∃ V, SlabInv s.cache.objSize r.pages r.live V r.st)
    (fun _ _ _ ⟨_, h⟩ hstep => h.step hsz hle hstep) ⟨V0, hnew⟩⟩

/-- **The invariant of a slab cache.** For every object size that leaves room for an object
behind the header, in every state that calls of `slab_alloc` and `slab_free` reach from a
new cache: each slab is on exactly one list; full slabs are used up and have no free list,
partial ones are not used up, free ones are unused; the free list of a slab is a chain of
`obj_count - used` different objects of the slab (`SlabPage`). Both calls return, and no
live object is handed out. -/
theorem slab_cache_invariant {block objSize phys cache : Nat} {s0 s : SlabState Flat}
    {es : List SlabEvent} {r : SlabSys} (hsize : objSize ≤ slabTotalSize - sizeofSlab)
    (hfresh : Fresh [] phys) (hsupply : s0.mach.supply = [phys])
    (hcreate : Returns (slabCacheCreate flat block objSize) s0 cache s) (hcache : cache ≠ 0)
    (hrun : Run (SlabStep s.cache.objSize) ⟨s, granted phys, []⟩ es r) :
    ∃ V, Layout s.cache.objSize r.pages r.live V r.st.cache r.st.mach.mem ∧
      (∀ a ∈ V.slabsFull, fields r.st.mach.mem a .used = fields r.st.mach.mem a .objCount ∧
        fields r.st.mach.mem a .freeList = 0) ∧
      (∀ a ∈ V.slabsPartial, fields r.st.mach.mem a .used < fields r.st.mach.mem a .objCount) ∧
      (∀ a ∈ V.slabsFree, fields r.st.mach.mem a .used = 0) ∧
      (∀ a ∈ r.pages, (V.chain a).length =
        fields r.st.mach.mem a .objCount - fields r.st.mach.mem a .used) ∧
      (∀ phys ctor, Fresh r.pages phys →
        (∀ f, ctor = some f → ∀ x,
          Leaves (Owned s.cache.objSize (granted phys ++ r.pages) (x :: r.live)) (f x)) →
        ∃ obj s', Returns (slabAlloc flat ctor) (r.serving phys) obj s' ∧ obj ∉ r.live) ∧
      (∀ dtor, ∀ obj ∈ r.live,
        (∀ f, dtor = some f → Leaves (Owned s.cache.objSize r.pages r.live) (f obj)) →
        ∃ s', Converges (slabFree flat dtor · obj) r.st () s') := by
  obtain ⟨hsz, hle, V, h⟩ := slabRun_inv hsize hfresh hsupply hcreate hcache hrun
  have hused : ∀ a ∈ r.pages, fields r.st.mach.mem a .used + (V.chain a).length =
      fields r.st.mach.mem a .objCount := fun a ha =>
    (h.layout.page a ha).used.trans (h.layout.page a ha).objCount.symm
  refine ⟨V, h.layout, fun a ha => ?_, fun a ha => ?_, fun a ha => ?_, fun a ha => ?_, ?_, ?_⟩
  · have hpage := h.layout.page a (h.layout.full_mem ha)
    have hsum := hused a (h.layout.full_mem ha)
    rw [h.classified.slabsFull a ha] at hpage hsum
    rw [List.length_nil, Nat.add_zero] at hsum
    exact ⟨hsum, hpage.freeList.1⟩
  · have hsum := hused a (h.layout.partial_mem ha)
    have hpos := List.length_pos_of_ne_nil (h.classified.slabsPartial a ha)
    omega
  · have hsum := hused a (h.layout.free_mem ha)
    have hlen := h.classified.slabsFree a ha
    rw [(h.layout.page a (h.layout.free_mem ha)).objCount] at hsum
    omega
  · have hsum := hused a ha
    omega
  · intro phys ctor hfresh hctor
    obtain ⟨x, s', -, hrun, hx, -⟩ := slabAlloc_spec (h.serving phys) hsz hle rfl hfresh hctor
    exact ⟨x, s', hrun, hx⟩
  · intro dtor obj hobj hdtor
    obtain ⟨s', -, hrun, -⟩ := slabFree_spec h hsz hobj hdtor
    exact ⟨s', hrun⟩

theorem fresh_megabyte : Fresh [] 0x100000 := .inr ⟨⟨by decide, by decide, by decide⟩, nofun⟩

/-- A cache of two objects per slab. -/
theorem slabCacheCreate_two : ∃ s, Returns (slabCacheCreate flat 1 2024)
    ⟨⟨0, 0, 0, 0⟩, ⟨fun _ => 0, [0x100000], fun _ _ => 0, fun _ => none⟩⟩ 1 s := by
  have heval : (slabCacheCreate flat 1 2024
      ⟨⟨0, 0, 0, 0⟩, ⟨fun _ => 0, [0x100000], fun _ _ => 0, fun _ => none⟩⟩).map Prod.fst = some 1 := by
    decide +kernel
  obtain ⟨⟨_, s⟩, hs, rfl⟩ := Option.map_eq_some_iff.mp heval
  exact ⟨s, hs⟩

/-- One object is taken from it. -/
theorem slab_cache_invariant_taken : ∃ (s : SlabState Flat) (obj : Nat) (r : SlabSys)
    (V : SlabLists), Returns (slabCacheCreate flat 1 2024)
      ⟨⟨0, 0, 0, 0⟩, ⟨fun _ => 0, [0x100000], fun _ _ => 0, fun _ => none⟩⟩ 1 s ∧
      Run (SlabStep s.cache.objSize) ⟨s, granted 0x100000, []⟩ [.alloc 0 none obj] r ∧
      Layout s.cache.objSize r.pages r.live V r.st.cache r.st.mach.mem := by
  obtain ⟨s, hs⟩ := slabCacheCreate_two
  obtain ⟨hsz, hle, V0, hinv, -⟩ := slabCacheCreate_spec (by decide) fresh_megabyte rfl hs (by decide)
  have hctor : ∀ f : Nat → Exec Flat Unit, none = some f →
      ∀ x, Leaves (Owned s.cache.objSize (granted 0 ++ granted 0x100000) (x :: [])) (f x) :=
    fun _ hf => nomatch hf
  obtain ⟨obj, s', -, halloc, -⟩ := slabAlloc_spec
    (s := SlabSys.serving ⟨s, granted 0x100000, []⟩ 0) ⟨hinv.layout, hinv.classified⟩ hsz
    (hle.mpr (by decide)) rfl (.inl rfl) hctor
  obtain ⟨r, hrun⟩ : ∃ r, Run (SlabStep s.cache.objSize) ⟨s, granted 0x100000, []⟩
      [.alloc 0 none obj] r :=
    ⟨_, .cons (.alloc (.inl rfl) hctor halloc) (.nil _)⟩
  obtain ⟨V, hlayout, -⟩ := slab_cache_invariant (by decide) fresh_megabyte rfl hs (by decide) hrun
  exact ⟨s, obj, r, V, hs, hrun, hlayout⟩

end Runs

end GosKernel.Slab
