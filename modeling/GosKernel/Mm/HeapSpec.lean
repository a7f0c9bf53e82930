import GosKernel.Mm.HeapFlat

/-!
# What the heap functions do

One specification per entry point, on private memory: the call returns, keeps the
heap well formed (`HeapInv`), and leaves every live allocation alone (`LiveKept`).
Failures of `pmm_alloc_page` are part of each statement: `heapExtend_spec` says when
the heap grows, and `AllocOutcome` has the failed call as one of its two cases.
-/

namespace GosKernel.Mm

open Linked Exec List Function Headers

/-! ## Growing the heap -/

/-- Do the next `n` calls of `pmm_alloc_page` succeed? -/
def serves : (n : Nat) → (supply : List Nat) → Bool
  | 0, _ => true
  | _ + 1, [] => false
  | n + 1, phys :: rest => decide (phys ≠ 0) && serves n rest

variable {G : PagedMachine Flat} (hG : OnPages G)

section

include hG

/-- The loop maps pages one after the other and touches nothing below them. The pages it gets
frames for must be in the range of the heap. -/
theorem heapExtendLoop_spec (n i : Nat) {e : Nat} (s : HeapState Flat)
    (he : s.heapEnd + i * 4096 = e) (hpage : e % 4096 = 0) (hlo : heapBase ≤ e)
    (hroom : ∀ k < n, serves (k + 1) s.mach.supply = true →
      e + k * 4096 < heapBase + heapMaxSize) :
    ∃ m, Returns (heapExtendLoop G n i) s (serves n s.mach.supply)
        { s with mach := m } ∧
      (∀ x, x < e → m.mem x = s.mach.mem x) ∧ (∀ x, s.mach.Mapped x → m.Mapped x) ∧
      (serves n s.mach.supply = true → ∀ x, e ≤ x → x < e + n * 4096 → m.Mapped x) := by
  induction n generalizing i e s with
  | zero => exact ⟨s.mach, rfl, fun _ _ => rfl, fun _ hx => hx, fun _ x hx hx' => by omega⟩
  | succ n ih =>
    have halloc : ∀ (phys : Nat) (m : Flat), Flat.allocPage s.mach = some (phys, m) →
        Returns (onMach G.pmmAllocPage) s phys { s with mach := m } := by
      intro phys m h
      rw [Returns, onMach, hG.alloc, h]
      rfl
    cases hsup : s.mach.supply with
    | nil =>
      refine ⟨s.mach, ?_, fun _ _ => rfl, fun _ hx => hx, fun hs => absurd hs Bool.false_ne_true⟩
      exact (halloc 0 s.mach (by simp [Flat.allocPage, hsup])).bind_eq.trans rfl
    | cons phys rest =>
      replace halloc := halloc phys { s.mach with supply := rest }
        (by simp [Flat.allocPage, hsup])
      by_cases hphys : phys = 0
      · refine ⟨{ s.mach with supply := rest }, ?_, fun _ _ => rfl, fun _ hx => hx, ?_⟩
        · rw [Returns, heapExtendLoop, halloc.bind_eq]
          simp [serves, hphys]
        · simp [serves, hphys]
      · -- the page is mapped at its place and the loop goes on behind it
        have hserves : serves (n + 1) (phys :: rest) = serves n rest := by simp [serves, hphys]
        rw [hsup] at hroom
        have hin : e < heapBase + heapMaxSize :=
          hroom 0 (Nat.succ_pos n) (by simp [serves, hphys])
        have hlimit : heapBase + heapMaxSize < 2 ^ 64 := by decide
        have hvirt : wrap64 (s.heapEnd + i * pageSize) = e :=
          (wrap64_of_lt (show s.heapEnd + i * 4096 < 2 ^ 64 by omega)).trans he
        obtain ⟨m, hrun, hmem, hold, hnew⟩ := ih (i + 1) (e := e + 4096)
          { s with mach := { s.mach with
            mem := s.mach.mem.overlay e 4096 (s.mach.frame phys)
            supply := rest
            mapped := Function.update s.mach.mapped e (some phys) } }
          (by rw [Nat.succ_mul, ← he, Nat.add_assoc]) (by omega) (by omega) fun k hk hs => by
            rw [Nat.add_assoc, Nat.add_comm 4096, ← Nat.succ_mul]
            refine hroom (k + 1) (Nat.succ_lt_succ hk) ?_
            rw [serves, decide_eq_true hphys, Bool.true_and]
            exact hs
        rw [hserves]
        refine ⟨m, ?_, fun x hx => ?_, fun x hx => hold x (Flat.mapped_update hx e phys),
          fun hs x hx hx' => ?_⟩
        · rw [Returns, heapExtendLoop, halloc.bind_eq, if_neg hphys, read_bind, hvirt,
            hG.map phys _ ⟨hpage, hlo, hin⟩]
          exact hrun
        · rw [hmem x (by omega)]
          exact if_neg (by omega)
        · by_cases hfirst : x < e + 4096
          · refine hold x ?_
            show (Function.update s.mach.mapped e (some phys) (x / 4096 * 4096)).isSome
            rw [show x / 4096 * 4096 = e by omega, Function.update_self]
            rfl
          · refine hnew hs x (not_lt.mp hfirst) (hx'.trans_eq ?_)
            rw [Nat.succ_mul, Nat.add_assoc, Nat.add_comm 4096]

/-- `heap_extend` raises the end of the heap if it gets all its pages, and leaves the
heap alone otherwise. -/
theorem heapExtend_spec (pages : Nat) (s : HeapState Flat) (hpage : s.heapEnd % 4096 = 0)
    (hlo : heapBase ≤ s.heapEnd)
    (hroom : s.heapEnd + pages * 4096 ≤ heapBase + heapMaxSize) :
    ∃ m, Returns (heapExtend G pages) s
        (if serves pages s.mach.supply then s.heapEnd else 0)
        { s with
          heapEnd := if serves pages s.mach.supply then s.heapEnd + pages * 4096 else s.heapEnd
          mach := m } ∧
      (∀ x, x < s.heapEnd → m.mem x = s.mach.mem x) ∧
      (∀ x, s.mach.Mapped x → m.Mapped x) ∧ (serves pages s.mach.supply = true →
        ∀ x, s.heapEnd ≤ x → x < s.heapEnd + pages * 4096 → m.Mapped x) := by
  have hlimit : heapBase + heapMaxSize < 2 ^ 64 := by decide
  obtain ⟨m, hrun, hmem, hold, hnew⟩ := heapExtendLoop_spec hG pages 0 s (by simp) hpage hlo
    fun k hk _ => lt_of_lt_of_le (by omega) hroom
  refine ⟨m, ?_, hmem, hold, hnew⟩
  rw [Returns, heapExtend, hrun.bind_eq]
  cases serves pages s.mach.supply with
  | false => rfl
  | true =>
    have hend : wrap64 (s.heapEnd + pages * pageSize) = s.heapEnd + pages * 4096 :=
      wrap64_of_lt (show s.heapEnd + pages * 4096 < 2 ^ 64 by omega)
    simp only [if_true, ← hend]
    rfl

end

/-! ## Rounding -/

theorem kmallocRound_spec {size : Nat} (hpos : 0 < size) (hmax : size ≤ heapMaxSize) :
    kmallocRound size % 16 = 0 ∧ size ≤ kmallocRound size ∧ kmallocRound size ≤ heapMaxSize ∧
      kmallocRound (kmallocRound size) = kmallocRound size := by
  unfold heapMaxSize at hmax ⊢
  unfold kmallocRound wrap64 heapBlockAlign
  omega

theorem kmallocPages_spec {size : Nat} (hmax : size ≤ heapMaxSize) :
    size + 32 ≤ kmallocPages size * 4096 ∧ kmallocPages size * 4096 < size + 32 + 4096 := by
  unfold heapMaxSize at hmax
  unfold kmallocPages wrap64 sizeofHeapBlock pageSize
  omega

/-! ## `kmalloc` -/

section

variable {s s' : HeapState Flat} {F : List Nat} {L : List Alloc}

theorem LiveKept.refl (s : HeapState Flat) (L : List Alloc) : LiveKept s s L :=
  fun _ _ => ByteMem.Agree.refl _ _ _

variable {a : Alloc} {b fuel newSize size : Nat}

theorem LiveKept.size_eq (h : LiveKept s s' L) (ha : a ∈ L) :
    headers s'.mach.mem a.block .size = headers s.mach.mem a.block .size :=
  headers_congr ((h a ha).mono le_rfl (by unfold sizeofHeapBlock; omega)) .size

theorem LiveKept.trans {s'' : HeapState Flat} (h : LiveKept s s' L) (h' : LiveKept s' s'' L) :
    LiveKept s s'' L := by
  intro a ha
  have hsize := h.size_eq ha
  have hkept := h' a ha
  rw [hsize] at hkept
  exact hkept.trans (h a ha)

/-- Memory beyond the end of the heap is of no concern. -/
theorem HeapShape.of_mem_eq {m : ByteMem} (h : HeapShape (headers s.mach.mem) heapBase s.heapEnd
      s.heapFreeList F L) (hmem : ∀ x, heapBase ≤ x → x < s.heapEnd → m x = s.mach.mem x) :
    HeapShape (headers m) heapBase s.heapEnd s.heapFreeList F L := by
  refine h.congr fun b hb f => headers_congr (fun x hlo hx => ?_) f
  have hbounds := h.bounds hb
  unfold sizeofHeapBlock at hbounds
  exact hmem x (by omega) (by omega)

section

variable (h : HeapInv s F L)
include h

theorem HeapInv.liveKept_of_mem_eq
    (hmem : ∀ x, x < s.heapEnd → s'.mach.mem x = s.mach.mem x) : LiveKept s s' L := by
  intro a ha x _ hx
  have := (h.shape.bounds (mem_append_right _ (mem_map_of_mem ha))).2
  exact hmem x (by omega)

theorem HeapInv.freeExtents_of_mem_eq
    (hmem : ∀ x, heapBase ≤ x → x < s.heapEnd → s'.mach.mem x = s.mach.mem x) :
    freeExtents s' F = freeExtents s F := by
  refine map_congr_left fun b hb => ?_
  obtain ⟨hlo, hhi⟩ := h.shape.bounds (mem_append_left _ hb)
  unfold sizeofHeapBlock at hhi
  unfold extent
  rw [headers_congr (fun x hx hx' => hmem x (by omega) (by omega)) .size]

theorem HeapInv.heapEnd_ne_zero : s.heapEnd ≠ 0 := by
  have hlo := h.shape.lo_le
  have hpos := h.shape.lo_pos
  omega

/-- What is mapped behind the heap does not concern it. -/
theorem HeapInv.of_mem_eq {m : Flat} (hmem : ∀ x, x < s.heapEnd → m.mem x = s.mach.mem x)
    (hmapped : ∀ x, s.mach.Mapped x → m.Mapped x) : HeapInv { s with mach := m } F L :=
  ⟨⟨h.start, h.max, h.end_le, h.end_page, fun x hx hx' => hmapped x (h.mapped x hx hx')⟩,
    h.shape.of_mem_eq fun x _ => hmem x⟩

section

include hG

/-- The heap is extended only as a whole: either `kmalloc` gives up, or it tries again
with a free block that is large enough in front of the list. -/
theorem kmallocGrow_spec (hal : size % 16 = 0) (hmax : size ≤ heapMaxSize) :
    (∃ s', (∀ again, Returns (kmallocGrow G size again) s 0 s') ∧ HeapInv s' F L ∧
      s'.heapEnd = s.heapEnd ∧ LiveKept s s' L ∧ freeExtents s' F = freeExtents s F) ∨
    ∃ s', (∀ again, kmallocGrow G size again s = again s') ∧
      HeapInv s' (s.heapEnd :: F) L ∧ LiveKept s s' L ∧
      size ≤ headers s'.mach.mem s.heapEnd .size := by
  obtain ⟨hpages, hpages'⟩ := kmallocPages_spec hmax
  generalize hp : kmallocPages size = pages at hpages hpages'
  have hend := h.end_le
  have hlo := h.shape.lo_le
  have hbase : heapBase = 0xFFFFFFFF80400000 := rfl
  have hsize : heapMaxSize = 0x4000000 := rfl
  have hwrap : wrap64 (s.heapEnd + pages * pageSize) = s.heapEnd + pages * 4096 :=
    wrap64_of_lt (show s.heapEnd + pages * 4096 < 2 ^ 64 by omega)
  unfold kmallocGrow
  rw [hp]
  by_cases hroom : s.heapMax < s.heapEnd + pages * 4096
  · refine .inl ⟨s, fun again => ?_, h, rfl, LiveKept.refl s L, rfl⟩
    rw [Returns, read_id_bind, hwrap, if_pos hroom]
    rfl
  have hpage := h.end_page
  have hmax' := h.max
  obtain ⟨m, hext, hmem, hold, hnew⟩ := heapExtend_spec hG pages s hpage hlo (by omega)
  cases hserves : serves pages s.mach.supply with
  | false =>
    rw [hserves] at hext
    have hext' : Returns (heapExtend G pages) s 0 { s with mach := m } := hext
    refine .inl ⟨_, fun again => ?_, h.of_mem_eq hmem hold, rfl, h.liveKept_of_mem_eq hmem,
      h.freeExtents_of_mem_eq fun x _ => hmem x⟩
    rw [Returns, read_id_bind, hwrap, if_neg hroom, hext'.bind_eq]
    rfl
  | true =>
    rw [hserves] at hext
    have hext' : Returns (heapExtend G pages) s s.heapEnd
        { s with heapEnd := s.heapEnd + pages * 4096, mach := m } := hext
    have hb : HeapBounds { s with heapEnd := s.heapEnd + pages * 4096, mach := m } := by
      refine ⟨h.start, h.max, ?_, ?_, fun x hx hx' => ?_⟩
      · dsimp only; omega
      · dsimp only; omega
      · by_cases hbelow : x < s.heapEnd
        · exact hold x (h.mapped x hx hbelow)
        · exact hnew hserves x (by omega) hx'
    obtain ⟨s', hadd, hinv, hkept, hsize⟩ :=
      kmallocAddBlock_spec hG hb (h.shape.of_mem_eq fun x _ => hmem x) rfl (by omega)
    refine .inr ⟨s', fun again => ?_, hinv, LiveKept.trans (h.liveKept_of_mem_eq hmem) hkept,
      by omega⟩
    rw [read_id_bind, hwrap, if_neg hroom, hext'.bind_eq, if_neg (by omega), hadd.bind_eq]

/-- `kmalloc` searches the free list for the rounded size. -/
theorem kmallocBody_eq (hpos : 0 < size) (hfuel : F.length < fuel) (again : Exec (HeapState Flat) Nat) :
    kmallocBody G fuel size again s =
      match F.find? fun b => kmallocRound size ≤ headers s.mach.mem b .size with
      | none => kmallocGrow G (kmallocRound size) again s
      | some b => kmallocTake G b (kmallocRound size) s := by
  have hscan := kmallocScan_eq hG (kmallocRound size) (fun b hb => h.reached b (mem_append_left _ hb))
    h.shape.links.sseg (fun b hb => h.shape.ne_zero (mem_append_left _ hb)) h.shape.free hfuel
  rw [kmallocBody, if_neg hpos.ne', read_bind, h.shape.head_eq, bind_apply, hscan]
  cases F.find? fun b => kmallocRound size ≤ headers s.mach.mem b .size with
  | none => rfl
  | some b =>
    dsimp only
    rw [map_apply]
    cases kmallocTake G b (kmallocRound size) s <;> rfl

theorem kmalloc_converges_iff (hpos : 0 < size) {r : Nat} :
    Converges (kmalloc G · size) s r s' ↔
      match F.find? fun b => kmallocRound size ≤ headers s.mach.mem b .size with
      | none => Converges (fun fuel => kmallocGrow G (kmallocRound size)
          (kmalloc G fuel (kmallocRound size))) s r s'
      | some b => Returns (kmallocTake G b (kmallocRound size)) s r s' := by
  have heq : ∀ fuel, F.length + 1 ≤ fuel → kmalloc G (fuel + 1) size s = _ := fun fuel hfuel =>
    kmallocBody_eq hG h hpos hfuel (kmalloc G fuel (kmallocRound size))
  cases hfind : F.find? fun b => kmallocRound size ≤ headers s.mach.mem b .size with
  | none =>
    rw [hfind] at heq
    exact converges_succ_iff heq
  | some b =>
    rw [hfind] at heq
    refine (converges_succ_iff (d := fun _ => _) heq).trans ⟨?_, Returns.converges⟩
    rintro ⟨n, hn⟩
    exact hn n le_rfl

theorem kmalloc_of_grow (hpos : 0 < size)
    (hfind : (F.find? fun b => kmallocRound size ≤ headers s.mach.mem b .size) = none) {r : Nat}
    (hgrow : Converges (fun fuel => kmallocGrow G (kmallocRound size)
      (kmalloc G fuel (kmallocRound size))) s r s') :
    Converges (kmalloc G · size) s r s' := by
  rw [kmalloc_converges_iff hG h hpos, hfind]
  exact hgrow

/-- The first block that fits is handed out. -/
theorem kmalloc_of_find (hpos : 0 < size) (hmax : size ≤ heapMaxSize)
    (hfind : (F.find? fun b => kmallocRound size ≤ headers s.mach.mem b .size) = some b) {r : Nat}
    (hr : r ≤ kmallocRound size) :
    ∃ s' F', Converges (kmalloc G · size) s (b + sizeofHeapBlock) s' ∧
      HeapInv s' F' (⟨b, r⟩ :: L) ∧ LiveKept s s' L ∧
      Taken (freeExtents s F) (freeExtents s' F') := by
  obtain ⟨hal, -⟩ := kmallocRound_spec hpos hmax
  have hfit : kmallocRound size ≤ headers s.mach.mem b .size := by
    simpa using find?_some hfind
  obtain ⟨F1, F2, rfl⟩ := append_of_mem (mem_of_find?_eq_some hfind)
  obtain ⟨s', F', hrun, hinv, hkept, -, htaken⟩ := kmallocTake_spec hG h hal hfit hr
  refine ⟨s', F', (kmalloc_converges_iff hG h hpos).mpr ?_, hinv, hkept, htaken⟩
  rw [hfind]
  exact hrun

omit hG h in
/-- What an allocation of `size` bytes may leave behind: it failed and there are the
same blocks as before, or it returned a block of its own. -/
def AllocOutcome (F : List Nat) (L L' : List Alloc) (size r : Nat) (s' : HeapState Flat) : Prop :=
  (r = 0 ∧ HeapInv s' F L) ∨
    ∃ b F', r = b + sizeofHeapBlock ∧ HeapInv s' F' (⟨b, size⟩ :: L')

/-- **`kmalloc` keeps the heap well formed**: it returns, and either fails and changes
no block, or hands out a block of its own. -/
theorem kmalloc_spec (hpos : 0 < size) (hmax : size ≤ heapMaxSize) :
    ∃ r s', Converges (kmalloc G · size) s r s' ∧ LiveKept s s' L ∧
      AllocOutcome F L L size r s' := by
  obtain ⟨hal, hle, hmax', hidem⟩ := kmallocRound_spec hpos hmax
  cases hfind : F.find? fun b => kmallocRound size ≤ headers s.mach.mem b .size with
  | some b =>
    obtain ⟨s', F', hrun, hinv, hkept, -⟩ := kmalloc_of_find hG h hpos hmax hfind hle
    exact ⟨_, s', hrun, hkept, .inr ⟨b, F', rfl, hinv⟩⟩
  | none =>
    rcases kmallocGrow_spec hG h hal hmax' with ⟨s', hrun, hinv, -, hkept, -⟩ |
      ⟨s1, hrun, hinv, hkept, hfit⟩
    · exact ⟨0, s', kmalloc_of_grow hG h hpos hfind ⟨0, fun _ _ => hrun _⟩, hkept, .inl ⟨rfl, hinv⟩⟩
    · -- the recursive call finds the new block in front
      have hfind1 : ((s.heapEnd :: F).find? fun b =>
          kmallocRound (kmallocRound size) ≤ headers s1.mach.mem b .size) = some s.heapEnd := by
        rw [hidem, find?_cons_of_pos (by simpa using hfit)]
      obtain ⟨s', F', ⟨n, hn⟩, hinv', hkept', -⟩ := kmalloc_of_find hG hinv (by omega) hmax' hfind1
        (hle.trans hidem.ge)
      exact ⟨_, s', kmalloc_of_grow hG h hpos hfind ⟨n, fun fuel hfuel => (hrun _).trans (hn fuel hfuel)⟩,
        hkept.trans hkept', .inr ⟨s.heapEnd, F', rfl, hinv'⟩⟩

end

/-! ## `kfree` -/

/-- The header of a live pointer. -/
theorem HeapInv.header_of_live (ha : a ∈ L) :
    a.ptr ≠ 0 ∧ sub64 a.ptr sizeofHeapBlock = a.block ∧
      headers s.mach.mem a.block .magic = heapMagicUsed ∧ Reached s a.block := by
  obtain ⟨hlo, hhi⟩ := h.range (mem_append_right F (mem_map_of_mem ha))
  unfold Alloc.ptr sizeofHeapBlock
  refine ⟨by omega, ?_, (h.shape.used a ha).1,
    h.reached _ (mem_append_right F (mem_map_of_mem ha))⟩
  rw [sub64_of_le (by omega) (by omega)]
  omega

end

section

variable (h : HeapInv s F (a :: L))
include h

theorem HeapInv.live_ne {c : Alloc} (hc : c ∈ L) : a.block ≠ c.block := by
  have hnd := (HeapShape.blocks_live_perm F L a).nodup_iff.mp h.shape.nodup
  intro heq
  refine (nodup_cons.mp hnd).1 ?_
  rw [heq]
  exact mem_append_right _ (mem_map_of_mem hc)

section

include hG

/-- `kfree` of a live pointer puts its block in front of the list, and then looks at the second
one. -/
theorem kfree_push :
    ∃ s1, kfree G a.ptr s =
        (heapCoalesce G a.block >>= fun _ => pure ()) s1 ∧
      HeapAt s (blocks F (a :: L)) (a.block :: F)
        (((headers s.mach.mem).set a.block .magic heapMagicFree).push a.block s.heapFreeList)
        a.block s1 ∧
      HeapInv s1 (a.block :: F) L := by
  obtain ⟨hptr, hblock, hmagic, hreach⟩ := h.header_of_live mem_cons_self
  have hperm := HeapShape.blocks_live_perm F L a
  have ha : a.block ∈ blocks F (a :: L) := hperm.mem_iff.mpr mem_cons_self
  obtain ⟨hlo, hhi⟩ := h.range ha
  have hWH : a.block :: F ⊆ blocks F (a :: L) := fun x hx => by
    rcases mem_cons.mp hx with rfl | hx
    · exact ha
    · exact mem_append_left _ hx
  have hhead : s.heapFreeList < 2 ^ 64 := by
    by_cases hne : s.heapFreeList = 0
    · omega
    · have := h.range (mem_append_left _ (h.shape.head_mem hne))
      omega
  have hpush : Triple (HeapAt s (blocks F (a :: L)) (a.block :: F) (headers s.mach.mem)
      s.heapFreeList) (setField G a.block .magic heapMagicFree >>= fun _ =>
        pushFreeList G a.block) fun _ s' =>
      HeapAt s (blocks F (a :: L)) (a.block :: F)
        (((headers s.mach.mem).set a.block .magic heapMagicFree).push a.block s.heapFreeList)
        a.block s' :=
    (setField_at hG h.shape.spaced hWH mem_cons_self (by decide)).seq
      (pushFreeList_at hG h.shape.spaced hWH mem_cons_self (by omega) hhead
        fun hne => mem_cons_of_mem _ (h.shape.head_mem hne))
  obtain ⟨⟨⟩, s1, hrun1, hat⟩ := hpush s (heapAt_self h.reached _)
  refine ⟨s1, ?_, hat,
    hat.inv h.toHeapBounds h.shape.free_live fun x hx => hperm.mem_iff.mpr hx⟩
  obtain ⟨⟨⟩, s0, hset, hpush⟩ := returns_bind hrun1
  rw [kfree, if_neg hptr, hblock, getField_bind hG hreach,
    hmagic, if_neg (by simp), hset.bind_eq, hpush.bind_eq]

omit hG h in
theorem HeapAt.size_push {s1 : HeapState Flat} (hat : HeapAt s (blocks F (a :: L)) (a.block :: F)
      (((headers s.mach.mem).set a.block .magic heapMagicFree).push a.block s.heapFreeList)
      a.block s1) {x : Nat} (hx : x ∈ a.block :: F) :
    headers s1.mach.mem x .size = headers s.mach.mem x .size := by
  have hmem : x ∈ blocks F (a :: L) :=
    (HeapShape.blocks_live_perm F L a).mem_iff.mpr (mem_cons.mpr
      ((mem_cons.mp hx).imp_right (mem_append_left _)))
  rw [hat.view x hmem]
  simp [Headers.push, set_of_field_ne, setIf_of_field_ne]

/-- **`kfree` keeps the heap well formed.** -/
theorem kfree_spec :
    ∃ s' F', Returns (kfree G a.ptr) s () s' ∧ HeapInv s' F' L ∧
      LiveKept s s' L ∧ s'.heapEnd = s.heapEnd ∧
      Coalesced ((headers s.mach.mem).extent a.block :: freeExtents s F) (freeExtents s' F') := by
  obtain ⟨s1, hrun1, hat, hinv1⟩ := kfree_push hG h
  have ha : a.block ∈ blocks F (a :: L) :=
    (HeapShape.blocks_live_perm F L a).mem_iff.mpr mem_cons_self
  have hkept1 : LiveKept s s1 L := hat.liveKept fun w hw c hc => by
    rcases mem_cons.mp hw with rfl | hw
    · have := h.shape.apart ha
        (mem_append_right _ (mem_map_of_mem (mem_cons_of_mem _ hc))) (h.live_ne hc)
      unfold sizeofHeapBlock at this ⊢
      omega
    · exact h.shape.free_apart hw (mem_cons_of_mem _ hc)
  have hE : freeExtents s1 (a.block :: F) =
      (headers s.mach.mem).extent a.block :: freeExtents s F := by
    refine map_congr_left fun x hx => ?_
    unfold extent
    rw [hat.size_push hx]
  obtain ⟨s', F', hrun2, hinv2, hkept2, hcoal, hend2⟩ := heapCoalesce_spec hG hinv1
  rw [hE] at hcoal
  refine ⟨s', F', ?_, hinv2, hkept1.trans hkept2, hend2.trans hat.heapEnd_eq, hcoal⟩
  rw [Returns, hrun1, hrun2.bind_eq]
  rfl

end

/-! ## Writes into payloads -/

omit h in
/-- Only the payload of `a` differs between the two states. -/
structure PayloadWrite (a : Alloc) (s s' : HeapState Flat) : Prop where
  rest : s' = { s with mach := { s.mach with mem := s'.mach.mem } }
  mem : ∀ x, x < a.ptr ∨ a.ptr + headers s.mach.mem a.block .size ≤ x →
    s'.mach.mem x = s.mach.mem x

omit h in
/-- A payload write leaves header and payload of every other block alone. -/
theorem HeapInv.agree_of_write (h : HeapInv s F L) (ha : a ∈ L)
    (hw : PayloadWrite a s s') (hb : b ∈ blocks F L) (hne : b ≠ a.block) :
    ByteMem.Agree s'.mach.mem s.mach.mem b (sizeofHeapBlock + headers s.mach.mem b .size) := by
  intro x hlo hhi
  have := h.shape.apart hb (mem_append_right F (mem_map_of_mem ha)) hne
  unfold sizeofHeapBlock at this hhi
  refine hw.mem x ?_
  unfold Alloc.ptr sizeofHeapBlock
  omega

omit h in
theorem HeapInv.headers_of_write (h : HeapInv s F L) (ha : a ∈ L)
    (hw : PayloadWrite a s s') (hb : b ∈ blocks F L) (f : HeapField) :
    headers s'.mach.mem b f = headers s.mach.mem b f := by
  refine headers_congr (fun x hlo hhi => ?_) f
  by_cases hne : b = a.block
  · refine hw.mem x (.inl ?_)
    unfold Alloc.ptr sizeofHeapBlock
    omega
  · exact h.agree_of_write ha hw hb hne x hlo (by unfold sizeofHeapBlock; omega)

omit h in
/-- Callers that stay inside their payloads do not disturb the heap. -/
theorem HeapInv.write (h : HeapInv s F L) (ha : a ∈ L) (hw : PayloadWrite a s s') :
    HeapInv s' F L := by
  rw [hw.rest]
  exact ⟨⟨h.start, h.max, h.end_le, h.end_page, h.mapped⟩,
    h.shape.congr fun b hb f => h.headers_of_write ha hw hb f⟩

theorem HeapInv.liveKept_of_write (hw : PayloadWrite a s s') : LiveKept s s' L := fun _ hc =>
  h.agree_of_write mem_cons_self hw
    (mem_append_right F (mem_map_of_mem (mem_cons_of_mem _ hc))) (h.live_ne hc).symm

omit h in
/-- The payload of a live allocation lies in mapped pages. -/
theorem HeapInv.payload_mapped (h : HeapInv s F L) (ha : a ∈ L) {x : Nat} (hlo : a.ptr ≤ x)
    (hhi : x < a.ptr + headers s.mach.mem a.block .size) : s.mach.Mapped x := by
  have hrange := h.shape.bounds (mem_append_right F (mem_map_of_mem ha))
  unfold Alloc.ptr at hlo hhi
  exact h.mapped x (by omega) (by omega)

section

include hG

omit h in
/-- The loop of `kzalloc` writes `[ptr + i, ptr + i + n)`. -/
theorem kzallocLoop_spec (ptr n i : Nat) (s : HeapState Flat)
    (hmapped : ∀ x, ptr + i ≤ x → x < ptr + i + n → s.mach.Mapped x) :
    ∃ s', Returns (kzallocLoop G ptr n i) s () s' ∧
      s' = { s with mach := { s.mach with mem := s'.mach.mem } } ∧
      ∀ x, x < ptr + i ∨ ptr + i + n ≤ x → s'.mach.mem x = s.mach.mem x := by
  induction n generalizing i s with
  | zero => exact ⟨s, rfl, rfl, fun _ _ => rfl⟩
  | succ n ih =>
    obtain ⟨s', hrun, hrest, hmem⟩ := ih (i + 1)
      { s with mach := { s.mach with mem := Function.update s.mach.mem (ptr + i) 0 } }
      fun x hx hx' => hmapped x (by omega) (by omega)
    refine ⟨s', ?_, hrest, fun x hx => ?_⟩
    · rw [Returns, kzallocLoop, bind_apply, onMach, hG.store8 0 (hmapped _ (by omega) (by omega))]
      exact hrun
    · rw [hmem x (by omega)]
      exact update_of_ne (by omega) _ _

omit h in
/-- The copy loop of `krealloc` copies to `[dst + i, dst + n)`, where `n` is the size of
the block copied from. -/
theorem kreallocCopy_spec {block src dst n : Nat} (hfar : ∀ x, block ≤ x → x < block + 32 →
      x < dst ∨ dst + n ≤ x) (hsrc : src + n ≤ dst ∨ dst + n ≤ src) (k i : Nat) (hk : k = n - i)
    (hi : i ≤ n) (s : HeapState Flat) (hn : headers s.mach.mem block .size = n)
    (hblock : Reached s block) (hsm : ∀ j < n, s.mach.Mapped (src + j))
    (hdm : ∀ j < n, s.mach.Mapped (dst + j)) :
    ∃ s', (∀ fuel, k < fuel →
        Returns (kreallocCopy G block src dst fuel i) s () s') ∧
      s' = { s with mach := { s.mach with mem := s'.mach.mem } } ∧
      (∀ x, x < dst + i ∨ dst + n ≤ x → s'.mach.mem x = s.mach.mem x) ∧
      ∀ j, i ≤ j → j < n → s'.mach.mem (dst + j) = s.mach.mem (src + j) := by
  induction k generalizing i s with
  | zero =>
    refine ⟨s, fun fuel hfuel => ?_, rfl, fun _ _ => rfl, fun j hlo hhi => by omega⟩
    obtain ⟨fuel, rfl⟩ := fuel_succ hfuel
    rw [Returns, kreallocCopy, getField_bind hG hblock, if_neg (by omega)]
    rfl
  | succ k ih =>
    -- the byte written is outside the header of `block`, whose size is read again
    have hn' : headers (Function.update s.mach.mem (dst + i) (s.mach.mem (src + i))) block .size
        = n := by
      rw [← hn]
      refine headers_congr (fun x hlo hhi => ?_) .size
      have := hfar x hlo hhi
      exact update_of_ne (by omega) _ _
    obtain ⟨s', hrun, hrest, hmem, hcopy⟩ := ih (i + 1) (by omega) (by omega)
      { s with mach := { s.mach with
        mem := Function.update s.mach.mem (dst + i) (s.mach.mem (src + i)) } } hn' hblock hsm hdm
    refine ⟨s', fun fuel hfuel => ?_, hrest, fun x hx => ?_, fun j hlo hhi => ?_⟩
    · obtain ⟨fuel, rfl⟩ := fuel_succ hfuel
      rw [Returns, kreallocCopy, getField_bind hG hblock, if_pos (by omega), bind_apply, onMach,
        hG.load8 (hsm i (by omega)), Option.map_some, Option.bind_some, bind_apply, onMach,
        hG.store8 _ (hdm i (by omega))]
      exact hrun fuel (by omega)
    · rw [hmem x (by omega)]
      exact update_of_ne (by omega) _ _
    · rcases Nat.eq_or_lt_of_le hlo with rfl | hlt
      · rw [hmem _ (by omega)]
        exact update_self _ _ _
      · rw [hcopy j hlt hhi]
        exact update_of_ne (by omega) _ _

/-! ## `kzalloc` and `krealloc` -/

omit h in
/-- **`kzalloc` keeps the heap well formed.** -/
theorem kzalloc_spec (h : HeapInv s F L) (hpos : 0 < size) (hmax : size ≤ heapMaxSize) :
    ∃ r s', Converges (kzalloc G · size) s r s' ∧ LiveKept s s' L ∧
      AllocOutcome F L L size r s' := by
  obtain ⟨r, s1, ⟨n, hrun⟩, hkept, hcase⟩ := kmalloc_spec hG h hpos hmax
  rcases hcase with ⟨rfl, hinv⟩ | ⟨b, F', rfl, hinv⟩
  · exact ⟨0, s1, ⟨n, fun fuel hfuel => (hrun fuel hfuel).bind_eq⟩, hkept,
      .inl ⟨rfl, hinv⟩⟩
  · have hsize : size ≤ headers s1.mach.mem b .size := (hinv.shape.used _ mem_cons_self).2
    obtain ⟨s', hloop, hrest, hmem⟩ := kzallocLoop_spec hG (b + sizeofHeapBlock) size 0 s1
      fun x hx hx' => hinv.payload_mapped mem_cons_self (by exact hx)
        (show x < b + sizeofHeapBlock + headers s1.mach.mem b .size by omega)
    have hw : PayloadWrite ⟨b, size⟩ s1 s' := by
      refine ⟨hrest, fun x hx => hmem x ?_⟩
      have hx' : x < b + sizeofHeapBlock ∨
        b + sizeofHeapBlock + headers s1.mach.mem b .size ≤ x := hx
      omega
    refine ⟨_, s', ⟨n, fun fuel hfuel => ?_⟩, hkept.trans (hinv.liveKept_of_write hw),
      .inr ⟨b, F', rfl, hinv.write mem_cons_self hw⟩⟩
    show kzalloc G fuel size s = _
    rw [kzalloc, (hrun fuel hfuel).bind_eq, if_pos (ptr_ne_zero b), hloop.bind_eq]
    rfl

omit h in
/-- Copying the payload of the live allocation `a` into a larger live one. -/
theorem kreallocCopy_live {c : Alloc} (h : HeapInv s F (c :: a :: L))
    (hlt : headers s.mach.mem a.block .size ≤ headers s.mach.mem c.block .size) :
    ∃ s', (∀ fuel, headers s.mach.mem a.block .size < fuel →
        Returns (kreallocCopy G a.block a.ptr c.ptr fuel 0) s () s') ∧
      PayloadWrite c s s' ∧
      (∀ j, j < headers s.mach.mem a.block .size →
        s'.mach.mem (c.ptr + j) = s.mach.mem (a.ptr + j)) ∧
      ∀ x, c.ptr + headers s.mach.mem a.block .size ≤ x → s'.mach.mem x = s.mach.mem x := by
  have happ := h.shape.apart (mem_append_right F mem_cons_self)
    (mem_append_right F (mem_cons_of_mem _ mem_cons_self))
    (h.live_ne mem_cons_self)
  have hfar : ∀ x, a.block ≤ x → x < a.block + 32 →
      x < c.ptr ∨ c.ptr + headers s.mach.mem a.block .size ≤ x := by
    unfold sizeofHeapBlock at happ
    unfold Alloc.ptr sizeofHeapBlock
    omega
  have hsrc : a.ptr + headers s.mach.mem a.block .size ≤ c.ptr ∨
      c.ptr + headers s.mach.mem a.block .size ≤ a.ptr := by
    unfold Alloc.ptr
    omega
  obtain ⟨s', hrun, hrest, hmem, hcopy⟩ :=
    kreallocCopy_spec hG hfar hsrc _ 0 rfl (Nat.zero_le _) s rfl
      (h.reached _ (mem_append_right F (by simp)))
      (fun j hj => h.payload_mapped (a := a) (by simp) (by omega) (by omega))
      fun j hj => h.payload_mapped (a := c) (by simp) (by omega) (by omega)
  exact ⟨s', hrun, ⟨hrest, fun x hx => hmem x (by omega)⟩, fun j => hcopy j (Nat.zero_le j),
    fun x hx => hmem x (.inr hx)⟩

/-- `krealloc` of a live pointer, past its checks. -/
theorem krealloc_eq (hpos : 0 < newSize) :
    krealloc G fuel a.ptr newSize s =
      (if newSize ≤ headers s.mach.mem a.block .size then pure a.ptr
        else do
          let newPtr ← kmalloc G fuel newSize
          if newPtr = 0 then pure 0
          else do
            kreallocCopy G a.block a.ptr newPtr fuel 0
            kfree G a.ptr
            pure newPtr) s := by
  obtain ⟨hptr, hblock, hmagic, hreach⟩ := h.header_of_live mem_cons_self
  rw [krealloc, if_neg hptr, if_neg (by omega), hblock, getField_bind hG hreach, hmagic,
    if_neg (by simp), getField_bind hG hreach]

/-- `krealloc` by way of a new block: allocate, copy, free. -/
theorem krealloc_moved {n m : Nat} {s1 s2 : HeapState Flat} (hpos : 0 < newSize)
    (hsmall : ¬ newSize ≤ headers s.mach.mem a.block .size) (hmalloc : ∀ fuel, n ≤ fuel →
      Returns (kmalloc G fuel newSize) s (b + sizeofHeapBlock) s1)
    (hcopy : ∀ fuel, m < fuel → Returns (kreallocCopy G a.block a.ptr
      (b + sizeofHeapBlock) fuel 0) s1 () s2)
    (hfree : Returns (kfree G a.ptr) s2 () s') :
    Converges (krealloc G · a.ptr newSize) s (b + sizeofHeapBlock) s' := by
  refine ⟨n + m + 1, fun fuel hfuel => ?_⟩
  show krealloc G fuel a.ptr newSize s = _
  rw [krealloc_eq hG h hpos, if_neg hsmall, (hmalloc fuel (by omega)).bind_eq,
    if_neg (ptr_ne_zero b), (hcopy fuel (by omega)).bind_eq, hfree.bind_eq]
  rfl

omit hG h in
/-- A block that was freed stays the start of a free block. -/
theorem HeapInv.freed_magic {e : Nat} {E : List (Nat × Nat)} (h : HeapInv s F L)
    (hcoal : Coalesced ((b, e) :: E) (freeExtents s F)) :
    headers s.mach.mem b .magic = heapMagicFree := by
  have hmem : ∃ e', (b, e') ∈ freeExtents s F := by
    generalize freeExtents s F = E' at hcoal
    cases hcoal with
    | merge E => exact ⟨_, mem_cons_self⟩
    | apart hne => exact ⟨_, mem_cons_self⟩
  obtain ⟨e', hmem⟩ := hmem
  obtain ⟨c, hc, heq⟩ := mem_map.mp hmem
  have hcb : c = b := congrArg Prod.fst heq
  rw [← hcb]
  exact h.shape.free c hc

/-- **`krealloc` keeps the heap well formed**, for a live pointer and a positive size. The
old payload is found again at the new pointer, and the old block is free if that is
another one; a call that fails keeps the old allocation. -/
theorem krealloc_spec (hpos : 0 < newSize) (hmax : newSize ≤ heapMaxSize) :
    ∃ r s', Converges (krealloc G · a.ptr newSize) s r s' ∧ LiveKept s s' L ∧
      AllocOutcome F (a :: L) L newSize r s' ∧
      (r ≠ 0 → ∀ j, j < headers s.mach.mem a.block .size →
        s'.mach.mem (r + j) = s.mach.mem (a.ptr + j)) ∧
      (r ≠ 0 → r ≠ a.ptr → headers s'.mach.mem a.block .magic = heapMagicFree) ∧
      (r = 0 → LiveKept s s' (a :: L)) := by
  by_cases hfit : newSize ≤ headers s.mach.mem a.block .size
  · refine ⟨a.ptr, s, ⟨0, fun fuel _ => ?_⟩, LiveKept.refl s L,
      .inr ⟨a.block, F, rfl, h.toHeapBounds, h.shape.request hfit⟩, fun _ j _ => rfl,
      fun _ hne => absurd rfl hne, fun _ => LiveKept.refl s _⟩
    show krealloc G fuel a.ptr newSize s = _
    rw [krealloc_eq hG h hpos, if_pos hfit]
    rfl
  obtain ⟨r, s1, ⟨n, hrun⟩, hkept, hcase⟩ := kmalloc_spec hG h hpos hmax
  have hkeptL : LiveKept s s1 L := fun c hc => hkept c (mem_cons_of_mem _ hc)
  rcases hcase with ⟨rfl, hinv⟩ | ⟨b, F', rfl, hinv⟩
  · refine ⟨0, s1, ⟨n, fun fuel hfuel => ?_⟩, hkeptL, .inl ⟨rfl, hinv⟩,
      fun hne => absurd rfl hne, fun hne => absurd rfl hne, fun _ => hkept⟩
    show krealloc G fuel a.ptr newSize s = _
    rw [krealloc_eq hG h hpos, if_neg hfit, (hrun fuel hfuel).bind_eq]
    rfl
  · -- copy, then free the old block
    have hb : newSize ≤ headers s1.mach.mem b .size := (hinv.shape.used _ mem_cons_self).2
    have hsize := hkept.size_eq (mem_cons_self (a := a))
    obtain ⟨s2, hcopy, hw, hbytes, -⟩ := kreallocCopy_live hG hinv
      (show headers s1.mach.mem a.block .size ≤ headers s1.mach.mem b .size by omega)
    have hinv2 := hinv.write mem_cons_self hw
    have hswap : HeapInv s2 F' (a :: ⟨b, newSize⟩ :: L) :=
      ⟨hinv2.toHeapBounds, hinv2.shape.perm (List.Perm.swap _ _ _)⟩
    obtain ⟨s', F'', hfree, hinv', hkept', -, hcoal⟩ := kfree_spec hG hswap
    refine ⟨_, s', krealloc_moved hG h hpos hfit hrun hcopy hfree, ?_, .inr ⟨b, F'', rfl, hinv'⟩,
      fun _ j hj => ?_, fun _ _ => hinv'.freed_magic hcoal, fun h0 => absurd h0 (ptr_ne_zero b)⟩
    · have hkept2 : LiveKept s1 s2 L := fun c hc =>
        hinv.liveKept_of_write hw c (mem_cons_of_mem _ hc)
      exact (hkeptL.trans hkept2).trans fun c hc => hkept' c (mem_cons_of_mem _ hc)
    · -- neither `kfree` nor `kmalloc` touched the payloads
      have hb2 : newSize ≤ headers s2.mach.mem b .size := (hinv2.shape.used _ mem_cons_self).2
      calc s'.mach.mem (b + sizeofHeapBlock + j)
          = s2.mach.mem (b + sizeofHeapBlock + j) :=
            hkept' ⟨b, newSize⟩ mem_cons_self _ (by dsimp only; omega) (by dsimp only; omega)
        _ = s1.mach.mem (a.ptr + j) := hbytes j (by omega)
        _ = s.mach.mem (a.ptr + j) :=
            hkept a mem_cons_self _ (by unfold Alloc.ptr; omega) (by unfold Alloc.ptr; omega)

end

end

/-! ## `heap_init` and `ksize` -/

/-- The heap of one free block. -/
theorem heapShape_single {φ : Headers} {lo : Nat} (hlo : 0 < lo) (hal : lo % 16 = 0)
    (hsz : size % 16 = 0) :
    HeapShape ((((φ.set lo .magic heapMagicFree).set lo .size size).set lo .next 0).set lo .prev 0)
      lo (lo + sizeofHeapBlock + size) lo [lo] [] := by
  have hsize : ((((φ.set lo .magic heapMagicFree).set lo .size size).set lo .next 0).set lo
      .prev 0) lo .size = size := by
    simp [set_apply]
  have h32 : sizeofHeapBlock = 32 := rfl
  refine ⟨hlo, by omega, ?_, fun b hb => ?_, ⟨?_, ?_, trivial⟩, rfl, fun b hb => ?_,
    fun a ha => absurd ha not_mem_nil⟩
  · show Partition lo _ [extent _ lo]
    unfold extent
    rw [hsize]
    exact Partition.single (by omega)
  · have hb' : b = lo := by simpa [blocks] using hb
    rw [hb', hsize]
    exact ⟨hal, hsz⟩
  · simp [set_apply]
  · simp [set_apply]
  · rw [mem_singleton.mp hb]
    simp [set_apply]

section

include hG

/-- `heap_init` makes all of the initial pages one free block; it halts if it does not
get them. -/
theorem heapInit_spec (s : HeapState Flat) :
    (serves 512 s.mach.supply = true →
      ∃ s', Returns (heapInit G) s () s' ∧ HeapInv s' [heapBase] []) ∧
    (serves 512 s.mach.supply = false → heapInit G s = none) := by
  obtain ⟨s0, hs0⟩ : ∃ s0, s0 = { s with
      heapStart := heapBase
      heapEnd := heapBase
      heapMax := heapBase + heapMaxSize } := ⟨_, rfl⟩
  have hinit : heapInit G s = (heapExtend G 512 >>= fun mem =>
      if mem = 0 then stop else Exec.read HeapState.heapStart >>= heapInitBlock G) s0 := by
    rw [hs0, heapInit]
    rfl
  obtain ⟨m, hext, -, -, hnew⟩ := heapExtend_spec hG 512 s0
    (hs0 ▸ (show heapBase % 4096 = 0 by decide)) (hs0 ▸ le_refl heapBase)
    (hs0 ▸ (show heapBase + 512 * 4096 ≤ heapBase + heapMaxSize by decide))
  rw [hext.bind_eq] at hinit
  subst hs0
  constructor
  · intro hserves
    have hend : heapBase + 512 * 4096 ≤ heapBase + heapMaxSize ∧
      (heapBase + 512 * 4096) % 4096 = 0 := by decide
    have hreach : ∀ b ∈ [heapBase], Reached ⟨heapBase, heapBase + 512 * 4096,
        heapBase + heapMaxSize, s.heapFreeList, m⟩ b := fun b hb => by
      rw [mem_singleton.mp hb]
      exact ⟨by decide, fun y hy hy' => hnew hserves y hy (hy'.trans
        (show heapBase + 32 < heapBase + 512 * 4096 by decide))⟩
    obtain ⟨⟨⟩, s', hrun, hat⟩ := heapInitBlock_at hG (spaced_singleton heapBase) (List.Subset.refl _)
      mem_cons_self _ (heapAt_self hreach [heapBase])
    refine ⟨s', ?_, hat.inv ⟨rfl, rfl, hend.1, hend.2, hnew hserves⟩ ?_ (List.Subset.refl _)⟩
    · rw [Returns, hinit, hserves, if_pos rfl, if_neg (show heapBase ≠ 0 by decide), read_bind]
      exact hrun
    · exact heapShape_single (by decide) (by decide) (by decide)
  · intro hserves
    rw [hinit, hserves]
    rfl

/-- `ksize` of a live pointer is the size of its block. -/
theorem ksize_live (h : HeapInv s F L) (ha : a ∈ L) :
    Returns (ksize G a.ptr) s (headers s.mach.mem a.block .size) s := by
  obtain ⟨hptr, hblock, hmagic, hreach⟩ := h.header_of_live ha
  rw [Returns, ksize, if_neg hptr, hblock, getField_bind hG hreach, hmagic, if_neg (by simp)]
  exact getField_run hG hreach .size

end

end

end GosKernel.Mm
