import GosKernel.Mm.HeapSim
import GosKernel.Mm.HeapSpec

/-!
# The ways `kmalloc` goes

- `Preserves f c`: the computation `c` leaves `f` of the state alone, with one rule for
  each part of the code.
-/

namespace GosKernel.Mm

open Exec

/-! ## What a computation leaves alone -/

section Frame

variable {σ α β γ : Type} {M : PagedMachine σ} {f : HeapState σ → γ}

def Preserves (f : HeapState σ → γ) (c : Exec (HeapState σ) α) : Prop :=
  ∀ s a s', Returns c s a s' → f s' = f s

/-- Neither accesses to memory nor the head of the free list have to do with `f`. -/
structure Unlisted (M : PagedMachine σ) (f : HeapState σ → γ) : Prop where
  load : ∀ addr, Preserves f (onMach (M.load64 addr))
  store : ∀ addr v, Preserves f (onMach (M.store64 addr v))
  list : ∀ b, Preserves f (setFreeList b)

namespace Preserves

theorem pure (a : α) : Preserves f (Pure.pure a : Exec (HeapState σ) α) := by
  intro s b s' h
  cases h
  rfl

theorem bind {c : Exec (HeapState σ) α} {d : α → Exec (HeapState σ) β} (hc : Preserves f c)
    (hd : ∀ a, Preserves f (d a)) : Preserves f (c >>= d) := by
  intro s b s' h
  obtain ⟨a, s1, h1, h2⟩ := returns_bind h
  exact (hd a s1 b s' h2).trans (hc s a s1 h1)

theorem ite {p : Prop} [Decidable p] {c d : Exec (HeapState σ) α} (hc : Preserves f c)
    (hd : Preserves f d) : Preserves f (if p then c else d) := by
  split
  · exact hc
  · exact hd

theorem read (g : HeapState σ → α) : Preserves f (Exec.read g) := by
  intro s a s' h
  cases h
  rfl

end Preserves

namespace Unlisted

variable (h : Unlisted M f)

include h

theorem setFieldIf (b : Nat) (g : HeapField) (v : Nat) : Preserves f (Mm.setFieldIf M b g v) :=
  .ite (h.store _ _) (.pure ())

theorem setNextOf (b v : Nat) : Preserves f (Mm.setNextOf M b v) :=
  .ite (h.store _ _) (h.list v)

theorem pushFreeList (b : Nat) : Preserves f (Mm.pushFreeList M b) :=
  (Preserves.read _).bind fun _ => (h.store _ _).bind fun _ => (h.store _ _).bind fun _ =>
    (h.setFieldIf _ _ _).bind fun _ => h.list _

theorem kmallocAddBlock (b n : Nat) : Preserves f (Mm.kmallocAddBlock M b n) :=
  (h.store _ _).bind fun _ => (h.store _ _).bind fun _ => h.pushFreeList _

theorem kmallocSplit (b n : Nat) : Preserves f (Mm.kmallocSplit M b n) :=
  (h.store _ _).bind fun _ => (h.load _).bind fun _ => (h.store _ _).bind fun _ =>
    (h.load _).bind fun _ => (h.store _ _).bind fun _ => (h.load _).bind fun _ =>
    (h.store _ _).bind fun _ => (h.load _).bind fun _ => (h.setFieldIf _ _ _).bind fun _ =>
    (h.load _).bind fun _ => (h.setNextOf _ _).bind fun _ => h.store _ _

theorem kmallocUnlink (b : Nat) : Preserves f (Mm.kmallocUnlink M b) :=
  (h.load _).bind fun _ => (h.load _).bind fun _ => (h.setNextOf _ _).bind fun _ =>
    (h.load _).bind fun _ => (h.load _).bind fun _ => h.setFieldIf _ _ _

theorem kmallocTake (b n : Nat) : Preserves f (Mm.kmallocTake M b n) :=
  ((h.load _).bind fun _ => .ite (h.kmallocSplit _ _) (h.kmallocUnlink _)).bind fun _ =>
    (h.store _ _).bind fun _ => (h.store _ _).bind fun _ => (h.store _ _).bind fun _ => .pure _

theorem heapInitBlock (b : Nat) : Preserves f (Mm.heapInitBlock M b) :=
  (h.list _).bind fun _ => (h.store _ _).bind fun _ => (h.store _ _).bind fun _ =>
    (h.store _ _).bind fun _ => h.store _ _

end Unlisted

/-- The bounds of the heap. -/
def HeapState.ends (s : HeapState σ) : Nat × Nat × Nat := (s.heapStart, s.heapEnd, s.heapMax)

theorem preserves_onMach_ends (c : Exec σ α) : Preserves HeapState.ends (onMach c) := by
  intro s a s' h
  obtain ⟨r, -, heq⟩ := Option.map_eq_some_iff.mp h
  cases heq
  rfl

theorem unlisted_ends : Unlisted M HeapState.ends where
  load _ := preserves_onMach_ends _
  store _ _ := preserves_onMach_ends _
  list b := by
    intro s a s' h
    cases h
    rfl

theorem heapExtendLoop_ends (n i : Nat) : Preserves HeapState.ends (heapExtendLoop M n i) := by
  induction n generalizing i with
  | zero => exact .pure true
  | succ n ih =>
    exact (preserves_onMach_ends _).bind fun _ => .ite (.pure false) <|
      (Preserves.read _).bind fun _ => (preserves_onMach_ends _).bind fun _ => ih (i + 1)

/-- `heap_extend` fails and leaves the bounds alone, or gives the old end of the heap
and moves it by its pages. -/
theorem heapExtend_ends {pages : Nat} {s s' : HeapState σ} {r : Nat}
    (h : Returns (heapExtend M pages) s r s') :
    (r = 0 ∧ s'.ends = s.ends) ∨ (r = s.heapEnd ∧
      s'.ends = (s.heapStart, wrap64 (s.heapEnd + pages * pageSize), s.heapMax)) := by
  obtain ⟨ok, s1, hloop, hrest⟩ := returns_bind h
  have hends := heapExtendLoop_ends pages 0 s ok s1 hloop
  cases ok with
  | false =>
    cases hrest
    exact .inl ⟨rfl, hends⟩
  | true =>
    obtain ⟨hs, he, hm⟩ : s1.heapStart = s.heapStart ∧ s1.heapEnd = s.heapEnd ∧
        s1.heapMax = s.heapMax := by simpa [HeapState.ends] using hends
    cases hrest
    exact .inr ⟨he, by simp only [HeapState.ends, hs, he, hm]⟩

theorem heapInit_heapEnd {s s' : HeapState σ} (h : Returns (heapInit M) s () s') :
    s'.heapEnd = heapBase + heapInitialSize := by
  obtain ⟨⟨⟩, s1, hupd, hrest⟩ := returns_bind h
  cases hupd
  obtain ⟨mem, s2, hext, hrest'⟩ := returns_bind hrest
  split at hrest'
  · cases hrest'
  · rename_i hmem
    obtain ⟨start, s3, hread, hblock⟩ := returns_bind hrest'
    cases hread
    have hblock' := unlisted_ends.heapInitBlock _ _ _ _ hblock
    rcases heapExtend_ends hext with ⟨hzero, -⟩ | ⟨-, hends⟩
    · exact absurd hzero hmem
    · have hend : s'.heapEnd = wrap64 (heapBase + heapInitialSize / pageSize * pageSize) :=
        congrArg (·.2.1) (hblock'.trans hends)
      rw [hend]
      decide

theorem HeapInv.single_end {s : HeapState Flat} (h : HeapInv s [heapBase] []) :
    heapBase + sizeofHeapBlock + headers s.mach.mem heapBase .size = s.heapEnd := by
  have hmem : heapBase ∈ blocks [heapBase] [] := List.mem_cons_self
  obtain ⟨-, hle⟩ := h.shape.bounds hmem
  refine le_antisymm hle (le_of_not_gt fun hlt => ?_)
  obtain ⟨I, hI, -, hhi⟩ := (h.shape.part.cover
    (heapBase + sizeofHeapBlock + headers s.mach.mem heapBase .size)).mp ⟨by omega, hlt⟩
  rw [List.mem_singleton.mp hI] at hhi
  exact absurd hhi (lt_irrefl _)

/-- After `heap_init` the heap is one block, of all but a header of the initial size. -/
theorem HeapInv.initial_size {G : PagedMachine Flat} {s0 s : HeapState Flat}
    (h : HeapInv s [heapBase] []) (hinit : Returns (heapInit G) s0 () s) :
    headers s.mach.mem heapBase .size = heapInitialSize - sizeofHeapBlock := by
  have hend := h.single_end
  rw [heapInit_heapEnd hinit] at hend
  omega

/-- A heap whose frames all come from one address. -/
theorem heapInit_frames : ∃ h : HeapState Flat,
    Returns (heapInit Flat.machine)
      (.bss ⟨fun _ => 0, List.replicate 512 0x600000, fun _ _ => 0, fun _ => none⟩) () h ∧
    HeapInv h [heapBase] [] ∧
    headers h.mach.mem heapBase .size = heapInitialSize - sizeofHeapBlock := by
  obtain ⟨h, hinit, hinv⟩ := (heapInit_spec onPages_machine
    (.bss ⟨fun _ => 0, List.replicate 512 0x600000, fun _ _ => 0, fun _ => none⟩)).1 (by decide +kernel)
  exact ⟨h, hinit, hinv, hinv.initial_size hinit⟩

end Frame

/-! ## The five ways -/

/-- The block that `kmalloc` finds on the list. -/
def fits (s : HeapState Flat) (F : List Nat) (size : Nat) : Option Nat :=
  F.find? fun b => kmallocRound size ≤ headers s.mach.mem b .size

/-- The pages by which `kmalloc` extends the heap. -/
def growth (size : Nat) : Nat := kmallocPages (kmallocRound size)

/-- How a call of `kmalloc` on the heap `s`, with free list `F`, gives `r` and `s'`. -/
inductive KmallocPath (G : PagedMachine Flat) (s : HeapState Flat) (F : List Nat) (L : List Alloc)
    (size : Nat) : Nat → HeapState Flat → Prop
  | zero (hsize : size = 0) : KmallocPath G s F L size 0 s
  | found {b r s'} (hfind : fits s F size = some b)
      (htake : Returns (kmallocTake G b (kmallocRound size)) s r s') :
      KmallocPath G s F L size r s'
  | limit (hfind : fits s F size = none) (hover : s.heapMax < s.heapEnd + 4096 * growth size) :
      KmallocPath G s F L size 0 s
  | noPages {s'} (hfind : fits s F size = none)
      (hroom : s.heapEnd + 4096 * growth size ≤ s.heapMax)
      (hext : Returns (heapExtend G (growth size)) s 0 s') :
      KmallocPath G s F L size 0 s'
  | extended {s1 s2 r s'} (hfind : fits s F size = none)
      (hroom : s.heapEnd + 4096 * growth size ≤ s.heapMax)
      (hext : Returns (heapExtend G (growth size)) s s.heapEnd s1)
      (hadd : Returns (kmallocAddBlock G s.heapEnd (growth size)) s1 () s2)
      (hinv : HeapInv s2 (s.heapEnd :: F) L)
      (hfit : kmallocRound size ≤ headers s2.mach.mem s.heapEnd .size)
      (htake : Returns (kmallocTake G s.heapEnd (kmallocRound size)) s2 r s') :
      KmallocPath G s F L size r s'

section Paths

variable {G : PagedMachine Flat} (hG : OnPages G) {s s' : HeapState Flat} {F : List Nat}
  {L : List Alloc} {size r : Nat}

/-- The end of the heap and the growth are far from wrapping. -/
theorem wrap64_growth (h : HeapInv s F L) (hpos : 0 < size) (hmax : size ≤ heapMaxSize) :
    wrap64 (s.heapEnd + growth size * pageSize) = s.heapEnd + 4096 * growth size := by
  obtain ⟨-, -, hmax', -⟩ := kmallocRound_spec hpos hmax
  obtain ⟨-, hpages⟩ := kmallocPages_spec hmax'
  have hend := h.end_le
  unfold heapBase heapMaxSize at hend
  unfold heapMaxSize at hmax'
  show (s.heapEnd + kmallocPages (kmallocRound size) * 4096) % 2 ^ 64 = s.heapEnd +
    4096 * kmallocPages (kmallocRound size)
  omega

/-- Below the limit nothing wraps. -/
theorem wrap64_room (h : HeapInv s F L) (hroom : s.heapEnd + 4096 * growth size ≤ s.heapMax) :
    wrap64 (s.heapEnd + growth size * pageSize) = s.heapEnd + 4096 * growth size := by
  have hmax := h.max
  unfold heapBase heapMaxSize at hmax
  show (s.heapEnd + growth size * 4096) % 2 ^ 64 = s.heapEnd + 4096 * growth size
  omega

theorem kmallocGrow_of_room (h : HeapInv s F L)
    (hroom : s.heapEnd + 4096 * growth size ≤ s.heapMax) (again : Exec (HeapState Flat) Nat) :
    kmallocGrow G (kmallocRound size) again s =
      (do
        let newMem ← heapExtend G (growth size)
        if newMem = 0 then pure 0
        else do
          kmallocAddBlock G newMem (growth size)
          again) s := by
  rw [kmallocGrow, read_id_bind, ← growth, wrap64_room h hroom, if_neg (by omega)]

include hG in
/-- **Every call goes one of the five ways.** -/
theorem kmalloc_path (h : HeapInv s F L) (hmax : size ≤ heapMaxSize)
    (hrun : Converges (kmalloc G · size) s r s') : KmallocPath G s F L size r s' := by
  rcases Nat.eq_zero_or_pos size with rfl | hpos
  · obtain ⟨N, hN⟩ := hrun
    cases hN (N + 1) (by omega)
    exact .zero rfl
  obtain ⟨hal, -, hmax', hidem⟩ := kmallocRound_spec hpos hmax
  rw [kmalloc_converges_iff hG h hpos] at hrun
  cases hfind : fits s F size with
  | some b =>
    rw [show F.find? _ = some b from hfind] at hrun
    exact .found hfind hrun
  | none =>
    rw [show F.find? _ = none from hfind] at hrun
    obtain ⟨N, hN⟩ := hrun
    have hret := hN N le_rfl
    dsimp only [Returns] at hret
    by_cases hover : s.heapMax < s.heapEnd + 4096 * growth size
    · rw [kmallocGrow, read_id_bind, ← growth, wrap64_growth h hpos hmax, if_pos hover] at hret
      cases hret
      exact .limit hfind hover
    have hroom := not_lt.mp hover
    rw [kmallocGrow_of_room h hroom] at hret
    obtain ⟨newMem, s1, hext, hrest'⟩ := returns_bind hret
    by_cases hmem : newMem = 0
    · rw [if_pos hmem] at hrest'
      cases hrest'
      exact .noPages hfind hroom (hmem ▸ hext)
    rw [if_neg hmem] at hrest'
    obtain ⟨⟨⟩, s2, hadd, -⟩ := returns_bind hrest'
    obtain ⟨rfl, -⟩ := (heapExtend_ends hext).resolve_left fun hx => hmem hx.1
    -- the specification speaks of the same extension
    have hgrow : ∀ again : Exec (HeapState Flat) Nat,
        kmallocGrow G (kmallocRound size) again s = again s2 := by
      intro again
      rw [kmallocGrow_of_room h hroom, hext.bind_eq, if_neg hmem, hadd.bind_eq]
    rcases kmallocGrow_spec hG h hal hmax' with ⟨t, hgrow', -⟩ | ⟨t, hgrow', hinv, -, hfit⟩
    · have hone := hgrow' (pure 1)
      rw [Returns, hgrow] at hone
      cases hone
    · have heq := (hgrow (pure 0)).symm.trans (hgrow' (pure 0))
      cases heq
      have hfind2 : ((s.heapEnd :: F).find? fun b =>
          kmallocRound (kmallocRound size) ≤ headers s2.mach.mem b .size) = some s.heapEnd := by
        rw [hidem, List.find?_cons_of_pos (by simpa using hfit)]
      have hround : 0 < kmallocRound size := by
        have := (kmallocRound_spec hpos hmax).2.1
        omega
      have hagain : Converges (kmalloc G · (kmallocRound size)) s2 r s' :=
        ⟨N, fun fuel hfuel => (hgrow _).symm.trans (hN fuel hfuel)⟩
      rw [kmalloc_converges_iff hG hinv hround, hfind2, hidem] at hagain
      exact .extended hfind hroom hext hadd hinv hfit hagain

end Paths

/-! ## The end of the heap -/

/-- No free block holds `size` bytes, and the limit of the heap lets it be extended. -/
def Extends (s : HeapState Flat) (size : Nat) : Prop :=
  (∃ F L, HeapInv s F L ∧ fits s F size = none) ∧ s.heapEnd + 4096 * growth size ≤ s.heapMax

/-- **`kmalloc` extends the heap at most once**, by the pages of the rounded size, and
only if it has to. -/
theorem kmalloc_heapEnd {G : PagedMachine Flat} (hG : OnPages G) {s s' : HeapState Flat}
    {F : List Nat} {L : List Alloc} {size r : Nat} (h : HeapInv s F L) (hmax : size ≤ heapMaxSize)
    (hrun : Converges (kmalloc G · size) s r s') :
    s'.heapStart = s.heapStart ∧ (s'.heapEnd = s.heapEnd ∨ Extends s size ∧
      s'.heapEnd = s.heapEnd + 4096 * growth size) := by
  have hpath := kmalloc_path hG h hmax hrun
  cases hpath with
  | zero => exact ⟨rfl, .inl rfl⟩
  | found _ htake =>
    have hends := unlisted_ends.kmallocTake _ _ _ _ _ htake
    exact ⟨congrArg (·.1) hends, .inl (congrArg (·.2.1) hends)⟩
  | limit => exact ⟨rfl, .inl rfl⟩
  | noPages _ _ hext =>
    rcases heapExtend_ends hext with ⟨-, hends⟩ | ⟨hr, -⟩
    · exact ⟨congrArg (·.1) hends, .inl (congrArg (·.2.1) hends)⟩
    · exact absurd hr.symm h.heapEnd_ne_zero
  | extended hfind hroom hext hadd _ _ htake =>
    obtain ⟨-, hends⟩ := (heapExtend_ends hext).resolve_left fun hx => h.heapEnd_ne_zero hx.1
    have hall := (unlisted_ends.kmallocTake _ _ _ _ _ htake).trans
      ((unlisted_ends.kmallocAddBlock _ _ _ _ _ hadd).trans hends)
    refine ⟨congrArg (·.1) hall, .inr ⟨⟨⟨F, L, h, hfind⟩, hroom⟩, ?_⟩⟩
    exact (congrArg (·.2.1) hall).trans (wrap64_room h hroom)

end GosKernel.Mm
