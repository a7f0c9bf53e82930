import GosKernel.Kernel.Elf
import GosKernel.Mm.Paging

/-!
# The image in memory

What `elf_load` leaves behind, over a machine with a page map.

- **`elf_load_image`**: the same for all segments at once, if no segment maps a page that
  holds bytes of an earlier one. It would be given a new frame, without these bytes.
-/

namespace GosKernel.Elf

open Exec Mm

/-! ## Segments -/

/-- The `PT_LOAD` segments, in the order they are loaded in. -/
def segments (data : ByteMem) : List ProgramHeader :=
  ((List.range (elfPhnum data)).map (programHeader data)).filter fun ph => ph.type = ptLoad

namespace ProgramHeader

variable (ph : ProgramHeader)

/-- `x` is an address of the segment. -/
def Covers (x : Nat) : Prop := ph.vaddr ≤ x ∧ x < ph.vaddr + ph.memsz

/-- The pages that are mapped for the segment. -/
def pageSet : Set Nat :=
  { n | ∃ p < ph.pages, n = pageNumber (wrap64 (ph.vaddr + p * pageSize)) }

/-- The byte that belongs at address `x`. -/
def expected (data : ByteMem) (x : Nat) : UInt8 :=
  if x - ph.vaddr < ph.filesz then data (ph.offset + (x - ph.vaddr)) else 0

end ProgramHeader

/-- Loading a list of segments. -/
def loadAll {σ : Type} (M : PagedMachine σ) (data : ByteMem) : List ProgramHeader → Exec σ Bool
  | [] => pure true
  | ph :: phs => do
    let ok ← elfLoadSegment M data ph
    if ok then loadAll M data phs else pure false

/-- The loop over the headers loads the segments. -/
theorem loadAll_of_elfLoadLoop {σ : Type} {M : PagedMachine σ} {data : ByteMem} {n i : Nat}
    {s s' : σ} (h : Returns (elfLoadLoop M data n i) s true s') :
    Returns (loadAll M data
      (((List.range' i n).map (programHeader data)).filter fun ph => ph.type = ptLoad))
      s true s' := by
  induction n generalizing i s with
  | zero => exact h
  | succ n ih =>
    rw [elfLoadLoop] at h
    rw [List.range'_succ, List.map_cons]
    by_cases hint : 2 ^ 31 ≤ i * elfPhentsize data
    · rw [if_pos hint] at h
      cases h
    rw [if_neg hint] at h
    by_cases hload : (programHeader data i).type = ptLoad
    · rw [if_neg (not_not.mpr hload)] at h
      rw [List.filter_cons_of_pos (by simpa using hload)]
      obtain ⟨ok, s1, hseg, hrest⟩ := returns_bind h
      cases ok with
      | false => cases hrest
      | true => exact hseg.bind_eq.trans (ih hrest)
    · rw [if_pos hload] at h
      rw [List.filter_cons_of_neg (by simpa using hload)]
      exact ih h

/-! ## Bytes -/

section

variable {s0 s s' : Paging} {T : Set Nat}

/-- The copy loops write their range, and nothing else on the pages of `T`. -/
theorem fill_spec {f : Nat → UInt8} {dest n i : Nat} (h : Owns s0 s T)
    (hwrap : dest + (i + n) ≤ 2 ^ 64)
    (hunmapped : ∀ x, dest + i ≤ x → x < dest + (i + n) → pageNumber x ∉ T →
      s0.page (pageNumber x) = none) (hret : Returns (fill Paging.machine f dest n i) s () s') :
    Owns s0 s' T ∧ (∀ x, dest + i ≤ x → x < dest + (i + n) → pageNumber x ∈ T) ∧
      ∀ y, pageNumber y ∈ T → s'.byte y =
        if dest + i ≤ y ∧ y < dest + (i + n) then some (f (y - dest)) else s.byte y := by
  induction n generalizing i s with
  | zero =>
    cases hret
    refine ⟨h, fun x hlo hhi => by omega, fun y hy => ?_⟩
    rw [if_neg (by omega)]
  | succ n ih =>
    obtain ⟨⟨⟩, s1, hstore, hrest⟩ := returns_bind hret
    rw [wrap64_of_lt (show dest + i < 2 ^ 64 by omega)] at hstore
    obtain ⟨hT, h1, hbyte⟩ := h.store (hunmapped _ le_rfl (by omega)) hstore
    obtain ⟨h', hin, hbyte'⟩ := ih h1 (by omega)
      (fun x hlo hhi => hunmapped x (by omega) (by omega)) hrest
    refine ⟨h', fun x hlo hhi => ?_, fun y hy => ?_⟩
    · rcases Nat.eq_or_lt_of_le hlo with rfl | hlt
      · exact hT
      · exact hin x (by omega) (by omega)
    · rw [hbyte' y hy, hbyte y hy]
      by_cases hy' : y = dest + i
      · rw [if_neg (by omega), if_pos hy', if_pos (by omega), hy', Nat.add_sub_cancel_left]
      · by_cases hrange : dest + (i + 1) ≤ y ∧ y < dest + (i + 1 + n)
        · rw [if_pos hrange, if_pos (by omega)]
        · rw [if_neg hrange, if_neg hy', if_neg (by omega)]

/-- The map loop gives pages `p, p + 1, …` of the segment a frame each. -/
theorem elfMapLoop_spec {ph : ProgramHeader} {n p : Nat} (h : Owns s0 s T)
    (hret : Returns (elfMapLoop Paging.machine ph n p) s true s') :
    ∃ T', Owns s0 s' T' ∧ (∀ m, m ∈ T' ↔ m ∈ T ∨ ∃ k, p ≤ k ∧ k < p + n ∧
        m = pageNumber (wrap64 (ph.vaddr + k * pageSize))) ∧
      ∀ y, (∀ k, p ≤ k → k < p + n → pageNumber y ≠ pageNumber (wrap64 (ph.vaddr + k * pageSize))) →
        s'.byte y = s.byte y := by
  induction n generalizing p s T with
  | zero =>
    cases hret
    refine ⟨T, h, fun m => ⟨.inl, ?_⟩, fun y _ => rfl⟩
    rintro (hm | ⟨k, hlo, hhi, -⟩)
    · exact hm
    · omega
  | succ n ih =>
    obtain ⟨phys, s1, halloc, hrest⟩ := returns_bind hret
    by_cases hphys : phys = 0
    · rw [if_pos hphys] at hrest
      cases hrest
    rw [if_neg hphys] at hrest
    obtain ⟨⟨⟩, s2, hmap, hloop⟩ := returns_bind hrest
    obtain ⟨h2, hram, hpage⟩ := h.map halloc hphys hmap
    obtain ⟨T', h', hT', hbyte⟩ := ih h2 hloop
    refine ⟨T', h', fun m => ?_, fun y hy => ?_⟩
    · rw [hT' m]
      constructor
      · rintro ((rfl | hm) | ⟨k, hlo, hhi, rfl⟩)
        · exact .inr ⟨p, le_rfl, by omega, rfl⟩
        · exact .inl hm
        · exact .inr ⟨k, by omega, by omega, rfl⟩
      · rintro (hm | ⟨k, hlo, hhi, rfl⟩)
        · exact .inl (.inr hm)
        · rcases Nat.eq_or_lt_of_le hlo with rfl | hlt
          · exact .inl (.inl rfl)
          · exact .inr ⟨k, by omega, by omega, rfl⟩
    · rw [hbyte y fun k hlo hhi => hy k (by omega) (by omega)]
      unfold Paging.byte Paging.physical
      rw [hram, hpage _ (hy p le_rfl (by omega))]

/-- **One segment.** It reads as the image says, and on the pages that were mapped before,
only those change that it maps anew. -/
theorem loadSegment_spec {data : ByteMem} {ph : ProgramHeader} (h : Owns s0 s T)
    (hunmapped : ∀ x, ph.Covers x → s0.page (pageNumber x) = none)
    (hrange : ph.vaddr + ph.memsz ≤ 2 ^ 64) (hfile : ph.offset + ph.filesz < 2 ^ 64)
    (hle : ph.filesz ≤ ph.memsz)
    (hret : Returns (elfLoadSegment Paging.machine data ph) s true s') :
    ∃ T', Owns s0 s' T' ∧ T ⊆ T' ∧
      (∀ x, ph.Covers x → pageNumber x ∈ T' ∧ s'.byte x = some (ph.expected data x)) ∧
      ∀ y, pageNumber y ∈ T → pageNumber y ∉ ph.pageSet → ¬ ph.Covers y →
        s'.byte y = s.byte y := by
  obtain ⟨ok, s1, hmap, hrest⟩ := returns_bind hret
  cases ok with
  | false => cases hrest
  | true =>
    obtain ⟨T', h1, hT', hkept⟩ := elfMapLoop_spec h hmap
    have hsub : T ⊆ T' := fun m hm => (hT' m).mpr (.inl hm)
    obtain ⟨⟨⟩, s2, hcopy, hrest2⟩ := returns_bind hrest
    obtain ⟨h2, hin2, hbyte2⟩ := fill_spec h1 (by omega)
      (fun x hlo hhi _ => hunmapped x ⟨by omega, by omega⟩) hcopy
    obtain ⟨⟨⟩, s3, hzero, hpure⟩ := returns_bind hrest2
    cases hpure
    -- the zeros, if there are any
    have hset : Owns s0 s' T' ∧
        (∀ x, ph.vaddr + ph.filesz ≤ x → x < ph.vaddr + ph.memsz → pageNumber x ∈ T') ∧
        ∀ y, pageNumber y ∈ T' → s'.byte y =
          if ph.vaddr + ph.filesz ≤ y ∧ y < ph.vaddr + ph.memsz then some 0 else s2.byte y := by
      rw [zeroBss] at hzero
      by_cases hbss : ph.filesz < ph.memsz
      · rw [if_pos hbss, wrap64_of_lt (by omega)] at hzero
        obtain ⟨h3, hin3, hbyte3⟩ := fill_spec h2 (by omega)
          (fun x hlo hhi _ => hunmapped x ⟨by omega, by omega⟩) hzero
        refine ⟨h3, fun x hlo hhi => hin3 x (by omega) (by omega), fun y hy => ?_⟩
        rw [hbyte3 y hy]
        by_cases hrange' : ph.vaddr + ph.filesz ≤ y ∧ y < ph.vaddr + ph.memsz
        · rw [if_pos hrange', if_pos (by omega)]
        · rw [if_neg hrange', if_neg (by omega)]
      · rw [if_neg hbss] at hzero
        cases hzero
        refine ⟨h2, fun x hlo hhi => by omega, fun y hy => ?_⟩
        rw [if_neg (by omega)]
    obtain ⟨h3, hin3, hbyte3⟩ := hset
    refine ⟨T', h3, hsub, fun x hx => ?_, fun y hy hnew hout => ?_⟩
    · obtain ⟨hlo, hhi⟩ := hx
      unfold ProgramHeader.expected
      by_cases hdata : x < ph.vaddr + ph.filesz
      · have hmem := hin2 x (by omega) (by omega)
        refine ⟨hmem, ?_⟩
        rw [hbyte3 x hmem, if_neg (by omega), hbyte2 x hmem, if_pos (by omega), if_pos (by omega),
          wrap64_of_lt (by omega)]
      · have hmem := hin3 x (by omega) hhi
        refine ⟨hmem, ?_⟩
        rw [hbyte3 x hmem, if_pos (by omega), if_neg (by omega)]
    · have hout' : ¬ (ph.vaddr ≤ y ∧ y < ph.vaddr + ph.memsz) := hout
      rw [hbyte3 y (hsub hy), if_neg (by omega), hbyte2 y (hsub hy), if_neg (by omega)]
      refine hkept y fun k _ hk heq => hnew ⟨k, by omega, heq⟩

end

/-! ## All segments -/

/-- The images the loader is meant for: headers and file ranges inside the buffer, no more
bytes in the file than in memory, and ranges that are disjoint and not mapped yet. -/
structure Loadable (data : ByteMem) (size : Nat) (s : Paging) : Prop where
  size_lt : size < 2 ^ 64
  headers : ∀ i < elfPhnum data,
    elfPhoff data + i * elfPhentsize data + sizeofElf64ProgramHeader ≤ size
  file : ∀ ph ∈ segments data, ph.offset + ph.filesz ≤ size
  filesz_le : ∀ ph ∈ segments data, ph.filesz ≤ ph.memsz
  range : ∀ ph ∈ segments data, ph.vaddr + ph.memsz ≤ 2 ^ 64
  disjoint : (segments data).Pairwise fun a b => ∀ x, a.Covers x → ¬ b.Covers x
  unmapped : ∀ ph ∈ segments data, ∀ x, ph.Covers x → s.page (pageNumber x) = none
  pmm : s.pmm.WF

/-- No segment maps a page that holds bytes of an earlier one. -/
def Unshared (data : ByteMem) : Prop :=
  (segments data).Pairwise fun a b => ∀ x, a.Covers x → pageNumber x ∉ b.pageSet

/-- Every byte of every segment is mapped, and is what the image says. -/
def HoldsImage (data : ByteMem) (s : Paging) : Prop :=
  ∀ ph ∈ segments data, ∀ i < ph.memsz,
    s.byte (ph.vaddr + i) = some (if i < ph.filesz then data (ph.offset + i) else 0)

theorem loadAll_spec {data : ByteMem} {phs : List ProgramHeader} {s0 s s' : Paging} {T : Set Nat}
    (h : Owns s0 s T) (hunmapped : ∀ ph ∈ phs, ∀ x, ph.Covers x → s0.page (pageNumber x) = none)
    (hrange : ∀ ph ∈ phs, ph.vaddr + ph.memsz ≤ 2 ^ 64)
    (hfile : ∀ ph ∈ phs, ph.offset + ph.filesz < 2 ^ 64) (hle : ∀ ph ∈ phs, ph.filesz ≤ ph.memsz)
    (hdisjoint : phs.Pairwise fun a b => ∀ x, a.Covers x → ¬ b.Covers x)
    (hunshared : phs.Pairwise fun a b => ∀ x, a.Covers x → pageNumber x ∉ b.pageSet)
    (hret : Returns (loadAll Paging.machine data phs) s true s') :
    (∀ ph ∈ phs, ∀ x, ph.Covers x → s'.byte x = some (ph.expected data x)) ∧
      ∀ y, pageNumber y ∈ T → (∀ ph ∈ phs, pageNumber y ∉ ph.pageSet ∧ ¬ ph.Covers y) →
        s'.byte y = s.byte y := by
  induction phs generalizing s T with
  | nil =>
    cases hret
    exact ⟨fun ph hph => absurd hph List.not_mem_nil, fun y _ _ => rfl⟩
  | cons ph phs ih =>
    obtain ⟨hd, hdisjoint'⟩ := List.pairwise_cons.mp hdisjoint
    obtain ⟨hu, hunshared'⟩ := List.pairwise_cons.mp hunshared
    obtain ⟨ok, s1, hseg, hrest⟩ := returns_bind hret
    cases ok with
    | false => cases hrest
    | true =>
      have hhead : ph ∈ ph :: phs := List.mem_cons_self
      have htail : ∀ q ∈ phs, q ∈ ph :: phs := fun q hq => List.mem_cons_of_mem _ hq
      obtain ⟨T1, h1, hsub, hloaded, hkept⟩ := loadSegment_spec h (hunmapped ph hhead)
        (hrange ph hhead) (hfile ph hhead) (hle ph hhead) hseg
      obtain ⟨hloaded', hkept'⟩ := ih h1 (fun q hq => hunmapped q (htail q hq))
        (fun q hq => hrange q (htail q hq)) (fun q hq => hfile q (htail q hq))
        (fun q hq => hle q (htail q hq)) hdisjoint' hunshared' hrest
      refine ⟨fun q hq x hx => ?_, fun y hy hfree => ?_⟩
      · rcases List.mem_cons.mp hq with rfl | hq
        · -- the later segments leave it alone
          obtain ⟨hT1, hbyte⟩ := hloaded x hx
          rw [hkept' x hT1 fun b hb => ⟨hu b hb x hx, hd b hb x hx⟩]
          exact hbyte
        · exact hloaded' q hq x hx
      · rw [hkept' y (hsub hy) fun b hb => hfree b (htail b hb)]
        exact hkept y hy (hfree ph hhead).1 (hfree ph hhead).2

/-- **The image in memory.** If `elf_load` returns `0` and no segment maps a page with
bytes of an earlier one, every byte of all segments is mapped and is that of the image,
or `0` past the bytes of the file. -/
theorem elf_load_image {data : ByteMem} {size : Nat} {outEntry : Bool} {s s' : Paging}
    {entry : Option Nat} (hload : Loadable data size s) (hunshared : Unshared data)
    (hret : Returns (elfLoad Paging.machine (some data) size outEntry) s (0, entry) s') :
    HoldsImage data s' := by
  have hloop : Returns (elfLoadLoop Paging.machine data (elfPhnum data) 0) s true s' := by
    rw [elfLoad] at hret
    split at hret
    · cases hret
    split at hret
    · cases hret
    split at hret
    · cases hret
    split at hret
    · cases hret
    obtain ⟨ok, s1, hloop, hrest⟩ := returns_bind hret
    cases ok with
    | false => cases hrest
    | true =>
      cases hrest
      exact hloop
  replace hloop := loadAll_of_elfLoadLoop hloop
  rw [← List.range_eq_range'] at hloop
  have hsize := hload.size_lt
  obtain ⟨hall, -⟩ := loadAll_spec (Owns.start hload.pmm) hload.unmapped hload.range
    (fun ph hph => (hload.file ph hph).trans_lt hsize) hload.filesz_le hload.disjoint hunshared hloop
  intro ph hph i hi
  have hbyte := hall ph hph (ph.vaddr + i) ⟨by omega, by omega⟩
  rw [hbyte, ProgramHeader.expected, Nat.add_sub_cancel_left]

/-! ## Two segments of one byte -/

/-- An image with two segments of one byte, at `0x400000` and at `256 * b` bytes above. -/
def twoSegments (b : UInt8) : ByteMem := fun i =>
  ([(0, 0x7f), (1, 0x45), (2, 0x4c), (3, 0x46), (eiClass, elfClass64), (18, 62), (32, 64),
    (54, 56), (56, 2),
    (64, 1), (82, 0x40), (96, 1), (104, 1),
    (120, 1), (128, 1), (137, b), (138, 0x40), (152, 1), (160, 1)].lookup i).getD 0

/-- Nothing is mapped, and no frame is in use. -/
def emptyPaging : Paging := ⟨fun _ => 0, pmmUnused, fun _ => none⟩

theorem loadable_twoSegments {b : UInt8} {v : Nat} (hphnum : elfPhnum (twoSegments b) = 2)
    (hphoff : elfPhoff (twoSegments b) = 64) (hphentsize : elfPhentsize (twoSegments b) = 56)
    (hsegments : segments (twoSegments b) = [⟨1, 0, 0, 0x400000, 1, 1⟩, ⟨1, 0, 1, v, 1, 1⟩])
    (hlo : 0x400000 < v) (hhi : v < 2 ^ 32) : Loadable (twoSegments b) 176 emptyPaging where
  size_lt := by decide
  headers i hi := by
    rw [hphnum] at hi
    rw [hphoff, hphentsize, sizeofElf64ProgramHeader]
    omega
  file := by
    rw [hsegments]
    simp
  filesz_le := by
    rw [hsegments]
    simp
  range := by
    rw [hsegments]
    simp
    omega
  disjoint := by
    rw [hsegments, List.pairwise_pair]
    rintro x ⟨hxlo, hxhi⟩ ⟨hxlo', -⟩
    dsimp only at *
    omega
  unmapped _ _ _ _ := rfl
  pmm := pmmUnused_wf

/-- Two segments on pages of their own. -/
theorem elf_load_image_two_pages :
    ∃ s', Returns (elfLoad Paging.machine (some (twoSegments 0x10)) 176 true) emptyPaging
      (0, some 0) s' ∧ HoldsImage (twoSegments 0x10) s' := by
  have heval : (elfLoad Paging.machine (some (twoSegments 0x10)) 176 true emptyPaging).map
      Prod.fst = some (0, some 0) := by decide +kernel
  obtain ⟨⟨r, s'⟩, hret, hr⟩ := Option.map_eq_some_iff.mp heval
  cases hr
  have hsegments : segments (twoSegments 0x10)
      = [⟨1, 0, 0, 0x400000, 1, 1⟩, ⟨1, 0, 1, 0x401000, 1, 1⟩] := by decide +kernel
  have hunshared : Unshared (twoSegments 0x10) := by
    rw [Unshared, hsegments, List.pairwise_pair]
    rintro x ⟨hlo, hhi⟩ ⟨p, hp, hpage⟩
    have hp : p < 1 := hp
    obtain rfl : p = 0 := by omega
    have hx : x = 0x400000 := le_antisymm (Nat.lt_succ_iff.mp hhi) hlo
    rw [hx] at hpage
    exact absurd hpage (by decide)
  exact ⟨s', hret, elf_load_image (loadable_twoSegments (by decide +kernel) (by decide +kernel)
    (by decide +kernel) hsegments (by decide) (by decide)) hunshared hret⟩

/-- Two segments on one page: the byte of the first is gone. -/
theorem shared_page_lost :
    ∃ s', Loadable (twoSegments 0x08) 176 emptyPaging ∧
      Returns (elfLoad Paging.machine (some (twoSegments 0x08)) 176 true) emptyPaging
        (0, some 0) s' ∧
      s'.byte 0x400000 = some 0 ∧ twoSegments 0x08 0 = 0x7f ∧
      ¬ HoldsImage (twoSegments 0x08) s' := by
  have heval : (elfLoad Paging.machine (some (twoSegments 0x08)) 176 true emptyPaging).map
      (fun r => (r.1, r.2.byte 0x400000)) = some ((0, some 0), some 0) := by decide +kernel
  obtain ⟨⟨r, s'⟩, hret, hr⟩ := Option.map_eq_some_iff.mp heval
  obtain ⟨hr, hbyte⟩ := Prod.mk.inj hr
  have hsegments : segments (twoSegments 0x08)
      = [⟨1, 0, 0, 0x400000, 1, 1⟩, ⟨1, 0, 1, 0x400800, 1, 1⟩] := by decide +kernel
  refine ⟨s', loadable_twoSegments (by decide +kernel) (by decide +kernel)
    (by decide +kernel) hsegments (by decide) (by decide), hr ▸ hret, hbyte, rfl, fun himage => ?_⟩
  have hfirst := himage _ (hsegments ▸ List.mem_cons_self) 0 Nat.one_pos
  rw [hbyte] at hfirst
  cases hfirst

end GosKernel.Elf
