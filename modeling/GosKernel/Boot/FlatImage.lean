import GosKernel.Lib.ByteMem
import GosKernel.Lib.CappedScan
import GosKernel.Lib.Placement
import Mathlib.Data.List.MinMax

/-!
# The flat image of the kernel (`src/boot/makedisk.py`)

`read_elf_segments` reads the program headers of an ELF64 file, and `create_flat_binary` puts
the segments at their physical addresses. The second places the data of each segment at its
address (`createFlatBinary_eq`). The first reads the address, the file size and the memory
size of a segment at `0x20`, `0x28` and `0x30` of its header. These are the places of the
file size, the memory size and the alignment (`readElfSegments_eq`).
-/

namespace GosKernel.Boot

open Placement List

/-! ## The functions -/

/-- A segment as `read_elf_segments` appends it. -/
structure Segment where
  paddr : Nat
  filesz : Nat
  memsz : Nat
  data : List UInt8

/-- `struct.unpack_from` of `n` bytes; it raises an error at the end of the data. -/
def unpackFrom (data : List UInt8) (n offset : Nat) : Option Nat :=
  if offset + n ≤ data.length then some ((ByteMem.ofList data).load offset n) else none

/-- The slice `data[start:stop]`. -/
def slice (data : List UInt8) (start stop : Nat) : List UInt8 := (data.take stop).drop start

/-- The body of the loop of `read_elf_segments` (makedisk.py:34-51). -/
def readSegment (data : List UInt8) (off : Nat) : Option (List Segment) := do
  let pType ← unpackFrom data 4 off
  if pType ≠ 1 then return []
  let pOffset ← unpackFrom data 8 (off + 0x08)
  -- the places of `p_filesz`, `p_memsz` and `p_align`
  let pPaddr ← unpackFrom data 8 (off + 0x20)
  let pFilesz ← unpackFrom data 8 (off + 0x28)
  let pMemsz ← unpackFrom data 8 (off + 0x30)
  return [⟨pPaddr, pFilesz, pMemsz, slice data pOffset (pOffset + pFilesz)⟩]

/-- `read_elf_segments` (makedisk.py:15-53). -/
def readElfSegments (data : List UInt8) : Option (List Segment) := do
  if data.take 4 ≠ [0x7F, 0x45, 0x4C, 0x46] then none
  if data[4]? ≠ some 2 then none
  let ePhoff ← unpackFrom data 8 0x20
  let ePhentsize ← unpackFrom data 2 0x36
  let ePhnum ← unpackFrom data 2 0x38
  (List.range ePhnum).foldlM
    (fun segments i => do
      let found ← readSegment data (ePhoff + i * ePhentsize)
      return segments ++ found) []

/-- The first loop of `create_flat_binary`. -/
def maxAddr (segments : List Segment) : Nat :=
  segments.foldl
    (fun m seg => if seg.paddr + seg.memsz > m then seg.paddr + seg.memsz else m) 0

/-- `create_flat_binary` (makedisk.py:55-75). -/
def createFlatBinary (segments : List Segment) : List UInt8 :=
  segments.foldl (fun buf seg => setSlice buf seg.paddr (seg.paddr + seg.filesz) seg.data)
    (List.replicate (maxAddr segments) 0)

/-! ## ELF64 files -/

/-- The members of `Elf64_Phdr` (stub.c:56-65) that say where a segment goes. -/
structure Elf64Phdr where
  type : Nat
  offset : Nat
  paddr : Nat
  filesz : Nat
  memsz : Nat
  align : Nat
deriving DecidableEq

/-- The program header at an address. -/
def phdrAt (m : ByteMem) (a : Nat) : Elf64Phdr where
  type := m.load a 4
  offset := m.load (a + 8) 8
  paddr := m.load (a + 24) 8
  filesz := m.load (a + 32) 8
  memsz := m.load (a + 40) 8
  align := m.load (a + 48) 8

/-- `e_phoff`, `e_phentsize` and `e_phnum` of a file at an address. -/
def ePhoff (m : ByteMem) (a : Nat) : Nat := m.load (a + 0x20) 8

def ePhentsize (m : ByteMem) (a : Nat) : Nat := m.load (a + 0x36) 2

def ePhnum (m : ByteMem) (a : Nat) : Nat := m.load (a + 0x38) 2

/-- The program headers of a file. -/
def phdrs (file : List UInt8) : List Elf64Phdr :=
  (List.range (ePhnum (.ofList file) 0)).map fun i =>
    phdrAt (.ofList file) (ePhoff (.ofList file) 0 + i * 56)

/-- The segments to load. -/
def loads (file : List UInt8) : List Elf64Phdr := (phdrs file).filter (·.type = 1)

/-- **An ELF64 file**: its identification, a header and a table of program headers. -/
structure IsElf64 (file : List UInt8) : Prop where
  magic : file.take 4 = [0x7F, 0x45, 0x4C, 0x46]
  elfClass : file[4]? = some 2
  header : 64 ≤ file.length
  phentsize : ePhentsize (.ofList file) 0 = 56
  table : ePhoff (.ofList file) 0 + ePhnum (.ofList file) 0 * 56 ≤ file.length

namespace Elf64Phdr

/-- The physical addresses of the segment. -/
def Covers (p : Elf64Phdr) (x : Nat) : Prop := p.paddr ≤ x ∧ x < p.paddr + p.memsz

/-- The part of the segment that is in the file. -/
def CoversFile (p : Elf64Phdr) (x : Nat) : Prop := p.paddr ≤ x ∧ x < p.paddr + p.filesz

instance (p : Elf64Phdr) (x : Nat) : Decidable (p.Covers x) := inferInstanceAs (Decidable (_ ∧ _))

instance (p : Elf64Phdr) (x : Nat) : Decidable (p.CoversFile x) :=
  inferInstanceAs (Decidable (_ ∧ _))

/-- The segment as it should be read. -/
def segment (p : Elf64Phdr) (file : List UInt8) : Segment :=
  ⟨p.paddr, p.filesz, p.memsz, slice file p.offset (p.offset + p.filesz)⟩

/-- The segment as it is read: each field from the place of the next one. -/
def segmentRead (p : Elf64Phdr) (file : List UInt8) : Segment :=
  ⟨p.filesz, p.memsz, p.align, slice file p.offset (p.offset + p.memsz)⟩

end Elf64Phdr

/-- **Segments that can be loaded**: in the file, below 4 GiB, and apart from each other. -/
structure Loadable (file : List UInt8) : Prop where
  inFile : ∀ p ∈ loads file, p.offset + p.filesz ≤ file.length
  sizes : ∀ p ∈ loads file, p.filesz ≤ p.memsz
  below : ∀ p ∈ loads file, p.paddr + p.memsz ≤ 2 ^ 32
  apart : (loads file).Pairwise fun p q => ∀ x, p.Covers x → ¬ q.Covers x

variable {data file : List UInt8} {n : Nat} {p : Elf64Phdr} {segs : List Segment}

theorem Loadable.covers (h : Loadable file)
    (hp : p ∈ loads file) {x : Nat} (hx : p.CoversFile x) : p.Covers x :=
  ⟨hx.1, Nat.lt_of_lt_of_le hx.2 (Nat.add_le_add_left (h.sizes p hp) _)⟩

/-- The end of the highest segment. -/
def imageEnd (ps : List Elf64Phdr) : Nat := (ps.map fun p => p.paddr + p.memsz).foldr max 0

/-- **The load image of a file.** -/
structure IsImage (file image : List UInt8) : Prop where
  length : image.length = imageEnd (loads file)
  bytes : ∀ p ∈ loads file, ∀ i < p.filesz, image[p.paddr + i]? = file[p.offset + i]?
  zeros : ∀ x < image.length, (∀ p ∈ loads file, ¬ p.CoversFile x) → image[x]? = some 0

/-! ## Reading -/

theorem unpackFrom_of_le {offset : Nat} (h : offset + n ≤ data.length) :
    unpackFrom data n offset = some ((ByteMem.ofList data).load offset n) := if_pos h

theorem readSegment_eq {off : Nat} (h : off + 56 ≤ file.length) :
    readSegment file off =
      some (if (phdrAt (.ofList file) off).type = 1 then
        some ((phdrAt (.ofList file) off).segmentRead file) else none).toList := by
  unfold readSegment
  rw [unpackFrom_of_le (by omega), unpackFrom_of_le (by omega), unpackFrom_of_le (by omega),
    unpackFrom_of_le (by omega), unpackFrom_of_le (by omega)]
  by_cases htype : (ByteMem.ofList file).load off 4 = 1
  · simp [phdrAt, htype, Elf64Phdr.segmentRead]
  · simp [phdrAt, htype]

theorem foldlM_range_append {α : Type} {f : Nat → Option (List α)} {g : Nat → List α}
    (h : ∀ i < n, f i = some (g i)) :
    (List.range n).foldlM (fun acc i => do let found ← f i; return acc ++ found) [] =
      some ((List.range n).flatMap g) := by
  induction n with
  | zero => rfl
  | succ n ih =>
    rw [range_succ, foldlM_append, ih fun i hi => h i (Nat.lt_succ_of_lt hi)]
    simp [h n (Nat.lt_succ_self n)]

/-- **`read_elf_segments`** reads each field from the place of the next one. -/
theorem readElfSegments_eq (h : IsElf64 file) :
    readElfSegments file = some ((loads file).map (·.segmentRead file)) := by
  have hlen := h.header
  have htable := h.table
  have hread : ∀ i < ePhnum (.ofList file) 0,
      readSegment file (ePhoff (.ofList file) 0 + i * 56) =
        some (if (phdrAt (.ofList file) (ePhoff (.ofList file) 0 + i * 56)).type = 1 then
          some ((phdrAt (.ofList file) (ePhoff (.ofList file) 0 + i * 56)).segmentRead file)
          else none).toList :=
    fun i hi => readSegment_eq (by omega)
  unfold readElfSegments
  rw [unpackFrom_of_le (by omega), unpackFrom_of_le (by omega), unpackFrom_of_le (by omega)]
  simp only [h.magic, h.elfClass]
  have hentsize : (ByteMem.ofList file).load 0x36 2 = 56 := by
    have hentsize := h.phentsize
    rwa [ePhentsize] at hentsize
  rw [hentsize]
  refine (foldlM_range_append hread).trans (congrArg some ?_)
  rw [CappedScan.flatMap_toList_ite
    (fun i => (phdrAt (.ofList file) (ePhoff (.ofList file) 0 + i * 56)).type = 1), loads, phdrs,
    filter_map, map_map]
  rfl

/-- The segments are read right if and only if the fields of each are the same. -/
theorem readElfSegments_right_iff (h : IsElf64 file) :
    readElfSegments file = some ((loads file).map (·.segment file)) ↔
      ∀ p ∈ loads file, p.filesz = p.paddr ∧ p.memsz = p.filesz ∧ p.align = p.memsz := by
  rw [readElfSegments_eq h, Option.some_inj, map_inj_left]
  refine forall_congr' fun p => forall_congr' fun _ => ?_
  unfold Elf64Phdr.segmentRead Elf64Phdr.segment
  constructor
  · intro heq
    exact ⟨congrArg Segment.paddr heq, congrArg Segment.filesz heq, congrArg Segment.memsz heq⟩
  · rintro ⟨hpaddr, hfilesz, hmemsz⟩
    rw [hmemsz, hfilesz, hpaddr]

/-! ## The flat image -/

theorem foldl_max_le_iff {m : Nat} :
    segs.foldl (fun m s => if s.paddr + s.memsz > m then s.paddr + s.memsz else m) m ≤ n ↔
      m ≤ n ∧ ∀ s ∈ segs, s.paddr + s.memsz ≤ n := by
  induction segs generalizing m with
  | nil => simp
  | cons s segs ih =>
    rw [foldl_cons, ih, forall_mem_cons, ← and_assoc]
    refine and_congr_left' ?_
    split <;> omega

theorem maxAddr_le_iff : maxAddr segs ≤ n ↔ ∀ s ∈ segs, s.paddr + s.memsz ≤ n :=
  foldl_max_le_iff.trans (and_iff_right (Nat.zero_le n))

theorem le_maxAddr {s : Segment} (hs : s ∈ segs) : s.paddr + s.memsz ≤ maxAddr segs :=
  maxAddr_le_iff.mp (Nat.le_refl _) s hs

theorem le_imageEnd {ps : List Elf64Phdr} (hp : p ∈ ps) : p.paddr + p.memsz ≤ imageEnd ps :=
  le_max_of_le' 0 (mem_map_of_mem hp) (Nat.le_refl _)

/-- The block that a segment is. -/
def Segment.block (s : Segment) : Block UInt8 := (s.paddr, s.data)

theorem createFlatBinary_eq (hdata : ∀ s ∈ segs, s.data.length = s.filesz) :
    createFlatBinary segs =
      placeAll (segs.map Segment.block) (List.replicate (maxAddr segs) 0) := by
  rw [placeAll, foldl_map]
  refine foldl_ext _ _ _ fun buf s hs => ?_
  rw [Segment.block, Block.end, hdata s hs]

/-- The length of the flat image, whatever the segments are. -/
theorem length_createFlatBinary_le (hmem : ∀ s ∈ segs, s.paddr + s.memsz ≤ n)
    (hdata : ∀ s ∈ segs, s.data.length ≤ s.filesz ∧ s.paddr + s.data.length ≤ n) :
    (createFlatBinary segs).length ≤ n := by
  have hfold : ∀ buf : List UInt8, buf.length ≤ n → (segs.foldl
      (fun buf s => setSlice buf s.paddr (s.paddr + s.filesz) s.data) buf).length ≤ n := by
    clear hmem
    induction segs with
    | nil => exact fun buf hbuf => hbuf
    | cons s segs ih =>
      intro buf hbuf
      obtain ⟨hs, hdata⟩ := forall_mem_cons.mp hdata
      refine ih hdata _ (Nat.le_trans (length_setSlice_le ?_) (Nat.max_le.mpr ⟨hbuf, hs.2⟩))
      rw [Nat.add_sub_cancel_left]
      exact hs.1
  refine hfold _ ?_
  rw [length_replicate]
  exact maxAddr_le_iff.mpr hmem

/-- One segment: its data may be shorter than what it replaces. -/
theorem length_createFlatBinary_singleton (s : Segment) :
    (createFlatBinary [s]).length = s.paddr + s.data.length + (s.memsz - s.filesz) := by
  have hmax : maxAddr [s] = s.paddr + s.memsz :=
    Nat.le_antisymm (maxAddr_le_iff.mpr (forall_mem_singleton.mpr (Nat.le_refl _)))
      (le_maxAddr (mem_singleton_self s))
  rw [createFlatBinary, foldl_cons, foldl_nil, setSlice, length_append,
    length_append, length_take, length_drop, length_replicate]
  omega

theorem length_slice_le (data : List UInt8) (start n : Nat) :
    (slice data start (start + n)).length ≤ n := by
  rw [slice, length_drop, length_take]
  omega

theorem length_slice {start : Nat} (h : start + n ≤ data.length) :
    (slice data start (start + n)).length = n := by
  rw [slice, length_drop, length_take]
  omega

/-- **A segment too high is lost**: the image is too short. -/
theorem not_isImage_of_high {q : Elf64Phdr} (hq : q ∈ loads file)
    (hhigh : ∀ p ∈ loads file, p.filesz + max p.align p.memsz < q.paddr + q.memsz) :
    ¬ IsImage file (createFlatBinary ((loads file).map (·.segmentRead file))) := by
  intro himage
  have hlen : (createFlatBinary ((loads file).map (·.segmentRead file))).length ≤
      q.paddr + q.memsz - 1 := by
    refine length_createFlatBinary_le (fun s hs => ?_) fun s hs => ?_
    · obtain ⟨p, hp, rfl⟩ := mem_map.mp hs
      have := hhigh p hp
      show p.filesz + p.align ≤ _
      omega
    · obtain ⟨p, hp, rfl⟩ := mem_map.mp hs
      have := hhigh p hp
      have hslice := length_slice_le file p.offset p.memsz
      refine ⟨hslice, ?_⟩
      show p.filesz + (slice file p.offset (p.offset + p.memsz)).length ≤ _
      omega
  have hend := le_imageEnd hq
  have hpos := hhigh q hq
  rw [himage.length] at hlen
  omega

/-- The address, the sizes and the alignment of each segment are the same but for an alignment
that does not reach above the image. -/
def SameFields (file : List UInt8) : Prop :=
  ∀ p ∈ loads file, p.filesz = p.paddr ∧ p.memsz = p.filesz ∧
    p.filesz + p.align ≤ imageEnd (loads file)

theorem SameFields.block (hl : Loadable file) (hsame : SameFields file) (hp : p ∈ loads file) :
    (p.segmentRead file).block = (p.paddr, slice file p.offset (p.offset + p.filesz)) ∧
      (p.segmentRead file).block.end = p.paddr + p.memsz ∧
      ∀ x, (p.segmentRead file).block.Covers x ↔ p.CoversFile x := by
  obtain ⟨haddr, hsize, -⟩ := hsame p hp
  have hblock : (p.segmentRead file).block =
      (p.paddr, slice file p.offset (p.offset + p.filesz)) := by
    rw [Elf64Phdr.segmentRead, Segment.block, hsize, haddr]
  have hend : (p.segmentRead file).block.end = p.paddr + p.filesz := by
    rw [hblock, Block.end, length_slice (hl.inFile p hp)]
  refine ⟨hblock, hend.trans (by rw [hsize]), fun x => ?_⟩
  rw [Block.Covers, hend, hblock]
  rfl

theorem SameFields.data_length (hl : Loadable file) (hsame : SameFields file)
    {s : Segment} (hs : s ∈ (loads file).map (·.segmentRead file)) : s.data.length = s.filesz := by
  obtain ⟨p, hp, rfl⟩ := mem_map.mp hs
  refine length_slice ?_
  rw [(hsame p hp).2.1]
  exact hl.inFile p hp

theorem SameFields.apart (hl : Loadable file) (hsame : SameFields file) :
    (((loads file).map (·.segmentRead file)).map Segment.block).Pairwise Block.Apart := by
  rw [map_map, pairwise_map]
  refine hl.apart.imp_of_mem fun {p q} hp hq hpq x hpx hqx => ?_
  have hpx := ((hsame.block hl hp).2.2 x).mp hpx
  have hqx := ((hsame.block hl hq).2.2 x).mp hqx
  exact hpq x (hl.covers hp hpx) (hl.covers hq hqx)

/-- **The image is right** when the fields that are mixed up are the same. -/
theorem isImage_of_sameFields (hl : Loadable file) (hsame : SameFields file) :
    IsImage file (createFlatBinary ((loads file).map (·.segmentRead file))) := by
  have hstart : ∀ b ∈ ((loads file).map (·.segmentRead file)).map Segment.block, b.1 ≤
      (List.replicate (maxAddr ((loads file).map (·.segmentRead file))) (0 : UInt8)).length := by
    intro b hb
    obtain ⟨s, hs, rfl⟩ := mem_map.mp hb
    rw [length_replicate]
    exact Nat.le_trans (Nat.le_add_right _ _) (le_maxAddr hs)
  rw [createFlatBinary_eq fun _ hs => hsame.data_length hl hs]
  obtain ⟨-, hends⟩ := length_le_placeAll hstart
  constructor
  · apply Nat.le_antisymm
    · refine length_placeAll_le hstart (fun b hb => ?_) ?_
      · obtain ⟨p, hp, rfl⟩ := mem_map.mp (map_map ▸ hb)
        exact (hsame.block hl hp).2.1 ▸ le_imageEnd hp
      · rw [length_replicate]
        refine maxAddr_le_iff.mpr fun s hs => ?_
        obtain ⟨p, hp, rfl⟩ := mem_map.mp hs
        exact (hsame p hp).2.2
    · refine max_le_of_forall_le _ _ fun x hx => ?_
      obtain ⟨p, hp, rfl⟩ := mem_map.mp hx
      rw [← (hsame.block hl hp).2.1]
      exact hends _ (mem_map_of_mem (mem_map_of_mem hp))
  · intro p hp i hi
    have hbyte := getElem?_placeAll_of_mem hstart (hsame.apart hl)
      (mem_map_of_mem (mem_map_of_mem hp)) (i := i)
    rw [(hsame.block hl hp).1] at hbyte
    rw [hbyte (by rw [length_slice (hl.inFile p hp)]; exact hi), slice, List.getElem?_drop,
      List.getElem?_take_of_lt (by omega)]
  · intro x hx hnot
    have hzero := getElem?_placeAll_of_not hstart (x := x) fun b hb => by
      obtain ⟨p, hp, rfl⟩ := mem_map.mp (map_map ▸ hb)
      exact fun hcov => hnot p hp (((hsame.block hl hp).2.2 x).mp hcov)
    rw [List.getElem?_eq_getElem hx, List.getElem?_replicate] at hzero
    split at hzero
    · rw [List.getElem?_eq_getElem hx, hzero]
    · cases hzero

end GosKernel.Boot
