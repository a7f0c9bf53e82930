import GosKernel.Boot.FlatImage
import GosKernel.Defs
import Mathlib.Data.List.Pairwise

/-!
# The boot stub (`src/boot/stub.c`)

The stub is 32-bit code at `0x90000` with the ELF64 file of the kernel 4096 bytes behind it.
It copies the segments to their physical addresses in the memory that also holds the file:
while no segment goes where the file is, the memory at the addresses of the segments is then
the load image (`startStub_image`).
-/

namespace GosKernel.Boot

open List Function

/-! ## The functions -/

/-- The address of the file: `0x90000 + KERNEL_OFFSET`. -/
def stubFile : Nat := 0x90000 + 0x1000

/-- The first inner loop (stub.c:95-97). -/
def copyBytes (m : ByteMem) (dst src n : Nat) : ByteMem :=
  (List.range n).foldl
    (fun m j => update m (wrap32 (dst + j)) (m (wrap32 (src + j)))) m

/-- The second inner loop (stub.c:100-102). -/
def zeroBytes (m : ByteMem) (dst n memsz : Nat) : ByteMem :=
  (List.range' n (memsz - n)).foldl (fun m j => update m (wrap32 (dst + j)) 0) m

/-- The body of the loop for a segment to load (stub.c:89-102). -/
def loadPhdr (m : ByteMem) (p : Elf64Phdr) : ByteMem :=
  -- the casts cut the members of 64 bits to 32
  let src := wrap32 (stubFile + wrap32 p.offset)
  let dst := wrap32 p.paddr
  zeroBytes (copyBytes m dst src (wrap32 p.filesz)) dst (wrap32 p.filesz) (wrap32 p.memsz)

/-- The loop (stub.c:87-104). `e_phnum` and the program headers are read from memory in every
round; as `e_phnum` has 16 bits, there are less than 65536 rounds. -/
def stubLoop (phdr : Nat) : (rounds i : Nat) → ByteMem → ByteMem
  | 0, _, m => m
  | rounds + 1, i, m =>
    if i < ePhnum m stubFile then
      let p := phdrAt m (wrap32 (phdr + i * 56))
      stubLoop phdr rounds (i + 1) (if p.type = 1 then loadPhdr m p else m)
    else m

/-- `_start_stub` (stub.c:74-110): the memory and the entry point that it jumps to. It halts
if the file is not one for 64 bits. -/
def startStub (m : ByteMem) : Option (ByteMem × Nat) :=
  if m stubFile = 0x7F ∧ m (stubFile + 1) = 0x45 ∧ m (stubFile + 2) = 0x4C ∧
      m (stubFile + 3) = 0x46 ∧ m (stubFile + 4) = 2 then
    let phdr := wrap32 (stubFile + wrap32 (ePhoff m stubFile))
    let m' := stubLoop phdr 65536 0 m
    some (m', wrap32 (m'.load (stubFile + 24) 8))
  else none

/-! ## Copying -/

variable {file : List UInt8} {m : ByteMem}

variable {i n : Nat} {p : Elf64Phdr}

theorem copyBytes_apply {dst src : Nat} (hdst : dst + n ≤ 2 ^ 32) (hsrc : src + n ≤ 2 ^ 32)
    (hapart : ∀ i < n, ∀ j < n, dst + i ≠ src + j) (x : Nat) :
    copyBytes m dst src n x = if dst ≤ x ∧ x < dst + n then m (src + (x - dst)) else m x := by
  induction n generalizing x with
  | zero => exact (if_neg (by omega)).symm
  | succ n ih =>
    have ih := ih (by omega) (by omega) fun i hi j hj => hapart i (by omega) j (by omega)
    have hwrap : wrap32 (dst + n) = dst + n := Nat.mod_eq_of_lt (by omega)
    have hwrap' : wrap32 (src + n) = src + n := Nat.mod_eq_of_lt (by omega)
    rw [copyBytes, range_succ, foldl_append, foldl_cons, foldl_nil,
      ← copyBytes, hwrap, hwrap']
    by_cases hx : x = dst + n
    · -- the byte that is read was not written before
      have hread : ¬ (dst ≤ src + n ∧ src + n < dst + n) := by
        rintro ⟨hlo, hhi⟩
        exact hapart (src + n - dst) (by omega) n (by omega) (by omega)
      subst hx
      rw [update_self, ih, if_neg hread, if_pos (by omega), Nat.add_sub_cancel_left]
    · rw [update_of_ne hx, ih]
      refine if_congr ?_ rfl rfl
      omega

theorem zeroBytes_apply {dst memsz : Nat} (hdst : dst + memsz ≤ 2 ^ 32) (x : Nat) :
    zeroBytes m dst n memsz x = if dst + n ≤ x ∧ x < dst + memsz then 0 else m x := by
  have hloop : ∀ k, n + k ≤ memsz → ∀ x,
      (List.range' n k).foldl (fun m j => update m (wrap32 (dst + j)) 0) m x =
        if dst + n ≤ x ∧ x < dst + n + k then 0 else m x := by
    intro k
    induction k with
    | zero => exact fun _ x => (if_neg (by omega)).symm
    | succ k ih =>
      intro hk x
      have ih := ih (by omega)
      have hwrap : wrap32 (dst + (n + k)) = dst + (n + k) := Nat.mod_eq_of_lt (by omega)
      rw [range'_1_concat, foldl_append, foldl_cons, foldl_nil, hwrap]
      by_cases hx : x = dst + (n + k)
      · subst hx
        rw [update_self, if_pos (by omega)]
      · rw [update_of_ne hx, ih]
        refine if_congr ?_ rfl rfl
        omega
  by_cases hle : n ≤ memsz
  · rw [zeroBytes, hloop (memsz - n) (by omega)]
    refine if_congr ?_ rfl rfl
    omega
  · rw [zeroBytes, Nat.sub_eq_zero_of_le (by omega), if_neg (by omega)]
    rfl

/-! ## One segment -/

/-- The file is in memory. -/
def FileAt (m : ByteMem) (file : List UInt8) : Prop :=
  ∀ i < file.length, m (stubFile + i) = ByteMem.ofList file i

/-- **No segment goes where the stub and the file are.** -/
structure Clear (file : List UInt8) : Prop where
  space : stubFile + file.length < 2 ^ 32
  apart : ∀ p ∈ loads file, ∀ x, 0x90000 ≤ x → x < stubFile + file.length → ¬ p.Covers x

theorem Clear.not_covers (hc : Clear file) (hp : p ∈ loads file)
    (hi : i < file.length) : ¬ p.Covers (stubFile + i) :=
  hc.apart p hp _ (Nat.le_trans (by decide) (Nat.le_add_right stubFile i))
    (Nat.add_lt_add_left hi _)

/-- What a segment is made of. -/
def segmentByte (file : List UInt8) (p : Elf64Phdr) (x : Nat) : UInt8 :=
  if p.CoversFile x then ByteMem.ofList file (p.offset + (x - p.paddr)) else 0

theorem copyBytes_file (hl : Loadable file) (hc : Clear file) (hm : FileAt m file)
    (hp : p ∈ loads file) (hmem : p.memsz < 2 ^ 32) (x : Nat) :
    copyBytes m p.paddr (wrap32 (stubFile + wrap32 p.offset)) p.filesz x =
      if p.CoversFile x then ByteMem.ofList file (p.offset + (x - p.paddr)) else m x := by
  have hfile := hl.inFile p hp
  have hsize := hl.sizes p hp
  have hbelow := hl.below p hp
  have hspace := hc.space
  by_cases hempty : p.filesz = 0
  · rw [hempty, if_neg fun hcov => by have := hcov.2; have := hcov.1; omega]
    rfl
  · have hoff : wrap32 p.offset = p.offset := Nat.mod_eq_of_lt (by omega)
    have hsrc : wrap32 (stubFile + p.offset) = stubFile + p.offset := Nat.mod_eq_of_lt (by omega)
    have hapart : ∀ i < p.filesz, ∀ j < p.filesz, p.paddr + i ≠ stubFile + p.offset + j := by
      intro i hi j hj heq
      refine hc.not_covers hp (i := p.offset + j) (by omega) ⟨?_, ?_⟩
      · omega
      · omega
    rw [hoff, hsrc, copyBytes_apply (by omega) (by omega) hapart]
    by_cases hcov : p.CoversFile x
    · have hx : p.offset + (x - p.paddr) < file.length := by
        have := hcov.2
        omega
      rw [if_pos hcov, Nat.add_assoc, hm _ hx]
      exact if_pos hcov
    · rw [if_neg hcov]
      exact if_neg hcov

/-- **A segment** is copied to its place. -/
theorem loadPhdr_apply (h : IsElf64 file) (hl : Loadable file) (hc : Clear file)
    (hm : FileAt m file) (hp : p ∈ loads file) (x : Nat) :
    loadPhdr m p x = if p.Covers x then segmentByte file p x else m x := by
  have hsize := hl.sizes p hp
  have hbelow := hl.below p hp
  -- a segment of 4 GiB would cover the file
  have hmem : p.memsz < 2 ^ 32 := by
    by_contra hge
    have hspace := hc.space
    have hlen := h.header
    refine hc.not_covers hp (i := 0) (by omega) ⟨?_, ?_⟩
    · omega
    · omega
  have hfilesz : wrap32 p.filesz = p.filesz := Nat.mod_eq_of_lt (by omega)
  have hmemsz : wrap32 p.memsz = p.memsz := Nat.mod_eq_of_lt hmem
  by_cases hempty : p.memsz = 0
  · have hnot : ¬ p.Covers x := fun hcov => by
      have := hcov.2
      have := hcov.1
      omega
    have hzero : p.filesz = 0 := by omega
    rw [loadPhdr, hempty, hzero, if_neg hnot]
    rfl
  · have hpaddr : wrap32 p.paddr = p.paddr := Nat.mod_eq_of_lt (by omega)
    rw [loadPhdr, hfilesz, hmemsz, hpaddr, zeroBytes_apply hbelow, copyBytes_file hl hc hm hp hmem,
      segmentByte]
    by_cases hfile : p.CoversFile x
    · rw [if_neg fun hbss => by have := hfile.2; omega, if_pos hfile, if_pos (hl.covers hp hfile),
        if_pos hfile]
    · rw [if_neg hfile]
      by_cases hcov : p.Covers x
      · have hbss : p.paddr + p.filesz ≤ x := by
          by_contra hlt
          exact hfile ⟨hcov.1, by omega⟩
        rw [if_pos ⟨hbss, hcov.2⟩, if_pos hcov, if_neg hfile]
      · rw [if_neg hcov, if_neg fun hbss => hcov ⟨by omega, hbss.2⟩]

theorem FileAt.loadPhdr (h : IsElf64 file) (hl : Loadable file) (hc : Clear file)
    (hm : FileAt m file) (hp : p ∈ loads file) : FileAt (loadPhdr m p) file := by
  intro i hi
  rw [loadPhdr_apply h hl hc hm hp, if_neg (hc.not_covers hp hi), hm i hi]

/-! ## All segments -/

theorem loadAll_apply (h : IsElf64 file) (hl : Loadable file) (hc : Clear file)
    (hm : FileAt m file) {ps : List Elf64Phdr} (hps : ∀ p ∈ ps, p ∈ loads file)
    (hapart : ps.Pairwise fun p q => ∀ x, p.Covers x → ¬ q.Covers x) :
    (∀ p ∈ ps, ∀ x, p.Covers x → ps.foldl loadPhdr m x = segmentByte file p x) ∧
      (∀ x, (∀ p ∈ ps, ¬ p.Covers x) → ps.foldl loadPhdr m x = m x) := by
  induction ps generalizing m with
  | nil => exact ⟨forall_mem_nil _, fun x _ => rfl⟩
  | cons p ps ih =>
    obtain ⟨hp, hps⟩ := forall_mem_cons.mp hps
    obtain ⟨hapart1, hapart⟩ := pairwise_cons.mp hapart
    obtain ⟨hin, hout⟩ := ih (hm.loadPhdr h hl hc hp) hps hapart
    rw [foldl_cons]
    refine ⟨forall_mem_cons.mpr ⟨fun x hx => ?_, hin⟩, fun x hx => ?_⟩
    · rw [hout x fun q hq => hapart1 q hq x hx, loadPhdr_apply h hl hc hm hp, if_pos hx]
    · obtain ⟨hpx, hx⟩ := forall_mem_cons.mp hx
      rw [hout x hx, loadPhdr_apply h hl hc hm hp, if_neg hpx]

theorem FileAt.load (hm : FileAt m file) {k : Nat} (hk : k + n ≤ file.length) :
    m.load (stubFile + k) n = (ByteMem.ofList file).load k n := by
  refine ByteMem.load_copy fun j hj => ?_
  rw [Nat.add_assoc]
  exact hm (k + j) (by omega)

theorem FileAt.phdrAt (hm : FileAt m file) {k : Nat} (hk : k + 56 ≤ file.length) :
    phdrAt m (stubFile + k) = Boot.phdrAt (.ofList file) k := by
  unfold Boot.phdrAt
  simp only [Nat.add_assoc]
  rw [hm.load (by omega), hm.load (by omega), hm.load (by omega), hm.load (by omega),
    hm.load (by omega), hm.load (by omega)]

theorem phdrs_length (file : List UInt8) : (phdrs file).length = ePhnum (.ofList file) 0 := by
  rw [phdrs, length_map, length_range]

/-- **The loop** goes through the program headers of the file. -/
theorem stubLoop_eq (h : IsElf64 file) (hl : Loadable file) (hc : Clear file) (hm : FileAt m file)
    {rounds : Nat} (hrounds : (phdrs file).length ≤ rounds + i) :
    stubLoop (stubFile + ePhoff (.ofList file) 0) rounds i m =
      (((phdrs file).drop i).filter (·.type = 1)).foldl loadPhdr m := by
  -- no round changes the file, so that the next one reads the same headers
  induction rounds generalizing i m with
  | zero =>
    rw [drop_eq_nil_of_le (by omega)]
    rfl
  | succ rounds ih =>
    have hlen := h.header
    have htable := h.table
    have hspace := hc.space
    have hnum : ePhnum m stubFile = (phdrs file).length := by
      rw [phdrs_length, ePhnum, ePhnum]
      exact hm.load (by omega)
    rw [stubLoop, hnum]
    by_cases hi : i < (phdrs file).length
    · have hentry : ePhoff (.ofList file) 0 + i * 56 + 56 ≤ file.length := by
        rw [phdrs_length] at hi
        omega
      have hwrap : wrap32 (stubFile + ePhoff (.ofList file) 0 + i * 56) =
          stubFile + (ePhoff (.ofList file) 0 + i * 56) := by
        rw [Nat.add_assoc]
        exact Nat.mod_eq_of_lt (by omega)
      have hp : phdrAt m (stubFile + (ePhoff (.ofList file) 0 + i * 56)) = (phdrs file)[i] := by
        rw [hm.phdrAt hentry]
        simp [phdrs]
      rw [if_pos hi, hwrap, hp, drop_eq_getElem_cons hi, filter_cons]
      dsimp only
      by_cases htype : (phdrs file)[i].type = 1
      · have hload : (phdrs file)[i] ∈ loads file :=
          mem_filter.mpr ⟨List.getElem_mem hi, decide_eq_true htype⟩
        rw [if_pos htype, if_pos (decide_eq_true htype)]
        exact ih (hm.loadPhdr h hl hc hload) (by omega)
      · rw [if_neg htype, if_neg (by simpa using htype)]
        exact ih hm (by omega)
    · rw [if_neg hi, drop_eq_nil_of_le (by omega)]
      rfl

theorem FileAt.byte (hm : FileAt m file) {b : UInt8} (hb : file[i]? = some b) :
    m (stubFile + i) = b := by
  have hi : i < file.length := (List.getElem?_eq_some_iff.mp hb).1
  rw [hm i hi, ByteMem.ofList, getD_eq_getElem?_getD, hb, Option.getD_some]

/-- **The stub** copies every segment to its place, and changes nothing else. -/
theorem startStub_image (h : IsElf64 file) (hl : Loadable file) (hc : Clear file)
    (hm : FileAt m file) :
    ∃ m' entry, startStub m = some (m', entry) ∧
      (∀ p ∈ loads file, ∀ x, p.Covers x → m' x = segmentByte file p x) ∧
      ∀ x, (∀ p ∈ loads file, ¬ p.Covers x) → m' x = m x := by
  have hlen := h.header
  have htable := h.table
  have hspace := hc.space
  have hmagic : ∀ i < 4, file[i]? = [0x7F, 0x45, 0x4C, 0x46][i]? := by
    intro i hi
    rw [← h.magic, List.getElem?_take_of_lt hi]
  have hident : m stubFile = 0x7F ∧ m (stubFile + 1) = 0x45 ∧ m (stubFile + 2) = 0x4C ∧
      m (stubFile + 3) = 0x46 ∧ m (stubFile + 4) = 2 :=
    ⟨hm.byte (hmagic 0 (by decide)), hm.byte (hmagic 1 (by decide)), hm.byte (hmagic 2 (by decide)),
      hm.byte (hmagic 3 (by decide)), hm.byte h.elfClass⟩
  have hoff : ePhoff m stubFile = ePhoff (.ofList file) 0 := by
    exact hm.load (by omega)
  have hwrap : wrap32 (stubFile + wrap32 (ePhoff (.ofList file) 0)) =
      stubFile + ePhoff (.ofList file) 0 := by
    have hwrap : wrap32 (ePhoff (.ofList file) 0) = ePhoff (.ofList file) 0 :=
      Nat.mod_eq_of_lt (by omega)
    rw [hwrap]
    exact Nat.mod_eq_of_lt (by omega)
  have hnum : (phdrs file).length ≤ 65536 + 0 := by
    rw [phdrs_length]
    exact Nat.le_of_lt ((ByteMem.ofList file).load_lt _ 2)
  have hloop := stubLoop_eq h hl hc hm hnum
  obtain ⟨hin, hout⟩ := loadAll_apply h hl hc hm (fun p hp => hp) hl.apart
  refine ⟨_, _, if_pos hident, ?_⟩
  rw [hoff, hwrap, hloop]
  exact ⟨hin, hout⟩

/-! ## The two loaders -/

/-- A byte of a segment in the load image. -/
theorem IsImage.segment {image : List UInt8} (himage : IsImage file image) (hl : Loadable file)
    (hp : p ∈ loads file) {x : Nat} (hx : p.Covers x) :
    image[x]? = some (segmentByte file p x) := by
  unfold segmentByte
  by_cases hfile : p.CoversFile x
  · have hbyte := himage.bytes p hp (x - p.paddr) (by have := hfile.2; have := hfile.1; omega)
    have hoff : p.offset + (x - p.paddr) < file.length := by
      have := hl.inFile p hp
      have := hfile.2
      have := hfile.1
      omega
    rw [Nat.add_sub_cancel' hfile.1] at hbyte
    rw [if_pos hfile, hbyte, ByteMem.ofList, getD_eq_getElem?_getD,
      List.getElem?_eq_getElem hoff, Option.getD_some]
  · have hlt : x < image.length := by
      rw [himage.length]
      exact Nat.lt_of_lt_of_le hx.2 (le_imageEnd hp)
    rw [if_neg hfile]
    refine himage.zeros x hlt fun q hq hqx => ?_
    by_cases hpq : p = q
    · exact hfile (hpq ▸ hqx)
    · -- another segment with data here would overlap this one
      have hsymm : Std.Symm fun p q : Elf64Phdr => ∀ x, p.Covers x → ¬ q.Covers x :=
        ⟨fun p q hpq x hqx hpx => hpq x hpx hqx⟩
      exact hl.apart.forall hp hq hpq x hx (hl.covers hq hqx)

/-- **The flat image is right**: it is the load image of the file, and the memory that the stub
leaves at the addresses of the segments. -/
def FlatImageRight (file : List UInt8) : Prop :=
  ∃ segments, readElfSegments file = some segments ∧ IsImage file (createFlatBinary segments) ∧
    ∀ m, FileAt m file → ∃ m' entry, startStub m = some (m', entry) ∧
      (∀ p ∈ loads file, ∀ x, p.Covers x → (createFlatBinary segments)[x]? = some (m' x)) ∧
      ∀ x, (∀ p ∈ loads file, ¬ p.Covers x) → m' x = m x

/-- **The flat image.** Each segment is read as it is in the file if and only if its four fields
are the same. The image is right if the first three are and the highest segment is not passed.
It is never right if a segment ends above what the fields that are read can reach. -/
theorem flat_image_of_same_fields (h : IsElf64 file) (hl : Loadable file) :
    (readElfSegments file = some ((loads file).map (·.segment file)) ↔
      ∀ p ∈ loads file, p.filesz = p.paddr ∧ p.memsz = p.filesz ∧ p.align = p.memsz) ∧
    (SameFields file → Clear file → FlatImageRight file) ∧
    ((∃ q ∈ loads file, ∀ p ∈ loads file,
      p.filesz + max p.align p.memsz < q.paddr + q.memsz) → ¬ FlatImageRight file) := by
  refine ⟨readElfSegments_right_iff h, ?_, ?_⟩
  · intro hsame hc
    have himage := isImage_of_sameFields hl hsame
    refine ⟨_, readElfSegments_eq h, himage, fun m hm => ?_⟩
    obtain ⟨m', entry, hrun, hin, hout⟩ := startStub_image h hl hc hm
    refine ⟨m', entry, hrun, fun p hp x hx => ?_, hout⟩
    rw [himage.segment hl hp hx, hin p hp x hx]
  · rintro ⟨q, hq, hhigh⟩ ⟨segments, hread, himage, -⟩
    rw [readElfSegments_eq h, Option.some_inj] at hread
    rw [← hread] at himage
    exact not_isImage_of_high hq hhigh himage

/-- A file with one program header, at 64, and four bytes behind it, at 120. -/
def oneSegment (paddr filesz memsz align : List UInt8) : List UInt8 :=
  [0x7F, 0x45, 0x4C, 0x46, 2, 1, 1, 0] ++ List.replicate 24 0 ++
    [64, 0, 0, 0, 0, 0, 0, 0] ++ List.replicate 14 0 ++ [56, 0, 1, 0] ++ List.replicate 6 0 ++
    [1, 0, 0, 0, 5, 0, 0, 0] ++ [120, 0, 0, 0, 0, 0, 0, 0] ++ List.replicate 8 0 ++
    paddr ++ filesz ++ memsz ++ align ++ [0xDE, 0xAD, 0xBE, 0xEF]

/-- A segment whose fields are all 4. -/
def sameSegment : List UInt8 :=
  oneSegment [4, 0, 0, 0, 0, 0, 0, 0] [4, 0, 0, 0, 0, 0, 0, 0] [4, 0, 0, 0, 0, 0, 0, 0]
    [4, 0, 0, 0, 0, 0, 0, 0]

/-- Four bytes at 1 MiB, with a tail of four zeros and the alignment of a page. -/
def kernelSegment : List UInt8 :=
  oneSegment [0, 0, 0x10, 0, 0, 0, 0, 0] [4, 0, 0, 0, 0, 0, 0, 0] [8, 0, 0, 0, 0, 0, 0, 0]
    [0, 0x10, 0, 0, 0, 0, 0, 0]

theorem loads_sameSegment : loads sameSegment = [⟨1, 120, 4, 4, 4, 4⟩] := by decide +kernel

theorem loads_kernelSegment : loads kernelSegment = [⟨1, 120, 0x100000, 4, 8, 0x1000⟩] := by
  decide +kernel

theorem isElf64_kernelSegment : IsElf64 kernelSegment := by
  constructor <;> decide +kernel

/-- One segment can be loaded if it is in the file and below 4 GiB. -/
theorem Loadable.of_single (hp : loads file = [p])
    (hfile : p.offset + p.filesz ≤ file.length) (hsize : p.filesz ≤ p.memsz)
    (hbelow : p.paddr + p.memsz ≤ 2 ^ 32) : Loadable file := by
  constructor <;> rw [hp]
  · exact forall_mem_singleton.mpr hfile
  · exact forall_mem_singleton.mpr hsize
  · exact forall_mem_singleton.mpr hbelow
  · exact pairwise_singleton _ _

theorem flat_image_of_same_fields_four : FlatImageRight sameSegment := by
  have hl : Loadable sameSegment :=
    .of_single loads_sameSegment (by decide +kernel) (by decide) (by decide)
  refine (flat_image_of_same_fields (by constructor <;> decide +kernel) hl).2.1 ?_ ?_
  · intro p hp
    rw [loads_sameSegment] at hp ⊢
    rw [List.mem_singleton.mp hp]
    decide
  · constructor
    · decide +kernel
    · intro p hp x hx _
      rw [List.mem_singleton.mp hp]
      rintro ⟨_, hlt⟩
      exact absurd (Nat.lt_of_le_of_lt hx hlt) (by decide)

/-- The kernel's own kind of file: the segment is at 1 MiB, and the image has `0x1000` bytes. -/
theorem flat_image_too_short :
    IsElf64 kernelSegment ∧ Loadable kernelSegment ∧
      (readElfSegments kernelSegment).map (fun segs => (createFlatBinary segs).length) =
        some 0x1000 ∧
      imageEnd (loads kernelSegment) = 0x100008 ∧ ¬ FlatImageRight kernelSegment := by
  have hlen : (createFlatBinary ((loads kernelSegment).map (·.segmentRead kernelSegment))).length =
      0x1000 := by
    have hdata : (slice kernelSegment 120 (120 + 8)).length = 4 := by decide +kernel
    rw [loads_kernelSegment, List.map_singleton, length_createFlatBinary_singleton]
    show 4 + (slice kernelSegment 120 (120 + 8)).length + (0x1000 - 8) = 0x1000
    rw [hdata]
  have hend : imageEnd (loads kernelSegment) = 0x100008 := by
    decide
  refine ⟨isElf64_kernelSegment, .of_single loads_kernelSegment (by decide +kernel) (by decide)
    (by decide), ?_, hend, ?_⟩
  · rw [readElfSegments_eq isElf64_kernelSegment, Option.map_some, hlen]
  · rintro ⟨segments, hread, himage, -⟩
    rw [readElfSegments_eq isElf64_kernelSegment, Option.some_inj] at hread
    have hlength := himage.length
    rw [← hread, hlen] at hlength
    exact absurd hlength (by decide)

end GosKernel.Boot
