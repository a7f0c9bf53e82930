import GosKernel.Kernel.Strings
import Mathlib.Data.List.FinRange

/-!
# The initial RAM disk (`src/kernel/initrd.c`)

`initrd_init` copies the file headers of an image to a table and notes where the data
behind the headers starts. The table has room for 64 headers. The number of headers is
clamped to that before the start of the data is computed from it, so in an image with
more files the start is that many headers too low.

- `initrd_contents`: files are found; when they read as they are;
- `initrd_contents_shifted`: an image with 65 files, whose first file reads wrong.
-/

namespace GosKernel.Initrd

open Strings

/-! ## The code -/

def initrdMaxFiles : Nat := 64

/-- `INITRD_FILENAME_MAX`, the size of `name`. -/
def initrdFilenameMax : Nat := 64

def initrdMagic : Nat := 0xBADB0021

/-- `sizeof(initrd_header_t)`. -/
def sizeofHeader : Nat := 8

/-- `sizeof(initrd_file_t)`: the name, two 32-bit words, a `bool` and padding. -/
def sizeofFile : Nat := 76

/-- The offset of `offset` in `initrd_file_t`. -/
def offsetOffset : Nat := 64

/-- The offset of `size` in `initrd_file_t`. -/
def sizeOffset : Nat := 68

/-- The offset of `valid` in `initrd_file_t`. -/
def validOffset : Nat := 72

/-- The variables of the driver; `files` holds the bytes of `g_initrd_files`. -/
structure InitrdState where
  files : ByteMem
  base : Nat
  dataStart : Nat
  present : Bool

/-- The copy loop of `initrd_init` (initrd.c:43-46), with `n` headers left from `i` on. -/
def initrdLoad (m : ByteMem) (files : Nat) : (n i : Nat) → ByteMem → ByteMem
  | 0, _, t => t
  | n + 1, i, t =>
    let copied := t.overlay (sizeofFile * i) sizeofFile fun j => m (files + sizeofFile * i + j)
    initrdLoad m files n (i + 1) (copied.store (sizeofFile * i + validOffset) 1 1)

/-- `initrd_init` (initrd.c:19-54). -/
def initrdInit (start : Nat) (m : ByteMem) (s : InitrdState) : InitrdState :=
  let s := { s with base := start }
  if start = 0 then s
  else if m.load start 4 ≠ initrdMagic then s
  else
    let numFiles := m.load (start + 4) 4
    let numFiles := if numFiles > initrdMaxFiles then initrdMaxFiles else numFiles
    { s with
      files := initrdLoad m (wrap64 (start + sizeofHeader)) numFiles 0 s.files
      dataStart := wrap64 (start + sizeofHeader + numFiles * sizeofFile)
      present := true }

/-- `g_initrd_files[i].valid && strcmp(g_initrd_files[i].name, name) == 0`. -/
def initrdMatches (t m : ByteMem) (name fuel i : Nat) : Option Bool :=
  if t (sizeofFile * i + validOffset) ≠ 0 then
    (strcmp t m fuel (sizeofFile * i) name).map (· = 0)
  else some false

/-- The loop of `initrd_find` (initrd.c:62-66), with `n` entries left from `i` on. -/
def initrdFindLoop (t m : ByteMem) (name fuel : Nat) : (n i : Nat) → Option (Option Nat)
  | 0, _ => some none
  | n + 1, i => (initrdMatches t m name fuel i).bind fun found =>
    if found then some (some i) else initrdFindLoop t m name fuel n (i + 1)

/-- `initrd_find` (initrd.c:60-68). A pointer to a file is its index in the table. -/
def initrdFind (s : InitrdState) (m : ByteMem) (name fuel : Nat) : Option (Option Nat) :=
  if name = 0 then some none else initrdFindLoop s.files m name fuel initrdMaxFiles 0

/-- `initrd_read` (initrd.c:70-78). The buffer of the caller is its own memory. -/
def initrdRead (s : InitrdState) (m : ByteMem) (file : Option Nat) (buf : Option ByteMem)
    (offset len : Nat) : Nat × Option ByteMem :=
  match file, buf with
  | some i, some b =>
    let size := s.files.load (sizeofFile * i + sizeOffset) 4
    let src := wrap64 (s.dataStart + s.files.load (sizeofFile * i + offsetOffset) 4 + offset)
    if s.files (sizeofFile * i + validOffset) = 0 then (0, buf)
    else if offset ≥ size then (0, buf)
    else
      let len := if wrap64 (offset + len) > size then size - offset else len
      (len, some (b.overlay 0 len fun j => m (src + j)))
  | _, _ => (0, buf)

/-! ## Images -/

/-- A file of an image, and where in the data area it is. -/
structure InitrdEntry where
  name : CString
  offset : Nat
  content : List UInt8
  name_lt : name.bytes.length < initrdFilenameMax

/-- The header of a file stands at `a`. Its `valid` and its padding are not looked at. -/
structure HeaderAt (m : ByteMem) (a : Nat) (f : InitrdEntry) : Prop where
  name : IsString m a f.name
  offset : m.load (a + offsetOffset) 4 = f.offset
  size : m.load (a + sizeOffset) 4 = f.content.length

/-- Where the header of file `i` is. -/
def headerAddr (start i : Nat) : Nat := start + sizeofHeader + sizeofFile * i

/-- A well-formed image at `start`: the data area is behind the last header. -/
structure ImageAt (m : ByteMem) (start : Nat) (files : List InitrdEntry) : Prop where
  start_ne : start ≠ 0
  magic : m.load start 4 = initrdMagic
  numFiles : m.load (start + 4) 4 = files.length
  names : (files.map InitrdEntry.name).Nodup
  header : ∀ i f, files[i]? = some f → HeaderAt m (headerAddr start i) f
  data : ∀ f ∈ files, m.Holds (headerAddr start files.length + f.offset) f.content
  fits : ∀ f ∈ files, headerAddr start files.length + f.offset + f.content.length ≤ 2 ^ 64

section Lemmas

variable {m t : ByteMem} {start : Nat} {files : List InitrdEntry} {f : InitrdEntry} {i : Nat}

/-! ## The table -/

/-- The table after the copy loop: what is around the entries copied stays, and each of them is
the header with `valid` set. -/
theorem initrdLoad_spec {a n k : Nat} :
    (∀ x, x < sizeofFile * k ∨ sizeofFile * (k + n) ≤ x → initrdLoad m a n k t x = t x) ∧
    ∀ i, k ≤ i → i < k + n → initrdLoad m a n k t (sizeofFile * i + validOffset) = 1 ∧
      ∀ j, j < validOffset →
        initrdLoad m a n k t (sizeofFile * i + j) = m (a + sizeofFile * i + j) := by
  induction n generalizing k t with
  | zero => exact ⟨fun _ _ => rfl, fun i hk hi => by omega⟩
  | succ n ih =>
    let copied := t.overlay (sizeofFile * k) sizeofFile fun j => m (a + sizeofFile * k + j)
    obtain ⟨hrest, habove⟩ := @ih (copied.store (sizeofFile * k + validOffset) 1 1) (k + 1)
    have hfile : sizeofFile = 76 := rfl
    have hvalid : validOffset = 72 := rfl
    have hnext : sizeofFile * (k + 1) = sizeofFile * k + sizeofFile := Nat.mul_succ ..
    have hlast : sizeofFile * (k + (n + 1)) = sizeofFile * (k + 1 + n) :=
      congrArg (sizeofFile * ·) (by omega)
    have hle : sizeofFile * (k + 1) ≤ sizeofFile * (k + 1 + n) := Nat.mul_le_mul_left _ (by omega)
    refine ⟨fun x hx => ?_, fun i hk hi => ?_⟩
    · refine (hrest x (by omega)).trans ?_
      exact (if_neg (by omega)).trans (if_neg (by omega))
    · rcases Nat.eq_or_lt_of_le hk with rfl | hk
      · -- entry `k` is written in this round and lies below the next ones
        refine ⟨(hrest _ (by omega)).trans ?_, fun j hj => (hrest _ (by omega)).trans ?_⟩
        · refine (if_pos ⟨Nat.le_refl _, Nat.lt_succ_self _⟩).trans ?_
          rw [Nat.sub_self]
          rfl
        · refine (if_neg (by omega)).trans ((if_pos (by omega)).trans ?_)
          rw [Nat.add_sub_cancel_left]
      · exact habove i hk (by omega)

/-- A word of an entry copied is that of the header. -/
theorem load_initrdLoad {a n o : Nat} (hi : i < n) (ho : o + 4 ≤ validOffset) :
    (initrdLoad m a n 0 t).load (sizeofFile * i + o) 4 = m.load (a + sizeofFile * i + o) 4 := by
  obtain ⟨-, hcopy⟩ := initrdLoad_spec (m := m) (t := t) (a := a) (n := n) (k := 0)
  refine ByteMem.load_copy fun j hj => ?_
  rw [Nat.add_assoc, Nat.add_assoc]
  exact (hcopy i (Nat.zero_le i) (by omega)).2 (o + j) (by omega)

theorem ImageAt.entry (h : ImageAt m start files) (hf : files[i]? = some f) {n : Nat} (hi : i < n)
    {t' : ByteMem} (ht : t' = initrdLoad m (start + sizeofHeader) n 0 t) :
    HeaderAt t' (sizeofFile * i) f ∧ t' (sizeofFile * i + validOffset) ≠ 0 := by
  obtain ⟨-, hload⟩ :=
    initrdLoad_spec (m := m) (t := t) (a := start + sizeofHeader) (n := n) (k := 0)
  obtain ⟨hvalid, hcopy⟩ := hload i (Nat.zero_le i) (by omega)
  rw [ht]
  have hh := h.header i f hf
  have hlt := f.name_lt
  refine ⟨⟨?_, (load_initrdLoad hi (by decide)).trans hh.offset,
    (load_initrdLoad hi (by decide)).trans hh.size⟩, by rw [hvalid]; decide⟩
  · refine ByteMem.Holds.copy hh.name fun j hj => hcopy j ?_
    rw [List.length_append, List.length_singleton] at hj
    have hmax : initrdFilenameMax = 64 := rfl
    have hvalid : validOffset = 72 := rfl
    omega

/-! ## Lookup -/

theorem initrdMatches_iff {n name fuel : Nat} {s : CString} (h : HeaderAt t (sizeofFile * n) f)
    (hvalid : t (sizeofFile * n + validOffset) ≠ 0) (hs : IsString m name s)
    (hfuel : initrdFilenameMax ≤ fuel) :
    initrdMatches t m name fuel n = some (decide (f.name = s)) := by
  obtain ⟨r, hr, hiff⟩ := strcmp_strings h.name hs (Nat.lt_of_lt_of_le f.name_lt hfuel)
  rw [initrdMatches, if_pos hvalid, hr, Option.map_some, decide_eq_decide.mpr hiff]

/-- The search passes over the files before `i`, whose names are different. -/
theorem initrdFindLoop_hit {name fuel d k r : Nat} {s : CString}
    (hentry : ∀ j g, j ≤ k + d → files[j]? = some g →
      HeaderAt t (sizeofFile * j) g ∧ t (sizeofFile * j + validOffset) ≠ 0)
    (hnames : (files.map InitrdEntry.name).Nodup) (hf : files[k + d]? = some f) (hs : f.name = s)
    (hn : IsString m name s) (hfuel : initrdFilenameMax ≤ fuel) :
    initrdFindLoop t m name fuel (d + 1 + r) k = some (some (k + d)) := by
  induction d generalizing k with
  | zero =>
    obtain ⟨hh, hvalid⟩ := hentry k f (by omega) hf
    rw [show 0 + 1 + r = r + 1 by omega, initrdFindLoop, initrdMatches_iff hh hvalid hn hfuel,
      decide_eq_true hs]
    rfl
  | succ d ih =>
    have hlt : k + (d + 1) < files.length := (List.getElem?_eq_some_iff.mp hf).1
    have hg : files[k]? = some files[k] := List.getElem?_eq_getElem (by omega)
    obtain ⟨hh, hvalid⟩ := hentry k _ (by omega) hg
    have hne : files[k].name ≠ s := by
      intro heq
      refine List.nodup_iff_getElem?_ne_getElem?.mp hnames k (k + (d + 1)) (by omega)
        (by rwa [List.length_map]) ?_
      rw [List.getElem?_map, List.getElem?_map, hg, hf, Option.map_some, Option.map_some, heq, hs]
    rw [show d + 1 + 1 + r = d + 1 + r + 1 by omega, initrdFindLoop,
      initrdMatches_iff hh hvalid hn hfuel, decide_eq_false hne, Option.bind_some,
      if_neg Bool.false_ne_true, show k + (d + 1) = k + 1 + d by omega]
    refine ih (fun j g hj => hentry j g (by omega)) ?_
    rwa [show k + 1 + d = k + (d + 1) by omega]

/-! ## Reading -/

section Read

variable {s : InitrdState}

/-- A whole file is read from where the start of the data says that it is, so it reads right if
its bytes are there. -/
theorem initrdRead_whole_iff (hh : HeaderAt s.files (sizeofFile * i) f)
    (hvalid : s.files (sizeofFile * i + validOffset) ≠ 0) (hpos : 0 < f.content.length)
    (hfits : s.dataStart + f.offset < 2 ^ 64) :
    (∀ buf, ∃ buf', initrdRead s m (some i) (some buf) 0 f.content.length
        = (f.content.length, some buf') ∧
      buf'.Holds 0 f.content ∧ ∀ x, f.content.length ≤ x → buf' x = buf x) ↔
      m.Holds (s.dataStart + f.offset) f.content := by
  have hsize : f.content.length < 2 ^ 32 := hh.size ▸ ByteMem.load_lt _ _ 4
  have hwhole : ¬ wrap64 f.content.length > f.content.length := by
    rw [wrap64_of_lt (by omega)]
    exact Nat.lt_irrefl _
  have hread (buf : ByteMem) : initrdRead s m (some i) (some buf) 0 f.content.length
      = (f.content.length, some (buf.overlay 0 f.content.length
          fun j => m (s.dataStart + f.offset + j))) := by
    rw [initrdRead, if_neg hvalid, hh.size, hh.offset, if_neg (by omega), Nat.zero_add,
      if_neg hwhole, Nat.add_zero, wrap64_of_lt hfits]
  have hbyte (buf : ByteMem) (j : Nat) (hj : j < f.content.length) :
      buf.overlay 0 f.content.length (fun j => m (s.dataStart + f.offset + j)) (0 + j)
        = m (s.dataStart + f.offset + j) :=
    (if_pos ⟨by omega, by omega⟩).trans (by rw [Nat.sub_zero, Nat.zero_add])
  constructor
  · intro h
    obtain ⟨buf', hret, hbytes, -⟩ := h fun _ => 0
    rw [hread] at hret
    cases hret
    exact hbytes.copy fun j hj => (hbyte _ j hj).symm
  · exact fun hdata buf => ⟨_, hread buf, hdata.copy (hbyte buf), fun x hx => if_neg (by omega)⟩

end Read

/-! ## `initrd_init` -/

/-- The number of headers that are kept. -/
def kept (files : List InitrdEntry) : Nat :=
  if files.length > initrdMaxFiles then initrdMaxFiles else files.length

theorem ImageAt.init (h : ImageAt m start files) (hlt : start + sizeofHeader < 2 ^ 64)
    (s : InitrdState) :
    initrdInit start m s =
      { files := initrdLoad m (start + sizeofHeader) (kept files) 0 s.files
        base := start
        dataStart := wrap64 (start + sizeofHeader + kept files * sizeofFile)
        present := true } := by
  unfold initrdInit kept
  rw [if_neg h.start_ne, if_neg (not_not_intro h.magic), h.numFiles, wrap64_of_lt hlt]

theorem ImageAt.start_lt (h : ImageAt m start files) (hf : f ∈ files) :
    start + sizeofHeader < 2 ^ 64 := by
  have hfits := h.fits f hf
  have hpos : 1 ≤ sizeofFile * files.length :=
    Nat.mul_pos (by decide) (List.length_pos_of_mem hf)
  unfold headerAddr at hfits
  omega

/-- The data is taken to start behind the last header that was kept. -/
theorem ImageAt.dataStart_eq (h : ImageAt m start files) (hf : f ∈ files)
    (hpos : 0 < f.content.length) (s : InitrdState) :
    (initrdInit start m s).dataStart = headerAddr start (kept files) ∧
      headerAddr start (kept files) + f.offset < 2 ^ 64 := by
  have hfits := h.fits f hf
  have hle : headerAddr start (kept files) ≤ headerAddr start files.length := by
    refine Nat.add_le_add_left (Nat.mul_le_mul_left _ ?_) _
    unfold kept
    split <;> omega
  rw [h.init (h.start_lt hf), Nat.mul_comm]
  exact ⟨wrap64_of_lt (show headerAddr start (kept files) < 2 ^ 64 by omega), by omega⟩

theorem lt_kept (hf : files[i]? = some f) (hi : i < initrdMaxFiles) : i < kept files := by
  have hlt := (List.getElem?_eq_some_iff.mp hf).1
  unfold kept
  split <;> assumption

end Lemmas

/-- **Contents of the initrd.** From any state of the table, after `initrd_init` of a well-formed
image the name of each of the first 64 files leads to that file. Reading it gives its bytes if and
only if the image has no more than 64 files, or they also stand as many headers lower as were
dropped. -/
theorem initrd_contents {m : ByteMem} {start : Nat} {files : List InitrdEntry} {i : Nat}
    {f : InitrdEntry} {s : InitrdState} (himg : ImageAt m start files) (hf : files[i]? = some f)
    (hi : i < initrdMaxFiles) {m' : ByteMem} {name : Nat} (hname : name ≠ 0)
    (hn : IsString m' name f.name) :
    (∃ N, ∀ fuel, N ≤ fuel → initrdFind (initrdInit start m s) m' name fuel = some (some i)) ∧
    ((∀ buf, ∃ buf', initrdRead (initrdInit start m s) m (some i) (some buf) 0 f.content.length
        = (f.content.length, some buf') ∧
        buf'.Holds 0 f.content ∧ ∀ x, f.content.length ≤ x → buf' x = buf x) ↔
      files.length ≤ initrdMaxFiles ∨
        m.Holds (headerAddr start files.length - sizeofFile * (files.length - initrdMaxFiles)
          + f.offset) f.content) := by
  have hmem := List.mem_of_getElem? hf
  have hentry : ∀ j g, j < kept files → files[j]? = some g →
      HeaderAt (initrdInit start m s).files (sizeofFile * j) g ∧
        (initrdInit start m s).files (sizeofFile * j + validOffset) ≠ 0 := by
    rw [himg.init (himg.start_lt hmem)]
    exact fun j g hj hg => himg.entry hg hj (t := s.files) rfl
  have hkept := lt_kept hf hi
  constructor
  · refine ⟨initrdFilenameMax, fun fuel hfuel => ?_⟩
    rw [initrdFind, if_neg hname,
      show initrdMaxFiles = i + 1 + (initrdMaxFiles - (i + 1)) by omega]
    have hhit := initrdFindLoop_hit (r := initrdMaxFiles - (i + 1)) (k := 0) (d := i)
      (fun j g hj => hentry j g (by omega)) himg.names (by rwa [Nat.zero_add]) rfl hn hfuel
    rwa [Nat.zero_add] at hhit
  · obtain ⟨hh, hvalid⟩ := hentry i f hkept hf
    by_cases hempty : f.content = []
    · -- an empty file is read before anything is computed from the start of the data
      refine iff_of_true (fun buf => ⟨buf, ?_, hempty ▸ trivial, fun _ _ => rfl⟩)
        (.inr (hempty ▸ trivial))
      rw [initrdRead, if_neg hvalid, hh.size, hempty]
      rfl
    · have hpos : 0 < f.content.length := List.length_pos_of_ne_nil hempty
      obtain ⟨hdata, hfits⟩ := himg.dataStart_eq hmem hpos s
      rw [initrdRead_whole_iff hh hvalid hpos (hdata ▸ hfits), hdata]
      by_cases hclamp : files.length ≤ initrdMaxFiles
      · -- without the clamp the data starts behind the last header
        rw [kept, if_neg (by omega)]
        exact iff_of_true (himg.data f hmem) (.inl hclamp)
      · have hlower : headerAddr start files.length
            - sizeofFile * (files.length - initrdMaxFiles) = headerAddr start (kept files) := by
          rw [kept, if_pos (by omega)]
          unfold headerAddr sizeofFile
          omega
        rw [hlower, or_iff_right hclamp]

/-! ## Small images -/

/-- The name of file `i`: one byte, `i + 1`. -/
def sampleName (i : Fin 65) : CString :=
  ⟨[UInt8.ofNat (i + 1)], (by decide : ∀ i : Fin 65, (0 : UInt8) ∉ [UInt8.ofNat (i + 1)]) i⟩

/-- A file with that name, the first byte of the data area. -/
def sampleFile (i : Fin 65) : InitrdEntry :=
  ⟨sampleName i, 0, [200], by simp [sampleName, initrdFilenameMax]⟩

def sampleFiles (n : Nat) : List InitrdEntry := (List.ofFn sampleFile).take n

/-- The image of these files at `0x1000`, and the string of the first name at `2`. -/
def sampleImage (n : Nat) : ByteMem := fun x =>
  if x < 0x1000 then (if x = 2 then 1 else 0)
  else if x < 0x1008 then
    ByteMem.ofList [0x21, 0x00, 0xDB, 0xBA, UInt8.ofNat n, 0, 0, 0] (x - 0x1000)
  else if x < 0x1008 + sizeofFile * n then
    if (x - 0x1008) % sizeofFile = 0 then UInt8.ofNat ((x - 0x1008) / sizeofFile + 1)
    else if (x - 0x1008) % sizeofFile = sizeOffset then 1
    else 0
  else 200

/-- The variables before `initrd_init`. -/
def initrdZero : InitrdState := ⟨fun _ => 0, 0, 0, false⟩

theorem sampleImage_at {n : Nat} (hn : n ≤ 65)
    (hmagic : (sampleImage n).load 0x1000 4 = initrdMagic)
    (hnum : (sampleImage n).load (0x1000 + 4) 4 = n) (hheaders : ∀ i : Fin 65, i < n →
      (sampleImage n).Holds (headerAddr 0x1000 i) ([UInt8.ofNat (i + 1)] ++ [0]) ∧
      (sampleImage n).load (headerAddr 0x1000 i + offsetOffset) 4 = 0 ∧
      (sampleImage n).load (headerAddr 0x1000 i + sizeOffset) 4 = 1) :
    ImageAt (sampleImage n) 0x1000 (sampleFiles n) := by
  have hlen : (sampleFiles n).length = n := by simp [sampleFiles, hn]
  have hfile : ∀ f ∈ sampleFiles n, f.offset = 0 ∧ f.content = [200] := by
    intro f hf
    obtain ⟨i, rfl⟩ := List.mem_ofFn.mp (List.mem_of_mem_take hf)
    exact ⟨rfl, rfl⟩
  refine ⟨by decide, hmagic, by rw [hlen, hnum], ?_, ?_, ?_, ?_⟩
  · have hinj : Function.Injective fun i => (sampleFile i).name := by
      intro i j h
      have hbyte : UInt8.ofNat (i + 1) = UInt8.ofNat (j + 1) :=
        (List.cons.inj (congrArg CString.bytes h)).1
      have hval := congrArg UInt8.toNat hbyte
      rw [UInt8.toNat_ofNat', UInt8.toNat_ofNat'] at hval
      omega
    rw [sampleFiles, List.map_take]
    exact (List.nodup_ofFn.mpr hinj).sublist (List.take_sublist ..)
  · intro i f hf
    have hi : i < n := hlen ▸ (List.getElem?_eq_some_iff.mp hf).1
    rw [sampleFiles, List.getElem?_take_of_lt hi, List.getElem?_ofFn, dif_pos (by omega)] at hf
    cases hf
    obtain ⟨hname, hoffset, hsize⟩ := hheaders ⟨i, by omega⟩ hi
    exact ⟨hname, hoffset, hsize⟩
  · intro f hf
    rw [(hfile f hf).2, hlen]
    have haddr : headerAddr 0x1000 n = 0x1008 + sizeofFile * n := rfl
    refine ⟨?_, trivial⟩
    exact (if_neg (by omega)).trans ((if_neg (by omega)).trans (if_neg (by omega)))
  · intro f hf
    rw [(hfile f hf).1, (hfile f hf).2, hlen]
    show 0x1008 + 76 * n + 0 + 1 ≤ 2 ^ 64
    omega

/-- The only file of an image is found and read. -/
theorem initrd_contents_one :
    (∃ N, ∀ fuel, N ≤ fuel → initrdFind (initrdInit 0x1000 (sampleImage 1) initrdZero)
      (sampleImage 1) 2 fuel = some (some 0)) ∧
    ∃ buf, initrdRead (initrdInit 0x1000 (sampleImage 1) initrdZero) (sampleImage 1) (some 0)
      (some fun _ => 0) 0 1 = (1, some buf) ∧ buf 0 = 200 := by
  have himg : ImageAt (sampleImage 1) 0x1000 (sampleFiles 1) :=
    sampleImage_at (by decide) (by decide +kernel) (by decide +kernel) (by decide +kernel)
  have hname : IsString (sampleImage 1) 2 (sampleName 0) :=
    show (sampleImage 1).Holds 2 [1, 0] by decide +kernel
  obtain ⟨hfind, hread⟩ := initrd_contents (s := initrdZero) himg
    (show (sampleFiles 1)[0]? = some (sampleFile 0) from rfl) (by decide) (by decide) hname
  obtain ⟨buf, hlen, hbytes, -⟩ := hread.mpr (.inl (by decide)) fun _ => 0
  exact ⟨hfind, buf, hlen, hbytes.1⟩

/-- The name of the first of 65 files leads to it, but what is read is a byte of the last
header. -/
theorem initrd_contents_shifted :
    ImageAt (sampleImage 65) 0x1000 (sampleFiles 65) ∧
    (∃ f, (sampleFiles 65)[0]? = some f ∧ f.content = [200] ∧
      IsString (sampleImage 65) 2 f.name) ∧
    initrdFind (initrdInit 0x1000 (sampleImage 65) initrdZero) (sampleImage 65) 2 64
      = some (some 0) ∧
    ∃ r, r = initrdRead (initrdInit 0x1000 (sampleImage 65) initrdZero) (sampleImage 65) (some 0)
        (some fun _ => 0) 0 1 ∧
      r.1 = 1 ∧ r.2.map (· 0) = some 65 := by
  have himg : ImageAt (sampleImage 65) 0x1000 (sampleFiles 65) :=
    sampleImage_at (by decide) (by decide +kernel) (by decide +kernel) (by decide +kernel)
  have hname : IsString (sampleImage 65) 2 (sampleName 0) :=
    show (sampleImage 65).Holds 2 [1, 0] by decide +kernel
  exact ⟨himg, ⟨sampleFile 0, rfl, rfl, hname⟩, by decide +kernel, _, rfl, by decide +kernel,
    by decide +kernel⟩

end GosKernel.Initrd
