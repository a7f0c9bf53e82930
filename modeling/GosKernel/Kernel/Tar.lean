import GosKernel.Kernel.Strings
import Mathlib.Algebra.BigOperators.Group.List.Basic

/-!
# TAR archives (`src/kernel/tar.c`)

`tar_find` walks an archive header by header. How far the next header is it reads from
the octal size of the present one, so a lookup finds its file if parsing, rounding to
blocks and comparing names all agree with how the archive was laid out.

- `tarFindLoop_miss`, `tarFindLoop_hit`: what one round does at an entry;
- `tar_find_inverts`: lookup inverts layout.
-/

namespace GosKernel.Tar

open Strings

/-! ## The code -/

/-- `TAR_BLOCK_SIZE`, also `sizeof(tar_header_t)`. -/
def tarBlockSize : Nat := 512

/-- The offset of `size` in `tar_header_t`. -/
def sizeOffset : Nat := 124

/-- `sizeof(header->size)`. -/
def sizeofSize : Nat := 12

/-- The offset of `magic` in `tar_header_t`. -/
def magicOffset : Nat := 257

/-- `TAR_MAGIC`, "ustar". -/
def tarMagic : List UInt8 := [0x75, 0x73, 0x74, 0x61, 0x72]

/-- `g_tar_start` and `g_tar_size`. -/
structure TarState where
  start : Nat
  size : Nat

/-- `tar_init` (tar.c:20-25). -/
def tarInit (start size : Nat) : TarState := ⟨start, size⟩

/-- The loop of `tar_octal_to_size` (tar.c:12-18), with `n` of the `len` rounds left. -/
def tarOctalToSize (m : ByteMem) : (n str val : Nat) → Nat
  | 0, _, val => val
  | n + 1, str, val =>
    if 48 ≤ (m str).toNat ∧ (m str).toNat ≤ 55 then
      tarOctalToSize m n (str + 1) (wrap64 (val * 8 + ((m str).toNat - 48)))
    else val

/-- `tar_is_valid` (tar.c:27-30). -/
def tarIsValid (m : ByteMem) (header : Nat) : Bool :=
  header ≠ 0 ∧ memcmp m (ByteMem.ofList tarMagic) 5 (header + magicOffset) 0 = 0

/-- `tar_get_size` (tar.c:32-35). -/
def tarGetSize (m : ByteMem) (header : Nat) : Nat :=
  if header = 0 then 0 else tarOctalToSize m sizeofSize (header + sizeOffset) 0

/-- `tar_is_valid(hdr) && strcmp(hdr->name, name) == 0`. -/
def tarMatches (m : ByteMem) (name fuel hdr : Nat) : Option Bool :=
  if tarIsValid m hdr then (strcmp m m fuel hdr name).map (· = 0) else some false

/-- The header after the one at `ptr`. -/
def tarNext (m : ByteMem) (ptr : Nat) : Nat :=
  let blocks := wrap64 (tarGetSize m ptr + tarBlockSize - 1) / tarBlockSize
  wrap64 (ptr + wrap64 (tarBlockSize * (1 + blocks)))

/-- The loop of `tar_find` (tar.c:42-51). -/
def tarFindLoop (m : ByteMem) (name last : Nat) : (fuel ptr : Nat) → Option Nat
  | 0, _ => none
  | fuel + 1, ptr =>
    if wrap64 (ptr + tarBlockSize) ≤ last then
      if m ptr = 0 then some 0
      else (tarMatches m name fuel ptr).bind fun found =>
        if found then some ptr else tarFindLoop m name last fuel (tarNext m ptr)
    else some 0

/-- `tar_find` (tar.c:37-53). -/
def tarFind (t : TarState) (m : ByteMem) (name fuel : Nat) : Option Nat :=
  if t.start = 0 ∨ name = 0 then some 0
  else tarFindLoop m name (wrap64 (t.start + t.size)) fuel t.start

/-! ## Layout -/

/-- A file of an archive. -/
structure TarEntry where
  name : CString
  content : List UInt8
  name_pos : 0 < name.bytes.length
  name_le : name.bytes.length ≤ 99
  content_lt : content.length < 8 ^ 11

/-- The header and the blocks of the content. -/
def TarEntry.extent (e : TarEntry) : Nat :=
  tarBlockSize * (1 + (e.content.length + (tarBlockSize - 1)) / tarBlockSize)

/-- The last `d` octal digits of `n`. -/
def octal : (d n : Nat) → List UInt8
  | 0, _ => []
  | d + 1, n => UInt8.ofNat (48 + n / 8 ^ d % 8) :: octal d n

/-- The entry stands at `a`: name, size and magic of its header, and its content. -/
structure EntryAt (m : ByteMem) (a : Nat) (e : TarEntry) : Prop where
  name : IsString m a e.name
  size : m.Holds (a + sizeOffset) (octal 11 e.content.length ++ [0])
  magic : m.Holds (a + magicOffset) tarMagic
  content : m.Holds (a + tarBlockSize) e.content

/-- The entries stand at `a` one after the other, followed by a zero block. -/
def ArchiveAt (m : ByteMem) : Nat → List TarEntry → Prop
  | a, [] => m.Holds a (List.replicate tarBlockSize 0)
  | a, e :: es => EntryAt m a e ∧ ArchiveAt m (a + e.extent) es

/-- The bytes of the entries. -/
def extents (es : List TarEntry) : Nat := (es.map TarEntry.extent).sum

theorem TarEntry.block_in_extent (e : TarEntry) {a last : Nat} (h : a + e.extent ≤ last) :
    a + tarBlockSize ≤ last := by
  have hblock : tarBlockSize ≤ e.extent :=
    Nat.le_mul_of_pos_right _ (Nat.add_pos_left Nat.one_pos _)
  exact (Nat.add_le_add_left hblock a).trans h

section Lemmas

variable {m : ByteMem} {a name last : Nat} {e : TarEntry} {es : List TarEntry} {n : CString}

/-! ## Sizes -/

/-- Reading `d` digits appends them to the value read so far. -/
theorem tarOctalToSize_octal {d k x val : Nat} (h : m.Holds a (octal d x))
    (hlt : val * 8 ^ d + x % 8 ^ d < 2 ^ 64) :
    tarOctalToSize m (d + k) a val = tarOctalToSize m k (a + d) (val * 8 ^ d + x % 8 ^ d) := by
  induction d generalizing a val with
  | zero =>
    rw [Nat.zero_add, pow_zero, Nat.mod_one, Nat.mul_one]
    rfl
  | succ d ih =>
    have hsplit : val * 8 ^ (d + 1) + x % 8 ^ (d + 1)
        = (val * 8 + x / 8 ^ d % 8) * 8 ^ d + x % 8 ^ d := by
      rw [Nat.mod_pow_succ]
      ring
    rw [hsplit] at hlt ⊢
    have hpos : 0 < 8 ^ d := Nat.pow_pos (by decide)
    have hval : val * 8 + x / 8 ^ d % 8 < 2 ^ 64 := by
      have := Nat.le_mul_of_pos_right (val * 8 + x / 8 ^ d % 8) hpos
      omega
    have hbyte : (m a).toNat = 48 + x / 8 ^ d % 8 := by
      rw [show m a = _ from h.1, UInt8.toNat_ofNat']
      omega
    have hround : tarOctalToSize m (d + 1 + k) a val
        = tarOctalToSize m (d + k) (a + 1) (val * 8 + x / 8 ^ d % 8) := by
      rw [show d + 1 + k = d + k + 1 by omega, tarOctalToSize, hbyte, if_pos (by omega),
        Nat.add_sub_cancel_left, wrap64_of_lt hval]
    rw [hround, ih h.2 hlt, show a + 1 + d = a + (d + 1) by omega]

section

variable (h : EntryAt m a e)
include h

theorem EntryAt.tarGetSize (ha : a ≠ 0) : tarGetSize m a = e.content.length := by
  have hlt := e.content_lt
  obtain ⟨hdigits, hnul⟩ := ByteMem.holds_append.mp h.size
  have hval : 0 * 8 ^ 11 + e.content.length % 8 ^ 11 = e.content.length := by
    rw [Nat.zero_mul, Nat.zero_add, Nat.mod_eq_of_lt hlt]
  have hnul : m (a + sizeOffset + 11) = 0 := hnul.1
  rw [Tar.tarGetSize, if_neg ha, show sizeofSize = 11 + 1 from rfl,
    tarOctalToSize_octal hdigits (by omega), hval, tarOctalToSize, hnul]
  exact if_neg (by decide)

theorem EntryAt.tarNext (ha : a ≠ 0) (hend : a + e.extent < 2 ^ 64) :
    tarNext m a = a + e.extent := by
  have hlt := e.content_lt
  have hblocks : wrap64 (Tar.tarGetSize m a + tarBlockSize - 1) / tarBlockSize
      = (e.content.length + (tarBlockSize - 1)) / tarBlockSize := by
    have hblock : tarBlockSize = 512 := rfl
    rw [h.tarGetSize ha, wrap64_of_lt (by omega)]
    rfl
  have hextent : wrap64 (tarBlockSize * (1 + wrap64 (Tar.tarGetSize m a + tarBlockSize - 1) /
      tarBlockSize)) = e.extent := by
    rw [hblocks]
    exact wrap64_of_lt (show e.extent < 2 ^ 64 by omega)
  show wrap64 (a + wrap64 _) = _
  rw [hextent, wrap64_of_lt hend]

/-! ## Names -/

theorem EntryAt.valid (ha : a ≠ 0) : tarIsValid m a = true := by
  have hlit : (ByteMem.ofList tarMagic).Holds 0 tarMagic := by decide
  exact decide_eq_true ⟨ha, memcmp_same h.magic hlit⟩

theorem EntryAt.name_ne : m a ≠ 0 := by
  obtain ⟨b, l, hbytes⟩ := List.exists_cons_of_length_pos e.name_pos
  have hname := h.name
  rw [IsString, hbytes] at hname
  intro hzero
  exact e.name.nul_free (by rw [hbytes, ← hzero, show m a = b from hname.1]; simp)

variable {es1 es2 : List TarEntry} {fuel : Nat}

theorem EntryAt.matches_iff (ha : a ≠ 0) (hn : IsString m name n)
    (hfuel : 100 ≤ fuel) : tarMatches m name fuel a = some (decide (e.name = n)) := by
  have hle := e.name_le
  obtain ⟨r, hr, hiff⟩ := strcmp_strings h.name hn (show e.name.bytes.length < fuel by omega)
  rw [tarMatches, if_pos (h.valid ha), hr, Option.map_some, decide_eq_decide.mpr hiff]

/-! ## The walk -/

omit h in
theorem block_in_range (h : a + tarBlockSize ≤ last) (hmax : last < 2 ^ 64) :
    wrap64 (a + tarBlockSize) ≤ last := by
  rwa [wrap64_of_lt (Nat.lt_of_le_of_lt h hmax)]

theorem tarFindLoop_miss (ha : a ≠ 0) (hlast : a + e.extent ≤ last)
    (hmax : last < 2 ^ 64) (hn : IsString m name n) (hne : e.name ≠ n) (hfuel : 100 ≤ fuel) :
    tarFindLoop m name last (fuel + 1) a = tarFindLoop m name last fuel (a + e.extent) := by
  have hroom := block_in_range (e.block_in_extent hlast) hmax
  rw [tarFindLoop, if_pos hroom, if_neg h.name_ne, h.matches_iff ha hn hfuel, decide_eq_false hne,
    Option.bind_some, if_neg Bool.false_ne_true, h.tarNext ha (by omega)]

theorem tarFindLoop_hit (ha : a ≠ 0) (hlast : a + e.extent ≤ last)
    (hmax : last < 2 ^ 64) (hn : IsString m name n) (heq : e.name = n)
    (hfuel : 100 ≤ fuel) : tarFindLoop m name last (fuel + 1) a = some a := by
  have hroom := block_in_range (e.block_in_extent hlast) hmax
  rw [tarFindLoop, if_pos hroom, if_neg h.name_ne, h.matches_iff ha hn hfuel, decide_eq_true heq,
    Option.bind_some, if_pos rfl]

end

theorem tarFindLoop_end (h : ArchiveAt m a []) (hlast : a + tarBlockSize ≤ last)
    (hmax : last < 2 ^ 64) : tarFindLoop m name last (fuel + 1) a = some 0 := by
  have hzero : m a = 0 := h.1
  rw [tarFindLoop, if_pos (block_in_range hlast hmax), if_pos hzero]

theorem ArchiveAt.append (h : ArchiveAt m a (es1 ++ es2)) : ArchiveAt m (a + extents es1) es2 := by
  induction es1 generalizing a with
  | nil => exact h
  | cons e es1 ih =>
    have htail := ih h.2
    rwa [show a + e.extent + extents es1 = a + extents (e :: es1) by
      simp [extents, Nat.add_assoc]] at htail

theorem tarFindLoop_skip (h : ArchiveAt m a (es1 ++ es2)) (ha : a ≠ 0)
    (hlast : a + extents es1 ≤ last) (hmax : last < 2 ^ 64) (hn : IsString m name n)
    (hne : ∀ e ∈ es1, e.name ≠ n) (hfuel : 100 ≤ fuel) :
    tarFindLoop m name last (fuel + es1.length) a
      = tarFindLoop m name last fuel (a + extents es1) := by
  induction es1 generalizing a with
  | nil => rfl
  | cons e es1 ih =>
    have hext : extents (e :: es1) = e.extent + extents es1 := rfl
    rw [hext] at hlast ⊢
    rw [List.length_cons, ← Nat.add_assoc, tarFindLoop_miss h.1 ha (by omega) hmax hn
      (hne e List.mem_cons_self) (by omega), ← Nat.add_assoc]
    exact ih h.2 (by omega) (by omega) fun e he => hne e (List.mem_cons_of_mem _ he)

/-! ## Lookups -/

section Lookup

variable {start size : Nat}

theorem tarFind_eq (hstart : start ≠ 0) (hname : name ≠ 0) (hmax : start + size < 2 ^ 64)
    (fuel : Nat) : tarFind (tarInit start size) m name fuel
      = tarFindLoop m name (start + size) fuel start := by
  refine (if_neg (not_or_intro hstart hname)).trans ?_
  show tarFindLoop m name (wrap64 (start + size)) fuel start = _
  rw [wrap64_of_lt hmax]

theorem tarFind_first {es1 es2 : List TarEntry} (harch : ArchiveAt m start (es1 ++ e :: es2))
    (hstart : start ≠ 0) (hsize : extents (es1 ++ e :: es2) + tarBlockSize ≤ size)
    (hmax : start + size < 2 ^ 64) (hname : name ≠ 0) (hn : IsString m name n) (heq : e.name = n)
    (hne : ∀ e' ∈ es1, e'.name ≠ n) {fuel : Nat} (hfuel : 101 + es1.length ≤ fuel) :
    tarFind (tarInit start size) m name fuel = some (start + extents es1) := by
  have hext : extents (es1 ++ e :: es2) = extents es1 + (e.extent + extents es2) := by
    simp [extents]
  obtain ⟨k, rfl⟩ := Nat.exists_eq_add_of_le hfuel
  rw [tarFind_eq hstart hname hmax, show 101 + es1.length + k = 100 + k + 1 + es1.length by omega,
    tarFindLoop_skip harch hstart (by omega) hmax hn hne (by omega)]
  exact tarFindLoop_hit harch.append.1 (by omega) (by omega) hmax hn heq (by omega)

theorem tarFind_absent (harch : ArchiveAt m start es) (hstart : start ≠ 0)
    (hsize : extents es + tarBlockSize ≤ size) (hmax : start + size < 2 ^ 64) (hname : name ≠ 0)
    (hn : IsString m name n) (hne : ∀ e ∈ es, e.name ≠ n) {fuel : Nat}
    (hfuel : 101 + es.length ≤ fuel) : tarFind (tarInit start size) m name fuel = some 0 := by
  obtain ⟨k, rfl⟩ := Nat.exists_eq_add_of_le hfuel
  rw [← List.append_nil es] at harch
  rw [tarFind_eq hstart hname hmax, show 101 + es.length + k = 100 + k + 1 + es.length by omega,
    tarFindLoop_skip harch hstart (by omega) hmax hn hne (by omega)]
  exact tarFindLoop_end harch.append (by omega) hmax

/-- The entries up to the first one with the name. -/
theorem exists_first (h : ∃ e ∈ es, e.name = n) :
    ∃ es1 e es2, es = es1 ++ e :: es2 ∧ e.name = n ∧ ∀ e' ∈ es1, e'.name ≠ n := by
  obtain ⟨e0, he0, heq0⟩ := h
  have hsome : (es.find? fun e => e.name = n).isSome :=
    List.find?_isSome.mpr ⟨e0, he0, decide_eq_true heq0⟩
  obtain ⟨e, hfirst⟩ := Option.isSome_iff_exists.mp hsome
  obtain ⟨heq, es1, es2, hes, hne⟩ := List.find?_eq_some_iff_append.mp hfirst
  exact ⟨es1, e, es2, hes, of_decide_eq_true heq, fun e' he' => by simpa using hne e' he'⟩

end Lookup

end Lemmas

/-- **Lookup inverts layout.** In an archive of any entries followed by a zero block,
`tar_find` of a string returns: the address of the first entry with that name, from where
its size and its content are read, or `NULL` if and only if no entry has it. -/
theorem tar_find_inverts {m : ByteMem} {start size name : Nat} {es : List TarEntry} {n : CString}
    (harch : ArchiveAt m start es) (hstart : start ≠ 0)
    (hsize : extents es + tarBlockSize ≤ size) (hmax : start + size < 2 ^ 64)
    (hname : name ≠ 0) (hn : IsString m name n) :
    ∃ r N, (∀ fuel, N ≤ fuel → tarFind (tarInit start size) m name fuel = some r) ∧
      (∀ es1 e es2, es = es1 ++ e :: es2 → e.name = n → (∀ e' ∈ es1, e'.name ≠ n) →
        r = start + extents es1 ∧ tarGetSize m r = e.content.length ∧
          m.Holds (r + tarBlockSize) e.content) ∧
      (r = 0 ↔ ∀ e ∈ es, e.name ≠ n) := by
  by_cases hex : ∃ e ∈ es, e.name = n
  · obtain ⟨es1, e, es2, hes, heq, hne⟩ := exists_first hex
    have hfound : ∀ es1 e es2, es = es1 ++ e :: es2 → e.name = n → (∀ e' ∈ es1, e'.name ≠ n) →
        ∀ fuel, 101 + es1.length ≤ fuel →
          tarFind (tarInit start size) m name fuel = some (start + extents es1) := by
      rintro es1 e es2 rfl heq hne fuel hfuel
      exact tarFind_first harch hstart hsize hmax hname hn heq hne hfuel
    refine ⟨_, _, hfound es1 e es2 hes heq hne, fun es1' e' es2' hes' heq' hne' => ?_, ?_⟩
    · -- a lookup has one result, so the entry is the one of any other such split
      have hsame := (hfound es1 e es2 hes heq hne (101 + es1.length + es1'.length)
        (by omega)).symm.trans (hfound es1' e' es2' hes' heq' hne' _ (by omega))
      rw [Option.some.inj hsame]
      have hat : EntryAt m (start + extents es1') e' := (hes' ▸ harch).append.1
      exact ⟨rfl, hat.tarGetSize (by omega), hat.content⟩
    · exact ⟨fun h => absurd h (by omega), fun h => absurd heq (h e (by simp [hes]))⟩
  · have hnone : ∀ e ∈ es, e.name ≠ n := fun e he heq => hex ⟨e, he, heq⟩
    refine ⟨0, 101 + es.length, fun fuel hfuel => ?_, fun es1 e es2 hes heq _ => ?_,
      iff_of_true rfl hnone⟩
    · exact tarFind_absent harch hstart hsize hmax hname hn hnone hfuel
    · exact absurd heq (hnone e (by simp [hes]))

/-- The string "a". -/
def nameA : CString := ⟨[0x61], by decide⟩

/-- A file "a" of two bytes. -/
def entryA : TarEntry := ⟨nameA, [1, 2], by decide, by decide, by decide⟩

/-- An archive of that file at `512`, the string "a" at `2`. -/
def smallImage : ByteMem := fun x =>
  if x = 2 ∨ x = 512 then 0x61
  else if 636 ≤ x ∧ x < 646 then 48
  else if x = 646 then 50
  else if 769 ≤ x ∧ x < 774 then ByteMem.ofList tarMagic (x - 769)
  else if 1024 ≤ x ∧ x < 1026 then UInt8.ofNat (x - 1023)
  else 0

/-- The file of a small archive is found. -/
theorem tar_find_inverts_small : ∃ N, ∀ fuel, N ≤ fuel →
    tarFind (tarInit 512 1536) smallImage 2 fuel = some 512 := by
  have hzero : smallImage.Holds (512 + entryA.extent) (List.replicate tarBlockSize 0) := by
    decide +kernel
  have harch : ArchiveAt smallImage 512 [entryA] :=
    ⟨⟨show smallImage.Holds 512 [0x61, 0] by decide +kernel, by decide +kernel,
      by decide +kernel, by decide +kernel⟩, hzero⟩
  have hname : IsString smallImage 2 nameA :=
    show smallImage.Holds 2 [0x61, 0] by decide +kernel
  obtain ⟨r, N, hfind, hfirst, -⟩ := tar_find_inverts harch (by decide)
    (show extents [entryA] + tarBlockSize ≤ 1536 by decide) (by decide) (by decide) hname
  obtain ⟨rfl, -⟩ := hfirst [] entryA [] rfl rfl nofun
  exact ⟨N, hfind⟩

end GosKernel.Tar
