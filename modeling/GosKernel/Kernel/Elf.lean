import GosKernel.Defs
import GosKernel.Machine

/-!
# The ELF64 loader (`src/kernel/elf.c`)

The image is a buffer in memory that nothing else writes to: `data off` is the byte at
`(const uint8_t *)data + off`, wherever `off` leads. The code is given over any
`PagedMachine`.
-/

namespace GosKernel.Elf

/-! ## Headers -/

def ptLoad : Nat := 1

/-- `PF_X`. -/
def pfX : Nat := 1

/-- `PF_W`. -/
def pfW : Nat := 2

/-- `EI_CLASS`. -/
def eiClass : Nat := 4

def elfClass64 : UInt8 := 2

def emX8664 : Nat := 62

/-- `sizeof(elf64_header_t)`. -/
def sizeofElf64Header : Nat := 64

/-- `sizeof(elf64_program_header_t)`. -/
def sizeofElf64ProgramHeader : Nat := 56

/-- `hdr->machine`. -/
def elfMachine (data : ByteMem) : Nat := data.load 18 2

/-- `hdr->entry`. -/
def elfEntry (data : ByteMem) : Nat := data.load 24 8

/-- `hdr->phoff`. -/
def elfPhoff (data : ByteMem) : Nat := data.load 32 8

/-- `hdr->phentsize`. -/
def elfPhentsize (data : ByteMem) : Nat := data.load 54 2

/-- `hdr->phnum`. -/
def elfPhnum (data : ByteMem) : Nat := data.load 56 2

/-- The members of `elf64_program_header_t` that the loader reads. -/
structure ProgramHeader where
  type : Nat
  flags : Nat
  offset : Nat
  vaddr : Nat
  filesz : Nat
  memsz : Nat
deriving DecidableEq

/-- The program header at offset `off` of the image. -/
def readProgramHeader (data : ByteMem) (off : Nat) : ProgramHeader where
  type := data.load off 4
  flags := data.load (off + 4) 4
  offset := data.load (off + 8) 8
  vaddr := data.load (off + 16) 8
  filesz := data.load (off + 32) 8
  memsz := data.load (off + 40) 8

/-- Program header `i`. -/
def programHeader (data : ByteMem) (i : Nat) : ProgramHeader :=
  readProgramHeader data (wrap64 (elfPhoff data + i * elfPhentsize data))

/-- `elf_is_valid` (elf.c:13-17). -/
def elfIsValid : Option ByteMem → Bool
  | none => false
  | some data => data 0 = 0x7f ∧ data 1 = 0x45 ∧ data 2 = 0x4c ∧ data 3 = 0x46

/-- `elf_is_64bit` (elf.c:19-23). -/
def elfIs64bit : Option ByteMem → Bool
  | none => false
  | some data => data eiClass = elfClass64

/-- `elf_is_x86_64` (elf.c:25-29). -/
def elfIsX8664 : Option ByteMem → Bool
  | none => false
  | some data => elfMachine data = emX8664

/-! ## Loading -/

section Code

variable {σ : Type} (M : PagedMachine σ)

/-- The loops of `memcpy` and `memset` (string.c:60-73): byte `i` is `f i`. -/
def fill (f : Nat → UInt8) (dest : Nat) : (n i : Nat) → Exec σ Unit
  | 0, _ => pure ()
  | n + 1, i => do
    M.store8 (wrap64 (dest + i)) (f i)
    fill f dest n (i + 1)

/-- `memcpy(dest, src, n)`, with the bytes of `src`. -/
def memcpy (dest : Nat) (src : Nat → UInt8) (n : Nat) : Exec σ Unit := fill M src dest n 0

/-- `memset(s, c, n)`. -/
def memset (s : Nat) (c : UInt8) (n : Nat) : Exec σ Unit := fill M (fun _ => c) s n 0

/-- The flags of the pages of a segment. -/
def elfFlags (ph : ProgramHeader) : Nat :=
  (pagePresent ||| pageUser) ||| (if ph.flags &&& pfW ≠ 0 then pageWritable else 0)
    ||| (if ph.flags &&& pfX = 0 then pageNx else 0)

/-- The pages the loader maps for a segment. -/
def ProgramHeader.pages (ph : ProgramHeader) : Nat := wrap64 (ph.memsz + (pageSize - 1)) / pageSize

/-- The loop that maps pages `p, p + 1, …` of a segment. `false` when a page could not be
had. -/
def elfMapLoop (ph : ProgramHeader) : (n p : Nat) → Exec σ Bool
  | 0, _ => pure true
  | n + 1, p => do
    let phys ← M.pmmAllocPage
    if phys = 0 then pure false
    else do
      M.vmmMapPage (wrap64 (ph.vaddr + p * pageSize)) phys (elfFlags ph)
      elfMapLoop ph n (p + 1)

/-- The bytes of a segment that are not in the file (elf.c:71-73). -/
def zeroBss (ph : ProgramHeader) : Exec σ Unit :=
  if ph.filesz < ph.memsz then
    memset M (wrap64 (ph.vaddr + ph.filesz)) 0 (ph.memsz - ph.filesz)
  else pure ()

/-- One `PT_LOAD` segment (elf.c:56-73). -/
def elfLoadSegment (data : ByteMem) (ph : ProgramHeader) : Exec σ Bool := do
  let ok ← elfMapLoop M ph ph.pages 0
  if ok then do
    memcpy M ph.vaddr (fun i => data (wrap64 (ph.offset + i))) ph.filesz
    zeroBss M ph
    pure true
  else pure false

/-- The loop over the program headers from index `i` on. -/
def elfLoadLoop (data : ByteMem) : (n i : Nat) → Exec σ Bool
  | 0, _ => pure true
  | n + 1, i =>
    -- both factors are promoted to `int`, whose overflow is undefined
    if 2 ^ 31 ≤ i * elfPhentsize data then .stop
    else if (programHeader data i).type ≠ ptLoad then elfLoadLoop data n (i + 1)
    else do
      let ok ← elfLoadSegment M data (programHeader data i)
      if ok then elfLoadLoop data n (i + 1) else pure false

/-- `elf_load` (elf.c:37-79). The second component is what it writes to `*out_entry`. -/
def elfLoad (data : Option ByteMem) (size : Nat) (outEntry : Bool) : Exec σ (Int × Option Nat) :=
  match data with
  | none => pure (-einval, none)
  | some image =>
    if size < sizeofElf64Header then pure (-einval, none)
    else if !elfIsValid data then pure (-enoexec, none)
    else if !elfIs64bit data then pure (-enoexec, none)
    else if !elfIsX8664 data then pure (-enoexec, none)
    else do
      let ok ← elfLoadLoop M image (elfPhnum image) 0
      if ok then pure (0, if outEntry then some (elfEntry image) else none)
      else pure (-enomem, none)

end Code

/-! ## The tests of the ELF header -/

/-- The image passes the tests of its ELF header. -/
def Accepted (data : ByteMem) (size : Nat) : Prop :=
  sizeofElf64Header ≤ size ∧ elfIsValid (some data) ∧ elfIs64bit (some data) ∧
    elfIsX8664 (some data)

instance (data : ByteMem) (size : Nat) : Decidable (Accepted data size) :=
  inferInstanceAs (Decidable (_ ∧ _))

section Tests

open Exec

variable {σ : Type} {data : ByteMem} {size : Nat}

theorem elfLoad_of_accepted (M : PagedMachine σ) (h : Accepted data size) (outEntry : Bool) :
    elfLoad M (some data) size outEntry = (do
      let ok ← elfLoadLoop M data (elfPhnum data) 0
      if ok then pure (0, if outEntry then some (elfEntry data) else none)
      else pure (-enomem, none)) := by
  obtain ⟨hsize, hvalid, hclass, hmachine⟩ := h
  show (if _ then _ else _) = _
  rw [if_neg (not_lt.mpr hsize), hvalid, hclass, hmachine]
  rfl

end Tests

end GosKernel.Elf
