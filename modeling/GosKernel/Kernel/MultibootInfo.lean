import GosKernel.Kernel.Multiboot
import GosKernel.Kernel.Strings
import Mathlib.Data.List.Induction

/-!
# What the Multiboot2 parser extracts (`src/kernel/multiboot.c`)

On a well-formed block each group of fields of `g_kernel_info` comes from the last tag of its
type (`foldl_tagInfo`). The strings do not: the parser takes the tags of the command line and
of the bootloader name for module tags, and sets the pointers to 16 bytes behind the tag,
where the string is 8 bytes behind it (`parse_fields_iff`).
-/

namespace GosKernel.Multiboot

open Exec Strings

variable {m : ByteMem}

/-! ## Well-formed blocks -/

/-- The last tag of a type. -/
def lastTag (m : ByteMem) (as : List Nat) (type : Nat) : Option Nat :=
  as.reverse.find? fun a => tagType m a = type

/-- **A well-formed block** with its tags at `as`: each has a size of at least 8 and is in the
block, and the tags of strings hold a string behind their type and size. -/
structure WellFormed (m : ByteMem) (infoAddr : Nat) (as : List Nat) : Prop where
  space : infoAddr + m.load infoAddr 4 < 2 ^ 64
  tags : TagList m (infoAddr + 8) as
  size : ∀ a ∈ as, 8 ≤ tagSize m a ∧ a + tagSize m a ≤ infoAddr + m.load infoAddr 4
  strings : ∀ a ∈ as, tagType m a = 1 ∨ tagType m a = 2 →
    ∃ s : CString, IsString m (a + 8) s ∧ 8 + s.bytes.length + 1 ≤ tagSize m a

/-- The pointer is to the string of the tag, and `NULL` if there is no tag. -/
def DenotesString (m : ByteMem) (tag pointer : Option Nat) : Prop :=
  match tag with
  | none => pointer = none
  | some a => ∃ p s, pointer = some p ∧ IsString m (a + 8) s ∧ IsString m p s

/-- **Every field comes from the last tag of its type.** Where there is none, pointers are
`NULL`, a memory map has no entries, and the other fields are as they were. -/
structure Extracted (m : ByteMem) (as : List Nat) (before after : KernelInfo) : Prop where
  cmdline : DenotesString m (lastTag m as 1) after.cmdline
  bootloaderName : DenotesString m (lastTag m as 2) after.bootloaderName
  memLowerKb : after.memLowerKb =
    ((lastTag m as 4).map fun a => m.load (a + 8) 4).getD before.memLowerKb
  memUpperKb : after.memUpperKb =
    ((lastTag m as 4).map fun a => m.load (a + 12) 4).getD before.memUpperKb
  mmap : after.mmap = (lastTag m as 6).map (· + 16)
  -- the difference is one of 32-bit words
  mmapEntries : after.mmapEntries =
    ((lastTag m as 6).map fun a => wrap32 (tagSize m a + (2 ^ 32 - 16)) / entrySize m a).getD 0
  mmapEntrySize : after.mmapEntrySize =
    ((lastTag m as 6).map (entrySize m)).getD before.mmapEntrySize
  framebufferAddr : after.framebufferAddr =
    ((lastTag m as 8).map fun a => m.load (a + 8) 8).getD before.framebufferAddr
  framebufferPitch : after.framebufferPitch =
    ((lastTag m as 8).map fun a => m.load (a + 16) 4).getD before.framebufferPitch
  framebufferWidth : after.framebufferWidth =
    ((lastTag m as 8).map fun a => m.load (a + 20) 4).getD before.framebufferWidth
  framebufferHeight : after.framebufferHeight =
    ((lastTag m as 8).map fun a => m.load (a + 24) 4).getD before.framebufferHeight
  framebufferBpp : after.framebufferBpp =
    ((lastTag m as 8).map fun a => m.load (a + 28) 1).getD before.framebufferBpp
  framebufferType : after.framebufferType =
    ((lastTag m as 8).map fun a => m.load (a + 29) 1).getD before.framebufferType
  acpiRsdpOld : after.acpiRsdpOld = (lastTag m as 14).map (· + 8)
  acpiRsdpNew : after.acpiRsdpNew = (lastTag m as 15).map (· + 8)

/-! ## Fields of the last tag -/

theorem lastTag_mem {as : List Nat} {type a : Nat} (h : lastTag m as type = some a) :
    a ∈ as ∧ tagType m a = type := by
  have hdec := List.find?_some (p := fun a => decide (tagType m a = type)) h
  exact ⟨List.mem_reverse.mp (List.mem_of_find?_eq_some h), of_decide_eq_true hdec⟩

/-- **A field that only tags of one type set** has its value from the last of them. -/
theorem foldl_tagInfo {β : Type} {f : KernelInfo → β} {v : Nat → β} {type : Nat}
    (hf : ∀ a i, f (tagInfo m a i) = if tagType m a = type then v a else f i) (as : List Nat)
    (i : KernelInfo) :
    f (as.foldl (fun i a => tagInfo m a i) i) = ((lastTag m as type).map v).getD (f i) := by
  induction as using List.reverseRecOn with
  | nil => rfl
  | append_singleton as a ih =>
    rw [List.foldl_append, List.foldl_cons, List.foldl_nil, hf, lastTag, List.reverse_append,
      List.reverse_singleton, List.singleton_append, List.find?_cons]
    by_cases ha : tagType m a = type
    · rw [if_pos ha, decide_eq_true ha]
      rfl
    · rw [if_neg ha, decide_eq_false ha]
      exact ih

theorem tagInfo_eq (a : Nat) (i : KernelInfo) :
    tagInfo m a i = {
      mmap := if tagType m a = 6 then some (wrap64 (a + 16)) else i.mmap
      mmapEntries :=
        if tagType m a = 6 then wrap32 (tagSize m a + (2 ^ 32 - 16)) / entrySize m a
        else i.mmapEntries
      mmapEntrySize := if tagType m a = 6 then entrySize m a else i.mmapEntrySize
      framebufferAddr := if tagType m a = 8 then m.load (a + 8) 8 else i.framebufferAddr
      framebufferPitch := if tagType m a = 8 then m.load (a + 16) 4 else i.framebufferPitch
      framebufferWidth := if tagType m a = 8 then m.load (a + 20) 4 else i.framebufferWidth
      framebufferHeight := if tagType m a = 8 then m.load (a + 24) 4 else i.framebufferHeight
      framebufferBpp := if tagType m a = 8 then m.load (a + 28) 1 else i.framebufferBpp
      framebufferType := if tagType m a = 8 then m.load (a + 29) 1 else i.framebufferType
      memLowerKb := if tagType m a = 4 then m.load (a + 8) 4 else i.memLowerKb
      memUpperKb := if tagType m a = 4 then m.load (a + 12) 4 else i.memUpperKb
      cmdline := if tagType m a = 1 then some (a + 16) else i.cmdline
      bootloaderName := if tagType m a = 2 then some (a + 16) else i.bootloaderName
      acpiRsdpOld := if tagType m a = 14 then some (wrap64 (a + 8)) else i.acpiRsdpOld
      acpiRsdpNew := if tagType m a = 15 then some (wrap64 (a + 8)) else i.acpiRsdpNew
      totalRam := if tagType m a = 4 then
        wrap64 (i.totalRam + m.load (a + 12) 4 * 1024) else i.totalRam } := by
  unfold tagInfo
  by_cases h1 : tagType m a = 1
  · simp [h1]
  by_cases h2 : tagType m a = 2
  · simp [h2]
  by_cases h4 : tagType m a = 4
  · simp [h4]
  by_cases h6 : tagType m a = 6
  · simp [h6]
  by_cases h8 : tagType m a = 8
  · simp [h8]
  by_cases h14 : tagType m a = 14
  · simp [h14]
  by_cases h15 : tagType m a = 15
  · simp [h15]
  · simp [h1, h2, h4, h6, h8, h14, h15]

/-! ## Extraction -/

namespace WellFormed

variable {infoAddr : Nat} {as : List Nat}

section

variable (h : WellFormed m infoAddr as)
include h

theorem below : ∀ a ∈ as, a < infoAddr + m.load infoAddr 4 := by
  intro a ha
  have hsize := h.size a ha
  omega

/-- Behind a tag that is not the last one there is another one in the block. -/
theorem room {type a : Nat} (ha : lastTag m as type = some a)
    (htype : type ≠ 0) : a + 16 < 2 ^ 64 := by
  obtain ⟨hmem, rfl⟩ := lastTag_mem ha
  have hsize := (h.size a hmem).1
  have hnext := h.size _ (h.tags.next_mem hmem htype)
  have hspace := h.space
  unfold nextTag at hnext
  omega

/-- **What the parser leaves** when it returns. -/
theorem converges (hentry : EntrySizes m as) (before : KernelInfo) :
    Converges (fun fuel => parseMultiboot2Info m fuel infoAddr) ⟨before, []⟩ ()
      (afterTags m as ⟨before.reset, []⟩) := by
  have hfirst : mb2FirstTag infoAddr = infoAddr + 8 :=
    wrap64_of_lt (Nat.lt_trans (h.below _ h.tags.head_mem) h.space)
  refine ⟨as.length, fun fuel hfuel => ?_⟩
  show Returns (parseLoop m fuel (mb2FirstTag infoAddr)) ⟨before.reset, []⟩ () _
  rw [hfirst]
  exact parseLoop_returns h.space.le (m.load_lt infoAddr 4) h.tags (Nat.le_add_right _ _) h.below
    hentry hfuel _

theorem entrySizes {before : KernelInfo} {s : Parser}
    (hconv : Converges (fun fuel => parseMultiboot2Info m fuel infoAddr) ⟨before, []⟩ () s) :
    EntrySizes m as := by
  obtain ⟨fuel, hconv⟩ := hconv
  have hfirst : mb2FirstTag infoAddr = infoAddr + 8 :=
    wrap64_of_lt (Nat.lt_trans (h.below _ h.tags.head_mem) h.space)
  have hreturns : Returns (parseLoop m fuel (mb2FirstTag infoAddr)) ⟨before.reset, []⟩ () s :=
    hconv fuel (Nat.le_refl fuel)
  rw [hfirst] at hreturns
  exact h.tags.entrySizes h.space.le (m.load_lt infoAddr 4) (Nat.le_add_right _ _) h.below hreturns

/-- A pointer that only tags of one type set, to `k` bytes behind them. -/
theorem pointer_eq {type k : Nat} (htype : type ≠ 0) (hk : k ≤ 16) :
    ((lastTag m as type).map fun a => some (wrap64 (a + k))).getD none =
      (lastTag m as type).map (· + k) := by
  cases hlast : lastTag m as type with
  | none => rfl
  | some a =>
    have hroom := h.room hlast htype
    rw [Option.map_some, Option.map_some, Option.getD_some, wrap64_of_lt (by omega)]

end

end WellFormed

/-- The pointer that the parser sets to a string. -/
theorem denotesString_iff {tag : Option Nat} :
    DenotesString m tag ((tag.map fun a => some (a + 16)).getD none) ↔
      ∀ a, tag = some a →
        ∃ s : CString, s.bytes.length < 8 ∧ IsString m (a + 8) s ∧ IsString m (a + 16) s := by
  cases tag with
  | none =>
    refine iff_of_true rfl fun a ha => ?_
    cases ha
  | some a =>
    constructor
    · rintro ⟨p, s, hp, hs, hs'⟩ b hb
      cases hp
      cases hb
      exact ⟨s, hs.length_lt (by omega) hs', hs, hs'⟩
    · intro h
      obtain ⟨s, -, hs, hs'⟩ := h a rfl
      exact ⟨a + 16, s, rfl, hs, hs'⟩

/-- **All fields but the strings** are right. -/
theorem extracted_iff {infoAddr : Nat} {as : List Nat} (h : WellFormed m infoAddr as)
    (before : KernelInfo) :
    Extracted m as before (afterTags m as ⟨before.reset, []⟩).info ↔
      ∀ type, type = 1 ∨ type = 2 → ∀ a, lastTag m as type = some a →
        ∃ s : CString, s.bytes.length < 8 ∧ IsString m (a + 8) s ∧ IsString m (a + 16) s := by
  have hcmdline : (afterTags m as ⟨before.reset, []⟩).info.cmdline = _ :=
    foldl_tagInfo (f := KernelInfo.cmdline) (fun a i => by rw [tagInfo_eq]) as before.reset
  have hname : (afterTags m as ⟨before.reset, []⟩).info.bootloaderName = _ :=
    foldl_tagInfo (f := KernelInfo.bootloaderName) (fun a i => by rw [tagInfo_eq]) as before.reset
  constructor
  · intro hex type htype
    rcases htype with rfl | rfl
    · have hden := hex.cmdline
      rw [hcmdline] at hden
      exact denotesString_iff.mp hden
    · have hden := hex.bootloaderName
      rw [hname] at hden
      exact denotesString_iff.mp hden
  · intro hstrings
    constructor
    case cmdline =>
      rw [hcmdline]
      exact denotesString_iff.mpr (hstrings 1 (.inl rfl))
    case bootloaderName =>
      rw [hname]
      exact denotesString_iff.mpr (hstrings 2 (.inr rfl))
    case mmap =>
      rw [← h.pointer_eq (by decide) (by decide)]
      exact foldl_tagInfo (f := KernelInfo.mmap) (fun a i => by rw [tagInfo_eq]) as _
    case acpiRsdpOld =>
      rw [← h.pointer_eq (by decide) (by decide)]
      exact foldl_tagInfo (f := KernelInfo.acpiRsdpOld) (fun a i => by rw [tagInfo_eq]) as _
    case acpiRsdpNew =>
      rw [← h.pointer_eq (by decide) (by decide)]
      exact foldl_tagInfo (f := KernelInfo.acpiRsdpNew) (fun a i => by rw [tagInfo_eq]) as _
    -- the other fields are not pointers
    all_goals exact foldl_tagInfo (fun a i => by rw [tagInfo_eq]) as before.reset

/-- **Extraction.** On a well-formed block, the parser returns with every field from the last
tag of its type if and only if every memory map has an entry size, and the strings of the
last command line and of the last bootloader name are shorter than 8 bytes and stand once
more 8 bytes behind. -/
theorem parse_fields_iff {infoAddr : Nat} {as : List Nat} (h : WellFormed m infoAddr as)
    (before : KernelInfo) :
    (∃ s, Converges (fun fuel => parseMultiboot2Info m fuel infoAddr) ⟨before, []⟩ () s ∧
      Extracted m as before s.info) ↔
    EntrySizes m as ∧ ∀ type, type = 1 ∨ type = 2 → ∀ a, lastTag m as type = some a →
      ∃ s : CString, s.bytes.length < 8 ∧ IsString m (a + 8) s ∧ IsString m (a + 16) s := by
  constructor
  · rintro ⟨s, hconv, hex⟩
    have hentry := h.entrySizes hconv
    obtain ⟨-, rfl⟩ := hconv.unique (h.converges hentry before)
    exact ⟨hentry, (extracted_iff h before).mp hex⟩
  · rintro ⟨hentry, hstrings⟩
    exact ⟨_, h.converges hentry before, (extracted_iff h before).mpr hstrings⟩

/-- A block at `0x9000` with a command line of one byte, or of none if that is 0. -/
def commandLine (c : UInt8) : ByteMem := ByteMem.write (fun _ => 0) 0x9000
  [32, 0, 0, 0, 0, 0, 0, 0, 1, 0, 0, 0, 10, 0, 0, 0, c, 0, 0, 0, 0, 0, 0, 0, 0, 0, 0, 0, 8, 0, 0, 0]

/-- An empty command line, with the last tag behind it. -/
theorem parse_fields_iff_empty :
    ∃ s, Converges (fun fuel => parseMultiboot2Info (commandLine 0) fuel 0x9000)
        ⟨zeroInfo, []⟩ () s ∧
      Extracted (commandLine 0) [0x9008, 0x9018] zeroInfo s.info := by
  have hstrings : ∀ a ∈ [0x9008, 0x9018], tagType (commandLine 0) a = 1 ∨
      tagType (commandLine 0) a = 2 → IsString (commandLine 0) (a + 8) CString.empty ∧
        8 + CString.empty.bytes.length + 1 ≤ tagSize (commandLine 0) a := by decide
  have hwf : WellFormed (commandLine 0) 0x9000 [0x9008, 0x9018] :=
    ⟨by decide, .cons (by decide) (.last (by decide)), by decide,
      fun a ha htype => ⟨CString.empty, hstrings a ha htype⟩⟩
  refine (parse_fields_iff hwf zeroInfo).mpr ⟨by decide, ?_⟩
  intro type htype a ha
  obtain ⟨hmem, rfl⟩ := lastTag_mem ha
  have hagain : ∀ a ∈ [0x9008, 0x9018], tagType (commandLine 0) a = 1 ∨
      tagType (commandLine 0) a = 2 → IsString (commandLine 0) (a + 16) CString.empty := by decide
  exact ⟨CString.empty, by decide, (hstrings a hmem htype).1, hagain a hmem htype⟩

/-- The command line is `q`; the pointer is to the tag behind it. -/
theorem parse_misses_command_line :
    WellFormed (commandLine 0x71) 0x9000 [0x9008, 0x9018] ∧
    ¬ ∃ s, Converges (fun fuel => parseMultiboot2Info (commandLine 0x71) fuel 0x9000)
        ⟨zeroInfo, []⟩ () s ∧
      Extracted (commandLine 0x71) [0x9008, 0x9018] zeroInfo s.info := by
  obtain ⟨q, hq⟩ : ∃ q : CString, q.bytes = [0x71] := ⟨⟨[0x71], by decide⟩, rfl⟩
  have hstring : IsString (commandLine 0x71) 0x9010 q := by
    rw [IsString, hq]
    decide
  have hwf : WellFormed (commandLine 0x71) 0x9000 [0x9008, 0x9018] := by
    refine ⟨by decide, .cons (by decide) (.last (by decide)), by decide, fun a ha htype => ?_⟩
    have hfirst : ∀ a ∈ [0x9008, 0x9018], tagType (commandLine 0x71) a = 1 ∨
        tagType (commandLine 0x71) a = 2 → a = 0x9008 := by decide
    rw [hfirst a ha htype]
    refine ⟨q, hstring, ?_⟩
    rw [hq]
    decide
  refine ⟨hwf, ?_⟩
  rintro ⟨s, hconv, hex⟩
  obtain ⟨-, rfl⟩ := hconv.unique (hwf.converges (hwf.entrySizes hconv) zeroInfo)
  obtain ⟨s, -, hs, hs'⟩ := (extracted_iff hwf zeroInfo).mp hex 1 (.inl rfl) 0x9008 (by decide)
  have hsq : s.bytes = q.bytes := bytes_unique s.nul_free q.nul_free hs hstring
  rw [IsString, hsq, hq] at hs'
  exact absurd hs' (by decide)

end GosKernel.Multiboot
