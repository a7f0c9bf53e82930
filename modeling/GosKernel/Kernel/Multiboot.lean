import GosKernel.Defs
import GosKernel.Lib.ByteMem
import GosKernel.Lib.Exec

/-!
# The Multiboot2 information block (`src/kernel/multiboot.c`)

A block has a header of 8 bytes, which begins with its size, and then a list of tags. Each
tag begins with its type and size; the next one is behind it, at a multiple of 8. The list
ends with a tag of type 0.

The parser walks along the tags. It never looks at the size of the block, takes the size of
a tag as it is and divides by a field of another: `parse_robust_iff` says on which blocks it
returns and stays inside.
-/

namespace GosKernel.Multiboot

open Exec List

/-! ## The functions -/

/-- `kernel_info_t`, less the modules, which the parser does not set. -/
structure KernelInfo where
  mmap : Option Nat
  mmapEntries : Nat
  mmapEntrySize : Nat
  framebufferAddr : Nat
  framebufferPitch : Nat
  framebufferWidth : Nat
  framebufferHeight : Nat
  framebufferBpp : Nat
  framebufferType : Nat
  memLowerKb : Nat
  memUpperKb : Nat
  cmdline : Option Nat
  bootloaderName : Option Nat
  acpiRsdpOld : Option Nat
  acpiRsdpNew : Option Nat
  totalRam : Nat
deriving DecidableEq

/-- `g_kernel_info`, and the addresses and lengths of the reads so far. -/
structure Parser where
  info : KernelInfo
  reads : List (Nat × Nat)

/-- Read a field of a tag. -/
def load (m : ByteMem) (a n : Nat) : Exec Parser Nat := fun s =>
  some (m.load a n, { s with reads := s.reads ++ [(a, n)] })

def setInfo (f : KernelInfo → KernelInfo) : Exec Parser Unit :=
  update fun s => { s with info := f s.info }

/-- `mb2_first_tag` (multiboot.c:12-15). -/
def mb2FirstTag (infoAddr : Nat) : Nat := wrap64 (infoAddr + 8)

/-- `mb2_next_tag` (multiboot.c:17-20); the size is rounded up in 32 bits. -/
def mb2NextTag (m : ByteMem) (tag : Nat) : Exec Parser Nat := do
  let size ← load m (tag + 4) 4
  return wrap64 (tag + wrap32 (size + 7) / 8 * 8)

/-- The `switch` of the loop (multiboot.c:34-77). A command line and a bootloader name are
taken for modules, whose strings are 16 bytes behind the tag. -/
def parseTag (m : ByteMem) (tag : Nat) : Exec Parser Unit := do
  let type ← load m tag 4
  if type = 1 then setInfo fun i => { i with cmdline := some (tag + 16) }
  else if type = 2 then setInfo fun i => { i with bootloaderName := some (tag + 16) }
  else if type = 4 then do
    let lower ← load m (tag + 8) 4
    let upper ← load m (tag + 12) 4
    setInfo fun i => { i with
      memLowerKb := lower, memUpperKb := upper, totalRam := wrap64 (i.totalRam + upper * 1024) }
  else if type = 6 then do
    let size ← load m (tag + 4) 4
    let entrySize ← load m (tag + 8) 4
    if entrySize = 0 then stop
    else setInfo fun i => { i with
      mmap := some (wrap64 (tag + 16))
      mmapEntries := wrap32 (size + (2 ^ 32 - 16)) / entrySize
      mmapEntrySize := entrySize }
  else if type = 8 then do
    let addr ← load m (tag + 8) 8
    let pitch ← load m (tag + 16) 4
    let width ← load m (tag + 20) 4
    let height ← load m (tag + 24) 4
    let bpp ← load m (tag + 28) 1
    let type ← load m (tag + 29) 1
    setInfo fun i => { i with
      framebufferAddr := addr, framebufferPitch := pitch, framebufferWidth := width,
      framebufferHeight := height, framebufferBpp := bpp, framebufferType := type }
  else if type = 14 then setInfo fun i => { i with acpiRsdpOld := some (wrap64 (tag + 8)) }
  else if type = 15 then setInfo fun i => { i with acpiRsdpNew := some (wrap64 (tag + 8)) }
  else pure ()

/-- The loop (multiboot.c:33-79). It has no bound of its own. -/
def parseLoop (m : ByteMem) : (fuel tag : Nat) → Exec Parser Unit
  | 0, _ => stop
  | fuel + 1, tag => do
    let type ← load m tag 4
    if type = 0 then pure ()
    else do
      parseTag m tag
      let next ← mb2NextTag m tag
      parseLoop m fuel next

/-- The fields that are cleared first (multiboot.c:25-31). -/
def KernelInfo.reset (i : KernelInfo) : KernelInfo :=
  { i with
    mmap := none, mmapEntries := 0, totalRam := 0, cmdline := none, bootloaderName := none,
    acpiRsdpOld := none, acpiRsdpNew := none }

/-- `parse_multiboot2_info` (multiboot.c:22-79); what it logs then is `logLines`. -/
def parseMultiboot2Info (m : ByteMem) (fuel infoAddr : Nat) : Exec Parser Unit := do
  setInfo KernelInfo.reset
  parseLoop m fuel (mb2FirstTag infoAddr)

/-- What is logged at the end of `parse_multiboot2_info`. -/
inductive LogLine
  | parsed
  | bootloader (name : Nat)
  | commandLine (cmdline : Nat)
  | memory (lower upper : Nat)
  | totalRam (mib : Nat)
  | memoryMap (entries : Nat)
  | entry (i base last : Nat) (type : String)
deriving DecidableEq

/-- The name of `e->type` (multiboot.c:98-105). -/
def mmapTypeStr : Nat → String
  | 1 => "available"
  | 2 => "reserved"
  | 3 => "ACPI reclaim"
  | 4 => "ACPI NVS"
  | 5 => "bad"
  | _ => "unknown"

/-- Where entry `i` of the memory map is looked for; the product has 32 bits. -/
def mmapEntry (info : KernelInfo) (mmap i : Nat) : Nat :=
  wrap64 (mmap + wrap32 (i * info.mmapEntrySize))

/-- The log lines (multiboot.c:81-112). -/
def logLines (m : ByteMem) (info : KernelInfo) : List LogLine :=
  [.parsed] ++ (info.bootloaderName.map .bootloader).toList ++
    (info.cmdline.map .commandLine).toList ++
    [.memory info.memLowerKb info.memUpperKb, .totalRam (info.totalRam / (1024 * 1024))] ++
    match info.mmap with
    | none => []
    | some mmap => .memoryMap info.mmapEntries :: (range info.mmapEntries).map fun i =>
        let e := mmapEntry info mmap i
        .entry i (m.load e 8) (wrap64 (m.load e 8 + m.load (e + 8) 8))
          (mmapTypeStr (m.load (e + 16) 4))

/-! ## Tags -/

def tagType (m : ByteMem) (a : Nat) : Nat := m.load a 4

def tagSize (m : ByteMem) (a : Nat) : Nat := m.load (a + 4) 4

/-- The size of an entry of a memory map. -/
def entrySize (m : ByteMem) (a : Nat) : Nat := m.load (a + 8) 4

/-- Where the tag behind a tag begins. -/
def nextTag (m : ByteMem) (a : Nat) : Nat := a + (tagSize m a + 7) / 8 * 8

/-- **The tags from `a` on**, one behind the other, up to the first one of type 0. -/
inductive TagList (m : ByteMem) : Nat → List Nat → Prop
  | last {a : Nat} (h : tagType m a = 0) : TagList m a [a]
  | cons {a : Nat} {as : List Nat} (h : tagType m a ≠ 0) (t : TagList m (nextTag m a) as) :
      TagList m a (a :: as)

/-- The size that is read of a tag, from its begin. -/
def fieldsEnd (m : ByteMem) (a : Nat) : Nat :=
  if tagType m a = 0 then 4
  else if tagType m a = 4 then 16
  else if tagType m a = 6 then 12
  else if tagType m a = 8 then 30
  else 8

/-- What a tag changes. -/
def tagInfo (m : ByteMem) (a : Nat) (i : KernelInfo) : KernelInfo :=
  if tagType m a = 1 then { i with cmdline := some (a + 16) }
  else if tagType m a = 2 then { i with bootloaderName := some (a + 16) }
  else if tagType m a = 4 then
    { i with
      memLowerKb := m.load (a + 8) 4, memUpperKb := m.load (a + 12) 4
      totalRam := wrap64 (i.totalRam + m.load (a + 12) 4 * 1024) }
  else if tagType m a = 6 then
    { i with
      mmap := some (wrap64 (a + 16))
      mmapEntries := wrap32 (tagSize m a + (2 ^ 32 - 16)) / entrySize m a
      mmapEntrySize := entrySize m a }
  else if tagType m a = 8 then
    { i with
      framebufferAddr := m.load (a + 8) 8, framebufferPitch := m.load (a + 16) 4
      framebufferWidth := m.load (a + 20) 4, framebufferHeight := m.load (a + 24) 4
      framebufferBpp := m.load (a + 28) 1, framebufferType := m.load (a + 29) 1 }
  else if tagType m a = 14 then { i with acpiRsdpOld := some (wrap64 (a + 8)) }
  else if tagType m a = 15 then { i with acpiRsdpNew := some (wrap64 (a + 8)) }
  else i

/-- What is read of a tag in the `switch`. -/
def fieldReads (m : ByteMem) (a : Nat) : List (Nat × Nat) :=
  if tagType m a = 4 then [(a + 8, 4), (a + 12, 4)]
  else if tagType m a = 6 then [(a + 4, 4), (a + 8, 4)]
  else if tagType m a = 8 then
    [(a + 8, 8), (a + 16, 4), (a + 20, 4), (a + 24, 4), (a + 28, 1), (a + 29, 1)]
  else []

/-- What is read of a tag. -/
def tagReads (m : ByteMem) (a : Nat) : List (Nat × Nat) :=
  if tagType m a = 0 then [(a, 4)] else [(a, 4), (a, 4)] ++ fieldReads m a ++ [(a + 4, 4)]

/-! ## One tag -/

variable {m : ByteMem}

@[simp] theorem load_apply (a n : Nat) (s : Parser) :
    load m a n s = some (m.load a n, ⟨s.info, s.reads ++ [(a, n)]⟩) := rfl

@[simp] theorem setInfo_apply (f : KernelInfo → KernelInfo) (s : Parser) :
    setInfo f s = some ((), ⟨f s.info, s.reads⟩) := rfl

/-- The state after the `switch`. -/
def afterTag (m : ByteMem) (a : Nat) (s : Parser) : Parser :=
  ⟨tagInfo m a s.info, s.reads ++ ([(a, 4)] ++ fieldReads m a)⟩

/-- **The `switch`** stops on a memory map without entry size. -/
theorem parseTag_eq (a : Nat) (s : Parser) :
    parseTag m a s =
      if tagType m a = 6 ∧ entrySize m a = 0 then none else some ((), afterTag m a s) := by
  unfold parseTag afterTag tagInfo fieldReads
  rw [bind_apply, load_apply, Option.bind_some, show m.load a 4 = tagType m a from rfl]
  -- one case for each type that the parser knows
  by_cases h1 : tagType m a = 1
  · simp [h1]
  by_cases h2 : tagType m a = 2
  · simp [h2]
  by_cases h4 : tagType m a = 4
  · simp [h4]
  by_cases h6 : tagType m a = 6
  · simp only [tagSize, entrySize]
    by_cases hentry : m.load (a + 8) 4 = 0
    · simp [h6]
    · simp [h6]
  by_cases h8 : tagType m a = 8
  · simp [h8]
  by_cases h14 : tagType m a = 14
  · simp [h14]
  by_cases h15 : tagType m a = 15
  · simp [h15]
  · simp [h1, h2, h4, h6, h8, h14, h15]

/-- The state after one round of the loop. -/
def afterRound (m : ByteMem) (a : Nat) (s : Parser) : Parser :=
  ⟨tagInfo m a s.info, s.reads ++ tagReads m a⟩

/-- The address of the next tag, as the parser computes it. -/
def nextAddr (m : ByteMem) (a : Nat) : Nat := wrap64 (a + wrap32 (tagSize m a + 7) / 8 * 8)

variable {a fuel len lo : Nat} {as : List Nat}

theorem parseLoop_last (h : tagType m a = 0) (fuel : Nat) (s : Parser) :
    Returns (parseLoop m (fuel + 1) a) s () (afterRound m a s) := by
  have hinfo : tagInfo m a s.info = s.info := by simp [tagInfo, h]
  have hreads : tagReads m a = [(a, 4)] := if_pos h
  rw [Returns, parseLoop, bind_apply, load_apply, Option.bind_some,
    show m.load a 4 = tagType m a from rfl, if_pos h, afterRound, hinfo, hreads]
  rfl

/-- **One round** of the loop. -/
theorem parseLoop_round (h : tagType m a ≠ 0) (fuel : Nat) (s : Parser) :
    parseLoop m (fuel + 1) a s =
      if tagType m a = 6 ∧ entrySize m a = 0 then none
      else parseLoop m fuel (nextAddr m a) (afterRound m a s) := by
  rw [parseLoop, bind_apply, load_apply, Option.bind_some,
    show m.load a 4 = tagType m a from rfl, if_neg h, bind_apply, parseTag_eq]
  by_cases hdiv : tagType m a = 6 ∧ entrySize m a = 0
  · rw [if_pos hdiv, if_pos hdiv, Option.bind_none]
  · rw [if_neg hdiv, if_neg hdiv]
    refine congrArg (parseLoop m fuel (nextAddr m a)) ?_
    rw [afterRound, tagReads, if_neg h, afterTag]
    simp

/-! ## The walk -/

/-- Every memory map has an entry size. -/
def EntrySizes (m : ByteMem) (as : List Nat) : Prop :=
  ∀ a ∈ as, tagType m a = 6 → entrySize m a ≠ 0

instance (m : ByteMem) (as : List Nat) : Decidable (EntrySizes m as) :=
  inferInstanceAs (Decidable (∀ a ∈ as, tagType m a = 6 → entrySize m a ≠ 0))

theorem TagList.head_mem (h : TagList m a as) : a ∈ as := by
  cases h with
  | last h => exact mem_singleton_self a
  | cons h t => exact mem_cons_self

theorem TagList.ge (h : TagList m a as) : ∀ b ∈ as, a ≤ b := by
  induction h with
  | last h =>
    intro b hb
    rw [mem_singleton.mp hb]
  | cons h t ih =>
    intro b hb
    rcases mem_cons.mp hb with rfl | hb
    · exact Nat.le_refl _
    · exact Nat.le_trans (Nat.le_add_right _ _) (ih b hb)

theorem nextAddr_eq (hspace : lo + len ≤ 2 ^ 64) (hlen : len < 2 ^ 32)
    (hlo : lo ≤ a) (hnext : nextTag m a < lo + len) : nextAddr m a = nextTag m a := by
  unfold nextTag at hnext
  have hround : wrap32 (tagSize m a + 7) = tagSize m a + 7 := Nat.mod_eq_of_lt (by omega)
  rw [nextAddr, hround]
  exact wrap64_of_lt (by omega)

/-- The state after all tags. -/
def afterTags (m : ByteMem) (as : List Nat) (s : Parser) : Parser :=
  ⟨as.foldl (fun i a => tagInfo m a i) s.info, s.reads ++ as.flatMap (tagReads m)⟩

theorem afterTags_nil (s : Parser) : afterTags m [] s = s := by
  simp [afterTags]

theorem afterTags_cons (a : Nat) (as : List Nat) (s : Parser) :
    afterTags m (a :: as) s = afterTags m as (afterRound m a s) := by
  simp [afterTags, afterRound]

/-- **The parser walks along a list of tags** in a block. -/
theorem parseLoop_returns (hspace : lo + len ≤ 2 ^ 64) (hlen : len < 2 ^ 32)
    (h : TagList m a as) (hlo : lo ≤ a) (hin : ∀ b ∈ as, b < lo + len)
    (hentry : EntrySizes m as) (hfuel : as.length ≤ fuel) (s : Parser) :
    Returns (parseLoop m fuel a) s () (afterTags m as s) := by
  induction h generalizing fuel s with
  | last h =>
    obtain ⟨fuel, rfl⟩ := fuel_succ hfuel
    rw [afterTags_cons, afterTags_nil]
    exact parseLoop_last h fuel s
  | @cons a as h t ih =>
    obtain ⟨fuel, rfl⟩ := Nat.exists_eq_succ_of_ne_zero
      (Nat.ne_of_gt (Nat.lt_of_lt_of_le (Nat.succ_pos _) hfuel))
    obtain ⟨hentry1, hentry⟩ := forall_mem_cons.mp hentry
    obtain ⟨-, hin⟩ := forall_mem_cons.mp hin
    rw [Returns, parseLoop_round h, if_neg fun hdiv => hentry1 hdiv.1 hdiv.2, afterTags_cons,
      nextAddr_eq hspace hlen hlo (hin _ t.head_mem)]
    exact ih (Nat.le_trans hlo (Nat.le_add_right _ _)) hin hentry (Nat.le_of_succ_le_succ hfuel) _

/-- A walk that returns has not divided by zero. -/
theorem TagList.entrySizes (hspace : lo + len ≤ 2 ^ 64) (hlen : len < 2 ^ 32)
    (h : TagList m a as) (hlo : lo ≤ a) (hin : ∀ b ∈ as, b < lo + len)
    {s s' : Parser} (hreturns : Returns (parseLoop m fuel a) s () s') : EntrySizes m as := by
  induction h generalizing fuel s with
  | last h =>
    intro b hb hmap
    rw [mem_singleton.mp hb, h] at hmap
    cases hmap
  | @cons a as h t ih =>
    cases fuel with
    | zero => cases hreturns
    | succ fuel =>
      obtain ⟨-, hin⟩ := forall_mem_cons.mp hin
      rw [Returns, parseLoop_round h] at hreturns
      by_cases hdiv : tagType m a = 6 ∧ entrySize m a = 0
      · rw [if_pos hdiv] at hreturns
        cases hreturns
      · rw [if_neg hdiv, nextAddr_eq hspace hlen hlo (hin _ t.head_mem)] at hreturns
        refine forall_mem_cons.mpr ⟨fun hmap hzero => hdiv ⟨hmap, hzero⟩, ?_⟩
        exact ih (Nat.le_trans hlo (Nat.le_add_right _ _)) hin hreturns

/-- The reads of a tag are in the block if and only if its fields are. -/
theorem tagReads_inside {hi : Nat} :
    (∀ r ∈ tagReads m a, lo ≤ r.1 ∧ r.1 + r.2 ≤ hi) ↔ lo ≤ a ∧ a + fieldsEnd m a ≤ hi := by
  unfold tagReads fieldReads fieldsEnd
  by_cases h0 : tagType m a = 0
  · simp [h0]
  by_cases h4 : tagType m a = 4
  · simp [h4]
    omega
  by_cases h6 : tagType m a = 6
  · simp [h6]
    omega
  by_cases h8 : tagType m a = 8
  · simp [h8]
    omega
  · simp [h0, h4, h6, h8]
    omega

theorem fieldsEnd_pos (a : Nat) : 0 < fieldsEnd m a := by
  unfold fieldsEnd
  split_ifs <;> decide

theorem TagList.next_mem {b : Nat} (h : TagList m a as) (hb : b ∈ as)
    (htype : tagType m b ≠ 0) : nextTag m b ∈ as := by
  induction h with
  | last h =>
    rw [mem_singleton.mp hb] at htype
    exact absurd h htype
  | cons h t ih =>
    rcases mem_cons.mp hb with rfl | hb
    · exact mem_cons_of_mem _ t.head_mem
    · exact mem_cons_of_mem _ (ih hb)

/-- A next tag in the block was not reached over the end of the address space. -/
theorem nextAddr_of_size (hspace : lo + len ≤ 2 ^ 64) (hlen : len < 2 ^ 32)
    (hlo : lo ≤ a) (hhi : a < lo + len) (hsize : tagSize m a + 7 < 2 ^ 32)
    (hnext : lo ≤ nextAddr m a) : nextAddr m a = nextTag m a := by
  have hround : wrap32 (tagSize m a + 7) = tagSize m a + 7 := Nat.mod_eq_of_lt hsize
  rw [nextAddr, wrap64] at hnext ⊢
  unfold nextTag
  omega

/-- The largest sizes are rounded up to 0. -/
theorem nextAddr_of_huge (ha : a < 2 ^ 64) (hsize : 2 ^ 32 ≤ tagSize m a + 7) :
    nextAddr m a = a := by
  have hlt : tagSize m a < 2 ^ 32 := m.load_lt (a + 4) 4
  have hround : wrap32 (tagSize m a + 7) / 8 * 8 = 0 := by
    unfold wrap32
    omega
  rw [nextAddr, hround]
  exact wrap64_of_lt ha

/-- **A walk that returns and stays in the block** was along a list of tags. -/
theorem tagList_of_returns (hspace : lo + len ≤ 2 ^ 64) (hlen : len < 2 ^ 32)
    {s s' : Parser} (h : Returns (parseLoop m fuel a) s () s')
    (hin : ∀ r ∈ s'.reads, lo ≤ r.1 ∧ r.1 + r.2 ≤ lo + len) :
    ∃ as, TagList m a as ∧ s'.reads = s.reads ++ as.flatMap (tagReads m) := by
  induction fuel generalizing a s with
  | zero => cases h
  | succ fuel ih =>
    by_cases hlast : tagType m a = 0
    · refine ⟨[a], .last hlast, ?_⟩
      obtain ⟨-, rfl⟩ := (parseLoop_last hlast fuel s).unique h
      rw [flatMap_singleton]
      rfl
    · rw [Returns, parseLoop_round hlast] at h
      by_cases hdiv : tagType m a = 6 ∧ entrySize m a = 0
      · rw [if_pos hdiv] at h
        cases h
      · rw [if_neg hdiv] at h
        obtain ⟨as, htags, hreads⟩ := ih h
        have hreads : s'.reads = s.reads ++ (a :: as).flatMap (tagReads m) := by
          rw [hreads, flatMap_cons, afterRound, append_assoc]
        have hinside : ∀ b ∈ a :: as, lo ≤ b ∧ b < lo + len := by
          intro b hb
          have hb := tagReads_inside.mp fun r hr =>
            hin r (hreads ▸ mem_append_right _ (mem_flatMap.mpr ⟨b, hb, hr⟩))
          have hpos := fieldsEnd_pos (m := m) b
          omega
        obtain ⟨⟨hlo, hhi⟩, hinside⟩ := forall_mem_cons.mp hinside
        have hnext : nextAddr m a = nextTag m a := by
          by_cases hsize : tagSize m a + 7 < 2 ^ 32
          · exact nextAddr_of_size hspace hlen hlo hhi hsize (hinside _ htags.head_mem).1
          · -- the size is rounded to 0, and the next tag is the same one again
            have hsame := nextAddr_of_huge (Nat.lt_of_lt_of_le hhi hspace) (Nat.not_lt.mp hsize)
            rw [hsame] at htags
            have hmem := (hinside _ (htags.next_mem htags.head_mem hlast)).2
            unfold nextTag at hmem
            omega
        rw [hnext] at htags
        exact ⟨a :: as, .cons hlast htags, hreads⟩

/-- **Robustness of the parser.** On a block in the address space, whatever it holds, the parser
returns without a division by zero and reads nothing outside the block if and only if the
tags, one behind the other from the end of the header on, reach a tag of type 0, the fields
that are read of each tag are in the block, and every memory map among them has an entry
size. -/
theorem parse_robust_iff (m : ByteMem) (infoAddr : Nat) (i : KernelInfo)
    (hspace : infoAddr + m.load infoAddr 4 ≤ 2 ^ 64) :
    (∃ s, Converges (fun fuel => parseMultiboot2Info m fuel infoAddr) ⟨i, []⟩ () s ∧
      ∀ r ∈ s.reads, infoAddr ≤ r.1 ∧ r.1 + r.2 ≤ infoAddr + m.load infoAddr 4) ↔
    ∃ as, TagList m (infoAddr + 8) as ∧
      (∀ a ∈ as, a + fieldsEnd m a ≤ infoAddr + m.load infoAddr 4) ∧ EntrySizes m as := by
  have hlen : m.load infoAddr 4 < 2 ^ 32 := m.load_lt infoAddr 4
  constructor
  · rintro ⟨s, ⟨fuel, hconv⟩, hin⟩
    have hreturns : Returns (parseLoop m fuel (mb2FirstTag infoAddr)) ⟨i.reset, []⟩ () s :=
      hconv fuel (Nat.le_refl fuel)
    obtain ⟨as, htags, hreads⟩ := tagList_of_returns hspace hlen hreturns hin
    have hinside : ∀ a ∈ as, infoAddr ≤ a ∧ a + fieldsEnd m a ≤ infoAddr + m.load infoAddr 4 := by
      intro a ha
      refine tagReads_inside.mp fun r hr => hin r ?_
      rw [hreads]
      exact List.mem_append_right _ (List.mem_flatMap.mpr ⟨a, ha, hr⟩)
    have hbelow : ∀ a ∈ as, a < infoAddr + m.load infoAddr 4 := fun a ha =>
      Nat.lt_of_lt_of_le (Nat.lt_add_of_pos_right (fieldsEnd_pos a)) (hinside a ha).2
    have hfirst : mb2FirstTag infoAddr = infoAddr + 8 := by
      have hle := (hinside _ htags.head_mem).1
      unfold mb2FirstTag wrap64 at hle ⊢
      omega
    rw [hfirst] at htags hreturns
    refine ⟨as, htags, fun a ha => (hinside a ha).2, ?_⟩
    exact htags.entrySizes hspace hlen (Nat.le_add_right _ _) hbelow hreturns
  · rintro ⟨as, htags, hinside, hentry⟩
    have hbelow : ∀ a ∈ as, a < infoAddr + m.load infoAddr 4 := fun a ha =>
      Nat.lt_of_lt_of_le (Nat.lt_add_of_pos_right (fieldsEnd_pos a)) (hinside a ha)
    have hfirst : mb2FirstTag infoAddr = infoAddr + 8 :=
      wrap64_of_lt (Nat.lt_of_lt_of_le (hbelow _ htags.head_mem) hspace)
    refine ⟨afterTags m as ⟨i.reset, []⟩, ⟨as.length, fun fuel hfuel => ?_⟩, fun r hr => ?_⟩
    · show Returns (parseLoop m fuel (mb2FirstTag infoAddr)) ⟨i.reset, []⟩ () _
      rw [hfirst]
      exact parseLoop_returns hspace hlen htags (Nat.le_add_right _ _) hbelow hentry hfuel _
    · obtain ⟨a, ha, hr⟩ := List.mem_flatMap.mp (show r ∈ as.flatMap (tagReads m) from hr)
      have hge : infoAddr ≤ a := Nat.le_trans (Nat.le_add_right _ _) (htags.ge a ha)
      exact tagReads_inside.mpr ⟨hge, hinside a ha⟩ r hr

/-- A tag of size 0 is not in a list of tags. -/
theorem not_tagList_of_size_zero (htype : tagType m a ≠ 0) (hsize : tagSize m a = 0)
    (as : List Nat) : ¬ TagList m a as := by
  have hnext : nextTag m a = a := by
    rw [nextTag, hsize]
    rfl
  induction as with
  | nil =>
    intro h
    cases h
  | cons b as ih =>
    intro h
    cases h with
    | last h => exact htype h
    | cons h t => exact ih (hnext ▸ t)

/-- A block of 24 bytes at `0x9000`: a tag of type 5, with this size, and the last tag. -/
def sampleBlock (size : UInt8) : ByteMem := ByteMem.write (fun _ => 0) 0x9000
  [24, 0, 0, 0, 0, 0, 0, 0, 5, 0, 0, 0, size, 0, 0, 0, 0, 0, 0, 0, 8, 0, 0, 0]

/-- `g_kernel_info` as it is before the parser runs. -/
def zeroInfo : KernelInfo where
  mmap := none
  mmapEntries := 0
  mmapEntrySize := 0
  framebufferAddr := 0
  framebufferPitch := 0
  framebufferWidth := 0
  framebufferHeight := 0
  framebufferBpp := 0
  framebufferType := 0
  memLowerKb := 0
  memUpperKb := 0
  cmdline := none
  bootloaderName := none
  acpiRsdpOld := none
  acpiRsdpNew := none
  totalRam := 0

/-- With the size 8, the parser returns and stays in the block. -/
theorem parse_robust_iff_sample :
    ∃ s, Converges (fun fuel => parseMultiboot2Info (sampleBlock 8) fuel 0x9000)
        ⟨zeroInfo, []⟩ () s ∧
      ∀ r ∈ s.reads, 0x9000 ≤ r.1 ∧ r.1 + r.2 ≤ 0x9000 + (sampleBlock 8).load 0x9000 4 := by
  exact (parse_robust_iff (sampleBlock 8) 0x9000 zeroInfo (by decide)).mpr
    ⟨[0x9008, 0x9010], .cons (by decide) (.last (by decide)), by decide, by decide⟩

/-- With the size 0, the parser does not return, although the last tag is in the block. -/
theorem parse_loops_on_size_zero :
    (tagType (sampleBlock 0) 0x9010 = 0 ∧
      0x9010 + 8 ≤ 0x9000 + (sampleBlock 0).load 0x9000 4) ∧
    ¬ ∃ s, Converges (fun fuel => parseMultiboot2Info (sampleBlock 0) fuel 0x9000)
        ⟨zeroInfo, []⟩ () s ∧
      ∀ r ∈ s.reads, 0x9000 ≤ r.1 ∧ r.1 + r.2 ≤ 0x9000 + (sampleBlock 0).load 0x9000 4 := by
  refine ⟨⟨by decide, by decide⟩, ?_⟩
  rintro ⟨s, ⟨fuel, hconv⟩, hin⟩
  have hreturns : Returns (parseLoop (sampleBlock 0) fuel 0x9008) ⟨zeroInfo.reset, []⟩ () s :=
    hconv fuel (Nat.le_refl fuel)
  obtain ⟨as, htags, -⟩ := tagList_of_returns (by decide) (by decide) hreturns hin
  exact not_tagList_of_size_zero (by decide) (by decide) as htags

end GosKernel.Multiboot
