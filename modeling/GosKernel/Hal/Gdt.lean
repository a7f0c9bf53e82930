import GosKernel.Defs
import GosKernel.Lib.ByteMem

/-!
# The Global Descriptor Table (`src/hal/gdt/gdt.c`)

The table is an array of nine records of eight bytes. The descriptor of the TSS has 16 bytes
and lies over two of them: `gdt_set_tss` writes it through a pointer of its own type and then
clears the second record, in which the upper half of the base address is.

- **`gdt_set_tss_iff`**: the base comes back if and only if its upper half is zero.
-/

namespace GosKernel.Hal

open ByteMem

/-! ## The code -/

/-- `GDT_MAX_ENTRIES`. -/
def gdtMaxEntries : Nat := 9

/-- `sizeof(gdt_entry_t)`. -/
def sizeofEntry : Nat := 8

def gdtAccessPresent : Nat := 0x80

def gdtAccessRing0 : Nat := 0x00

def gdtAccessRing3 : Nat := 0x60

def gdtAccessSegment : Nat := 0x10

def gdtAccessTypeTssAvail : Nat := 0x09

def gdtGran4k : Nat := 0x80

def gdtGran32bit : Nat := 0x40

def gdtGran64bit : Nat := 0x20

/-- The index of the selector `GDT_TSS_LOW`. -/
def tssIndex : Nat := 6

/-- `sizeof(tss64_t)`. -/
def tss64Size : Nat := 104

/-- `gdt_entry_t`. -/
structure GdtEntry where
  limitLow : Nat
  baseLow : Nat
  baseMiddle : Nat
  access : Nat
  granularity : Nat
  baseHigh : Nat
deriving DecidableEq

/-- `tss_descriptor_t`. -/
structure TssDescriptor where
  limitLow : Nat
  baseLow : Nat
  baseMid1 : Nat
  access : Nat
  limitHighFlags : Nat
  baseMid2 : Nat
  baseHigh : Nat
  reserved : Nat
deriving DecidableEq

/-- The fields of `g_gdt[i]` are assigned. `g` holds the bytes of `g_gdt`. -/
def writeEntry (g : ByteMem) (i : Nat) (e : GdtEntry) : ByteMem :=
  (((((g.store (sizeofEntry * i) 2 e.limitLow).store (sizeofEntry * i + 2) 2 e.baseLow).store
    (sizeofEntry * i + 4) 1 e.baseMiddle).store (sizeofEntry * i + 5) 1 e.access).store
    (sizeofEntry * i + 6) 1 e.granularity).store (sizeofEntry * i + 7) 1 e.baseHigh

/-- `gdt_set_entry` (gdt.c:85-98). -/
def gdtSetEntry (index : Int) (base limit access granularity : Nat) (g : ByteMem) : ByteMem :=
  if index < 0 ∨ index ≥ gdtMaxEntries then g
  else writeEntry g index.toNat
    { limitLow := limit &&& 0xFFFF
      baseLow := base &&& 0xFFFF
      baseMiddle := (base >>> 16) &&& 0xFF
      access := access
      granularity := ((limit >>> 16) &&& 0x0F) ||| (granularity &&& 0xF0)
      baseHigh := (base >>> 24) &&& 0xFF }

/-- The fields of `*(tss_descriptor_t *)&g_gdt[i]` are assigned. -/
def writeTss (g : ByteMem) (i : Nat) (d : TssDescriptor) : ByteMem :=
  (((((((g.store (sizeofEntry * i) 2 d.limitLow).store (sizeofEntry * i + 2) 2 d.baseLow).store
    (sizeofEntry * i + 4) 1 d.baseMid1).store (sizeofEntry * i + 5) 1 d.access).store
    (sizeofEntry * i + 6) 1 d.limitHighFlags).store (sizeofEntry * i + 7) 1 d.baseMid2).store
    (sizeofEntry * i + 8) 4 d.baseHigh).store (sizeofEntry * i + 12) 4 d.reserved

/-- `gdt_set_tss` (gdt.c:100-120). -/
def gdtSetTss (index : Int) (tssAddr limit : Nat) (g : ByteMem) : ByteMem :=
  if index < 0 ∨ index ≥ gdtMaxEntries - 1 then g
  else
    let g := writeTss g index.toNat
      { limitLow := limit &&& 0xFFFF
        baseLow := tssAddr &&& 0xFFFF
        baseMid1 := (tssAddr >>> 16) &&& 0xFF
        access := gdtAccessPresent ||| gdtAccessRing0 ||| gdtAccessTypeTssAvail
        limitHighFlags := (limit >>> 16) &&& 0x0F
        baseMid2 := (tssAddr >>> 24) &&& 0xFF
        baseHigh := (tssAddr >>> 32) &&& 0xFFFFFFFF
        reserved := 0 }
    gdtSetEntry (index + 1) 0 0 0 0 g

/-- What `gdt_init` (gdt.c:18-83) does to the table, with the TSS at `tss`: the records are cleared
and set, and `tss_init` (tss.c:51-52) installs the TSS. -/
def gdtInit (tss : Nat) (g : ByteMem) : ByteMem :=
  let g := (List.range gdtMaxEntries).foldl (fun g i => writeEntry g i ⟨0, 0, 0, 0, 0, 0⟩) g
  let g := gdtSetEntry 0 0 0 0 0 g
  let g := gdtSetEntry 1 0 0
    (gdtAccessPresent ||| gdtAccessRing0 ||| gdtAccessSegment ||| 0x0A) gdtGran64bit g
  let g := gdtSetEntry 2 0 0
    (gdtAccessPresent ||| gdtAccessRing0 ||| gdtAccessSegment ||| 0x02) gdtGran64bit g
  let g := gdtSetEntry 3 0 0xFFFFFFFF
    (gdtAccessPresent ||| gdtAccessRing3 ||| gdtAccessSegment ||| 0x0A)
    (gdtGran4k ||| gdtGran32bit) g
  let g := gdtSetEntry 4 0 0
    (gdtAccessPresent ||| gdtAccessRing3 ||| gdtAccessSegment ||| 0x02) gdtGran64bit g
  let g := gdtSetEntry 5 0 0
    (gdtAccessPresent ||| gdtAccessRing3 ||| gdtAccessSegment ||| 0x0A) gdtGran64bit g
  let g := gdtSetEntry 6 0 0 0 0 g
  let g := gdtSetEntry 7 0 0 0 0 g
  gdtSetTss tssIndex tss (tss64Size - 1) g

/-! ## Reading the table -/

/-- `g_gdt[i]`. -/
def entryAt (g : ByteMem) (i : Nat) : GdtEntry where
  limitLow := g.load (sizeofEntry * i) 2
  baseLow := g.load (sizeofEntry * i + 2) 2
  baseMiddle := g.load (sizeofEntry * i + 4) 1
  access := g.load (sizeofEntry * i + 5) 1
  granularity := g.load (sizeofEntry * i + 6) 1
  baseHigh := g.load (sizeofEntry * i + 7) 1

/-- The 16 bytes at `g_gdt[i]`, as a `tss_descriptor_t`. -/
def tssAt (g : ByteMem) (i : Nat) : TssDescriptor where
  limitLow := g.load (sizeofEntry * i) 2
  baseLow := g.load (sizeofEntry * i + 2) 2
  baseMid1 := g.load (sizeofEntry * i + 4) 1
  access := g.load (sizeofEntry * i + 5) 1
  limitHighFlags := g.load (sizeofEntry * i + 6) 1
  baseMid2 := g.load (sizeofEntry * i + 7) 1
  baseHigh := g.load (sizeofEntry * i + 8) 4
  reserved := g.load (sizeofEntry * i + 12) 4

namespace GdtEntry

/-- The segment's base, as the processor puts it together. -/
def base (e : GdtEntry) : Nat := e.baseLow + 2 ^ 16 * e.baseMiddle + 2 ^ 24 * e.baseHigh

/-- The segment's limit: the upper four bits are below the flags. -/
def limit (e : GdtEntry) : Nat := e.limitLow + 2 ^ 16 * (e.granularity % 16)

end GdtEntry

namespace TssDescriptor

/-- `base_high:base_mid2:base_mid1:base_low`. -/
def base (d : TssDescriptor) : Nat :=
  d.baseLow + 2 ^ 16 * d.baseMid1 + 2 ^ 24 * d.baseMid2 + 2 ^ 32 * d.baseHigh

def limit (d : TssDescriptor) : Nat := d.limitLow + 2 ^ 16 * (d.limitHighFlags % 16)

end TssDescriptor

/-! ## Fields -/

section Fields

variable {g : ByteMem} {i x : Nat}

theorem writeEntry_outside {e : GdtEntry} (h : x < sizeofEntry * i ∨ sizeofEntry * i + 8 ≤ x) :
    writeEntry g i e x = g x := by
  unfold writeEntry store
  rw [if_neg (by omega), if_neg (by omega), if_neg (by omega), if_neg (by omega), if_neg (by omega),
    if_neg (by omega)]

theorem writeTss_outside {d : TssDescriptor} (h : x < sizeofEntry * i ∨ sizeofEntry * i + 16 ≤ x) :
    writeTss g i d x = g x := by
  unfold writeTss store
  rw [if_neg (by omega), if_neg (by omega), if_neg (by omega), if_neg (by omega), if_neg (by omega),
    if_neg (by omega), if_neg (by omega), if_neg (by omega)]

theorem entryAt_writeEntry (e : GdtEntry) :
    entryAt (writeEntry g i e) i = ⟨e.limitLow % 256 ^ 2, e.baseLow % 256 ^ 2,
      e.baseMiddle % 256 ^ 1, e.access % 256 ^ 1, e.granularity % 256 ^ 1, e.baseHigh % 256 ^ 1⟩ := by
  unfold entryAt writeEntry
  simp (disch := omega) only [load_store_self, load_store_of_disjoint]

theorem tssAt_writeTss (d : TssDescriptor) :
    tssAt (writeTss g i d) i = ⟨d.limitLow % 256 ^ 2, d.baseLow % 256 ^ 2, d.baseMid1 % 256 ^ 1,
      d.access % 256 ^ 1, d.limitHighFlags % 256 ^ 1, d.baseMid2 % 256 ^ 1, d.baseHigh % 256 ^ 4,
      d.reserved % 256 ^ 4⟩ := by
  unfold tssAt writeTss
  simp (disch := omega) only [load_store_self, load_store_of_disjoint]

theorem writeEntry_zero (h : sizeofEntry * i ≤ x ∧ x < sizeofEntry * i + 8) :
    writeEntry g i ⟨0, 0, 0, 0, 0, 0⟩ x = 0 := by
  have hzero : ∀ n, UInt8.ofNat (0 / n) = 0 := by
    intro n
    rw [Nat.zero_div]
    rfl
  unfold writeEntry store
  simp only [hzero]
  split_ifs <;> first | rfl | omega

end Fields

/-! ## Pieces of a number -/

theorem and_low16 (n : Nat) : n &&& 0xFFFF = n % 2 ^ 16 := Nat.and_two_pow_sub_one_eq_mod n 16

theorem and_low8 (n : Nat) : n &&& 0xFF = n % 2 ^ 8 := Nat.and_two_pow_sub_one_eq_mod n 8

theorem and_low4 (n : Nat) : n &&& 0x0F = n % 2 ^ 4 := Nat.and_two_pow_sub_one_eq_mod n 4

/-- The limit's bits are not touched by the flags above them. -/
theorem or_flags_mod (n flags : Nat) : (n % 2 ^ 4 ||| flags &&& 0xF0) % 16 = n % 2 ^ 4 := by
  rw [show 16 = 2 ^ 4 from rfl, Nat.or_mod_two_pow, Nat.and_mod_two_pow, Nat.mod_mod, Nat.and_zero,
    Nat.or_zero]

/-- The flags are the upper four bits. -/
theorem or_flags_div (n flags : Nat) :
    (n % 2 ^ 4 ||| flags &&& 0xF0) / 16 = flags / 16 % 16 := by
  have hlow : (n % 2 ^ 4) >>> 4 = 0 := by
    rw [Nat.shiftRight_eq_div_pow]
    omega
  rw [show (16 : Nat) = 2 ^ 4 from rfl, ← Nat.shiftRight_eq_div_pow, ← Nat.shiftRight_eq_div_pow,
    Nat.shiftRight_or_distrib, hlow, Nat.zero_or, Nat.shiftRight_and_distrib]
  exact and_low4 _

/-! ## A record -/

section Entry

variable {g : ByteMem} {index : Int} {base limit access granularity : Nat}

theorem gdtSetEntry_of_range (h : 0 ≤ index ∧ index < gdtMaxEntries) :
    gdtSetEntry index base limit access granularity g
      = writeEntry g index.toNat ⟨limit &&& 0xFFFF, base &&& 0xFFFF, (base >>> 16) &&& 0xFF, access,
          ((limit >>> 16) &&& 0x0F) ||| (granularity &&& 0xF0), (base >>> 24) &&& 0xFF⟩ :=
  if_neg (by omega)

/-- **A record** gives back what it was set to: 32 bits of the base, 20 of the limit, the access
byte and the upper half of the granularity byte. -/
theorem gdtSetEntry_decode (h : 0 ≤ index ∧ index < gdtMaxEntries) (hbase : base < 2 ^ 32) :
    (entryAt (gdtSetEntry index base limit access granularity g) index.toNat).base = base ∧
    (entryAt (gdtSetEntry index base limit access granularity g) index.toNat).limit
      = limit % 2 ^ 20 ∧
    (entryAt (gdtSetEntry index base limit access granularity g) index.toNat).access
      = access % 2 ^ 8 ∧
    (entryAt (gdtSetEntry index base limit access granularity g) index.toNat).granularity / 16
      = granularity / 16 % 16 ∧
    ∀ x, x < sizeofEntry * index.toNat ∨ sizeofEntry * index.toNat + 8 ≤ x →
      gdtSetEntry index base limit access granularity g x = g x := by
  rw [gdtSetEntry_of_range h, entryAt_writeEntry]
  refine ⟨?_, ?_, rfl, ?_, fun x hx => writeEntry_outside hx⟩
  · rw [GdtEntry.base]
    dsimp only
    rw [and_low16, and_low8, and_low8]
    omega
  · rw [GdtEntry.limit]
    dsimp only
    rw [and_low16, and_low4, pow_one,
      Nat.mod_mod_of_dvd _ (by decide : 16 ∣ 256), or_flags_mod]
    omega
  · dsimp only
    rw [and_low4, pow_one, show ∀ n : Nat, n % 256 / 16 = n / 16 % 16 by omega, or_flags_div,
      Nat.mod_mod]

/-- A segment of 4 GiB. -/
theorem gdtSetEntry_decode_flat :
    (entryAt (gdtSetEntry 3 0 0xFFFFFFFF 0xFA 0xC0 fun _ => 0) 3).limit = 0xFFFFF ∧
    (entryAt (gdtSetEntry 3 0 0xFFFFFFFF 0xFA 0xC0 fun _ => 0) 3).access = 0xFA ∧
    (entryAt (gdtSetEntry 3 0 0xFFFFFFFF 0xFA 0xC0 fun _ => 0) 3).granularity / 16 = 0xC :=
  have h := @gdtSetEntry_decode (fun _ => 0) 3 0 0xFFFFFFFF 0xFA 0xC0 (by decide) (by decide)
  ⟨h.2.1, h.2.2.1, h.2.2.2.1⟩

end Entry

/-! ## The TSS -/

section Tss

variable {g : ByteMem} {index : Int} {tssAddr limit : Nat}

/-- The second record is cleared over the descriptor. -/
theorem tssAt_cleared (i : Nat) :
    tssAt (writeEntry g (i + 1) ⟨0, 0, 0, 0, 0, 0⟩) i
      = { tssAt g i with baseHigh := 0, reserved := 0 } := by
  have hnext : sizeofEntry * (i + 1) = sizeofEntry * i + 8 := Nat.mul_succ ..
  have hfirst : ∀ a n, a + n ≤ sizeofEntry * i + 8 →
      (writeEntry g (i + 1) ⟨0, 0, 0, 0, 0, 0⟩).load a n = g.load a n :=
    fun a n ha => load_congr fun x _ hx => writeEntry_outside (.inl (by omega))
  have hzero : ∀ a, sizeofEntry * i + 8 ≤ a → a + 4 ≤ sizeofEntry * i + 16 →
      (writeEntry g (i + 1) ⟨0, 0, 0, 0, 0, 0⟩).load a 4 = 0 := by
    intro a hlo hhi
    exact show _ = load (fun _ => 0) a 4 from load_congr fun x h1 h2 => writeEntry_zero (by omega)
  unfold tssAt
  rw [hfirst _ 2 (by omega), hfirst _ 2 (by omega), hfirst _ 1 (by omega), hfirst _ 1 (by omega),
    hfirst _ 1 (by omega), hfirst _ 1 (by omega), hzero _ (by omega) (by omega),
    hzero _ (by omega) (by omega)]

/-- **`gdt_set_tss`**: the lower half of the address, the limit, and nothing else is changed. -/
theorem gdtSetTss_spec (g : ByteMem) (tssAddr limit : Nat) (h : 0 ≤ index ∧ index < gdtMaxEntries - 1) :
    (tssAt (gdtSetTss index tssAddr limit g) index.toNat).base = tssAddr % 2 ^ 32 ∧
    (tssAt (gdtSetTss index tssAddr limit g) index.toNat).limit = limit % 2 ^ 20 ∧
    ∀ x, x < sizeofEntry * index.toNat ∨ sizeofEntry * index.toNat + 16 ≤ x →
      gdtSetTss index tssAddr limit g x = g x := by
  have hset : gdtSetTss index tssAddr limit g
      = writeEntry (writeTss g index.toNat
          ⟨limit &&& 0xFFFF, tssAddr &&& 0xFFFF, (tssAddr >>> 16) &&& 0xFF,
            gdtAccessPresent ||| gdtAccessRing0 ||| gdtAccessTypeTssAvail, (limit >>> 16) &&& 0x0F,
            (tssAddr >>> 24) &&& 0xFF, (tssAddr >>> 32) &&& 0xFFFFFFFF, 0⟩)
          (index.toNat + 1) ⟨0, 0, 0, 0, 0, 0⟩ := by
    rw [gdtSetTss, if_neg (by omega), gdtSetEntry_of_range (by omega),
      show (index + 1).toNat = index.toNat + 1 by omega]
    rfl
  rw [hset]
  refine ⟨?_, ?_, fun x hx => ?_⟩
  · rw [tssAt_cleared, tssAt_writeTss, TssDescriptor.base]
    dsimp only
    rw [and_low16, and_low8, and_low8]
    omega
  · rw [tssAt_cleared, tssAt_writeTss, TssDescriptor.limit]
    dsimp only
    rw [and_low16, and_low4]
    omega
  · rw [writeEntry_outside, writeTss_outside hx]
    have hnext : sizeofEntry * (index.toNat + 1) = sizeofEntry * index.toNat + 8 := Nat.mul_succ ..
    omega

/-- **The TSS descriptor.** For every table, every index and 64-bit address and 20-bit limit: after
`gdt_set_tss` the 16 bytes at the index are a TSS descriptor of this base and limit, with all other
bytes of the table as they were, if and only if the address has no bits above the lower 32. -/
theorem gdt_set_tss_iff (g : ByteMem) (tssAddr : Nat) (h : 0 ≤ index ∧ index ≤ gdtMaxEntries - 2)
    (hlimit : limit < 2 ^ 20) :
    ((tssAt (gdtSetTss index tssAddr limit g) index.toNat).base = tssAddr ∧
      (tssAt (gdtSetTss index tssAddr limit g) index.toNat).limit = limit ∧
      ∀ x, x < sizeofEntry * index.toNat ∨ sizeofEntry * (index.toNat + 2) ≤ x →
        gdtSetTss index tssAddr limit g x = g x) ↔
      tssAddr < 2 ^ 32 := by
  have hnext : sizeofEntry * (index.toNat + 2) = sizeofEntry * index.toNat + 16 := Nat.mul_add ..
  obtain ⟨hbase, hlim, hframe⟩ := gdtSetTss_spec g tssAddr limit
    (show 0 ≤ index ∧ index < gdtMaxEntries - 1 by omega)
  rw [hbase, hlim]
  constructor
  · rintro ⟨hsame, -⟩
    omega
  · intro hlt
    exact ⟨Nat.mod_eq_of_lt hlt, Nat.mod_eq_of_lt hlimit, fun x hx => hframe x (by omega)⟩

/-- An address below 4 GiB. -/
theorem gdt_set_tss_iff_low :
    (tssAt (gdtSetTss 6 0x100000 103 fun _ => 0xFF) 6).base = 0x100000 ∧
    (tssAt (gdtSetTss 6 0x100000 103 fun _ => 0xFF) 6).limit = 103 := by
  obtain ⟨hbase, hlimit, -⟩ := (gdt_set_tss_iff (fun _ => 0xFF) 0x100000
    (show 0 ≤ (6 : Int) ∧ 6 ≤ (gdtMaxEntries : Int) - 2 by decide)
    (show 103 < 2 ^ 20 by decide)).mpr (by decide)
  exact ⟨hbase, hlimit⟩

/-- An address of the kernel: its upper half is lost. -/
theorem gdt_set_tss_truncates :
    (tssAt (gdtSetTss 6 0xFFFFFFFF80100000 103 fun _ => 0) 6).base = 0x80100000 := by
  decide +kernel

/-- **After `gdt_init`** the task register is loaded from a descriptor whose base is not where the
TSS is, as all of the kernel's data is in the upper half of the address space. -/
theorem gdtInit_tss {tss : Nat} (hkernel : kernelVbase ≤ tss) (g : ByteMem) :
    (tssAt (gdtInit tss g) tssIndex).base ≠ tss := by
  have hbase := fun g => (gdtSetTss_spec g tss (tss64Size - 1)
    (show 0 ≤ (tssIndex : Int) ∧ (tssIndex : Int) < gdtMaxEntries - 1 by decide)).1
  refine fun hsame => absurd ((hbase _).symm.trans hsame) ?_
  unfold kernelVbase at hkernel
  omega

end Tss

end GosKernel.Hal
