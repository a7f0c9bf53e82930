import GosKernel.Kernel.Strings

/-!
# The ACPI tables (`src/acpi/acpi.c`)

`acpi_find_table` reads the list of tables as 32-bit words, in the RSDT as in the XSDT, whose
entries have 64 bits. As long as the addresses are below `2 ^ 32`, each second word of an XSDT is
zero and is skipped. `acpiFindTable_spec` says when the first table that is listed is found.
-/

namespace GosKernel.Acpi

open List Strings Base64

/-! ## The functions -/

/-- A loop of `acpi_find_rsdp`, with `n` addresses left. -/
def searchRsdp (m : ByteMem) : (n addr : Nat) → Option Nat
  | 0, _ => none
  | n + 1, addr =>
    if memcmp m (.ofList ("RSD PTR ".toList.map chr)) 8 addr 0 = 0 then some addr
    else searchRsdp m n (addr + 16)

/-- `acpi_find_rsdp` (acpi.c:43-58). -/
def acpiFindRsdp (m : ByteMem) : Option Nat :=
  (searchRsdp m 0x2000 0x80000).or (searchRsdp m 0x2000 0xE0000)

/-! The members of `acpi_rsdp_t` and of `acpi_sdt_header_t` (acpi.h:18-41). -/

def revision (m : ByteMem) (rsdp : Nat) : Nat := m.load (rsdp + 15) 1

def rsdtAddr (m : ByteMem) (rsdp : Nat) : Nat := m.load (rsdp + 16) 4

def xsdtAddr (m : ByteMem) (rsdp : Nat) : Nat := m.load (rsdp + 24) 8

def length (m : ByteMem) (sdt : Nat) : Nat := m.load (sdt + 4) 4

/-- `acpi_init` takes the XSDT. -/
def UsesXsdt (m : ByteMem) (rsdp : Nat) : Prop := revision m rsdp ≥ 2 ∧ xsdtAddr m rsdp ≠ 0
deriving Decidable

/-- The table that `acpi_init` takes. -/
def sdtAddr (m : ByteMem) (rsdp : Nat) : Nat :=
  if UsesXsdt m rsdp then xsdtAddr m rsdp else rsdtAddr m rsdp

/-- `acpi_init` (acpi.c:13-41): the new `g_rsdt_phys`. -/
def acpiInit (m : ByteMem) (g : Nat) : Nat :=
  match acpiFindRsdp m with
  | none => g
  | some rsdp => sdtAddr m rsdp

/-- The loop of `acpi_find_table`: what it returns, and the tables that it looks at. -/
def findEntry (m sig : ByteMem) : (entries : List Nat) → Option Nat × List Nat
  | [] => (none, [])
  | table :: entries =>
    if table = 0 then findEntry m sig entries
    else if memcmp m sig 4 table 0 = 0 then (some table, [table])
    else ((findEntry m sig entries).1, table :: (findEntry m sig entries).2)

/-- The words of `width` bytes behind the header of a table. -/
def words (m : ByteMem) (sdt width n : Nat) : List Nat :=
  (List.range n).map fun i => m.load (sdt + 36 + i * width) width

/-- `acpi_find_table` (acpi.c:60-76). -/
def acpiFindTable (m : ByteMem) (g : Nat) (sig : ByteMem) : Option Nat × List Nat :=
  if g = 0 then (none, [])
  else findEntry m sig (words m g 4 (wrap32 (sub64 (length m g) 36 / 4)))

/-! ## The tables that are listed -/

/-- The addresses in the table that `acpi_init` takes. -/
def listed (m : ByteMem) (rsdp : Nat) : List Nat :=
  let width := if UsesXsdt m rsdp then 8 else 4
  words m (sdtAddr m rsdp) width ((length m (sdtAddr m rsdp) - 36) / width)

/-- The table at `t` has the signature of four bytes. -/
def Signed (m sig : ByteMem) (t : Nat) : Prop := m.load t 4 = sig.load 0 4
deriving Decidable

variable {m sig : ByteMem}

theorem memcmp_eq_zero_iff {n a b : Nat} : memcmp m sig n a b = 0 ↔ m.load a n = sig.load b n := by
  induction n generalizing a b with
  | zero => exact iff_of_true rfl rfl
  | succ n ih =>
    have hm := (m a).toNat_lt
    have hsig := (sig b).toNat_lt
    rw [memcmp, ByteMem.load, ByteMem.load]
    by_cases h : m a = sig b
    · rw [if_neg (not_not.mpr h), ih, h]
      omega
    · have hne : (m a).toNat ≠ (sig b).toNat := fun h' => h (UInt8.toNat_inj.mp h')
      rw [if_pos h]
      omega

/-- The loop returns `found` and looks only at tables in `tables`, if the words in front of `found`
that it does not skip are such tables and do not have the signature. -/
theorem findEntry_iff {tables : List Nat} {found : Option Nat}
    (hfound : ∀ t, found = some t → Signed m sig t ∧ t ≠ 0 ∧ t ∈ tables) (entries : List Nat) :
    ((findEntry m sig entries).1 = found ∧ ∀ t ∈ (findEntry m sig entries).2, t ∈ tables) ↔
      (∀ t, found = some t → t ∈ entries) ∧
        ∀ w ∈ (entries.filter (· ≠ 0)).takeWhile (some · ≠ found), w ∈ tables ∧ ¬ Signed m sig w := by
  induction entries with
  | nil => cases found <;> simp [findEntry]
  | cons w entries ih =>
    rw [findEntry, filter_cons]
    have hmem (hw : found ≠ some w) :
        (∀ t, found = some t → t ∈ w :: entries) ↔ ∀ t, found = some t → t ∈ entries := by
      refine forall₂_congr fun t ht => mem_cons.trans (or_iff_right ?_)
      rintro rfl
      exact hw ht
    by_cases hzero : w = 0
    · rw [if_pos hzero, if_neg (by simpa using hzero), ih, hmem fun h => (hfound w h).2.1 hzero]
    have hsig : memcmp m sig 4 w 0 = 0 ↔ Signed m sig w := memcmp_eq_zero_iff
    rw [if_neg hzero, if_pos (decide_eq_true hzero), takeWhile_cons]
    by_cases hsigned : Signed m sig w
    · rw [if_pos (hsig.mpr hsigned)]
      by_cases heq : found = some w
      · obtain ⟨-, -, htables⟩ := hfound w heq
        simp [heq, htables]
      · simp [Ne.symm heq, hsigned]
    · have hne : found ≠ some w := fun h => hsigned (hfound w h).1
      rw [if_neg (hsig.not.mpr hsigned), if_pos (decide_eq_true hne.symm), forall_mem_cons,
        forall_mem_cons, hmem hne, and_left_comm, ih]
      simp only [hsigned, not_false_iff, and_true]
      exact and_left_comm

/-- The two halves of a 64-bit word. -/
theorem load_eight (a : Nat) : m.load a 8 = m.load a 4 + 2 ^ 32 * m.load (a + 4) 4 := by
  simp only [ByteMem.load, Nat.add_assoc, Nat.reduceAdd]
  omega

/-- The 32-bit words of the table that `acpi_init` takes. -/
def listWords (m : ByteMem) (rsdp : Nat) : List Nat :=
  words m (sdtAddr m rsdp) 4 ((length m (sdtAddr m rsdp) - 36) / 4)

/-- An address that is listed is also one of the words if it fits in one. -/
theorem mem_listWords_iff {rsdp t : Nat} (ht : t ∈ listed m rsdp) :
    t ∈ listWords m rsdp ↔ t < 2 ^ 32 := by
  unfold listed at ht
  refine ⟨fun h => ?_, fun hlt => ?_⟩
  · obtain ⟨i, -, rfl⟩ := mem_map.mp h
    exact ByteMem.load_lt _ _ 4
  by_cases hx : UsesXsdt m rsdp
  · rw [if_pos hx] at ht
    obtain ⟨i, hi, rfl⟩ := mem_map.mp ht
    rw [mem_range] at hi
    rw [load_eight] at hlt ⊢
    refine mem_map.mpr ⟨2 * i, mem_range.mpr (by omega), ?_⟩
    rw [show 2 * i * 4 = i * 8 by omega]
    omega
  · rwa [if_neg hx] at ht

/-- **`acpi_find_table` finds the first table that is listed with the signature** and looks only at
tables that are listed, if and only if the address of that table fits in 32 bits, and each word of
the list in front of it that is not zero is the address of a listed table without the signature. -/
theorem acpiFindTable_spec (m sig : ByteMem) (rsdp g : Nat) (hrsdp : acpiFindRsdp m = some rsdp)
    (hpos : sdtAddr m rsdp ≠ 0) (hlen : 36 ≤ length m (sdtAddr m rsdp))
    (hlisted : ∀ t ∈ listed m rsdp, t ≠ 0) :
    ((acpiFindTable m (acpiInit m g) sig).1 = (listed m rsdp).find? (Signed m sig ·) ∧
      ∀ t ∈ (acpiFindTable m (acpiInit m g) sig).2, t ∈ listed m rsdp) ↔
    (∀ t, (listed m rsdp).find? (Signed m sig ·) = some t → t < 2 ^ 32) ∧
      ∀ w ∈ ((listWords m rsdp).filter (· ≠ 0)).takeWhile
          (some · ≠ (listed m rsdp).find? (Signed m sig ·)),
        w ∈ listed m rsdp ∧ ¬ Signed m sig w := by
  have hinit : acpiInit m g = sdtAddr m rsdp := by rw [acpiInit, hrsdp]
  have hbound : length m (sdtAddr m rsdp) < 2 ^ 32 := ByteMem.load_lt _ _ 4
  have hcount : wrap32 (sub64 (length m (sdtAddr m rsdp)) 36 / 4)
      = (length m (sdtAddr m rsdp) - 36) / 4 := by
    rw [sub64_of_le hlen (by omega), wrap32]
    omega
  rw [hinit, acpiFindTable, if_neg hpos, hcount]
  refine (findEntry_iff (fun t ht => ?_) (listWords m rsdp)).trans (and_congr_left' ?_)
  · have hmem := mem_of_find?_eq_some ht
    exact ⟨by simpa using find?_some ht, hlisted t hmem, hmem⟩
  · exact forall₂_congr fun t ht => mem_listWords_iff (mem_of_find?_eq_some ht)

/-- From `0x80000` on: an RSDP of revision 2, an XSDT of one entry and a table. The entry is the
address of the table if `high` is zero. -/
def firmware (high : UInt8) : ByteMem := fun a =>
  ("RSD PTR ".toList.map chr ++ replicate 7 0 ++ 2 :: replicate 8 0 ++ [0x24, 0, 8, 0] ++
    replicate 8 0 ++ "XSDT".toList.map chr ++ 44 :: replicate 31 0 ++
    [0x50, 0, 8, 0, high, 0, 0, 0] ++ "HPET".toList.map chr).getD (a - 0x80000) 0

theorem acpiFindTable_hpet :
    (acpiFindTable (firmware 0) (acpiInit (firmware 0) 0) (.ofList ("HPET".toList.map chr))).1 =
      some 0x80050 :=
  ((acpiFindTable_spec (firmware 0) _ 0x80000 0 (by decide) (by decide) (by decide)
    (by decide)).mpr (by decide)).1.trans (by decide)

/-- An entry above `2 ^ 32` is cut: a table that is not listed is found. -/
theorem acpiFindTable_cut :
    listed (firmware 1) 0x80000 = [0x100080050] ∧
      (acpiFindTable (firmware 1) (acpiInit (firmware 1) 0) (.ofList ("HPET".toList.map chr))).1 =
        some 0x80050 := by
  decide

end GosKernel.Acpi
