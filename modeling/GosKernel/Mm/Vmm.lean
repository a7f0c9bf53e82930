import GosKernel.Defs
import GosKernel.Machine

/-!
# The virtual memory manager (`src/mm/vmm/vmm.c`, `vmm_map.c`)

Four-level page tables, edited through the window at `KERNEL_VBASE`: the code reaches
the table in frame `P` at virtual address `P + KERNEL_VBASE`. Invalidating TLB entries
has no effect in the model, which has no TLB.
-/

namespace GosKernel.Mm

/-- `x & ~0xFFF` on 64-bit words. -/
def pageMask (x : Nat) : Nat := x &&& 0xFFFFFFFFFFFFF000

/-- `g_vmm_kernel_pml4`, and the machine below. -/
structure VmmState (σ : Type) where
  kernelPml4 : Nat
  mach : σ

section Code

variable {σ : Type} (M : Machine σ)

/-- A step of the machine below. -/
def vmmOnMach {α : Type} (c : Exec σ α) : Exec (VmmState σ) α := fun h =>
  (c h.mach).map fun r => (r.1, { h with mach := r.2 })

/-- `table[index]`. -/
def getEntry (table index : Nat) : Exec (VmmState σ) Nat :=
  vmmOnMach (M.load64 (table + 8 * index))

/-- `table[index] = v`. -/
def setEntry (table index v : Nat) : Exec (VmmState σ) Unit :=
  vmmOnMach (M.store64 (table + 8 * index) v)

/-- `vmm_virt_to_index` (vmm.c:12-16). -/
def vmmVirtToIndex (virt level : Nat) : Nat := (virt >>> (12 + level * 9)) &&& 0x1FF

/-- Clear the entries of a table from index `i` on, `n` of them. -/
def vmmClearLoop (table : Nat) : (n i : Nat) → Exec (VmmState σ) Unit
  | 0, _ => pure ()
  | n + 1, i => do
    setEntry M table i 0
    vmmClearLoop table n (i + 1)

/-- `vmm_get_or_create_table` (vmm.c:18-34). It halts when there is no page for a new
table. -/
def vmmGetOrCreateTable (parent index flags : Nat) : Exec (VmmState σ) Nat := do
  let entry ← getEntry M parent index
  if entry &&& pagePresent ≠ 0 then pure (wrap64 (pageMask entry + kernelVbase))
  else do
    let page ← vmmOnMach M.pmmAllocPage
    if page = 0 then .stop
    else do
      setEntry M parent index (page ||| flags)
      vmmClearLoop M (wrap64 (page + kernelVbase)) ptEntries 0
      pure (wrap64 (page + kernelVbase))

/-- `vmm_map_page` (vmm.c:58-75). -/
def vmmMapPage (virt phys flags : Nat) : Exec (VmmState σ) Unit := do
  let pml4 ← Exec.read VmmState.kernelPml4
  if pml4 = 0 then pure ()
  else do
    let pdpt ← vmmGetOrCreateTable M pml4 (vmmVirtToIndex virt 3) (pagePresent ||| pageWritable)
    let pd ← vmmGetOrCreateTable M pdpt (vmmVirtToIndex virt 2) (pagePresent ||| pageWritable)
    let pt ← vmmGetOrCreateTable M pd (vmmVirtToIndex virt 1) (pagePresent ||| pageWritable)
    setEntry M pt (vmmVirtToIndex virt 0) (pageMask phys ||| (flags &&& 0xFFF) ||| pagePresent)

/-- One level of `vmm_get_pte`: the table below `table[index]`, if that is present. -/
def vmmNextTable (table index : Nat) : Exec (VmmState σ) (Option Nat) := do
  let entry ← getEntry M table index
  if entry &&& pagePresent = 0 then pure none
  else do
    let entry ← getEntry M table index
    pure (some (wrap64 (pageMask entry + kernelVbase)))

/-- `vmm_get_pte` (vmm.c:98-115): the address of the page's entry, or `NULL`. -/
def vmmGetPte (virt : Nat) : Exec (VmmState σ) Nat := do
  let pml4 ← Exec.read VmmState.kernelPml4
  if pml4 = 0 then pure 0
  else do
    match ← vmmNextTable M pml4 (vmmVirtToIndex virt 3) with
    | none => pure 0
    | some pdpt =>
      match ← vmmNextTable M pdpt (vmmVirtToIndex virt 2) with
      | none => pure 0
      | some pd =>
        match ← vmmNextTable M pd (vmmVirtToIndex virt 1) with
        | none => pure 0
        | some pt => pure (pt + 8 * vmmVirtToIndex virt 0)

/-- `vmm_unmap_page` (vmm.c:77-85). -/
def vmmUnmapPage (virt : Nat) : Exec (VmmState σ) Unit := do
  let pml4 ← Exec.read VmmState.kernelPml4
  if pml4 = 0 then pure ()
  else do
    let pte ← vmmGetPte M virt
    if pte = 0 then pure ()
    else do
      let entry ← vmmOnMach (M.load64 pte)
      if entry &&& pagePresent ≠ 0 then vmmOnMach (M.store64 pte 0)
      else pure ()

/-- `vmm_is_mapped` (vmm.c:87-90). -/
def vmmIsMapped (virt : Nat) : Exec (VmmState σ) Bool := do
  let pte ← vmmGetPte M virt
  if pte = 0 then pure false
  else do
    let entry ← vmmOnMach (M.load64 pte)
    pure (decide (entry &&& pagePresent ≠ 0))

/-- `vmm_get_phys` (vmm.c:92-96). -/
def vmmGetPhys (virt : Nat) : Exec (VmmState σ) Nat := do
  let pte ← vmmGetPte M virt
  if pte = 0 then pure 0
  else do
    let entry ← vmmOnMach (M.load64 pte)
    if entry &&& pagePresent = 0 then pure 0
    else do
      let entry ← vmmOnMach (M.load64 pte)
      pure (pageMask entry ||| (virt &&& 0xFFF))

/-- The loop of `vmm_map_range` from index `i` on. -/
def vmmMapRangeLoop (virt phys flags : Nat) : (n i : Nat) → Exec (VmmState σ) Unit
  | 0, _ => pure ()
  | n + 1, i => do
    vmmMapPage M (wrap64 (virt + i * pageSize)) (wrap64 (phys + i * pageSize)) flags
    vmmMapRangeLoop virt phys flags n (i + 1)

/-- `vmm_map_range` (vmm_map.c:9-13). -/
def vmmMapRange (virt phys count flags : Nat) : Exec (VmmState σ) Unit :=
  vmmMapRangeLoop M virt phys flags count 0

/-- The loop of `vmm_unmap_range` from index `i` on. -/
def vmmUnmapRangeLoop (virt : Nat) : (n i : Nat) → Exec (VmmState σ) Unit
  | 0, _ => pure ()
  | n + 1, i => do
    vmmUnmapPage M (wrap64 (virt + i * pageSize))
    vmmUnmapRangeLoop virt n (i + 1)

/-- `vmm_unmap_range` (vmm_map.c:15-19). -/
def vmmUnmapRange (virt count : Nat) : Exec (VmmState σ) Unit :=
  vmmUnmapRangeLoop M virt count 0

/-- `vmm_protect_page` (vmm_map.c:55-61). -/
def vmmProtectPage (virt newFlags : Nat) : Exec (VmmState σ) Bool := do
  let phys ← vmmGetPhys M virt
  if phys = 0 then pure false
  else do
    vmmUnmapPage M virt
    vmmMapPage M virt phys newFlags
    pure true

end Code

section Init

variable {σ : Type} (M : MmuMachine σ)

/-- `vmm_switch_pml4` (vmm.c:121-123). -/
def vmmSwitchPml4 (pml4 : Nat) : Exec (VmmState σ) Unit :=
  vmmOnMach (M.writeCr3 (sub64 pml4 kernelVbase))

/-- `vmm_init` (vmm.c:36-56). -/
def vmmInit : Exec (VmmState σ) Unit := do
  let page ← vmmOnMach M.pmmAllocPage
  Exec.update fun h => { h with kernelPml4 := wrap64 (page + kernelVbase) }
  let pml4 ← Exec.read VmmState.kernelPml4
  vmmClearLoop M.toMachine pml4 ptEntries 0
  vmmMapRange M.toMachine 0 0 0x40000 (pagePresent ||| pageWritable)
  vmmMapRange M.toMachine kernelVbase 0 0x40000 (pagePresent ||| pageWritable)
  vmmSwitchPml4 M pml4

end Init

end GosKernel.Mm
