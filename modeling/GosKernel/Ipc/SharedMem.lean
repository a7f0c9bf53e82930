import GosKernel.Defs
import GosKernel.Lib.Exec

/-!
# Shared memory (`src/ipc/sharedmem.c`)

A table of sixteen named regions. A new region gets physically adjacent frames, which
are mapped at an address that only depends on its slot. The code is given over any
machine that offers the two services it calls.
-/

namespace GosKernel.Ipc

/-! ## Constants and regions -/

def shmMaxRegions : Nat := 16

instance : NeZero shmMaxRegions := ⟨by decide⟩

def shmNameMax : Nat := 32

/-- The address of the region in slot `i`. -/
def shmVirt (i : Fin shmMaxRegions) : Nat := 0xFFFFFFFF80C00000 + i * 0x100000

/-- `shm_region_t`. -/
structure ShmRegion where
  name : CString
  addr : Nat
  size : Nat
  refcount : Int
  valid : Bool
deriving DecidableEq

/-- What shared memory needs: `pmm_alloc_pages`, whose search takes fuel, and
`vmm_map_range`. -/
structure ShmMachine (σ : Type) where
  pmmAllocPages : (fuel count : Nat) → Exec σ Nat
  vmmMapRange : (virt phys count flags : Nat) → Exec σ Unit

/-- `g_shm_regions`, and the machine below. -/
structure ShmState (σ : Type) where
  regions : Fin shmMaxRegions → ShmRegion
  mach : σ

/-- The table before anything was created. -/
def ShmState.bss {σ : Type} (mach : σ) : ShmState σ :=
  ⟨fun _ => ⟨.empty, 0, 0, 0, false⟩, mach⟩

/-- A step of the machine below. -/
def shmOnMach {σ α : Type} (c : Exec σ α) : Exec (ShmState σ) α := fun h =>
  (c h.mach).map fun r => (r.1, { h with mach := r.2 })

/-! ## The functions -/

/-- The first valid region of the name. -/
def shmFind (regions : Fin shmMaxRegions → ShmRegion) (name : CString) :
    Option (Fin shmMaxRegions) :=
  (List.finRange shmMaxRegions).find? fun i => (regions i).valid && (regions i).name = name

/-- The first slot without a valid region. -/
def shmFindFree (regions : Fin shmMaxRegions → ShmRegion) : Option (Fin shmMaxRegions) :=
  (List.finRange shmMaxRegions).find? fun i => !(regions i).valid

/-- The pages of a region of `size` bytes. -/
def shmPages (size : Nat) : Nat := wrap64 (size + (pageSize - 1)) / pageSize

/-- Change the region in slot `i`. -/
def shmSet {σ : Type} (i : Fin shmMaxRegions) (f : ShmRegion → ShmRegion) :
    Exec (ShmState σ) Unit :=
  .update fun h => { h with regions := Function.update h.regions i (f (h.regions i)) }

section Code

variable {σ : Type} (M : ShmMachine σ)

/-- Make the region in the free slot `i` (sharedmem.c:37-54). -/
def shmCreateAt (fuel : Nat) (i : Fin shmMaxRegions) (name : CString) (size : Nat) :
    Exec (ShmState σ) (Int × Option Nat) := do
  let pages := shmPages size
  let phys ← shmOnMach (M.pmmAllocPages fuel pages)
  if phys = 0 then pure (-enomem, none)
  else do
    let virt := shmVirt i
    shmOnMach (M.vmmMapRange virt phys pages (pagePresent ||| pageWritable ||| pageUser))
    shmSet i fun _ => ⟨name.take (shmNameMax - 1), virt, wrap64 (pages * pageSize), 1, true⟩
    pure (0, some virt)

/-- `shm_create` (sharedmem.c:22-57). The result is the return value and what is written
to `*out_addr`; `name` may be `NULL`, and `outAddr` says whether `out_addr` is not. -/
def shmCreate (fuel : Nat) (name : Option CString) (size : Nat) (outAddr : Bool) :
    Exec (ShmState σ) (Int × Option Nat) :=
  match name with
  | none => pure (-einval, none)
  | some name =>
    if outAddr = false ∨ size = 0 then pure (-einval, none)
    else do
      let h ← Exec.read id
      match shmFind h.regions name with
      | some i => do
        shmSet i fun r => { r with refcount := r.refcount + 1 }
        pure (0, some (h.regions i).addr)
      | none =>
        match shmFindFree h.regions with
        | some i => shmCreateAt M fuel i name size
        | none => pure (-enospc, none)

end Code

/-- `shm_open` (sharedmem.c:59-69). -/
def shmOpen {σ : Type} (name : Option CString) (outAddr : Bool) :
    Exec (ShmState σ) (Int × Option Nat) :=
  match name with
  | none => pure (-einval, none)
  | some name =>
    if outAddr = false then pure (-einval, none)
    else do
      let h ← Exec.read id
      match shmFind h.regions name with
      | some i => do
        shmSet i fun r => { r with refcount := r.refcount + 1 }
        pure (0, some (h.regions i).addr)
      | none => pure (-enoent, none)

/-- `shm_close` (sharedmem.c:71-83). -/
def shmClose {σ : Type} (name : CString) : Exec (ShmState σ) Int := do
  let h ← Exec.read id
  match shmFind h.regions name with
  | some i => do
    shmSet i fun r =>
      { r with
        refcount := r.refcount - 1
        valid := if r.refcount - 1 ≤ 0 then false else r.valid }
    pure 0
  | none => pure (-enoent)

/-! ## What the calls leave alone -/

theorem shmClose_mach {σ : Type} {s s' : ShmState σ} {name : CString} {r : Int}
    (h : Exec.Returns (shmClose name) s r s') : s'.mach = s.mach := by
  unfold Exec.Returns shmClose at h
  simp only [Exec.bind_apply, Exec.read_apply, Option.bind_some, id] at h
  cases hfind : shmFind s.regions name <;> rw [hfind] at h <;> cases h <;> rfl

/-- What `shm_create` does: it fails, finds a region of the name, or makes one in a free
slot. -/
theorem shmCreate_cases {σ : Type} {M : ShmMachine σ} {fuel size : Nat} {name : Option CString}
    {outAddr : Bool} {s s' : ShmState σ} {r : Int × Option Nat}
    (h : Exec.Returns (shmCreate M fuel name size outAddr) s r s') :
    r.1 ≠ 0 ∧ s' = s ∨
    ∃ name', name = some name' ∧ size ≠ 0 ∧
      ((∃ i, shmFind s.regions name' = some i ∧ r = (0, some (s.regions i).addr) ∧
          s' = { s with
            regions := Function.update s.regions i
              ({ s.regions i with refcount := (s.regions i).refcount + 1 }) }) ∨
        ∃ i, shmFind s.regions name' = none ∧ shmFindFree s.regions = some i ∧
          Exec.Returns (shmCreateAt M fuel i name' size) s r s') := by
  cases name with
  | none =>
    cases h
    exact .inl ⟨by decide, rfl⟩
  | some name =>
    unfold Exec.Returns shmCreate at h
    simp only [Exec.ite_apply, Exec.bind_apply, Exec.read_apply, Option.bind_some, id] at h
    split at h
    · cases h
      exact .inl ⟨by decide, rfl⟩
    next hargs =>
      have hsize : size ≠ 0 := fun hsize => hargs (.inr hsize)
      cases hfind : shmFind s.regions name with
      | some i =>
        rw [hfind] at h
        cases h
        exact .inr ⟨name, rfl, hsize, .inl ⟨i, hfind, rfl, rfl⟩⟩
      | none =>
        rw [hfind] at h
        cases hfree : shmFindFree s.regions with
        | some i =>
          rw [hfree] at h
          exact .inr ⟨name, rfl, hsize, .inr ⟨i, hfind, rfl, h⟩⟩
        | none =>
          rw [hfree] at h
          cases h
          exact .inl ⟨by decide, rfl⟩

end GosKernel.Ipc
