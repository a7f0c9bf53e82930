import GosKernel.Lib.ByteMem
import GosKernel.Lib.Exec

/-!
# What kernel code needs from the machine

The memory-management code is written against virtual addresses and two services
of other components, `pmm_alloc_page` and `vmm_map_page`. `Machine` and its
extensions list exactly these, so that one model of the code serves two purposes:

- over `Flat`, where every address is private memory, for what the code does by
  itself;
- over the whole kernel, where addresses go through the page tables the same code
  edits.
-/

namespace GosKernel

/-- Memory accesses by virtual address, and the frame allocator. -/
structure Machine (σ : Type) where
  load8 : (addr : Nat) → Exec σ UInt8
  store8 : (addr : Nat) → UInt8 → Exec σ Unit
  load64 : (addr : Nat) → Exec σ Nat
  store64 : (addr v : Nat) → Exec σ Unit
  /-- `0` is the `NULL` of a failed call. -/
  pmmAllocPage : Exec σ Nat

/-- A machine with a page-table base register. -/
structure MmuMachine (σ : Type) extends Machine σ where
  writeCr3 : (phys : Nat) → Exec σ Unit

/-- A machine on which pages can be mapped. -/
structure PagedMachine (σ : Type) extends Machine σ where
  vmmMapPage : (virt phys flags : Nat) → Exec σ Unit

/-! ## Private memory -/

/-- Private memory: every address is readable and writable, and nothing else writes
to it. Frames come from a list of answers, so that `pmm_alloc_page` may fail at any
call. -/
structure Flat where
  mem : ByteMem
  /-- The answers of the coming `pmm_alloc_page` calls; `NULL` once they run out. -/
  supply : List Nat
  /-- What a frame holds when it is mapped. -/
  frame : Nat → ByteMem
  /-- The frame that `vmm_map_page` was last called with for a page. -/
  mapped : Nat → Option Nat

namespace Flat

/-- The page of the address was mapped. -/
def Mapped (s : Flat) (addr : Nat) : Prop := (s.mapped (addr / 4096 * 4096)).isSome

instance (s : Flat) (addr : Nat) : Decidable (s.Mapped addr) :=
  inferInstanceAs (Decidable (Option.isSome _ = true))

/-- Pages that were mapped stay mapped. -/
theorem mapped_update {f : Nat → Option Nat} {p : Nat} (h : (f p).isSome) (virt phys : Nat) :
    (Function.update f virt (some phys) p).isSome := by
  rw [Function.update_apply]
  split
  · rfl
  · exact h

/-- `pmm_alloc_page` answers from the supply. -/
def allocPage : Exec Flat Nat := fun s =>
  match s.supply with
  | [] => some (0, s)
  | phys :: rest => some (phys, { s with supply := rest })

/-- The machine whose memory is private. -/
def machine : PagedMachine Flat where
  load8 addr := .read fun s => s.mem addr
  store8 addr v := .update fun s => { s with mem := Function.update s.mem addr v }
  load64 addr := .read fun s => s.mem.load64 addr
  store64 addr v := .update fun s => { s with mem := s.mem.store64 addr v }
  pmmAllocPage := allocPage
  vmmMapPage virt phys _ := .update fun s =>
    { s with
      mem := s.mem.overlay virt 4096 (s.frame phys)
      mapped := Function.update s.mapped virt (some phys) }

end Flat

end GosKernel
