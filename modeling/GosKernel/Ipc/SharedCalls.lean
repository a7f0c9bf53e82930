import GosKernel.Ipc.SharedMem
import GosKernel.Mm.Pmm
import GosKernel.Lib.Run

/-!
# What the calls of shared memory do to the table

One statement for each of `shm_create`, `shm_open` and `shm_close`, over any machine, and
the runs of these calls.
-/

namespace GosKernel.Ipc

open Exec

variable {σ : Type}

/-- The table with one region changed. -/
def ShmState.setRegion (s : ShmState σ) (i : Fin shmMaxRegions) (r : ShmRegion) : ShmState σ :=
  { s with regions := Function.update s.regions i r }

/-! ## Lookups -/

variable {i : Fin shmMaxRegions} {name : CString} {r : Int × Option Nat}
  {regions : Fin shmMaxRegions → ShmRegion} {s s' : ShmState σ}

theorem shmFind_some
    (h : shmFind regions name = some i) : (regions i).valid = true ∧ (regions i).name = name := by
  have := List.find?_some h
  simpa using this

theorem shmFind_none :
    shmFind regions name = none ↔
      ∀ i, (regions i).valid = true → (regions i).name ≠ name := by
  simp [shmFind]

/-! ## The calls -/

/-- What the caller of `shm_create` or `shm_open` is told of a region that exists. -/
def ShmRegion.reopened (r : ShmRegion) : ShmRegion := { r with refcount := r.refcount + 1 }

def ShmRegion.closed (r : ShmRegion) : ShmRegion :=
  { r with
    refcount := r.refcount - 1
    valid := if r.refcount - 1 ≤ 0 then false else r.valid }

/-- The region that `shm_create` makes in slot `i`. -/
def newRegion (i : Fin shmMaxRegions) (name : CString) (size : Nat) : ShmRegion :=
  ⟨name.take (shmNameMax - 1), shmVirt i, wrap64 (shmPages size * pageSize), 1, true⟩

theorem shmOpen_cases (h : Returns (shmOpen (some name) true) s r s') :
    (∃ i, shmFind s.regions name = some i ∧ r = (0, some (s.regions i).addr) ∧
      s' = s.setRegion i (s.regions i).reopened) ∨
    (shmFind s.regions name = none ∧ r = (-enoent, none) ∧ s' = s) := by
  unfold Returns shmOpen at h
  simp only [Bool.true_eq_false, if_false, bind_apply, read_apply, Option.bind_some, id] at h
  cases hfind : shmFind s.regions name with
  | some i =>
    rw [hfind] at h
    cases h
    exact .inl ⟨i, rfl, rfl, rfl⟩
  | none =>
    rw [hfind] at h
    cases h
    exact .inr ⟨rfl, rfl, rfl⟩

theorem shmClose_cases {r : Int} (h : Returns (shmClose name) s r s') :
    (∃ i, shmFind s.regions name = some i ∧ r = 0 ∧
      s' = s.setRegion i (s.regions i).closed) ∨
    (shmFind s.regions name = none ∧ r = -enoent ∧ s' = s) := by
  unfold Returns shmClose at h
  simp only [bind_apply, read_apply, Option.bind_some, id] at h
  cases hfind : shmFind s.regions name with
  | some i =>
    rw [hfind] at h
    cases h
    exact .inl ⟨i, rfl, rfl, rfl⟩
  | none =>
    rw [hfind] at h
    cases h
    exact .inr ⟨rfl, rfl, rfl⟩

/-- A new region: the frames that were found are mapped at the slot's address. -/
structure MakesRegion (M : ShmMachine σ) (fuel : Nat) (s : ShmState σ) (name : CString)
    (size : Nat) (i : Fin shmMaxRegions) (s' : ShmState σ) : Prop where
  absent : shmFind s.regions name = none
  free : shmFindFree s.regions = some i
  regions : s'.regions = Function.update s.regions i (newRegion i name size)
  machine : ∃ phys m, Returns (M.pmmAllocPages fuel (shmPages size)) s.mach phys m ∧ phys ≠ 0 ∧
    Returns (M.vmmMapRange (shmVirt i) phys (shmPages size)
      (pagePresent ||| pageWritable ||| pageUser)) m () s'.mach

theorem shmOnMach_returns {α : Type} {c : Exec σ α} {a : α}
    (h : Returns (shmOnMach c) s a s') : Returns c s.mach a s'.mach ∧ s'.regions = s.regions := by
  obtain ⟨r, hr, heq⟩ := Option.map_eq_some_iff.mp h
  cases heq
  exact ⟨hr, rfl⟩

theorem shmCreateAt_cases {M : ShmMachine σ} {fuel size : Nat}
    (hfind : shmFind s.regions name = none) (hfree : shmFindFree s.regions = some i)
    (h : Returns (shmCreateAt M fuel i name size) s r s') :
    (r = (0, some (shmVirt i)) ∧ MakesRegion M fuel s name size i s') ∨
    (r.1 ≠ 0 ∧ s'.regions = s.regions ∧
      Returns (M.pmmAllocPages fuel (shmPages size)) s.mach 0 s'.mach) := by
  obtain ⟨phys, s1, halloc, hrest⟩ := returns_bind h
  obtain ⟨hpages, hreg⟩ := shmOnMach_returns halloc
  by_cases hphys : phys = 0
  · rw [if_pos hphys] at hrest
    cases hrest
    exact .inr ⟨by decide, hreg, hphys ▸ hpages⟩
  · rw [if_neg hphys] at hrest
    obtain ⟨⟨⟩, s2, hmap, hset⟩ := returns_bind hrest
    obtain ⟨hmapped, hreg2⟩ := shmOnMach_returns hmap
    cases hset
    refine .inl ⟨rfl, hfind, hfree, ?_, phys, s1.mach, hpages, hphys, hmapped⟩
    show Function.update s2.regions i _ = _
    rw [hreg2, hreg]
    rfl

theorem shmCreate_outcome {M : ShmMachine σ} {fuel size : Nat}
    (h : Returns (shmCreate M fuel (some name) size true) s r s') :
    (∃ i, size ≠ 0 ∧ shmFind s.regions name = some i ∧ r = (0, some (s.regions i).addr) ∧
      s' = s.setRegion i (s.regions i).reopened) ∨
    (∃ i, size ≠ 0 ∧ r = (0, some (shmVirt i)) ∧ MakesRegion M fuel s name size i s') ∨
    (r.1 ≠ 0 ∧ s'.regions = s.regions ∧
      (s'.mach = s.mach ∨ Returns (M.pmmAllocPages fuel (shmPages size)) s.mach 0 s'.mach)) := by
  rcases shmCreate_cases h with
    ⟨hr, rfl⟩ | ⟨_, hname, hsize, ⟨i, hfind, hr, rfl⟩ | ⟨i, hfind, hfree, hnew⟩⟩
  · exact .inr (.inr ⟨hr, rfl, .inl rfl⟩)
  · cases hname
    exact .inl ⟨i, hsize, hfind, hr, rfl⟩
  · cases hname
    rcases shmCreateAt_cases hfind hfree hnew with ⟨hr, hmake⟩ | ⟨hr, hreg, halloc⟩
    · exact .inr (.inl ⟨i, hsize, hr, hmake⟩)
    · exact .inr (.inr ⟨hr, hreg, .inr halloc⟩)

/-! ## Machines -/

/-- No frames are given for no pages, as with `pmm_alloc_pages`. -/
def NoEmptyRange (M : ShmMachine σ) : Prop :=
  ∀ fuel s phys s', Returns (M.pmmAllocPages fuel 0) s phys s' → phys = 0

/-- Frames from the PMM, with the ranges that were mapped. -/
def pmmShm : ShmMachine (Mm.Pmm × List (Nat × Nat × Nat)) where
  pmmAllocPages fuel count := fun s =>
    (Mm.pmmAllocPages fuel s.1 count).map fun r => (r.1, (r.2, s.2))
  vmmMapRange virt phys count _ := .update fun s => (s.1, (virt, phys, count) :: s.2)

/-- All frames from 1 MiB on are free. -/
def freeFrames : Mm.Pmm × List (Nat × Nat × Nat) :=
  (⟨fun _ => 0, 0xFF00, 0, 0x100⟩, [])

/-! ## Runs of calls -/

/-- The calls with what they answer. -/
inductive ShmEvent
  | create (name : CString) (size : Nat) (ret : Int × Option Nat)
  | opened (name : CString) (ret : Int × Option Nat)
  | close (name : CString) (ret : Int)

/-- One call that returns, with arguments that are not `NULL`. -/
def ShmStep (M : ShmMachine σ) (s : ShmState σ) (e : ShmEvent) (s' : ShmState σ) : Prop :=
  match e with
  | .create name size ret =>
    size < 2 ^ 64 ∧ ∃ fuel, Returns (shmCreate M fuel (some name) size true) s ret s'
  | .opened name ret => Returns (shmOpen (some name) true) s ret s'
  | .close name ret => Returns (shmClose name) s ret s'

/-- The references to `name` after one more call. -/
def ShmEvent.refs (name : CString) (n : Nat) : ShmEvent → Nat
  | .create name' _ ret => if name' = name ∧ ret.1 = 0 then n + 1 else n
  | .opened name' ret => if name' = name ∧ ret.1 = 0 then n + 1 else n
  | .close name' ret => if name' = name ∧ ret = 0 then n - 1 else n

/-- The references to `name` that were taken and not given up. -/
def refs (name : CString) (es : List ShmEvent) : Nat := es.foldl (ShmEvent.refs name) 0

theorem refs_snoc (name : CString) (es : List ShmEvent) (e : ShmEvent) :
    refs name (es ++ [e]) = e.refs name (refs name es) := by
  rw [refs, List.foldl_append]
  rfl

end GosKernel.Ipc
