import GosKernel.Defs
import GosKernel.Machine

/-!
# The slab allocator (`src/lib/slab.c`)

A cache hands out objects of one size. It gets its memory page by page; each page is a
slab, with a 48-byte header in front and as many objects as fit behind it. The free
objects of a slab are chained through their own first words, and the slabs of a cache are
on three lists, chained through their headers. The code is given over any `Machine`.

The cache itself lies in a block of the heap that nothing else writes to, so `SlabState`
holds its members beside the memory. `cache` is never `NULL` here.
-/

namespace GosKernel.Slab

/-! ## Constants and headers -/

/-- `SLAB_PAGE_COUNT * SLAB_PAGE_SIZE`. -/
def slabTotalSize : Nat := 4096

/-- `sizeof(slab_t)`. -/
def sizeofSlab : Nat := 48

/-- `sizeof(void *)`. -/
def sizeofPtr : Nat := 8

/-- The members of `slab_t`. -/
inductive SlabField
  | next
  | freeList
  | memory
  | objSize
  | objCount
  | used
  deriving DecidableEq

/-- The offset of a member in `slab_t`. -/
def SlabField.offset : SlabField → Nat
  | .next => 0
  | .freeList => 8
  | .memory => 16
  | .objSize => 24
  | .objCount => 32
  | .used => 40

/-- The members of `slab_cache_t` that the code reads. -/
structure SlabCache where
  objSize : Nat
  slabsFull : Nat
  slabsPartial : Nat
  slabsFree : Nat

/-- A cache, and the machine below. -/
structure SlabState (σ : Type) where
  cache : SlabCache
  mach : σ

/-- How many objects of a size fit behind the header. -/
def slabCount (objSize : Nat) : Nat := (slabTotalSize - sizeofSlab) / objSize

section Code

variable {σ : Type} (M : Machine σ)

/-- A step of the machine below the cache. -/
def onMach {α : Type} (c : Exec σ α) : Exec (SlabState σ) α := fun s =>
  (c s.mach).map fun r => (r.1, { s with mach := r.2 })

/-- `slab->f`. -/
def getField (slab : Nat) (f : SlabField) : Exec (SlabState σ) Nat :=
  onMach (M.load64 (slab + f.offset))

/-- `slab->f = v`. -/
def setField (slab : Nat) (f : SlabField) (v : Nat) : Exec (SlabState σ) Unit :=
  onMach (M.store64 (slab + f.offset) v)

/-- `cache->slabs_full = slab`. -/
def setSlabsFull (slab : Nat) : Exec (SlabState σ) Unit :=
  .update fun s => { s with cache := { s.cache with slabsFull := slab } }

/-- `cache->slabs_partial = slab`. -/
def setSlabsPartial (slab : Nat) : Exec (SlabState σ) Unit :=
  .update fun s => { s with cache := { s.cache with slabsPartial := slab } }

/-- `cache->slabs_free = slab`. -/
def setSlabsFree (slab : Nat) : Exec (SlabState σ) Unit :=
  .update fun s => { s with cache := { s.cache with slabsFree := slab } }

/-- `if (f) f(obj)`, for a constructor or destructor. -/
def callback (f : Option (Nat → Exec σ Unit)) (obj : Nat) : Exec (SlabState σ) Unit :=
  match f with
  | none => pure ()
  | some f => onMach (f obj)

/-! ## Creating -/

/-- The loop that builds the free list, with `n` of its iterations still to come, and the
final `*current = NULL` (slab.c:38-43). -/
def slabBuild (slab objSize : Nat) : (n i current : Nat) → Exec (SlabState σ) Unit
  | 0, _, current => onMach (M.store64 current 0)
  | n + 1, i, current => do
    let memory ← getField M slab .memory
    onMach (M.store64 current (wrap64 (memory + i * objSize)))
    let next ← onMach (M.load64 current)
    slabBuild slab objSize n (i + 1) next

/-- `slab_create` (slab.c:20-46). -/
def slabCreate (objSize : Nat) : Exec (SlabState σ) Nat := do
  let phys ← onMach M.pmmAllocPage
  if phys = 0 then pure 0
  -- the division by `obj_size` faults
  else if objSize = 0 then .stop
  else do
    let slab := wrap64 (phys + kernelVbase)
    let count := slabCount objSize
    setField M slab .memory (wrap64 (slab + sizeofSlab))
    setField M slab .objSize objSize
    setField M slab .objCount count
    setField M slab .used 0
    setField M slab .next 0
    slabBuild M slab objSize count 0 (slab + SlabField.freeList.offset)
    pure slab

/-- `slab_cache_create` (slab.c:48-72), where `block` is what `kmalloc` returned. -/
def slabCacheCreate (block objSize : Nat) : Exec (SlabState σ) Nat :=
  if block = 0 then pure 0
  else do
    let size := if objSize < sizeofPtr then sizeofPtr else objSize
    Exec.update fun s => { s with cache := ⟨size, 0, 0, 0⟩ }
    let slab ← slabCreate M size
    setSlabsFree slab
    if slab = 0 then pure 0 else pure block

/-! ## Allocating -/

/-- Move the first free slab to the partial ones (slab.c:94-96). -/
def slabFreeToPartial (slab : Nat) : Exec (SlabState σ) Unit := do
  let next ← getField M slab .next
  setSlabsFree next
  let head ← Exec.read (·.cache.slabsPartial)
  setField M slab .next head
  setSlabsPartial slab

/-- Move the first partial slab to the full ones (slab.c:107-109). -/
def slabPartialToFull (slab : Nat) : Exec (SlabState σ) Unit := do
  let next ← getField M slab .next
  setSlabsPartial next
  let head ← Exec.read (·.cache.slabsFull)
  setField M slab .next head
  setSlabsFull slab

/-- The first free slab, or a new one (slab.c:87-93). -/
def slabFreeOrNew : Exec (SlabState σ) Nat := do
  let slab ← Exec.read (·.cache.slabsFree)
  if slab ≠ 0 then pure slab
  else do
    let objSize ← Exec.read (·.cache.objSize)
    let slab ← slabCreate M objSize
    if slab = 0 then pure 0
    else do
      setSlabsFree slab
      pure slab

/-- The slab to allocate from (slab.c:85-97). -/
def slabPick : Exec (SlabState σ) Nat := do
  let slab ← Exec.read (·.cache.slabsPartial)
  if slab ≠ 0 then pure slab
  else do
    let slab ← slabFreeOrNew M
    if slab = 0 then pure 0
    else do
      slabFreeToPartial M slab
      pure slab

/-- `if (slab->used >= slab->obj_count)` (slab.c:105-110). -/
def slabCheckFull (slab : Nat) : Exec (SlabState σ) Unit := do
  let used ← getField M slab .used
  let count ← getField M slab .objCount
  if count ≤ used then slabPartialToFull M slab else pure ()

/-- Take the first free object of the slab (slab.c:99-112). -/
def slabTake (ctor : Option (Nat → Exec σ Unit)) (slab : Nat) : Exec (SlabState σ) Nat := do
  let obj ← getField M slab .freeList
  if obj = 0 then pure 0
  else do
    let next ← onMach (M.load64 obj)
    setField M slab .freeList next
    let used ← getField M slab .used
    setField M slab .used (wrap64 (used + 1))
    callback ctor obj
    slabCheckFull M slab
    pure obj

/-- `slab_alloc` (slab.c:81-113). -/
def slabAlloc (ctor : Option (Nat → Exec σ Unit)) : Exec (SlabState σ) Nat := do
  let slab ← slabPick M
  if slab = 0 then pure 0 else slabTake M ctor slab

/-! ## Freeing -/

/-- The search of one list for the slab that `obj` lies in: its predecessor on the list
and the slab, `NULL` when there is none (slab.c:121-128). -/
def slabFind (obj : Nat) : (fuel prev slab : Nat) → Exec (SlabState σ) (Nat × Nat)
  | 0, _, _ => .stop
  | fuel + 1, prev, slab =>
    if slab = 0 then pure (prev, 0)
    else do
      let memory ← getField M slab .memory
      let count ← getField M slab .objCount
      let size ← getField M slab .objSize
      if memory ≤ obj ∧ obj < wrap64 (memory + count * size) then pure (prev, slab)
      else do
        let next ← getField M slab .next
        slabFind obj fuel slab next

/-- The partial slabs are searched first, then the full ones (slab.c:119-140). -/
def slabOwner (fuel obj : Nat) : Exec (SlabState σ) (Nat × Nat) := do
  let head ← Exec.read (·.cache.slabsPartial)
  let r ← slabFind M obj fuel 0 head
  if r.2 ≠ 0 then pure r
  else do
    let head ← Exec.read (·.cache.slabsFull)
    slabFind M obj fuel 0 head

/-- `if (prev) prev->next = v; else cache->slabs_full = v`. -/
def setNextOf (prev v : Nat) : Exec (SlabState σ) Unit :=
  if prev ≠ 0 then setField M prev .next v else setSlabsFull v

/-- Move a full slab to the partial ones (slab.c:154-157). -/
def slabFullToPartial (prev slab : Nat) : Exec (SlabState σ) Unit := do
  let next ← getField M slab .next
  setNextOf M prev next
  let head ← Exec.read (·.cache.slabsPartial)
  setField M slab .next head
  setSlabsPartial slab

/-- `if (slab->used == slab->obj_count - 1)` (slab.c:152-158). -/
def slabCheckPartial (prev slab : Nat) : Exec (SlabState σ) Unit := do
  let used ← getField M slab .used
  let count ← getField M slab .objCount
  if used = sub64 count 1 then slabFullToPartial M prev slab else pure ()

/-- Give the object back to the slab (slab.c:146-158). -/
def slabPut (dtor : Option (Nat → Exec σ Unit)) (prev slab obj : Nat) :
    Exec (SlabState σ) Unit := do
  callback dtor obj
  let head ← getField M slab .freeList
  onMach (M.store64 obj head)
  setField M slab .freeList obj
  let used ← getField M slab .used
  setField M slab .used (sub64 used 1)
  slabCheckPartial M prev slab

/-- `slab_free` (slab.c:115-159). -/
def slabFree (dtor : Option (Nat → Exec σ Unit)) (fuel obj : Nat) : Exec (SlabState σ) Unit :=
  if obj = 0 then pure ()
  else do
    let r ← slabOwner M fuel obj
    if r.2 = 0 then pure () else slabPut M dtor r.1 r.2 obj

end Code

end GosKernel.Slab
