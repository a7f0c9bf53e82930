import GosKernel.Defs
import GosKernel.Machine

/-!
# The kernel heap (`src/mm/heap/heap.c`)

A first-fit allocator over one growing virtual range. Every block starts with a
32-byte header; free blocks form a doubly linked list that is not in address order.
The code is given over any `PagedMachine`.
-/

namespace GosKernel.Mm

/-! ## Constants and headers -/

def heapInitialSize : Nat := 2 * 1024 * 1024

def heapMaxSize : Nat := 64 * 1024 * 1024

def heapBlockAlign : Nat := 16

def heapMagicFree : Nat := 0xDEADBEEFCAFEBAB0

def heapMagicUsed : Nat := 0xCAFEBABEDEADBEEF

/-- The address `heap_init` puts the heap at. -/
def heapBase : Nat := 0xFFFFFFFF80400000

/-- The members of `heap_block_t`. -/
inductive HeapField
  | magic
  | size
  | next
  | prev
  deriving DecidableEq

/-- The offset of a member in `heap_block_t`. -/
def HeapField.offset : HeapField → Nat
  | .magic => 0
  | .size => 8
  | .next => 16
  | .prev => 24

/-- `sizeof(heap_block_t)`. -/
def sizeofHeapBlock : Nat := 32

/-- The globals of `heap.c`, and the machine below. -/
structure HeapState (σ : Type) where
  heapStart : Nat
  heapEnd : Nat
  heapMax : Nat
  heapFreeList : Nat
  mach : σ

/-- The globals before `heap_init`. -/
def HeapState.bss {σ : Type} (mach : σ) : HeapState σ := ⟨0, 0, 0, 0, mach⟩

section Code

variable {σ : Type} (M : PagedMachine σ)

/-- A step of the machine below the heap. -/
def onMach {α : Type} (c : Exec σ α) : Exec (HeapState σ) α := fun h =>
  (c h.mach).map fun r => (r.1, { h with mach := r.2 })

/-- `block->f`. -/
def getField (block : Nat) (f : HeapField) : Exec (HeapState σ) Nat :=
  onMach (M.load64 (block + f.offset))

/-- `block->f = v`. -/
def setField (block : Nat) (f : HeapField) (v : Nat) : Exec (HeapState σ) Unit :=
  onMach (M.store64 (block + f.offset) v)

/-- `g_heap_free_list = block`. -/
def setFreeList (block : Nat) : Exec (HeapState σ) Unit :=
  .update fun h => { h with heapFreeList := block }

/-- `if (block) block->f = v`. -/
def setFieldIf (block : Nat) (f : HeapField) (v : Nat) : Exec (HeapState σ) Unit :=
  if block ≠ 0 then setField M block f v else pure ()

/-- `if (prev) prev->next = v; else g_heap_free_list = v`. -/
def setNextOf (prev v : Nat) : Exec (HeapState σ) Unit :=
  if prev ≠ 0 then setField M prev .next v else setFreeList v

/-- Link `block` in at the front of the free list. `kmalloc` and `kfree` both do it in
these words (heap.c:135-138, 181-184). -/
def pushFreeList (block : Nat) : Exec (HeapState σ) Unit := do
  let head ← Exec.read HeapState.heapFreeList
  setField M block .next head
  setField M block .prev 0
  setFieldIf M head .prev block
  setFreeList block

/-! ## Growing and coalescing -/

/-- The loop of `heap_extend`: page `i` of the `n` still to come. `false` when a page
could not be had. -/
def heapExtendLoop : (n i : Nat) → Exec (HeapState σ) Bool
  | 0, _ => pure true
  | n + 1, i => do
    let phys ← onMach M.pmmAllocPage
    if phys = 0 then pure false
    else do
      let heapEnd ← Exec.read HeapState.heapEnd
      onMach (M.vmmMapPage (wrap64 (heapEnd + i * pageSize)) phys (pagePresent ||| pageWritable))
      heapExtendLoop n (i + 1)

/-- `heap_extend` (heap.c:34-44). -/
def heapExtend (pages : Nat) : Exec (HeapState σ) Nat := do
  let ok ← heapExtendLoop M pages 0
  if ok then do
    let result ← Exec.read HeapState.heapEnd
    Exec.update fun h => { h with heapEnd := wrap64 (h.heapEnd + pages * pageSize) }
    pure result
  else pure 0

/-- Does `block` end where `next` starts? -/
def adjacent (block next : Nat) : Exec (HeapState σ) Bool := do
  let size ← getField M block .size
  pure (decide (wrap64 (block + sizeofHeapBlock + size) = next))

/-- The first half of `heap_coalesce`: swallow the block after `block` on the list. -/
def heapCoalesceNext (block : Nat) : Exec (HeapState σ) Unit := do
  let next ← getField M block .next
  if next ≠ 0 then do
    let adj ← adjacent M block next
    if adj then do
      let size ← getField M block .size
      let nextSize ← getField M next .size
      setField M block .size (wrap64 (size + (sizeofHeapBlock + nextSize)))
      let nextNext ← getField M next .next
      setField M block .next nextNext
      setFieldIf M nextNext .prev block
    else pure ()
  else pure ()

/-- The second half of `heap_coalesce`: let the block before `block` on the list
swallow it. -/
def heapCoalescePrev (block : Nat) : Exec (HeapState σ) Nat := do
  let prev ← getField M block .prev
  if prev ≠ 0 then do
    let adj ← adjacent M prev block
    if adj then do
      let prevSize ← getField M prev .size
      let size ← getField M block .size
      setField M prev .size (wrap64 (prevSize + (sizeofHeapBlock + size)))
      let next ← getField M block .next
      setField M prev .next next
      setFieldIf M next .prev prev
      pure prev
    else pure block
  else pure block

/-- `heap_coalesce` (heap.c:46-59). -/
def heapCoalesce (block : Nat) : Exec (HeapState σ) Nat := do
  heapCoalesceNext M block
  heapCoalescePrev M block

/-- Make the initial space one free block (heap.c:75-80). -/
def heapInitBlock (block : Nat) : Exec (HeapState σ) Unit := do
  setFreeList block
  setField M block .magic heapMagicFree
  setField M block .size (heapInitialSize - sizeofHeapBlock)
  setField M block .next 0
  setField M block .prev 0

/-- `heap_init` (heap.c:61-84). It halts when the initial pages cannot be had. -/
def heapInit : Exec (HeapState σ) Unit := do
  Exec.update fun h =>
    { h with
      heapStart := heapBase
      heapEnd := heapBase
      heapMax := wrap64 (heapBase + heapMaxSize) }
  let mem ← heapExtend M (heapInitialSize / pageSize)
  if mem = 0 then .stop
  else do
    let heapStart ← Exec.read HeapState.heapStart
    heapInitBlock M heapStart

/-! ## Allocation -/

/-- Cut the tail of `block` off as a free block that takes its place on the list. -/
def kmallocSplit (block size : Nat) : Exec (HeapState σ) Unit := do
  let newBlock := wrap64 (block + sizeofHeapBlock + size)
  setField M newBlock .magic heapMagicFree
  let blockSize ← getField M block .size
  setField M newBlock .size (sub64 (sub64 blockSize sizeofHeapBlock) size)
  let next ← getField M block .next
  setField M newBlock .next next
  let prev ← getField M block .prev
  setField M newBlock .prev prev
  let next ← getField M block .next
  setFieldIf M next .prev newBlock
  let prev ← getField M block .prev
  setNextOf M prev newBlock
  setField M block .size size

/-- Take `block` off the list. -/
def kmallocUnlink (block : Nat) : Exec (HeapState σ) Unit := do
  let prev ← getField M block .prev
  let next ← getField M block .next
  setNextOf M prev next
  let next ← getField M block .next
  let prev ← getField M block .prev
  setFieldIf M next .prev prev

/-- Split `block` if it is large enough for that, unlink it otherwise. -/
def kmallocCarve (block size : Nat) : Exec (HeapState σ) Unit := do
  let blockSize ← getField M block .size
  if wrap64 (size + sizeofHeapBlock + heapBlockAlign) ≤ blockSize then kmallocSplit M block size
  else kmallocUnlink M block

/-- Hand out `block`, which can hold `size` bytes (heap.c:98-119). -/
def kmallocTake (block size : Nat) : Exec (HeapState σ) Nat := do
  kmallocCarve M block size
  setField M block .magic heapMagicUsed
  setField M block .next 0
  setField M block .prev 0
  pure (wrap64 (block + sizeofHeapBlock))

/-- The search loop of `kmalloc`. `some ptr` is what `kmalloc` returns; `none` says
that the list has no block of the size. -/
def kmallocScan (size : Nat) : (fuel block : Nat) → Exec (HeapState σ) (Option Nat)
  | 0, _ => .stop
  | fuel + 1, block =>
    if block = 0 then pure none
    else do
      let magic ← getField M block .magic
      if magic ≠ heapMagicFree then pure (some 0)
      else do
        let blockSize ← getField M block .size
        if size ≤ blockSize then some <$> kmallocTake M block size
        else do
          let next ← getField M block .next
          kmallocScan size fuel next

/-- Put the pages at `newBlock` on the list as one free block. -/
def kmallocAddBlock (newBlock pages : Nat) : Exec (HeapState σ) Unit := do
  setField M newBlock .magic heapMagicFree
  setField M newBlock .size (sub64 (pages * pageSize) sizeofHeapBlock)
  pushFreeList M newBlock

/-- The request rounded up to the block alignment. -/
def kmallocRound (size : Nat) : Nat :=
  wrap64 (size + (heapBlockAlign - 1)) / heapBlockAlign * heapBlockAlign

/-- The pages a block of `size` bytes needs. -/
def kmallocPages (size : Nat) : Nat :=
  wrap64 (wrap64 (size + sizeofHeapBlock) + (pageSize - 1)) / pageSize

/-- The end of `kmalloc`, when no block of `size` bytes is free: extend the heap and
try again. -/
def kmallocGrow (size : Nat) (again : Exec (HeapState σ) Nat) : Exec (HeapState σ) Nat := do
  let pages := kmallocPages size
  let h ← Exec.read id
  if h.heapMax < wrap64 (h.heapEnd + pages * pageSize) then pure 0
  else do
    let newMem ← heapExtend M pages
    if newMem = 0 then pure 0
    else do
      kmallocAddBlock M newMem pages
      again

/-- The body of `kmalloc` (heap.c:86-141), where `again` is its recursive call. -/
def kmallocBody (fuel size : Nat) (again : Exec (HeapState σ) Nat) : Exec (HeapState σ) Nat :=
  if size = 0 then pure 0
  else do
    let head ← Exec.read HeapState.heapFreeList
    let found ← kmallocScan M (kmallocRound size) fuel head
    match found with
    | some ptr => pure ptr
    | none => kmallocGrow M (kmallocRound size) again

/-- `kmalloc`. The fuel bounds the search and the recursive calls. -/
def kmalloc : (fuel size : Nat) → Exec (HeapState σ) Nat
  | 0, _ => .stop
  | fuel + 1, size => kmallocBody M fuel size (kmalloc fuel (kmallocRound size))

/-- The loop of `kzalloc` from index `i` on. -/
def kzallocLoop (ptr : Nat) : (n i : Nat) → Exec (HeapState σ) Unit
  | 0, _ => pure ()
  | n + 1, i => do
    onMach (M.store8 (ptr + i) 0)
    kzallocLoop ptr n (i + 1)

/-- `kzalloc` (heap.c:143-150). -/
def kzalloc (fuel size : Nat) : Exec (HeapState σ) Nat := do
  let ptr ← kmalloc M fuel size
  if ptr ≠ 0 then do
    kzallocLoop M ptr size 0
    pure ptr
  else pure ptr

/-! ## Release -/

/-- `kfree` (heap.c:173-186). -/
def kfree (ptr : Nat) : Exec (HeapState σ) Unit :=
  if ptr = 0 then pure ()
  else do
    let block := sub64 ptr sizeofHeapBlock
    let magic ← getField M block .magic
    if magic ≠ heapMagicUsed then pure ()
    else do
      setField M block .magic heapMagicFree
      pushFreeList M block
      let _ ← heapCoalesce M block
      pure ()

/-- The copy loop of `krealloc`, which reads `block->size` anew at every index. -/
def kreallocCopy (block src dst : Nat) : (fuel i : Nat) → Exec (HeapState σ) Unit
  | 0, _ => .stop
  | fuel + 1, i => do
    let size ← getField M block .size
    if i < size then do
      let byte ← onMach (M.load8 (src + i))
      onMach (M.store8 (dst + i) byte)
      kreallocCopy block src dst fuel (i + 1)
    else pure ()

/-- `krealloc` (heap.c:152-171). -/
def krealloc (fuel ptr newSize : Nat) : Exec (HeapState σ) Nat :=
  if ptr = 0 then kmalloc M fuel newSize
  else if newSize = 0 then do
    kfree M ptr
    pure 0
  else do
    let block := sub64 ptr sizeofHeapBlock
    let magic ← getField M block .magic
    if magic ≠ heapMagicUsed then pure 0
    else do
      let size ← getField M block .size
      if newSize ≤ size then pure ptr
      else do
        let newPtr ← kmalloc M fuel newSize
        if newPtr = 0 then pure 0
        else do
          kreallocCopy M block ptr newPtr fuel 0
          kfree M ptr
          pure newPtr

/-- `ksize` (heap.c:188-193). -/
def ksize (ptr : Nat) : Exec (HeapState σ) Nat :=
  if ptr = 0 then pure 0
  else do
    let block := sub64 ptr sizeofHeapBlock
    let magic ← getField M block .magic
    if magic ≠ heapMagicUsed then pure 0
    else getField M block .size

end Code

section Machine

open Exec

variable {σ α : Type} {c : Exec σ α} {h h' : HeapState σ} {a : α} {m : σ}

theorem returns_onMach (hret : Returns (onMach c) h a h') :
    ∃ m, Returns c h.mach a m ∧ h' = { h with mach := m } := by
  obtain ⟨r, hc, heq⟩ := Option.map_eq_some_iff.mp hret
  cases heq
  exact ⟨r.2, hc, rfl⟩

theorem onMach_returns (hret : Returns c h.mach a m) :
    Returns (onMach c) h a { h with mach := m } := by
  rw [Returns, onMach, show c h.mach = _ from hret]
  rfl

end Machine

end GosKernel.Mm
