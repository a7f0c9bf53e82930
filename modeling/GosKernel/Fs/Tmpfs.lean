import GosKernel.Fs.Vfs
import GosKernel.Mm.HeapSpec

/-!
# The in-memory file system (`src/fs/tmpfs/tmpfs.c`)

The contents of a file are one block of the kernel heap that `krealloc` makes larger, from
256 bytes in doublings up to `TMPFS_MAX_SIZE`. The code is over any machine; what it does
is shown on private memory, with the heap of `heap.c`.

- `NodeInv.read`: reading inside the block;
- `tmpfsGrow_spec`: making room;
- `tmpfsVfsWrite_served`: a write for which there is room.
-/

namespace GosKernel.Fs

open Exec Mm List Function

def tmpfsMaxSize : Nat := 256 * 1024

/-- The members of `tmpfs_node_t` that reading and writing use. -/
structure TmpfsNode where
  data : Nat
  size : Nat
  capacity : Nat

/-- `g_tmpfs_nodes`, and the heap. -/
structure Tmpfs (σ : Type) where
  nodes : Nat → TmpfsNode
  heap : HeapState σ

/-- The `vfs_ops_t` tables. -/
inductive OpsTable
  | tmpfs
deriving DecidableEq

/-- Open files over the file systems. -/
abbrev FsState (σ : Type) := VfsState OpsTable (Tmpfs σ)

section Code

variable {σ : Type} (M : PagedMachine σ)

/-- A step of the heap. -/
def onHeap {α : Type} (c : Exec (HeapState σ) α) : Exec (FsState σ) α := fun s =>
  (c s.fs.heap).map fun r => (r.1, { s with fs := { s.fs with heap := r.2 } })

theorem onHeap_returns {α : Type} {c : Exec (HeapState σ) α} {s : FsState σ} {a : α}
    {h : HeapState σ} (hret : Returns c s.fs.heap a h) :
    Returns (onHeap c) s a { s with fs := { s.fs with heap := h } } := by
  rw [Returns, onHeap, show c s.fs.heap = _ from hret]
  rfl

/-- `memcpy` to the buffer of a caller, from byte `i` on. -/
def copyOut (src : Nat) : (n i : Nat) → Exec (FsState σ) (List UInt8)
  | 0, _ => pure []
  | n + 1, i => do
    let byte ← onHeap (onMach (M.load8 (wrap64 (src + i))))
    let bytes ← copyOut src n (i + 1)
    pure (byte :: bytes)

/-- `memcpy` from the buffer of a caller, from byte `i` on. -/
def copyIn (dest : Nat) (buf : Nat → UInt8) : (n i : Nat) → Exec (FsState σ) Unit
  | 0, _ => pure ()
  | n + 1, i => do
    onHeap (onMach (M.store8 (wrap64 (dest + i)) (buf i)))
    copyIn dest buf n (i + 1)

/-- Replace a node of tmpfs. -/
def setTmpfsNode (t : Nat) (f : TmpfsNode → TmpfsNode) : Exec (FsState σ) Unit :=
  .update fun s =>
    { s with fs := { s.fs with nodes := Function.update s.fs.nodes t (f (s.fs.nodes t)) } }

/-- `node->private_data`, or `NULL` for a `NULL` node. -/
def tmpfsPrivate (node : Option Nat) : Exec (FsState σ) (Option Nat) :=
  .read fun s => node.bind fun n => (s.nodes n).privateData

/-- `tmpfs_vfs_read` (tmpfs.c:54-61). -/
def tmpfsVfsRead (node : Option Nat) (offset count : Nat) :
    Exec (FsState σ) (Int × List UInt8) := do
  let data ← tmpfsPrivate node
  match data with
  | none => pure (-einval, [])
  | some t => do
    let tn ← Exec.read fun s => s.fs.nodes t
    if tn.size ≤ offset then pure (0, [])
    else do
      let count := if tn.size < wrap64 (offset + count) then tn.size - offset else count
      let bytes ← copyOut M (tn.data + offset) count 0
      pure (toInt32 count, bytes)

/-- `tn->capacity ? tn->capacity * 2 : 256`. -/
def tmpfsFirstCap (capacity : Nat) : Nat := if capacity ≠ 0 then wrap64 (capacity * 2) else 256

/-- `while (new_cap < need) new_cap *= 2`. -/
def tmpfsNewCap (need : Nat) : (fuel newCap : Nat) → Option Nat
  | 0, _ => none
  | fuel + 1, newCap =>
    if newCap < need then tmpfsNewCap need fuel (wrap64 (newCap * 2)) else some newCap

/-- Making room for `need` bytes (tmpfs.c:67-73): `0`, or the error that is returned. -/
def tmpfsGrow (fuel t need : Nat) : Exec (FsState σ) Int := do
  let tn ← Exec.read fun s => s.fs.nodes t
  if tn.capacity < need then
    match tmpfsNewCap need fuel (tmpfsFirstCap tn.capacity) with
    | none => .stop
    | some newCap =>
      if tmpfsMaxSize < newCap then pure (-enospc)
      else do
        let newData ← onHeap (krealloc M fuel tn.data newCap)
        if newData = 0 then pure (-enomem)
        else do
          setTmpfsNode t fun tn => { tn with data := newData, capacity := newCap }
          pure 0
  else pure 0

/-- The sizes after a write that ends at `last` (tmpfs.c:76-77). -/
def tmpfsSetSize (node : Option Nat) (t last : Nat) : Exec (FsState σ) Unit := do
  setTmpfsNode t fun tn => { tn with size := if tn.size < last then last else tn.size }
  match node with
  | none => pure ()
  | some n => Exec.update fun s =>
      { s with nodes := Function.update s.nodes n { s.nodes n with size := (s.fs.nodes t).size } }

/-- `tmpfs_vfs_write` (tmpfs.c:63-79). -/
def tmpfsVfsWrite (fuel : Nat) (node : Option Nat) (offset : Nat) (buf : Nat → UInt8)
    (count : Nat) : Exec (FsState σ) Int := do
  let data ← tmpfsPrivate node
  match data with
  | none => pure (-einval)
  | some t => do
    let err ← tmpfsGrow M fuel t (wrap64 (offset + count))
    if err ≠ 0 then pure err
    else do
      let tn ← Exec.read fun s => s.fs.nodes t
      copyIn M (tn.data + offset) buf count 0
      tmpfsSetSize node t (wrap64 (offset + count))
      pure (toInt32 count)

/-- `g_tmpfs_ops`, the one table there is. -/
def gTmpfsOps (fuel : Nat) : OpsTable → VfsOps (FsState σ)
  | .tmpfs => { read := some (tmpfsVfsRead M), write := some (tmpfsVfsWrite M fuel) }

end Code

section Private

variable {G : PagedMachine Flat} (hG : OnPages G)

/-! ## Copying -/

include hG in
theorem copyOut_returns {s : FsState Flat} {src n i : Nat} (hlt : src + (i + n) ≤ 2 ^ 64)
    (hmapped : ∀ j < n, s.fs.heap.mach.Mapped (src + (i + j))) :
    Returns (copyOut G src n i) s ((List.range' (src + i) n).map s.fs.heap.mach.mem) s := by
  induction n generalizing i with
  | zero => rfl
  | succ n ih =>
    have hhead : Returns (onHeap (onMach (G.load8 (wrap64 (src + i))))) s
        (s.fs.heap.mach.mem (src + i)) s := by
      rw [wrap64_of_lt (by omega)]
      exact onHeap_returns (onMach_returns (hG.load8 (hmapped 0 (Nat.succ_pos n))))
    have htail := ih (i := i + 1) (by omega) fun j hj =>
      (by omega : i + (j + 1) = i + 1 + j) ▸ hmapped (j + 1) (by omega)
    rw [Returns, copyOut, hhead.bind_eq, htail.bind_eq]
    rfl

include hG in
/-- The copy writes its range and nothing else. -/
theorem copyIn_returns {s : FsState Flat} {dest : Nat} {buf : Nat → UInt8} {n i : Nat}
    (hlt : dest + (i + n) ≤ 2 ^ 64)
    (hmapped : ∀ j < n, s.fs.heap.mach.Mapped (dest + (i + j))) :
    ∃ m : ByteMem, Returns (copyIn G dest buf n i) s ()
        { s with fs := { s.fs with heap := { s.fs.heap with
          mach := { s.fs.heap.mach with mem := m } } } } ∧
      ∀ x, m x = if dest + i ≤ x ∧ x < dest + (i + n) then buf (x - dest)
        else s.fs.heap.mach.mem x := by
  induction n generalizing i s with
  | zero =>
    refine ⟨s.fs.heap.mach.mem, rfl, fun x => ?_⟩
    rw [if_neg (by omega)]
  | succ n ih =>
    obtain ⟨m, hrun, hm⟩ := ih (s := { s with fs := { s.fs with heap := { s.fs.heap with
      mach := { s.fs.heap.mach with
        mem := Function.update s.fs.heap.mach.mem (dest + i) (buf i) } } } }) (i := i + 1)
      (by omega) fun j hj => (by omega : i + (j + 1) = i + 1 + j) ▸ hmapped (j + 1) (by omega)
    refine ⟨m, ?_, fun x => ?_⟩
    · rw [Returns, copyIn, wrap64_of_lt (by omega)]
      exact (onHeap_returns (onMach_returns (hG.store8 (buf i) (hmapped 0 (Nat.succ_pos n))))).bind_eq.trans
        hrun
    · rw [hm x]
      dsimp only
      by_cases hx : x = dest + i
      · rw [if_neg (by omega), if_pos (by omega), hx, update_self,
          Nat.add_sub_cancel_left]
      · rw [update_of_ne hx]
        by_cases hrange : dest + (i + 1) ≤ x ∧ x < dest + (i + 1 + n)
        · rw [if_pos hrange, if_pos (by omega)]
        · rw [if_neg hrange, if_neg (by omega)]

/-! ## Capacities -/

/-- The capacities a file can have: none, or 256 bytes doubled up to ten times. -/
def CapOk (capacity : Nat) : Prop := capacity = 0 ∨ ∃ k ≤ 10, capacity = 256 * 2 ^ k

variable {L : List Alloc} {capacity need : Nat} {h : HeapState Flat} {tn : TmpfsNode}

theorem CapOk.le (h : CapOk capacity) : capacity ≤ tmpfsMaxSize := by
  rcases h with rfl | ⟨k, hk, rfl⟩
  · exact Nat.zero_le _
  · calc 256 * 2 ^ k ≤ 256 * 2 ^ 10 := by gcongr; norm_num
      _ = tmpfsMaxSize := rfl

theorem tmpfsFirstCap_spec (h : CapOk capacity) :
    ∃ k ≤ 11, tmpfsFirstCap capacity = 256 * 2 ^ k ∧ capacity < 256 * 2 ^ k ∧
      (capacity < tmpfsMaxSize → k ≤ 10) := by
  rcases h with rfl | ⟨k, hk, rfl⟩
  · exact ⟨0, Nat.zero_le _, rfl, by norm_num, fun _ => Nat.zero_le _⟩
  · have hpos : 0 < 2 ^ k := Nat.two_pow_pos k
    have hpow : 2 ^ k ≤ 2 ^ 10 := Nat.pow_le_pow_right (by norm_num) hk
    refine ⟨k + 1, by omega, ?_, by omega, fun hlt => ?_⟩
    · rw [tmpfsFirstCap, if_pos (by omega), wrap64_of_lt (by omega)]
      omega
    · have hk' : k ≠ 10 := by
        rintro rfl
        exact absurd hlt (by decide)
      omega

/-- The doubling ends at the first capacity that is enough, if there is one of at most
`256 * 2 ^ K` bytes. -/
theorem tmpfsNewCap_spec {K : Nat} (hK : K ≤ 55) (hneed : need ≤ 256 * 2 ^ K) (d k : Nat)
    (hd : k + d = K) :
    ∃ m ≤ K, k ≤ m ∧ need ≤ 256 * 2 ^ m ∧
      ∀ fuel, d < fuel → tmpfsNewCap need fuel (256 * 2 ^ k) = some (256 * 2 ^ m) := by
  induction d generalizing k with
  | zero =>
    obtain rfl : k = K := by omega
    refine ⟨k, le_rfl, le_rfl, hneed, fun fuel hfuel => ?_⟩
    obtain ⟨fuel, rfl⟩ := fuel_succ hfuel
    rw [tmpfsNewCap, if_neg (by omega)]
  | succ d ih =>
    by_cases hlt : 256 * 2 ^ k < need
    · obtain ⟨m, hm, hkm, hle, hrun⟩ := ih (k + 1) (by omega)
      refine ⟨m, hm, by omega, hle, fun fuel hfuel => ?_⟩
      obtain ⟨fuel, rfl⟩ := fuel_succ hfuel
      have hpow : 2 ^ (k + 1) ≤ 2 ^ 55 := Nat.pow_le_pow_right (by norm_num) (by omega)
      have hdouble : wrap64 (256 * 2 ^ k * 2) = 256 * 2 ^ (k + 1) := by
        rw [wrap64_of_lt (by omega)]
        omega
      rw [tmpfsNewCap, if_pos hlt, hdouble]
      exact hrun fuel (by omega)
    · refine ⟨k, by omega, le_rfl, by omega, fun fuel hfuel => ?_⟩
      obtain ⟨fuel, rfl⟩ := fuel_succ hfuel
      rw [tmpfsNewCap, if_neg hlt]

/-- With more rounds the doubling ends at the same capacity. -/
theorem tmpfsNewCap_mono {fuel x c : Nat} (h : tmpfsNewCap need fuel x = some c) {fuel' : Nat}
    (hle : fuel ≤ fuel') : tmpfsNewCap need fuel' x = some c := by
  induction fuel generalizing x fuel' with
  | zero => cases h
  | succ fuel ih =>
    obtain ⟨fuel', rfl⟩ : ∃ j, fuel' = j + 1 := ⟨fuel' - 1, by omega⟩
    rw [tmpfsNewCap] at h ⊢
    by_cases hlt : x < need
    · rw [if_pos hlt] at h ⊢
      exact ih h (by omega)
    · rw [if_neg hlt] at h ⊢
      exact h

/-- Growing a file: the doubling ends for every size up to `2 ^ 63`, with a larger capacity that
is enough, and allowed if the size is. -/
theorem newCap_spec (h : CapOk capacity) (hlt : capacity < need) (hneed : need ≤ 2 ^ 63) :
    ∃ c, capacity < c ∧ need ≤ c ∧ (need ≤ tmpfsMaxSize → CapOk c) ∧
      ∀ fuel, 55 < fuel → tmpfsNewCap need fuel (tmpfsFirstCap capacity) = some c := by
  obtain ⟨k, hk, hfirst, hgrows, hsmall⟩ := tmpfsFirstCap_spec h
  -- the allowed sizes end earlier
  obtain ⟨K, hkK, hK, hneedK, hmax⟩ : ∃ K, k ≤ K ∧ K ≤ 55 ∧ need ≤ 256 * 2 ^ K ∧
      (need ≤ tmpfsMaxSize → K ≤ 10) := by
    by_cases hle : need ≤ tmpfsMaxSize
    · exact ⟨10, hsmall (by omega), by norm_num, hle, fun _ => le_rfl⟩
    · exact ⟨55, by omega, le_rfl, hneed, fun hle' => absurd hle' hle⟩
  obtain ⟨m, hm, hkm, hle, hrun⟩ := tmpfsNewCap_spec hK hneedK (K - k) k (by omega)
  refine ⟨256 * 2 ^ m, by omega, hle, fun h' => .inr ⟨m, hm.trans (hmax h'), rfl⟩,
    fun fuel hfuel => ?_⟩
  rw [hfirst]
  exact hrun fuel (by omega)

/-! ## What a node holds -/

/-- The block of a node: none yet, or an allocation of its capacity. -/
def Buffer (h : HeapState Flat) (tn : TmpfsNode) (L : List Alloc) : Prop :=
  (tn.capacity = 0 ∧ tn.data = 0 ∧ ∃ F, HeapInv h F L) ∨
    ∃ F b, tn.data = b + sizeofHeapBlock ∧ HeapInv h F (⟨b, tn.capacity⟩ :: L)

/-- What reads and writes keep, whatever the bytes are. -/
structure NodeInv (s : FsState Flat) (v t : Nat) : Prop where
  priv : (s.nodes v).privateData = some t
  le : (s.fs.nodes t).size ≤ (s.fs.nodes t).capacity
  cap : CapOk (s.fs.nodes t).capacity
  buffer : ∃ L, Buffer s.fs.heap (s.fs.nodes t) L

theorem Buffer.lt (hb : Buffer h tn L) : tn.data + tn.capacity < 2 ^ 64 := by
  rcases hb with ⟨hcap, hdata, -⟩ | ⟨F, b, hdata, hinv⟩
  · omega
  · obtain ⟨-, hhi⟩ := hinv.range (mem_append_right F mem_cons_self)
    have hsize : tn.capacity ≤ _ := (hinv.shape.used _ mem_cons_self).2
    dsimp only at hhi hsize
    omega

/-- The pages of the block are mapped. -/
theorem Buffer.mapped (hb : Buffer h tn L) {j : Nat} (hj : j < tn.capacity) :
    h.mach.Mapped (tn.data + j) := by
  rcases hb with ⟨hcap, -⟩ | ⟨F, b, hdata, hinv⟩
  · omega
  · obtain ⟨hlo, hhi⟩ := hinv.shape.bounds (mem_append_right F mem_cons_self)
    have hsize : tn.capacity ≤ _ := (hinv.shape.used _ mem_cons_self).2
    dsimp only at hlo hhi hsize
    exact hinv.mapped _ (by omega) (by omega)

theorem Buffer.write {m : ByteMem} (hb : Buffer h tn L)
    (hm : ∀ x, x < tn.data ∨ tn.data + tn.capacity ≤ x → m x = h.mach.mem x) :
    Buffer { h with mach := { h.mach with mem := m } } tn L := by
  rcases hb with ⟨hcap, hdata, F, hinv⟩ | ⟨F, b, hdata, hinv⟩
  · refine .inl ⟨hcap, hdata, F, hinv.of_mem_eq (fun x _ => hm x (by omega)) fun _ h => h⟩
  · have hsize : tn.capacity ≤ headers h.mach.mem b .size :=
      (hinv.shape.used _ mem_cons_self).2
    refine .inr ⟨F, b, hdata, hinv.write mem_cons_self ⟨rfl, fun x hx => hm x ?_⟩⟩
    have hx' : x < b + sizeofHeapBlock ∨
      b + sizeofHeapBlock + headers h.mach.mem b .size ≤ x := hx
    omega

theorem Buffer.resize (hb : Buffer h tn L) (size : Nat) : Buffer h { tn with size := size } L := hb

include hG in
/-- `krealloc` of a block to a larger capacity: it fails, or gives a block with the same
bytes. -/
theorem Buffer.krealloc {c : Nat}
    (hb : Buffer h tn L) (hlt : tn.capacity < c) (hc : c ≤ heapMaxSize) :
    ∃ r h', Converges (Mm.krealloc G · tn.data c) h r h' ∧
      (r = 0 → Buffer h' tn L) ∧
      (r ≠ 0 → Buffer h' { tn with data := r, capacity := c } L ∧
        ∀ j < tn.capacity, h'.mach.mem (r + j) = h.mach.mem (tn.data + j)) := by
  rcases hb with ⟨hcap, hdata, F, hinv⟩ | ⟨F, b, hdata, hinv⟩
  · -- there is no block yet
    obtain ⟨r, h', hrun, -, hout⟩ := kmalloc_spec hG hinv (by omega) hc
    refine ⟨r, h', ?_, fun hr => ?_, fun hr => ⟨?_, fun j hj => by omega⟩⟩
    · rw [hdata]
      exact hrun
    · obtain ⟨-, hinv'⟩ | ⟨b, F', hrb, -⟩ := hout
      · exact .inl ⟨hcap, hdata, F, hinv'⟩
      · exact absurd (hrb.symm.trans hr) (ptr_ne_zero b)
    · obtain ⟨rfl, -⟩ | ⟨b, F', hrb, hinv'⟩ := hout
      · exact absurd rfl hr
      · exact .inr ⟨F', b, hrb, hinv'⟩
  · obtain ⟨r, h', hrun, -, hout, hbytes, -⟩ := krealloc_spec hG hinv (by omega) hc
    refine ⟨r, h', ?_, fun hr => ?_, fun hr => ⟨?_, fun j hj => ?_⟩⟩
    · rw [hdata]
      exact hrun
    · obtain ⟨-, hinv'⟩ | ⟨b', F', hrb, -⟩ := hout
      · exact .inr ⟨F, b, hdata, hinv'⟩
      · exact absurd (hrb.symm.trans hr) (ptr_ne_zero b')
    · obtain ⟨rfl, -⟩ | ⟨b', F', hrb, hinv'⟩ := hout
      · exact absurd rfl hr
      · exact .inr ⟨F', b', hrb, hinv'⟩
    · have hsize : tn.capacity ≤ headers h.mach.mem b .size :=
        (hinv.shape.used _ mem_cons_self).2
      rw [hdata]
      exact hbytes hr j (by dsimp only; omega)

/-! ## Reading -/

theorem tmpfsPrivate_returns {σ : Type} {s : FsState σ} {v t : Nat}
    (hpriv : (s.nodes v).privateData = some t) : Returns (tmpfsPrivate (some v)) s (some t) s := by
  rw [Returns, tmpfsPrivate, read_apply, Option.bind_some, hpriv]

section

variable {s : FsState Flat} {v t c count need offset r : Nat} {L : List Alloc} {fs : Tmpfs Flat}
  {h' : HeapState Flat}

theorem tmpfsVfsRead_of_end (hpriv : (s.nodes v).privateData = some t)
    (hend : (s.fs.nodes t).size ≤ offset) (count : Nat) :
    Returns (tmpfsVfsRead G (some v) offset count) s (0, []) s := by
  rw [Returns, tmpfsVfsRead, (tmpfsPrivate_returns hpriv).bind_eq]
  dsimp only
  rw [read_bind, if_pos hend]
  rfl

include hG in
theorem NodeInv.read (h : NodeInv s v t) (hlt : offset + count < 2 ^ 64) {n : Nat}
    (hn : n = min count ((s.fs.nodes t).size - offset)) :
    Returns (tmpfsVfsRead G (some v) offset count) s
      (n, (List.range' ((s.fs.nodes t).data + offset) n).map s.fs.heap.mach.mem) s := by
  by_cases hend : (s.fs.nodes t).size ≤ offset
  · obtain rfl : n = 0 := by omega
    exact tmpfsVfsRead_of_end h.priv hend count
  · obtain ⟨L, hbuf⟩ := h.buffer
    have hcount : (if (s.fs.nodes t).size < wrap64 (offset + count)
        then (s.fs.nodes t).size - offset else count) = n := by
      rw [wrap64_of_lt hlt]
      split <;> omega
    have hend := hbuf.lt
    have hcap := h.cap.le
    have hle := h.le
    have hmax : tmpfsMaxSize = 262144 := rfl
    have hcopy : Returns (copyOut G ((s.fs.nodes t).data + offset) n 0) s _ s :=
      copyOut_returns hG (by omega) fun j hj => by
        rw [Nat.zero_add, Nat.add_assoc]
        exact hbuf.mapped (by omega)
    rw [Returns, tmpfsVfsRead, (tmpfsPrivate_returns h.priv).bind_eq]
    dsimp only
    rw [read_bind, if_neg (by omega), hcount, hcopy.bind_eq, toInt32_of_lt (by omega)]
    rfl

/-! ## Writing -/

/-- The `krealloc` of a write that ends at `need` does not fail, if there is one. -/
def KreallocSucceeds {σ : Type} (M : PagedMachine σ) (s : Tmpfs σ) (t need : Nat) : Prop :=
  (s.nodes t).capacity < need → ∀ fuel c h',
    tmpfsNewCap need fuel (tmpfsFirstCap (s.nodes t).capacity) = some c →
    ¬ Converges (krealloc M · (s.nodes t).data c) s.heap 0 h'

/-- There is room for `need` bytes now, and the old ones are there. -/
structure Grown (fs fs' : Tmpfs Flat) (t : Nat) (L : List Alloc) (need : Nat) : Prop where
  nodes : fs'.nodes = Function.update fs.nodes t
    { fs.nodes t with data := (fs'.nodes t).data, capacity := (fs'.nodes t).capacity }
  le : (fs.nodes t).capacity ≤ (fs'.nodes t).capacity
  room : need ≤ (fs'.nodes t).capacity
  cap : CapOk (fs'.nodes t).capacity
  buffer : Buffer fs'.heap (fs'.nodes t) L
  bytes : ∀ j < (fs.nodes t).capacity,
    fs'.heap.mach.mem ((fs'.nodes t).data + j) = fs.heap.mach.mem ((fs.nodes t).data + j)

theorem Grown.node {fs' : Tmpfs Flat} (h : Grown fs fs' t L need) :
    fs'.nodes t = { fs.nodes t with
      data := (fs'.nodes t).data, capacity := (fs'.nodes t).capacity } := by
  have hnode := congrFun h.nodes t
  rwa [update_self] at hnode

theorem Grown.size {fs' : Tmpfs Flat} (h : Grown fs fs' t L need) :
    (fs'.nodes t).size = (fs.nodes t).size := by
  rw [h.node]

/-- The write that needs room for `need` bytes can be served. -/
def Servable (G : PagedMachine Flat) (s : Tmpfs Flat) (t need : Nat) : Prop :=
  need ≤ tmpfsMaxSize ∧ KreallocSucceeds G s t need

/-- The answer of `krealloc` decides. -/
theorem kreallocSucceeds_iff {σ : Type} {M : PagedMachine σ} {fs : Tmpfs σ} {h' : HeapState σ}
    (hlt : (fs.nodes t).capacity < need)
    (hcap : ∀ fuel, 55 < fuel → tmpfsNewCap need fuel (tmpfsFirstCap (fs.nodes t).capacity) = some c)
    (hrun : Converges (krealloc M · (fs.nodes t).data c) fs.heap r h') :
    KreallocSucceeds M fs t need ↔ r ≠ 0 := by
  constructor
  · rintro hserved rfl
    exact hserved hlt 56 c h' (hcap 56 (by decide)) hrun
  · intro hr _ fuel c' h'' hc' hnull
    obtain rfl : c' = c := Option.some.inj
      ((tmpfsNewCap_mono hc' (Nat.le_add_right fuel 56)).symm.trans (hcap _ (by omega)))
    exact hr (hrun.unique hnull).1

/-- The loop has found a capacity that is allowed, and `krealloc` answers. -/
theorem tmpfsGrow_eq {fuel : Nat} (hlt : (s.fs.nodes t).capacity < need)
    (hloop : tmpfsNewCap need fuel (tmpfsFirstCap (s.fs.nodes t).capacity) = some c)
    (hmax : c ≤ tmpfsMaxSize)
    (hrun : Returns (krealloc G fuel (s.fs.nodes t).data c) s.fs.heap r h') :
    tmpfsGrow G fuel t need s =
      (if r = 0 then pure (-enomem)
      else do
        setTmpfsNode t fun tn => { tn with data := r, capacity := c }
        pure 0 : Exec (FsState Flat) Int) { s with fs := { s.fs with heap := h' } } := by
  have hrealloc : Returns (onHeap (krealloc G fuel (s.fs.nodes t).data c)) s r
      { s with fs := { s.fs with heap := h' } } := onHeap_returns hrun
  rw [tmpfsGrow, read_bind, if_pos hlt, hloop]
  dsimp only
  rw [if_neg (not_lt.mpr hmax), hrealloc.bind_eq]

theorem tmpfsGrow_moved (hlt : (s.fs.nodes t).capacity < need) (hloop : ∀ fuel, 55 < fuel →
      tmpfsNewCap need fuel (tmpfsFirstCap (s.fs.nodes t).capacity) = some c)
    (hmax : c ≤ tmpfsMaxSize)
    (hrun : Converges (krealloc G · (s.fs.nodes t).data c) s.fs.heap r h') (hr : r ≠ 0) :
    Converges (tmpfsGrow G · t need) s 0 { s with fs :=
      ⟨Function.update s.fs.nodes t { s.fs.nodes t with data := r, capacity := c }, h'⟩ } := by
  obtain ⟨n, hrun⟩ := hrun
  refine ⟨n + 56, fun fuel hfuel => ?_⟩
  show tmpfsGrow G fuel t need s = _
  rw [tmpfsGrow_eq hlt (hloop fuel (by omega)) hmax (hrun fuel (by omega)), if_neg hr]
  rfl

theorem grown_moved (hgrows : (fs.nodes t).capacity < c) (hle : need ≤ c) (hc : CapOk c)
    (hbuf : Buffer h' { fs.nodes t with data := r, capacity := c } L)
    (hbytes : ∀ j < (fs.nodes t).capacity,
      h'.mach.mem (r + j) = fs.heap.mach.mem ((fs.nodes t).data + j)) :
    Grown fs ⟨Function.update fs.nodes t { fs.nodes t with data := r, capacity := c }, h'⟩ t L
      need := by
  have hnode : Function.update fs.nodes t { fs.nodes t with data := r, capacity := c } t
      = { fs.nodes t with data := r, capacity := c } := update_self ..
  constructor <;> dsimp only <;> rw [hnode]
  · exact hgrows.le
  · exact hle
  · exact hc
  · exact hbuf
  · exact hbytes

theorem tmpfsGrow_of_room (hroom : need ≤ (s.fs.nodes t).capacity) :
    Converges (tmpfsGrow G · t need) s 0 s := by
  refine ⟨0, fun fuel _ => ?_⟩
  show tmpfsGrow G fuel t need s = _
  rw [tmpfsGrow, read_bind, if_neg (not_lt.mpr hroom)]
  rfl

theorem grown_of_room (hcap : CapOk (fs.nodes t).capacity)
    (hbuf : Buffer fs.heap (fs.nodes t) L) (hroom : need ≤ (fs.nodes t).capacity) :
    Grown fs fs t L need :=
  ⟨(update_eq_self t fs.nodes).symm, le_rfl, hroom, hcap, hbuf, fun _ _ => rfl⟩

include hG in
/-- **Making room** for up to `2 ^ 63` bytes returns: it succeeds if it can be served, and
otherwise leaves the node alone. -/
theorem tmpfsGrow_spec (hcap : CapOk (s.fs.nodes t).capacity)
    (hbuf : Buffer s.fs.heap (s.fs.nodes t) L) (hneed : need ≤ 2 ^ 63) :
    ∃ err fs', Converges (tmpfsGrow G · t need) s err { s with fs := fs' } ∧
      (err = 0 ∧ Servable G s.fs t need ∧ Grown s.fs fs' t L need ∨
        err < 0 ∧ ¬ Servable G s.fs t need ∧ fs'.nodes = s.fs.nodes ∧
          Buffer fs'.heap (s.fs.nodes t) L) := by
  by_cases hlt : (s.fs.nodes t).capacity < need
  · obtain ⟨c, hgrows, hle, hc, hloop⟩ := newCap_spec hcap hlt hneed
    by_cases hmax : tmpfsMaxSize < c
    · have hover : ¬ need ≤ tmpfsMaxSize := fun h => absurd (hc h).le (not_le.mpr hmax)
      refine ⟨-enospc, s.fs, ⟨56, fun fuel hfuel => ?_⟩,
        .inr ⟨by decide, fun h => hover h.1, rfl, hbuf⟩⟩
      show tmpfsGrow G fuel t need s = _
      rw [tmpfsGrow, read_bind, if_pos hlt, hloop fuel hfuel]
      dsimp only
      rw [if_pos hmax]
      rfl
    · have hmax := not_lt.mp hmax
      have hneed' : need ≤ tmpfsMaxSize := hle.trans hmax
      obtain ⟨r, h', hrun, hfail, hmoved⟩ := hbuf.krealloc hG hgrows (hmax.trans (by decide))
      have hiff := kreallocSucceeds_iff hlt hloop hrun
      by_cases hr : r = 0
      · obtain ⟨n, hrun⟩ := hrun
        refine ⟨-enomem, { s.fs with heap := h' }, ⟨n + 56, fun fuel hfuel => ?_⟩,
          .inr ⟨by decide, fun h => hiff.mp h.2 hr, rfl, hfail hr⟩⟩
        show tmpfsGrow G fuel t need s = _
        rw [tmpfsGrow_eq hlt (hloop fuel (by omega)) hmax (hrun fuel (by omega)), if_pos hr]
        rfl
      · obtain ⟨hbuf', hbytes⟩ := hmoved hr
        exact ⟨0, _, tmpfsGrow_moved hlt hloop hmax hrun hr, .inl ⟨rfl, ⟨hneed', hiff.mpr hr⟩,
          grown_moved hgrows hle (hc hneed') hbuf' hbytes⟩⟩
  · have hroom := not_lt.mp hlt
    exact ⟨0, s.fs, tmpfsGrow_of_room hroom,
      .inl ⟨rfl, ⟨hroom.trans hcap.le, (absurd · hlt)⟩, grown_of_room hcap hbuf hroom⟩⟩

/-- Both sizes are those of the new node. -/
theorem tmpfsSetSize_returns (s : FsState Flat) (v t last : Nat) {tn : TmpfsNode}
    (htn : tn = { s.fs.nodes t with
      size := if (s.fs.nodes t).size < last then last else (s.fs.nodes t).size }) :
    Returns (tmpfsSetSize (some v) t last) s ()
      { s with
        nodes := Function.update s.nodes v { s.nodes v with size := tn.size }
        fs := { s.fs with nodes := Function.update s.fs.nodes t tn } } := by
  subst htn
  simp [Returns, tmpfsSetSize, setTmpfsNode]

/-- The node after a write that ends at `last`. -/
def TmpfsNode.ending (tn : TmpfsNode) (last : Nat) : TmpfsNode :=
  { tn with size := if tn.size < last then last else tn.size }

/-- What a write that was served leaves behind: room was made, and the bytes were copied to
where they belong. -/
structure Written (s s' : FsState Flat) (t : Nat) (L : List Alloc) (offset : Nat)
    (buf : Nat → UInt8) (count : Nat) (fs1 : Tmpfs Flat) : Prop where
  grown : Grown s.fs fs1 t L (offset + count)
  nodes : s'.fs.nodes = Function.update fs1.nodes t ((fs1.nodes t).ending (offset + count))
  rest : s'.fs.heap = { fs1.heap with mach := { fs1.heap.mach with mem := s'.fs.heap.mach.mem } }
  mem : ∀ x, s'.fs.heap.mach.mem x =
    if (fs1.nodes t).data + offset ≤ x ∧ x < (fs1.nodes t).data + offset + count
    then buf (x - ((fs1.nodes t).data + offset)) else fs1.heap.mach.mem x
  openFiles : s'.openFiles = s.openFiles
  vfs : ∀ w, (s'.nodes w).ops = (s.nodes w).ops ∧
    (s'.nodes w).privateData = (s.nodes w).privateData

theorem Written.node {s' : FsState Flat} {buf : Nat → UInt8} {fs1 : Tmpfs Flat}
    (h : Written s s' t L offset buf count fs1) :
    s'.fs.nodes t = (fs1.nodes t).ending (offset + count) := by
  rw [h.nodes, update_self]

section

variable (hpriv : (s.nodes v).privateData = some t)
include hG hpriv

/-- A write for which room was made returns its length. -/
theorem tmpfsVfsWrite_of_grown
    (buf : Nat → UInt8) (hfit : offset + count ≤ tmpfsMaxSize) {fs1 : Tmpfs Flat}
    (hgrow : Converges (tmpfsGrow G · t (offset + count)) s 0 { s with fs := fs1 })
    (hgrown : Grown s.fs fs1 t L (offset + count)) :
    ∃ s', Converges (fun fuel => tmpfsVfsWrite G fuel (some v) offset buf count)
        s count s' ∧ Written s s' t L offset buf count fs1 := by
  have hmax : tmpfsMaxSize = 262144 := rfl
  obtain ⟨n, hgrow⟩ := hgrow
  have hend := hgrown.buffer.lt
  have hroom := hgrown.room
  obtain ⟨m, hcopy, hm⟩ : ∃ m : ByteMem, Returns (copyIn G
      ((fs1.nodes t).data + offset) buf count 0) { s with fs := fs1 } ()
        { s with fs := ⟨fs1.nodes, { fs1.heap with mach := { fs1.heap.mach with mem := m } }⟩ } ∧
      _ := copyIn_returns hG (by omega) fun j hj => by
        rw [Nat.zero_add, Nat.add_assoc]
        exact hgrown.buffer.mapped (by omega)
  -- the two sizes
  have hsize := tmpfsSetSize_returns { s with fs := ⟨fs1.nodes, { fs1.heap with
    mach := { fs1.heap.mach with mem := m } }⟩ } v t (offset + count)
      (show (fs1.nodes t).ending (offset + count) = _ from rfl)
  refine ⟨⟨s.openFiles, Function.update s.nodes v
      { s.nodes v with size := ((fs1.nodes t).ending (offset + count)).size },
      ⟨Function.update fs1.nodes t ((fs1.nodes t).ending (offset + count)),
        { fs1.heap with mach := { fs1.heap.mach with mem := m } }⟩⟩,
    ⟨n, fun fuel hfuel => ?_⟩, hgrown, rfl, rfl, fun x => ?_, rfl, fun w => ?_⟩
  · show tmpfsVfsWrite G fuel (some v) offset buf count s = _
    rw [tmpfsVfsWrite, (tmpfsPrivate_returns hpriv).bind_eq]
    dsimp only
    rw [wrap64_of_lt (by omega), (hgrow fuel hfuel).bind_eq, if_neg (by simp),
      read_bind,
      hcopy.bind_eq, hsize.bind_eq, toInt32_of_lt (by omega)]
    rfl
  · refine (hm x).trans ?_
    simp only [Nat.add_zero, Nat.zero_add]
  · dsimp only
    rw [Function.update_apply]
    split
    · subst w
      exact ⟨rfl, rfl⟩
    · exact ⟨rfl, rfl⟩

/-- **A write** that can be served returns its length. -/
theorem tmpfsVfsWrite_served
    (hcap : CapOk (s.fs.nodes t).capacity) (hbuf : Buffer s.fs.heap (s.fs.nodes t) L)
    (buf : Nat → UInt8) (hserved : Servable G s.fs t (offset + count)) :
    ∃ s' fs1, Converges (fun fuel => tmpfsVfsWrite G fuel (some v) offset buf count)
        s count s' ∧ Written s s' t L offset buf count fs1 := by
  have hmax : tmpfsMaxSize = 262144 := rfl
  have hfit := hserved.1
  obtain ⟨err, fs1, hgrow, ⟨rfl, -, hgrown⟩ | ⟨-, hnot, -⟩⟩ :=
    tmpfsGrow_spec hG hcap hbuf (show offset + count ≤ 2 ^ 63 by omega)
  · obtain ⟨s', hwrite, hw⟩ := tmpfsVfsWrite_of_grown hG hpriv buf hfit hgrow hgrown
    exact ⟨s', fs1, hwrite, hw⟩
  · exact absurd hserved hnot

end

end

end Private

end GosKernel.Fs
