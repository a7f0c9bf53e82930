import GosKernel.Defs
import GosKernel.Lib.Exec

/-!
# The virtual file system (`src/fs/vfs/vfs.c`)

The table of open files, and the calls that go through it to the operations of a file
system. A `vfs_node_t *` is the number of a node, and a `vfs_ops_t *` names one of the
tables of operations, `ι`. The buffers of callers are memory of their own and are given
by their bytes.
-/

namespace GosKernel.Fs

def vfsMaxOpen : Nat := 256

def seekSet : Int := 0

def seekCur : Int := 1

def seekEnd : Int := 2

/-- The members of `vfs_node_t` that the calls use. -/
structure VfsNode (ι : Type) where
  size : Nat
  ops : Option ι
  privateData : Option Nat

/-- The members of `vfs_file_t` that the calls use. -/
structure VfsFile where
  fd : Int
  offset : Nat
  node : Option Nat

/-- `g_open_files` and the nodes, over the state `σ` of the file systems. -/
structure VfsState (ι σ : Type) where
  openFiles : Nat → VfsFile
  nodes : Nat → VfsNode ι
  fs : σ

/-- The members of `vfs_ops_t` that the calls use. A read also gives the bytes that it
puts into the buffer. -/
structure VfsOps (τ : Type) where
  read : Option (Option Nat → (offset count : Nat) → Exec τ (Int × List UInt8))
  write : Option (Option Nat → (offset : Nat) → (buf : Nat → UInt8) → (count : Nat) → Exec τ Int)

/-- `g_open_files[fd].offset = offset`. -/
def VfsState.setOffset {ι σ : Type} (s : VfsState ι σ) (fd offset : Nat) : VfsState ι σ :=
  { s with openFiles := Function.update s.openFiles fd { s.openFiles fd with offset := offset } }

section Code

variable {ι σ : Type} (ops : ι → VfsOps (VfsState ι σ))

/-- `node->ops->member`, if none of the three pointers is `NULL`. -/
def vfsMember {α : Type} (member : VfsOps (VfsState ι σ) → Option α) (node : Option Nat) :
    Exec (VfsState ι σ) (Option α) :=
  .read fun s => node.bind fun n => (s.nodes n).ops.bind fun o => member (ops o)

/-- `if (ret > 0) f->offset += ret`. -/
def vfsAdvance (fd : Nat) (ret : Int) : Exec (VfsState ι σ) Unit :=
  if 0 < ret then .update fun s => s.setOffset fd (wrap64 ((s.openFiles fd).offset + ret.toNat))
  else pure ()

/-- `vfs_read` (vfs.c:79-87). -/
def vfsRead (fd : Int) (count : Nat) : Exec (VfsState ι σ) (Int × List UInt8) :=
  if fd < 0 ∨ vfsMaxOpen ≤ fd then pure (-1, [])
  else do
    let f ← Exec.read fun s => s.openFiles fd.toNat
    if f.fd < 0 then pure (-1, [])
    else do
      let member ← vfsMember ops VfsOps.read f.node
      match member with
      | none => pure (-1, [])
      | some op => do
        let ret ← op f.node f.offset count
        vfsAdvance fd.toNat ret.1
        pure ret

/-- `vfs_write` (vfs.c:89-97). -/
def vfsWrite (fd : Int) (buf : Nat → UInt8) (count : Nat) : Exec (VfsState ι σ) Int :=
  if fd < 0 ∨ vfsMaxOpen ≤ fd then pure (-1)
  else do
    let f ← Exec.read fun s => s.openFiles fd.toNat
    if f.fd < 0 then pure (-1)
    else do
      let member ← vfsMember ops VfsOps.write f.node
      match member with
      | none => pure (-1)
      | some op => do
        let ret ← op f.node f.offset buf count
        vfsAdvance fd.toNat ret
        pure ret

/-- The conversion of an `int64_t` to `uint64_t`. -/
def toUInt64 (n : Int) : Nat := (n % 2 ^ 64).toNat

/-- The new offset of `vfs_seek`; `none` for a `whence` that does not exist. -/
def vfsSeekTo (s : VfsState ι σ) (f : VfsFile) (offset whence : Int) : Option Nat :=
  if whence = seekSet then some (toUInt64 offset)
  else if whence = seekCur then some (wrap64 (f.offset + toUInt64 offset))
  else if whence = seekEnd then
    match f.node with
    | none => some f.offset
    | some n => some (wrap64 ((s.nodes n).size + toUInt64 offset))
  else none

/-- `vfs_seek` (vfs.c:99-112). -/
def vfsSeek (fd offset whence : Int) : Exec (VfsState ι σ) Int :=
  if fd < 0 ∨ vfsMaxOpen ≤ fd then pure (-1)
  else do
    let s ← Exec.read id
    if (s.openFiles fd.toNat).fd < 0 then pure (-1)
    else
      match vfsSeekTo s (s.openFiles fd.toNat) offset whence with
      | none => pure (-1)
      | some o => do
        Exec.update fun s => s.setOffset fd.toNat o
        pure (toInt32 o)

end Code

/-! ## Calls on a descriptor that is open -/

section

open Exec

variable {ι σ : Type} {ops : ι → VfsOps (VfsState ι σ)} {s : VfsState ι σ} {fd v : Nat} {i : ι}

/-- `fd` is an open descriptor for node `v`, whose operations are those of `i`. -/
structure OpenAt (s : VfsState ι σ) (fd v : Nat) (i : ι) : Prop where
  lt : fd < vfsMaxOpen
  open_fd : 0 ≤ (s.openFiles fd).fd
  node : (s.openFiles fd).node = some v
  ops : (s.nodes v).ops = some i

section

variable (h : OpenAt s fd v i)
include h

theorem OpenAt.fd_ok : ¬ ((fd : Int) < 0 ∨ (vfsMaxOpen : Int) ≤ fd) := by
  have hlt := h.lt
  omega

omit h in
@[simp] theorem openFiles_setOffset (s : VfsState ι σ) (fd o : Nat) :
    (s.setOffset fd o).openFiles fd = { s.openFiles fd with offset := o } :=
  Function.update_self ..

theorem OpenAt.setOffset (o : Nat) : OpenAt (s.setOffset fd o) fd v i where
  lt := h.lt
  open_fd := by
    rw [openFiles_setOffset]
    exact h.open_fd
  node := by
    rw [openFiles_setOffset]
    exact h.node
  ops := h.ops

variable {buf : Nat → UInt8} {count n : Nat} {s1 : VfsState ι σ}
  {write : Option Nat → Nat → (Nat → UInt8) → Nat → Exec (VfsState ι σ) Int}

omit h in
theorem vfsAdvance_returns (hlt : (s.openFiles fd).offset + n < 2 ^ 64) :
    Returns (vfsAdvance fd (n : Int)) s () (s.setOffset fd ((s.openFiles fd).offset + n)) := by
  unfold vfsAdvance
  rcases Nat.eq_zero_or_pos n with rfl | hpos
  · rw [if_neg (by omega)]
    have hsame : s.setOffset fd ((s.openFiles fd).offset + 0) = s := by
      show { s with openFiles := Function.update s.openFiles fd (s.openFiles fd) } = s
      rw [Function.update_eq_self]
    rw [hsame]
    rfl
  · rw [if_pos (by omega)]
    show some ((), s.setOffset fd (wrap64 ((s.openFiles fd).offset + (n : Int).toNat))) = _
    rw [Int.toNat_natCast, wrap64_of_lt hlt]

theorem vfsMember_returns {β : Type} {member : VfsOps (VfsState ι σ) → Option β} :
    Returns (vfsMember ops member (s.openFiles fd).node) s (member (ops i)) s := by
  rw [Returns, vfsMember, read_apply, h.node, Option.bind_some, h.ops, Option.bind_some]

/-- `vfs_read` is the read of the file system, at the offset of the descriptor. -/
theorem vfsRead_returns {read : Option Nat → Nat → Nat → Exec (VfsState ι σ) (Int × List UInt8)}
    {bytes : List UInt8} (hread : (ops i).read = some read)
    (hret : Returns (read (some v) (s.openFiles fd).offset count) s (n, bytes) s1)
    (hfiles : s1.openFiles = s.openFiles) (hlt : (s.openFiles fd).offset + n < 2 ^ 64) :
    Returns (vfsRead ops fd count) s (n, bytes)
      (s1.setOffset fd ((s.openFiles fd).offset + n)) := by
  have hadvance : Returns (vfsAdvance fd (n : Int)) s1 ()
      (s1.setOffset fd ((s.openFiles fd).offset + n)) := by
    rw [← hfiles] at hlt ⊢
    exact vfsAdvance_returns hlt
  rw [Returns, vfsRead, if_neg h.fd_ok, Int.toNat_natCast,
    read_bind,
    if_neg (not_lt.mpr h.open_fd), (vfsMember_returns h).bind_eq, hread]
  dsimp only
  rw [h.node, hret.bind_eq, hadvance.bind_eq]
  rfl

/-- `vfs_write` is the write of the file system, at the offset of the descriptor. -/
theorem vfsWrite_of_openAt (hwrite : (ops i).write = some write) :
    vfsWrite ops fd buf count s = (write (some v) (s.openFiles fd).offset buf count >>= fun ret =>
      vfsAdvance fd ret >>= fun _ => pure ret) s := by
  rw [vfsWrite, if_neg h.fd_ok, Int.toNat_natCast,
    read_bind,
    if_neg (not_lt.mpr h.open_fd), (vfsMember_returns h).bind_eq, hwrite]
  rw [h.node]

theorem vfsWrite_returns (hwrite : (ops i).write = some write)
    (hret : Returns (write (some v) (s.openFiles fd).offset buf count) s n s1)
    (hfiles : s1.openFiles = s.openFiles) (hlt : (s.openFiles fd).offset + n < 2 ^ 64) :
    Returns (vfsWrite ops fd buf count) s n (s1.setOffset fd ((s.openFiles fd).offset + n)) := by
  have hadvance : Returns (vfsAdvance fd (n : Int)) s1 ()
      (s1.setOffset fd ((s.openFiles fd).offset + n)) := by
    rw [← hfiles] at hlt ⊢
    exact vfsAdvance_returns hlt
  rw [Returns, vfsWrite_of_openAt h hwrite, hret.bind_eq, hadvance.bind_eq]
  rfl

theorem vfsSeek_start : Returns (vfsSeek fd 0 seekSet) s 0 (s.setOffset fd 0) := by
  rw [Returns, vfsSeek, if_neg h.fd_ok, Int.toNat_natCast,
    read_id_bind, if_neg (not_lt.mpr h.open_fd)]
  rfl

end

end

/-! ## What `vfs_seek` reports

The new offset is a 64-bit number, and the result of the call is its low half as an `int`.
-/

section

open Exec

variable {ι σ : Type} {s : VfsState ι σ} {fd offset whence : Int}

/-- The offset that `vfs_seek` sets, if it gets so far. -/
def seekTarget (s : VfsState ι σ) (fd offset whence : Int) : Option Nat :=
  if fd < 0 ∨ vfsMaxOpen ≤ fd ∨ (s.openFiles fd.toNat).fd < 0 then none
  else vfsSeekTo s (s.openFiles fd.toNat) offset whence

theorem vfsSeek_of_none (h : seekTarget s fd offset whence = none) :
    Returns (vfsSeek fd offset whence) s (-1) s := by
  rw [Returns, vfsSeek]
  by_cases hfd : fd < 0 ∨ vfsMaxOpen ≤ fd
  · rw [if_pos hfd]
    rfl
  · rw [if_neg hfd, read_id_bind]
    by_cases hclosed : (s.openFiles fd.toNat).fd < 0
    · rw [if_pos hclosed]
      rfl
    · rw [seekTarget, if_neg (by tauto)] at h
      rw [if_neg hclosed, h]
      rfl

theorem vfsSeek_of_some {o : Nat} (h : seekTarget s fd offset whence = some o) :
    Returns (vfsSeek fd offset whence) s (toInt32 o) (s.setOffset fd.toNat o) := by
  rw [seekTarget] at h
  split at h
  · cases h
  next hopen =>
    rw [Returns, vfsSeek, if_neg (by tauto),
      read_id_bind, if_neg (by tauto), h]
    rfl

/-- A number is reported as itself, as a negative one, or as another one. -/
theorem toInt32_reports_iff (o old : Nat) :
    ((0 ≤ toInt32 o → toInt32 o = o) ∧ (toInt32 o < 0 → o = old)) ↔
      o < 2 ^ 31 ∨ o = old ∧ 2 ^ 31 ≤ o % 2 ^ 32 := by
  unfold toInt32
  split <;> omega

theorem vfsSeek_reports (s : VfsState ι σ) (fd offset whence : Int) :
    ∃ ret s', Returns (vfsSeek fd offset whence) s ret s' ∧
      (((0 ≤ ret → ret = (s'.openFiles fd.toNat).offset) ∧
          (ret < 0 → (s'.openFiles fd.toNat).offset = (s.openFiles fd.toNat).offset)) ↔
        ∀ o, seekTarget s fd offset whence = some o →
          o < 2 ^ 31 ∨ o = (s.openFiles fd.toNat).offset ∧ 2 ^ 31 ≤ o % 2 ^ 32) := by
  cases htarget : seekTarget s fd offset whence with
  | none =>
    refine ⟨-1, s, vfsSeek_of_none htarget, iff_of_true ⟨fun h => ?_, fun _ => rfl⟩ nofun⟩
    exact absurd h (by decide)
  | some o =>
    refine ⟨toInt32 o, s.setOffset fd.toNat o, vfsSeek_of_some htarget, ?_⟩
    rw [openFiles_setOffset]
    rw [toInt32_reports_iff o (s.openFiles fd.toNat).offset]
    constructor
    · rintro h _ ⟨⟩
      exact h
    · intro h
      exact h o rfl

/-- The position `x` can be reported: modulo `2 ^ 64` it is below `2 ^ 31`, or it is the old offset
and reads as a negative `int`. -/
def Reported (old : Nat) (x : Int) : Prop :=
  x % 2 ^ 64 < 2 ^ 31 ∨ x % 2 ^ 64 = old ∧ 2 ^ 31 ≤ x % 2 ^ 32

theorem reported_iff {o old : Nat} {x : Int} (h : (o : Int) = x % 2 ^ 64) :
    (∀ p, some o = some p → p < 2 ^ 31 ∨ p = old ∧ 2 ^ 31 ≤ p % 2 ^ 32) ↔ Reported old x := by
  simp only [Option.some.injEq, forall_eq', Reported]
  omega

theorem wrap64_toUInt64 (a : Nat) (b : Int) :
    (wrap64 (a + toUInt64 b) : Int) = (a + b) % 2 ^ 64 := by
  unfold wrap64 toUInt64
  omega

/-- **`vfs_seek` reports what it did**, a result that is not negative being the new offset
and a negative one leaving the offset alone, if and only if the descriptor is not open or the
position asked for can be reported: `offset` counted from `0`, from the old offset or from the
size of the node. Without a node the last of these is the old offset. -/
theorem vfs_seek_reports_iff (s : VfsState ι σ) (fd offset whence : Int) :
    ∃ ret s', Returns (vfsSeek fd offset whence) s ret s' ∧
      (((0 ≤ ret → ret = (s'.openFiles fd.toNat).offset) ∧
          (ret < 0 → (s'.openFiles fd.toNat).offset = (s.openFiles fd.toNat).offset)) ↔
        fd < 0 ∨ 256 ≤ fd ∨ (s.openFiles fd.toNat).fd < 0 ∨
        (whence = 0 → Reported (s.openFiles fd.toNat).offset offset) ∧
        (whence = 1 → Reported (s.openFiles fd.toNat).offset
          ((s.openFiles fd.toNat).offset + offset)) ∧
        (whence = 2 → match (s.openFiles fd.toNat).node with
          | none => (s.openFiles fd.toNat).offset < 2 ^ 31 ∨
              2 ^ 31 ≤ (s.openFiles fd.toNat).offset % 2 ^ 32
          | some n => Reported (s.openFiles fd.toNat).offset ((s.nodes n).size + offset))) := by
  obtain ⟨ret, s', hrun, hiff⟩ := vfsSeek_reports s fd offset whence
  refine ⟨ret, s', hrun, hiff.trans ?_⟩
  clear hiff
  rw [seekTarget]
  generalize s.openFiles fd.toNat = f
  by_cases hopen : fd < 0 ∨ vfsMaxOpen ≤ fd ∨ f.fd < 0
  · rw [if_pos hopen]
    refine iff_of_true nofun ?_
    rcases hopen with h | h | h
    exacts [.inl h, .inr (.inl h), .inr (.inr (.inl h))]
  have hrest : ∀ P : Prop, (fd < 0 ∨ 256 ≤ fd ∨ f.fd < 0 ∨ P) ↔ P := fun P =>
    ⟨fun h => by_contra fun hP => hopen (h.imp_right (Or.imp_right (·.resolve_right hP))),
      fun h => .inr (.inr (.inr h))⟩
  rw [if_neg hopen, hrest, vfsSeekTo, seekSet, seekCur, seekEnd]
  split_ifs with h0 h1 h2
  · rw [reported_iff (show (toUInt64 offset : Int) = offset % 2 ^ 64 by unfold toUInt64; omega)]
    simp [h0]
  · rw [reported_iff (wrap64_toUInt64 _ _)]
    simp [h1]
  · cases f.node with
    | none => simp [h2]
    | some n =>
      dsimp only
      rw [reported_iff (wrap64_toUInt64 _ _)]
      simp [h2]
  · exact iff_of_true nofun ⟨fun h => absurd h h0, fun h => absurd h h1, fun h => absurd h h2⟩

/-- Seeking to `-1` sets the offset to `2 ^ 64 - 1` and returns `-1`; seeking to `2 ^ 32`
sets that offset and returns `0`. -/
theorem vfs_seek_misreports :
    ∃ s1 s2 : VfsState Unit Unit,
      Returns (vfsSeek 3 (-1) seekSet) ⟨fun _ => ⟨3, 0, none⟩, fun _ => ⟨0, none, none⟩, ()⟩ (-1) s1 ∧
      (s1.openFiles 3).offset = 2 ^ 64 - 1 ∧
      Returns (vfsSeek 3 (2 ^ 32) seekSet) ⟨fun _ => ⟨3, 0, none⟩, fun _ => ⟨0, none, none⟩, ()⟩ 0 s2 ∧
      (s2.openFiles 3).offset = 2 ^ 32 :=
  ⟨_, _, rfl, by decide, rfl, by decide⟩

end

end GosKernel.Fs
