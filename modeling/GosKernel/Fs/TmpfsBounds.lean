import GosKernel.Fs.TmpfsSim
import GosKernel.Lib.Bounded
import GosKernel.Mm.HeapKernel

/-!
# Offsets near `2 ^ 64`

`tmpfs_vfs_read` and `tmpfs_vfs_write` add `offset` and `count` in 64 bits, and `vfs_seek` lets a
descriptor point anywhere.

- **`tmpfs_growth_terminates_iff`**: the capacity is doubled until it is large enough, in 64
  bits too. For more than `2 ^ 63` bytes it becomes `0` and stays there.
- **`tmpfs_in_bounds_iff`**: a sum that wraps passes for a small one, and then the copy runs out of
  the block.
-/

namespace GosKernel.Fs

open Exec Bounded Mm

/-! ## Doubling -/

/-- What the doubling goes through: capacities, and `0` after it has wrapped. -/
def Doubled (x : Nat) : Prop := x = 0 ∨ ∃ k ≤ 55, x = 256 * 2 ^ k

section Doubling

variable {x need fuel c capacity : Nat}

theorem Doubled.le (h : Doubled x) : x ≤ 2 ^ 63 := by
  rcases h with rfl | ⟨k, hk, rfl⟩
  · exact Nat.zero_le _
  · calc 256 * 2 ^ k ≤ 256 * 2 ^ 55 := by gcongr; norm_num
      _ = 2 ^ 63 := by norm_num

theorem Doubled.double (h : Doubled x) : Doubled (wrap64 (x * 2)) := by
  rcases h with rfl | ⟨k, hk, rfl⟩
  · exact .inl rfl
  · rcases Nat.eq_or_lt_of_le hk with rfl | hlt
    · exact .inl (by decide)
    · have hpow : 2 ^ (k + 1) ≤ 2 ^ 55 := Nat.pow_le_pow_right (by norm_num) hlt
      refine .inr ⟨k + 1, hlt, ?_⟩
      rw [wrap64_of_lt (by omega)]
      omega

theorem CapOk.doubled (h : CapOk capacity) : Doubled (tmpfsFirstCap capacity) := by
  obtain ⟨k, hk, hfirst, -⟩ := tmpfsFirstCap_spec h
  exact .inr ⟨k, by omega, hfirst⟩

theorem Doubled.capOk (h : Doubled x) (hle : x ≤ tmpfsMaxSize) : CapOk x := by
  refine h.imp_right ?_
  rintro ⟨k, -, rfl⟩
  refine ⟨k, ?_, rfl⟩
  by_contra hk
  have hpow : 2 ^ 11 ≤ 2 ^ k := Nat.pow_le_pow_right (by norm_num) (by omega)
  have hmax : tmpfsMaxSize = 262144 := rfl
  omega

/-- No number of rounds is enough for more than `2 ^ 63` bytes. -/
theorem tmpfsNewCap_diverges (hneed : 2 ^ 63 < need) (h : Doubled x) (fuel : Nat) :
    tmpfsNewCap need fuel x = none := by
  induction fuel generalizing x with
  | zero => rfl
  | succ fuel ih =>
    rw [tmpfsNewCap, if_pos (h.le.trans_lt hneed)]
    exact ih h.double

theorem tmpfsNewCap_some (h : Doubled x) (hc : tmpfsNewCap need fuel x = some c) : Doubled c := by
  induction fuel generalizing x with
  | zero => cases hc
  | succ fuel ih =>
    rw [tmpfsNewCap] at hc
    split at hc
    · exact ih h.double hc
    · cases hc
      exact h

/-- **The doubling ends** exactly for the sizes up to `2 ^ 63`. -/
theorem newCap_terminates_iff (h : CapOk capacity) :
    (capacity < need → ∃ c n, ∀ fuel, n ≤ fuel →
      tmpfsNewCap need fuel (tmpfsFirstCap capacity) = some c) ↔ need ≤ 2 ^ 63 := by
  constructor
  · intro hends
    by_contra hneed
    have hcap := h.le
    have hmax : tmpfsMaxSize = 262144 := rfl
    obtain ⟨c, n, hc⟩ := hends (by omega)
    have hnone := tmpfsNewCap_diverges (not_le.mp hneed) h.doubled n
    rw [hc n le_rfl] at hnone
    cases hnone
  · intro hneed hlt
    obtain ⟨c, -, -, -, hloop⟩ := newCap_spec h hlt hneed
    exact ⟨c, 56, hloop⟩

end Doubling

/-! ## Writes keep capacities -/

section Capacities

variable {σ : Type} {M : PagedMachine σ} {s s' : FsState σ} {t fuel offset count : Nat}
  {node : Option Nat} {buf : Nat → UInt8}

theorem onHeap_nodes {α : Type} {c : Exec (HeapState σ) α} {a : α}
    (h : Returns (onHeap c) s a s') : s'.fs.nodes = s.fs.nodes := by
  obtain ⟨r, -, heq⟩ := Option.map_eq_some_iff.mp h
  cases heq
  rfl

theorem copyIn_nodes {dest n i : Nat} (h : Returns (copyIn M dest buf n i) s () s') :
    s'.fs.nodes = s.fs.nodes := by
  induction n generalizing i s with
  | zero =>
    cases h
    rfl
  | succ n ih =>
    obtain ⟨⟨⟩, s1, hstore, hrest⟩ := returns_bind h
    exact (ih hrest).trans (onHeap_nodes hstore)

theorem tmpfsGrow_capOk {need : Nat} {err : Int} (h : ∀ u, CapOk (s.fs.nodes u).capacity)
    (hrun : Returns (tmpfsGrow M fuel t need) s err s') (u : Nat) :
    CapOk (s'.fs.nodes u).capacity := by
  obtain ⟨tn, s1, hread, hrest⟩ := returns_bind hrun
  cases hread
  by_cases hlt : (s.fs.nodes t).capacity < need
  · rw [if_pos hlt] at hrest
    cases hloop : tmpfsNewCap need fuel (tmpfsFirstCap (s.fs.nodes t).capacity) with
    | none =>
      rw [hloop] at hrest
      cases hrest
    | some c =>
      rw [hloop] at hrest
      dsimp only at hrest
      by_cases hmax : tmpfsMaxSize < c
      · rw [if_pos hmax] at hrest
        cases hrest
        exact h u
      · rw [if_neg hmax] at hrest
        obtain ⟨r, s2, hrealloc, hset⟩ := returns_bind hrest
        have hnodes := onHeap_nodes hrealloc
        by_cases hr : r = 0
        · rw [if_pos hr] at hset
          cases hset
          rw [hnodes]
          exact h u
        · rw [if_neg hr] at hset
          cases hset
          dsimp only
          rw [Function.update_apply, hnodes]
          split
          · exact (tmpfsNewCap_some (h t).doubled hloop).capOk (not_lt.mp hmax)
          · exact h u
  · rw [if_neg hlt] at hrest
    cases hrest
    exact h u

theorem tmpfsVfsWrite_capOk {ret : Int} (h : ∀ u, CapOk (s.fs.nodes u).capacity)
    (hrun : Returns (tmpfsVfsWrite M fuel node offset buf count) s ret s') (u : Nat) :
    CapOk (s'.fs.nodes u).capacity := by
  obtain ⟨data, s1, hdata, hrest⟩ := returns_bind hrun
  obtain rfl : s = s1 := by
    cases hdata
    rfl
  cases data with
  | none =>
    cases hrest
    exact h u
  | some t =>
    obtain ⟨err, s2, hgrow, hcopy⟩ := returns_bind hrest
    have h2 := tmpfsGrow_capOk h hgrow
    by_cases herr : err ≠ 0
    · rw [if_pos herr] at hcopy
      cases hcopy
      exact h2 u
    · rw [if_neg herr] at hcopy
      obtain ⟨tn, s3, hread, hcopy⟩ := returns_bind hcopy
      cases hread
      obtain ⟨⟨⟩, s4, hbytes, hsizes⟩ := returns_bind hcopy
      obtain ⟨⟨⟩, s5, hset, hpure⟩ := returns_bind hsizes
      cases hpure
      rw [← copyIn_nodes hbytes] at h2
      have hend : ∀ last u, CapOk
          (Function.update s4.fs.nodes t ((s4.fs.nodes t).ending last) u).capacity := by
        intro last u
        rw [Function.update_apply]
        split
        · exact h2 t
        · exact h2 u
      cases node <;>
        (cases hset
         exact hend _ u)

end Capacities

/-! ## Growth -/

/-- A call of `tmpfs_vfs_write`. -/
structure TmpfsWrite where
  node : Option Nat
  offset : Nat
  buf : Nat → UInt8
  count : Nat

/-- One write, run to its end. -/
def WriteStep {σ : Type} (M : PagedMachine σ) (s : FsState σ) (w : TmpfsWrite) (s' : FsState σ) :
    Prop :=
  ∃ ret, Converges (fun fuel => tmpfsVfsWrite M fuel w.node w.offset w.buf w.count) s ret s'

section Diverging

variable {σ : Type} {M : PagedMachine σ} {s : FsState σ} {v t offset count : Nat}

theorem tmpfsGrow_diverges {need : Nat} (hcap : CapOk (s.fs.nodes t).capacity)
    (hneed : 2 ^ 63 < need) (fuel : Nat) : tmpfsGrow M fuel t need s = none := by
  have hle := hcap.le
  have hmax : tmpfsMaxSize = 262144 := rfl
  rw [tmpfsGrow, read_bind, if_pos (by omega), tmpfsNewCap_diverges hneed hcap.doubled]
  rfl

theorem tmpfsVfsWrite_diverges (hpriv : (s.nodes v).privateData = some t)
    (hcap : CapOk (s.fs.nodes t).capacity) (hneed : 2 ^ 63 < wrap64 (offset + count)) (fuel : Nat)
    (buf : Nat → UInt8) : tmpfsVfsWrite M fuel (some v) offset buf count s = none := by
  rw [tmpfsVfsWrite, (tmpfsPrivate_returns hpriv).bind_eq]
  exact bind_of_stops (tmpfsGrow_diverges hcap hneed fuel)

end Diverging

/-- **Growth.** In every state that writes reach, on any machine: the loop of
`tmpfs_vfs_write` that doubles the capacity ends, if it is run at all, if and only if
`offset + count`, as a 64-bit number, is at most `2 ^ 63`. Otherwise the write does not
return. -/
theorem tmpfs_growth_terminates_iff {σ : Type} {M : PagedMachine σ} {s0 s : FsState σ}
    {ws : List TmpfsWrite} (hstart : ∀ t, (s0.fs.nodes t).capacity = 0)
    (hrun : Run (WriteStep M) s0 ws s) (t offset count : Nat) :
    (((s.fs.nodes t).capacity < wrap64 (offset + count) → ∃ c n, ∀ fuel, n ≤ fuel →
        tmpfsNewCap (wrap64 (offset + count)) fuel (tmpfsFirstCap (s.fs.nodes t).capacity)
          = some c) ↔ wrap64 (offset + count) ≤ 2 ^ 63) ∧
    (2 ^ 63 < wrap64 (offset + count) → ∀ v, (s.nodes v).privateData = some t →
      ∀ fuel buf, tmpfsVfsWrite M fuel (some v) offset buf count s = none) := by
  have h : ∀ u, CapOk (s.fs.nodes u).capacity := by
    refine hrun.invariant (I := fun s => ∀ u, CapOk (s.fs.nodes u).capacity) ?_
      fun u => .inl (hstart u)
    rintro s w s' h ⟨ret, n, hret⟩
    exact tmpfsVfsWrite_capOk h (hret n le_rfl)
  exact ⟨newCap_terminates_iff (h t), fun hneed v hpriv fuel buf =>
    tmpfsVfsWrite_diverges hpriv (h t) hneed fuel buf⟩

/-- The only file is open as descriptor `3`, over the heap `h`. -/
def oneFile {σ : Type} (h : HeapState σ) : FsState σ where
  openFiles _ := ⟨3, 0, some 0⟩
  nodes _ := ⟨0, some .tmpfs, some 0⟩
  fs := ⟨fun _ => ⟨0, 0, 0⟩, h⟩

theorem oneFile_rel {σ τ : Type} {R : σ → τ → Prop} {h : HeapState σ} {g : HeapState τ}
    (hrel : HeapRel R h g) : FsRel R (oneFile h) (oneFile g) := ⟨rfl, rfl, rfl, hrel⟩

theorem oneFile_openAt (h : HeapState Flat) (o : Nat) :
    OpenAt ((oneFile h).setOffset 3 o) 3 0 .tmpfs :=
  ⟨by decide, Int.le.intro 3 rfl, rfl, rfl⟩

/-- The only file, over memory without a heap. -/
def bareFile : FsState Flat := oneFile (.bss ⟨fun _ => 0, [], fun _ _ => 0, fun _ => none⟩)

/-- One byte is written to a new file; for a thousand its capacity has to be doubled again. -/
theorem tmpfs_growth_terminates_iff_first :
    ∃ (g : HeapState (VmmState Hw)) (s : FsState (VmmState Hw)),
      Started (kernelVbase + 0x180000) g ∧
      Run (WriteStep Hw.paged) (oneFile g) [⟨some 0, 0, fun _ => 7, 1⟩] s ∧
      (s.fs.nodes 0).capacity = 256 ∧ ∃ c n, ∀ fuel, n ≤ fuel →
        tmpfsNewCap 1000 fuel (tmpfsFirstCap (s.fs.nodes 0).capacity) = some c := by
  have heval : ((do
      let ret ← tmpfsVfsWrite (pagedFlat heapTop) 60 (some 0) 0 (fun _ => 7) 1
      Exec.read fun s => (ret, (s.fs.nodes 0).capacity)) (oneFile (initialHeap 0x585 0))).map Prod.fst =
      some (1, 256) := by decide +kernel
  obtain ⟨g, hstart, hrel⟩ := exists_small 0
  obtain ⟨⟨r, u'⟩, hs, hr⟩ := Option.map_eq_some_iff.mp heval
  obtain ⟨ret, u, hwrite, hs⟩ := returns_bind hs
  cases hs
  obtain ⟨s, hconv, hrel'⟩ := (heapSim onHw_paged).write_converges (oneFile_rel hrel) hwrite
  have hcap : (s.fs.nodes 0).capacity = 256 := by
    rw [← hrel'.files]
    exact congrArg Prod.snd hr
  have hrun : Run (WriteStep Hw.paged) (oneFile g) [⟨some 0, 0, fun _ => 7, 1⟩] s :=
    .cons ⟨ret, hconv⟩ (.nil _)
  refine ⟨g, s, hstart, hrun, hcap, (tmpfs_growth_terminates_iff (fun _ => rfl) hrun 0 0 1000).1.mpr
    (by decide) ?_⟩
  rw [hcap]
  decide

/-- One byte is written after seeking to `-2`: the write never returns. -/
theorem tmpfs_growth_loops : ∃ s1, Returns (vfsSeek 3 (-2) seekSet) bareFile (-2) s1 ∧
    ∀ fuel, vfsWrite (gTmpfsOps Flat.machine fuel) 3 (fun _ => 0) 1 s1 = none := by
  refine ⟨bareFile.setOffset 3 (2 ^ 64 - 2), rfl, fun fuel => ?_⟩
  have hloops : tmpfsVfsWrite Flat.machine fuel (some 0) (2 ^ 64 - 2) (fun _ => 0) 1
      (bareFile.setOffset 3 (2 ^ 64 - 2)) = none :=
    tmpfsVfsWrite_diverges (t := 0) rfl (.inl rfl) (by decide) fuel _
  exact (vfsWrite_of_openAt (oneFile_openAt _ _) rfl).trans (bind_of_stops hloops)

/-! ## The calls under watch -/

section Watched

variable {σ : Type} (M : PagedMachine σ)

/-- `copyOut` of bytes that have to lie in `[lo, hi)`. -/
def copyOutIn (lo hi src : Nat) : (n i : Nat) → Bounded (FsState σ) (List UInt8)
  | 0, _ => pure []
  | n + 1, i => do
    check (lo ≤ wrap64 (src + i) ∧ wrap64 (src + i) < hi)
    let byte ← lift (onHeap (onMach (M.load8 (wrap64 (src + i)))))
    let bytes ← copyOutIn lo hi src n (i + 1)
    pure (byte :: bytes)

/-- `copyIn` to bytes that have to lie in `[lo, hi)`. -/
def copyInIn (lo hi dest : Nat) (buf : Nat → UInt8) : (n i : Nat) → Bounded (FsState σ) Unit
  | 0, _ => pure ()
  | n + 1, i => do
    check (lo ≤ wrap64 (dest + i) ∧ wrap64 (dest + i) < hi)
    lift (onHeap (onMach (M.store8 (wrap64 (dest + i)) (buf i))))
    copyInIn lo hi dest buf n (i + 1)

/-- `tmpfs_vfs_read`, copying from `data[0..size)`. -/
def tmpfsVfsReadIn (node : Option Nat) (offset count : Nat) :
    Bounded (FsState σ) (Int × List UInt8) := do
  let data ← lift (tmpfsPrivate node)
  match data with
  | none => pure (-einval, [])
  | some t => do
    let tn ← lift (Exec.read fun s => s.fs.nodes t)
    if tn.size ≤ offset then pure (0, [])
    else do
      let count := if tn.size < wrap64 (offset + count) then tn.size - offset else count
      let bytes ← copyOutIn M tn.data (tn.data + tn.size) (tn.data + offset) count 0
      pure (toInt32 count, bytes)

/-- `tmpfs_vfs_write`, copying to `data[0..capacity)`. -/
def tmpfsVfsWriteIn (fuel : Nat) (node : Option Nat) (offset : Nat) (buf : Nat → UInt8)
    (count : Nat) : Bounded (FsState σ) Int := do
  let data ← lift (tmpfsPrivate node)
  match data with
  | none => pure (-einval)
  | some t => do
    let err ← lift (tmpfsGrow M fuel t (wrap64 (offset + count)))
    if err ≠ 0 then pure err
    else do
      let tn ← lift (Exec.read fun s => s.fs.nodes t)
      copyInIn M tn.data (tn.data + tn.capacity) (tn.data + offset) buf count 0
      lift (tmpfsSetSize node t (wrap64 (offset + count)))
      pure (toInt32 count)

theorem copyOutIn_watches (lo hi src n i : Nat) :
    Watches (copyOutIn M lo hi src n i) (copyOut M src n i) := by
  induction n generalizing i with
  | zero => exact .pure []
  | succ n ih =>
    exact .check (.bind (.lift _) fun byte => .bind (ih (i + 1)) fun bytes => .pure (byte :: bytes))

theorem copyInIn_watches (lo hi dest : Nat) (buf : Nat → UInt8) (n i : Nat) :
    Watches (copyInIn M lo hi dest buf n i) (copyIn M dest buf n i) := by
  induction n generalizing i with
  | zero => exact .pure ()
  | succ n ih => exact .check (.bind (.lift _) fun _ => ih (i + 1))

/-- The checks are all that was added to `tmpfs_vfs_read`. -/
theorem tmpfsVfsReadIn_watches (node : Option Nat) (offset count : Nat) :
    Watches (tmpfsVfsReadIn M node offset count) (tmpfsVfsRead M node offset count) := by
  refine .bind (.lift _) fun data => ?_
  cases data with
  | none => exact .pure _
  | some t =>
    refine .bind (.lift _) fun tn => .ite (.pure _) ?_
    exact .bind (copyOutIn_watches M _ _ _ _ _) fun bytes => .pure _

/-- The checks are all that was added to `tmpfs_vfs_write`. -/
theorem tmpfsVfsWriteIn_watches (fuel : Nat) (node : Option Nat) (offset : Nat)
    (buf : Nat → UInt8) (count : Nat) :
    Watches (tmpfsVfsWriteIn M fuel node offset buf count)
      (tmpfsVfsWrite M fuel node offset buf count) := by
  refine .bind (.lift _) fun data => ?_
  cases data with
  | none => exact .pure _
  | some t =>
    refine .bind (.lift _) fun err => .ite (.pure _) (.bind (.lift _) fun tn => ?_)
    exact .bind (copyInIn_watches M _ _ _ _ _ _) fun _ => .bind (.lift _) fun _ => .pure _

end Watched

/-! ## Where the copies go -/

section Copies

variable {s : FsState Flat} {lo hi src dest n i : Nat} {buf : Nat → UInt8}

theorem exists_from_succ {P : Nat → Prop} (h : ¬ P i) :
    (∃ j < n + 1, P (i + j)) ↔ ∃ j < n, P (i + 1 + j) := by
  constructor
  · rintro ⟨j, hj, hP⟩
    cases j with
    | zero => exact absurd hP h
    | succ j => exact ⟨j, by omega, by rwa [show i + (j + 1) = i + 1 + j by omega] at hP⟩
  · rintro ⟨j, hj, hP⟩
    exact ⟨j + 1, by omega, by rwa [show i + (j + 1) = i + 1 + j by omega]⟩

theorem copyOutIn_leaves_iff :
    Leaves (copyOutIn Flat.machine lo hi src n i) s ↔
      ∃ j < n, ¬ (lo ≤ wrap64 (src + (i + j)) ∧ wrap64 (src + (i + j)) < hi) := by
  induction n generalizing i with
  | zero => exact iff_of_false not_leaves_pure fun ⟨j, hj, _⟩ => absurd hj (Nat.not_lt_zero j)
  | succ n ih =>
    by_cases hp : lo ≤ wrap64 (src + i) ∧ wrap64 (src + i) < hi
    · rw [copyOutIn, leaves_bind_iff (check_of hp), leaves_lift_bind_iff
        (show Returns (onHeap (onMach (Flat.machine.load8 (wrap64 (src + i))))) s _ s from rfl),
        leaves_bind_iff_left fun _ _ => not_leaves_pure, ih]
      exact (exists_from_succ (P := fun x => ¬ (lo ≤ wrap64 (src + x) ∧ wrap64 (src + x) < hi))
        (not_not.mpr hp)).symm
    · exact iff_of_true (leaves_check hp).bind ⟨0, Nat.succ_pos n, hp⟩

theorem copyInIn_leaves_iff :
    Leaves (copyInIn Flat.machine lo hi dest buf n i) s ↔
      ∃ j < n, ¬ (lo ≤ wrap64 (dest + (i + j)) ∧ wrap64 (dest + (i + j)) < hi) := by
  induction n generalizing i s with
  | zero => exact iff_of_false not_leaves_pure fun ⟨j, hj, _⟩ => absurd hj (Nat.not_lt_zero j)
  | succ n ih =>
    by_cases hp : lo ≤ wrap64 (dest + i) ∧ wrap64 (dest + i) < hi
    · rw [copyInIn, leaves_bind_iff (check_of hp), leaves_lift_bind_iff
        (show Returns (onHeap (onMach (Flat.machine.store8 (wrap64 (dest + i)) (buf i)))) s _ _
          from rfl), ih]
      exact (exists_from_succ (P := fun x => ¬ (lo ≤ wrap64 (dest + x) ∧ wrap64 (dest + x) < hi))
        (not_not.mpr hp)).symm
    · exact iff_of_true (leaves_check hp).bind ⟨0, Nat.succ_pos n, hp⟩

/-- A copy of `count` bytes at `offset` of a block of `cap` bytes. -/
theorem range_leaves_iff {d cap offset count : Nat} (hend : d + cap < 2 ^ 64)
    (hoffset : offset < 2 ^ 64) :
    (∃ j < count, ¬ (d ≤ wrap64 (d + offset + (0 + j)) ∧ wrap64 (d + offset + (0 + j)) < d + cap)) ↔
      0 < count ∧ cap < offset + count := by
  unfold wrap64
  constructor
  · rintro ⟨j, hj, hout⟩
    refine ⟨by omega, ?_⟩
    by_contra hle
    rw [Nat.mod_eq_of_lt (by omega)] at hout
    omega
  · rintro ⟨hpos, hlt⟩
    by_cases hge : cap ≤ offset
    · exact ⟨0, hpos, by omega⟩
    · refine ⟨cap - offset, by omega, ?_⟩
      rw [Nat.mod_eq_of_lt (by omega)]
      omega

theorem copyOut_total (src n i : Nat) (s : FsState Flat) :
    ∃ bytes, Returns (copyOut Flat.machine src n i) s bytes s := by
  induction n generalizing i with
  | zero => exact ⟨[], rfl⟩
  | succ n ih =>
    obtain ⟨bytes, hrest⟩ := ih (i + 1)
    refine ⟨s.fs.heap.mach.mem (wrap64 (src + i)) :: bytes, ?_⟩
    have hbyte : Returns (onHeap (onMach (Flat.machine.load8 (wrap64 (src + i))))) s
        (s.fs.heap.mach.mem (wrap64 (src + i))) s := rfl
    rw [Returns, copyOut, hbyte.bind_eq, hrest.bind_eq]
    rfl

end Copies

/-! ## The two calls on a node -/

/-- A new file, over a well-formed heap. -/
structure EmptyFile (s : FsState Flat) (v t : Nat) : Prop where
  priv : (s.nodes v).privateData = some t
  empty : s.fs.nodes t = ⟨0, 0, 0⟩
  heap : ∃ F L, HeapInv s.fs.heap F L

theorem EmptyFile.inv {s : FsState Flat} {v t : Nat} (h : EmptyFile s v t) : NodeInv s v t := by
  obtain ⟨F, L, hinv⟩ := h.heap
  refine ⟨h.priv, ?_, ?_, L, ?_⟩ <;> rw [h.empty]
  · exact .inl rfl
  · exact .inl ⟨rfl, rfl, F, hinv⟩

/-- With enough fuel, the write does not leave the block. -/
def WriteStays (s : FsState Flat) (v offset : Nat) (buf : Nat → UInt8) (count : Nat) : Prop :=
  ∃ n, ∀ fuel, n ≤ fuel →
    ¬ Leaves (tmpfsVfsWriteIn Flat.machine fuel (some v) offset buf count) s

section Calls

variable {s s' : FsState Flat} {v t offset count : Nat} {buf : Nat → UInt8}

/-- The number of bytes that a read copies. -/
def readCount (tn : TmpfsNode) (offset count : Nat) : Nat :=
  if tn.size ≤ offset then 0
  else if tn.size < wrap64 (offset + count) then tn.size - offset else count

theorem tmpfsVfsRead_total (h : NodeInv s v t) (offset count : Nat) :
    ∃ bytes, Returns (tmpfsVfsRead Flat.machine (some v) offset count) s
      (toInt32 (readCount (s.fs.nodes t) offset count), bytes) s := by
  unfold readCount
  by_cases hend : (s.fs.nodes t).size ≤ offset
  · rw [if_pos hend]
    exact ⟨[], tmpfsVfsRead_of_end h.priv hend count⟩
  · obtain ⟨bytes, hcopy⟩ := copyOut_total ((s.fs.nodes t).data + offset)
      (if (s.fs.nodes t).size < wrap64 (offset + count) then (s.fs.nodes t).size - offset
        else count) 0 s
    refine ⟨bytes, ?_⟩
    rw [Returns, tmpfsVfsRead, (tmpfsPrivate_returns h.priv).bind_eq]
    dsimp only
    rw [read_bind, if_neg hend, if_neg hend, hcopy.bind_eq]
    rfl

theorem tmpfsVfsReadIn_leaves_iff (h : NodeInv s v t) (hcount : count < 2 ^ 64) :
    Leaves (tmpfsVfsReadIn Flat.machine (some v) offset count) s ↔
      offset < (s.fs.nodes t).size ∧ 2 ^ 64 ≤ offset + count := by
  obtain ⟨L, hbuf⟩ := h.buffer
  have hlt := hbuf.lt
  have hle := h.le
  rw [tmpfsVfsReadIn, leaves_lift_bind_iff (tmpfsPrivate_returns h.priv)]
  rw [leaves_read_bind_iff]
  by_cases hend : (s.fs.nodes t).size ≤ offset
  · rw [if_pos hend]
    exact iff_of_false not_leaves_pure (by omega)
  · rw [if_neg hend, leaves_bind_iff_left fun _ _ => not_leaves_pure, copyOutIn_leaves_iff,
      range_leaves_iff (by omega) (by omega)]
    unfold wrap64
    by_cases hwrap : offset + count < 2 ^ 64
    · rw [Nat.mod_eq_of_lt hwrap]
      split <;> omega
    · -- the sum comes out below `offset`, and nothing is cut off
      rw [if_neg (by omega)]
      omega

/-- Room was made, and the copy decides. -/
theorem tmpfsVfsWriteIn_leaves_iff {fs1 : Tmpfs Flat} {L : List Alloc} {fuel : Nat}
    (hpriv : (s.nodes v).privateData = some t) (hoffset : offset < 2 ^ 64)
    (hgrow : Returns (tmpfsGrow Flat.machine fuel t (wrap64 (offset + count))) s 0
      { s with fs := fs1 }) (hbuf : Buffer fs1.heap (fs1.nodes t) L) :
    Leaves (tmpfsVfsWriteIn Flat.machine fuel (some v) offset buf count) s ↔
      0 < count ∧ (fs1.nodes t).capacity < offset + count := by
  rw [tmpfsVfsWriteIn, leaves_lift_bind_iff (tmpfsPrivate_returns hpriv)]
  rw [leaves_lift_bind_iff hgrow, if_neg (by simp), leaves_read_bind_iff,
    leaves_bind_iff_left, copyInIn_leaves_iff, range_leaves_iff hbuf.lt hoffset]
  intro _ s'
  rw [leaves_bind_iff_left fun _ _ => not_leaves_pure]
  exact not_leaves_lift _

/-- A write that makes no room ends there. -/
theorem tmpfsVfsWrite_refused {G : PagedMachine Flat} (hG : OnPages G) (h : NodeInv s v t)
    (hneed : wrap64 (offset + count) ≤ 2 ^ 63) (hnot : ¬ Servable G s.fs t (wrap64 (offset + count)))
    (buf : Nat → UInt8) :
    ∃ err fs', err < 0 ∧ fs'.nodes = s.fs.nodes ∧ (∃ L, Buffer fs'.heap (s.fs.nodes t) L) ∧
      Converges (tmpfsGrow G · t (wrap64 (offset + count))) s err { s with fs := fs' } ∧
      Converges (fun fuel => tmpfsVfsWrite G fuel (some v) offset buf count) s err
        { s with fs := fs' } := by
  obtain ⟨L, hbuf⟩ := h.buffer
  obtain ⟨err, fs', ⟨n, hgrow⟩, ⟨-, hserved, -⟩ | ⟨herr, -, hnodes, hbuf'⟩⟩ :=
    tmpfsGrow_spec hG h.cap hbuf hneed
  · exact absurd hserved hnot
  refine ⟨err, fs', herr, hnodes, ⟨L, hbuf'⟩, ⟨n, hgrow⟩, n, fun fuel hfuel => ?_⟩
  show tmpfsVfsWrite G fuel (some v) offset buf count s = _
  rw [tmpfsVfsWrite, (tmpfsPrivate_returns h.priv).bind_eq]
  dsimp only
  rw [(hgrow fuel hfuel).bind_eq, if_pos (by omega)]
  rfl

end Calls

/-! ## Runs -/

inductive TmpfsEvent
  | read (offset count : Nat)
  | write (offset : Nat) (buf : Nat → UInt8) (count : Nat)
  /-- Some other part of the kernel uses the heap. -/
  | other (h : HeapState Flat)

/-- One event on the file. Its writes so far stayed in the block, and the others left the block
allocated. -/
inductive TmpfsStep (v t : Nat) : FsState Flat → TmpfsEvent → FsState Flat → Prop
  | read {s s' : FsState Flat} {offset count : Nat} {r : Int × List UInt8}
      (hret : Returns (tmpfsVfsRead Flat.machine (some v) offset count) s r s') :
      TmpfsStep v t s (.read offset count) s'
  | write {s s' : FsState Flat} {offset count : Nat} {buf : Nat → UInt8} {ret : Int}
      (hoffset : offset < 2 ^ 64) (hcount : count < 2 ^ 64) (hstays : WriteStays s v offset buf count)
      (hret : Converges (fun fuel => tmpfsVfsWrite Flat.machine fuel (some v) offset buf count)
        s ret s') :
      TmpfsStep v t s (.write offset buf count) s'
  | other {s : FsState Flat} {h : HeapState Flat} {L : List Alloc}
      (hbuf : Buffer h (s.fs.nodes t) L) :
      TmpfsStep v t s (.other h) { s with fs := { s.fs with heap := h } }

section Runs

variable {s s' : FsState Flat} {v t offset count : Nat} {buf : Nat → UInt8}

/-- **A write** stays in the block if and only if the sum does not wrap, or the write is not
served. -/
theorem writeStays_iff (h : NodeInv s v t) (hoffset : offset < 2 ^ 64) (hcount : count < 2 ^ 64) :
    WriteStays s v offset buf count ↔
      offset + count < 2 ^ 64 ∨ ¬ Servable Flat.machine s.fs t (wrap64 (offset + count)) := by
  by_cases hneed : wrap64 (offset + count) ≤ 2 ^ 63
  · by_cases hserved : Servable Flat.machine s.fs t (wrap64 (offset + count))
    · obtain ⟨L, hbuf⟩ := h.buffer
      obtain ⟨err, fs1, ⟨n, hgrow⟩, ⟨rfl, -, hgrown⟩ | ⟨-, hnot, -⟩⟩ :=
        tmpfsGrow_spec onPages_machine h.cap hbuf hneed
      swap
      · exact absurd hserved hnot
      have hleaves : ∀ fuel, n ≤ fuel →
          (Leaves (tmpfsVfsWriteIn Flat.machine fuel (some v) offset buf count) s ↔
            0 < count ∧ (fs1.nodes t).capacity < offset + count) := fun fuel hfuel =>
        tmpfsVfsWriteIn_leaves_iff h.priv hoffset (hgrow fuel hfuel) hgrown.buffer
      have hroom := hgrown.room
      have hcap := hgrown.cap.le
      have hmax : tmpfsMaxSize = 262144 := rfl
      unfold wrap64 at hroom
      constructor
      · rintro ⟨m, hstays⟩
        refine .inl (not_le.mp fun hwrap => ?_)
        exact hstays (n + m) (by omega) ((hleaves (n + m) (by omega)).mpr (by omega))
      · intro hcond
        have hlt := hcond.resolve_right (not_not.mpr hserved)
        refine ⟨n, fun fuel hfuel hout => ?_⟩
        have := (hleaves fuel hfuel).mp hout
        omega
    · obtain ⟨err, _, herr, -, -, ⟨n, hgrow⟩, -⟩ :=
        tmpfsVfsWrite_refused onPages_machine h hneed hserved buf
      refine iff_of_true ⟨n, fun fuel hfuel => ?_⟩ (.inr hserved)
      rw [tmpfsVfsWriteIn, leaves_lift_bind_iff (tmpfsPrivate_returns h.priv)]
      rw [leaves_lift_bind_iff (hgrow fuel hfuel), if_pos (by omega)]
      exact not_leaves_pure
  · refine iff_of_true ⟨0, fun fuel _ hout => ?_⟩ (.inr fun hserved => ?_)
    · -- the doubling does not end
      rw [tmpfsVfsWriteIn, leaves_lift_bind_iff (tmpfsPrivate_returns h.priv)] at hout
      exact not_leaves_of_stops (tmpfsGrow_diverges h.cap (not_le.mp hneed) fuel) hout
    · have hmax : tmpfsMaxSize = 262144 := rfl
      have := hserved.1
      omega

theorem Written.inv {L : List Alloc} {fs1 : Tmpfs Flat} (h : NodeInv s v t)
    (hw : Written s s' t L offset buf count fs1) : NodeInv s' v t := by
  have hroom := hw.grown.room
  have hle := h.le.trans hw.grown.le
  have hsize := hw.grown.size
  refine ⟨(hw.vfs v).2.trans h.priv, ?_, ?_, L, ?_⟩ <;> rw [hw.node]
  · unfold TmpfsNode.ending
    dsimp only
    split <;> omega
  · exact hw.grown.cap
  · rw [hw.rest]
    refine (hw.grown.buffer.write fun x hx => ?_).resize _
    rw [hw.mem, if_neg (by omega)]

/-- A write was served, or refused. -/
def WriteDone (s s' : FsState Flat) (t offset : Nat) (buf : Nat → UInt8) (count : Nat) (ret : Int) :
    Prop :=
  (ret = count ∧ ∃ L fs1, Written s s' t L offset buf count fs1) ∨
    ret < 0 ∧ ∃ L fs', s' = { s with fs := fs' } ∧ fs'.nodes = s.fs.nodes ∧
      Buffer fs'.heap (s.fs.nodes t) L

theorem NodeInv.write {G : PagedMachine Flat} (hG : OnPages G) (h : NodeInv s v t)
    (hneed : wrap64 (offset + count) ≤ 2 ^ 63)
    (hcond : offset + count < 2 ^ 64 ∨ ¬ Servable G s.fs t (wrap64 (offset + count)))
    (buf : Nat → UInt8) :
    ∃ ret s', Converges (fun fuel => tmpfsVfsWrite G fuel (some v) offset buf count) s ret s' ∧
      WriteDone s s' t offset buf count ret := by
  by_cases hserved : Servable G s.fs t (wrap64 (offset + count))
  · rw [wrap64_of_lt (hcond.resolve_right (not_not.mpr hserved))] at hserved
    obtain ⟨L, hbuf⟩ := h.buffer
    obtain ⟨s', fs1, hret, hw⟩ := tmpfsVfsWrite_served hG h.priv h.cap hbuf buf hserved
    exact ⟨count, s', hret, .inl ⟨rfl, L, fs1, hw⟩⟩
  · obtain ⟨err, fs', hneg, hnodes, ⟨L, hbuf⟩, -, hret⟩ :=
      tmpfsVfsWrite_refused hG h hneed hserved buf
    exact ⟨err, _, hret, .inr ⟨hneg, L, fs', rfl, hnodes, hbuf⟩⟩

theorem NodeInv.write_cases {ret : Int} (h : NodeInv s v t)
    (hcond : offset + count < 2 ^ 64 ∨ ¬ Servable Flat.machine s.fs t (wrap64 (offset + count)))
    (hret : Converges (fun fuel => tmpfsVfsWrite Flat.machine fuel (some v) offset buf count)
      s ret s') : WriteDone s s' t offset buf count ret := by
  by_cases hneed : wrap64 (offset + count) ≤ 2 ^ 63
  · obtain ⟨ret', s1, hret', hdone⟩ := h.write onPages_machine hneed hcond buf
    obtain ⟨rfl, rfl⟩ := hret.unique hret'
    exact hdone
  · obtain ⟨n, hret⟩ := hret
    have hret : tmpfsVfsWrite Flat.machine n (some v) offset buf count s = _ := hret n le_rfl
    rw [tmpfsVfsWrite_diverges h.priv h.cap (not_le.mp hneed)] at hret
    cases hret

theorem NodeInv.step {e : TmpfsEvent} (h : NodeInv s v t) (hstep : TmpfsStep v t s e s') :
    NodeInv s' v t := by
  cases hstep with
  | @read _ offset count _ hret =>
    obtain ⟨bytes, hret'⟩ := tmpfsVfsRead_total h offset count
    rw [(hret.unique hret').2]
    exact h
  | write hoffset hcount hstays hret =>
    rcases h.write_cases ((writeStays_iff h hoffset hcount).mp hstays) hret with
      ⟨-, L, fs1, hw⟩ | ⟨-, L, fs', rfl, hnodes, hbuf⟩
    · exact hw.inv h
    · refine ⟨h.priv, ?_, ?_, L, ?_⟩ <;> dsimp only <;> rw [hnodes]
      · exact h.le
      · exact h.cap
      · exact hbuf
  | @other _ L hbuf => exact ⟨h.priv, h.le, h.cap, L, hbuf⟩

/-- A write that returns an error leaves both nodes as they were. -/
theorem nodes_of_error {ret : Int} (h : NodeInv s v t)
    (hcond : offset + count < 2 ^ 64 ∨ ¬ Servable Flat.machine s.fs t (wrap64 (offset + count)))
    (hret : Converges (fun fuel => tmpfsVfsWrite Flat.machine fuel (some v) offset buf count)
      s ret s') (hneg : ret < 0) : s'.fs.nodes = s.fs.nodes ∧ s'.nodes = s.nodes := by
  rcases h.write_cases hcond hret with ⟨rfl, -⟩ | ⟨-, L, fs', rfl, hnodes, -⟩
  · omega
  · exact ⟨hnodes, rfl⟩

theorem readCount_le (h : NodeInv s v t)
    (hcond : (s.fs.nodes t).size ≤ offset ∨ offset + count < 2 ^ 64) :
    toInt32 (readCount (s.fs.nodes t) offset count) ≤ ((s.fs.nodes t).size - offset : Nat) := by
  have hle : readCount (s.fs.nodes t) offset count ≤ (s.fs.nodes t).size - offset := by
    unfold readCount wrap64
    split
    · omega
    · rw [Nat.mod_eq_of_lt (by omega)]
      split <;> omega
  have hcap := h.le.trans h.cap.le
  have hmax : tmpfsMaxSize = 262144 := rfl
  rw [toInt32_of_lt (by omega)]
  omega

end Runs

/-- **Bounds.** In every state that reads and writes of a file reach, as long as its writes stayed in
bounds, for every 64-bit `offset` and `count`:
`tmpfs_vfs_read` copies from `data[0..size)` only and returns at most `size - offset`, if and only
if it starts behind the end or `offset + count` does not wrap; `tmpfs_vfs_write` copies to
`data[0..capacity)` only, and changes no node when it fails, if and only if `offset + count`
does not wrap or there is no room for the number that it wraps to. -/
theorem tmpfs_in_bounds_iff {s0 s : FsState Flat} {v t : Nat} {es : List TmpfsEvent}
    (hstart : EmptyFile s0 v t) (hrun : Run (TmpfsStep v t) s0 es s) {offset count : Nat}
    (hoffset : offset < 2 ^ 64) (hcount : count < 2 ^ 64) :
    ((¬ Leaves (tmpfsVfsReadIn Flat.machine (some v) offset count) s ∧
        ∃ ret bytes, Returns (tmpfsVfsRead Flat.machine (some v) offset count) s (ret, bytes) s ∧
          ret ≤ ((s.fs.nodes t).size - offset : Nat)) ↔
      (s.fs.nodes t).size ≤ offset ∨ offset + count < 2 ^ 64) ∧
    ∀ buf, (WriteStays s v offset buf count ∧
        ∀ ret s', Converges (fun fuel => tmpfsVfsWrite Flat.machine fuel (some v) offset buf count)
          s ret s' → ret < 0 → s'.fs.nodes = s.fs.nodes ∧ s'.nodes = s.nodes) ↔
      offset + count < 2 ^ 64 ∨ ¬ Servable Flat.machine s.fs t (wrap64 (offset + count)) := by
  have h : NodeInv s v t :=
    Run.invariant (I := fun s => NodeInv s v t) (fun _ _ _ h hstep => h.step hstep) hrun hstart.inv
  refine ⟨?_, fun buf => ?_⟩
  · rw [tmpfsVfsReadIn_leaves_iff h hcount]
    constructor
    · rintro ⟨hin, -⟩
      omega
    · intro hcond
      obtain ⟨bytes, hret⟩ := tmpfsVfsRead_total h offset count
      exact ⟨by omega, _, bytes, hret, readCount_le h hcond⟩
  · constructor
    · rintro ⟨hstays, -⟩
      exact (writeStays_iff h hoffset hcount).mp hstays
    · intro hcond
      exact ⟨(writeStays_iff h hoffset hcount).mpr hcond,
        fun ret s' hret hneg => nodes_of_error h hcond hret hneg⟩

/-- The only file, on a new heap. -/
theorem oneFile_empty (byte : UInt8) : EmptyFile (oneFile (initialHeap 0x585 byte)) 0 0 :=
  ⟨rfl, rfl, _, _, initialHeap_inv (by decide) (by decide)⟩

/-- One byte is written to a new file, and then a thousand, for which its block has to grow. -/
theorem tmpfs_in_bounds_iff_first : ∃ (h : HeapState Flat) (s : FsState Flat),
    EmptyFile (oneFile h) 0 0 ∧ Run (TmpfsStep 0 0) (oneFile h) [.write 0 (fun _ => 7) 1] s ∧
      (s.fs.nodes 0).capacity = 256 ∧ WriteStays s 0 0 (fun _ => 7) 1000 := by
  have heval : ((do
      let ret ← tmpfsVfsWrite Flat.machine 60 (some 0) 0 (fun _ => 7) 1
      Exec.read fun s => (ret, (s.fs.nodes 0).capacity)) (oneFile (initialHeap 0x585 0))).map Prod.fst =
      some (1, 256) := by decide +kernel
  obtain ⟨⟨r, s⟩, hs, hr⟩ := Option.map_eq_some_iff.mp heval
  obtain ⟨ret, s', hwrite, hs⟩ := returns_bind hs
  cases hs
  obtain ⟨u, hconv, hrel⟩ := (MachineSim.refl _).write_converges ⟨rfl, rfl, rfl, .refl _⟩ hwrite
  obtain rfl := hrel.eq
  have hfile := oneFile_empty 0
  have hfirst := (((tmpfs_in_bounds_iff hfile (.nil _) (by decide) (by decide)).2 (fun _ => 7)).mpr
    (.inl (show 0 + 1 < 2 ^ 64 by decide))).1
  have hrun : Run (TmpfsStep 0 0) _ [.write 0 (fun _ => 7) 1] s :=
    .cons (.write (by decide) (by decide) hfirst hconv) (.nil _)
  exact ⟨_, s, hfile, hrun, congrArg Prod.snd hr, (((tmpfs_in_bounds_iff hfile hrun (by decide)
    (by decide)).2 _).mpr (.inl (by decide))).1⟩

/-- On a new heap, one byte is written to an empty file after seeking to `-1`. The sum is `0`, no room
is made, and the byte is written although the file has no block: the call reports success. -/
theorem tmpfs_write_out_of_bounds : ∃ (h : HeapState Flat) (s1 : FsState Flat),
    EmptyFile (oneFile h) 0 0 ∧ Returns (vfsSeek 3 (-1) seekSet) (oneFile h) (-1) s1 ∧
    ∀ fuel, Leaves (tmpfsVfsWriteIn Flat.machine fuel (some 0) (2 ^ 64 - 1) (fun _ => 7) 1) s1 ∧
      ∃ s2, Returns (vfsWrite (gTmpfsOps Flat.machine fuel) 3 (fun _ => 7) 1) s1 1 s2 ∧
        (s2.fs.nodes 0).capacity = 0 := by
  generalize hh : initialHeap 0x585 0 = h
  have hfile : EmptyFile (oneFile h) 0 0 := hh ▸ oneFile_empty 0
  refine ⟨h, (oneFile h).setOffset 3 (2 ^ 64 - 1), hfile, rfl, fun fuel => ⟨⟨_, rfl⟩, ?_⟩⟩
  have hret : Returns (tmpfsVfsWrite Flat.machine fuel (some 0) (2 ^ 64 - 1) (fun _ => 7) 1)
    ((oneFile h).setOffset 3 (2 ^ 64 - 1)) 1 _ := rfl
  have hcall : vfsWrite (gTmpfsOps Flat.machine fuel) 3 _ _ _ = _ :=
    (vfsWrite_of_openAt (oneFile_openAt h _) rfl).trans (hret.bind_eq)
  exact ⟨_, hcall, rfl⟩

end GosKernel.Fs
