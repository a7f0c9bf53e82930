import GosKernel.Defs
import Mathlib.Data.Fintype.Basic

/-!
# Pipes (`ipc/pipe.c`)

A fixed table of `PIPE_MAX_PIPES` ring buffers. `pipe_create` takes two free table
entries, marks one readable and the other writable, and hands them out as the two
ends of a pipe. The ends are *different* entries, each with a buffer and positions
of its own, and nothing copies from one to the other: what `pipe_write` stores at
the write end is not there for `pipe_read` at the read end.
-/

namespace GosKernel.Ipc

open List Function

def pipeBufSize : Nat := 4096

abbrev pipeMaxPipes : Nat := 32

/-- `pipe_t`. -/
structure Pipe where
  buffer : Nat → UInt8
  readPos : Nat
  writePos : Nat
  readable : Bool
  writable : Bool
  refcount : Int

/-- A non-`NULL` `pipe_t *`: the index of a table entry. -/
abbrev PipeId := Fin pipeMaxPipes

/-- `g_pipes`. -/
abbrev PipeTable := PipeId → Pipe

/-- A pipe after `memset(p, 0, sizeof(pipe_t))`. -/
def zeroPipe : Pipe :=
  ⟨fun _ => 0, 0, 0, false, false, 0⟩

/-- `pipe_init` (pipe.c:13-20). -/
def pipeInit (t : PipeTable) : PipeTable := fun i =>
  { t i with readable := false, writable := false, refcount := 0 }

/-- One iteration of the slot search of `pipe_create` (pipe.c:26-31): the first
free entry becomes the read end, the second the write end. -/
def pipeCreateScan (t : PipeTable) (acc : Option PipeId × Option PipeId) (i : PipeId) :
    Option PipeId × Option PipeId :=
  if (t i).refcount = 0 then
    match acc with
    | (none, w) => (some i, w)
    | (some r, none) => (some r, some i)
    | (some r, some w) => (some r, some w)
  else acc

/-- `pipe_create` (pipe.c:22-45). `readEnd` and `writeEnd` say whether the
out-pointers are non-`NULL`; on success the two ends are returned with the code. -/
def pipeCreate (t : PipeTable) (readEnd writeEnd : Bool) :
    Int × Option (PipeId × PipeId) × PipeTable :=
  if !readEnd || !writeEnd then (-einval, none, t)
  else
    match (List.finRange pipeMaxPipes).foldl (pipeCreateScan t) (none, none) with
    | (some r, some w) =>
      (0, some (r, w),
        update
          (update t r { zeroPipe with readable := true, refcount := 1 })
          w { zeroPipe with writable := true, refcount := 1 })
    | _ => (-enfile, none, t)

/-- `pipe_empty`. -/
def pipeEmpty (p : Pipe) : Bool := p.readPos == p.writePos

/-- `pipe_full`. -/
def pipeFull (p : Pipe) : Bool := (p.writePos + 1) % pipeBufSize == p.readPos

/-- The copy loop of `pipe_read`, with `n` bytes still wanted. -/
def pipeReadLoop : Nat → Pipe → List UInt8 × Pipe
  | 0, p => ([], p)
  | n + 1, p =>
    if pipeEmpty p then ([], p)
    else
      let rest := pipeReadLoop n { p with readPos := (p.readPos + 1) % pipeBufSize }
      (p.buffer p.readPos :: rest.1, rest.2)

/-- `pipe_read` (pipe.c:61-70): the return value, the bytes stored at `buf`, and
the table. `buf` says whether the destination is non-`NULL`. -/
def pipeRead (t : PipeTable) (p : Option PipeId) (buf : Bool) (count : Nat) :
    Int × List UInt8 × PipeTable :=
  match p with
  | none => (-einval, [], t)
  | some i =>
    if !buf || !(t i).readable then (-einval, [], t)
    else
      let r := pipeReadLoop count (t i)
      (toInt32 r.1.length, r.1, update t i r.2)

/-- The copy loop of `pipe_write`: `written` bytes of `src` are stored and `n` are
left to store. -/
def pipeWriteLoop (src : Nat → UInt8) : Nat → Nat → Pipe → Nat × Pipe
  | 0, written, p => (written, p)
  | n + 1, written, p =>
    if pipeFull p then (written, p)
    else
      pipeWriteLoop src n (written + 1)
        { p with
          buffer := update p.buffer p.writePos (src written)
          writePos := (p.writePos + 1) % pipeBufSize }

/-- `pipe_write` (pipe.c:72-81): the return value and the table. `buf` is the
memory at the source pointer, `none` for `NULL`. -/
def pipeWrite (t : PipeTable) (p : Option PipeId) (buf : Option (Nat → UInt8)) (count : Nat) :
    Int × PipeTable :=
  match p, buf with
  | some i, some src =>
    if !(t i).writable then (-einval, t)
    else
      let r := pipeWriteLoop src count 0 (t i)
      (toInt32 r.1, update t i r.2)
  | _, _ => (-einval, t)

/-! ## The two ends are distinct -/

variable {r w : PipeId} {t : PipeTable}

/-- The slot search never offers one entry for both ends: an entry already taken
was scanned earlier. -/
theorem pipeCreateScan_foldl_ne {l : List PipeId}
    {acc : Option PipeId × Option PipeId} (hnd : l.Nodup) (hfresh : ∀ i ∈ l, acc.1 ≠ some i)
    (hacc : ∀ i, acc.2 = some i → acc.1 ≠ some i ∧ acc.1 ≠ none)
    (h : l.foldl (pipeCreateScan t) acc = (some r, some w)) : r ≠ w := by
  induction l generalizing acc with
  | nil =>
    rw [foldl_nil] at h
    rintro rfl
    exact (hacc r (by rw [h])).1 (by rw [h])
  | cons i l ih =>
    obtain ⟨hil, hnd'⟩ := nodup_cons.mp hnd
    rw [foldl_cons] at h
    have hrest : ∀ j ∈ l, acc.1 ≠ some j := fun j hj => hfresh j (mem_cons_of_mem _ hj)
    by_cases hfree : (t i).refcount = 0
    · rcases acc with ⟨_ | r0, _ | w0⟩
      · have hs : pipeCreateScan t (none, none) i = (some i, none) := by
          simp [pipeCreateScan, hfree]
        rw [hs] at h
        refine ih hnd' (fun j hj hij => hil ?_) (fun j hj => by cases hj) h
        cases hij
        exact hj
      · exact absurd rfl (hacc w0 rfl).2
      · have hs : pipeCreateScan t (some r0, none) i = (some r0, some i) := by
          simp [pipeCreateScan, hfree]
        rw [hs] at h
        have hacc' : ∀ j, some i = some j → some r0 ≠ some j ∧ some r0 ≠ none := by
          intro j hj
          cases hj
          exact ⟨hfresh i mem_cons_self, Option.some_ne_none r0⟩
        refine ih hnd' ?_ ?_ h
        · exact hrest
        · exact hacc'
      · have hs : pipeCreateScan t (some r0, some w0) i = (some r0, some w0) := by
          simp [pipeCreateScan]
        rw [hs] at h
        exact ih hnd' hrest hacc h
    · have hs : pipeCreateScan t acc i = acc := by
        simp [pipeCreateScan, hfree]
      rw [hs] at h
      exact ih hnd' hrest hacc h

/-- What a successful `pipe_create` leaves: two distinct, empty entries. -/
theorem pipeCreate_ok {t' : PipeTable} {re we : Bool} {code : Int}
    (h : pipeCreate t re we = (code, some (r, w), t')) :
    r ≠ w ∧ t' r = { zeroPipe with readable := true, refcount := 1 } ∧
      t' w = { zeroPipe with writable := true, refcount := 1 } := by
  unfold pipeCreate at h
  split at h
  · cases h
  · split at h
    · rename_i r0 w0 hscan
      have hne : r0 ≠ w0 :=
        pipeCreateScan_foldl_ne (nodup_finRange _) (by simp) (by simp) hscan
      cases h
      refine ⟨hne, ?_, update_self ..⟩
      rw [update_of_ne hne, update_self]
    · cases h

/-! ## The conservation law -/

/-- A call on one of the two ends. -/
inductive PipeOp
  | write (bytes : Nat → UInt8) (n : Nat)
  | read (m : Nat)

/-- The bytes a write accepted: as many of the source as it returned. -/
def accepted (bytes : Nat → UInt8) (ret : Int) : List UInt8 :=
  (List.range ret.toNat).map bytes

/-- Pipe conservation for the interleaving `ops` of calls on the ends `(r, w)`,
`acc` being the bytes accepted and `rd` the bytes read so far: every read returns
exactly as many bytes as are asked for and outstanding, and what has been read is
always a prefix of what has been accepted. -/
def PipeLaw (r w : PipeId) : PipeTable → List UInt8 → List UInt8 → List PipeOp → Prop
  | _, acc, rd, [] => rd <+: acc
  | t, acc, rd, .write bytes n :: ops =>
    rd <+: acc ∧
      PipeLaw r w (pipeWrite t (some w) (some bytes) n).2
        (acc ++ accepted bytes (pipeWrite t (some w) (some bytes) n).1) rd ops
  | t, acc, rd, .read m :: ops =>
    rd <+: acc ∧
      (pipeRead t (some r) true m).1 = min m (acc.length - rd.length) ∧
      PipeLaw r w (pipeRead t (some r) true m).2.2 acc
        (rd ++ (pipeRead t (some r) true m).2.1) ops

/-- No call asks for a byte. -/
def NoDemand (ops : List PipeOp) : Prop := ∀ m, .read m ∈ ops → m = 0

/-- No read of a positive count comes after a write of a positive count. -/
def ReadsPrecedeData : List PipeOp → Prop
  | [] => True
  | .read _ :: ops => ReadsPrecedeData ops
  | .write _ n :: ops => if n = 0 then ReadsPrecedeData ops else NoDemand ops

/-- The ends as `pipe_create` leaves them and as calls on them keep them: the read
end empty, the write end with its read position still at the start. -/
structure Ends (r w : PipeId) (t : PipeTable) : Prop where
  ne : r ≠ w
  readable : (t r).readable = true
  empty : (t r).readPos = (t r).writePos
  writable : (t w).writable = true
  start : (t w).readPos = 0
  bound : (t w).writePos < pipeBufSize

theorem ends_of_pipeCreate {t' : PipeTable} {re we : Bool} {code : Int}
    (h : pipeCreate t re we = (code, some (r, w), t')) : Ends r w t' ∧ (t' w).writePos = 0 := by
  obtain ⟨hne, hr, hw⟩ := pipeCreate_ok h
  refine ⟨⟨hne, ?_, ?_, ?_, ?_, ?_⟩, ?_⟩ <;> simp [hr, hw, zeroPipe, pipeBufSize]

theorem pipeRead_ends (h : Ends r w t) (m : Nat) : pipeRead t (some r) true m = (0, [], t) := by
  have hloop : pipeReadLoop m (t r) = ([], t r) := by
    cases m with
    | zero => rfl
    | succ m =>
      rw [pipeReadLoop]
      simpa [pipeEmpty] using h.empty
  show (if !true || !(t r).readable then _ else _) = _
  rw [h.readable, hloop, update_eq_self]
  rfl

/-- The write loop stores bytes up to the last free position of the ring. -/
theorem pipeWriteLoop_spec (src : Nat → UInt8) (n k : Nat) {p : Pipe} (hs : p.readPos = 0)
    (hb : p.writePos < pipeBufSize) :
    (pipeWriteLoop src n k p).1 = k + min n (pipeBufSize - 1 - p.writePos) ∧
      (pipeWriteLoop src n k p).2.readPos = 0 ∧
      (pipeWriteLoop src n k p).2.writePos = p.writePos + min n (pipeBufSize - 1 - p.writePos) ∧
      (pipeWriteLoop src n k p).2.writable = p.writable := by
  unfold pipeBufSize at hb ⊢
  induction n generalizing k p with
  | zero => simp [pipeWriteLoop, hs]
  | succ n ih =>
    rw [pipeWriteLoop]
    by_cases hfull : pipeFull p = true
    · have hlast : p.writePos = 4095 := by
        have : (p.writePos + 1) % 4096 = p.readPos := by simpa [pipeFull, pipeBufSize] using hfull
        omega
      rw [if_pos hfull]
      refine ⟨?_, hs, ?_, rfl⟩ <;> dsimp only <;> omega
    · have hroom : p.writePos + 1 < 4096 := by
        have : ¬ (p.writePos + 1) % 4096 = p.readPos := by
          simpa [pipeFull, pipeBufSize] using hfull
        omega
      have hmod : (p.writePos + 1) % pipeBufSize = p.writePos + 1 := Nat.mod_eq_of_lt hroom
      rw [if_neg hfull]
      generalize hp' : ({ p with
          buffer := update p.buffer p.writePos (src k)
          writePos := (p.writePos + 1) % pipeBufSize } : Pipe) = p'
      have hpos : p'.writePos = p.writePos + 1 := by rw [← hp']; exact hmod
      have hrd : p'.readPos = 0 := by rw [← hp']; exact hs
      have hwr : p'.writable = p.writable := by rw [← hp']
      obtain ⟨h1, h2, h3, h4⟩ := ih (k + 1) hrd (by omega)
      refine ⟨?_, h2, ?_, h4.trans hwr⟩ <;> omega

/-- A write at the write end accepts what fits, and keeps the ends as they are. -/
theorem pipeWrite_ends (h : Ends r w t) (bytes : Nat → UInt8) (n : Nat) :
    (pipeWrite t (some w) (some bytes) n).1 = (min n (4095 - (t w).writePos) : Nat) ∧
      Ends r w (pipeWrite t (some w) (some bytes) n).2 ∧
      ((pipeWrite t (some w) (some bytes) n).2 w).writePos
        = (t w).writePos + min n (4095 - (t w).writePos) := by
  obtain ⟨h1, h2, h3, h4⟩ := pipeWriteLoop_spec bytes n 0 h.start h.bound
  have hb := h.bound
  unfold pipeBufSize at h1 h3 hb
  have heq : pipeWrite t (some w) (some bytes) n
      = (toInt32 (pipeWriteLoop bytes n 0 (t w)).1,
          update t w (pipeWriteLoop bytes n 0 (t w)).2) := by
    show (if !(t w).writable then _ else _) = _
    rw [h.writable]
    rfl
  rw [heq]
  dsimp only
  refine ⟨?_, ⟨h.ne, ?_, ?_, ?_, ?_, ?_⟩, ?_⟩
  · rw [toInt32_of_lt (by omega), h1, Nat.zero_add]
  · rw [update_of_ne h.ne]
    exact h.readable
  · rw [update_of_ne h.ne]
    exact h.empty
  · rw [update_self, h4]
    exact h.writable
  · rw [update_self]
    exact h2
  · rw [update_self]
    unfold pipeBufSize
    omega
  · rw [update_self, h3]

/-- Once bytes have been accepted the law demands that every later read of a
positive count returns one, and none ever does. -/
theorem pipeLaw_iff_noDemand {acc : List UInt8}
    (h : Ends r w t) (hacc : acc ≠ []) (ops : List PipeOp) :
    PipeLaw r w t acc [] ops ↔ NoDemand ops := by
  have hpos : 0 < acc.length := length_pos_iff.mpr hacc
  induction ops generalizing t acc with
  | nil => exact ⟨fun _ _ hm => (nomatch hm), fun _ => nil_prefix⟩
  | cons op ops ih =>
    cases op with
    | write bytes n =>
      obtain ⟨-, hends, -⟩ := pipeWrite_ends h bytes n
      have hne : acc ++ accepted bytes (pipeWrite t (some w) (some bytes) n).1 ≠ [] :=
        append_ne_nil_of_left_ne_nil hacc _
      have hops := ih hends hne (length_pos_iff.mpr hne)
      constructor
      · rintro ⟨-, hlaw⟩ m hm
        rcases mem_cons.mp hm with heq | hm
        · cases heq
        · exact hops.mp hlaw m hm
      · intro hnd
        exact ⟨ nil_prefix, hops.mpr fun m hm => hnd m (mem_cons_of_mem _ hm)⟩
    | read m =>
      have hops := ih h hacc hpos
      have hstep : PipeLaw r w t acc [] (.read m :: ops) ↔
          [] <+: acc ∧ (0 : Int) = min m (acc.length - 0) ∧ PipeLaw r w t acc [] ops := by
        show (_ ∧ _ ∧ _) ↔ _
        rw [pipeRead_ends h m]
        exact Iff.rfl
      rw [hstep]
      constructor
      · rintro ⟨-, hret, hlaw⟩ k hk
        rcases mem_cons.mp hk with heq | hk
        · cases heq
          omega
        · exact hops.mp hlaw k hk
      · intro hnd
        have hm : m = 0 := hnd m mem_cons_self
        refine ⟨ nil_prefix, by omega, hops.mpr fun k hk => hnd k (mem_cons_of_mem _ hk)⟩

/-- The law of an interleaving on ends that hold no data yet. -/
theorem pipeLaw_iff (h : Ends r w t) (hw : (t w).writePos = 0)
    (ops : List PipeOp) : PipeLaw r w t [] [] ops ↔ ReadsPrecedeData ops := by
  induction ops generalizing t with
  | nil => exact ⟨fun _ => trivial, fun _ => nil_prefix⟩
  | cons op ops ih =>
    cases op with
    | write bytes n =>
      obtain ⟨hret, hends, hpos⟩ := pipeWrite_ends h bytes n
      show ([] <+: [] ∧ PipeLaw r w _ ([] ++ accepted bytes _) [] ops) ↔
        if n = 0 then ReadsPrecedeData ops else NoDemand ops
      by_cases hn : n = 0
      · have hnil : accepted bytes (pipeWrite t (some w) (some bytes) n).1 = [] := by
          rw [hret, hn]
          rfl
        rw [if_pos hn, hnil, nil_append, ih hends (by omega)]
        exact and_iff_right nil_prefix
      · have hsome : accepted bytes (pipeWrite t (some w) (some bytes) n).1 ≠ [] := by
          intro hnil
          have hlen := congrArg List.length hnil
          rw [accepted, length_map, length_range, length_nil] at hlen
          omega
        rw [if_neg hn, nil_append, pipeLaw_iff_noDemand hends hsome]
        exact and_iff_right nil_prefix
    | read m =>
      show (_ ∧ _ ∧ _) ↔ ReadsPrecedeData ops
      rw [pipeRead_ends h m]
      show ([] <+: [] ∧ (0 : Int) = min m (0 - 0) ∧ PipeLaw r w t [] [] ops) ↔ _
      rw [ih h hw]
      constructor
      · exact fun hl => hl.2.2
      · exact fun hl => ⟨ nil_prefix, by omega, hl⟩

/-- **Pipe conservation fails as soon as data is to pass**: for the two ends of a
successful `pipe_create`, the law holds of an interleaving exactly when no read of
a positive count comes after a write of a positive count. -/
theorem pipe_conserves_iff_reads_precede_data {t t' : PipeTable} {r w : PipeId}
    (hcreate : pipeCreate t true true = (0, some (r, w), t')) (ops : List PipeOp) :
    PipeLaw r w t' [] [] ops ↔ ReadsPrecedeData ops := by
  obtain ⟨hends, hpos⟩ := ends_of_pipeCreate hcreate
  exact pipeLaw_iff hends hpos ops

/-- The ends handed out by the first `pipe_create` after `pipe_init`. -/
theorem pipeCreate_first (t : PipeTable) :
    ∃ t', pipeCreate (pipeInit t) true true = (0, some (0, 1), t') :=
  ⟨_, rfl⟩

theorem pipe_conserves_iff_reads_precede_data_first :
    ∃ t', pipeCreate (pipeInit fun _ => zeroPipe) true true = (0, some (0, 1), t') ∧
      (PipeLaw 0 1 t' [] [] [.read 1, .write (fun _ => 65) 1] ↔
        ReadsPrecedeData [.read 1, .write (fun _ => 65) 1]) := by
  obtain ⟨t', ht'⟩ := pipeCreate_first fun _ => zeroPipe
  exact ⟨t', ht', pipe_conserves_iff_reads_precede_data ht' _⟩

/-- One byte written and then asked for is not delivered. -/
theorem pipe_loses_first_byte :
    ∃ t', pipeCreate (pipeInit fun _ => zeroPipe) true true = (0, some (0, 1), t') ∧
      ¬ PipeLaw 0 1 t' [] [] [.write (fun _ => 65) 1, .read 1] := by
  obtain ⟨t', ht'⟩ := pipeCreate_first fun _ => zeroPipe
  obtain ⟨hends, hpos⟩ := ends_of_pipeCreate ht'
  refine ⟨t', ht', fun hlaw => ?_⟩
  have hcond := (pipeLaw_iff hends hpos _).mp hlaw
  have := hcond 1 List.mem_cons_self
  omega

end GosKernel.Ipc
