import GosKernel.Defs
import GosKernel.Lib.Cyclic
import GosKernel.Lib.Run

/-!
# The ring buffer (`src/include/gOS/ring_buffer.h`)

A queue of bytes in a buffer that wraps around. The cell before `tail` stays free, so that
`head == tail` means that the queue is empty.

**`ring_buffer_refines`**: for every capacity, the operations do what they do on an abstract
queue of at most `capacity - 1` bytes.
-/

namespace GosKernel.Container

open Cyclic

/-! ## The code -/

/-- `ring_buffer_t`, with the bytes at `buffer`. -/
structure RingBuffer where
  buffer : Nat → UInt8
  capacity : Nat
  head : Nat
  tail : Nat

/-- `ring_buffer_init` (ring_buffer.h:17-22). -/
def ringBufferInit (buf : Nat → UInt8) (cap : Nat) : RingBuffer := ⟨buf, cap, 0, 0⟩

/-- `ring_buffer_empty` (ring_buffer.h:24-26). -/
def ringBufferEmpty (rb : RingBuffer) : Bool := rb.head = rb.tail

/-- `ring_buffer_full` (ring_buffer.h:28-30). -/
def ringBufferFull (rb : RingBuffer) : Bool := wrap64 (rb.head + 1) % rb.capacity = rb.tail

/-- `ring_buffer_size` (ring_buffer.h:32-36). -/
def ringBufferSize (rb : RingBuffer) : Nat :=
  if rb.tail ≤ rb.head then sub64 rb.head rb.tail
  else wrap64 (sub64 rb.capacity rb.tail + rb.head)

/-- `ring_buffer_push` (ring_buffer.h:38-43). -/
def ringBufferPush (byte : UInt8) (rb : RingBuffer) : Bool × RingBuffer :=
  if ringBufferFull rb then (false, rb)
  else
    (true, { rb with
      buffer := Function.update rb.buffer rb.head byte
      head := wrap64 (rb.head + 1) % rb.capacity })

/-- `ring_buffer_pop` (ring_buffer.h:45-50); `none` is `false`, with `*byte` untouched. -/
def ringBufferPop (rb : RingBuffer) : Option UInt8 × RingBuffer :=
  if ringBufferEmpty rb then (none, rb)
  else (some (rb.buffer rb.tail), { rb with tail := wrap64 (rb.tail + 1) % rb.capacity })

/-- `ring_buffer_clear` (ring_buffer.h:52-55). -/
def ringBufferClear (rb : RingBuffer) : RingBuffer := { rb with head := 0, tail := 0 }

/-! ## Operations, and the queue they are for -/

inductive RingOp
  | push (byte : UInt8)
  | pop
  | clear

/-- What an operation returns. -/
inductive RingResult
  | pushed (ok : Bool)
  | popped (byte : Option UInt8)
  | cleared
deriving DecidableEq

def RingOp.run : RingOp → RingBuffer → RingResult × RingBuffer
  | .push byte, rb => (.pushed (ringBufferPush byte rb).1, (ringBufferPush byte rb).2)
  | .pop, rb => (.popped (ringBufferPop rb).1, (ringBufferPop rb).2)
  | .clear, rb => (.cleared, ringBufferClear rb)

/-- The operation on a queue that holds at most `cap - 1` bytes, the oldest one first. -/
def RingOp.fifo (cap : Nat) : RingOp → List UInt8 → RingResult × List UInt8
  | .push byte, q =>
    if q.length < cap - 1 then (.pushed true, q ++ [byte]) else (.pushed false, q)
  | .pop, [] => (.popped none, [])
  | .pop, byte :: q => (.popped (some byte), q)
  | .clear, _ => (.cleared, [])

/-! ## Refinement -/

/-- The ring holds the queue `q`: the bytes from `tail` on, up to `head`. -/
structure HoldsQueue (cap : Nat) (rb : RingBuffer) (q : List UInt8) : Prop where
  capacity : rb.capacity = cap
  tail_lt : rb.tail < cap
  head : rb.head = (rb.tail + q.length) % cap
  length_lt : q.length < cap
  bytes : held cap rb.buffer rb.tail q.length = q

section Refinement

variable {cap : Nat} {rb : RingBuffer} {q : List UInt8}

section

variable (h : HoldsQueue cap rb q)
include h

theorem HoldsQueue.head_lt : rb.head < cap := by
  rw [h.head]
  exact Nat.mod_lt _ (Nat.zero_lt_of_lt h.tail_lt)

omit h in
theorem ringBufferInit_holds (buf : Nat → UInt8) (hcap : 1 ≤ cap) :
    HoldsQueue cap (ringBufferInit buf cap) [] :=
  ⟨rfl, hcap, (Nat.zero_mod cap).symm, hcap, rfl⟩

theorem HoldsQueue.empty_iff : ringBufferEmpty rb = true ↔ q.length = 0 := by
  rw [ringBufferEmpty, decide_eq_true_iff, h.head]
  exact end_eq_start_iff h.tail_lt h.length_lt

theorem HoldsQueue.next_head (hlt : cap < 2 ^ 64) :
    wrap64 (rb.head + 1) % rb.capacity = (rb.tail + q.length + 1) % cap := by
  have := h.head_lt
  rw [wrap64_of_lt (by omega), h.capacity, h.head, Nat.mod_add_mod]

theorem HoldsQueue.full_iff (hlt : cap < 2 ^ 64) :
    ringBufferFull rb = true ↔ q.length = cap - 1 := by
  have hpos := h.tail_lt
  rw [ringBufferFull, decide_eq_true_iff, h.next_head hlt, ← Nat.mod_add_mod,
    next_end_eq_start_iff h.tail_lt h.length_lt]
  omega

theorem HoldsQueue.size_eq (hlt : cap < 2 ^ 64) : ringBufferSize rb = q.length := by
  have htail := h.tail_lt
  have hlen := h.length_lt
  unfold ringBufferSize
  by_cases hwrap : rb.tail + q.length < cap
  · have heq : rb.head = rb.tail + q.length := h.head.trans (Nat.mod_eq_of_lt hwrap)
    rw [if_pos (by omega), sub64_of_le (by omega) (by omega)]
    omega
  · have heq : rb.head = rb.tail + q.length - cap := by
      rw [h.head, Nat.mod_eq_sub_mod (by omega), Nat.mod_eq_of_lt (by omega)]
    rw [if_neg (by omega), h.capacity, sub64_of_le (by omega) hlt, wrap64_of_lt (by omega)]
    omega

theorem HoldsQueue.push (hlt : cap < 2 ^ 64) (byte : UInt8) (hroom : q.length < cap - 1) :
    ringBufferPush byte rb = (true, (ringBufferPush byte rb).2) ∧
      HoldsQueue cap (ringBufferPush byte rb).2 (q ++ [byte]) := by
  have hfull : ¬ ringBufferFull rb = true := fun hfull => by
    have := (h.full_iff hlt).mp hfull
    omega
  rw [ringBufferPush, if_neg hfull]
  refine ⟨rfl, ⟨h.capacity, h.tail_lt, ?_, ?_, ?_⟩⟩
  · rw [List.length_append]
    exact h.next_head hlt
  · rw [List.length_append, List.length_singleton]
    omega
  · show held cap (Function.update rb.buffer rb.head byte) rb.tail _ = _
    rw [List.length_append, List.length_singleton, h.head, held_push h.length_lt, h.bytes]

end

theorem HoldsQueue.pop {byte : UInt8} (h : HoldsQueue cap rb (byte :: q)) (hlt : cap < 2 ^ 64) :
    ringBufferPop rb = (some byte, (ringBufferPop rb).2) ∧
      HoldsQueue cap (ringBufferPop rb).2 q := by
  have hempty : ¬ ringBufferEmpty rb = true := fun hempty =>
    absurd (h.empty_iff.mp hempty) (Nat.succ_ne_zero q.length)
  have htail := h.tail_lt
  have hlen := h.length_lt
  have hbytes := h.bytes
  rw [List.length_cons] at hlen
  rw [List.length_cons, held_pop htail, List.cons.injEq] at hbytes
  have hnext : wrap64 (rb.tail + 1) % rb.capacity = (rb.tail + 1) % cap := by
    rw [wrap64_of_lt (by omega), h.capacity]
  rw [ringBufferPop, if_neg hempty, hbytes.1]
  refine ⟨rfl, ⟨h.capacity, ?_, ?_, by omega, ?_⟩⟩
  · show wrap64 (rb.tail + 1) % rb.capacity < cap
    rw [hnext]
    exact Nat.mod_lt _ (by omega)
  · show rb.head = (wrap64 (rb.tail + 1) % rb.capacity + q.length) % cap
    rw [hnext, Nat.mod_add_mod, h.head, List.length_cons]
    congr 1
    omega
  · show held cap rb.buffer (wrap64 (rb.tail + 1) % rb.capacity) q.length = q
    rw [hnext]
    exact hbytes.2

/-- One operation on the ring is one operation on the queue. -/
theorem HoldsQueue.run (hcap : 1 ≤ cap) (hlt : cap < 2 ^ 64) (op : RingOp)
    (h : HoldsQueue cap rb q) :
    (op.run rb).1 = (op.fifo cap q).1 ∧ HoldsQueue cap (op.run rb).2 (op.fifo cap q).2 := by
  cases op with
  | push byte =>
    rw [RingOp.run, RingOp.fifo]
    by_cases hroom : q.length < cap - 1
    · obtain ⟨hres, hnext⟩ := h.push hlt byte hroom
      rw [if_pos hroom, hres]
      exact ⟨rfl, hnext⟩
    · have hfull : ringBufferFull rb = true := by
        have := h.length_lt
        exact (h.full_iff hlt).mpr (by omega)
      rw [if_neg hroom, ringBufferPush, if_pos hfull]
      exact ⟨rfl, h⟩
  | pop =>
    cases q with
    | nil =>
      rw [RingOp.run, ringBufferPop, if_pos (h.empty_iff.mpr rfl)]
      exact ⟨rfl, h⟩
    | cons byte q =>
      obtain ⟨hres, hnext⟩ := h.pop hlt
      rw [RingOp.run, hres]
      exact ⟨rfl, hnext⟩
  | clear => exact ⟨rfl, ⟨h.capacity, hcap, (Nat.zero_mod cap).symm, hcap, rfl⟩⟩

end Refinement

/-- **The ring buffer refines a bounded queue.** After any sequence of operations on a new
ring, the results are those of the queue, `ring_buffer_size` is its length, it is empty and
full when the queue is, and both indices are below the capacity. -/
theorem ring_buffer_refines {cap : Nat} (hcap : 1 ≤ cap) (hlt : cap < 2 ^ 64)
    (buf : Nat → UInt8) (ops : List RingOp) :
    ∃ rb q, results RingOp.run ops (ringBufferInit buf cap) =
        ((results (RingOp.fifo cap) ops []).1, rb) ∧
      (results (RingOp.fifo cap) ops []).2 = q ∧ q.length ≤ cap - 1 ∧
      ringBufferSize rb = q.length ∧
      (ringBufferEmpty rb = true ↔ q.length = 0) ∧
      (ringBufferFull rb = true ↔ q.length = cap - 1) ∧
      rb.head < cap ∧ rb.tail < cap := by
  obtain ⟨hres, h⟩ := results_sim (fun op _ _ h => HoldsQueue.run hcap hlt op h)
    (ringBufferInit_holds buf hcap) ops
  exact ⟨_, _, Prod.ext hres rfl, rfl, Nat.le_sub_one_of_lt h.length_lt, h.size_eq hlt, h.empty_iff,
    h.full_iff hlt, h.head_lt, h.tail_lt⟩

/-- Three bytes into a ring of three cells, where two fit. -/
theorem ring_buffer_refines_three : ∃ (rb : RingBuffer) (q : List UInt8),
    results RingOp.run [.push 1, .push 2, .push 3, .pop] (ringBufferInit (fun _ => 0) 3) =
        ([.pushed true, .pushed true, .pushed false, .popped (some 1)], rb) ∧
      q = [2] ∧ ringBufferSize rb = q.length := by
  obtain ⟨rb, q, hres, hq, -, hsize, -⟩ := ring_buffer_refines (show 1 ≤ 3 by decide)
    (by decide) (fun _ => 0) [.push 1, .push 2, .push 3, .pop]
  exact ⟨rb, q, hres, hq.symm, hsize⟩

end GosKernel.Container
