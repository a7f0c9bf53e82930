import GosKernel.Lib.ByteMem
import GosKernel.Lib.Cyclic
import GosKernel.Lib.Run

/-!
# The receive ring of the E1000 (`src/drivers/e1000/e1000_rx.c`)

Here the device fills cells and the driver hands them back. A cell is the driver's from
the moment the device sets its done bit until the driver moves `RDT` over it. As for the
transmit ring, `e1000_rx_packet` is a program counter with one step for each access to what
is shared.

- `rx_ring_safe`: the invariant along every interleaving.
-/

namespace GosKernel.E1000

open Cyclic List Function

/-! ## The code -/

/-- `E1000_RX_DESC_COUNT`. -/
def rxDescCount : Nat := 8

/-- `E1000_RX_BUFFER_SIZE`. -/
def rxBufferSize : Nat := 2048

/-- The members of `e1000_rx_desc_t` that are used. -/
structure RxDesc where
  length : Nat
  status : Nat

/-- `status & 0x01`. -/
def RxDesc.done (d : RxDesc) : Bool := d.status &&& 0x01 ≠ 0

/-- The next access of `e1000_rx_packet` to what is shared, with its local variables. -/
inductive RxPc
  | idle
  | readRdt (maxLen : Nat)
  | readStatus (maxLen tail : Nat)
  | readLength (maxLen tail : Nat)
  | copy (len tail i : Nat)
  | setStatus (len tail : Nat)
  | writeRdt (len tail : Nat)

/-- Registers, ring and buffers, the buffer of the caller, and where the driver is. -/
structure RxState where
  rdh : Nat
  rdt : Nat
  ring : Nat → RxDesc
  buffers : Nat → ByteMem
  buf : ByteMem
  pc : RxPc

/-- What is seen of a step: a frame stored or dropped, a result and the buffer it is in. -/
inductive RxEvent
  | internal
  | store (frame : List UInt8)
  | drop (frame : List UInt8)
  | ret (r : Nat) (buf : ByteMem)

/-- `e1000_rx_init` (e1000_rx.c:17-46). -/
def e1000RxInit : RxState where
  rdh := 0
  rdt := rxDescCount - 1
  ring := fun _ => ⟨0, 0⟩
  buffers := fun _ _ => 0
  buf := fun _ => 0
  pc := .idle

/-- A call of `e1000_rx_packet`, with a buffer of `maxLen` bytes. -/
def e1000RxPacket (buf : ByteMem) (maxLen : Nat) (s : RxState) : RxState :=
  { s with buf := buf, pc := .readRdt maxLen }

/-- A step of `e1000_rx_packet` (e1000_rx.c:49-63). The loop of `memcpy` is part of it. -/
def rxDriver (s : RxState) : RxEvent × RxState :=
  match s.pc with
  | .idle => (.internal, s)
  | .readRdt maxLen =>
    (.internal, { s with pc := .readStatus maxLen ((s.rdt + 1) % rxDescCount) })
  | .readStatus maxLen tail =>
    if (s.ring tail).done then (.internal, { s with pc := .readLength maxLen tail })
    else (.ret 0 s.buf, { s with pc := .idle })
  | .readLength maxLen tail =>
    let len := (s.ring tail).length
    (.internal, { s with pc := .copy (if len > maxLen then maxLen else len) tail 0 })
  | .copy len tail i =>
    if i < len then
      (.internal, { s with
        buf := update s.buf i (s.buffers tail i)
        pc := .copy len tail (i + 1) })
    else (.internal, { s with pc := .setStatus len tail })
  | .setStatus len tail =>
    (.internal, { s with
      ring := update s.ring tail { s.ring tail with status := 0 }
      pc := .writeRdt len tail })
  | .writeRdt len tail => (.ret len s.buf, { s with rdt := tail, pc := .idle })

/-- The device puts a frame in the cell at `RDH`, sets the done bit and goes on. -/
def RxState.store (s : RxState) (frame : List UInt8) : RxState :=
  { s with
    ring := update s.ring s.rdh ⟨frame.length, (s.ring s.rdh).status ||| 0x01⟩
    buffers := update s.buffers s.rdh
      ((s.buffers s.rdh).overlay 0 frame.length (ByteMem.ofList frame))
    rdh := (s.rdh + 1) % rxDescCount }

/-- A frame arrives: it is stored, or dropped if the ring is full. -/
def rxDevice (frame : List UInt8) (s : RxState) : RxEvent × RxState :=
  if s.rdh = s.rdt then (.drop frame, s) else (.store frame, s.store frame)

/-- A step of the system: calls have room for a whole frame. -/
inductive RxStep (s : RxState) : RxEvent → RxState → Prop
  | call (buf : ByteMem) (maxLen : Nat) (h : s.pc = .idle) (hmax : rxBufferSize ≤ maxLen) :
      RxStep s .internal (e1000RxPacket buf maxLen s)
  | driver (h : s.pc ≠ .idle) : RxStep s (rxDriver s).1 (rxDriver s).2
  | device (frame : List UInt8) (hpos : 0 < frame.length) (hle : frame.length ≤ rxBufferSize) :
      RxStep s (rxDevice frame s).1 (rxDevice frame s).2

/-! ## What is seen -/

/-- The frames the device stored. -/
def stored (es : List RxEvent) : List (List UInt8) :=
  es.filterMap fun | .store f => some f | _ => none

/-- The frames of the results that are not zero. -/
def returned (es : List RxEvent) : List (List UInt8) :=
  es.filterMap fun
    | .ret r buf => if r = 0 then none else some ((List.range r).map buf)
    | _ => none

theorem stored_append (es es' : List RxEvent) : stored (es ++ es') = stored es ++ stored es' :=
  filterMap_append

theorem returned_append (es es' : List RxEvent) :
    returned (es ++ es') = returned es ++ returned es' := filterMap_append

/-! ## The invariant -/

/-- The frame in cell `i`. -/
def RxState.frame (s : RxState) (i : Nat) : List UInt8 :=
  (List.range (s.ring i).length).map (s.buffers i)

/-- The first of the cells that belong to the driver. -/
def RxState.first (s : RxState) : Nat := (s.rdt + 1) % rxDescCount

/-- The `n` cells of `[RDT + 1, RDH)`. -/
def RxState.filled (s : RxState) (n : Nat) : List Nat := window rxDescCount s.first n

/-- What a call has found and copied so far, with `n` frames in the ring. -/
def RxPcOk (s : RxState) (n : Nat) : RxPc → Prop
  | .idle => True
  | .readRdt maxLen => rxBufferSize ≤ maxLen
  | .readStatus maxLen tail => rxBufferSize ≤ maxLen ∧ tail = s.first
  | .readLength maxLen tail => rxBufferSize ≤ maxLen ∧ tail = s.first ∧ 0 < n
  | .copy len tail i =>
    (tail = s.first ∧ 0 < n) ∧ len = (s.ring tail).length ∧ i ≤ len ∧
      ∀ j < i, s.buf j = s.buffers tail j
  | .setStatus len tail | .writeRdt len tail =>
    (tail = s.first ∧ 0 < n) ∧ len = (s.ring tail).length ∧ ∀ j < len, s.buf j = s.buffers tail j

/-- The cell whose done bit is cleared but that is not handed back yet. -/
def RxPc.cleared : RxPc → Option Nat
  | .writeRdt _ tail => some tail
  | _ => none

/-- Stored frames are those returned and then the `n` in `[RDT + 1, RDH)`. -/
structure RxInv (es : List RxEvent) (s : RxState) (n : Nat) : Prop where
  rdt_lt : s.rdt < rxDescCount
  n_lt : n < rxDescCount
  rdh_eq : s.rdh = (s.first + n) % rxDescCount
  frames : stored es = returned es ++ held rxDescCount s.frame s.first n
  lengths : ∀ i ∈ s.filled n, 0 < (s.ring i).length ∧ (s.ring i).length ≤ rxBufferSize
  done : ∀ i < rxDescCount,
    (s.ring i).done = true ↔ i ∈ s.filled n ∧ s.pc.cleared ≠ some i
  pcOk : RxPcOk s n s.pc

theorem done_zero (len : Nat) : RxDesc.done ⟨len, 0⟩ = false := by simp [RxDesc.done]

/-- The device sets the done bit. -/
theorem done_or (len status : Nat) : RxDesc.done ⟨len, status ||| 0x01⟩ = true := by
  refine decide_eq_true fun h => ?_
  rw [Nat.and_or_distrib_right] at h
  have hle : 1 &&& 1 ≤ (status &&& 1) ||| (1 &&& 1) := Nat.right_le_or
  rw [h] at hle
  exact absurd hle (by decide)

theorem range_map_overlay (m : ByteMem) (l : List UInt8) :
    (List.range l.length).map (m.overlay 0 l.length (ByteMem.ofList l)) = l := by
  refine ext_getElem (by simp) fun i hi hl => ?_
  rw [List.getElem_map, List.getElem_range]
  refine (if_pos ⟨Nat.zero_le i, by omega⟩).trans ?_
  rw [Nat.sub_zero, ByteMem.ofList, getD_eq_getElem?_getD, List.getElem?_eq_getElem hl]
  rfl

section Steps

variable {s s' : RxState} {es : List RxEvent} {n : Nat}

theorem RxState.first_lt (s : RxState) : s.first < rxDescCount := Nat.mod_lt _ (by decide)

/-- As long as there is a frame, the first cell holds one. -/
theorem RxState.first_mem_filled (s : RxState) (hn : 0 < n) : s.first ∈ s.filled n := by
  obtain ⟨k, rfl⟩ := Nat.exists_eq_succ_of_ne_zero (Nat.ne_of_gt hn)
  rw [RxState.filled, window_cons s.first_lt]
  exact mem_cons_self

variable {buf : ByteMem} {e : RxEvent} {i len tail : Nat}

/-- A step that changes only what belongs to the caller. -/
theorem RxInv.keep {pc : RxPc} (h : RxInv es s n)
    (hstored : stored [e] = []) (hret : returned [e] = []) (hold : s.pc.cleared = none)
    (hnew : pc.cleared = none) (hpc : RxPcOk { s with buf := buf, pc := pc } n pc) :
    RxInv (es ++ [e]) { s with buf := buf, pc := pc } n := by
  refine ⟨h.rdt_lt, h.n_lt, h.rdh_eq, ?_, h.lengths, fun i hi => ?_, hpc⟩
  · rw [stored_append, returned_append, hstored, hret, append_nil, append_nil]
    exact h.frames
  · have hdone := h.done i hi
    rw [hold] at hdone
    rw [show RxPc.cleared _ = none from hnew]
    exact hdone

/-- The done bit of the first cell says whether there is a frame. -/
theorem RxInv.done_first (h : RxInv es s n) (hold : s.pc.cleared = none) :
    (s.ring s.first).done = true ↔ 0 < n := by
  rw [h.done s.first s.first_lt, hold]
  constructor
  · rintro ⟨hmem, -⟩
    have hlen := length_pos_of_mem hmem
    rwa [RxState.filled, length_window] at hlen
  · exact fun hn => ⟨s.first_mem_filled hn, nofun⟩

/-- The bit is cleared, and nothing else changes. -/
theorem RxInv.setStatus (h : RxInv es s n) (hs : s.pc = .setStatus len tail) :
    RxInv (es ++ [.internal]) { s with
      ring := update s.ring tail { s.ring tail with status := 0 }
      pc := .writeRdt len tail } n := by
  have hpc := h.pcOk
  rw [hs] at hpc
  have hlen : ∀ i, (update s.ring tail { s.ring tail with status := 0 } i).length
      = (s.ring i).length := by
    intro i
    by_cases hi : i = tail
    · rw [hi, update_self]
    · rw [update_of_ne hi]
  refine ⟨h.rdt_lt, h.n_lt, h.rdh_eq, ?_, fun i hi => ?_, fun i hi => ?_, hpc.1, ?_, hpc.2.2⟩
  · -- lengths and buffers stay, so the frames do
    have hheld : ∀ ring', (∀ i, (ring' i).length = (s.ring i).length) →
        held rxDescCount (RxState.frame { s with ring := ring', pc := .writeRdt len tail }) s.first n
          = held rxDescCount s.frame s.first n := by
      intro ring' hring
      refine held_congr fun i _ => ?_
      show (List.range (ring' i).length).map (s.buffers i) = _
      rw [hring]
      rfl
    rw [stored_append, returned_append, append_assoc]
    refine (append_nil _).trans (h.frames.trans ?_)
    exact congrArg _ (hheld _ hlen).symm
  · show 0 < (update s.ring tail _ i).length ∧ _ ≤ rxBufferSize
    rw [hlen]
    exact h.lengths i hi
  · have hdone := h.done i hi
    rw [hs] at hdone
    show (update s.ring tail _ i).done = true ↔ _ ∧ some tail ≠ some i
    by_cases hit : i = tail
    · subst hit
      rw [update_self]
      refine ⟨fun hd => ?_, fun hd => absurd rfl hd.2⟩
      exact absurd ((done_zero _).symm.trans hd) Bool.false_ne_true
    · rw [update_of_ne hit, hdone]
      exact and_congr_right fun _ =>
        ⟨fun _ heq => hit (Option.some.inj heq).symm, fun _ => nofun⟩
  · show len = (update s.ring tail _ tail).length
    rw [hlen]
    exact hpc.2.1

/-- The first cell is handed back, and its frame is what the caller has. -/
theorem RxInv.writeRdt (h : RxInv es s n) (hs : s.pc = .writeRdt len tail) :
    ∃ n', RxInv (es ++ [.ret len s.buf]) { s with rdt := tail, pc := .idle } n' := by
  have hpc := h.pcOk
  rw [hs] at hpc
  obtain ⟨⟨rfl, hpos⟩, hlen, hcopied⟩ := hpc
  obtain ⟨k, rfl⟩ := Nat.exists_eq_succ_of_ne_zero (Nat.ne_of_gt hpos)
  have hk := h.n_lt
  have hwindow : s.filled (k + 1) = s.first :: window rxDescCount ((s.first + 1) % rxDescCount) k :=
    window_cons s.first_lt k
  have hnodup : (s.filled (k + 1)).Nodup := window_nodup (Nat.le_of_lt hk)
  -- the caller has the frame of the first cell, which is not empty
  have hframe : (List.range len).map s.buf = s.frame s.first := by
    rw [hlen]
    exact map_congr_left fun j hj => hcopied j (hlen ▸ mem_range.mp hj)
  have hlen0 : len ≠ 0 := by
    rw [hlen]
    exact Nat.ne_of_gt (h.lengths s.first (s.first_mem_filled hpos)).1
  refine ⟨k, s.first_lt, by omega, ?_, ?_, fun i hi => ?_, fun i hi => ?_, trivial⟩
  · show s.rdh = ((s.first + 1) % rxDescCount + k) % rxDescCount
    rw [h.rdh_eq, Nat.mod_add_mod, Nat.add_assoc, Nat.add_comm 1 k]
  · have hret : returned [RxEvent.ret len s.buf] = [s.frame s.first] := by
      simp [returned, hlen0, hframe]
    have hframes := h.frames
    rw [held_pop s.first_lt] at hframes
    rw [stored_append, returned_append, hret, append_assoc]
    exact (append_nil _).trans hframes
  · exact h.lengths i (hwindow ▸ mem_cons_of_mem _ hi)
  · have hdone := h.done i hi
    rw [hs, hwindow] at hdone
    rw [hwindow] at hnodup
    refine hdone.trans ⟨fun ⟨hmem, hne⟩ => ⟨?_, nofun⟩, fun ⟨hmem, _⟩ => ⟨?_, ?_⟩⟩
    · exact (mem_cons.mp hmem).resolve_left fun hi => hne (hi ▸ rfl)
    · exact mem_cons_of_mem _ hmem
    · rintro heq
      cases heq
      exact (nodup_cons.mp hnodup).1 hmem

/-! ## The device -/

variable {frame : List UInt8}

theorem store_ring_of_ne (hi : i ≠ s.rdh) : (s.store frame).ring i = s.ring i :=
  update_of_ne hi ..

theorem store_ring_self :
    (s.store frame).ring s.rdh = ⟨frame.length, (s.ring s.rdh).status ||| 0x01⟩ :=
  update_self ..

theorem store_buffers_of_ne (hi : i ≠ s.rdh) : (s.store frame).buffers i = s.buffers i :=
  update_of_ne hi ..

theorem store_frame_of_ne (hi : i ≠ s.rdh) : (s.store frame).frame i = s.frame i := by
  rw [RxState.frame, store_ring_of_ne hi, store_buffers_of_ne hi]
  rfl

theorem store_frame_self : (s.store frame).frame s.rdh = frame := by
  have hbuf : (s.store frame).buffers s.rdh
      = (s.buffers s.rdh).overlay 0 frame.length (ByteMem.ofList frame) := update_self ..
  rw [RxState.frame, store_ring_self, hbuf]
  exact range_map_overlay _ _

/-- The call in progress looks at the first cell only. -/
theorem RxPcOk.store (hpc : RxPcOk s n s.pc) (hfirst : 0 < n → s.first ≠ s.rdh) :
    RxPcOk (s.store frame) (n + 1) s.pc := by
  have hcell : 0 < n → (s.store frame).ring s.first = s.ring s.first ∧
      (s.store frame).buffers s.first = s.buffers s.first :=
    fun hn => ⟨store_ring_of_ne (hfirst hn), store_buffers_of_ne (hfirst hn)⟩
  cases hs : s.pc <;> rw [hs] at hpc
  case idle => trivial
  case readRdt => exact hpc
  case readStatus => exact hpc
  case readLength => exact ⟨hpc.1, hpc.2.1, Nat.succ_pos n⟩
  all_goals
    obtain ⟨⟨rfl, hn⟩, hread⟩ := hpc
    rw [← (hcell hn).1, ← (hcell hn).2] at hread
    exact ⟨⟨rfl, Nat.succ_pos n⟩, hread⟩

/-- The frame goes to the cell behind the last one. -/
theorem RxInv.store (h : RxInv es s n) (hpos : 0 < frame.length)
    (hle : frame.length ≤ rxBufferSize) (hroom : s.rdh ≠ s.rdt) :
    RxInv (es ++ [.store frame]) (s.store frame) (n + 1) := by
  -- with all cells but one filled, `RDH` would be at `RDT`
  have hlast : n + 1 < rxDescCount := by
    refine Nat.lt_of_le_of_ne h.n_lt fun heq => hroom ?_
    rw [h.rdh_eq, RxState.first, Nat.mod_add_mod, Nat.add_assoc, Nat.add_comm 1 n, heq,
      Nat.add_mod_right, Nat.mod_eq_of_lt h.rdt_lt]
  have hout : s.rdh ∉ s.filled n := by
    rw [h.rdh_eq]
    exact end_not_mem_window h.n_lt
  have hne : ∀ i ∈ s.filled n, i ≠ s.rdh := fun i hi heq => hout (heq ▸ hi)
  have hsucc : (s.store frame).filled (n + 1) = s.filled n ++ [s.rdh] := by
    rw [h.rdh_eq]
    exact window_succ ..
  refine ⟨h.rdt_lt, hlast, ?_, ?_, fun i hi => ?_, fun i hi => ?_, ?_⟩
  · show (s.rdh + 1) % rxDescCount = (s.first + (n + 1)) % rxDescCount
    rw [h.rdh_eq, Nat.mod_add_mod, Nat.add_assoc]
  · have hheld : held rxDescCount (s.store frame).frame s.first (n + 1)
        = held rxDescCount s.frame s.first n ++ [frame] := by
      rw [held_succ, ← h.rdh_eq, store_frame_self,
        held_congr fun i hi => store_frame_of_ne (hne i hi)]
    rw [stored_append, returned_append, append_assoc, h.frames, append_assoc]
    exact congrArg _ hheld.symm
  · rw [hsucc] at hi
    rcases mem_append.mp hi with hi | hi
    · rw [store_ring_of_ne (hne i hi)]
      exact h.lengths i hi
    · rw [mem_singleton.mp hi, store_ring_self]
      exact ⟨hpos, hle⟩
  · rw [hsucc, mem_append, mem_singleton]
    by_cases hir : i = s.rdh
    · -- the cell whose bit is cleared is a filled one, so not this one
      subst hir
      rw [store_ring_self]
      refine ⟨fun _ => ⟨.inr rfl, fun hcl => ?_⟩, fun _ => done_or _ _⟩
      have hcl : s.pc.cleared = some s.rdh := hcl
      have hpc := h.pcOk
      cases hs : s.pc <;> rw [hs] at hcl hpc <;> cases hcl
      exact hout (hpc.1.1 ▸ s.first_mem_filled hpc.1.2)
    · rw [store_ring_of_ne hir, h.done i hi]
      exact and_congr_left fun _ => ⟨.inl, fun hi => hi.resolve_right hir⟩
  · exact h.pcOk.store fun hn => hne _ (s.first_mem_filled hn)

theorem RxInv.device (h : RxInv es s n) (hpos : 0 < frame.length)
    (hle : frame.length ≤ rxBufferSize) :
    ∃ n', RxInv (es ++ [(rxDevice frame s).1]) (rxDevice frame s).2 n' := by
  unfold rxDevice
  split
  · refine ⟨n, h.rdt_lt, h.n_lt, h.rdh_eq, ?_, h.lengths, h.done, h.pcOk⟩
    rw [stored_append, returned_append, append_assoc]
    exact (append_nil _).trans h.frames
  next hroom => exact ⟨n + 1, h.store hpos hle hroom⟩

/-! ## The driver -/

theorem RxInv.driver (h : RxInv es s n) (hbusy : s.pc ≠ .idle) :
    ∃ n', RxInv (es ++ [(rxDriver s).1]) (rxDriver s).2 n' := by
  have hpc := h.pcOk
  unfold rxDriver
  cases hs : s.pc <;> rw [hs] at hpc <;> dsimp only
  case idle => exact absurd hs hbusy
  case readRdt maxLen => exact ⟨n, h.keep rfl rfl (by rw [hs]; rfl) rfl ⟨hpc, rfl⟩⟩
  case readStatus maxLen tail =>
    obtain ⟨hmax, rfl⟩ := hpc
    have hold : s.pc.cleared = none := by rw [hs]; rfl
    split
    next hdone => exact ⟨n, h.keep rfl rfl hold rfl ⟨hmax, rfl, (h.done_first hold).mp hdone⟩⟩
    · exact ⟨n, h.keep rfl rfl hold rfl trivial⟩
  case readLength maxLen tail =>
    obtain ⟨hmax, rfl, hn⟩ := hpc
    have hle := (h.lengths s.first (s.first_mem_filled hn)).2
    refine ⟨n, h.keep rfl rfl (by rw [hs]; rfl) rfl ⟨⟨rfl, hn⟩, ?_, Nat.zero_le _, nofun⟩⟩
    exact if_neg (Nat.not_lt.mpr (Nat.le_trans hle hmax))
  case copy len tail i =>
    obtain ⟨hread, hlen, hi, hcopied⟩ := hpc
    split
    next hlt =>
      refine ⟨n, h.keep rfl rfl (by rw [hs]; rfl) rfl ⟨hread, hlen, hlt, fun j hj => ?_⟩⟩
      show update s.buf i (s.buffers tail i) j = _
      by_cases hji : j = i
      · rw [hji, update_self]
      · rw [update_of_ne hji]
        exact hcopied j (by omega)
    next hdone =>
      exact ⟨n, h.keep rfl rfl (by rw [hs]; rfl) rfl
        ⟨hread, hlen, fun j hj => hcopied j (by omega)⟩⟩
  case setStatus len tail => exact ⟨n, h.setStatus hs⟩
  case writeRdt len tail => exact h.writeRdt hs

theorem RxInv.init : RxInv [] e1000RxInit 0 := by
  refine ⟨by decide, by decide, rfl, rfl, nofun, fun i _ => ⟨fun hd => ?_, nofun⟩, trivial⟩
  exact absurd ((done_zero 0).symm.trans hd) Bool.false_ne_true

theorem RxInv.step (h : RxInv es s n) (hstep : RxStep s e s') : ∃ n', RxInv (es ++ [e]) s' n' := by
  cases hstep with
  | call buf maxLen hidle hmax =>
    exact ⟨n, h.keep rfl rfl (by rw [hidle]; rfl) rfl hmax⟩
  | driver hbusy => exact h.driver hbusy
  | device frame hpos hle => exact h.device hpos hle

/-- A call that finds nothing is made when nothing waits. -/
theorem RxInv.empty (h : RxInv es s n) (hstep : RxStep s (.ret 0 buf) s') : n = 0 := by
  have hpc := h.pcOk
  generalize he : RxEvent.ret 0 buf = e at hstep
  cases hstep with
  | call => cases he
  | device frame hpos hle =>
    unfold rxDevice at he
    split at he <;> cases he
  | driver hbusy =>
    unfold rxDriver at he
    cases hs : s.pc <;> rw [hs] at he hpc <;> dsimp only at he
    case readStatus maxLen tail =>
      have hold : s.pc.cleared = none := by rw [hs]; rfl
      split at he
      · cases he
      next hdone =>
        rw [hpc.2, h.done_first hold] at hdone
        omega
    case copy => split at he <;> cases he
    case writeRdt len tail =>
      obtain ⟨⟨rfl, hn⟩, hlen, -⟩ := hpc
      have hpos := (h.lengths s.first (s.first_mem_filled hn)).1
      rw [← hlen] at hpos
      cases he
      exact absurd hpos (Nat.lt_irrefl 0)
    all_goals cases he

end Steps

/-- **Receive ring safety.** After any interleaving of calls, steps of the driver and frames
that arrive, the frames stored are those returned, in order and with their bytes, followed
by those in `[RDT + 1, RDH)`. The done bit is set on these cells and on no other, unless the
driver has cleared it on the first one and is about to write `RDT`. A call returns `0` only
if all the frames stored have been returned. -/
theorem rx_ring_safe {es : List RxEvent} {s : RxState} (hrun : Run RxStep e1000RxInit es s) :
    (∃ n, n < rxDescCount ∧ s.rdt < rxDescCount ∧
      s.rdh = ((s.rdt + 1) % rxDescCount + n) % rxDescCount ∧
      stored es = returned es ++ held rxDescCount s.frame ((s.rdt + 1) % rxDescCount) n ∧
      ((∀ len tail, s.pc ≠ .writeRdt len tail) → ∀ i < rxDescCount,
        (s.ring i).done = true ↔ i ∈ window rxDescCount ((s.rdt + 1) % rxDescCount) n)) ∧
    ∀ buf s', RxStep s (.ret 0 buf) s' → stored es = returned es := by
  obtain ⟨n, h⟩ : ∃ n, RxInv es s n :=
    hrun.trace_invariant (I := fun es s => ∃ n, RxInv es s n)
      (fun _ _ _ _ ⟨_, h⟩ hstep => h.step hstep) ⟨0, RxInv.init⟩
  refine ⟨⟨n, h.n_lt, h.rdt_lt, h.rdh_eq, h.frames, fun hpc i hi => ?_⟩, fun buf s' hstep => ?_⟩
  · have hold : s.pc.cleared = none := by
      cases hs : s.pc <;> try rfl
      exact absurd hs (hpc _ _)
    rw [h.done i hi, hold]
    exact and_iff_left nofun
  · have hn := h.empty hstep
    have hframes := h.frames
    rw [hn] at hframes
    exact hframes.trans (List.append_nil _)

/-- A frame of one byte is stored and returned. -/
theorem rx_ring_safe_one : ∃ es s, Run RxStep e1000RxInit es s ∧ stored es = [[7]] ∧
    returned es = [[7]] ∧ (s.rdt = 0 ∧ s.rdh = 1) ∧
    ∀ buf s', RxStep s (.ret 0 buf) s' → stored es = returned es := by
  have hdevice : RxStep e1000RxInit _ _ := .device [7] (by decide) (by decide)
  have hrun : Run RxStep e1000RxInit _ _ :=
    .cons hdevice <| .cons (.call (fun _ => 0) 2048 rfl (by decide)) <| .cons (.driver nofun) <|
      .cons (.driver nofun) <| .cons (.driver nofun) <| .cons (.driver nofun) <|
      .cons (.driver nofun) <| .cons (.driver nofun) <| .cons (.driver nofun) <| .nil _
  exact ⟨_, _, hrun, rfl, rfl, ⟨rfl, rfl⟩, (rx_ring_safe hrun).2⟩

end GosKernel.E1000
