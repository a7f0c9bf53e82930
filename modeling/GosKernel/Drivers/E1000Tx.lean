import GosKernel.Lib.ByteMem
import GosKernel.Lib.Cyclic
import GosKernel.Lib.Run

/-!
# The transmit ring of the E1000 (`src/drivers/e1000/e1000_tx.c`)

The driver and the device share eight descriptors with their buffers and two registers.
The device may move between any two accesses of the driver, so `e1000_tx_packet` is given
as a program counter with one step for each access to what is shared; steps of the driver
and of the device then interleave freely.

- `tx_ring_safe`: the invariant along every interleaving.
-/

namespace GosKernel.E1000

open Cyclic List Function

/-! ## The code -/

/-- `E1000_TX_DESC_COUNT`. -/
def txDescCount : Nat := 8

/-- `E1000_TX_BUFFER_SIZE`. -/
def txBufferSize : Nat := 2048

/-- The members of `e1000_tx_desc_t` that change after `e1000_tx_init`. -/
structure TxDesc where
  length : Nat
  cmd : Nat
  status : Nat

/-- The arguments of a call. -/
structure TxCall where
  data : ByteMem
  len : Nat

/-- The bytes to be sent. -/
def TxCall.frame (c : TxCall) : List UInt8 := (List.range c.len).map c.data

/-- The next access of `e1000_tx_packet` to what is shared, with its local variables. -/
inductive TxPc
  | idle
  | readTdt (c : TxCall)
  | readTdh (c : TxCall) (tail : Nat)
  | copy (c : TxCall) (tail i : Nat)
  | setLength (c : TxCall) (tail : Nat)
  | setCmd (c : TxCall) (tail : Nat)
  | setStatus (c : TxCall) (tail : Nat)
  | writeTdt (c : TxCall) (tail : Nat)
  | wait (c : TxCall) (tail i : Nat)

/-- Registers, ring and buffers, and where the driver is. -/
structure TxState where
  tdh : Nat
  tdt : Nat
  ring : Nat → TxDesc
  buffers : Nat → ByteMem
  pc : TxPc

/-- What is seen of a step: a call that takes effect, a frame on the wire, a result. -/
inductive TxEvent
  | internal
  | accept (frame : List UInt8)
  | transmit (frame : List UInt8)
  | ret (r : Int)

/-- `e1000_tx_init` (e1000_tx.c:20-45). -/
def e1000TxInit : TxState where
  tdh := 0
  tdt := 0
  ring := fun _ => ⟨0, 0, 1⟩
  buffers := fun _ _ => 0
  pc := .idle

/-- The entry of `e1000_tx_packet` (e1000_tx.c:47-48). -/
def e1000TxPacket (c : TxCall) (s : TxState) : TxEvent × TxState :=
  if c.len > txBufferSize then (.ret (-1), s) else (.internal, { s with pc := .readTdt c })

/-- Change the descriptor of cell `i`. -/
def TxState.setDesc (s : TxState) (i : Nat) (f : TxDesc → TxDesc) : TxState :=
  { s with ring := update s.ring i (f (s.ring i)) }

/-- A step of `e1000_tx_packet` (e1000_tx.c:50-71). The loop of `memcpy` is part of it. -/
def txDriver (s : TxState) : TxEvent × TxState :=
  match s.pc with
  | .idle => (.internal, s)
  | .readTdt c => (.internal, { s with pc := .readTdh c s.tdt })
  | .readTdh c tail =>
    if (tail + 1) % txDescCount = s.tdh then (.ret (-1), { s with pc := .idle })
    else (.internal, { s with pc := .copy c tail 0 })
  | .copy c tail i =>
    if i < c.len then
      (.internal, { s with
        buffers := update s.buffers tail
          (update (s.buffers tail) i (c.data i))
        pc := .copy c tail (i + 1) })
    else (.internal, { s with pc := .setLength c tail })
  | .setLength c tail =>
    (.internal, { s.setDesc tail ({ · with length := c.len % 2 ^ 16 }) with pc := .setCmd c tail })
  | .setCmd c tail =>
    (.internal, { s.setDesc tail ({ · with cmd := 0x01 ||| 0x08 }) with pc := .setStatus c tail })
  | .setStatus c tail =>
    (.internal, { s.setDesc tail ({ · with status := 0 }) with pc := .writeTdt c tail })
  | .writeTdt c tail =>
    (.accept c.frame, { s with tdt := (tail + 1) % txDescCount, pc := .wait c tail 0 })
  | .wait c tail i =>
    if i < 10000 ∧ (s.ring tail).status &&& 0x01 = 0 then
      (.internal, { s with pc := .wait c tail (i + 1) })
    else (.ret c.len, { s with pc := .idle })

/-- The frame in cell `i`. -/
def TxState.frame (s : TxState) (i : Nat) : List UInt8 :=
  (List.range (s.ring i).length).map (s.buffers i)

/-- The device sends the frame at `TDH`, sets the done bit and goes on. -/
def txDevice (s : TxState) : TxEvent × TxState :=
  (.transmit (s.frame s.tdh),
    { s.setDesc s.tdh (fun d => { d with status := d.status ||| 0x01 }) with
      tdh := (s.tdh + 1) % txDescCount })

/-- A step of the system. There is one caller, who calls again after a return. -/
inductive TxStep (s : TxState) : TxEvent → TxState → Prop
  | call (c : TxCall) (h : s.pc = .idle) :
      TxStep s (e1000TxPacket c s).1 (e1000TxPacket c s).2
  | driver (h : s.pc ≠ .idle) : TxStep s (txDriver s).1 (txDriver s).2
  | device (h : s.tdh ≠ s.tdt) : TxStep s (txDevice s).1 (txDevice s).2

/-! ## What is seen -/

/-- The frames of the calls that wrote `TDT`. -/
def accepted (es : List TxEvent) : List (List UInt8) :=
  es.filterMap fun | .accept f => some f | _ => none

/-- The frames sent by the device. -/
def transmitted (es : List TxEvent) : List (List UInt8) :=
  es.filterMap fun | .transmit f => some f | _ => none

/-- The results that are not negative. -/
def sentLengths (es : List TxEvent) : List Int :=
  es.filterMap fun | .ret r => if 0 ≤ r then some r else none | _ => none

theorem accepted_append (es es' : List TxEvent) :
    accepted (es ++ es') = accepted es ++ accepted es' := filterMap_append

theorem transmitted_append (es es' : List TxEvent) :
    transmitted (es ++ es') = transmitted es ++ transmitted es' := filterMap_append

theorem sentLengths_append (es es' : List TxEvent) :
    sentLengths (es ++ es') = sentLengths es ++ sentLengths es' := filterMap_append

/-- The length a call will return that has written `TDT`. -/
def TxPc.pending : TxPc → List Int
  | .wait c _ _ => [(c.len : Int)]
  | _ => []

/-! ## The invariant -/

/-- The call has room and owns the cell at `TDT`. -/
structure Owns (s : TxState) (n : Nat) (c : TxCall) (tail : Nat) : Prop where
  len_le : c.len ≤ txBufferSize
  tail_eq : tail = s.tdt
  room : n + 1 < txDescCount

/-- What a call has done so far, with `n` frames in the ring. -/
def TxPcOk (s : TxState) (n : Nat) : TxPc → Prop
  | .idle | .wait .. => True
  | .readTdt c => c.len ≤ txBufferSize
  | .readTdh c tail => c.len ≤ txBufferSize ∧ tail = s.tdt
  | .copy c tail i => Owns s n c tail ∧ i ≤ c.len ∧ ∀ j < i, s.buffers tail j = c.data j
  | .setLength c tail => Owns s n c tail ∧ ∀ j < c.len, s.buffers tail j = c.data j
  | .setCmd c tail | .setStatus c tail | .writeTdt c tail =>
    Owns s n c tail ∧ s.frame tail = c.frame

/-- Accepted frames are those sent and then the `n` in `[TDH, TDT)`. -/
structure TxInv (es : List TxEvent) (s : TxState) (n : Nat) : Prop where
  tdh_lt : s.tdh < txDescCount
  n_lt : n < txDescCount
  tdt_eq : s.tdt = (s.tdh + n) % txDescCount
  frames : accepted es = transmitted es ++ held txDescCount s.frame s.tdh n
  lengths : (accepted es).map (fun f => (f.length : Int)) = sentLengths es ++ s.pc.pending
  pcOk : TxPcOk s n s.pc

section Steps

variable {s s' : TxState} {es : List TxEvent} {n : Nat}

variable {c : TxCall} {e : TxEvent} {i tail : Nat}

theorem frame_congr (hlen : (s'.ring i).length = (s.ring i).length)
    (hbuf : ∀ j < (s.ring i).length, s'.buffers i j = s.buffers i j) : s'.frame i = s.frame i := by
  unfold TxState.frame
  rw [hlen]
  exact map_congr_left fun j hj => hbuf j (mem_range.mp hj)

/-- A descriptor changed in what is not its length, or another descriptor changed. -/
theorem frame_desc {k : Nat} {d : TxDesc} (hring : s'.ring = update s.ring k d)
    (hbuf : s'.buffers = s.buffers) (h : i = k → d.length = (s.ring k).length) :
    s'.frame i = s.frame i := by
  refine frame_congr ?_ fun _ _ => by rw [hbuf]
  by_cases hik : i = k
  · subst hik
    rw [hring, update_self, h rfl]
  · rw [hring, update_of_ne hik]

section

variable (h : TxInv es s n)
include h

theorem TxInv.tdt_not_mem : s.tdt ∉ window txDescCount s.tdh n := by
  rw [h.tdt_eq]
  exact end_not_mem_window h.n_lt

/-- A step that changes no register and no waiting frame. -/
theorem TxInv.keep (htdh : s'.tdh = s.tdh)
    (htdt : s'.tdt = s.tdt) (hframe : ∀ i ≠ s.tdt, s'.frame i = s.frame i)
    (hacc : accepted [e] = []) (htrans : transmitted [e] = [])
    (hpend : sentLengths [e] ++ s'.pc.pending = s.pc.pending) (hpc : TxPcOk s' n s'.pc) :
    TxInv (es ++ [e]) s' n := by
  -- the cell at `TDT` may change, since it is not one of those that wait
  have hheld : held txDescCount s'.frame s'.tdh n = held txDescCount s.frame s.tdh n := by
    rw [htdh]
    exact held_congr fun i hi => hframe i fun hit => h.tdt_not_mem (hit ▸ hi)
  refine ⟨htdh ▸ h.tdh_lt, h.n_lt, by rw [htdt, htdh, h.tdt_eq], ?_, ?_, hpc⟩
  · rw [accepted_append, transmitted_append, hacc, htrans, hheld, append_nil,
      append_nil, h.frames]
  · rw [accepted_append, sentLengths_append, hacc, append_nil, append_assoc, hpend,
      h.lengths]

theorem TxInv.goto {pc : TxPc} (hacc : accepted [e] = [])
    (htrans : transmitted [e] = []) (hpend : sentLengths [e] ++ pc.pending = s.pc.pending)
    (hpc : TxPcOk { s with pc := pc } n pc) : TxInv (es ++ [e]) { s with pc := pc } n :=
  h.keep rfl rfl (fun _ _ => rfl) hacc htrans hpend hpc

theorem TxInv.call (c : TxCall) (hidle : s.pc = .idle) :
    TxInv (es ++ [(e1000TxPacket c s).1]) (e1000TxPacket c s).2 n := by
  unfold e1000TxPacket
  split
  · exact h.keep rfl rfl (fun _ _ => rfl) rfl rfl rfl h.pcOk
  next hlen =>
    exact h.goto rfl rfl (by rw [hidle]; rfl) (Nat.le_of_not_lt hlen)

/-- The device leaves the frames as they are, and takes the first of them. -/
theorem TxInv.device (hne : s.tdh ≠ s.tdt) :
    ∃ n', TxInv (es ++ [(txDevice s).1]) (txDevice s).2 n' := by
  have hframe : (txDevice s).2.frame = s.frame :=
    funext fun i => frame_desc (k := s.tdh) rfl rfl fun _ => rfl
  have hpos : n ≠ 0 := fun hn => hne (by
    rw [h.tdt_eq, hn, Nat.add_zero, Nat.mod_eq_of_lt h.tdh_lt])
  obtain ⟨k, rfl⟩ := Nat.exists_eq_succ_of_ne_zero hpos
  have hk := h.n_lt
  refine ⟨k, Nat.mod_lt _ (by decide), by omega, ?_, ?_, ?_, ?_⟩
  · show s.tdt = ((s.tdh + 1) % txDescCount + k) % txDescCount
    rw [h.tdt_eq, Nat.mod_add_mod, Nat.add_assoc, Nat.add_comm 1 k]
  · have hframes := h.frames
    rw [held_pop h.tdh_lt] at hframes
    rw [accepted_append, transmitted_append, hframe, append_assoc]
    exact (append_nil _).trans hframes
  · rw [accepted_append, sentLengths_append, append_assoc]
    exact (congrArg (List.map _) (append_nil _)).trans h.lengths
  · -- what the call in progress wrote is still there, and there is more room
    have hown : ∀ c tail, Owns s (k + 1) c tail → Owns (txDevice s).2 k c tail :=
      fun c tail ho => ⟨ho.len_le, ho.tail_eq, Nat.lt_of_succ_lt ho.room⟩
    have hpc := h.pcOk
    show TxPcOk (txDevice s).2 k s.pc
    cases hs : s.pc <;> rw [hs] at hpc
    case idle => trivial
    case readTdt => exact hpc
    case readTdh => exact hpc
    case wait => trivial
    case copy c tail i => exact ⟨hown c tail hpc.1, hpc.2⟩
    case setLength c tail => exact ⟨hown c tail hpc.1, hpc.2⟩
    all_goals exact ⟨hown _ _ hpc.1, by rw [hframe]; exact hpc.2⟩

/-- The byte at `i` joins the bytes copied. -/
theorem TxInv.copyByte (hs : s.pc = .copy c tail i) (hlt : i < c.len) :
    TxInv (es ++ [.internal]) { s with
      buffers := update s.buffers tail (update (s.buffers tail) i (c.data i))
      pc := .copy c tail (i + 1) } n := by
  have hpc := h.pcOk
  rw [hs] at hpc
  obtain ⟨hown, -, hcopied⟩ := hpc
  refine h.keep rfl rfl (fun k hk => frame_congr rfl fun j _ => ?_) rfl rfl (by rw [hs]; rfl) ?_
  · exact congrFun (update_of_ne (hown.tail_eq ▸ hk) ..) j
  · refine ⟨⟨hown.len_le, hown.tail_eq, hown.room⟩, hlt, fun j hj => ?_⟩
    show update s.buffers tail _ tail j = _
    rw [update_self]
    by_cases hji : j = i
    · rw [hji, update_self]
    · rw [update_of_ne hji, hcopied j (by omega)]

/-- The bytes are in the buffer, and now the descriptor says how many they are. -/
theorem TxInv.setLength (hs : s.pc = .setLength c tail) :
    TxInv (es ++ [.internal])
      { s.setDesc tail ({ · with length := c.len % 2 ^ 16 }) with pc := .setCmd c tail } n := by
  have hpc := h.pcOk
  rw [hs] at hpc
  obtain ⟨hown, hcopied⟩ := hpc
  -- the length member has 16 bits
  have hlen : c.len % 2 ^ 16 = c.len :=
    Nat.mod_eq_of_lt (Nat.lt_of_le_of_lt hown.len_le (by decide))
  refine h.keep rfl rfl (fun k hk => frame_desc (k := tail) rfl rfl fun hkt => ?_) rfl rfl
    (by rw [hs]; rfl) ⟨⟨hown.len_le, hown.tail_eq, hown.room⟩, ?_⟩
  · exact absurd (hkt.trans hown.tail_eq) hk
  · show (List.range (update s.ring tail _ tail).length).map _ = c.frame
    rw [update_self]
    rw [hlen]
    exact map_congr_left fun j hj => hcopied j (mem_range.mp hj)

theorem TxInv.setOther {d : TxDesc} {pc : TxPc}
    (hown : Owns s n c tail) (hframe : s.frame tail = c.frame)
    (hd : d.length = (s.ring tail).length) (hpend : pc.pending = s.pc.pending)
    (hpc : ∀ s', Owns s' n c tail → s'.frame tail = c.frame → TxPcOk s' n pc) :
    TxInv (es ++ [.internal])
      { s with ring := update s.ring tail d, pc := pc } n := by
  have hkeep : ∀ i, TxState.frame
      { s with ring := update s.ring tail d, pc := pc } i = s.frame i :=
    fun i => frame_desc (k := tail) rfl rfl fun _ => hd
  refine h.keep rfl rfl (fun i _ => hkeep i) rfl rfl hpend (hpc _ ?_ ?_)
  · exact ⟨hown.len_le, hown.tail_eq, hown.room⟩
  · rw [hkeep, hframe]

/-- The cell behind the last one joins the cells that wait. -/
theorem TxInv.writeTdt (hs : s.pc = .writeTdt c tail) :
    TxInv (es ++ [.accept c.frame])
      { s with tdt := (tail + 1) % txDescCount, pc := .wait c tail 0 } (n + 1) := by
  have hpc := h.pcOk
  have hpend := h.lengths
  rw [hs] at hpc hpend
  obtain ⟨hown, hframe⟩ := hpc
  have htail : tail = (s.tdh + n) % txDescCount := hown.tail_eq.trans h.tdt_eq
  refine ⟨h.tdh_lt, hown.room, ?_, ?_, ?_, trivial⟩
  · show (tail + 1) % txDescCount = _
    rw [htail, Nat.mod_add_mod, Nat.add_assoc]
  · have hheld : held txDescCount s.frame s.tdh (n + 1)
        = held txDescCount s.frame s.tdh n ++ [c.frame] := by
      rw [held_succ, ← htail, hframe]
    show accepted (es ++ [.accept c.frame]) = _ ++ held txDescCount s.frame s.tdh (n + 1)
    rw [accepted_append, transmitted_append, hheld, h.frames, append_assoc,
      append_assoc]
    rfl
  · have hlen : c.frame.length = c.len := by simp [TxCall.frame]
    rw [accepted_append, sentLengths_append, map_append, hpend, append_assoc,
      append_assoc]
    show _ = sentLengths es ++ [(c.len : Int)]
    rw [← hlen]
    rfl

theorem TxInv.driver (hbusy : s.pc ≠ .idle) :
    ∃ n', TxInv (es ++ [(txDriver s).1]) (txDriver s).2 n' := by
  have hpc := h.pcOk
  unfold txDriver
  cases hs : s.pc <;> rw [hs] at hpc <;> dsimp only
  case idle => exact absurd hs hbusy
  case readTdt c =>
    exact ⟨n, h.goto rfl rfl (by rw [hs]; rfl) ⟨hpc, rfl⟩⟩
  case readTdh c tail =>
    split
    · exact ⟨n, h.goto rfl rfl (by rw [hs]; rfl) trivial⟩
    next hfull =>
      -- the cell behind `TDT` is not `TDH`, so one more frame has room
      have hroom : n + 1 ≠ txDescCount := fun hn => hfull (by
        rw [hpc.2, h.tdt_eq]
        exact (next_end_eq_start_iff h.tdh_lt h.n_lt).mpr hn)
      have hn := h.n_lt
      refine ⟨n, h.goto rfl rfl (by rw [hs]; rfl) ?_⟩
      exact ⟨⟨hpc.1, hpc.2, by omega⟩, Nat.zero_le _, nofun⟩
  case copy c tail i =>
    split
    next hlt => exact ⟨n, h.copyByte hs hlt⟩
    next hdone =>
      obtain ⟨hown, hi, hcopied⟩ := hpc
      refine ⟨n, h.goto rfl rfl (by rw [hs]; rfl) ?_⟩
      exact ⟨⟨hown.len_le, hown.tail_eq, hown.room⟩, fun j hj => hcopied j (by omega)⟩
  case setLength c tail => exact ⟨n, h.setLength hs⟩
  case setCmd c tail =>
    exact ⟨n, h.setOther hpc.1 hpc.2 rfl (by rw [hs]; rfl) fun _ ho hf => ⟨ho, hf⟩⟩
  case setStatus c tail =>
    exact ⟨n, h.setOther hpc.1 hpc.2 rfl (by rw [hs]; rfl) fun _ ho hf => ⟨ho, hf⟩⟩
  case writeTdt c tail => exact ⟨n + 1, h.writeTdt hs⟩
  case wait c tail i =>
    split
    · exact ⟨n, h.goto rfl rfl (by rw [hs]; rfl) trivial⟩
    · exact ⟨n, h.goto rfl rfl (by rw [hs]; rfl) trivial⟩

omit h in
theorem TxInv.init : TxInv [] e1000TxInit 0 :=
  ⟨by decide, by decide, rfl, rfl, rfl, trivial⟩

theorem TxInv.step (hstep : TxStep s e s') : ∃ n', TxInv (es ++ [e]) s' n' := by
  cases hstep with
  | call c hidle => exact ⟨n, h.call c hidle⟩
  | driver hbusy => exact h.driver hbusy
  | device hne => exact h.device hne

end

end Steps

/-- **Transmit ring safety.** After any interleaving of calls, steps of the driver and steps of
the device, the accepted frames, each with the bytes its caller gave, are the frames
transmitted followed by those in `[TDH, TDT)`. So the frames transmitted are a prefix of
those accepted. The results that are not negative are the lengths of the accepted frames,
but for a call that still waits. -/
theorem tx_ring_safe {es : List TxEvent} {s : TxState} (hrun : Run TxStep e1000TxInit es s) :
    transmitted es <+: accepted es ∧
    (∃ n, n < txDescCount ∧ s.tdh < txDescCount ∧ s.tdt = (s.tdh + n) % txDescCount ∧
      accepted es = transmitted es ++ held txDescCount s.frame s.tdh n) ∧
    (accepted es).map (fun f => (f.length : Int)) = sentLengths es ++ s.pc.pending := by
  obtain ⟨n, h⟩ : ∃ n, TxInv es s n :=
    hrun.trace_invariant (I := fun es s => ∃ n, TxInv es s n)
      (fun _ _ _ _ ⟨_, h⟩ hstep => h.step hstep) ⟨0, TxInv.init⟩
  exact ⟨⟨_, h.frames.symm⟩, ⟨n, h.n_lt, h.tdh_lt, h.tdt_eq, h.frames⟩, h.lengths⟩

/-- A frame of one byte is sent. -/
theorem tx_ring_safe_one : ∃ es s, Run TxStep e1000TxInit es s ∧
    accepted es = [[7]] ∧ transmitted es = [[7]] ∧ transmitted es <+: accepted es := by
  let c : TxCall := ⟨fun _ => 7, 1⟩
  have hcall : TxStep e1000TxInit _ _ := .call c rfl
  have hrun : Run TxStep e1000TxInit _ _ :=
    .cons hcall <| .cons (.driver nofun) <| .cons (.driver nofun) <| .cons (.driver nofun) <|
      .cons (.driver nofun) <| .cons (.driver nofun) <| .cons (.driver nofun) <|
      .cons (.driver nofun) <| .cons (.driver nofun) <| .cons (.device (by decide)) <| .nil _
  exact ⟨_, _, hrun, rfl, rfl, (tx_ring_safe hrun).1⟩

end GosKernel.E1000
