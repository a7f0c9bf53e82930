import Mathlib.Data.List.Infix
import Mathlib.Tactic.NormNum

/-!
# The PS/2 mouse (`src/drivers/mouse/mouse.c`)

An interrupt brings one byte; three bytes are a packet. A packet has a sign bit for each axis in
its first byte, so that it can move the pointer by -256 to 255, but the movements are kept in
`int8_t`, which the sign bit does not change.

- `mouse_tracks_iff`: the packets that move the pointer as they say.
-/

namespace GosKernel.Mouse

open List

/-! ## The driver -/

/-- `g_mouse_cycle`, `g_mouse_packet` and the members of `g_mouse_state` that the interrupt sets.
The bytes of the packet and the movements are of type `int8_t`. -/
structure MouseState where
  cycle : Nat
  packet : Fin 4 → BitVec 8
  x : Int
  y : Int
  dx : BitVec 8
  dy : BitVec 8
  buttons : BitVec 8

def mouseInit : MouseState := ⟨0, fun _ => 0, 0, 0, 0, 0, 0⟩

/-- `d |= 0xFFFFFF00` for a `d` of type `int8_t`. -/
def signExtend (d : BitVec 8) : BitVec 8 := (d.signExtend 32 ||| 0xFFFFFF00).setWidth 8

/-- `if (v < 0) v = 0;` and `if (v > hi) v = hi;`. -/
def clamp (hi v : Int) : Int :=
  let v := if v < 0 then 0 else v
  if v > hi then hi else v

/-- The decoding of a packet (mouse.c:107-126). -/
def decode (s : MouseState) : MouseState :=
  let dx := if s.packet 0 &&& 0x10 ≠ 0 then signExtend (s.packet 1) else s.packet 1
  let dy := if s.packet 0 &&& 0x20 ≠ 0 then signExtend (s.packet 2) else s.packet 2
  { s with
    buttons := s.packet 0 &&& 0x07, dx, dy
    x := clamp 639 (s.x + dx.toInt)
    y := clamp 199 (s.y - dy.toInt) }

/-- `mouse_handle_irq` (mouse.c:84-128). -/
def mouseHandleIrq (s : MouseState) (data : BitVec 8) : MouseState :=
  match s.cycle with
  | 0 =>
    if data &&& 0x08 = 0 then s
    else { s with packet := Function.update s.packet 0 data, cycle := 1 }
  | 1 => { s with packet := Function.update s.packet 1 data, cycle := 2 }
  | 2 => decode { s with packet := Function.update s.packet 2 data, cycle := 0 }
  | _ => s

/-! ## Packets -/

/-- A packet: bit 3 of its first byte is set, and no axis overflows. -/
structure Packet where
  flags : BitVec 8
  xByte : BitVec 8
  yByte : BitVec 8
  valid : flags &&& 0x08 ≠ 0
  inRange : flags &&& 0xC0 = 0

def Packet.bytes (p : Packet) : List (BitVec 8) := [p.flags, p.xByte, p.yByte]

/-- A number of nine bits in two's complement. -/
def delta (sign : Bool) (byte : BitVec 8) : Int := byte.toNat - if sign then 256 else 0

def Packet.dx (p : Packet) : Int := delta (p.flags &&& 0x10 ≠ 0) p.xByte

def Packet.dy (p : Packet) : Int := delta (p.flags &&& 0x20 ≠ 0) p.yByte

/-- The state after the packets, byte by byte. -/
def afterPackets (ps : List Packet) : MouseState :=
  (ps.flatMap Packet.bytes).foldl mouseHandleIrq mouseInit

/-- `p` moves the pointer and sets the buttons. -/
def Follows (s : MouseState) (p : Packet) (s' : MouseState) : Prop :=
  s'.x = clamp 639 (s.x + p.dx) ∧ s'.y = clamp 199 (s.y - p.dy) ∧ s'.buttons = p.flags &&& 0x07

/-- The sign extension changes nothing: it is cut off again. -/
theorem signExtend_eq (d : BitVec 8) : signExtend d = d := by
  have hall : ∀ d : BitVec 8, signExtend d = d := by decide +kernel
  exact hall d

/-- Between packets. -/
structure Idle (s : MouseState) : Prop where
  cycle : s.cycle = 0
  x : 0 ≤ s.x ∧ s.x ≤ 639
  y : 0 ≤ s.y ∧ s.y ≤ 199

theorem clamp_range {hi : Int} (h : 0 ≤ hi) (v : Int) : 0 ≤ clamp hi v ∧ clamp hi v ≤ hi := by
  unfold clamp
  dsimp only
  split_ifs <;> omega

/-- **One packet**: the pointer moves by the second and third byte as `int8_t`. -/
theorem Idle.packet {s : MouseState} (h : Idle s) (p : Packet) :
    ∃ s', p.bytes.foldl mouseHandleIrq s = s' ∧ Idle s' ∧
      s'.x = clamp 639 (s.x + p.xByte.toInt) ∧ s'.y = clamp 199 (s.y - p.yByte.toInt) ∧
      s'.buttons = p.flags &&& 0x07 := by
  obtain ⟨cycle, packet, x, y, dx, dy, buttons⟩ := s
  obtain rfl : cycle = 0 := h.cycle
  refine ⟨_, rfl, ?_⟩
  simp only [Packet.bytes, foldl_cons, foldl_nil, mouseHandleIrq, if_neg p.valid, decode,
    signExtend_eq, ite_self]
  exact ⟨⟨rfl, clamp_range (by norm_num) _, clamp_range (by norm_num) _⟩, rfl, rfl, rfl⟩

theorem afterPackets_snoc (ps : List Packet) (p : Packet) :
    afterPackets (ps ++ [p]) = p.bytes.foldl mouseHandleIrq (afterPackets ps) := by
  rw [afterPackets, flatMap_append, foldl_append, flatMap_singleton]
  rfl

theorem idle_afterPackets (ps : List Packet) : Idle (afterPackets ps) := by
  induction ps using reverseRecOn with
  | nil => exact ⟨rfl, by decide, by decide⟩
  | append_singleton ps p ih =>
    obtain ⟨s', hs', hidle, -⟩ := ih.packet p
    rw [afterPackets_snoc, hs']
    exact hidle

/-- A movement that `int8_t` does not hold shows, unless it is by 256 and towards an edge where
the pointer already is. -/
theorem clamp_delta_iff {v : Int} (sign : Bool) (byte : BitVec 8) :
    (0 ≤ v ∧ v ≤ 639 → (clamp 639 (v + byte.toInt) = clamp 639 (v + delta sign byte) ↔
      -128 ≤ delta sign byte ∧ delta sign byte ≤ 127 ∨ delta sign byte = -256 ∧ v = 0)) ∧
    (0 ≤ v ∧ v ≤ 199 → (clamp 199 (v - byte.toInt) = clamp 199 (v - delta sign byte) ↔
      -128 ≤ delta sign byte ∧ delta sign byte ≤ 127 ∨ delta sign byte = -256 ∧ v = 199)) := by
  rw [BitVec.toInt_eq_toNat_cond]
  unfold clamp delta
  dsimp only
  cases sign with
  | false =>
    rw [if_neg Bool.false_ne_true]
    constructor <;> intro hv <;> split_ifs <;> omega
  | true =>
    rw [if_pos rfl]
    constructor <;> intro hv <;> split_ifs <;> omega

/-- **Which movements are followed.** -/
theorem mouse_tracks_iff (ps : List Packet) :
    (∀ before p, before ++ [p] <+: ps →
      Follows (afterPackets before) p (afterPackets (before ++ [p]))) ↔
    ∀ before p, before ++ [p] <+: ps →
      (-128 ≤ p.dx ∧ p.dx ≤ 127 ∨ p.dx = -256 ∧ (afterPackets before).x = 0) ∧
      (-128 ≤ p.dy ∧ p.dy ≤ 127 ∨ p.dy = -256 ∧ (afterPackets before).y = 199) := by
  refine forall_congr' fun before => forall_congr' fun p => imp_congr_right fun _ => ?_
  have hidle := idle_afterPackets before
  obtain ⟨s', hs', -, hx, hy, hbuttons⟩ := hidle.packet p
  rw [Follows, afterPackets_snoc, hs', hx, hy, and_iff_left hbuttons]
  exact and_congr ((clamp_delta_iff _ _).1 hidle.x) ((clamp_delta_iff _ _).2 hidle.y)

/-- **A movement to the right that is one to the left**: 200 is -56 as `int8_t`. -/
theorem mouse_wrong_way :
    ∃ p, p.dx = 200 ∧ (afterPackets [p]).x = 0 ∧ clamp 639 ((afterPackets []).x + p.dx) = 200 :=
  ⟨⟨0x08, 200, 0, by decide, by decide⟩, by decide, by decide, by decide⟩

end GosKernel.Mouse
