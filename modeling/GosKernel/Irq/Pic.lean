import GosKernel.Lib.Run
import Mathlib.Data.Fintype.Basic

/-!
# Acknowledging interrupts (`drivers/pic/pic.c`, `drivers/pic/pic_irq.c`, `hal/idt/idt.c`)

Handlers are modelled by the commands they give to the two interrupt controllers; what
they do to their devices (`pit_handle_tick`, `keyboard_handle_irq`, `serial_handle_irq`)
gives none.

The handlers that `pic_register_default_handlers` installs acknowledge their interrupt,
and `isr_common_handler` then does so once more (`timer_acknowledged_twice`).
**`eoi_balance`**: the surplus acknowledgement changes no register exactly as long as
nothing else is in service. The gates of the kernel (`IDT_GATE_INTERRUPT`) keep
interrupts off in a handler; the model lets further ones be delivered between any two
commands all the same, so that the result does not rest on that.
-/

namespace GosKernel.Irq

/-! ## The controllers -/

/-- The in-service registers of PIC1 and PIC2; the lowest bit has the highest
priority. -/
structure Pics where
  isr1 : BitVec 8
  isr2 : BitVec 8
deriving DecidableEq

attribute [ext] Pics

/-- A non-specific end of interrupt: clear the highest-priority bit in service. -/
def eoi (isr : BitVec 8) : BitVec 8 := isr &&& (isr - 1)

def bit (k : Fin 8) : BitVec 8 := 1 <<< k.val

/-- Can line `k` interrupt what is in service? -/
def accepts (isr : BitVec 8) (k : Fin 8) : Bool :=
  (List.finRange 8).all fun j => k < j || !isr.getLsbD j

/-- Interrupts as the processor sees them. A spurious one has no line behind it. -/
inductive Delivery
  | genuine (irq : Fin 16)
  | spurious7
  | spurious15
deriving DecidableEq

def Delivery.irq : Delivery → Fin 16
  | .genuine irq => irq
  | .spurious7 => 7
  | .spurious15 => 15

/-- The line of the timer. -/
def timerIrq : Fin 16 := 0

/-- The interrupt is acknowledged by the processor: lines that really asked go in
service. PIC1 serves all of PIC2 on line 2. `none`: what is in service keeps the
interrupt from being delivered. -/
def acknowledge (d : Delivery) (s : Pics) : Option Pics :=
  match d with
  | .genuine irq =>
    if h : irq.val < 8 then
      if accepts s.isr1 ⟨irq, h⟩ then some { s with isr1 := s.isr1 ||| bit ⟨irq, h⟩ } else none
    else
      let line : Fin 8 := ⟨irq - 8, by omega⟩
      if accepts s.isr1 2 && accepts s.isr2 line then
        some ⟨s.isr1 ||| bit 2, s.isr2 ||| bit line⟩
      else none
  | .spurious7 => some s
  | .spurious15 => if accepts s.isr1 2 then some { s with isr1 := s.isr1 ||| bit 2 } else none

/-! ## The handlers -/

/-- The commands of a handler. -/
inductive Prog
  | ret
  /-- `outb(PIC1_COMMAND, PIC_EOI)`. -/
  | eoi1 (next : Prog)
  /-- `outb(PIC2_COMMAND, PIC_EOI)`. -/
  | eoi2 (next : Prog)
  /-- `pic_get_isr()`. -/
  | getIsr (next : BitVec 16 → Prog)

/-- `pic_send_eoi` (pic.c:49-54). -/
def picSendEoi (irq : Nat) (next : Prog) : Prog :=
  if 8 ≤ irq then .eoi2 (.eoi1 next) else .eoi1 next

/-- A handler, given what is done after it. -/
abbrev Handler := Prog → Prog

/-- `pic_handle_irq0` (pic_irq.c:16-20). -/
def picHandleIrq0 : Handler := picSendEoi 0

/-- `pic_handle_irq1` (pic_irq.c:22-26). -/
def picHandleIrq1 : Handler := picSendEoi 1

/-- `pic_handle_irq3` (pic_irq.c:28-33). -/
def picHandleIrq3 : Handler := picSendEoi 3

/-- `pic_handle_irq4` (pic_irq.c:35-40). -/
def picHandleIrq4 : Handler := picSendEoi 4

/-- `pic_handle_irq7` (pic_irq.c:42-51). -/
def picHandleIrq7 : Handler := fun next =>
  .getIsr fun isr => if isr &&& 0x80 = 0 then next else picSendEoi 7 next

/-- `pic_handle_irq15` (pic_irq.c:53-64). -/
def picHandleIrq15 : Handler := fun next =>
  .getIsr fun isr => if isr &&& 0x8000 = 0 then .eoi1 next else picSendEoi 15 next

/-- `g_irq_handlers`. -/
abbrev IrqHandlers := Fin 16 → Option Handler

/-- `irq_register_handler` (idt.c:169-176); its check `irq > 15` is the type of `irq`. -/
def irqRegisterHandler (irq : Fin 16) (handler : Handler) (t : IrqHandlers) : IrqHandlers :=
  Function.update t irq (some handler)

/-- `pic_register_default_handlers` (pic_irq.c:67-76). -/
def picRegisterDefaultHandlers (t : IrqHandlers) : IrqHandlers :=
  irqRegisterHandler 15 picHandleIrq15 <| irqRegisterHandler 7 picHandleIrq7 <|
    irqRegisterHandler 4 picHandleIrq4 <| irqRegisterHandler 3 picHandleIrq3 <|
    irqRegisterHandler 1 picHandleIrq1 <| irqRegisterHandler 0 picHandleIrq0 t

/-- The branch of `isr_common_handler` for the vectors 32-47 (idt.c:277-285); the others
give no command to the controllers. -/
def isrCommonHandler (t : IrqHandlers) (irq : Fin 16) : Prog :=
  match t irq with
  | some handler => handler (picSendEoi irq .ret)
  | none => picSendEoi irq .ret

/-- The handlers of the kernel. -/
def handlers : IrqHandlers := picRegisterDefaultHandlers fun _ => none

/-! ## Handling -/

/-- `pic_get_isr` (pic.c:83-87). -/
def picGetIsr (s : Pics) : BitVec 16 := s.isr2 ++ s.isr1

/-- A handler that is not interrupted: the ends of interrupt it sends to PIC1 and to
PIC2, and the registers it leaves. -/
def Prog.exec : Prog → Pics → (Nat × Nat) × Pics
  | .ret, s => ((0, 0), s)
  | .eoi1 p, s =>
    let r := p.exec { s with isr1 := eoi s.isr1 }
    ((r.1.1 + 1, r.1.2), r.2)
  | .eoi2 p, s =>
    let r := p.exec { s with isr2 := eoi s.isr2 }
    ((r.1.1, r.1.2 + 1), r.2)
  | .getIsr f, s => (f (picGetIsr s)).exec s

/-- A handler that further interrupts, those `allowed`, may interrupt before any of its
commands. Only its own ends of interrupt are counted. -/
inductive Handles (allowed : Delivery → Pics → Prop) :
    Pics → Prog → Nat × Nat → Pics → Prop
  | ret {s} : Handles allowed s .ret (0, 0) s
  | eoi1 {s p n s'} (h : Handles allowed { s with isr1 := eoi s.isr1 } p n s') :
      Handles allowed s (.eoi1 p) (n.1 + 1, n.2) s'
  | eoi2 {s p n s'} (h : Handles allowed { s with isr2 := eoi s.isr2 } p n s') :
      Handles allowed s (.eoi2 p) (n.1, n.2 + 1) s'
  | getIsr {s f n s'} (h : Handles allowed s (f (picGetIsr s)) n s') :
      Handles allowed s (.getIsr f) n s'
  | nested {s d s1 m s2 p n s'} (hd : allowed d s) (hack : acknowledge d s = some s1)
      (hin : Handles allowed s1 (isrCommonHandler handlers d.irq) m s2)
      (h : Handles allowed s2 p n s') : Handles allowed s p n s'

/-- One delivery, from before it is acknowledged until its handler has returned. -/
def Serves (allowed : Delivery → Pics → Prop) (s : Pics) (e : Delivery × (Nat × Nat))
    (s' : Pics) : Prop :=
  allowed e.1 s ∧ ∃ s1, acknowledge e.1 s = some s1 ∧
    Handles allowed s1 (isrCommonHandler handlers e.1.irq) e.2 s'

/-- The ends of interrupt that a delivery calls for. -/
def due : Delivery → Nat × Nat
  | .genuine irq => if irq.val < 8 then (1, 0) else (1, 1)
  | .spurious7 => (0, 0)
  | .spurious15 => (1, 0)

/-- Nothing is in service that a surplus end of interrupt could clear. -/
def Quiet (d : Delivery) (s : Pics) : Prop :=
  match d with
  | .genuine irq => (handlers irq).isSome → s.isr1 = 0
  | .spurious7 => s.isr1 = 0
  | .spurious15 => s.isr1 = 0 ∧ s.isr2 = 0

instance (d : Delivery) (s : Pics) : Decidable (Quiet d s) := by
  cases d <;> unfold Quiet <;> infer_instance

/-! ## The end of interrupt -/

/-- What went in service last is what the end of interrupt takes out. -/
theorem eoi_of_accepts : ∀ (k : Fin 8) (isr : BitVec 8),
    accepts isr k = true → eoi (isr ||| bit k) = isr := by
  decide +kernel

theorem eoi_eq_self_iff : ∀ isr : BitVec 8, eoi isr = isr ↔ isr = 0 := by
  decide +kernel

theorem eoi_eoi_eq_self_iff : ∀ isr : BitVec 8, eoi (eoi isr) = isr ↔ isr = 0 := by
  decide +kernel

theorem eq_zero_of_accepts_seven : ∀ isr : BitVec 8, accepts isr 7 = true → isr = 0 := by
  decide +kernel

/-! ## One delivery -/

theorem registered_iff : ∀ irq : Fin 16,
    (handlers irq).isSome = true ↔ irq ∈ [0, 1, 3, 4, 7, 15] := by
  decide

/-- The handlers of lines 0, 1, 3 and 4 acknowledge, and so does the dispatcher. -/
theorem isrCommonHandler_low : ∀ irq ∈ ([0, 1, 3, 4] : List (Fin 16)),
    isrCommonHandler handlers irq = .eoi1 (.eoi1 .ret) := by
  intro irq hirq
  simp only [List.mem_cons, List.not_mem_nil, or_false] at hirq
  rcases hirq with rfl | rfl | rfl | rfl <;> rfl

theorem isrCommonHandler_seven : isrCommonHandler handlers 7 =
    .getIsr fun isr => if isr &&& 0x80 = 0 then .eoi1 .ret else .eoi1 (.eoi1 .ret) := rfl

theorem isrCommonHandler_fifteen : isrCommonHandler handlers 15 =
    .getIsr fun isr => if isr &&& 0x8000 = 0 then .eoi1 (.eoi2 (.eoi1 .ret))
      else .eoi2 (.eoi1 (.eoi2 (.eoi1 .ret))) := rfl

variable {s s' s1 : Pics}

/-- Acknowledging line `irq < 8` puts it in service on PIC1. -/
theorem acknowledge_low {irq : Fin 16} (h : irq.val < 8)
    (hack : acknowledge (.genuine irq) s = some s1) :
    accepts s.isr1 ⟨irq, h⟩ = true ∧ s1 = { s with isr1 := s.isr1 ||| bit ⟨irq, h⟩ } := by
  simp only [acknowledge, h, dite_true, Option.ite_none_right_eq_some, Option.some.injEq] at hack
  exact ⟨hack.1, hack.2.symm⟩

/-- The lines of PIC2 go in service there, and on line 2 of PIC1. -/
theorem acknowledge_high {irq : Fin 16} (h : ¬ irq.val < 8)
    (hack : acknowledge (.genuine irq) s = some s1) :
    accepts s.isr1 2 = true ∧ accepts s.isr2 ⟨irq - 8, by omega⟩ = true ∧
      s1 = ⟨s.isr1 ||| bit 2, s.isr2 ||| bit ⟨irq - 8, by omega⟩⟩ := by
  simp only [acknowledge, h, dite_false, Option.ite_none_right_eq_some, Bool.and_eq_true,
    Option.some.injEq] at hack
  exact ⟨hack.1.1, hack.1.2, hack.2.symm⟩

theorem acknowledge_spurious15 (hack : acknowledge .spurious15 s = some s1) :
    accepts s.isr1 2 = true ∧ s1 = { s with isr1 := s.isr1 ||| bit 2 } := by
  simp only [acknowledge, Option.ite_none_right_eq_some, Option.some.injEq] at hack
  exact ⟨hack.1, hack.2.symm⟩

/-- Line 7 shows in the word that `pic_handle_irq7` tests. -/
theorem picGetIsr_seven : ∀ isr2 : BitVec 8,
    picGetIsr ⟨0 ||| bit 7, isr2⟩ &&& 0x80 ≠ 0 := by
  decide +kernel

/-- A handler that is not interrupted: what it leaves and what it sends, for the
interrupts that the dispatcher alone acknowledges. -/
theorem exec_unregistered {irq : Fin 16} (hnone : handlers irq = none)
    (hack : acknowledge (.genuine irq) s = some s1) :
    (isrCommonHandler handlers irq).exec s1 = (due (.genuine irq), s) := by
  rw [isrCommonHandler, hnone]
  by_cases h : irq.val < 8
  · obtain ⟨hacc, rfl⟩ := acknowledge_low h hack
    rw [picSendEoi, if_neg (by omega)]
    simp [Prog.exec, due, h, eoi_of_accepts _ _ hacc]
  · obtain ⟨hacc1, hacc2, rfl⟩ := acknowledge_high h hack
    rw [picSendEoi, if_pos (by omega)]
    simp [Prog.exec, due, h, eoi_of_accepts _ _ hacc1, eoi_of_accepts _ _ hacc2]

/-- Lines 0, 1, 3 and 4: the second end of interrupt goes to whatever else is in service. -/
theorem exec_registered_low {irq : Fin 16} (hlow : irq ∈ ([0, 1, 3, 4] : List (Fin 16)))
    (hack : acknowledge (.genuine irq) s = some s1) :
    ((isrCommonHandler handlers irq).exec s1).1 ≠ due (.genuine irq) ∧
      (((isrCommonHandler handlers irq).exec s1).2 = s ↔ s.isr1 = 0) := by
  have h : irq.val < 8 := by
    simp only [List.mem_cons, List.not_mem_nil, or_false] at hlow
    rcases hlow with rfl | rfl | rfl | rfl <;> decide
  obtain ⟨hacc, rfl⟩ := acknowledge_low h hack
  rw [isrCommonHandler_low irq hlow]
  constructor
  · simp [Prog.exec, due, h]
  · simp [Prog.exec, eoi_of_accepts _ _ hacc, Pics.ext_iff, eoi_eq_self_iff]

/-- Line 7 is accepted only when PIC1 has nothing in service. -/
theorem exec_seven (hack : acknowledge (.genuine 7) s = some s1) :
    ((isrCommonHandler handlers 7).exec s1).1 ≠ due (.genuine 7) ∧
      (((isrCommonHandler handlers 7).exec s1).2 = s ↔ s.isr1 = 0) := by
  obtain ⟨hacc, rfl⟩ := acknowledge_low (by decide) hack
  obtain ⟨isr1, isr2⟩ := s
  obtain rfl : isr1 = 0 := eq_zero_of_accepts_seven isr1 hacc
  have hexec : (isrCommonHandler handlers 7).exec ⟨0 ||| bit 7, isr2⟩ =
      ((2, 0), ⟨eoi (eoi (0 ||| bit 7)), isr2⟩) := by
    rw [isrCommonHandler_seven, Prog.exec, if_neg (picGetIsr_seven isr2)]
    rfl
  have hback : eoi (eoi (0 ||| bit 7)) = 0 := by decide
  constructor
  · intro hdue
    have htwo : (2, 0) = due (.genuine 7) := (congrArg Prod.fst hexec).symm.trans hdue
    exact absurd htwo (by decide)
  · exact iff_of_true ((congrArg Prod.snd hexec).trans (by rw [hback])) rfl

/-- Line 15 leaves PIC2 with nothing in service, as it found it. -/
theorem exec_fifteen (hack : acknowledge (.genuine 15) s = some s1) :
    ((isrCommonHandler handlers 15).exec s1).1 ≠ due (.genuine 15) ∧
      (((isrCommonHandler handlers 15).exec s1).2 = s ↔ s.isr1 = 0) := by
  obtain ⟨hacc1, hacc2, rfl⟩ := acknowledge_high (by decide) hack
  obtain ⟨isr1, isr2⟩ := s
  obtain rfl : isr2 = 0 := eq_zero_of_accepts_seven isr2 hacc2
  have hacc := eoi_of_accepts 2 isr1 hacc1
  rw [isrCommonHandler_fifteen]
  simp only [Prog.exec]
  split_ifs
  · constructor
    · simp [Prog.exec, due]
    · simp only [Prog.exec, hacc, Pics.mk.injEq, eoi_eq_self_iff]
      exact and_iff_left (by decide)
  · constructor
    · simp [Prog.exec, due]
    · simp only [Prog.exec, hacc, Pics.mk.injEq, eoi_eq_self_iff]
      exact and_iff_left (by decide)

theorem exec_registered {irq : Fin 16} (hsome : (handlers irq).isSome = true)
    (hack : acknowledge (.genuine irq) s = some s1) :
    ((isrCommonHandler handlers irq).exec s1).1 ≠ due (.genuine irq) ∧
      (((isrCommonHandler handlers irq).exec s1).2 = s ↔ s.isr1 = 0) := by
  have hirq := (registered_iff irq).mp hsome
  simp only [List.mem_cons, List.not_mem_nil, or_false] at hirq
  rcases hirq with rfl | rfl | rfl | rfl | rfl | rfl
  · exact exec_registered_low (by decide) hack
  · exact exec_registered_low (by decide) hack
  · exact exec_registered_low (by decide) hack
  · exact exec_registered_low (by decide) hack
  · exact exec_seven hack
  · exact exec_fifteen hack

theorem exec_spurious7 (s : Pics) :
    ((isrCommonHandler handlers 7).exec s).1 ≠ due .spurious7 ∧
      (((isrCommonHandler handlers 7).exec s).2 = s ↔ s.isr1 = 0) := by
  rw [isrCommonHandler_seven]
  simp only [Prog.exec]
  split_ifs
  · simp [Prog.exec, due, Pics.ext_iff, eoi_eq_self_iff]
  · simp [Prog.exec, due, Pics.ext_iff, eoi_eoi_eq_self_iff]

theorem exec_spurious15 (hack : acknowledge .spurious15 s = some s1) :
    ((isrCommonHandler handlers 15).exec s1).1 ≠ due .spurious15 ∧
      (((isrCommonHandler handlers 15).exec s1).2 = s ↔ s.isr1 = 0 ∧ s.isr2 = 0) := by
  obtain ⟨hacc, rfl⟩ := acknowledge_spurious15 hack
  have h := eoi_of_accepts 2 s.isr1 hacc
  rw [isrCommonHandler_fifteen]
  simp only [Prog.exec]
  split_ifs
  · simp [Prog.exec, due, h, Pics.ext_iff, eoi_eq_self_iff]
  · simp [Prog.exec, due, h, Pics.ext_iff, eoi_eq_self_iff, eoi_eoi_eq_self_iff]

/-- **One delivery**: the registers come back exactly when it is quiet, and the right
ends of interrupt are sent exactly when no handler is registered. -/
theorem exec_delivery {d : Delivery} (hack : acknowledge d s = some s1) :
    (((isrCommonHandler handlers d.irq).exec s1).1 = due d ↔ handlers d.irq = none) ∧
      (((isrCommonHandler handlers d.irq).exec s1).2 = s ↔ Quiet d s) := by
  have hseven : handlers 7 ≠ none := by simp [handlers, picRegisterDefaultHandlers,
    irqRegisterHandler, Function.update]
  have hfifteen : handlers 15 ≠ none := by simp [handlers, picRegisterDefaultHandlers,
    irqRegisterHandler]
  cases d with
  | genuine irq =>
    by_cases hnone : handlers irq = none
    · have h := exec_unregistered hnone hack
      simp [Delivery.irq, h, hnone, Quiet]
    · have hsome : (handlers irq).isSome = true := Option.isSome_iff_ne_none.mpr hnone
      obtain ⟨hcount, hregs⟩ := exec_registered hsome hack
      exact ⟨iff_of_false hcount hnone, by simpa [Quiet, hsome, Delivery.irq] using hregs⟩
  | spurious7 =>
    obtain rfl : s = s1 := Option.some.inj hack
    obtain ⟨hcount, hregs⟩ := exec_spurious7 s
    exact ⟨iff_of_false hcount hseven, hregs⟩
  | spurious15 =>
    obtain ⟨hcount, hregs⟩ := exec_spurious15 hack
    exact ⟨iff_of_false hcount hfifteen, hregs⟩

/-! ## Interrupted handlers -/

/-- While every delivery is quiet, being interrupted makes no difference. -/
theorem Handles.eq_exec {p : Prog} {n : Nat × Nat}
    (h : Handles Quiet s p n s') : p.exec s = (n, s') := by
  induction h with
  | ret => rfl
  | eoi1 _ ih => simp [Prog.exec, ih]
  | eoi2 _ ih => simp [Prog.exec, ih]
  | getIsr _ ih => simpa [Prog.exec] using ih
  | nested hd hack _ _ ihin ih =>
    -- the nested delivery gives back the registers it found
    have hback := (exec_delivery hack).2.mpr hd
    rw [ihin] at hback
    rw [← hback]
    exact ih

theorem Handles.mono {A B : Delivery → Pics → Prop} (hle : ∀ d s, A d s → B d s)
    {p : Prog} {n : Nat × Nat} (h : Handles A s p n s') : Handles B s p n s' := by
  induction h with
  | ret => exact .ret
  | eoi1 _ ih => exact .eoi1 ih
  | eoi2 _ ih => exact .eoi2 ih
  | getIsr _ ih => exact .getIsr ih
  | nested hd hack _ _ ihin ih => exact .nested (hle _ _ hd) hack ihin ih

/-- Every handler returns when nothing interrupts it. -/
theorem Handles.of_exec (allowed : Delivery → Pics → Prop) (p : Prog) (s : Pics) :
    Handles allowed s p (p.exec s).1 (p.exec s).2 := by
  induction p generalizing s with
  | ret => exact .ret
  | eoi1 p ih => exact .eoi1 (ih _)
  | eoi2 p ih => exact .eoi2 (ih _)
  | getIsr f ih => exact .getIsr (ih _ s)

theorem Serves.restores {e : Delivery × (Nat × Nat)}
    (h : Serves Quiet s e s') : s' = s ∧ (e.2 = due e.1 ↔ handlers e.1.irq = none) := by
  obtain ⟨hq, s1, hack, hrun⟩ := h
  obtain ⟨hcount, hregs⟩ := exec_delivery hack
  have hexec := hrun.eq_exec
  rw [hexec] at hcount hregs
  exact ⟨hregs.mpr hq, hcount⟩

/-- **Balance.** In every run of quiet deliveries, nested ones included, both registers
are what they were at its start, and so for the next delivery, which sends the ends of
interrupt that are due exactly when the interrupt has no handler of its own. Every
delivery that is acknowledged can be handled, and one that is not interrupted gives back
the registers only if it is quiet. -/
theorem eoi_balance {s0 s : Pics} {es : List (Delivery × (Nat × Nat))}
    (hrun : Run (Serves Quiet) s0 es s) :
    s = s0 ∧
      (∀ d n s', Serves Quiet s (d, n) s' →
        s' = s ∧ (n = due d ↔ handlers d.irq = none)) ∧
      (∀ d s1, acknowledge d s = some s1 →
        (∃ n s', Handles (fun _ _ => False) s1 (isrCommonHandler handlers d.irq) n s') ∧
        ∀ n s', Handles (fun _ _ => False) s1 (isrCommonHandler handlers d.irq) n s' →
          (s' = s ↔ Quiet d s)) := by
  refine ⟨?_, fun d n s' h => h.restores, fun d s1 hack => ⟨⟨_, _, .of_exec _ _ _⟩, ?_⟩⟩
  · exact hrun.invariant (I := (· = s0)) (fun _ _ _ hs h => h.restores.1.trans hs) rfl
  · intro n s' h
    have hexec := Handles.eq_exec (h.mono fun _ _ hf => hf.elim)
    rw [← (exec_delivery hack).2, hexec]

/-- The timer alone, and then line 5 interrupted by line 9. -/
theorem eoi_balance_nested :
    Run (Serves Quiet) ⟨0, 0⟩ [(.genuine 0, (2, 0)), (.genuine 5, (1, 0))] ⟨0, 0⟩ ∧
      ((2, 0) = due (.genuine 0) ↔ handlers 0 = none) ∧
      ((1, 0) = due (.genuine 5) ↔ handlers 5 = none) := by
  have htimer : Serves Quiet ⟨0, 0⟩ (.genuine 0, (2, 0)) ⟨0, 0⟩ :=
    ⟨by decide, ⟨1, 0⟩, by decide, .of_exec Quiet (isrCommonHandler handlers 0) ⟨1, 0⟩⟩
  have hline : Serves Quiet ⟨0, 0⟩ (.genuine 5, (1, 0)) ⟨0, 0⟩ :=
    ⟨by decide, ⟨32, 0⟩, by decide, .nested (d := .genuine 9) (by decide) (by decide)
      (.of_exec Quiet (isrCommonHandler handlers 9) ⟨36, 2⟩)
      (.of_exec Quiet (isrCommonHandler handlers 5) ⟨32, 0⟩)⟩
  have hrun := Run.cons htimer (.cons hline (.nil _))
  have hnext := (eoi_balance hrun).2.1
  exact ⟨hrun, (hnext _ _ _ htimer).2, (hnext _ _ _ hline).2⟩

/-- The timer's interrupt, with nothing else in service and no other interrupt: two ends
of interrupt go to PIC1. Delivered while the keyboard's is in service, the second one
takes that out of service. -/
theorem timer_acknowledged_twice :
    Serves (fun _ _ => True) ⟨0, 0⟩ (.genuine 0, (2, 0)) ⟨0, 0⟩ ∧
      due (.genuine 0) = (1, 0) ∧
      acknowledge (.genuine 1) ⟨0, 0⟩ = some ⟨bit 1, 0⟩ ∧
      Serves (fun _ _ => True) ⟨bit 1, 0⟩ (.genuine 0, (2, 0)) ⟨0, 0⟩ ∧
      (⟨0, 0⟩ : Pics) ≠ ⟨bit 1, 0⟩ := by
  refine ⟨⟨trivial, ⟨1, 0⟩, by decide, ?_⟩, by decide, by decide,
    ⟨trivial, ⟨3, 0⟩, by decide, ?_⟩, by decide⟩
  · exact .of_exec _ (isrCommonHandler handlers 0) ⟨1, 0⟩
  · exact .of_exec _ (isrCommonHandler handlers 0) ⟨3, 0⟩

end GosKernel.Irq
