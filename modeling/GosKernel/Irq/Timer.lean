import GosKernel.Irq.Pic
import GosKernel.Proc.Running
import GosKernel.Proc.Tick

/-!
# The timer interrupt and the scheduler

`pic_handle_irq0` calls `pit_handle_tick` first and acknowledges the interrupt after
that. The call goes on to `scheduler_tick`, and if that switches processes, what is left of
the handler stays on the stack of the process that was interrupted until it gets the
processor back. The model keeps, for each process, where its code is: in its own code, or
at a point of the handler. Gates of the kernel are interrupt gates, so a handler is not
interrupted; `context_switch` is where another process takes over.

- **`eoi_before_switch`**: as long as every IRQ0 finds nobody to switch to, no process
  executes while IRQ0 is in service;
- `switch_before_eoi`: two processes, one IRQ0, and the second executes with it in service.

The count `g_pit_ticks` is read by `proc_sleep` only, whose clock is an argument.
-/

namespace GosKernel.Irq

open Exec Proc

/-! ## Processes and handlers -/

/-- Where the code of a process is. -/
inductive Frame
  /-- In the process itself. -/
  | code
  /-- In `pic_handle_irq0`, at the call of `pit_handle_tick` (pit.c:33-39). -/
  | tick (rest : Prog)
  /-- In the handler, with these commands to give. -/
  | commands (p : Prog)

def Frame.isCode : Frame → Bool
  | .code => true
  | _ => false

/-- The processes, the controllers, and where the code of each process is; `none` is the
code before `proc_init`. -/
structure TimerSys where
  procs : Procs
  pics : Pics
  frame : Option Slot → Frame

/-- Where the code is that has the processor. -/
def TimerSys.now (s : TimerSys) : Frame := s.frame s.procs.currentProc

/-- The code that has the processor goes on at `f`. -/
def TimerSys.goto (s : TimerSys) (f : Frame) : TimerSys :=
  { s with frame := Function.update s.frame s.procs.currentProc f }

/-- Does a switch away from the current process save its context (scheduler.c:111-116)? -/
def saves (prev : Option Slot) (procs : Procs) : Bool :=
  match prev with
  | some prev => (procs.table prev).state ≠ .unused
  | none => false

/-- A call of the scheduler leads to `procs`, and the code that made it goes on at `f` when
its process has the processor again. -/
def TimerSys.leave (s : TimerSys) (procs : Procs) (f : Frame) : TimerSys :=
  if procs.currentProc = s.procs.currentProc || saves s.procs.currentProc procs then
    { s.goto f with procs := procs }
  else { s with procs := procs }

/-- A process that is created starts in its own code. -/
def TimerSys.enter (s : TimerSys) (c : RunCall) : TimerSys :=
  match c with
  | .call (.create name entry stack cr3) =>
    match (procCreate name entry stack cr3 s.procs).1 with
    | some slot => { s with frame := Function.update s.frame (some slot) .code }
    | none => s
  | _ => s

/-- Give the first of the commands. After the last the interrupt returns. -/
def Prog.next : Prog → Pics → Pics × Frame
  | .ret, s => (s, .code)
  | .eoi1 p, s => ({ s with isr1 := eoi s.isr1 }, .commands p)
  | .eoi2 p, s => ({ s with isr2 := eoi s.isr2 }, .commands p)
  | .getIsr f, s => (s, .commands (f (picGetIsr s)))

inductive TimerEvent
  /-- A process calls the kernel. -/
  | call (c : RunCall)
  /-- IRQ0 is delivered. -/
  | irq0
  /-- `pit_handle_tick` is called. -/
  | tick
  /-- A handler gives a command to the controllers. -/
  | command

inductive TimerStep : TimerSys → TimerEvent → TimerSys → Prop
  | call {s c procs} (hcode : s.now = .code) (hcall : RunStep s.procs c procs) :
      TimerStep s (.call c) ((s.enter c).leave procs .code)
  | irq0 {s pics} (hcode : s.now = .code) (hack : acknowledge (.genuine 0) s.pics = some pics) :
      TimerStep s .irq0 { s.goto (.tick (isrCommonHandler handlers 0)) with pics := pics }
  | tick {s rest procs} (htick : s.now = .tick rest)
      (hrun : Converges schedulerTick s.procs () procs) :
      TimerStep s .tick (s.leave procs (.commands rest))
  | command {s p} (hp : s.now = .commands p) :
      TimerStep s .command { s.goto (p.next s.pics).2 with pics := (p.next s.pics).1 }

/-- After `proc_init` and `scheduler_init`. -/
def boot (rsp cr3 : Nat) (s : Procs) (pics : Pics) : TimerSys where
  procs := schedulerInit (procInit rsp cr3 s)
  pics := pics
  frame _ := .code

/-- IRQ0 is in service. -/
def InService (s : Pics) : Prop := s.isr1.getLsbD 0 = true

instance (s : Pics) : Decidable (InService s) := by unfold InService; infer_instance

/-- If the event is an IRQ0, the scheduler has nobody to switch to. -/
def TimerEvent.Unopposed : TimerEvent → Procs → Prop
  | .irq0, s => Proc.Unopposed s
  | _, _ => True

instance (e : TimerEvent) (s : Procs) : Decidable (e.Unopposed s) :=
  match e with
  | .irq0 => inferInstanceAs (Decidable (Proc.Unopposed s))
  | .call _ | .tick | .command => .isTrue trivial

def UnopposedStep (s : TimerSys) (e : TimerEvent) (s' : TimerSys) : Prop :=
  e.Unopposed s.procs ∧ TimerStep s e s'

/-! ## Lemmas -/

theorem not_inService_eoi (s : Pics) : ¬ InService { s with isr1 := eoi s.isr1 } := by
  have h : ∀ isr : BitVec 8, ¬ (eoi isr).getLsbD 0 = true := by
    decide +kernel
  exact h s.isr1

section Frames

variable {s : TimerSys} {f : Frame} {procs : Procs}

theorem frame_goto_self : (s.goto f).frame s.procs.currentProc = f := Function.update_self ..

theorem frame_goto {p : Option Slot} (hp : p ≠ s.procs.currentProc) :
    (s.goto f).frame p = s.frame p :=
  Function.update_of_ne hp ..

@[simp] theorem procs_leave : (s.leave procs f).procs = procs := by
  unfold TimerSys.leave
  split <;> rfl

@[simp] theorem pics_leave : (s.leave procs f).pics = s.pics := by
  unfold TimerSys.leave
  split <;> rfl

@[simp] theorem pics_enter (c : RunCall) : (s.enter c).pics = s.pics := by
  unfold TimerSys.enter
  split
  · split <;> rfl
  · rfl

theorem frame_leave_code (h : ∀ p, s.frame p = .code) (p : Option Slot) :
    (s.leave procs .code).frame p = .code := by
  unfold TimerSys.leave
  split
  · by_cases hp : p = s.procs.currentProc
    · subst hp
      exact frame_goto_self
    · exact (frame_goto hp).trans (h p)
  · exact h p

theorem frame_enter_code (h : ∀ p, s.frame p = .code) (c : RunCall) (p : Option Slot) :
    (s.enter c).frame p = .code := by
  unfold TimerSys.enter
  split
  · split
    next slot _ =>
      by_cases hp : p = some slot
      · subst hp
        exact Function.update_self ..
      · exact (Function.update_of_ne hp ..).trans (h p)
    · exact h p
  · exact h p

end Frames

/-! ## The invariant -/

/-- What holds at each point of the handler. -/
def FrameInv (procs : Procs) (pics : Pics) : Frame → Prop
  | .code => ¬ InService pics
  | .tick rest => Unopposed procs ∧ rest = .eoi1 (.eoi1 .ret)
  | .commands p => p = .eoi1 (.eoi1 .ret) ∨ (p = .eoi1 .ret ∨ p = .ret) ∧ ¬ InService pics

/-- Only the process that has the processor may be in the handler. -/
structure TimerInv (s : TimerSys) : Prop where
  others : ∀ p, p ≠ s.procs.currentProc → s.frame p = .code
  here : FrameInv s.procs s.pics s.now

/-- While a process executes its own code so do all others, as far as they got. -/
theorem TimerInv.code {s : TimerSys} (h : TimerInv s) (hcode : s.now = .code) (p : Option Slot) :
    s.frame p = .code := by
  by_cases hp : p = s.procs.currentProc
  · subst hp
    exact hcode
  · exact h.others p hp

theorem TimerInv.goto {s : TimerSys} (h : TimerInv s) {f : Frame} {procs : Procs} {pics : Pics}
    (hcurrent : procs.currentProc = s.procs.currentProc) (hf : FrameInv procs pics f) :
    TimerInv ⟨procs, pics, (s.goto f).frame⟩ where
  others p hp := by
    rw [hcurrent] at hp
    exact (frame_goto hp).trans (h.others p hp)
  here := by
    have hnow : TimerSys.now ⟨procs, pics, (s.goto f).frame⟩ = f := by
      unfold TimerSys.now
      rw [hcurrent]
      exact frame_goto_self
    rw [hnow]
    exact hf

theorem FrameInv.next {procs : Procs} {pics : Pics} {p : Prog}
    (h : FrameInv procs pics (.commands p)) : FrameInv procs (p.next pics).1 (p.next pics).2 := by
  rcases h with rfl | ⟨rfl | rfl, hpics⟩
  · exact .inr ⟨.inl rfl, not_inService_eoi pics⟩
  · exact .inr ⟨.inr rfl, not_inService_eoi pics⟩
  · exact hpics

/-- **Every step** keeps the invariant, while IRQ0s are unopposed. -/
theorem TimerInv.step {s s' : TimerSys} {e : TimerEvent} (h : TimerInv s)
    (hstep : UnopposedStep s e s') : TimerInv s' := by
  obtain ⟨hunopposed, hstep⟩ := hstep
  cases hstep with
  | call hcode hcall =>
    rename_i c procs
    -- nobody is in the handler, so it does not matter who is next
    have hall : ∀ p, ((s.enter c).leave procs .code).frame p = .code :=
      frame_leave_code (frame_enter_code (h.code hcode) c)
    refine ⟨fun p _ => hall p, ?_⟩
    have hnow : ((s.enter c).leave procs .code).now = .code := hall _
    rw [hnow, pics_leave, pics_enter]
    have hhere := h.here
    rwa [hcode] at hhere
  | irq0 hcode hack => exact h.goto rfl ⟨hunopposed, isrCommonHandler_low 0 (by decide)⟩
  | tick htick hrun =>
    have hhere := h.here
    rw [htick] at hhere
    obtain ⟨hunopposed, rfl⟩ := hhere
    obtain ⟨procs', hrun', hstays⟩ := hunopposed.tick
    obtain rfl := (hrun.unique hrun').2
    rw [TimerSys.leave, if_pos (by simp [hstays])]
    exact h.goto hstays (.inl rfl)
  | command hp =>
    have hhere := h.here
    rw [hp] at hhere
    exact h.goto rfl hhere.next

/-! ## Runs -/

/-- Take a step, with so much fuel for the scheduler. -/
def TimerEvent.exec (fuel : Nat) (s : TimerSys) (e : TimerEvent) : Option (TimerEvent × TimerSys) :=
  match e, s.now with
  | .call c, .code => (c.run fuel s.procs).map fun r => (e, (s.enter c).leave r.2 .code)
  | .irq0, .code => (acknowledge (.genuine timerIrq) s.pics).map fun pics =>
      (e, { s.goto (.tick (isrCommonHandler handlers timerIrq)) with pics := pics })
  | .tick, .tick rest =>
      (schedulerTick fuel s.procs).map fun r => (e, s.leave r.2 (.commands rest))
  | .command, .commands p =>
      some (e, { s.goto (p.next s.pics).2 with pics := (p.next s.pics).1 })
  | _, _ => none

theorem TimerEvent.exec_eq_some {fuel : Nat} {s s' : TimerSys} {e e' : TimerEvent}
    (h : TimerEvent.exec fuel s e = some (e', s')) : e' = e ∧ TimerStep s e s' := by
  unfold TimerEvent.exec at h
  split at h
  next c hcode =>
    obtain ⟨r, hr, heq⟩ := Option.map_eq_some_iff.mp h
    cases heq
    exact ⟨rfl, .call hcode (RunCall.converges hr)⟩
  next hcode =>
    obtain ⟨pics, hack, heq⟩ := Option.map_eq_some_iff.mp h
    cases heq
    exact ⟨rfl, .irq0 hcode hack⟩
  next rest htick =>
    obtain ⟨r, hr, heq⟩ := Option.map_eq_some_iff.mp h
    cases heq
    exact ⟨rfl, .tick htick ⟨fuel, fun _ hle => schedulerTick_mono hr hle⟩⟩
  next p hp =>
    cases h
    exact ⟨rfl, .command hp⟩
  next => cases h

theorem Frame.eq_code {f : Frame} (h : f.isCode = true) : f = .code := by
  cases f with
  | code => rfl
  | tick rest => cases h
  | commands p => cases h

/-- **The timer's end of interrupt.** After `proc_init` and `scheduler_init`, in every run
of process calls and IRQ0s of which each finds nobody to switch to:
a tick takes the processor from no process before IRQ0 is acknowledged, a process that
executes its own code does so with IRQ0 acknowledged, and the tick of every IRQ0 returns. -/
theorem eoi_before_switch {rsp cr3 : Nat} {s0 : Procs} {pics : Pics} (hpics : ¬ InService pics)
    {es : List TimerEvent} {s : TimerSys} (hrun : Run UnopposedStep (boot rsp cr3 s0 pics) es s) :
    (∀ s', TimerStep s .tick s' → s'.procs.currentProc ≠ s.procs.currentProc →
      ¬ InService s.pics) ∧
    (s.now = .code → ¬ InService s.pics) ∧
    (∀ rest, s.now = .tick rest → ∃ s', TimerStep s .tick s') := by
  have hinit : TimerInv (boot rsp cr3 s0 pics) := ⟨fun _ _ => rfl, hpics⟩
  have h : TimerInv s := hrun.invariant (fun _ _ _ h hstep => h.step hstep) hinit
  have hhere := h.here
  refine ⟨fun s' hstep hswitch => ?_, fun hcode => ?_, fun rest htick => ?_⟩
  · cases hstep with
    | tick htick hrun =>
      rw [htick] at hhere
      obtain ⟨procs', hrun', hstays⟩ := hhere.1.tick
      obtain rfl := (hrun.unique hrun').2
      exact absurd (by rw [procs_leave, hstays]) hswitch
  · rwa [hcode] at hhere
  · rw [htick] at hhere
    obtain ⟨procs', hrun', -⟩ := hhere.1.tick
    exact ⟨_, .tick htick hrun'⟩

/-- The only process is interrupted: it is still the one that runs, and IRQ0 is
acknowledged, when it goes on. -/
theorem eoi_before_switch_alone : ∃ es s,
    Run UnopposedStep (boot 0 0 .bss ⟨0, 0⟩) es s ∧ es.length = 7 ∧
      s.procs.currentProc = some 1 ∧ s.now = .code ∧ ¬ InService s.pics := by
  have heval : (Run.exec (fun s e => if e.Unopposed s.procs then TimerEvent.exec 4 s e else none)
      (boot 0 0 .bss ⟨0, 0⟩)
      [.call (.call (.create ⟨[97], by decide⟩ 0x1000 0x8000 0)), .call (.call .yield),
        .irq0, .tick, .command, .command, .command]).map
      (fun r => (r.1.length, r.2.procs.currentProc, r.2.now.isCode)) =
      some (7, some 1, true) := by
    decide +kernel
  obtain ⟨⟨es, s⟩, hs, heq⟩ := Option.map_eq_some_iff.mp heval
  simp only [Prod.mk.injEq] at heq
  obtain ⟨hlength, hcurrent, hcode⟩ := heq
  have hrun : Run UnopposedStep (boot 0 0 .bss ⟨0, 0⟩) es s := by
    refine Run.of_exec (fun s e e' s' h => ?_) hs
    split at h
    next hunopposed =>
      obtain ⟨rfl, hstep⟩ := TimerEvent.exec_eq_some h
      exact ⟨hunopposed, hstep⟩
    next => cases h
  exact ⟨es, s, hrun, hlength, hcurrent, Frame.eq_code hcode,
    (eoi_before_switch (by decide) hrun).2.1 (Frame.eq_code hcode)⟩

/-- Two processes are created and idle yields to the first. An IRQ0 arrives, and its tick
gives the processor to the second, which executes while IRQ0 is in service. -/
theorem switch_before_eoi :
    ∃ es s s', Run TimerStep (boot 0 0 .bss ⟨0, 0⟩) es s ∧ TimerStep s .tick s' ∧
      s.procs.currentProc = some 1 ∧ s'.procs.currentProc = some 2 ∧ InService s.pics ∧
      s'.now = .code ∧ InService s'.pics := by
  have heval : ((Run.exec (TimerEvent.exec 4) (boot 0 0 .bss ⟨0, 0⟩)
      [.call (.call (.create ⟨[97], by decide⟩ 0x1000 0x8000 0)),
        .call (.call (.create ⟨[98], by decide⟩ 0x2000 0xC000 0)), .call (.call .yield),
        .irq0]).bind fun r => (TimerEvent.exec 4 r.2 .tick).map fun t =>
          (r.2.procs.currentProc, t.2.procs.currentProc, decide (InService r.2.pics),
            t.2.now.isCode, decide (InService t.2.pics))) =
      some (some 1, some 2, true, true, true) := by
    decide +kernel
  obtain ⟨⟨es, s⟩, hs, heval⟩ := Option.bind_eq_some_iff.mp heval
  obtain ⟨⟨e, s'⟩, hs', heq⟩ := Option.map_eq_some_iff.mp heval
  simp only [Prod.mk.injEq, decide_eq_true_eq] at heq
  obtain ⟨hfirst, hsecond, hbefore, hcode, hafter⟩ := heq
  have hrun : Run TimerStep (boot 0 0 .bss ⟨0, 0⟩) es s := by
    refine Run.of_exec (fun _ _ _ _ h => ?_) hs
    obtain ⟨rfl, hstep⟩ := TimerEvent.exec_eq_some h
    exact hstep
  exact ⟨es, s, s', hrun, (TimerEvent.exec_eq_some hs').2, hfirst, hsecond, hbefore,
    Frame.eq_code hcode, hafter⟩

end GosKernel.Irq
