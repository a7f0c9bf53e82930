import GosKernel.Proc.Yielding
import GosKernel.Proc.Pids

/-!
# Whom a signal hits (`src/proc/signal.c`)

`signal_send` calls `proc_exit`, which ends the current process. The receiver of the signal is
only looked at to see that it exists.

- `procExit_hits`: what it does, to the current process;
- `signal_hits_iff`: the two are the same if and only if the receiver is the current process, or
  there is nothing left to do for either of them.
-/

namespace GosKernel.Proc

open Exec

/-- The signals that end a process. -/
def Fatal (sig : Int) : Prop := sig = sigkill ∨ sig = sigsegv ∨ sig = sigterm

/-- Process `p` has ended with code `sig`, and all other processes are as they were, up to a switch of
the scheduler. -/
structure Hits (s s' : Procs) (p : Slot) (sig : Int) : Prop where
  state : (s'.table p).state = .zombie
  code : (s'.table p).exitCode = sig
  rest : ∀ q, q ≠ p → Switched (s.table q).state (s'.table q).state ∧
    (s'.table q).exitCode = (s.table q).exitCode

/-- Process `p` ended with code `sig` before. -/
def Ended (s : Procs) (p : Slot) (sig : Int) : Prop :=
  (s.table p).state = .zombie ∧ (s.table p).exitCode = sig

section Lemmas

variable {s s' : Procs} {p c : Slot} {sig : Int}

theorem zombie_not_runnable : ¬ ProcState.zombie.Runnable := by
  rintro (h | h) <;> cases h

theorem Switched.of_zombie {st : ProcState} (h : Switched .zombie st) : st = .zombie :=
  h.eq zombie_not_runnable

theorem Switched.to_zombie {st : ProcState} (h : Switched st .zombie) : st = .zombie :=
  (h.resolve_right fun hboth => zombie_not_runnable hboth.2).symm

theorem signalSend_fatal (hlive : Live s p) (hsig : Fatal sig) (fuel : Nat) :
    signalSend fuel (some p) sig s = procExit fuel sig s := by
  have hrange : ¬ (sig < 0 ∨ sig ≥ 64) := by
    rcases hsig with rfl | rfl | rfl <;> decide
  unfold signalSend
  dsimp only
  rw [if_neg hrange, if_neg hlive]
  exact if_pos hsig

theorem procExit_hits (h : IdleOk s) (hc : s.currentProc = some c) (hpid : (s.table c).pid ≠ 0)
    (sig : Int) : ∃ s', Converges (fun fuel => procExit fuel sig) s () s' ∧ Hits s s' c sig := by
  obtain ⟨s', n, hexit⟩ := stopCurrent_total s fun p => { p with exitCode := sig, state := .zombie }
  obtain ⟨-, hidle⟩ | ⟨c', hc', -, -, hsw⟩ := h.stop_cases (hexit n le_rfl)
  · exact absurd (hidle c hc) hpid
  cases hc.symm.trans hc'
  refine ⟨s', ⟨n, hexit⟩, ?_, ?_, fun q hq => ?_⟩
  · have hstate := hsw.state c
    rw [set_table, if_pos rfl] at hstate
    exact hstate.of_zombie
  · rw [hsw.exit, set_table, if_pos rfl]
  · have hstate := hsw.state q
    rw [set_table, if_neg hq] at hstate
    refine ⟨hstate, ?_⟩
    rw [hsw.exit, set_table, if_neg hq]

/-- One call hits two processes if both had ended already. -/
theorem Hits.iff_ended (h : Hits s s' c sig) (hne : p ≠ c) :
    Hits s s' p sig ↔ Ended s p sig ∧ Ended s c sig := by
  obtain ⟨hpstate, hpcode⟩ := h.rest p hne
  constructor
  · intro hp
    obtain ⟨hcstate, hccode⟩ := hp.rest c hne.symm
    rw [hp.state] at hpstate
    rw [h.state] at hcstate
    exact ⟨⟨hpstate.to_zombie, hpcode.symm.trans hp.code⟩,
      hcstate.to_zombie, hccode.symm.trans h.code⟩
  · rintro ⟨hp, hc⟩
    rw [hp.1] at hpstate
    refine ⟨hpstate.of_zombie, hpcode.trans hp.2, fun q hq => ?_⟩
    by_cases hqc : q = c
    · rw [hqc, hc.1, h.state, hc.2, h.code]
      exact ⟨.inl rfl, rfl⟩
    · exact h.rest q hqc

end Lemmas

/-- **Signals.** In every state that calls and signals reach, for every process `p` but idle and every
fatal signal: `signal_send` returns and hits `p` and nobody else, if and only if `p` is the current
process and does not have the pid of idle, or `p` and the process that is hit in its place, if there
is one, have ended with that code before. -/
theorem signal_hits_iff {rsp cr3 : Nat} {s0 s : Procs} {calls : List RunCall}
    (hrun : Run RunStep (schedulerInit (procInit rsp cr3 s0)) calls s) {p : Slot} (hlive : Live s p)
    {sig : Int} (hsig : Fatal sig) :
    (∃ s', Converges (fun fuel => signalSend fuel (some p) sig) s () s' ∧ Hits s s' p sig) ↔
      s.currentProc = some p ∧ (s.table p).pid ≠ 0 ∨
        Ended s p sig ∧ ∀ c, s.currentProc = some c → (s.table c).pid ≠ 0 → Ended s c sig := by
  have hok : IdleOk s :=
    Run.invariant (I := IdleOk) (fun _ _ _ h hstep => h.step hstep) hrun (.init rsp cr3 s0)
  have hconv : ∀ s', Converges (fun fuel => signalSend fuel (some p) sig) s () s' ↔
      Converges (fun fuel => procExit fuel sig) s () s' := by
    intro s'
    unfold Converges Returns
    simp only [signalSend_fatal hlive hsig]
  simp only [hconv]
  rcases s.idle_or_busy with hidle | ⟨c, hc, hpid⟩
  · -- nobody is hit
    have hsame : Converges (fun fuel => procExit fuel sig) s () s :=
      ⟨0, fun fuel _ => stopCurrent_of_idle hidle fuel⟩
    constructor
    · rintro ⟨s', hret, hits⟩
      obtain ⟨-, rfl⟩ := hret.unique hsame
      exact .inr ⟨⟨hits.state, hits.code⟩, fun c hc hpid => absurd (hidle c hc) hpid⟩
    · rintro (⟨hp, hpid⟩ | ⟨hended, -⟩)
      · exact absurd (hidle p hp) hpid
      · exact ⟨s, hsame, hended.1, hended.2, fun q _ => ⟨.inl rfl, rfl⟩⟩
  · obtain ⟨s', hret, hits⟩ := procExit_hits hok hc hpid sig
    have honly : (∃ s', Converges (fun fuel => procExit fuel sig) s () s' ∧ Hits s s' p sig) ↔
        Hits s s' p sig := by
      refine ⟨?_, fun h => ⟨s', hret, h⟩⟩
      rintro ⟨s'', hret', h⟩
      obtain ⟨-, rfl⟩ := hret'.unique hret
      exact h
    rw [honly]
    by_cases hpc : p = c
    · rw [hpc]
      exact iff_of_true hits (.inl ⟨hc, hpid⟩)
    · rw [hits.iff_ended hpc]
      constructor
      · rintro ⟨hp, hended⟩
        refine .inr ⟨hp, fun c' hc' _ => ?_⟩
        cases hc.symm.trans hc'
        exact hended
      · rintro (⟨hp, -⟩ | ⟨hp, hended⟩)
        · exact absurd (Option.some.inj (hp.symm.trans hc)) hpc
        · exact ⟨hp, hended c hc hpid⟩

/-- Two processes, of which the first runs. -/
def twoProcesses : List RunCall :=
  [.call (.create .empty 0x1000 0x8000 0),
    .call (.create .empty 0x2000 0xC000 0), .call .yield]

/-- The first process is killed by its own signal. -/
theorem signal_hits_iff_self : ∃ calls s, Run RunStep (schedulerInit (procInit 0 0 .bss)) calls s ∧
    ∃ s', Converges (fun fuel => signalSend fuel (some 1) sigkill) s () s' ∧ Hits s s' 1 sigkill := by
  have heval : (Run.exec (RunCall.exec 4) (schedulerInit (procInit 0 0 .bss)) twoProcesses).map
      (fun r => (r.2.currentProc, (r.2.table 1).state, (r.2.table 1).pid))
        = some (some 1, .running, 1) := by
    decide +kernel
  obtain ⟨⟨calls, s⟩, hs, heq⟩ := Option.map_eq_some_iff.mp heval
  obtain ⟨hcurrent, hstate, hpid⟩ : s.currentProc = some 1 ∧ (s.table 1).state = .running ∧
    (s.table 1).pid = 1 := by simpa using heq
  have hrun := RunCall.run_of_exec hs
  have hlive : Live s 1 := by
    rw [Live, hstate]
    nofun
  exact ⟨calls, s, hrun, (signal_hits_iff hrun hlive (.inl rfl)).mpr
    (.inl ⟨hcurrent, by rw [hpid]; decide⟩)⟩

/-- A signal to the second process kills the first, and the second goes on. -/
theorem signal_hits_sender : ∃ calls s s', Run RunStep (schedulerInit (procInit 0 0 .bss)) calls s ∧
    RunStep s (.signal (some 2) sigkill) s' ∧
    (s.table 1).state = .running ∧ (s.table 2).state = .ready ∧
    (s'.table 1).state = .zombie ∧ (s'.table 1).exitCode = sigkill ∧
    (s'.table 2).state = .running := by
  have heval : ((Run.exec (RunCall.exec 4) (schedulerInit (procInit 0 0 .bss)) twoProcesses).bind
      fun r => (signalSend 4 (some 2) sigkill r.2).map fun r' =>
        ((r.2.table 1).state, (r.2.table 2).state, (r'.2.table 1).state, (r'.2.table 1).exitCode,
          (r'.2.table 2).state)) = some (.running, .ready, .zombie, sigkill, .running) := by
    decide +kernel
  obtain ⟨⟨calls, s⟩, hs, heval⟩ := Option.bind_eq_some_iff.mp heval
  obtain ⟨⟨⟨⟩, s'⟩, hret, heq⟩ := Option.map_eq_some_iff.mp heval
  have hstep : RunStep s (.signal (some 2) sigkill) s' := RunCall.converges (n := 4) hret
  exact ⟨calls, s, s', RunCall.run_of_exec hs, hstep, by simpa using heq⟩

end GosKernel.Proc
