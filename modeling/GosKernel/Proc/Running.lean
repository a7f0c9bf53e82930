import GosKernel.Proc.Scheduling

/-!
# At most one process runs

`g_current_proc` may point at a process that sleeps, is a zombie or is a recycled slot,
but a process that is `RUNNING` is the current one. No call needs the ready queue to be
well formed for that: relinking writes no state, and the only function that makes a
process `RUNNING` is `scheduler_yield`, after it took that state from the current one.

- `OnlyCurrentRuns.yield`, and one lemma for each of the calls;
- `single_running`: the invariant along every sequence of calls.
-/

namespace GosKernel.Proc

open Exec

/-! ## Signals (`src/proc/signal.c`) -/

def sigkill : Int := 9

def sigsegv : Int := 11

def sigterm : Int := 15

/-- `signal_send` (signal.c:24-36). A fatal signal ends the current process, whoever the
receiver is. -/
def signalSend (fuel : Nat) (proc : Option Slot) (sig : Int) : Exec Procs Unit := fun s =>
  match proc with
  | none => some ((), s)
  | some proc =>
    if sig < 0 ∨ sig ≥ 64 then some ((), s)
    else if (s.table proc).state = .unused then some ((), s)
    else if sig = sigkill ∨ sig = sigsegv ∨ sig = sigterm then procExit fuel sig s
    else some ((), s)

/-- A signal does nothing, or what `proc_exit` does. -/
theorem signalSend_cases (fuel : Nat) (proc : Option Slot) (sig : Int) (s : Procs) :
    signalSend fuel proc sig s = some ((), s) ∨
      signalSend fuel proc sig s = procExit fuel sig s := by
  cases proc with
  | none => exact .inl rfl
  | some proc =>
    unfold signalSend
    dsimp only
    split
    · exact .inl rfl
    · split
      · exact .inl rfl
      · split
        · exact .inr rfl
        · exact .inl rfl

/-- The calls on processes, and signals. -/
inductive RunCall
  | call (c : ProcCall)
  | signal (proc : Option Slot) (sig : Int)

def RunCall.run : RunCall → Nat → Exec Procs Unit
  | .call c, fuel => c.run fuel
  | .signal proc sig, fuel => signalSend fuel proc sig

/-- One call, run to its end. The arguments are any: also an unused slot may be destroyed. -/
def RunStep (s : Procs) (c : RunCall) (s' : Procs) : Prop := Converges c.run s () s'

theorem RunCall.converges {c : RunCall} {n : Nat} {s s' : Procs}
    (h : Returns (c.run n) s () s') : RunStep s c s' := by
  cases c with
  | call c => exact ProcCall.converges h
  | signal proc sig =>
    refine ⟨n, fun m hnm => ?_⟩
    revert h
    show signalSend n proc sig s = _ → signalSend m proc sig s = _
    cases proc with
    | none => exact id
    | some proc =>
      unfold signalSend
      dsimp only
      split_ifs
      · exact id
      · exact id
      · exact fun h => procExit_mono h hnm
      · exact id

/-- The calls with some fuel. -/
def RunCall.exec (fuel : Nat) (s : Procs) (c : RunCall) : Option (RunCall × Procs) :=
  (c.run fuel s).map fun r => (c, r.2)

theorem RunCall.run_of_exec {fuel : Nat} {s s' : Procs} {calls es : List RunCall}
    (h : Run.exec (RunCall.exec fuel) s calls = some (es, s')) : Run RunStep s es s' := by
  refine Run.of_exec (fun s c e s' hcall => ?_) h
  obtain ⟨⟨⟨⟩, s1⟩, hret, heq⟩ := Option.map_eq_some_iff.mp hcall
  cases heq
  exact RunCall.converges hret

/-! ## The invariant -/

/-- No process is `RUNNING`. -/
def NoneRuns (s : Procs) : Prop := ∀ i, (s.table i).state ≠ .running

/-- A process that is `RUNNING` is the current one. -/
def OnlyCurrentRuns (s : Procs) : Prop :=
  ∀ i, (s.table i).state = .running → s.currentProc = some i

section Lemmas

variable {s s' : Procs}

theorem NoneRuns.only (h : NoneRuns s) : OnlyCurrentRuns s := fun i hi => absurd hi (h i)

theorem NoneRuns.relinked (h : NoneRuns s) (hre : Relinked s s') : NoneRuns s' := by
  intro i
  rw [hre.state]
  exact h i

section

variable (h : OnlyCurrentRuns s)
include h

theorem OnlyCurrentRuns.relinked (hre : Relinked s s') : OnlyCurrentRuns s' := by
  intro i hi
  rw [hre.state] at hi
  rw [hre.current]
  exact h i hi

/-- A process changed to a state other than `RUNNING`. -/
theorem OnlyCurrentRuns.set {p : Slot} {f : Process → Process}
    (hf : (f (s.table p)).state ≠ .running) : OnlyCurrentRuns (s.set p f) := by
  intro i hi
  rw [set_table] at hi
  by_cases hip : i = p
  · rw [if_pos hip] at hi
    exact absurd hi hf
  · rw [if_neg hip] at hi
    exact h i hi

/-- If the current process does not run, none does. -/
theorem OnlyCurrentRuns.none
    (hcurrent : ∀ p, s.currentProc = some p → (s.table p).state ≠ .running) : NoneRuns s :=
  fun i hi => hcurrent i (h i hi) hi

/-! ## Yielding -/

/-- The current process, if it runs, is made ready. -/
theorem OnlyCurrentRuns.requeue : NoneRuns (schedulerRequeue s) := by
  unfold schedulerRequeue
  split
  next hcurrent => exact h.none fun p hp => absurd (hcurrent.symm.trans hp) nofun
  next current hcurrent =>
    split
    · -- the current process was the only one that could be running
      have hready : NoneRuns (s.set current fun p => { p with state := .ready }) := by
        refine OnlyCurrentRuns.none (h.set nofun) fun p hp => ?_
        cases hcurrent.symm.trans hp
        rw [set_table, if_pos rfl]
        nofun
      exact (hready.relinked (relinked_remove ..)).relinked (relinked_add ..)
    next hstate =>
      refine h.none fun p hp => ?_
      cases hcurrent.symm.trans hp
      exact hstate

omit h in
/-- The next process runs and becomes the current one. -/
theorem NoneRuns.run (h : NoneRuns s) (next : Option Slot) :
    OnlyCurrentRuns (schedulerRun s next) := by
  have hcurrent : (schedulerRun s next).currentProc = some (next.getD 0) := by
    unfold schedulerRun schedulerSwitchTo
    dsimp only
    split
    · assumption
    · rfl
  have htable : (schedulerRun s next).table
      = (s.set (next.getD 0) fun p => { p with state := .running }).table := by
    unfold schedulerRun schedulerSwitchTo
    dsimp only
    split <;> rfl
  intro i hi
  rw [htable, set_table] at hi
  by_cases hin : i = next.getD 0
  · rw [hcurrent, hin]
  · rw [if_neg hin] at hi
    exact absurd hi (h i)

theorem OnlyCurrentRuns.yield {fuel : Nat}
    (hrun : Returns (schedulerYield fuel) s () s') : OnlyCurrentRuns s' := by
  unfold Returns schedulerYield at hrun
  split at hrun
  · cases hrun
    exact h
  · obtain ⟨⟨s1, next⟩, hloop, heq⟩ := Option.map_eq_some_iff.mp hrun
    cases heq
    exact (h.requeue.relinked (relinked_yieldLoop hloop)).run next

/-! ## The calls -/

theorem OnlyCurrentRuns.create (name : CString) (entry stack cr3 : Nat) :
    OnlyCurrentRuns (procCreate name entry stack cr3 s).2 := by
  have hcount : OnlyCurrentRuns { s with nextPid := wrap32 (s.nextPid + 1) } := h
  rcases procCreate_cases name entry stack cr3 s with
    ⟨-, hsame⟩ | ⟨slot, q, -, -, ⟨-, heq, hstate, -⟩ | ⟨-, heq, hstate, -⟩⟩
  · rw [hsame]
    exact h
  · rw [heq]
    show OnlyCurrentRuns (Procs.set _ slot fun _ => q)
    refine hcount.set ?_
    rw [hstate]
    nofun
  · rw [heq]
    refine OnlyCurrentRuns.relinked (hcount.set ?_) (relinked_add ..)
    rw [hstate]
    nofun

theorem OnlyCurrentRuns.destroy (p : Slot) : OnlyCurrentRuns (procDestroy p s) := by
  unfold procDestroy
  split
  · exact h
  · exact (h.relinked (relinked_remove s p)).set nofun

theorem OnlyCurrentRuns.exit {fuel : Nat} {code : Int}
    (hrun : Returns (procExit fuel code) s () s') : OnlyCurrentRuns s' := by
  unfold Returns procExit at hrun
  split at hrun
  · cases hrun
    exact h
  · split at hrun
    · cases hrun
      exact h
    · refine OnlyCurrentRuns.yield (h.set ?_) hrun
      nofun

theorem OnlyCurrentRuns.sleep {fuel ms pitTicks pitHz : Nat}
    (hrun : Returns (procSleep fuel ms pitTicks pitHz) s () s') : OnlyCurrentRuns s' := by
  unfold Returns procSleep at hrun
  split at hrun
  · cases hrun
    exact h
  · split at hrun
    · cases hrun
      exact h
    · refine OnlyCurrentRuns.yield (h.set ?_) hrun
      nofun

theorem OnlyCurrentRuns.wake (slots : List Slot) :
    OnlyCurrentRuns (slots.foldl schedulerWake s) := by
  induction slots generalizing s with
  | nil => exact h
  | cons i slots ih =>
    refine ih (s := schedulerWake s i) ?_
    unfold schedulerWake
    split
    · refine OnlyCurrentRuns.relinked (h.set ?_) (relinked_add ..)
      nofun
    · exact h

theorem OnlyCurrentRuns.tick {fuel : Nat}
    (hrun : Returns (schedulerTick fuel) s () s') : OnlyCurrentRuns s' := by
  have hcount : OnlyCurrentRuns { s with schedulerTicks := wrap64 (s.schedulerTicks + 1) } := h
  have hwoken : OnlyCurrentRuns (woken s) := by
    unfold woken
    exact hcount.wake _
  unfold Returns at hrun
  rcases s.idle_or_busy with hidle | ⟨c, hc, hpid⟩
  · rw [schedulerTick_of_idle hidle] at hrun
    cases hrun
    exact hwoken
  · rw [schedulerTick_of_current hc hpid] at hrun
    exact hwoken.yield hrun

theorem OnlyCurrentRuns.signal {fuel : Nat} {proc : Option Slot} {sig : Int}
    (hrun : Returns (signalSend fuel proc sig) s () s') : OnlyCurrentRuns s' := by
  unfold Returns at hrun
  rcases signalSend_cases fuel proc sig s with heq | heq <;> rw [heq] at hrun
  · cases hrun
    exact h
  · exact h.exit hrun

theorem OnlyCurrentRuns.step {c : RunCall} (hstep : RunStep s c s') : OnlyCurrentRuns s' := by
  obtain ⟨fuel, hrun⟩ := hstep
  have hrun : Returns (c.run fuel) s () s' := hrun fuel (Nat.le_refl fuel)
  cases c with
  | signal proc sig => exact h.signal (show Returns (signalSend fuel proc sig) s () s' from hrun)
  | call c =>
    cases c with
    | create name entry stack cr3 =>
      cases hrun
      exact h.create name entry stack cr3
    | destroy proc =>
      cases hrun
      exact h.destroy proc
    | yield => exact h.yield (show Returns (schedulerYield fuel) s () s' from hrun)
    | sleep ms pitTicks pitHz =>
      exact h.sleep (show Returns (procSleep fuel ms pitTicks pitHz) s () s' from hrun)
    | exit code => exact h.exit (show Returns (procExit fuel code) s () s' from hrun)
    | tick => exact h.tick (show Returns (schedulerTick fuel) s () s' from hrun)

end

/-- After `proc_init` idle is ready, and no other process exists. -/
theorem noneRuns_init (rsp cr3 : Nat) (s : Procs) :
    NoneRuns (schedulerInit (procInit rsp cr3 s)) := by
  intro i
  rw [show ((schedulerInit (procInit rsp cr3 s)).table i).state = _ from
    (procInit_entry rsp cr3 s i).2.2]
  split <;> nofun

end Lemmas

/-- **Single running process.** After `proc_init` and `scheduler_init` and any sequence of calls, at
most one process is `RUNNING`, and if one is, it is `g_current_proc`. -/
theorem single_running {rsp cr3 : Nat} {s0 s : Procs} {calls : List RunCall}
    (hrun : Run RunStep (schedulerInit (procInit rsp cr3 s0)) calls s) :
    (∀ i j, (s.table i).state = .running → (s.table j).state = .running → i = j) ∧
    ∀ i, (s.table i).state = .running → s.currentProc = some i := by
  have h : OnlyCurrentRuns s :=
    hrun.invariant (fun _ _ _ h hstep => h.step hstep) (noneRuns_init rsp cr3 s0).only
  exact ⟨fun i j hi hj => Option.some.inj ((h i hi).symm.trans (h j hj)), h⟩

/-- A process is created and gets the processor from idle. -/
theorem single_running_first : ∃ calls s,
    Run RunStep (schedulerInit (procInit 0 0 .bss)) calls s ∧ (s.table 1).state = .running ∧
      s.currentProc = some 1 := by
  have heval : (Run.exec (RunCall.exec 4) (schedulerInit (procInit 0 0 .bss))
      [.call (.create ⟨[97], by decide⟩ 0x1000 0x8000 0), .call .yield]).map
      (fun r => (r.2.table 1).state) = some .running := by
    decide +kernel
  obtain ⟨⟨calls, s⟩, hs, hstate⟩ := Option.map_eq_some_iff.mp heval
  have hrun := RunCall.run_of_exec hs
  exact ⟨calls, s, hrun, hstate, (single_running hrun).2 1 hstate⟩

end GosKernel.Proc
