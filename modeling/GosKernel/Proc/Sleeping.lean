import GosKernel.Proc.Yielding

/-!
# How long a process sleeps (`proc_sleep`, `src/drivers/pit/pit.c`)

`proc_sleep` takes the time from `g_pit_ticks`, and `scheduler_tick` compares it with
`g_scheduler_ticks`. One interrupt counts both, but `scheduler_init` sets only the second to zero.

- `sleep_duration_iff`: a process sleeps as long as it should if and only if there was at most one
  such tick and the deadline is not `0`, which stands for none.
-/

namespace GosKernel.Proc

open Exec

/-! ## The timer -/

/-- The processes and `g_pit_ticks`. -/
structure Clocked where
  procs : Procs
  pitTicks : Nat

/-- A call on processes. -/
def onProcs (c : Exec Procs Unit) : Exec Clocked Unit := fun s =>
  (c s.procs).map fun r => ((), { s with procs := r.2 })

/-- `pit_handle_tick` (pit.c:33-39). -/
def pitHandleTick (fuel : Nat) : Exec Clocked Unit := do
  update fun s => { s with pitTicks := wrap64 (s.pitTicks + 1) }
  onProcs (schedulerTick fuel)

/-- `proc_sleep`, which reads the timer itself. -/
def procSleepFor (hz ms fuel : Nat) : Exec Clocked Unit := do
  let pitTicks ← Exec.read Clocked.pitTicks
  onProcs (procSleep fuel ms pitTicks hz)

/-- The calls, of which two use the timer. -/
inductive ClockCall
  | tick
  | sleep (ms : Nat)
  | other (c : RunCall)

def ClockCall.run (hz : Nat) : ClockCall → Nat → Exec Clocked Unit
  | .tick, fuel => pitHandleTick fuel
  | .sleep ms, fuel => procSleepFor hz ms fuel
  | .other c, fuel => onProcs (c.run fuel)

/-- The other calls are none of these two. -/
def ClockCall.Other : ClockCall → Prop
  | .other (.call .tick) | .other (.call (.sleep ..)) => False
  | _ => True

instance : (c : ClockCall) → Decidable c.Other
  | .other (.call .tick) | .other (.call (.sleep ..)) => .isFalse id
  | .tick | .sleep _ | .other (.signal ..) | .other (.call (.create ..))
  | .other (.call (.destroy _)) | .other (.call .yield) | .other (.call (.exit _)) => .isTrue trivial

/-- One call, run to its end. -/
def ClockStep (hz : Nat) (s : Clocked) (c : ClockCall) (s' : Clocked) : Prop :=
  c.Other ∧ Converges (c.run hz) s () s'

/-- After `proc_init` and `scheduler_init`, before which there were `early` ticks. -/
def clockBoot (rsp cr3 : Nat) (s : Procs) (early : Nat) : Clocked where
  procs := schedulerInit (procInit rsp cr3 s)
  pitTicks := wrap64 early

section Steps

variable {hz : Nat} {s s' : Clocked} {c : ClockCall}

theorem onProcs_returns {d : Exec Procs Unit} :
    Returns (onProcs d) s () s' ↔ Returns d s.procs () s'.procs ∧ s'.pitTicks = s.pitTicks := by
  unfold Returns onProcs
  constructor
  · intro h
    obtain ⟨⟨⟨⟩, procs⟩, hd, heq⟩ := Option.map_eq_some_iff.mp h
    cases heq
    exact ⟨hd, rfl⟩
  · rintro ⟨hd, hpit⟩
    rw [hd, Option.map_some, ← hpit]

theorem pitHandleTick_returns {fuel : Nat} : Returns (pitHandleTick fuel) s () s' ↔
    Returns (schedulerTick fuel) s.procs () s'.procs ∧ s'.pitTicks = wrap64 (s.pitTicks + 1) := by
  unfold pitHandleTick
  rw [Returns, (show Returns (update _) s () _ from rfl).bind_eq]
  exact onProcs_returns

theorem procSleepFor_returns {ms fuel : Nat} : Returns (procSleepFor hz ms fuel) s () s' ↔
    Returns (procSleep fuel ms s.pitTicks hz) s.procs () s'.procs ∧ s'.pitTicks = s.pitTicks := by
  exact onProcs_returns

theorem ClockCall.converges {n : Nat} (h : Returns (c.run hz n) s () s') :
    Converges (c.run hz) s () s' := by
  cases c with
  | tick =>
    obtain ⟨htick, hpit⟩ := pitHandleTick_returns.mp h
    exact ⟨n, fun m hnm => pitHandleTick_returns.mpr ⟨schedulerTick_mono htick hnm, hpit⟩⟩
  | sleep ms =>
    obtain ⟨hsleep, hpit⟩ := procSleepFor_returns.mp h
    obtain ⟨k, hconv⟩ := ProcCall.converges (c := .sleep ms s.pitTicks hz) hsleep
    exact ⟨k, fun m hkm => procSleepFor_returns.mpr ⟨hconv m hkm, hpit⟩⟩
  | other c =>
    obtain ⟨hcall, hpit⟩ := onProcs_returns.mp h
    obtain ⟨k, hconv⟩ := RunCall.converges hcall
    exact ⟨k, fun m hkm => onProcs_returns.mpr ⟨hconv m hkm, hpit⟩⟩

/-- A step is a call on the processes, and only the interrupt moves the timer. -/
theorem ClockStep.cases (h : ClockStep hz s c s') :
    ∃ c', RunStep s.procs c' s'.procs ∧
      (c' = .call .tick ∧ s'.pitTicks = wrap64 (s.pitTicks + 1) ∨
        c' ≠ .call .tick ∧ s'.pitTicks = s.pitTicks) := by
  obtain ⟨hother, n, hret⟩ := h
  have hret := hret n le_rfl
  cases c with
  | tick =>
    obtain ⟨htick, hpit⟩ := pitHandleTick_returns.mp hret
    exact ⟨.call .tick, RunCall.converges (n := n) htick, .inl ⟨rfl, hpit⟩⟩
  | sleep ms =>
    obtain ⟨hsleep, hpit⟩ := procSleepFor_returns.mp hret
    exact ⟨.call (.sleep ms s.pitTicks hz), RunCall.converges (n := n) hsleep, .inr ⟨nofun, hpit⟩⟩
  | other c =>
    obtain ⟨hcall, hpit⟩ := onProcs_returns.mp hret
    refine ⟨c, RunCall.converges hcall, .inr ⟨?_, hpit⟩⟩
    rintro rfl
    exact hother

end Steps

/-! ## Two counters -/

/-- The counters differ by the ticks that only one of them has seen. -/
structure ClockInv (early : Nat) (s : Clocked) : Prop where
  idle : IdleOk s.procs
  running : OnlyCurrentRuns s.procs
  clocks : s.pitTicks = wrap64 (s.procs.schedulerTicks + early)

namespace ClockInv

variable {hz early : Nat} {s s' : Clocked} {c : ClockCall}

theorem init (rsp cr3 : Nat) (s : Procs) (early : Nat) :
    ClockInv early (clockBoot rsp cr3 s early) where
  idle := .init rsp cr3 s
  running := (noneRuns_init rsp cr3 s).only
  clocks := congrArg wrap64 (Nat.zero_add early).symm

theorem step (h : ClockInv early s) (hstep : ClockStep hz s c s') : ClockInv early s' := by
  obtain ⟨c', hrun, hclock⟩ := hstep.cases
  refine ⟨h.idle.step hrun, h.running.step hrun, ?_⟩
  rcases hclock with ⟨rfl, hpit⟩ | ⟨hne, hpit⟩
  · obtain ⟨n, hret⟩ := hrun
    have hret : Returns (schedulerTick n) s.procs () s'.procs := hret n le_rfl
    have hticks := (h.idle.tick_switches hret).ticks
    rw [hpit, h.clocks, hticks, woken_ticks]
    unfold wrap64
    omega
  · rw [hpit, h.clocks, h.idle.ticks hne hrun]

end ClockInv

/-! ## Naps -/

/-- Process `q`, which fell asleep until `w` when the scheduler had counted `start` ticks, after `k` more:
asleep, or woken. -/
def Nap (start w k : Nat) (q : Process) : Prop :=
  q.state = .blocked ∧ q.wakeTime = w ∧ (k = 0 ∨ w = 0 ∨ start + k < w) ∨
    q.state.Runnable ∧ 0 < k ∧ 0 < w ∧ w ≤ start + k

theorem not_runnable_blocked : ¬ ProcState.blocked.Runnable := by
  rintro (h | h) <;> cases h

section Ticks

variable {s s' : Procs} {p : Slot} {fuel : Nat}

theorem IdleOk.tick_awake (h : IdleOk s) (hp : (s.table p).state.Runnable)
    (hret : Returns (schedulerTick fuel) s () s') : (s'.table p).state.Runnable := by
  refine ((h.tick_switches hret).state p).runnable ?_
  rw [woken_state]
  · exact hp
  · intro hblocked
    rw [hblocked] at hp
    exact not_runnable_blocked hp

/-- **One tick**: it wakes the process if and only if it reaches its time. -/
theorem Nap.tick {start w k : Nat} (h : IdleOk s) (hp : p ≠ 0) (hnap : Nap start w k (s.table p))
    (hticks : s.schedulerTicks = start + k) (hlt : start + k + 1 < 2 ^ 64)
    (hret : Returns (schedulerTick fuel) s () s') : Nap start w (k + 1) (s'.table p) := by
  have hsw := h.tick_switches hret
  rcases hnap with ⟨hblocked, hwake, -⟩ | ⟨hawake, -, hpos, hle⟩
  · have hdue : wakes (s.table p) (wrap64 (s.schedulerTicks + 1)) ↔ 0 < w ∧ w ≤ start + k + 1 := by
      rw [hticks, wrap64_of_lt hlt]
      simp [wakes, hblocked, hwake]
    by_cases hnow : 0 < w ∧ w ≤ start + k + 1
    · have hready : ((woken s).table p).state.Runnable := .inl (woken_wakes hp (hdue.mpr hnow))
      exact .inr ⟨(hsw.state p).runnable hready, Nat.succ_pos k, hnow⟩
    · obtain ⟨hstate, htime⟩ := woken_of_not_due (mt hdue.mp hnow)
      have hstill := hsw.state p
      rw [hstate, hblocked] at hstill
      refine .inl ⟨hstill.eq not_runnable_blocked, ?_, by omega⟩
      rw [hsw.wake, htime, hwake]
  · exact .inr ⟨h.tick_awake hawake hret, Nat.succ_pos k, hpos, by omega⟩

end Ticks

section Runs

variable {hz : Nat} {s s' : Clocked} {p : Slot}

/-- What every tick keeps holds after any number of them. -/
theorem ticks_induct {I : Nat → Clocked → Prop} {j k : Nat}
    (hstep : ∀ k s s' n, I k s → Returns (pitHandleTick n) s () s' → I (k + 1) s')
    (hstart : I j s) (hrun : Run (ClockStep hz) s (List.replicate k .tick) s') : I (j + k) s' := by
  induction k generalizing s j with
  | zero =>
    cases hrun
    exact hstart
  | succ k ih =>
    cases hrun with
    | cons htick hrest =>
      obtain ⟨-, n, hret⟩ := htick
      have hnext := hstep j s _ n hstart (hret n le_rfl)
      have hlast := ih hnext hrest
      rwa [Nat.add_right_comm] at hlast

theorem exists_ticks (hz : Nat) (s : Clocked) (k : Nat) :
    ∃ s', Run (ClockStep hz) s (List.replicate k .tick) s' := by
  induction k generalizing s with
  | zero => exact ⟨s, .nil s⟩
  | succ k ih =>
    obtain ⟨procs, n, htick⟩ := schedulerTick_total s.procs
    obtain ⟨s', hrun⟩ := ih ⟨procs, wrap64 (s.pitTicks + 1)⟩
    exact ⟨s', .cons ⟨trivial, n, fun fuel hfuel =>
      pitHandleTick_returns.mpr ⟨htick fuel hfuel, rfl⟩⟩ hrun⟩

/-- The timer counts all ticks, also those before `proc_init` and `scheduler_init`. -/
theorem exists_clockBoot (hz rsp cr3 early : Nat) : ∃ s,
    Run (ClockStep hz) ⟨.bss, 0⟩ (List.replicate early .tick) s ∧
      ⟨schedulerInit (procInit rsp cr3 s.procs), s.pitTicks⟩ = clockBoot rsp cr3 s.procs early := by
  obtain ⟨s, hrun⟩ := exists_ticks hz ⟨.bss, 0⟩ early
  have hpit := ticks_induct (I := fun k s => s.pitTicks = wrap64 k) (j := 0) ?_ rfl hrun
  · rw [Nat.zero_add] at hpit
    exact ⟨s, hrun, by rw [hpit]; rfl⟩
  · intro k s s' n hpit htick
    rw [(pitHandleTick_returns.mp htick).2, hpit]
    exact Nat.mod_add_mod k (2 ^ 64) 1

/-- **All ticks** up to the overflow of the counter. -/
theorem Nap.ticks {start w k : Nat} (h : IdleOk s.procs) (hp : p ≠ 0)
    (hblocked : (s.procs.table p).state = .blocked) (hwake : (s.procs.table p).wakeTime = w)
    (hticks : s.procs.schedulerTicks = start) (hlt : start + k < 2 ^ 64)
    (hrun : Run (ClockStep hz) s (List.replicate k .tick) s') :
    Nap start w k (s'.procs.table p) := by
  have hall := ticks_induct (I := fun k s => start + k < 2 ^ 64 → IdleOk s.procs ∧
    s.procs.schedulerTicks = start + k ∧ Nap start w k (s.procs.table p)) (j := 0) ?_
    (fun _ => ⟨h, hticks, .inl ⟨hblocked, hwake, .inl rfl⟩⟩) hrun
  · rw [Nat.zero_add] at hall
    exact (hall hlt).2.2
  · intro k s s' n hI htick hlt
    obtain ⟨hret, -⟩ := pitHandleTick_returns.mp htick
    obtain ⟨hidle, hticks, hnap⟩ := hI (by omega)
    have hsw := hidle.tick_switches hret
    refine ⟨hidle.woken.switches hsw, ?_, hnap.tick hidle hp hticks (by omega) hret⟩
    rw [hsw.ticks, woken_ticks, hticks, wrap64_of_lt (by omega), Nat.add_assoc]

theorem awake_ticks {k : Nat} (h : IdleOk s.procs) (hp : (s.procs.table p).state.Runnable)
    (hrun : Run (ClockStep hz) s (List.replicate k .tick) s') :
    (s'.procs.table p).state.Runnable := by
  have hall := ticks_induct (I := fun _ s => IdleOk s.procs ∧ (s.procs.table p).state.Runnable)
    (j := 0) ?_ ⟨h, hp⟩ hrun
  · exact hall.2
  · rintro k s s' n ⟨hidle, hawake⟩ htick
    obtain ⟨hret, -⟩ := pitHandleTick_returns.mp htick
    exact ⟨hidle.woken.switches (hidle.tick_switches hret), hidle.tick_awake hawake hret⟩

end Runs

/-! ## The duration -/

/-- `d = ms * g_pit_hz / 1000`, the ticks that a process is to sleep for. -/
def napTicks (hz ms : Nat) : Nat := ms * hz / 1000

/-- After `proc_sleep(ms)` process `p` is blocked after each of the first `d - 1` ticks, and no longer
blocked after the `d + 1`st. -/
def SleepsFor (hz ms : Nat) (s : Clocked) (p : Slot) : Prop :=
  ∃ s1, Converges (procSleepFor hz ms) s () s1 ∧
    ∀ k, ∃ s', Run (ClockStep hz) s1 (List.replicate k .tick) s' ∧
      (k < napTicks hz ms → (s'.procs.table p).state = .blocked) ∧
      (k = napTicks hz ms + 1 → (s'.procs.table p).state ≠ .blocked)

section Duration

variable {hz ms : Nat} {s s1 : Clocked} {p : Slot}

theorem procSleepFor_total (hz ms : Nat) (s : Clocked) :
    ∃ s1, Converges (procSleepFor hz ms) s () s1 := by
  obtain ⟨procs, n, hsleep⟩ := stopCurrent_total s.procs fun p =>
    { p with wakeTime := wrap64 (s.pitTicks + wrap64 (ms * hz) / 1000), state := .blocked }
  refine ⟨⟨procs, s.pitTicks⟩, n, fun fuel hfuel => procSleepFor_returns.mpr ⟨?_, rfl⟩⟩
  exact hsleep fuel hfuel

/-- The current process falls asleep. -/
theorem procSleepFor_blocks {fuel : Nat} (h : IdleOk s.procs) (hp : s.procs.currentProc = some p)
    (hpid : (s.procs.table p).pid ≠ 0) (hret : Returns (procSleepFor hz ms fuel) s () s1) :
    IdleOk s1.procs ∧ s1.procs.schedulerTicks = s.procs.schedulerTicks ∧
      (s1.procs.table p).state = .blocked ∧
      (s1.procs.table p).wakeTime = wrap64 (s.pitTicks + wrap64 (ms * hz) / 1000) := by
  obtain ⟨-, hidle⟩ | ⟨c, hc, -, hset, hsw⟩ := h.stop_cases (procSleepFor_returns.mp hret).1
  · exact absurd (hidle p hp) hpid
  cases hp.symm.trans hc
  have hstate := hsw.state p
  rw [set_table, if_pos rfl] at hstate
  refine ⟨hset.switches hsw, hsw.ticks, hstate.eq not_runnable_blocked, ?_⟩
  rw [hsw.wake, set_table, if_pos rfl]

/-- A process that has the pid of idle does not. -/
theorem procSleepFor_of_idle {fuel : Nat} (h : IdleOk s.procs) (hp : s.procs.currentProc = some p)
    (hpid : (s.procs.table p).pid = 0) (hret : Returns (procSleepFor hz ms fuel) s () s1) :
    s1.procs = s.procs := by
  obtain ⟨hsame, -⟩ | ⟨c, hc, hne, -⟩ := h.stop_cases (procSleepFor_returns.mp hret).1
  · exact hsame
  · cases hp.symm.trans hc
    exact absurd hpid hne

theorem sleepsFor_of_idle (h : IdleOk s.procs) (hp : s.procs.currentProc = some p)
    (hpid : (s.procs.table p).pid = 0) (hrunning : (s.procs.table p).state = .running) :
    SleepsFor hz ms s p ↔ napTicks hz ms = 0 := by
  have hawake : ∀ {s1 s' k}, Converges (procSleepFor hz ms) s () s1 →
      Run (ClockStep hz) s1 (List.replicate k .tick) s' →
        (s'.procs.table p).state ≠ .blocked := by
    rintro s1 s' k ⟨n, hret⟩ hticks hblocked
    have hsame := procSleepFor_of_idle h hp hpid (hret n le_rfl)
    have hstill := awake_ticks (p := p) (hsame ▸ h) (.inr (hsame ▸ hrunning)) hticks
    rw [hblocked] at hstill
    exact not_runnable_blocked hstill
  constructor
  · rintro ⟨s1, hret, hk⟩
    obtain ⟨s', hticks, hblocked, -⟩ := hk 0
    exact Nat.eq_zero_of_not_pos fun hpos => hawake hret hticks (hblocked hpos)
  · intro hzero
    obtain ⟨s1, hret⟩ := procSleepFor_total hz ms s
    refine ⟨s1, hret, fun k => ?_⟩
    obtain ⟨s', hticks⟩ := exists_ticks hz s1 k
    exact ⟨s', hticks, fun hlt => by omega, fun _ => hawake hret hticks⟩

theorem sleepsFor_iff {early : Nat} (h : IdleOk s.procs) (hp : p ≠ 0)
    (hcurrent : s.procs.currentProc = some p) (hpid : (s.procs.table p).pid ≠ 0)
    (hpit : s.pitTicks = s.procs.schedulerTicks + early) (hms : ms * hz < 2 ^ 64)
    (hfit : s.procs.schedulerTicks + early + napTicks hz ms + 1 < 2 ^ 64) :
    SleepsFor hz ms s p ↔ early ≤ 1 ∧ 0 < s.pitTicks + napTicks hz ms := by
  have hwake : wrap64 (s.pitTicks + wrap64 (ms * hz) / 1000) = s.pitTicks + napTicks hz ms := by
    rw [wrap64_of_lt hms]
    exact wrap64_of_lt (by unfold napTicks at *; omega)
  -- the deadline is taken from one counter and compared with the other, which is `early` behind
  have hnap : ∀ {s1 s' k}, Converges (procSleepFor hz ms) s () s1 → k ≤ napTicks hz ms + 1 →
      Run (ClockStep hz) s1 (List.replicate k .tick) s' →
        Nap s.procs.schedulerTicks (s.pitTicks + napTicks hz ms) k (s'.procs.table p) := by
    rintro s1 s' k ⟨n, hret⟩ hk hticks
    obtain ⟨hidle, hcount, hblocked, htime⟩ := procSleepFor_blocks h hcurrent hpid (hret n le_rfl)
    exact Nap.ticks hidle hp hblocked (htime.trans hwake) hcount (by omega) hticks
  constructor
  · rintro ⟨s1, hret, hk⟩
    obtain ⟨s', hticks, -, hawake⟩ := hk (napTicks hz ms + 1)
    rcases hnap hret le_rfl hticks with ⟨hblocked, -⟩ | ⟨-, -, hpos, hle⟩
    · exact absurd hblocked (hawake rfl)
    · exact ⟨by omega, hpos⟩
  · rintro ⟨hearly, hpos⟩
    obtain ⟨s1, hret⟩ := procSleepFor_total hz ms s
    refine ⟨s1, hret, fun k => ?_⟩
    obtain ⟨s', hticks⟩ := exists_ticks hz s1 k
    refine ⟨s', hticks, fun hlt => ?_, ?_⟩
    · rcases hnap hret (by omega) hticks with ⟨hblocked, -⟩ | ⟨-, -, -, hle⟩
      · exact hblocked
      · omega
    · rintro rfl hblocked
      rcases hnap hret le_rfl hticks with ⟨-, -, hnot⟩ | ⟨hawake, -⟩
      · omega
      · rw [hblocked] at hawake
        exact not_runnable_blocked hawake

end Duration

/-- **How long a process sleeps.** In every state that calls reach after `early` ticks and then
`scheduler_init`, for every process but idle that runs and every `ms` such that `ms * g_pit_hz` and
the counters do not overflow: `proc_sleep(ms)` blocks it for `d` ticks, up to one more, if and only if
at most one tick was early and the time to wake up is not `0`. (A process that has the pid of idle is
not blocked at all.) -/
theorem sleep_duration_iff {hz rsp cr3 early : Nat} {s0 : Procs} {calls : List ClockCall}
    {s : Clocked} (hrun : Run (ClockStep hz) (clockBoot rsp cr3 s0 early) calls s) {p : Slot}
    (hp : p ≠ 0) (hrunning : (s.procs.table p).state = .running) {ms : Nat} (hms : ms * hz < 2 ^ 64)
    (hfit : s.procs.schedulerTicks + early + napTicks hz ms + 1 < 2 ^ 64) :
    SleepsFor hz ms s p ↔
      (s.procs.table p).pid ≠ 0 ∧ early ≤ 1 ∧ 0 < s.pitTicks + napTicks hz ms ∨
        (s.procs.table p).pid = 0 ∧ napTicks hz ms = 0 := by
  have hinv : ClockInv early s :=
    Run.invariant (I := ClockInv early) (fun _ _ _ h hstep => h.step hstep) hrun
      (.init rsp cr3 s0 early)
  have hcurrent := hinv.running p hrunning
  have hpit : s.pitTicks = s.procs.schedulerTicks + early := by
    rw [hinv.clocks, wrap64_of_lt (by omega)]
  by_cases hpid : (s.procs.table p).pid = 0
  · rw [sleepsFor_of_idle hinv.idle hcurrent hpid hrunning]
    exact ⟨fun h => .inr ⟨hpid, h⟩, fun h => (h.resolve_left fun hne => hne.1 hpid).2⟩
  · rw [sleepsFor_iff hinv.idle hp hcurrent hpid hpit hms hfit]
    exact ⟨fun h => .inl ⟨hpid, h⟩, fun h => (h.resolve_right fun hzero => hpid hzero.1).2⟩

/-- The calls with some fuel. -/
def ClockCall.exec (hz fuel : Nat) (s : Clocked) (c : ClockCall) : Option (ClockCall × Clocked) :=
  if c.Other then (c.run hz fuel s).map fun r => (c, r.2) else none

theorem ClockCall.run_of_exec {hz fuel : Nat} {s s' : Clocked} {calls es : List ClockCall}
    (h : Run.exec (ClockCall.exec hz fuel) s calls = some (es, s')) :
    Run (ClockStep hz) s es s' := by
  refine Run.of_exec (fun s c e s' hcall => ?_) h
  unfold ClockCall.exec at hcall
  split at hcall
  next hother =>
    obtain ⟨⟨⟨⟩, s1⟩, hret, heq⟩ := Option.map_eq_some_iff.mp hcall
    cases heq
    exact ⟨hother, ClockCall.converges hret⟩
  · cases hcall

/-- A process is created and runs. -/
def firstRuns : List ClockCall :=
  [.other (.call (.create .empty 0x1000 0x8000 0)), .other (.call .yield)]

/-- Without early ticks, ten milliseconds at 100 Hz are one tick. -/
theorem sleep_duration_iff_first : ∃ calls s, Run (ClockStep 100) (clockBoot 0 0 .bss 0) calls s ∧
    (s.procs.table 1).state = .running ∧ SleepsFor 100 10 s 1 := by
  have heval : (Run.exec (ClockCall.exec 100 4) (clockBoot 0 0 .bss 0) firstRuns).map
      (fun r => ((r.2.procs.table 1).state, (r.2.procs.table 1).pid, r.2.procs.schedulerTicks,
        r.2.pitTicks)) = some (.running, 1, 0, 0) := by
    decide +kernel
  obtain ⟨⟨calls, s⟩, hs, heq⟩ := Option.map_eq_some_iff.mp heval
  obtain ⟨hstate, hpid, hticks, hpit⟩ : (s.procs.table 1).state = .running ∧
    (s.procs.table 1).pid = 1 ∧ s.procs.schedulerTicks = 0 ∧ s.pitTicks = 0 := by simpa using heq
  have hrun := ClockCall.run_of_exec hs
  refine ⟨calls, s, hrun, hstate, (sleep_duration_iff hrun (by decide) hstate (by decide) ?_).mpr
    (.inl ⟨?_, by decide, ?_⟩)⟩
  · rw [hticks]
    decide
  · rw [hpid]
    decide
  · rw [hpit]
    decide

/-- After two early ticks, the process still sleeps two ticks later. -/
theorem sleep_too_long : ∃ calls s s1 s', Run (ClockStep 100) (clockBoot 0 0 .bss 2) calls s ∧
    (s.procs.table 1).state = .running ∧ napTicks 100 10 = 1 ∧
    Converges (procSleepFor 100 10) s () s1 ∧ Run (ClockStep 100) s1 [.tick, .tick] s' ∧
    (s'.procs.table 1).state = .blocked := by
  have heval : ((Run.exec (ClockCall.exec 100 4) (clockBoot 0 0 .bss 2) firstRuns).bind fun r =>
      (procSleepFor 100 10 4 r.2).bind fun r1 => (pitHandleTick 4 r1.2).bind fun r2 =>
        (pitHandleTick 4 r2.2).map fun r3 =>
          ((r.2.procs.table 1).state, (r3.2.procs.table 1).state))
      = some (.running, .blocked) := by
    decide +kernel
  obtain ⟨⟨calls, s⟩, hs, heval⟩ := Option.bind_eq_some_iff.mp heval
  obtain ⟨⟨⟨⟩, s1⟩, hsleep, heval⟩ := Option.bind_eq_some_iff.mp heval
  obtain ⟨⟨⟨⟩, s2⟩, hfirst, heval⟩ := Option.bind_eq_some_iff.mp heval
  obtain ⟨⟨⟨⟩, s3⟩, hsecond, heq⟩ := Option.map_eq_some_iff.mp heval
  obtain ⟨hrunning, hblocked⟩ : (s.procs.table 1).state = .running ∧
    (s3.procs.table 1).state = .blocked := by simpa using heq
  exact ⟨calls, s, s1, s3, ClockCall.run_of_exec hs, hrunning, rfl,
    ClockCall.converges (c := .sleep 10) hsleep,
    .cons ⟨trivial, ClockCall.converges (c := .tick) hfirst⟩
      (.cons ⟨trivial, ClockCall.converges (c := .tick) hsecond⟩ (.nil _)), hblocked⟩

end GosKernel.Proc
