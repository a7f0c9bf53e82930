import GosKernel.Proc.Running

/-!
# `scheduler_yield` in any state

Calls that are not orderly leave a ready queue with links that lead anywhere. Two things can be
said about `scheduler_yield` all the same.

- It returns (`schedulerYield_total`): a process that its loop removes loses its successor, and
  if its predecessor gains one, then the next removal takes that away.
- It writes links, and makes processes that are `READY` or `RUNNING` the other of the two
  (`schedulerYield_switches`), so a process that is neither stays as it is.

`IdleOk`: idle has pid `0` and is one of the processes that may be switched to.
-/

namespace GosKernel.Proc

open Exec

/-! ## Termination -/

/-- What `scheduler_remove` does to the links, also where the process is its own neighbour. -/
theorem schedulerRemove_links (s : Procs) (p i : Slot) :
    ((schedulerRemove s p).table i).next = (if i = p then none
      else if (s.table p).prev = some i then (s.table p).next else (s.table i).next) ∧
    ((schedulerRemove s p).table i).prev = if i = p then none
      else if (s.table p).next = some i then (s.table p).prev else (s.table i).prev := by
  have hlinks : ((s.setNextOf (s.table p).prev (s.table p).next).table p).next = (s.table p).next ∧
      ((s.setNextOf (s.table p).prev (s.table p).next).table p).prev = (s.table p).prev := by
    rw [setNextOf_table]
    split <;> exact ⟨rfl, rfl⟩
  unfold schedulerRemove
  rw [set_table]
  by_cases hip : i = p
  · simp only [if_pos hip, and_self]
  · rw [if_neg hip, setPrevOf_table, hlinks.1, hlinks.2, setNextOf_table]
    split <;> split <;> exact ⟨rfl, rfl⟩

theorem schedulerRemove_next (s : Procs) (p i : Slot) :
    ((schedulerRemove s p).table i).next = if i = p then none
      else if (s.table p).prev = some i then (s.table p).next else (s.table i).next :=
  (schedulerRemove_links s p i).1

/-- The processes that have a successor. -/
def linked (s : Procs) : Finset Slot := Finset.univ.filter fun i => (s.table i).next ≠ none

theorem mem_linked {s : Procs} {i : Slot} : i ∈ linked s ↔ (s.table i).next ≠ none := by
  rw [linked, Finset.mem_filter, and_iff_right (Finset.mem_univ i)]

/-- Removing `p` gives its predecessor a successor. -/
def Relays (s : Procs) (p : Slot) : Prop :=
  ∃ a, (s.table p).prev = some a ∧ a ≠ p ∧ (s.table a).next = none

instance (s : Procs) (p : Slot) : Decidable (Relays s p) := inferInstanceAs (Decidable (∃ _, _))

/-- A bound on the rounds that the loop has left. -/
def rounds (s : Procs) : Option Slot → Nat
  | none => 0
  | some p => 2 * (linked s).card + (if Relays s p then 1 else 0) + 1

section Rounds

variable {s : Procs} {p b : Slot}

/-- Otherwise the removal leaves fewer processes with a successor. -/
theorem card_linked_remove_lt (hnext : (s.table p).next ≠ none) (hrelay : ¬ Relays s p) :
    (linked (schedulerRemove s p)).card < (linked s).card := by
  refine Finset.card_lt_card ⟨fun i hi => ?_, fun hsub => ?_⟩
  · rw [mem_linked, schedulerRemove_next] at hi
    split at hi
    · exact absurd rfl hi
    next hip =>
      split at hi
      next hprev => exact mem_linked.mpr fun hnone => hrelay ⟨i, hprev, hip, hnone⟩
      · exact mem_linked.mpr hi
  · have hp := hsub (mem_linked.mpr hnext)
    rw [mem_linked, schedulerRemove_next, if_pos rfl] at hp
    exact hp rfl

theorem card_linked_remove_le (hnext : (s.table p).next ≠ none) :
    (linked (schedulerRemove s p)).card ≤ (linked s).card := by
  by_cases hrelay : Relays s p
  · -- the predecessor takes over the successor that `p` loses
    obtain ⟨a, hprev, -⟩ := hrelay
    have hsub : linked (schedulerRemove s p) ⊆ insert a ((linked s).erase p) := by
      intro i hi
      rw [mem_linked, schedulerRemove_next] at hi
      rw [Finset.mem_insert, Finset.mem_erase, mem_linked]
      split at hi
      · exact absurd rfl hi
      next hip =>
        split at hi
        next hpi => exact .inl (Option.some.inj (hpi.symm.trans hprev))
        · exact .inr ⟨hip, hi⟩
    refine (Finset.card_le_card hsub).trans ((Finset.card_insert_le _ _).trans ?_)
    rw [Finset.card_erase_add_one (mem_linked.mpr hnext)]
  · exact (card_linked_remove_lt hnext hrelay).le

/-- Two removals in a row do not both pass a successor on. -/
theorem not_relays_remove (hnext : (s.table p).next = some b) (hrelay : Relays s p) :
    ¬ Relays (schedulerRemove s p) b := by
  obtain ⟨a, hprev, hap, -⟩ := hrelay
  rintro ⟨a', hprev', -, hnone⟩
  rw [(schedulerRemove_links s p b).2] at hprev'
  split at hprev'
  · cases hprev'
  · rw [hprev] at hprev'
    cases hprev'
    rw [schedulerRemove_next, if_neg hap, if_pos hprev, hnext] at hnone
    cases hnone

theorem rounds_remove_lt (s : Procs) (p : Slot) :
    rounds (schedulerRemove s p) (s.table p).next < rounds s (some p) := by
  cases hnext : (s.table p).next with
  | none => exact Nat.succ_pos _
  | some b =>
    have hne : (s.table p).next ≠ none := by
      rw [hnext]
      nofun
    show _ + (if Relays (schedulerRemove s p) b then 1 else 0) + 1
      < _ + (if Relays s p then 1 else 0) + 1
    by_cases hrelay : Relays s p
    · have hle := card_linked_remove_le hne
      rw [if_neg (not_relays_remove hnext hrelay), if_pos hrelay]
      omega
    · have hlt := card_linked_remove_lt hne hrelay
      split <;> omega

end Rounds

theorem schedulerYieldLoop_total {fuel : Nat} {s : Procs} {p : Option Slot}
    (h : rounds s p < fuel) : ∃ r, schedulerYieldLoop fuel s p = some r := by
  induction fuel generalizing s p with
  | zero => cases h
  | succ fuel ih =>
    cases p with
    | none => exact ⟨_, rfl⟩
    | some p =>
      unfold schedulerYieldLoop
      split
      · exact ⟨_, rfl⟩
      · exact ih ((rounds_remove_lt s p).trans_le (Nat.le_of_lt_succ h))

/-- **`scheduler_yield` returns**, whatever the links of the queue are. -/
theorem schedulerYield_total (s : Procs) : ∃ s', Converges schedulerYield s () s' := by
  cases hhead : s.readyQueueHead with
  | none => exact ⟨s, 0, fun fuel _ => schedulerYield_of_empty hhead fuel⟩
  | some a =>
    obtain ⟨⟨s1, next⟩, hloop⟩ := schedulerYieldLoop_total (Nat.lt_succ_self
      (rounds (schedulerRequeue s) (schedulerRequeue s).readyQueueHead))
    exact ⟨_, _, fun fuel hfuel => schedulerYield_mono (schedulerYield_of_loop hhead hloop) hfuel⟩

/-! ## What a yield changes -/

/-- The scheduler may switch to a process in this state. -/
def ProcState.Runnable (st : ProcState) : Prop := st = .ready ∨ st = .running

/-- Unchanged, up to a switch of the scheduler. -/
def Switched (st st' : ProcState) : Prop := st' = st ∨ st.Runnable ∧ st'.Runnable

theorem Switched.eq {st st' : ProcState} (h : Switched st st') (hst : ¬ st.Runnable) : st' = st :=
  h.resolve_right fun hboth => hst hboth.1

theorem Switched.runnable {st st' : ProcState} (h : Switched st st') (hst : st.Runnable) :
    st'.Runnable := by
  rcases h with rfl | ⟨-, h⟩
  · exact hst
  · exact h

/-- From `s` to `s'` only links, `READY` and `RUNNING` and the current process changed. -/
structure Switches (s s' : Procs) : Prop where
  state : ∀ i, Switched (s.table i).state (s'.table i).state
  pid : ∀ i, (s'.table i).pid = (s.table i).pid
  wake : ∀ i, (s'.table i).wakeTime = (s.table i).wakeTime
  exit : ∀ i, (s'.table i).exitCode = (s.table i).exitCode
  ticks : s'.schedulerTicks = s.schedulerTicks

section Switches

variable {s s1 s2 s' : Procs}

theorem Relinked.switches (h : Relinked s s') : Switches s s' :=
  ⟨fun i => .inl (h.state i), h.pid, h.wake, h.exit, h.ticks⟩

theorem Switches.trans (h : Switches s s1) (h' : Switches s1 s2) : Switches s s2 where
  state i := by
    rcases h.state i with heq | ⟨hst, hst1⟩
    · rw [← heq]
      exact h'.state i
    · exact .inr ⟨hst, (h'.state i).runnable hst1⟩
  pid i := (h'.pid i).trans (h.pid i)
  wake i := (h'.wake i).trans (h.wake i)
  exit i := (h'.exit i).trans (h.exit i)
  ticks := h'.ticks.trans h.ticks

theorem switches_set {p : Slot} {st : ProcState} (hp : (s.table p).state.Runnable)
    (hst : st.Runnable) : Switches s (s.set p fun q => { q with state := st }) := by
  have hsame : ∀ i, Switched (s.table i).state
        ((s.set p fun q => { q with state := st }).table i).state ∧
      ∃ st', (s.set p fun q => { q with state := st }).table i = { s.table i with state := st' } := by
    intro i
    rw [set_table]
    by_cases hip : i = p
    · rw [if_pos hip, hip]
      exact ⟨.inr ⟨hp, hst⟩, st, rfl⟩
    · rw [if_neg hip]
      exact ⟨.inl rfl, _, rfl⟩
  refine ⟨fun i => (hsame i).1, fun i => ?_, fun i => ?_, fun i => ?_, rfl⟩
  all_goals
    obtain ⟨-, st', heq⟩ := hsame i
    rw [heq]

theorem schedulerRequeue_switches (s : Procs) : Switches s (schedulerRequeue s) := by
  unfold schedulerRequeue
  split
  · exact (Relinked.refl s).switches
  · split
    next hrunning =>
      exact ((switches_set (.inr hrunning) (.inl rfl)).trans (relinked_remove ..).switches).trans
        (relinked_add ..).switches
    · exact (Relinked.refl s).switches

theorem schedulerYieldLoop_ready {fuel : Nat} {p : Option Slot} {next : Slot}
    (h : schedulerYieldLoop fuel s p = some (s', some next)) : (s'.table next).state = .ready := by
  induction fuel generalizing s p with
  | zero => cases h
  | succ fuel ih =>
    cases p with
    | none => cases h
    | some p =>
      unfold schedulerYieldLoop at h
      split at h
      next hready =>
        cases h
        exact hready
      · exact ih h

theorem schedulerRun_switches {next : Option Slot} (h : (s.table (next.getD 0)).state.Runnable) :
    Switches s (schedulerRun s next) := by
  have hset : Switches s (s.set (next.getD 0) fun p => { p with state := .running }) :=
    switches_set h (.inr rfl)
  unfold schedulerRun schedulerSwitchTo
  dsimp only
  split
  · exact hset
  · exact ⟨hset.state, hset.pid, hset.wake, hset.exit, hset.ticks⟩

/-- **`scheduler_yield`** changes nothing else. -/
theorem schedulerYield_switches {fuel : Nat} (hidle : (s.table 0).state.Runnable)
    (hret : Returns (schedulerYield fuel) s () s') : Switches s s' := by
  unfold Returns schedulerYield at hret
  split at hret
  · cases hret
    exact (Relinked.refl s).switches
  · obtain ⟨⟨s1, next⟩, hloop, heq⟩ := Option.map_eq_some_iff.mp hret
    cases heq
    have h1 := (schedulerRequeue_switches s).trans (relinked_yieldLoop hloop).switches
    refine h1.trans (schedulerRun_switches ?_)
    cases next with
    | none => exact (h1.state 0).runnable hidle
    | some next => exact .inl (schedulerYieldLoop_ready hloop)

end Switches

/-! ## Stopping the current process -/

/-- What `proc_exit` and `proc_sleep` do: change the current process, unless it is idle, and yield. -/
def stopCurrent (f : Process → Process) (fuel : Nat) : Exec Procs Unit := fun s =>
  match s.currentProc with
  | none => some ((), s)
  | some proc =>
    if (s.table proc).pid = 0 then some ((), s) else schedulerYield fuel (s.set proc f)

section Stopping

variable {s s' : Procs} {f : Process → Process} {c : Slot}

theorem stopCurrent_of_idle (h : ∀ c, s.currentProc = some c → (s.table c).pid = 0) (fuel : Nat) :
    Returns (stopCurrent f fuel) s () s := by
  unfold Returns stopCurrent
  split
  · rfl
  next c hc => rw [if_pos (h c hc)]

theorem stopCurrent_of_current (hc : s.currentProc = some c) (hpid : (s.table c).pid ≠ 0)
    (fuel : Nat) : stopCurrent f fuel s = schedulerYield fuel (s.set c f) := by
  unfold stopCurrent
  rw [hc]
  exact if_neg hpid

theorem stopCurrent_total (s : Procs) (f : Process → Process) :
    ∃ s', Converges (stopCurrent f) s () s' := by
  rcases s.idle_or_busy with hidle | ⟨c, hc, hpid⟩
  · exact ⟨s, 0, fun fuel _ => stopCurrent_of_idle hidle fuel⟩
  · obtain ⟨s', n, hyield⟩ := schedulerYield_total (s.set c f)
    exact ⟨s', n, fun fuel hfuel => (stopCurrent_of_current hc hpid fuel).trans (hyield fuel hfuel)⟩

end Stopping

theorem schedulerTick_total (s : Procs) : ∃ s', Converges schedulerTick s () s' := by
  rcases s.idle_or_busy with hidle | ⟨c, hc, hpid⟩
  · exact ⟨_, 0, fun fuel _ => schedulerTick_of_idle hidle fuel⟩
  · obtain ⟨s', n, hyield⟩ := schedulerYield_total (woken s)
    exact ⟨s', n, fun fuel hfuel => (schedulerTick_of_current hc hpid fuel).trans (hyield fuel hfuel)⟩

/-! ## Idle -/

/-- Idle has pid `0`, and may be switched to. -/
structure IdleOk (s : Procs) : Prop where
  pid : (s.table 0).pid = 0
  state : (s.table 0).state.Runnable

namespace IdleOk

variable {s s' : Procs} {f : Process → Process} {p : Slot}

theorem init (rsp cr3 : Nat) (s : Procs) : IdleOk (schedulerInit (procInit rsp cr3 s)) :=
  ⟨rfl, .inl (procInit_entry rsp cr3 s 0).2.2⟩

section

variable (h : IdleOk s)
include h

theorem switches (hsw : Switches s s') : IdleOk s' :=
  ⟨(hsw.pid 0).trans h.pid, (hsw.state 0).runnable h.state⟩

theorem set (hp : p ≠ 0) : IdleOk (s.set p f) := by
  constructor <;> rw [set_table, if_neg hp.symm]
  · exact h.pid
  · exact h.state

theorem woken : IdleOk (woken s) := by
  refine ⟨(woken_pid s 0).trans h.pid, ?_⟩
  rw [woken_state]
  · exact h.state
  · rcases h.state with hst | hst <;> rw [hst] <;> nofun

theorem ne_zero (hpid : (s.table p).pid ≠ 0) : p ≠ 0 := by
  rintro rfl
  exact hpid h.pid

/-- Idle is not stopped; another process is changed, and there is a switch. -/
theorem stop_cases {fuel : Nat} (hret : Returns (stopCurrent f fuel) s () s') :
    s' = s ∧ (∀ c, s.currentProc = some c → (s.table c).pid = 0) ∨
      ∃ c, s.currentProc = some c ∧ (s.table c).pid ≠ 0 ∧ IdleOk (s.set c f) ∧
        Switches (s.set c f) s' := by
  rcases s.idle_or_busy with hidle | ⟨c, hc, hpid⟩
  · exact .inl ⟨(hret.unique (stopCurrent_of_idle hidle fuel)).2, hidle⟩
  · rw [Returns, stopCurrent_of_current hc hpid] at hret
    have hset : IdleOk (s.set c f) := h.set (h.ne_zero hpid)
    exact .inr ⟨c, hc, hpid, hset, schedulerYield_switches hset.state hret⟩

theorem create (name : CString) (entry stack cr3 : Nat) :
    IdleOk (procCreate name entry stack cr3 s).2 := by
  have hcount : IdleOk { s with nextPid := wrap32 (s.nextPid + 1) } := ⟨h.pid, h.state⟩
  rcases procCreate_cases name entry stack cr3 s with
    ⟨-, hsame⟩ | ⟨slot, q, hslot, -, ⟨-, heq, -⟩ | ⟨-, heq, -⟩⟩
  · rw [hsame]
    exact h
  · rw [heq]
    show IdleOk (Procs.set _ slot fun _ => q)
    exact hcount.set (procFreeSlot_some hslot).1
  · rw [heq]
    exact IdleOk.switches (hcount.set (procFreeSlot_some hslot).1) (relinked_add ..).switches

theorem destroy (p : Slot) : IdleOk (procDestroy p s) := by
  unfold procDestroy
  split
  · exact h
  next hpid => exact (h.switches (relinked_remove s p).switches).set (h.ne_zero hpid)

/-- A tick wakes who is due; what else it does is what a yield does. -/
theorem tick_switches {fuel : Nat} (hret : Returns (schedulerTick fuel) s () s') :
    Switches (Proc.woken s) s' := by
  unfold Returns at hret
  rcases s.idle_or_busy with hidle | ⟨c, hc, hpid⟩
  · rw [schedulerTick_of_idle hidle] at hret
    cases hret
    exact (Relinked.refl _).switches
  · rw [schedulerTick_of_current hc hpid] at hret
    exact schedulerYield_switches h.woken.state hret

end

end IdleOk

/-! ## All calls -/

/-- What a call can be, up to its arguments. -/
inductive Effect (s : Procs) (c : RunCall) : Procs → Prop
  | none : Effect s c s
  | create (name : CString) (entry stack cr3 : Nat) :
      Effect s c (procCreate name entry stack cr3 s).2
  | destroy (p : Slot) : Effect s c (procDestroy p s)
  | yield {fuel : Nat} {s' : Procs} (hret : Returns (schedulerYield fuel) s () s') : Effect s c s'
  | stop {f : Process → Process} {fuel : Nat} {s' : Procs}
      (hret : Returns (stopCurrent f fuel) s () s') : Effect s c s'
  | tick {fuel : Nat} {s' : Procs} (hc : c = .call .tick)
      (hret : Returns (schedulerTick fuel) s () s') : Effect s c s'

section Calls

variable {s s' : Procs} {c : RunCall}

theorem RunStep.effect (hstep : RunStep s c s') : Effect s c s' := by
  obtain ⟨fuel, hrun⟩ := hstep
  have hrun : Returns (c.run fuel) s () s' := hrun fuel (Nat.le_refl fuel)
  cases c with
  | signal proc sig =>
    have hrun : signalSend fuel proc sig s = some ((), s') := hrun
    rcases signalSend_cases fuel proc sig s with heq | heq <;> rw [heq] at hrun
    · cases hrun
      exact .none
    · exact .stop hrun
  | call c =>
    cases c with
    | create name entry stack cr3 =>
      cases hrun
      exact .create name entry stack cr3
    | destroy proc =>
      cases hrun
      exact .destroy proc
    | yield => exact .yield (show Returns (schedulerYield fuel) s () s' from hrun)
    | sleep ms pitTicks pitHz =>
      exact .stop hrun
    | exit code =>
      exact .stop hrun
    | tick => exact .tick rfl (show Returns (schedulerTick fuel) s () s' from hrun)

/-- **Idle** stays what it is, whatever is called. -/
theorem IdleOk.step (h : IdleOk s) (hstep : RunStep s c s') : IdleOk s' := by
  cases hstep.effect with
  | none => exact h
  | create name entry stack cr3 => exact h.create name entry stack cr3
  | destroy p => exact h.destroy p
  | yield hret => exact h.switches (schedulerYield_switches h.state hret)
  | stop hret =>
    rcases h.stop_cases hret with ⟨rfl, -⟩ | ⟨c, -, -, hset, hsw⟩
    · exact h
    · exact hset.switches hsw
  | tick _ hret => exact h.woken.switches (h.tick_switches hret)

theorem IdleOk.ticks (h : IdleOk s) (hc : c ≠ .call .tick) (hstep : RunStep s c s') :
    s'.schedulerTicks = s.schedulerTicks := by
  cases hstep.effect with
  | none => rfl
  | create name entry stack cr3 =>
    rcases procCreate_cases name entry stack cr3 s with
      ⟨-, heq⟩ | ⟨slot, q, -, -, ⟨-, heq, -⟩ | ⟨-, heq, -⟩⟩ <;> rw [heq]
    · rfl
    · exact (relinked_add ..).ticks
  | destroy p =>
    unfold procDestroy
    split
    · rfl
    · exact (relinked_remove s p).ticks
  | yield hret => exact (schedulerYield_switches h.state hret).ticks
  | stop hret =>
    rcases h.stop_cases hret with ⟨rfl, -⟩ | ⟨c, -, -, -, hsw⟩
    · rfl
    · exact hsw.ticks
  | tick heq _ => exact absurd heq hc

end Calls

end GosKernel.Proc
