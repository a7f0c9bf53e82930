import Mathlib.Data.List.Find
import GosKernel.Proc.Scheduling

/-!
# When a tick takes the processor away

`scheduler_tick` wakes the processes that are due and then, unless idle runs, yields. On
a queue that is well formed the next process is the first ready one other than the
current, if there is one (`Queue.yield_next`).
-/

namespace GosKernel.Proc

open Exec Linked List

/-! ## The next process -/

theorem headOr_some (L : List Slot) : headOr some L none = L.head? := by
  cases L <;> rfl

variable {c : Slot} {s : Procs}

/-- **The next process** after a running one: the first other ready process of the queue,
or the same again. -/
theorem Queue.yield_next {L1 L2 : List Slot}
    (h : Queue s (L1 ++ c :: L2)) (hcurrent : s.currentProc = some c)
    (hrunning : (s.table c).state = .running) :
    ∃ s', (∀ fuel, procMaxProcesses < fuel → Returns (schedulerYield fuel) s () s') ∧
      s'.currentProc = some (((L1 ++ L2).find? fun i => (s.table i).state = .ready).getD c) := by
  obtain ⟨hq, hre⟩ := h.requeue hcurrent hrunning
  obtain ⟨s2, L', hloop, -, -, hL'⟩ := hq.yieldLoop
  have hc : c ∉ L1 ++ L2 := (nodup_middle.mp h.nodup).notMem
  -- the states the loop looks at are those before, the current process's apart
  have hstate : ∀ i, ((schedulerRequeue s).table i).state =
      if i = c then .ready else (s.table i).state := by
    intro i
    rw [hre.state, set_table]
    split <;> rfl
  have hfind : (L1 ++ L2).find? (fun i => ((schedulerRequeue s).table i).state = .ready) =
      (L1 ++ L2).find? fun i => (s.table i).state = .ready := by
    refine find?_congr fun i hi => ?_
    have hic : i ≠ c := fun hic => hc (hic ▸ hi)
    rw [hstate, if_neg hic]
  have hnext : L'.head? = (((L1 ++ L2).find? fun i => (s.table i).state = .ready).or (some c)) := by
    have hlast : [c].find? (fun i => ((schedulerRequeue s).table i).state = .ready) = some c := by
      simp [hstate]
    rw [← hfind, ← hlast, ← find?_append, find?_eq_head?_dropWhile_not, hL']
    simp
  have hhead : ∃ a, s.readyQueueHead = some a := by
    rw [h.head]
    cases L1 with
    | nil => exact ⟨c, rfl⟩
    | cons a L1 => exact ⟨a, rfl⟩
  obtain ⟨a, hhead⟩ := hhead
  refine ⟨schedulerRun s2 (headOr some L' none), fun fuel hfuel => ?_, ?_⟩
  · exact schedulerYield_of_loop hhead (hloop fuel (Nat.lt_of_le_of_lt hq.length_le hfuel))
  · rw [(schedulerRun_eq s2 _).2.2.1, headOr_some, hnext]
    cases (L1 ++ L2).find? fun i => (s.table i).state = .ready <;> rfl

/-- A running process without neighbours is taken for the only one on the queue, whatever
is on the queue. -/
theorem yield_alone (hcurrent : s.currentProc = some c)
    (hrunning : (s.table c).state = .running) (hnext : (s.table c).next = none)
    (hprev : (s.table c).prev = none) :
    ∃ s', (∀ fuel, procMaxProcesses < fuel → Returns (schedulerYield fuel) s () s') ∧
      s'.currentProc = some c := by
  rcases Option.eq_none_or_eq_some s.readyQueueHead with hhead | ⟨a, hhead⟩
  · exact ⟨s, fun fuel _ => schedulerYield_of_empty hhead fuel, hcurrent⟩
  have hset : (s.set c fun p => { p with state := .ready }).table c =
      { s.table c with state := .ready } := by
    rw [set_table, if_pos rfl]
  have hready : ((schedulerRemove (s.set c fun p => { p with state := .ready }) c).table c).state
      = .ready := by
    rw [(relinked_remove _ c).state, hset]
  have hrequeue : schedulerRequeue s =
      schedulerAdd (schedulerRemove (s.set c fun p => { p with state := .ready }) c) c := by
    unfold schedulerRequeue
    rw [hcurrent]
    exact if_pos hrunning
  have htail : (schedulerRemove (s.set c fun p => { p with state := .ready }) c).readyQueueTail
      = none := by
    rw [schedulerRemove_tail] <;> simp [hset, hnext, hprev]
  have hfirst : (schedulerRequeue s).readyQueueHead = some c := by
    rw [hrequeue, schedulerAdd_head hready, if_pos htail]
  have hstate : ((schedulerRequeue s).table c).state = .ready := by
    rw [hrequeue, (relinked_add _ c).state, hready]
  refine ⟨schedulerRun (schedulerRequeue s) (some c), fun fuel hfuel => ?_,
    (schedulerRun_eq _ _).2.2.1⟩
  obtain ⟨fuel, rfl⟩ := fuel_succ hfuel
  refine schedulerYield_of_loop hhead ?_
  rw [hfirst]
  exact if_pos hstate

/-! ## Nobody to switch to -/

/-- There is no process that a tick could give the processor to: idle has it, or nobody is
due, and moreover
* the queue is empty, or
* the current process is running and has no neighbours on the queue, or
* the current process is running and the queue is well formed, with nobody ready on it. -/
def Unopposed (s : Procs) : Prop :=
  ∀ c, s.currentProc = some c → (s.table c).pid ≠ 0 →
    (∀ i, i ≠ 0 → ¬ wakes (s.table i) (wrap64 (s.schedulerTicks + 1))) ∧
    (s.readyQueueHead = none ∨ (s.table c).state = .running ∧
      ((s.table c).next = none ∧ (s.table c).prev = none ∨
        Queue s (readyQueue s) ∧ ∀ i ∈ readyQueue s, (s.table i).state ≠ .ready))

instance (s : Procs) : Decidable (Unopposed s) := by
  unfold Unopposed
  haveI : Decidable (∀ i ∈ readyQueue s, (s.table i).state ≠ .ready) := List.decidableBAll _ _
  infer_instance

/-- Yielding to nobody. -/
theorem yield_unopposed (hcurrent : s.currentProc = some c)
    (hrunning : (s.table c).state = .running)
    (hothers : (s.table c).next = none ∧ (s.table c).prev = none ∨
      Queue s (readyQueue s) ∧ ∀ i ∈ readyQueue s, (s.table i).state ≠ .ready) :
    ∃ s', (∀ fuel, procMaxProcesses < fuel → Returns (schedulerYield fuel) s () s') ∧
      s'.currentProc = some c := by
  rcases hothers with ⟨hnext, hprev⟩ | ⟨hq, hnone⟩
  · exact yield_alone hcurrent hrunning hnext hprev
  · by_cases hc : c ∈ readyQueue s
    · obtain ⟨L1, L2, hL⟩ := append_of_mem hc
      rw [hL] at hq hnone
      obtain ⟨s', hrun, hnext⟩ := hq.yield_next hcurrent hrunning
      refine ⟨s', hrun, hnext.trans ?_⟩
      rw [find?_eq_none.mpr, Option.getD_none]
      intro i hi
      have hmem : i ∈ L1 ++ c :: L2 := by
        rw [mem_append, mem_cons]
        exact (mem_append.mp hi).imp_right .inr
      simpa using hnone i hmem
    · obtain ⟨hnext, hprev⟩ := hq.unlinked c hc
      exact yield_alone hcurrent hrunning hnext hprev

/-- **An unopposed tick** returns, and the current process stays. -/
theorem Unopposed.tick (h : Unopposed s) :
    ∃ s', Converges schedulerTick s () s' ∧ s'.currentProc = s.currentProc := by
  rcases s.idle_or_busy with hidle | ⟨c, hc, hpid⟩
  · exact ⟨woken s, ⟨0, fun fuel _ => schedulerTick_of_idle hidle fuel⟩, woken_current s⟩
  · obtain ⟨hdue, hqueue⟩ := h c hc hpid
    have hwoken : woken s = { s with schedulerTicks := wrap64 (s.schedulerTicks + 1) } := by
      unfold woken
      rw [wakeLoop_of_none]
      exact fun i hi => hdue i (mem_slots.mp hi)
    suffices hyield : ∃ s', (∀ fuel, procMaxProcesses < fuel →
        Returns (schedulerYield fuel) (woken s) () s') ∧ s'.currentProc = some c by
      obtain ⟨s', hrun, hcurrent⟩ := hyield
      refine ⟨s', ⟨procMaxProcesses + 1, fun fuel hfuel => ?_⟩, hcurrent.trans hc.symm⟩
      exact (schedulerTick_of_current hc hpid fuel).trans (hrun fuel hfuel)
    rw [hwoken]
    rcases hqueue with hhead | ⟨hrunning, hothers⟩
    · have hhead' : { s with schedulerTicks := wrap64 (s.schedulerTicks + 1) }.readyQueueHead = none :=
        hhead
      exact ⟨_, fun fuel _ => schedulerYield_of_empty hhead' fuel, hc⟩
    · refine yield_unopposed hc hrunning (hothers.imp_right ?_)
      rintro ⟨hq, hnone⟩
      have hq' : Queue { s with schedulerTicks := wrap64 (s.schedulerTicks + 1) } (readyQueue s) :=
        hq.congr rfl rfl fun _ => ⟨rfl, rfl⟩
      rw [hq'.readyQueue_eq]
      exact ⟨hq', hnone⟩

end GosKernel.Proc
