import GosKernel.Proc.ReadyQueue

/-!
# Waking

The loop of `scheduler_tick` makes the blocked processes ready whose time has come
(`wakeLoop_wakes`) and touches no others (`wakeLoop_state`). What is left of the function
is a call of `scheduler_yield`, unless idle has the processor
(`schedulerTick_of_current`, `schedulerTick_of_idle`).
-/

namespace GosKernel.Proc

open Exec

/-! ## One process -/

theorem schedulerWake_cases (s : Procs) (a : Slot) :
    ¬ wakes (s.table a) s.schedulerTicks ∧ schedulerWake s a = s ∨
    wakes (s.table a) s.schedulerTicks ∧
      Relinked (s.set a fun p => { p with state := .ready, wakeTime := 0 })
        (schedulerWake s a) := by
  unfold schedulerWake
  by_cases hwake : wakes (s.table a) s.schedulerTicks
  · rw [if_pos hwake]
    exact .inr ⟨hwake, relinked_add ..⟩
  · rw [if_neg hwake]
    exact .inl ⟨hwake, rfl⟩

theorem schedulerWake_keeps (s : Procs) (a : Slot) :
    (schedulerWake s a).currentProc = s.currentProc ∧
      (schedulerWake s a).schedulerTicks = s.schedulerTicks ∧
      ∀ i, ((schedulerWake s a).table i).pid = (s.table i).pid ∧
        (i ≠ a ∨ (s.table i).state ≠ .blocked →
          ((schedulerWake s a).table i).state = (s.table i).state ∧
          ((schedulerWake s a).table i).wakeTime = (s.table i).wakeTime) := by
  rcases schedulerWake_cases s a with ⟨-, hsame⟩ | ⟨hwake, hre⟩
  · rw [hsame]
    exact ⟨rfl, rfl, fun i => ⟨rfl, fun _ => ⟨rfl, rfl⟩⟩⟩
  · refine ⟨hre.current, hre.ticks, fun i => ?_⟩
    rw [hre.pid, hre.state, hre.wake, set_table]
    by_cases hia : i = a
    · subst hia
      rw [if_pos rfl]
      have hblocked : (s.table i).state = .blocked := by
        simp only [wakes, Bool.and_eq_true, decide_eq_true_eq] at hwake
        exact hwake.1.1
      exact ⟨rfl, fun h => h.elim (absurd rfl) (absurd hblocked)⟩
    · rw [if_neg hia]
      exact ⟨rfl, fun _ => ⟨rfl, rfl⟩⟩

/-! ## The loop -/

section Loop

variable {s : Procs} (slots : List Slot)

theorem wakeLoop_keeps : (slots.foldl schedulerWake s).currentProc = s.currentProc ∧
    (slots.foldl schedulerWake s).schedulerTicks = s.schedulerTicks ∧
    ∀ i, ((slots.foldl schedulerWake s).table i).pid = (s.table i).pid := by
  induction slots generalizing s with
  | nil => exact ⟨rfl, rfl, fun _ => rfl⟩
  | cons a slots ih =>
    obtain ⟨hcurrent, hticks, hrest⟩ := schedulerWake_keeps s a
    exact ⟨ih.1.trans hcurrent, ih.2.1.trans hticks, fun i => (ih.2.2 i).trans (hrest i).1⟩

theorem wakeLoop_state {i : Slot} (hi : (s.table i).state ≠ .blocked) :
    ((slots.foldl schedulerWake s).table i).state = (s.table i).state := by
  induction slots generalizing s with
  | nil => rfl
  | cons a slots ih =>
    have hsame := (((schedulerWake_keeps s a).2.2 i).2 (.inr hi)).1
    rw [List.foldl_cons, ih (by rwa [hsame]), hsame]

/-- A process that is due is ready after the loop. -/
theorem wakeLoop_wakes {i : Slot} (hi : i ∈ slots) (hwake : wakes (s.table i) s.schedulerTicks) :
    ((slots.foldl schedulerWake s).table i).state = .ready := by
  induction slots generalizing s with
  | nil => cases hi
  | cons a slots ih =>
    rw [List.foldl_cons]
    by_cases hia : i = a
    · subst hia
      rcases schedulerWake_cases s i with ⟨hnot, -⟩ | ⟨-, hre⟩
      · exact absurd hwake hnot
      · -- now it is not blocked, so the rest of the loop leaves it alone
        have hready : ((schedulerWake s i).table i).state = .ready := by
          rw [hre.state, set_table, if_pos rfl]
        rw [wakeLoop_state slots (by rw [hready]; nofun), hready]
    · obtain ⟨-, hticks, hkeep⟩ := schedulerWake_keeps s a
      obtain ⟨hstate, htime⟩ := (hkeep i).2 (.inl hia)
      refine ih ((List.mem_cons.mp hi).resolve_left hia) ?_
      unfold wakes at hwake ⊢
      rwa [hstate, htime, hticks]

theorem wakeLoop_of_not_due {i : Slot} (h : ¬ wakes (s.table i) s.schedulerTicks) :
    ((slots.foldl schedulerWake s).table i).state = (s.table i).state ∧
      ((slots.foldl schedulerWake s).table i).wakeTime = (s.table i).wakeTime := by
  induction slots generalizing s with
  | nil => exact ⟨rfl, rfl⟩
  | cons a slots ih =>
    have hsame : ((schedulerWake s a).table i).state = (s.table i).state ∧
        ((schedulerWake s a).table i).wakeTime = (s.table i).wakeTime := by
      by_cases hia : i = a
      · rw [← hia, show schedulerWake s i = s from if_neg h]
        exact ⟨rfl, rfl⟩
      · exact ((schedulerWake_keeps s a).2.2 i).2 (.inl hia)
    have hrest := ih (s := schedulerWake s a) (by
      unfold wakes at h ⊢
      rwa [hsame.1, hsame.2, (schedulerWake_keeps s a).2.1])
    exact ⟨hrest.1.trans hsame.1, hrest.2.trans hsame.2⟩

theorem wakeLoop_of_none (h : ∀ i ∈ slots, ¬ wakes (s.table i) s.schedulerTicks) :
    slots.foldl schedulerWake s = s := by
  induction slots with
  | nil => rfl
  | cons a slots ih =>
    have hsame : schedulerWake s a = s := if_neg (h a List.mem_cons_self)
    rw [List.foldl_cons, hsame]
    exact ih fun i hi => h i (List.mem_cons_of_mem _ hi)

end Loop

/-! ## The tick -/

/-- The state in which `scheduler_tick` looks at the queue. -/
@[irreducible] def woken (s : Procs) : Procs :=
  ((List.finRange procMaxProcesses).drop 1).foldl schedulerWake
    { s with schedulerTicks := wrap64 (s.schedulerTicks + 1) }

theorem mem_slots {i : Slot} : i ∈ (List.finRange procMaxProcesses).drop 1 ↔ i ≠ 0 := by
  rw [List.mem_drop_iff_getElem]
  constructor
  · rintro ⟨k, hk, rfl⟩ h0
    exact absurd h0 (by simp)
  · intro hi
    have hpos : i.val ≠ 0 := fun h => hi (Fin.ext h)
    refine ⟨i.val - 1, ?_, ?_⟩
    · rw [List.length_finRange]
      omega
    · rw [List.getElem_finRange, Fin.ext_iff]
      exact Nat.add_sub_cancel' (Nat.pos_of_ne_zero hpos)

theorem woken_current (s : Procs) : (woken s).currentProc = s.currentProc := by
  unfold woken
  rw [(wakeLoop_keeps _).1]

theorem woken_pid (s : Procs) (i : Slot) : ((woken s).table i).pid = (s.table i).pid := by
  unfold woken
  rw [(wakeLoop_keeps _).2.2]

theorem woken_state {s : Procs} {i : Slot} (hi : (s.table i).state ≠ .blocked) :
    ((woken s).table i).state = (s.table i).state := by
  unfold woken
  generalize (List.finRange procMaxProcesses).drop 1 = slots
  exact wakeLoop_state slots hi

theorem woken_wakes {s : Procs} {i : Slot} (hi : i ≠ 0)
    (hwake : wakes (s.table i) (wrap64 (s.schedulerTicks + 1))) :
    ((woken s).table i).state = .ready := by
  unfold woken
  rw [wakeLoop_wakes _ (mem_slots.mpr hi) hwake]

theorem woken_of_not_due {s : Procs} {i : Slot}
    (h : ¬ wakes (s.table i) (wrap64 (s.schedulerTicks + 1))) :
    ((woken s).table i).state = (s.table i).state ∧
      ((woken s).table i).wakeTime = (s.table i).wakeTime := by
  unfold woken
  generalize (List.finRange procMaxProcesses).drop 1 = slots
  exact wakeLoop_of_not_due slots h

theorem woken_ticks (s : Procs) : (woken s).schedulerTicks = wrap64 (s.schedulerTicks + 1) := by
  unfold woken
  rw [(wakeLoop_keeps _).2.1]

theorem schedulerTick_eq (fuel : Nat) (s : Procs) :
    schedulerTick fuel s = match (woken s).readyQueueHead, (woken s).currentProc with
      | some _, some c =>
        if ((woken s).table c).pid ≠ 0 then schedulerYield fuel (woken s) else some ((), woken s)
      | _, _ => some ((), woken s) := by
  unfold schedulerTick woken
  generalize (List.finRange procMaxProcesses).drop 1 = slots
  rfl

theorem Procs.idle_or_busy (s : Procs) : (∀ c, s.currentProc = some c → (s.table c).pid = 0) ∨
    ∃ c, s.currentProc = some c ∧ (s.table c).pid ≠ 0 := by
  by_contra! h
  obtain ⟨⟨c, hc, hpid⟩, hidle⟩ := h
  exact hpid (hidle c hc)

/-- While idle has the processor a tick does no more than that. -/
theorem schedulerTick_of_idle {s : Procs}
    (h : ∀ c, s.currentProc = some c → (s.table c).pid = 0) (fuel : Nat) :
    schedulerTick fuel s = some ((), woken s) := by
  rw [schedulerTick_eq, woken_current]
  split
  next c _ hc =>
    refine if_neg ?_
    rw [woken_pid, not_not]
    exact h c hc
  next => rfl

/-- Otherwise the current process yields; on an empty queue that does nothing. -/
theorem schedulerTick_of_current {s : Procs} {c : Slot} (hc : s.currentProc = some c)
    (hpid : (s.table c).pid ≠ 0) (fuel : Nat) :
    schedulerTick fuel s = schedulerYield fuel (woken s) := by
  rw [schedulerTick_eq, woken_current, hc]
  cases hhead : (woken s).readyQueueHead with
  | none =>
    unfold schedulerYield
    rw [hhead]
  | some a =>
    refine if_pos ?_
    rwa [woken_pid]

end GosKernel.Proc
