import GosKernel.Proc.Scheduling

/-!
# Process identifiers

`proc_create` takes the pid of a new process from a 32-bit counter and does not look
whether it is in use. Slots are recycled, so the counter goes on as long as processes are
created and destroyed, and after `2 ^ 32` creations it is back at the pids that it gave first.

- `pids_unique`: as long as it is not, live processes have different pids and are found by
  them;
- `churn_reaches`, `pids_wrap`: one process created and destroyed over and over, until the
  next one gets pid `0`.
-/

namespace GosKernel.Proc

/-! ## Calls -/

/-- The slot is in use. -/
def Live (s : Procs) (i : Slot) : Prop := (s.table i).state ≠ .unused

inductive PidCall
  | create (name : CString) (entry stack cr3 : Nat)
  | destroy (proc : Slot)

def PidCall.run : PidCall → Procs → Procs
  | .create name entry stack cr3, s => (procCreate name entry stack cr3 s).2
  | .destroy proc, s => procDestroy proc s

def PidStep (s : Procs) (c : PidCall) (s' : Procs) : Prop := s' = c.run s

/-- If a process is created, `g_next_pid` is neither `0` nor the pid of a live process. -/
def PidCall.Fresh : PidCall → Procs → Prop
  | .create _ _ stack _, s => procFreeSlot s ≠ none → stack ≠ 0 →
    s.nextPid ≠ 0 ∧ ∀ i, Live s i → (s.table i).pid ≠ s.nextPid
  | .destroy _, _ => True

def FreshStep (s : Procs) (c : PidCall) (s' : Procs) : Prop := c.Fresh s ∧ PidStep s c s'

/-! ## Pids before and after a call -/

section Effects

variable {s : Procs}

theorem setNextOf_nextPid (s : Procs) (p v : Option Slot) :
    (s.setNextOf p v).nextPid = s.nextPid := by
  cases p <;> rfl

theorem setPrevOf_nextPid (s : Procs) (p v : Option Slot) :
    (s.setPrevOf p v).nextPid = s.nextPid := by
  cases p <;> rfl

theorem schedulerAdd_nextPid (s : Procs) (p : Slot) : (schedulerAdd s p).nextPid = s.nextPid := by
  unfold schedulerAdd
  split
  · rfl
  · exact setNextOf_nextPid _ _ _

theorem schedulerRemove_nextPid (s : Procs) (p : Slot) :
    (schedulerRemove s p).nextPid = s.nextPid :=
  (setPrevOf_nextPid _ _ _).trans (setNextOf_nextPid _ _ _)

/-- `proc_create` writes one unused slot, whose pid is the counter's. -/
theorem procCreate_pids (name : CString) (entry stack cr3 : Nat) {s : Procs} {slot : Slot}
    (h : procFreeSlot s = some slot) :
    (procCreate name entry stack cr3 s).2.nextPid = wrap32 (s.nextPid + 1) ∧
    ∀ i, ((procCreate name entry stack cr3 s).2.table i).state =
        (if i = slot then (if stack = 0 then .unused else .ready) else (s.table i).state) ∧
      ((procCreate name entry stack cr3 s).2.table i).pid =
        if i = slot then s.nextPid else (s.table i).pid := by
  have hset : ∀ (s : Procs) (q : Process) (i : Slot),
      ((s.set slot fun _ => q).table i).state = (if i = slot then q.state else (s.table i).state) ∧
        ((s.set slot fun _ => q).table i).pid = if i = slot then q.pid else (s.table i).pid := by
    intro s q i
    rw [set_table]
    split <;> exact ⟨rfl, rfl⟩
  rcases procCreate_cases name entry stack cr3 s with
    ⟨hfull, -⟩ | ⟨slot', q, htake, hpid, ⟨hstack, heq, hstate, -⟩ | ⟨hstack, heq, hstate, -⟩⟩
  · exact absurd (hfull.symm.trans h) nofun
  · cases h.symm.trans htake
    rw [heq, if_pos hstack, ← hstate, ← hpid]
    exact ⟨rfl, fun i => hset _ q i⟩
  · cases h.symm.trans htake
    rw [heq, if_neg hstack, ← hstate, ← hpid]
    refine ⟨schedulerAdd_nextPid _ _, fun i => ?_⟩
    rw [(relinked_add _ slot).state, (relinked_add _ slot).pid]
    exact hset _ q i

/-- `proc_destroy` of a process with a pid takes it away. -/
theorem procDestroy_pids {s : Procs} {p : Slot} (h : (s.table p).pid ≠ 0) :
    (procDestroy p s).nextPid = s.nextPid ∧
    ∀ i, ((procDestroy p s).table i).state = (if i = p then .unused else (s.table i).state) ∧
      ((procDestroy p s).table i).pid = if i = p then 0 else (s.table i).pid := by
  unfold procDestroy
  rw [if_neg h]
  refine ⟨schedulerRemove_nextPid s p, fun i => ?_⟩
  rw [set_table]
  by_cases hip : i = p
  · rw [if_pos hip, if_pos hip, if_pos hip]
    exact ⟨rfl, rfl⟩
  · rw [if_neg hip, if_neg hip, if_neg hip, (relinked_remove s p).state, (relinked_remove s p).pid]
    exact ⟨rfl, rfl⟩

theorem getByPid_eq_some {pid : Nat} {p : Slot} (h : procGetByPid pid s = some p) :
    (s.table p).pid = pid ∧ Live s p := by
  have hp := List.find?_some h
  rwa [Bool.and_eq_true, decide_eq_true_eq, decide_eq_true_eq] at hp

theorem getByPid_ne_none {p : Slot} (h : Live s p) : procGetByPid (s.table p).pid s ≠ none := by
  intro hnone
  have hnot := List.find?_eq_none.mp hnone p (List.mem_finRange p)
  exact h (by simpa using hnot)

end Effects

/-! ## Fresh pids -/

/-- Live processes have different pids, and idle alone has pid `0`. -/
structure PidInv (s : Procs) : Prop where
  idle : (s.table 0).pid = 0
  zero : ∀ i, Live s i → (s.table i).pid = 0 → i = 0
  inj : ∀ i j, Live s i → Live s j → (s.table i).pid = (s.table j).pid → i = j

section Invariant

variable {s s' : Procs}

theorem PidInv.init (rsp cr3 : Nat) (s : Procs) : PidInv (procInit rsp cr3 s) := by
  have hlive : ∀ i, Live (procInit rsp cr3 s) i → i = 0 := by
    intro i hi
    by_contra hne
    exact hi (by rw [(procInit_entry rsp cr3 s i).2.2, if_neg hne])
  refine ⟨rfl, fun i hi _ => hlive i hi, fun i j hi hj _ => ?_⟩
  rw [hlive i hi, hlive j hj]

/-- A new live process has a pid that no other has. -/
theorem PidInv.create (h : PidInv s) {name : CString} {entry stack cr3 : Nat}
    (hfresh : (PidCall.create name entry stack cr3).Fresh s) :
    PidInv (procCreate name entry stack cr3 s).2 := by
  cases hslot : procFreeSlot s with
  | none =>
    rcases procCreate_cases name entry stack cr3 s with ⟨-, hsame⟩ | ⟨slot, q, htake, -⟩
    · rw [hsame]
      exact h
    · exact absurd (hslot.symm.trans htake) nofun
  | some slot =>
    obtain ⟨hslot0, -⟩ := procFreeSlot_some hslot
    obtain ⟨-, hentry⟩ := procCreate_pids name entry stack cr3 hslot
    -- a process live afterwards was live before, or is the new one
    have hlive : ∀ i, Live (procCreate name entry stack cr3 s).2 i →
        (Live s i ∧ ((procCreate name entry stack cr3 s).2.table i).pid = (s.table i).pid) ∨
        (i = slot ∧ ((procCreate name entry stack cr3 s).2.table i).pid = s.nextPid ∧
          s.nextPid ≠ 0 ∧ ∀ j, Live s j → (s.table j).pid ≠ s.nextPid) := by
      intro i hi
      unfold Live at hi
      rw [(hentry i).1] at hi
      rw [(hentry i).2]
      by_cases his : i = slot
      · rw [if_pos his] at hi
        have hstack : stack ≠ 0 := fun hstack => hi (if_pos hstack)
        exact .inr ⟨his, if_pos his, hfresh (by rw [hslot]; nofun) hstack⟩
      · rw [if_neg his] at hi
        exact .inl ⟨hi, if_neg his⟩
    refine ⟨?_, fun i hi hpid => ?_, fun i j hi hj hpid => ?_⟩
    · rw [(hentry 0).2, if_neg hslot0.symm]
      exact h.idle
    · rcases hlive i hi with ⟨hi, heq⟩ | ⟨-, heq, hne, -⟩
      · exact h.zero i hi (heq ▸ hpid)
      · exact absurd (heq ▸ hpid) hne
    · rcases hlive i hi with ⟨hi, heqi⟩ | ⟨hi, heqi, -, hfi⟩ <;>
        rcases hlive j hj with ⟨hj, heqj⟩ | ⟨hj, heqj, -, hfj⟩ <;> rw [heqi, heqj] at hpid
      · exact h.inj i j hi hj hpid
      · exact absurd hpid (hfj i hi)
      · exact absurd hpid.symm (hfi j hj)
      · rw [hi, hj]

theorem PidInv.destroy (h : PidInv s) (p : Slot) : PidInv (procDestroy p s) := by
  by_cases hpid : (s.table p).pid = 0
  · rw [procDestroy, if_pos hpid]
    exact h
  · have hp0 : 0 ≠ p := by
      rintro rfl
      exact hpid h.idle
    obtain ⟨-, hentry⟩ := procDestroy_pids hpid
    have hlive : ∀ i, Live (procDestroy p s) i →
        Live s i ∧ ((procDestroy p s).table i).pid = (s.table i).pid := by
      intro i hi
      unfold Live at hi
      rw [(hentry i).1] at hi
      rw [(hentry i).2]
      by_cases hip : i = p
      · exact absurd (if_pos hip) hi
      · rw [if_neg hip] at hi
        exact ⟨hi, if_neg hip⟩
    refine ⟨?_, fun i hi hz => ?_, fun i j hi hj heq => ?_⟩
    · rw [(hentry 0).2, if_neg hp0]
      exact h.idle
    · exact h.zero i (hlive i hi).1 ((hlive i hi).2 ▸ hz)
    · refine h.inj i j (hlive i hi).1 (hlive j hj).1 ?_
      rw [← (hlive i hi).2, ← (hlive j hj).2, heq]

theorem PidInv.step {c : PidCall} (h : PidInv s) (hstep : FreshStep s c s') : PidInv s' := by
  obtain ⟨hfresh, rfl⟩ := hstep
  cases c with
  | create name entry stack cr3 => exact h.create hfresh
  | destroy p => exact h.destroy p

/-- A live process is the first entry with its pid. -/
theorem PidInv.getByPid (h : PidInv s) {p : Slot} (hp : Live s p) :
    procGetByPid (s.table p).pid s = some p := by
  cases hfind : procGetByPid (s.table p).pid s with
  | none => exact absurd hfind (getByPid_ne_none hp)
  | some i =>
    obtain ⟨hpid, hi⟩ := getByPid_eq_some hfind
    rw [h.inj i p hi hp hpid]

end Invariant

/-! ## Short runs -/

/-- The counter is behind `n` pids, and no slot has a later one. -/
structure Counted (n : Nat) (s : Procs) : Prop where
  next : s.nextPid = n + 1
  pid_le : ∀ i, (s.table i).pid ≤ n

section Short

variable {s s' : Procs} {n : Nat}

theorem Counted.fresh (h : Counted n s) (c : PidCall) : c.Fresh s := by
  cases c with
  | create name entry stack cr3 =>
    intro _ _
    rw [h.next]
    refine ⟨Nat.succ_ne_zero n, fun i _ hpid => ?_⟩
    have := h.pid_le i
    omega
  | destroy p => trivial

theorem Counted.step {c : PidCall} (h : Counted n s) (hn : n + 2 < 2 ^ 32)
    (hstep : PidStep s c s') : Counted n s' ∨ Counted (n + 1) s' := by
  subst hstep
  cases c with
  | create name entry stack cr3 =>
    rcases procCreate_cases name entry stack cr3 s with ⟨-, hsame⟩ | ⟨slot, q, hslot, -⟩
    · left
      rw [PidCall.run, hsame]
      exact h
    · obtain ⟨hnext, hentry⟩ := procCreate_pids name entry stack cr3 hslot
      refine .inr ⟨?_, fun i => ?_⟩
      · rw [PidCall.run, hnext, h.next]
        exact Nat.mod_eq_of_lt hn
      · have hle := h.pid_le i
        rw [PidCall.run, (hentry i).2, h.next]
        split <;> omega
  | destroy p =>
    left
    rw [PidCall.run]
    by_cases hpid : (s.table p).pid = 0
    · rw [procDestroy, if_pos hpid]
      exact h
    · obtain ⟨hnext, hentry⟩ := procDestroy_pids hpid
      refine ⟨hnext.trans h.next, fun i => ?_⟩
      have hle := h.pid_le i
      rw [(hentry i).2]
      split <;> omega

/-- In a run of fewer than `2 ^ 32` calls the counter does not come back to a pid in use. -/
theorem fresh_of_counted {calls : List PidCall} (hrun : Run PidStep s calls s')
    (h : Counted n s) (hlen : n + calls.length < 2 ^ 32) : Run FreshStep s calls s' := by
  induction hrun generalizing n with
  | nil s => exact .nil s
  | @cons s s1 s' c calls hstep hrun ih =>
    rw [List.length_cons] at hlen
    refine .cons ⟨h.fresh c, hstep⟩ ?_
    cases hrun with
    | nil => exact .nil _
    | cons hnext hrest =>
      rw [List.length_cons] at hlen
      rcases h.step (by omega) hstep with h | h
      · exact ih h (by rw [List.length_cons]; omega)
      · exact ih h (by rw [List.length_cons]; omega)

theorem counted_init (rsp cr3 : Nat) : Counted 0 (procInit rsp cr3 .bss) := by
  refine ⟨rfl, fun i => ?_⟩
  unfold procInit
  rw [set_table]
  split <;> exact Nat.le_refl 0

end Short

/-! ## Unique pids -/

/-- **Unique pids.** After `proc_init`, and any calls none of which creates a process while the
counter is at `0` or at a pid in use, live processes have different pids, pid `0` is idle's
alone, and every live process is found by its pid. -/
theorem pids_unique {rsp cr3 : Nat} {s0 s : Procs} {calls : List PidCall}
    (hrun : Run FreshStep (procInit rsp cr3 s0) calls s) :
    (∀ i j, Live s i → Live s j → (s.table i).pid = (s.table j).pid → i = j) ∧
    (∀ i, Live s i → (s.table i).pid = 0 → i = 0) ∧
    ∀ p, Live s p → procGetByPid (s.table p).pid s = some p := by
  have h : PidInv s := hrun.invariant (fun _ _ _ h hstep => h.step hstep) (.init rsp cr3 s0)
  exact ⟨h.inj, h.zero, fun p hp => h.getByPid hp⟩

/-- Two processes, the first of which is destroyed. -/
theorem pids_unique_two : ∃ calls s, Run FreshStep (procInit 0 0 .bss) calls s ∧
    Live s 2 ∧ procGetByPid (s.table 2).pid s = some 2 := by
  let calls : List PidCall := [.create ⟨[97], by decide⟩ 0x1000 0x8000 0,
    .create ⟨[98], by decide⟩ 0x2000 0xC000 0, .destroy 1]
  have hrun : Run PidStep (procInit 0 0 .bss) calls _ := .cons rfl (.cons rfl (.cons rfl (.nil _)))
  have hfresh := fresh_of_counted hrun (counted_init 0 0) (by decide)
  refine ⟨calls, _, hfresh, ?_, (pids_unique hfresh).2.2 2 ?_⟩
  all_goals
    unfold Live
    decide +kernel

/-! ## Churn -/

/-- After `n` creations only idle is left. -/
structure Alone (n : Nat) (s : Procs) : Prop where
  next : s.nextPid = wrap32 (n + 1)
  idle : (s.table 0).pid = 0 ∧ (s.table 0).state = .ready
  unused : ∀ i, i ≠ 0 → (s.table i).state = .unused

section Churn

variable {s : Procs} {n : Nat}

theorem Alone.freeSlot (h : Alone n s) : procFreeSlot s = some 1 := by
  exact List.find?_cons_of_pos (decide_eq_true (h.unused 1 (by decide)))

/-- The process that is created next gets the slot after idle's and the pid of the counter. -/
theorem Alone.create (h : Alone n s) (name : CString) (entry cr3 : Nat) {stack : Nat}
    (hstack : stack ≠ 0) :
    (procCreate name entry stack cr3 s).2.nextPid = wrap32 (n + 2) ∧
    ∀ i, ((procCreate name entry stack cr3 s).2.table i).state =
        (if i = 0 ∨ i = 1 then .ready else .unused) ∧
      ((procCreate name entry stack cr3 s).2.table i).pid =
        if i = 1 then wrap32 (n + 1) else (s.table i).pid := by
  obtain ⟨hnext, hentry⟩ := procCreate_pids name entry stack cr3 h.freeSlot
  refine ⟨?_, fun i => ⟨?_, ?_⟩⟩
  · rw [hnext, h.next]
    unfold wrap32
    omega
  · rw [(hentry i).1]
    by_cases h1 : i = 1
    · rw [if_pos h1, if_neg hstack, if_pos (.inr h1)]
    · rw [if_neg h1]
      by_cases h0 : i = 0
      · rw [h0]
        exact h.idle.2
      · rw [if_neg (not_or_intro h0 h1)]
        exact h.unused i h0
  · rw [(hentry i).2, h.next]

theorem Alone.churn (h : Alone n s) (hn : n + 1 < 2 ^ 32) :
    ∃ calls s', Run PidStep s calls s' ∧ Alone (n + 1) s' := by
  let name : CString := ⟨[97], by decide⟩
  obtain ⟨hnext, hentry⟩ := h.create name 0x1000 0 (show 0x8000 ≠ 0 by decide)
  let s1 := (procCreate name 0x1000 0x8000 0 s).2
  have hpid : (s1.table 1).pid ≠ 0 := by
    rw [(hentry 1).2, if_pos rfl]
    unfold wrap32
    omega
  obtain ⟨hnext', hentry'⟩ := procDestroy_pids hpid
  refine ⟨[.create name 0x1000 0x8000 0, .destroy 1], _, .cons rfl (.cons rfl (.nil _)), ?_⟩
  refine ⟨hnext'.trans hnext, ⟨?_, ?_⟩, fun i hi => ?_⟩
  · exact (hentry' 0).2.trans ((hentry 0).2.trans h.idle.1)
  · exact (hentry' 0).1.trans (hentry 0).1
  · refine (hentry' i).1.trans ?_
    by_cases h1 : i = 1
    · rw [if_pos h1]
    · rw [if_neg h1]
      exact (hentry i).1.trans (if_neg (not_or_intro hi h1))

/-- The counter can be brought to every value, with all slots free. -/
theorem churn_reaches (rsp cr3 : Nat) (hn : n < 2 ^ 32) :
    ∃ calls s, Run PidStep (procInit rsp cr3 .bss) calls s ∧ Alone n s := by
  induction n with
  | zero =>
    refine ⟨[], _, .nil _, rfl, ⟨rfl, (procInit_entry rsp cr3 .bss 0).2.2⟩, fun i hi => ?_⟩
    exact (procInit_entry rsp cr3 .bss i).2.2.trans (if_neg hi)
  | succ n ih =>
    obtain ⟨calls, s, hrun, halone⟩ := ih (by omega)
    obtain ⟨calls', s', hrun', halone'⟩ := halone.churn hn
    exact ⟨calls ++ calls', s', hrun.append hrun', halone'⟩

/-- The process created after `n` others that came and went. -/
theorem process_after (rsp cr3 : Nat) (hn : n < 2 ^ 32) :
    ∃ calls s, Run PidStep (procInit rsp cr3 .bss) calls s ∧ Live s 1 ∧
      (s.table 1).pid = wrap32 (n + 1) ∧ (s.table 0).pid = 0 ∧ (s.table 0).state = .ready := by
  obtain ⟨calls, s, hrun, halone⟩ := churn_reaches rsp cr3 hn
  let name : CString := ⟨[97], by decide⟩
  obtain ⟨-, hentry⟩ := halone.create name 0x1000 0 (show 0x8000 ≠ 0 by decide)
  have hstep : PidStep s (.create name 0x1000 0x8000 0) (procCreate name 0x1000 0x8000 0 s).2 := rfl
  refine ⟨_, _, hrun.snoc hstep, fun hunused => ?_, (hentry 1).2, ?_, (hentry 0).1⟩
  · exact absurd ((hentry 1).1.symm.trans hunused) nofun
  · exact (hentry 0).2.trans halone.idle.1

end Churn

/-- After `2 ^ 32 - 1` processes that came and went the next one gets pid `0`, and looking it
up finds idle. -/
theorem pids_wrap : ∃ calls s, Run PidStep (procInit 0 0 .bss) calls s ∧
    Live s 1 ∧ (s.table 1).pid = 0 ∧ procGetByPid (s.table 1).pid s = some 0 := by
  obtain ⟨calls, s, hrun, hlive, hpid, hidle, hready⟩ :=
    process_after (n := 2 ^ 32 - 1) 0 0 (by decide)
  -- idle comes first in the table
  have hslots : List.finRange procMaxProcesses = 0 :: (List.finRange procMaxProcesses).drop 1 := by
    decide +kernel
  refine ⟨calls, s, hrun, hlive, hpid, ?_⟩
  rw [hpid, procGetByPid, hslots]
  refine List.find?_cons_of_pos ?_
  rw [hidle, hready]
  rfl

end GosKernel.Proc
