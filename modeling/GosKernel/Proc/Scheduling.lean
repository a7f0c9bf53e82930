import Mathlib.Data.List.TakeWhile
import GosKernel.Proc.Waking

/-!
# What the scheduler keeps of the ready queue

The calls on processes and the timer interrupt as the steps of a transition system.
`scheduler_remove` takes a process that is not linked for the only one on the queue,
and `scheduler_add` does not look whether the process is linked already; `Orderly`
says which calls do neither. **`ready_queue_invariant`**: in runs of such calls the queue
is well formed and has every ready process on it. `idle_yield_drops_queue` is a run in
which idle, which is never on the queue, yields and loses the process that waits there.
-/

namespace GosKernel.Proc

open Exec Linked List

/-! ## Calls -/

inductive ProcCall
  | create (name : CString) (entry stack cr3 : Nat)
  | destroy (proc : Slot)
  | yield
  | sleep (ms pitTicks pitHz : Nat)
  | exit (code : Int)
  | tick

def ProcCall.run : ProcCall → Nat → Exec Procs Unit
  | .create name entry stack cr3, _ => update fun s => (procCreate name entry stack cr3 s).2
  | .destroy proc, _ => update (procDestroy proc)
  | .yield, fuel => procYield fuel
  | .sleep ms pitTicks pitHz, fuel => procSleep fuel ms pitTicks pitHz
  | .exit code, fuel => procExit fuel code
  | .tick, fuel => schedulerTick fuel

/-- Only a process that exists is destroyed. -/
def ProcCall.Allowed : ProcCall → Procs → Prop
  | .destroy proc, s => (s.table proc).state ≠ .unused
  | _, _ => True

instance (c : ProcCall) (s : Procs) : Decidable (c.Allowed s) :=
  match c with
  | .destroy proc => inferInstanceAs (Decidable ((s.table proc).state ≠ .unused))
  | .create .. | .yield | .sleep .. | .exit _ | .tick => .isTrue trivial

/-- One call, run to its end. -/
def ProcStep (s : Procs) (c : ProcCall) (s' : Procs) : Prop :=
  c.Allowed s ∧ Converges c.run s () s'

/-- The call unlinks only processes on the queue, or while the queue is empty, and links
only processes off it:
* idle does not yield while it is `RUNNING` and the queue is not empty;
* a process is destroyed only while it is on the queue or the queue is empty;
* no process that a tick wakes is still on the queue. -/
def ProcCall.Orderly : ProcCall → Procs → Prop
  | .yield, s =>
    s.currentProc = some 0 → (s.table 0).state = .running → s.readyQueueHead = none
  | .destroy proc, s =>
    (s.table proc).pid = 0 ∨ proc ∈ readyQueue s ∨ s.readyQueueHead = none
  | .tick, s =>
    ∀ i, i ≠ 0 → wakes (s.table i) (wrap64 (s.schedulerTicks + 1)) → i ∉ readyQueue s
  | _, _ => True

instance (c : ProcCall) (s : Procs) : Decidable (c.Orderly s) :=
  match c with
  | .yield => inferInstanceAs (Decidable (s.currentProc = some 0 →
      (s.table 0).state = .running → s.readyQueueHead = none))
  | .destroy proc => inferInstanceAs (Decidable ((s.table proc).pid = 0 ∨
      proc ∈ readyQueue s ∨ s.readyQueueHead = none))
  | .tick => inferInstanceAs (Decidable (∀ i, i ≠ 0 →
      wakes (s.table i) (wrap64 (s.schedulerTicks + 1)) → i ∉ readyQueue s))
  | .create .. | .sleep .. | .exit _ => .isTrue trivial

/-! ## The invariant -/

/-- State `st` of process `i` agrees with a queue that holds `L`, while `current` runs. -/
structure Agrees (current : Option Slot) (L : List Slot) (i : Slot) (st : ProcState) : Prop where
  ready : i ≠ 0 → st = .ready → i ∈ L
  used : i ∈ L → st ≠ .unused
  running : st = .running → current = some i ∧ (i = 0 ∨ i ∈ L)

/-- The queue holds `L`, without idle, and the states of the processes agree with it. -/
structure SchedInv (s : Procs) (L : List Slot) : Prop extends Queue s L where
  agrees : ∀ i, Agrees s.currentProc L i (s.table i).state
  idle : 0 ∉ L
  idlePid : (s.table 0).pid = 0

variable {L : List Slot} {c : ProcCall} {f : Process → Process} {m n : Nat} {p : Slot}
  {s s' : Procs}

section

variable (h : SchedInv s L)
include h

/-- The invariant over a queue that was only reordered. -/
theorem SchedInv.relinked {L' : List Slot}
    (hq : Queue s' L') (hre : Relinked s s') (hL : ∀ i, i ∈ L' ↔ i ∈ L) : SchedInv s' L' where
  toQueue := hq
  agrees i := by
    rw [hre.state, hre.current]
    refine ⟨?_, ?_, ?_⟩
    · rw [hL]
      exact (h.agrees i).ready
    · rw [hL]
      exact (h.agrees i).used
    · rw [hL]
      exact (h.agrees i).running
  idle hi := h.idle ((hL 0).mp hi)
  idlePid := by
    rw [hre.pid]
    exact h.idlePid

theorem SchedInv.set
    (hlinks : (f (s.table p)).next = (s.table p).next ∧ (f (s.table p)).prev = (s.table p).prev)
    (hstate : Agrees s.currentProc L p (f (s.table p)).state)
    (hpid : p = 0 → (f (s.table p)).pid = 0) : SchedInv (s.set p f) L where
  toQueue := h.toQueue.set hlinks
  agrees i := by
    rw [set_table]
    by_cases hip : i = p
    · rw [if_pos hip, hip]
      exact hstate
    · rw [if_neg hip]
      exact h.agrees i
  idle := h.idle
  idlePid := by
    rw [set_table]
    by_cases hip : 0 = p
    · rw [if_pos hip]
      exact hpid hip.symm
    · rw [if_neg hip]
      exact h.idlePid

omit h in
/-- The table left by `proc_init` has idle only. -/
theorem procInit_entry (rsp cr3 : Nat) (s : Procs) (i : Slot) :
    ((procInit rsp cr3 s).table i).next = none ∧ ((procInit rsp cr3 s).table i).prev = none ∧
      ((procInit rsp cr3 s).table i).state = if i = 0 then .ready else .unused := by
  unfold procInit
  rw [set_table]
  by_cases hi : i = 0
  · rw [if_pos hi, if_pos hi]
    exact ⟨rfl, rfl, rfl⟩
  · rw [if_neg hi, if_neg hi]
    exact ⟨rfl, rfl, rfl⟩

omit h in
theorem schedulerInit_inv (rsp cr3 : Nat) (s : Procs) :
    SchedInv (schedulerInit (procInit rsp cr3 s)) [] where
  nodup := nodup_nil
  links := trivial
  head := rfl
  tail := rfl
  unlinked i _ := ⟨(procInit_entry rsp cr3 s i).1, (procInit_entry rsp cr3 s i).2.1⟩
  agrees i := by
    show Agrees _ _ _ ((procInit rsp cr3 s).table i).state
    rw [(procInit_entry rsp cr3 s i).2.2]
    by_cases hi : i = 0
    · rw [if_pos hi]
      exact ⟨fun h0 => absurd hi h0, nofun, nofun⟩
    · rw [if_neg hi]
      exact ⟨nofun, nofun, nofun⟩
  idle := not_mem_nil
  idlePid := rfl

/-! ## Yielding -/

/-- After the first step of `scheduler_yield` no process is running. -/
theorem SchedInv.requeue (hidle : s.currentProc = some 0 → (s.table 0).state ≠ .running) :
    ∃ L', SchedInv (schedulerRequeue s) L' ∧
      ∀ i, ((schedulerRequeue s).table i).state ≠ .running := by
  by_cases hrun : ∃ c, s.currentProc = some c ∧ (s.table c).state = .running
  · -- the current process is on the queue, and moves to its end
    obtain ⟨c, hc, hrun⟩ := hrun
    have hc0 : c ≠ 0 := by
      rintro rfl
      exact hidle hc hrun
    have hcL : c ∈ L := ((h.agrees c).running hrun).2.resolve_left hc0
    obtain ⟨L1, L2, rfl⟩ := append_of_mem hcL
    have h1 : SchedInv (s.set c fun p => { p with state := .ready }) (L1 ++ c :: L2) :=
      h.set ⟨rfl, rfl⟩ ⟨fun _ _ => hcL, nofun, nofun⟩ fun hx => absurd hx hc0
    obtain ⟨hq, hre⟩ := h.toQueue.requeue hc hrun
    refine ⟨L1 ++ L2 ++ [c], h1.relinked hq hre fun i => ?_, fun i => ?_⟩
    · simp only [mem_append, mem_cons]
      tauto
    · rw [hre.state, set_table]
      by_cases hic : i = c
      · rw [if_pos hic]
        exact nofun
      · rw [if_neg hic]
        intro hi
        have hcur := ((h.agrees i).running hi).1
        rw [hc] at hcur
        exact hic (Option.some.inj hcur).symm
  · rw [schedulerRequeue_of_not_running hrun]
    exact ⟨L, h, fun i hi => hrun ⟨i, ((h.agrees i).running hi).1, hi⟩⟩

omit h in
/-- Ready processes outlast the loop of `scheduler_yield`. -/
theorem mem_dropWhile_of_ready {i : Slot} (hi : i ∈ L) (hready : (s.table i).state = .ready) :
    i ∈ L.dropWhile fun i => (s.table i).state ≠ .ready := by
  rw [← takeWhile_append_dropWhile (p := fun i => decide ((s.table i).state ≠ .ready))
    (l := L)] at hi
  refine (mem_append.mp hi).resolve_left fun hx => ?_
  simpa [hready] using mem_takeWhile_imp hx

omit h in
theorem schedulerRun_eq (s : Procs) (next : Option Slot) :
    (schedulerRun s next).readyQueueHead = s.readyQueueHead ∧
      (schedulerRun s next).readyQueueTail = s.readyQueueTail ∧
      (schedulerRun s next).currentProc = some (next.getD 0) ∧
      ∀ i, (schedulerRun s next).table i =
        if i = next.getD 0 then { s.table i with state := .running } else s.table i := by
  have htable : ∀ i, (s.set (next.getD 0) fun p => { p with state := .running }).table i =
      if i = next.getD 0 then { s.table i with state := .running } else s.table i := by
    intro i
    rw [set_table]
    by_cases hi : i = next.getD 0
    · rw [if_pos hi, if_pos hi, hi]
    · rw [if_neg hi, if_neg hi]
  unfold schedulerRun schedulerSwitchTo
  dsimp only
  split
  · rename_i hcur
    exact ⟨rfl, rfl, hcur, htable⟩
  · exact ⟨rfl, rfl, rfl, htable⟩

/-- Running the first process of a queue that starts with a ready one, or idle, while no
process is running. -/
theorem SchedInv.run (hnone : ∀ i, (s.table i).state ≠ .running) :
    SchedInv (schedulerRun s (headOr some L none)) L := by
  obtain ⟨hhead, htail, hcur, htable⟩ := schedulerRun_eq s (headOr some L none)
  have hmem : (headOr some L none).getD 0 = 0 ∨ (headOr some L none).getD 0 ∈ L := by
    cases L with
    | nil => exact .inl rfl
    | cons a L => exact .inr mem_cons_self
  refine ⟨h.toQueue.congr hhead htail fun i => ?_, fun i => ?_, h.idle, ?_⟩
  · rw [htable]
    split <;> exact ⟨rfl, rfl⟩
  · rw [htable, hcur]
    split
    · rename_i hi
      rw [hi]
      exact ⟨nofun, nofun, fun _ => ⟨rfl, hmem⟩⟩
    · exact ⟨(h.agrees i).ready, (h.agrees i).used, fun hr => absurd hr (hnone i)⟩
  · rw [htable]
    split <;> exact h.idlePid

omit h in
/-- Yielding with an empty queue. -/
theorem schedulerYield_of_empty (hhead : s.readyQueueHead = none) (fuel : Nat) :
    Returns (schedulerYield fuel) s () s := by
  unfold Returns schedulerYield
  rw [hhead]

omit h in
/-- Yielding to the process that the loop ends at. -/
theorem schedulerYield_of_loop {a : Slot} {next : Option Slot} {fuel : Nat}
    (hhead : s.readyQueueHead = some a)
    (hloop : schedulerYieldLoop fuel (schedulerRequeue s) (schedulerRequeue s).readyQueueHead =
      some (s', next)) : Returns (schedulerYield fuel) s () (schedulerRun s' next) := by
  unfold Returns schedulerYield
  rw [hhead]
  dsimp only
  rw [hloop, Option.map_some]

/-- **`scheduler_yield`** returns and keeps the invariant. -/
theorem SchedInv.yield
    (hidle : s.currentProc = some 0 → (s.table 0).state = .running → s.readyQueueHead = none) :
    ∃ s' L', SchedInv s' L' ∧
      ∀ fuel, procMaxProcesses < fuel → Returns (schedulerYield fuel) s () s' := by
  cases hhead : s.readyQueueHead with
  | none =>
    exact ⟨s, L, h, fun fuel _ => schedulerYield_of_empty hhead fuel⟩
  | some a =>
    have hidle' : s.currentProc = some 0 → (s.table 0).state ≠ .running := by
      intro hc hr
      rw [hidle hc hr] at hhead
      cases hhead
    obtain ⟨L1, h1, hnone⟩ := h.requeue hidle'
    obtain ⟨s2, L2, hloop, hq, hre, hL2⟩ := h1.toQueue.yieldLoop
    have hsub : ∀ i ∈ L2, i ∈ L1 := fun i hi => (hL2 ▸ dropWhile_suffix _).mem hi
    have h2 : SchedInv s2 L2 := by
      refine ⟨hq, fun i => ?_, fun hi => h1.idle (hsub 0 hi), ?_⟩
      · rw [hre.state]
        refine ⟨fun hi hr => ?_, fun hi => (h1.agrees i).used (hsub i hi),
          fun hr => absurd hr (hnone i)⟩
        rw [hL2]
        exact mem_dropWhile_of_ready ((h1.agrees i).ready hi hr) hr
      · rw [hre.pid]
        exact h1.idlePid
    refine ⟨schedulerRun s2 (headOr some L2 none), L2, h2.run ?_, fun fuel hfuel => ?_⟩
    · intro i
      rw [hre.state]
      exact hnone i
    · exact schedulerYield_of_loop hhead (hloop fuel (Nat.lt_of_le_of_lt h1.length_le hfuel))

/-- `proc_exit` and `proc_sleep`: the current process, if it is not idle, stops and the
others go on. -/
theorem SchedInv.stop (hlinks : ∀ q, (f q).next = q.next ∧ (f q).prev = q.prev)
    (hstate : ∀ q, (f q).state = .blocked ∨ (f q).state = .zombie) :
    ∃ s' L', SchedInv s' L' ∧ ∀ fuel, procMaxProcesses < fuel →
      (match s.currentProc with
        | none => some ((), s)
        | some proc =>
          if (s.table proc).pid = 0 then some ((), s) else schedulerYield fuel (s.set proc f)) =
        some ((), s') := by
  cases hcur : s.currentProc with
  | none => exact ⟨s, L, h, fun _ _ => rfl⟩
  | some p =>
    by_cases hpid : (s.table p).pid = 0
    · simp only [if_pos hpid]
      exact ⟨s, L, h, fun _ _ => rfl⟩
    · have hp0 : p ≠ 0 := by
        rintro rfl
        exact hpid h.idlePid
      have hagrees : Agrees s.currentProc L p (f (s.table p)).state := by
        rcases hstate (s.table p) with hs | hs <;> rw [hs] <;> exact ⟨nofun, nofun, nofun⟩
      simp only [if_neg hpid]
      refine (h.set (hlinks _) hagrees fun hx => absurd hx hp0).yield fun hc => ?_
      exact absurd (Option.some.inj (hcur.symm.trans hc)) hp0

/-! ## Creating and destroying -/

omit h in
/-- The slot that `proc_create` takes is unused and not idle's. -/
theorem procFreeSlot_some {slot : Slot} (h : procFreeSlot s = some slot) :
    slot ≠ 0 ∧ (s.table slot).state = .unused := by
  refine ⟨?_, by simpa using find?_some h⟩
  have hmem := mem_of_find?_eq_some h
  rintro rfl
  revert hmem
  decide

omit h in
/-- What `proc_create` does: nothing, an unused slot written, or a process queued. -/
theorem procCreate_cases (name : CString) (entry stack cr3 : Nat) (s : Procs) :
    procFreeSlot s = none ∧ procCreate name entry stack cr3 s = (none, s) ∨
    ∃ slot q, procFreeSlot s = some slot ∧ q.pid = s.nextPid ∧
      let s1 := { s with nextPid := wrap32 (s.nextPid + 1) }.set slot fun _ => q
      (stack = 0 ∧ procCreate name entry stack cr3 s = (none, s1) ∧ q.state = .unused ∧
          q.next = (s.table slot).next ∧ q.prev = (s.table slot).prev) ∨
        (stack ≠ 0 ∧ procCreate name entry stack cr3 s = (some slot, schedulerAdd s1 slot) ∧
          q.state = .ready ∧ q.next = none ∧ q.prev = none) := by
  unfold procCreate
  cases hslot : procFreeSlot s with
  | none => exact .inl ⟨rfl, rfl⟩
  | some slot =>
    by_cases hstack : stack = 0
    · dsimp only
      rw [if_pos hstack, set_set, set_set]
      exact .inr ⟨slot, _, rfl, rfl, .inl ⟨hstack, rfl, rfl, rfl, rfl⟩⟩
    · dsimp only
      rw [if_neg hstack, set_set, set_set]
      exact .inr ⟨slot, _, rfl, rfl, .inr ⟨hstack, rfl, rfl, rfl, rfl⟩⟩

/-- A process off the queue becomes ready and is queued. -/
theorem SchedInv.enqueue (hp : p ≠ 0) (hpL : p ∉ L)
    (hlinks : (f (s.table p)).next = (s.table p).next ∧ (f (s.table p)).prev = (s.table p).prev)
    (hstate : (f (s.table p)).state = .ready) :
    SchedInv (schedulerAdd (s.set p f) p) (L ++ [p]) ∧
      Relinked (s.set p f) (schedulerAdd (s.set p f) p) := by
  have hq : Queue (s.set p f) L := h.toQueue.set hlinks
  have hready : ((s.set p f).table p).state = .ready := by
    rw [set_table, if_pos rfl]
    exact hstate
  obtain ⟨hq', hre⟩ := hq.add hpL hready
  refine ⟨⟨hq', fun i => ?_, ?_, ?_⟩, hre⟩
  · rw [hre.current, hre.state, set_table]
    by_cases hip : i = p
    · rw [if_pos hip, hstate]
      refine ⟨fun _ _ => ?_, nofun, nofun⟩
      rw [hip]
      exact mem_append_right _ mem_cons_self
    · obtain ⟨hr, hu, hrun⟩ := h.agrees i
      have hmem : i ∈ L ++ [p] ↔ i ∈ L := by
        simp [hip]
      rw [if_neg hip]
      exact ⟨by rwa [hmem], by rwa [hmem], by rwa [hmem]⟩
  · simpa [hp.symm] using h.idle
  · rw [hre.pid, set_table, if_neg hp.symm]
    exact h.idlePid

/-- **`proc_create`** keeps the invariant. -/
theorem SchedInv.create (name : CString)
    (entry stack cr3 : Nat) : ∃ L', SchedInv (procCreate name entry stack cr3 s).2 L' := by
  rcases procCreate_cases name entry stack cr3 s with
    ⟨-, hsame⟩ | ⟨slot, q, htake, -, ⟨-, heq, hst, hn, hp⟩ | ⟨-, heq, hst, hn, hp⟩⟩
  · rw [hsame]
    exact ⟨L, h⟩
  all_goals
    obtain ⟨hslot, hfree⟩ := procFreeSlot_some htake
    have hL : slot ∉ L := fun hx => (h.agrees slot).used hx hfree
    have h1 : SchedInv { s with nextPid := wrap32 (s.nextPid + 1) } L :=
      ⟨h.toQueue.congr rfl rfl fun _ => ⟨rfl, rfl⟩, h.agrees, h.idle, h.idlePid⟩
    rw [heq]
    dsimp only
  · refine ⟨L, h1.set ⟨hn, hp⟩ ?_ fun hx => absurd hx hslot⟩
    rw [hst]
    exact ⟨nofun, fun hx => absurd hx hL, nofun⟩
  · obtain ⟨hnext, hprev⟩ := h.unlinked slot hL
    exact ⟨_, (h1.enqueue hslot hL ⟨hn.trans hnext.symm, hp.trans hprev.symm⟩ hst).1⟩

theorem SchedInv.discard {L' : List Slot}
    (hp0 : p ≠ 0) (hq : Queue s' L') (hre : Relinked s s') (hp : p ∉ L')
    (hL : ∀ i, i ≠ p → (i ∈ L' ↔ i ∈ L)) (hlinks : ∀ q, (f q).next = q.next ∧ (f q).prev = q.prev)
    (hstate : ∀ q, (f q).state = .unused) : SchedInv (s'.set p f) L' := by
  have htable := set_table s' p f
  refine ⟨hq.set (hlinks _), fun i => ?_, ?_, ?_⟩
  · show Agrees s'.currentProc L' i _
    rw [htable, hre.current]
    by_cases hip : i = p
    · rw [if_pos hip, hstate, hip]
      exact ⟨nofun, fun hx => absurd hx hp, nofun⟩
    · obtain ⟨hr, hu, hrun⟩ := h.agrees i
      rw [if_neg hip, hre.state]
      exact ⟨by rwa [hL i hip], by rwa [hL i hip], by rwa [hL i hip]⟩
  · rw [hL 0 hp0.symm]
    exact h.idle
  · rw [htable, if_neg hp0.symm, hre.pid]
    exact h.idlePid

/-- **`proc_destroy`** of a process on the queue, or while the queue is empty. -/
theorem SchedInv.destroy
    (hp : (s.table p).pid = 0 ∨ p ∈ L ∨ L = []) : ∃ L', SchedInv (procDestroy p s) L' := by
  unfold procDestroy
  by_cases hpid : (s.table p).pid = 0
  · rw [if_pos hpid]
    exact ⟨L, h⟩
  · rw [if_neg hpid]
    have hp0 : p ≠ 0 := by
      rintro rfl
      exact hpid h.idlePid
    rcases hp.resolve_left hpid with hp | rfl
    · obtain ⟨L1, L2, rfl⟩ := append_of_mem hp
      obtain ⟨hq, hre⟩ := h.toQueue.remove
      refine ⟨L1 ++ L2, h.discard hp0 hq hre (nodup_middle.mp h.nodup).notMem
        (fun i hi => ?_) (fun _ => ⟨rfl, rfl⟩) fun _ => rfl⟩
      simp [hi]
    · obtain ⟨hq, hre⟩ := h.toQueue.remove_of_nil p
      exact ⟨[], h.discard hp0 hq hre not_mem_nil (fun _ _ => Iff.rfl)
        (fun _ => ⟨rfl, rfl⟩) fun _ => rfl⟩

/-! ## The timer -/

/-- The loop of `scheduler_tick` keeps the invariant, if the processes it wakes are off
the queue. -/
theorem SchedInv.wake {slots : List Slot} (hnd : slots.Nodup)
    (h0 : 0 ∉ slots) (hoff : ∀ i ∈ slots, wakes (s.table i) s.schedulerTicks → i ∉ L) :
    ∃ L', SchedInv (slots.foldl schedulerWake s) L' := by
  induction slots generalizing s L with
  | nil => exact ⟨L, h⟩
  | cons a slots ih =>
    obtain ⟨ha, hnd'⟩ := nodup_cons.mp hnd
    have h0' : 0 ∉ slots := fun hx => h0 (mem_cons_of_mem _ hx)
    rw [foldl_cons]
    unfold schedulerWake
    by_cases hw : wakes (s.table a) s.schedulerTicks
    · rw [if_pos hw]
      have ha0 : a ≠ 0 := fun hx => h0 (hx ▸ mem_cons_self)
      have haL := hoff a mem_cons_self hw
      obtain ⟨h', hre⟩ := h.enqueue (f := fun p => { p with state := .ready, wakeTime := 0 })
        ha0 haL ⟨rfl, rfl⟩ rfl
      have hoff' : ∀ i ∈ slots, wakes (s.table i) s.schedulerTicks → i ∉ L ++ [a] := by
        intro i hi hwi
        have hia : i ≠ a := fun hx => ha (hx ▸ hi)
        simpa [hia] using hoff i (mem_cons_of_mem _ hi) hwi
      refine ih h' hnd' h0' fun i hi hwi => hoff' i hi ?_
      -- the entries still to come are as they were
      have hia : i ≠ a := fun hx => ha (hx ▸ hi)
      unfold wakes at hwi ⊢
      rw [hre.state, hre.wake, hre.ticks, set_table, if_neg hia] at hwi
      exact hwi
    · rw [if_neg hw]
      exact ih h hnd' h0' fun i hi => hoff i (mem_cons_of_mem _ hi)

/-- All that are due are awake. -/
theorem SchedInv.awake
    (hoff : ∀ i, i ≠ 0 → wakes (s.table i) (wrap64 (s.schedulerTicks + 1)) → i ∉ L) :
    ∃ L', SchedInv (woken s) L' := by
  have h1 : SchedInv { s with schedulerTicks := wrap64 (s.schedulerTicks + 1) } L :=
    ⟨h.toQueue.congr rfl rfl fun _ => ⟨rfl, rfl⟩, h.agrees, h.idle, h.idlePid⟩
  unfold woken
  exact h1.wake ((nodup_finRange _).sublist (drop_sublist _ _))
    (fun h0 => mem_slots.mp h0 rfl) fun i hi => hoff i (mem_slots.mp hi)

/-- **`scheduler_tick`** returns and keeps the invariant. -/
theorem SchedInv.tick
    (hoff : ∀ i, i ≠ 0 → wakes (s.table i) (wrap64 (s.schedulerTicks + 1)) → i ∉ L) :
    ∃ s' L', SchedInv s' L' ∧
      ∀ fuel, procMaxProcesses < fuel → Returns (schedulerTick fuel) s () s' := by
  obtain ⟨L1, h1⟩ := h.awake hoff
  rcases s.idle_or_busy with hidle | ⟨c, hc, hpid⟩
  · exact ⟨_, L1, h1, fun fuel _ => schedulerTick_of_idle hidle fuel⟩
  · -- idle has pid 0 and does not yield here
    obtain ⟨s', L', h', hrun⟩ := h1.yield fun hc' => by
      rw [woken_current, hc] at hc'
      rw [Option.some.inj hc'] at hpid
      exact absurd h.idlePid hpid
    refine ⟨s', L', h', fun fuel hfuel => ?_⟩
    exact (schedulerTick_of_current hc hpid fuel).trans (hrun fuel hfuel)

/-! ## Runs -/

/-- An orderly call from a state with the invariant returns and keeps it. -/
theorem SchedInv.call (hc : c.Orderly s) : ∃ s' L', SchedInv s' L' ∧ Converges c.run s () s' := by
  cases c with
  | create name entry stack cr3 =>
    obtain ⟨L', h'⟩ := h.create name entry stack cr3
    exact ⟨_, L', h', 0, fun _ _ => rfl⟩
  | destroy p =>
    have hp : (s.table p).pid = 0 ∨ p ∈ L ∨ L = [] := by
      refine hc.imp_right (Or.imp (fun hp => ?_) fun hp => ?_)
      · rwa [h.readyQueue_eq] at hp
      · cases L with
        | nil => rfl
        | cons a L => exact nomatch h.head.symm.trans hp
    obtain ⟨L', h'⟩ := h.destroy hp
    exact ⟨_, L', h', 0, fun _ _ => rfl⟩
  | yield =>
    obtain ⟨s', L', h', hrun⟩ := h.yield hc
    exact ⟨s', L', h', _, hrun⟩
  | tick =>
    obtain ⟨s', L', h', hrun⟩ := h.tick fun i hi hw => by
      rw [← h.readyQueue_eq]
      exact hc i hi hw
    exact ⟨s', L', h', _, hrun⟩
  | sleep ms pitTicks pitHz =>
    obtain ⟨s', L', h', hrun⟩ := h.stop (f := fun p =>
      { p with
        wakeTime := wrap64 (pitTicks + wrap64 (ms * pitHz) / 1000)
        state := .blocked }) (fun _ => ⟨rfl, rfl⟩) fun _ => .inl rfl
    exact ⟨s', L', h', _, hrun⟩
  | exit code =>
    obtain ⟨s', L', h', hrun⟩ := h.stop (f := fun p =>
      { p with exitCode := code, state := .zombie }) (fun _ => ⟨rfl, rfl⟩) fun _ => .inr rfl
    exact ⟨s', L', h', _, hrun⟩

end

/-! ### Running a list of calls -/

theorem schedulerYieldLoop_mono {p : Option Slot}
    {r : Procs × Option Slot} (h : schedulerYieldLoop n s p = some r) (hnm : n ≤ m) :
    schedulerYieldLoop m s p = some r := by
  induction n generalizing m s p with
  | zero => cases h
  | succ n ih =>
    obtain ⟨m, rfl⟩ := fuel_succ hnm
    cases p with
    | none => exact h
    | some p =>
      unfold schedulerYieldLoop at h ⊢
      split at h
      · rename_i hp
        rw [if_pos hp]
        exact h
      · rename_i hp
        rw [if_neg hp]
        exact ih h (Nat.le_of_succ_le_succ hnm)

theorem schedulerYield_mono (h : Returns (schedulerYield n) s () s')
    (hnm : n ≤ m) : Returns (schedulerYield m) s () s' := by
  unfold Returns schedulerYield at h ⊢
  cases hhead : s.readyQueueHead with
  | none =>
    simp only [hhead] at h ⊢
    exact h
  | some a =>
    simp only [hhead, Option.map_eq_some_iff] at h ⊢
    obtain ⟨r, hr, heq⟩ := h
    exact ⟨r, schedulerYieldLoop_mono hr hnm, heq⟩

theorem procExit_mono {code : Int}
    (h : Returns (procExit n code) s () s') (hnm : n ≤ m) : Returns (procExit m code) s () s' := by
  revert h
  show procExit n code s = _ → procExit m code s = _
  unfold procExit
  split
  · exact id
  · split
    · exact id
    · exact fun h => schedulerYield_mono h hnm

theorem schedulerTick_mono (h : Returns (schedulerTick n) s () s')
    (hnm : n ≤ m) : Returns (schedulerTick m) s () s' := by
  unfold Returns at h ⊢
  rcases s.idle_or_busy with hidle | ⟨c, hc, hpid⟩
  · rw [schedulerTick_of_idle hidle] at h ⊢
    exact h
  · rw [schedulerTick_of_current hc hpid] at h ⊢
    exact schedulerYield_mono h hnm

theorem ProcCall.converges (h : Returns (c.run n) s () s') : Converges c.run s () s' := by
  refine ⟨n, fun m hnm => ?_⟩
  cases c with
  | create name entry stack cr3 => exact h
  | destroy p => exact h
  | yield => exact schedulerYield_mono h hnm
  | sleep ms pitTicks pitHz =>
    revert h
    show procSleep n ms pitTicks pitHz s = _ → procSleep m ms pitTicks pitHz s = _
    unfold procSleep
    split
    · exact id
    · split
      · exact id
      · exact fun h => schedulerYield_mono h hnm
  | exit code => exact procExit_mono h hnm
  | tick =>
    revert h
    show Returns (schedulerTick n) s () s' → Returns (schedulerTick m) s () s'
    exact fun h => schedulerTick_mono h hnm

/-- Make a call, if `ok` lets it. -/
def ProcCall.exec (ok : ProcCall → Procs → Bool) (fuel : Nat) (s : Procs) (c : ProcCall) :
    Option (ProcCall × Procs) :=
  if ok c s then (c.run fuel s).map fun r => (c, r.2) else none

theorem ProcCall.exec_eq_some {ok : ProcCall → Procs → Bool} {fuel : Nat}
    {e : ProcCall} (h : ProcCall.exec ok fuel s c = some (e, s')) :
    e = c ∧ ok c s ∧ Converges c.run s () s' := by
  unfold ProcCall.exec at h
  split at h
  · rename_i hok
    obtain ⟨⟨_, s1⟩, hrun, heq⟩ := Option.map_eq_some_iff.mp h
    cases heq
    exact ⟨rfl, hok, ProcCall.converges hrun⟩
  · cases h

/-- An orderly call, run to its end. -/
def OrderlyStep (s : Procs) (c : ProcCall) (s' : Procs) : Prop := c.Orderly s ∧ ProcStep s c s'

/-- The links from `g_ready_queue_head` to `g_ready_queue_tail` hold a list without
repetitions, and every ready process but idle is on it. -/
structure WellQueued (s : Procs) : Prop where
  nodup : (readyQueue s).Nodup
  links : DSeg some (fun i => (s.table i).next) (fun i => (s.table i).prev) none (readyQueue s) none
  head : s.readyQueueHead = headOr some (readyQueue s) none
  tail : s.readyQueueTail = lastOr some none (readyQueue s)
  ready : ∀ i, i ≠ 0 → (s.table i).state = .ready → i ∈ readyQueue s

theorem SchedInv.wellQueued (h : SchedInv s L) : WellQueued s := by
  constructor
  all_goals rw [h.readyQueue_eq]
  · exact h.nodup
  · exact h.links
  · exact h.head
  · exact h.tail
  · intro i hi hr
    exact (h.agrees i).ready hi hr

/-- **The ready queue.** After `proc_init` and `scheduler_init`, in every run of orderly
calls the queue is well formed and no ready process is missing from it; and every
further orderly call returns. -/
theorem ready_queue_invariant (rsp cr3 : Nat) (s0 : Procs) {calls : List ProcCall} {s : Procs}
    (h : Run OrderlyStep (schedulerInit (procInit rsp cr3 s0)) calls s) :
    WellQueued s ∧ ∀ c : ProcCall, c.Allowed s → c.Orderly s → ∃ s', ProcStep s c s' := by
  have hinv : ∃ L, SchedInv s L := by
    refine Run.invariant (I := fun s => ∃ L, SchedInv s L) ?_ h ⟨[], schedulerInit_inv rsp cr3 s0⟩
    rintro s c s' ⟨L, hs⟩ ⟨hc, -, hrun⟩
    obtain ⟨s1, L', h1, hrun1⟩ := hs.call hc
    rw [(hrun.unique hrun1).2]
    exact ⟨L', h1⟩
  obtain ⟨L, hL⟩ := hinv
  refine ⟨hL.wellQueued, fun c hallowed hc => ?_⟩
  obtain ⟨s', -, -, hrun⟩ := hL.call hc
  exact ⟨s', hallowed, hrun⟩

/-- Two processes: the first sleeps, is woken, and both take turns until the first is
destroyed. -/
def turns (first second : CString) : List ProcCall :=
  [.create first 0x1000 0x8000 0, .create second 0x2000 0xC000 0, .yield, .sleep 0 1 100, .tick,
    .yield, .tick, .destroy 1]

theorem ready_queue_invariant_turns :
    ∃ calls s, Run OrderlyStep (schedulerInit (procInit 0 0 .bss)) calls s ∧ calls.length = 8 ∧
      readyQueue s = [2] ∧ WellQueued s := by
  have heval : (Run.exec (ProcCall.exec (fun c s => decide (c.Orderly s ∧ c.Allowed s)) 4)
      (schedulerInit (procInit 0 0 .bss)) (turns ⟨[97], by decide⟩ ⟨[98], by decide⟩)).map
      (fun r => (r.1.length, readyQueue r.2)) = some (8, [2]) := by
    decide +kernel
  obtain ⟨⟨calls, s⟩, hs, heq⟩ := Option.map_eq_some_iff.mp heval
  obtain ⟨hlen, hq⟩ := Prod.mk.inj heq
  have hrun : Run OrderlyStep (schedulerInit (procInit 0 0 .bss)) calls s := by
    refine Run.of_exec (fun s c e s' h => ?_) hs
    obtain ⟨rfl, hok, hc⟩ := ProcCall.exec_eq_some h
    exact ⟨(of_decide_eq_true hok).1, (of_decide_eq_true hok).2, hc⟩
  exact ⟨calls, s, hrun, hlen, hq, (ready_queue_invariant 0 0 .bss hrun).1⟩

/-- Process 1 goes to sleep, so idle runs; process 2 is created, and idle yields. Its
removal from the queue, where it is not, empties the queue: process 2 is ready and will
not run. -/
theorem idle_yield_drops_queue :
    ∃ calls s, Run ProcStep (schedulerInit (procInit 0 0 .bss)) calls s ∧
      (s.table 2).state = .ready ∧ readyQueue s = [0] ∧ ¬ WellQueued s := by
  have heval : (Run.exec (ProcCall.exec (fun c s => decide (c.Allowed s)) 4)
      (schedulerInit (procInit 0 0 .bss))
      [.create ⟨[97], by decide⟩ 0x1000 0x8000 0, .yield, .sleep 10 0 100,
        .create ⟨[98], by decide⟩ 0x2000 0xC000 0, .yield]).map
      (fun r => ((r.2.table 2).state, readyQueue r.2)) = some (.ready, [0]) := by
    decide +kernel
  obtain ⟨⟨calls, s⟩, hs, heq⟩ := Option.map_eq_some_iff.mp heval
  obtain ⟨hready, hqueue⟩ := Prod.mk.inj heq
  have hrun : Run ProcStep (schedulerInit (procInit 0 0 .bss)) calls s := by
    refine Run.of_exec (fun s c e s' h => ?_) hs
    obtain ⟨rfl, hok, hc⟩ := ProcCall.exec_eq_some h
    exact ⟨of_decide_eq_true hok, hc⟩
  refine ⟨calls, s, hrun, hready, hqueue, fun h => ?_⟩
  have hmem := h.ready 2 (by decide) hready
  rw [hqueue] at hmem
  exact absurd hmem (by decide)

end GosKernel.Proc
