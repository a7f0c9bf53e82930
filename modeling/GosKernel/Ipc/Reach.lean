import GosKernel.Ipc.Delivery
import GosKernel.Proc.Pids

/-!
# Which processes can be sent messages

Message queues are an array of 256, by pid. Slots of the process table are recycled but
pids are not, so after enough processes have come and gone there are live processes whose
pid is not an index of the array. `ipc_send` and `ipc_broadcast` do not reach these.

- `ipc_reaches`: a process is reached if and only if its pid is an index;
- `ipc_misses_pid_256`: a process whose pid is not.
-/

namespace GosKernel.Ipc

open Proc Slots

/-! ## Broadcast -/

/-- The loop of `ipc_broadcast` (ipc.c:110-115), with `n` pids left from `i` on: how many
messages were sent, and which pids `ipc_send` was called with. -/
def ipcBroadcastLoop (procs : Procs) (alloc : Nat → Bool) (msg : IpcMessage) :
    (n i : Nat) → IpcQueues → (Int × List Nat) × IpcQueues
  | 0, _, s => ((0, []), s)
  | n + 1, i, s =>
    match procGetByPid i procs with
    | none => ipcBroadcastLoop procs alloc msg n (i + 1) s
    | some p =>
      if (procs.table p).state = .unused then ipcBroadcastLoop procs alloc msg n (i + 1) s
      else
        let (code, s) := ipcSend procs (alloc i) i (some msg) s
        let ((sent, tried), s) := ipcBroadcastLoop procs alloc msg n (i + 1) s
        ((if code = 0 then sent + 1 else sent, i :: tried), s)

/-- `ipc_broadcast` (ipc.c:107-118). -/
def ipcBroadcast (procs : Procs) (alloc : Nat → Bool) (msg : Option IpcMessage) (s : IpcQueues) :
    (Int × List Nat) × IpcQueues :=
  match msg with
  | none => ((-einval, []), s)
  | some msg => ipcBroadcastLoop procs alloc msg (ipcMaxQueues - 1) 1 s

/-- A pid is tried once if it is in the range of the loop and is found, and not at all
otherwise. -/
theorem ipcBroadcastLoop_count (procs : Procs) (alloc : Nat → Bool) (msg : IpcMessage)
    (n i d : Nat) (s : IpcQueues) :
    (ipcBroadcastLoop procs alloc msg n i s).1.2.count d =
      if i ≤ d ∧ d < i + n ∧ procGetByPid d procs ≠ none then 1 else 0 := by
  induction n generalizing i s with
  | zero => exact (if_neg (by omega)).symm
  | succ n ih =>
    -- the rest of the loop tries the pids in the range other than `i`
    have hnext : ∀ s, (ipcBroadcastLoop procs alloc msg n (i + 1) s).1.2.count d =
        if i ≤ d ∧ d < i + (n + 1) ∧ d ≠ i ∧ procGetByPid d procs ≠ none then 1 else 0 := by
      intro s
      rw [ih]
      refine if_congr ?_ rfl rfl
      constructor
      · rintro ⟨h1, h2, h3⟩
        exact ⟨by omega, by omega, by omega, h3⟩
      · rintro ⟨h1, h2, h3, h4⟩
        exact ⟨by omega, by omega, h4⟩
    unfold ipcBroadcastLoop
    cases hget : procGetByPid i procs with
    | none =>
      rw [hnext]
      refine if_congr ?_ rfl rfl
      constructor
      · rintro ⟨h1, h2, -, h3⟩
        exact ⟨h1, h2, h3⟩
      · rintro ⟨h1, h2, h3⟩
        exact ⟨h1, h2, fun hd => h3 (hd ▸ hget), h3⟩
    | some p =>
      dsimp only
      rw [if_neg (getByPid_eq_some hget).2, List.count_cons, hnext]
      by_cases hd : d = i
      · subst hd
        rw [if_neg fun h => h.2.2.1 rfl, if_pos (beq_self_eq_true d),
          if_pos ⟨Nat.le_refl d, by omega, by rw [hget]; nofun⟩]
      · rw [if_neg fun h : (i == d) = true => hd (beq_iff_eq.mp h).symm]
        refine if_congr ?_ rfl rfl
        constructor
        · rintro ⟨h1, h2, -, h3⟩
          exact ⟨h1, h2, h3⟩
        · rintro ⟨h1, h2, h3⟩
          exact ⟨h1, h2, hd, h3⟩

/-! ## The count of a queue -/

/-- The queue of `d` has a ring if it is in use, and its count is the number of messages
accepted for `d` and not delivered. -/
structure Backlog (d : Nat) (es : List IpcEvent) (q : IpcQueue) : Prop where
  ring : q.messages = none ↔ q.ownerPid = 0
  unused : q.ownerPid = 0 → q.count = 0
  count : (acceptedFor d es).length = (deliveredTo d es).length + q.count

section Queues

variable {d : Nat} {es : List IpcEvent} {q q' : IpcQueue} {e : IpcEvent}

theorem backlog_init (d : Nat) : Backlog d [] (IpcSys.init.ipc d) :=
  ⟨iff_of_true rfl rfl, fun _ => rfl, rfl⟩

theorem Backlog.kept (h : Backlog d es q) (hd : d ≠ 0) (hk : Kept d q q') : Backlog d es q' := by
  cases hk with
  | same => exact h
  | fresh h0 hmax =>
    refine ⟨iff_of_false nofun hd, fun hd0 => absurd hd0 hd, ?_⟩
    rw [h.count, h.unused h0]
  | refused h0 => exact ⟨iff_of_true rfl h0, h.unused, h.count⟩

theorem Backlog.step (h : Backlog d es q) (hd : d ≠ 0) (hstep : QueueStep d q e q') :
    Backlog d (es ++ [e]) q' := by
  cases hstep with
  | none hk ha hdel =>
    obtain ⟨hring, hunused, hcount⟩ := h.kept hd hk
    refine ⟨hring, hunused, ?_⟩
    rw [acceptedFor_snoc, deliveredTo_snoc, ha, hdel, List.append_nil, List.append_nil]
    exact hcount
  | @put procs alloc msg q1 messages hk hq hsize hdest hroom =>
    obtain ⟨hring, -, hcount⟩ := h.kept hd hk
    have howner : q1.ownerPid ≠ 0 := fun h0 =>
      Option.some_ne_none _ (hq.symm.trans (hring.mpr h0))
    refine ⟨iff_of_false (Option.some_ne_none _) howner, fun h0 => absurd h0 howner, ?_⟩
    have hacc : IpcEvent.accepted d (.send procs alloc d (some msg) 0) = [stamp procs msg] :=
      if_pos ⟨rfl, rfl⟩
    have hdel : IpcEvent.delivered d (.send procs alloc d (some msg) 0) = [] := rfl
    rw [acceptedFor_snoc, deliveredTo_snoc, hacc, hdel, List.length_append, hcount,
      List.append_nil]
    rfl
  | take he hq hcount hscan ha hdel =>
    have howner : q.ownerPid ≠ 0 := fun h0 =>
      Option.some_ne_none _ (hq.symm.trans (h.ring.mpr h0))
    refine ⟨iff_of_false (Option.some_ne_none _) howner, fun h0 => absurd h0 howner, ?_⟩
    rw [acceptedFor_snoc, deliveredTo_snoc, ha, hdel, List.append_nil, List.length_append, h.count]
    show _ = _ + 1 + (q.count - 1)
    omega

theorem backlog {s : IpcSys} (hd : d ≠ 0) (hrun : Run IpcStep IpcSys.init es s) :
    Backlog d es (s.ipc d) := by
  exact hrun.trace_invariant (I := fun es (s : IpcSys) => Backlog d es (s.ipc d))
    (fun _ _ _ _ h hstep => h.step hd (hstep.queueStep d)) (backlog_init d)

end Queues

/-! ## Sending -/

theorem ipcSend_ok {procs : Procs} {alloc : Bool} {d : Nat} {msg : IpcMessage} {s : IpcQueues}
    (hring : (s d).messages = none ↔ (s d).ownerPid = 0) (hsize : msg.size ≤ ipcMsgMaxSize)
    (hdest : procGetByPid d procs ≠ none) (hmax : d < ipcMaxQueues)
    (hroom : (s d).count < ipcMsgMaxQueue) (halloc : alloc = true ∨ (s d).ownerPid ≠ 0) :
    (ipcSend procs alloc d (some msg) s).1 = 0 := by
  -- the queue is there already, or is allocated and empty
  have hqueue : ∃ s1 messages, ipcGetQueue d alloc s = (true, s1) ∧
      (s1 d).messages = some messages ∧ (s1 d).count < ipcMsgMaxQueue := by
    by_cases howner : (s d).ownerPid = 0
    · have halloc : alloc = true := halloc.resolve_right fun h => h howner
      have hget : ipcGetQueue d alloc s
          = (true, Function.update s d ⟨some fun _ => .zero, 0, 0, 0, d⟩) := by
        rw [ipcGetQueue, if_neg (Nat.not_le.mpr hmax), if_pos howner, if_pos halloc]
      refine ⟨_, fun _ => .zero, hget, ?_, ?_⟩
      · rw [Function.update_self]
      · rw [Function.update_self]
        exact Nat.zero_lt_succ 63
    · obtain ⟨messages, hm⟩ := Option.ne_none_iff_exists'.mp fun h => howner (hring.mp h)
      have hget : ipcGetQueue d alloc s = (true, s) := by
        rw [ipcGetQueue, if_neg (Nat.not_le.mpr hmax), if_neg howner]
      exact ⟨s, messages, hget, hm, hroom⟩
  obtain ⟨s1, messages, hget, hm, hcount⟩ := hqueue
  unfold ipcSend
  dsimp only
  rw [if_neg (Nat.not_lt.mpr hsize), if_neg hdest, hget]
  rw [hm]
  dsimp only
  rw [if_neg (Nat.not_le.mpr hcount)]

/-- **The processes whose pid is an index are reached.** Take any process table, any state of the
queues that sends and receives lead to, and any live process. `ipc_send` of a message that is not
too long returns `0`, unless 64 messages for it are not delivered or its queue cannot be allocated,
and `ipc_broadcast` calls `ipc_send` once for it, if and only if its pid is not `0` and below 256. -/
theorem ipc_reaches {procs : Procs} {es : List IpcEvent} {s : IpcSys} {p : Slot}
    (hrun : Run IpcStep IpcSys.init es s) (hlive : Live procs p) :
    ((∀ (msg : IpcMessage) (alloc : Bool), msg.size ≤ ipcMsgMaxSize →
      ¬ (deliveredTo (procs.table p).pid es).length + ipcMsgMaxQueue
        ≤ (acceptedFor (procs.table p).pid es).length →
      (alloc = true ∨ (s.ipc (procs.table p).pid).ownerPid ≠ 0) →
      (ipcSend procs alloc (procs.table p).pid (some msg) s.ipc).1 = 0) ∧
    ∀ (msg : IpcMessage) (alloc : Nat → Bool),
      (ipcBroadcast procs alloc (some msg) s.ipc).1.2.count (procs.table p).pid = 1) ↔
    (procs.table p).pid ≠ 0 ∧ (procs.table p).pid < ipcMaxQueues := by
  have hdest := getByPid_ne_none hlive
  have hqueues : 0 < ipcMaxQueues := by decide
  refine ⟨fun h => ?_, fun ⟨hpid, hmax⟩ => ⟨fun msg alloc hsize hfew halloc => ?_, fun msg alloc => ?_⟩⟩
  · -- a pid out of the range of the loop is not tried
    by_contra hout
    have hcount := ipcBroadcastLoop_count procs (fun _ => true) .zero (ipcMaxQueues - 1) 1
      (procs.table p).pid s.ipc
    rw [if_neg fun hin => hout ⟨by omega, by omega⟩] at hcount
    have hone : (ipcBroadcastLoop _ _ _ _ _ _).1.2.count _ = 1 := h.2 .zero fun _ => true
    omega
  · have hbacklog := backlog hpid hrun
    refine ipcSend_ok hbacklog.ring hsize hdest hmax ?_ halloc
    have hcount := hbacklog.count
    omega
  · exact (ipcBroadcastLoop_count procs alloc msg _ 1 _ s.ipc).trans
      (if_pos ⟨by omega, by omega, hdest⟩)

/-- A message to the first process, with the queues as `ipc_init` leaves them. -/
theorem ipc_reaches_first : ∃ procs : Procs, Live procs 1 ∧ (procs.table 1).pid = 1 ∧
    (ipcSend procs true (procs.table 1).pid (some .zero) ipcInit).1 = 0 := by
  obtain ⟨calls, procs, -, hlive, hpid, -⟩ := process_after (n := 0) 0 0 (by decide)
  refine ⟨procs, hlive, hpid, ?_⟩
  refine ((ipc_reaches (.nil IpcSys.init) hlive).mpr ?_).1 .zero true (by decide) ?_ (.inl rfl)
  · rw [hpid]
    decide
  · exact Nat.not_succ_le_zero 63

/-- After 255 processes that came and went the next one has pid 256. Its queue is said not
to be allocated, although memory is left and it has no message, and a broadcast passes over it. -/
theorem ipc_misses_pid_256 : ∃ calls procs, Run PidStep (procInit 0 0 .bss) calls procs ∧
    Live procs 1 ∧ (procs.table 1).pid = 256 ∧
    (ipcSend procs true (procs.table 1).pid (some .zero) ipcInit).1 = -enomem ∧
    (ipcBroadcast procs (fun _ => true) (some .zero) ipcInit).1.2.count (procs.table 1).pid = 0 := by
  obtain ⟨calls, procs, hrun, hlive, hpid, -⟩ := process_after (n := 255) 0 0 (by decide)
  have hpid : (procs.table 1).pid = 256 := hpid
  have hdest := getByPid_ne_none hlive
  refine ⟨calls, procs, hrun, hlive, hpid, ?_, ?_⟩
  · have hget : ipcGetQueue 256 true ipcInit = (false, ipcInit) := if_pos (by decide)
    rw [hpid] at hdest ⊢
    unfold ipcSend
    dsimp only
    rw [if_neg (by decide), if_neg hdest, hget]
  · rw [hpid]
    refine (ipcBroadcastLoop_count _ _ _ _ 1 256 _).trans (if_neg ?_)
    rintro ⟨-, hlt, -⟩
    exact absurd hlt (by decide)

end GosKernel.Ipc
