import Mathlib.Data.List.Infix
import GosKernel.Ipc.Message
import GosKernel.Lib.Run

/-!
# Delivery of messages

Sends and receives of all processes as the steps of a transition system, with what
every call returned as part of its event, so that the messages accepted for a process
and those delivered to it can be read off a run (`acceptedFor`,
`deliveredTo`).

**`exactly_once`**: as long as no accepted message has sender `0` or lands in a slot
that is still in use, the accepted messages are those delivered and those in the
queue, and a message in the queue can be received. Both can happen, and lose a message:
`idle_message_unreceivable`.
-/

namespace GosKernel.Ipc

open Proc Slots List Function

/-! ## Runs -/

/-- One call, or the rest of one after `proc_yield`, with what it returned. -/
inductive IpcEvent
  /-- `ipc_send(destPid, msg)` returned `code`. -/
  | send (procs : Procs) (alloc : Bool) (destPid : Nat) (msg : Option IpcMessage) (code : Int)
  /-- `ipc_receive(src, ..)` returned `reply`, or called `proc_yield`. -/
  | receive (procs : Procs) (alloc : Bool) (src : Nat) (buf : Bool) (reply : Option Reply)
  /-- The `ipc_receive(src, ..)` in which `pid` was waiting returned `reply`. -/
  | resume (pid src : Nat) (reply : Reply)

/-- The queues, and for every process that waits in `ipc_receive` its filter. -/
structure IpcSys where
  ipc : IpcQueues
  waiting : Nat → Option Nat

def IpcSys.init : IpcSys := ⟨ipcInit, fun _ => none⟩

/-- What a process can do: call `ipc_send` or `ipc_receive`, or go on with the receive it
waits in. -/
inductive IpcCall
  | send (procs : Procs) (alloc : Bool) (destPid : Nat) (msg : Option IpcMessage)
  | receive (procs : Procs) (alloc : Bool) (src : Nat) (buf : Bool)
  | resume (pid : Nat)

/-- `none`: the process cannot do it, because of where it waits, or the call reads
through `NULL`. -/
def IpcSys.call (s : IpcSys) : IpcCall → Option (IpcEvent × IpcSys)
  | .send procs alloc destPid msg =>
    let r := ipcSend procs alloc destPid msg s.ipc
    some (.send procs alloc destPid msg r.1, { s with ipc := r.2 })
  | .receive procs alloc src buf =>
    if s.waiting (currentPid procs) ≠ none then none
    else
      match ipcReceive procs alloc src buf s.ipc with
      | none => none
      | some (some reply, ipc) => some (.receive procs alloc src buf (some reply), ⟨ipc, s.waiting⟩)
      | some (none, ipc) =>
        some (.receive procs alloc src buf none,
          ⟨ipc, update s.waiting (currentPid procs) (some src)⟩)
  | .resume pid =>
    match s.waiting pid with
    | none => none
    | some src =>
      (ipcReceiveResume pid src s.ipc).map fun r =>
        (.resume pid src r.1, ⟨r.2, update s.waiting pid none⟩)

def IpcStep (s : IpcSys) (e : IpcEvent) (s' : IpcSys) : Prop := ∃ c, s.call c = some (e, s')

/-- The message for `d` that the event accepts, if any. -/
def IpcEvent.accepted (d : Nat) : IpcEvent → List IpcMessage
  | .send procs _ destPid (some msg) code =>
    if destPid = d ∧ code = 0 then [stamp procs msg] else []
  | _ => []

/-- The filter and the message, if the reply delivers one to `d`. -/
def Reply.delivered (d pid src : Nat) : Reply → List (Nat × IpcMessage)
  | (code, some m) => if pid = d ∧ code = 0 then [(src, m)] else []
  | (_, none) => []

/-- The filter and the message of a delivery to `d`, if the event is one. -/
def IpcEvent.delivered (d : Nat) : IpcEvent → List (Nat × IpcMessage)
  | .receive procs _ src _ (some reply) => Reply.delivered d (currentPid procs) src reply
  | .resume pid src reply => Reply.delivered d pid src reply
  | _ => []

/-- The messages accepted for `d` in a run, in order. -/
def acceptedFor (d : Nat) (es : List IpcEvent) : List IpcMessage := es.flatMap (·.accepted d)

/-- The deliveries to `d` in a run, in order. -/
def deliveredTo (d : Nat) (es : List IpcEvent) : List (Nat × IpcMessage) :=
  es.flatMap (·.delivered d)

/-! ## What a step does to one queue -/

/-- `ipc_get_queue` left the queue alone, or it was not in use yet. -/
inductive Kept (d : Nat) (q : IpcQueue) : IpcQueue → Prop
  | same : Kept d q q
  | fresh (h : q.ownerPid = 0) (hd : d < ipcMaxQueues) : Kept d q ⟨some fun _ => .zero, 0, 0, 0, d⟩
  | refused (h : q.ownerPid = 0) : Kept d q { q with messages := none }

variable {d pid src : Nat} {e : IpcEvent} {ipc s : IpcQueues} {m : IpcMessage} {messages : Ring}
  {q q' : IpcQueue} {reply : Reply}

/-- A queue that was just made, or could not be, has nothing to take. -/
theorem Kept.eq_of_count (h : Kept d q q')
    (hm : q'.messages = some messages) (hcount : q'.count ≠ 0) : q' = q := by
  cases h with
  | same => rfl
  | fresh h hd => exact absurd rfl hcount
  | refused h => cases hm

/-- What `ipc_get_queue` does to the queue of `d`. -/
theorem ipcGetQueue_kept (pid : Nat) (alloc : Bool) (s : IpcQueues) (d : Nat) :
    Kept d (s d) ((ipcGetQueue pid alloc s).2 d) := by
  unfold ipcGetQueue
  split
  · exact .same
  · rename_i hmax
    split
    · rename_i howner
      split <;> dsimp only <;> rw [update_apply]
      · split
        · rename_i hd
          subst hd
          exact .fresh howner (not_le.mp hmax)
        · exact .same
      · split
        · rename_i hd
          subst hd
          exact .refused howner
        · exact .same
    · exact .same

/-- What `ipc_send` does: refuse, or put the message into the queue of `destPid`. -/
theorem ipcSend_cases {procs : Procs} {alloc : Bool} {destPid : Nat} {msg : Option IpcMessage}
    {code : Int} (h : ipcSend procs alloc destPid msg s = (code, ipc)) :
    (code ≠ 0 ∧ ∀ d, Kept d (s d) (ipc d)) ∨
    ∃ (m : IpcMessage) (s1 : IpcQueues) (messages : Ring), msg = some m ∧
      m.size ≤ ipcMsgMaxSize ∧ procGetByPid destPid procs ≠ none ∧
      (∀ d, Kept d (s d) (s1 d)) ∧ (s1 destPid).messages = some messages ∧
      (s1 destPid).count < ipcMsgMaxQueue ∧ code = 0 ∧
      ipc = update s1 destPid ((s1 destPid).put messages (stamp procs m)) := by
  have hsame : ∀ d, Kept d (s d) (s d) := fun d => .same
  have hkept := ipcGetQueue_kept destPid alloc s
  unfold ipcSend at h
  cases msg with
  | none =>
    cases h
    exact .inl ⟨by decide, hsame⟩
  | some m =>
    dsimp only at h
    by_cases hsize : ipcMsgMaxSize < m.size
    · rw [if_pos hsize] at h
      cases h
      exact .inl ⟨by decide, hsame⟩
    by_cases hdest : procGetByPid destPid procs = none
    · rw [if_neg hsize, if_pos hdest] at h
      cases h
      exact .inl ⟨by decide, hsame⟩
    rw [if_neg hsize, if_neg hdest] at h
    generalize ipcGetQueue destPid alloc s = r at h hkept
    obtain ⟨ok, s1⟩ := r
    dsimp only at h hkept
    split at h
    · rename_i messages hmessages
      by_cases hfull : ipcMsgMaxQueue ≤ (s1 destPid).count
      · rw [if_pos hfull] at h
        cases h
        exact .inl ⟨by decide, hkept⟩
      · rw [if_neg hfull] at h
        cases h
        exact .inr ⟨m, s1, messages, rfl, not_lt.mp hsize, hdest, hkept, hmessages,
          not_le.mp hfull, rfl, rfl⟩
    · cases h
      exact .inl ⟨by decide, hkept⟩

theorem ipcReceiveTake_cases (h : ipcReceiveTake pid src s = some (reply, ipc)) :
    (reply.1 ≠ 0 ∧ ipc = s) ∨
    ∃ (messages : Ring) (idx : RingIndex), (s pid).messages = some messages ∧
      ipcReceiveScan src (s pid).tail messages = some idx ∧
      reply = (0, some (messages idx)) ∧ ipc = update s pid ((s pid).take messages idx) := by
  unfold ipcReceiveTake at h
  dsimp only at h
  cases hm : (s pid).messages with
  | none =>
    rw [hm] at h
    cases h
  | some messages =>
    simp only [hm] at h
    cases hscan : ipcReceiveScan src (s pid).tail messages with
    | none =>
      simp only [hscan] at h
      cases h
      exact .inl ⟨by decide, rfl⟩
    | some idx =>
      simp only [hscan] at h
      cases h
      exact .inr ⟨messages, idx, rfl, hscan, rfl, rfl⟩

/-- Is the event a receive of `d` with the filter `src`? -/
def IpcEvent.Receives (d src : Nat) : IpcEvent → Prop
  | .receive procs _ src' buf _ => buf ∧ currentPid procs = d ∧ src' = src
  | .resume pid src' _ => pid = d ∧ src' = src
  | .send .. => False

/-- What an event does to the queue of `d`. -/
inductive QueueStep (d : Nat) (q : IpcQueue) : IpcEvent → IpcQueue → Prop
  | none {e : IpcEvent} {q' : IpcQueue} (hk : Kept d q q') (ha : e.accepted d = [])
      (hd : e.delivered d = []) : QueueStep d q e q'
  | put {procs : Procs} {alloc : Bool} {msg : IpcMessage} {q1 : IpcQueue} {messages : Ring}
      (hk : Kept d q q1) (hq : q1.messages = some messages) (hsize : msg.size ≤ ipcMsgMaxSize)
      (hdest : procGetByPid d procs ≠ none) (hroom : q1.count < ipcMsgMaxQueue) :
      QueueStep d q (.send procs alloc d (some msg) 0) (q1.put messages (stamp procs msg))
  | take {e : IpcEvent} {src : Nat} {messages : Ring} {idx : RingIndex} (he : e.Receives d src)
      (hq : q.messages = some messages) (hcount : q.count ≠ 0)
      (hscan : ipcReceiveScan src q.tail messages = some idx) (ha : e.accepted d = [])
      (hd : e.delivered d = [(src, messages idx)]) : QueueStep d q e (q.take messages idx)

theorem Reply.delivered_of_ne (h : reply.1 ≠ 0) : Reply.delivered d pid src reply = [] := by
  obtain ⟨code, m⟩ := reply
  cases m with
  | none => rfl
  | some m => exact if_neg fun hx => h hx.2

/-- The part of `ipc_receive` after the wait is a step of every queue. -/
theorem ipcReceiveTake_queueStep {s1 : IpcQueues}
    (hkept : ∀ d, Kept d (s d) (s1 d)) (hcount : (s1 pid).count ≠ 0)
    (h : ipcReceiveTake pid src s1 = some (reply, ipc)) (he : e.Receives pid src)
    (ha : ∀ d, e.accepted d = []) (hd : ∀ d, e.delivered d = Reply.delivered d pid src reply)
    (d : Nat) : QueueStep d (s d) e (ipc d) := by
  rcases ipcReceiveTake_cases h with ⟨hcode, rfl⟩ | ⟨messages, idx, hm, hscan, rfl, rfl⟩
  · exact .none (hkept d) (ha d) ((hd d).trans (Reply.delivered_of_ne hcode))
  · rw [update_apply]
    by_cases hdp : d = pid
    · subst hdp
      rw [if_pos rfl]
      have hsame := (hkept d).eq_of_count hm hcount
      rw [hsame] at hcount hm hscan ⊢
      exact .take he hm hcount hscan (ha d) ((hd d).trans (if_pos ⟨rfl, rfl⟩))
    · rw [if_neg hdp]
      exact .none (hkept d) (ha d) ((hd d).trans (if_neg fun hx => hdp hx.1.symm))

theorem ipcReceive_cases {procs : Procs} {alloc : Bool} {buf : Bool} {r : Option Reply}
    (h : ipcReceive procs alloc src buf s = some (r, ipc)) :
    (∀ reply, r = some reply → reply.1 ≠ 0) ∧ (∀ d, Kept d (s d) (ipc d)) ∨
    ∃ (s1 : IpcQueues) (reply : Reply), buf ∧ (∀ d, Kept d (s d) (s1 d)) ∧
      (s1 (currentPid procs)).count ≠ 0 ∧ r = some reply ∧
      ipcReceiveTake (currentPid procs) src s1 = some (reply, ipc) := by
  have hsame : ∀ d, Kept d (s d) (s d) := fun d => .same
  unfold ipcReceive at h
  split at h
  · cases h
    exact .inl ⟨fun _ hr => by cases hr; decide, hsame⟩
  · rename_i hbuf
    split at h
    · cases h
      exact .inl ⟨fun _ hr => by cases hr; decide, hsame⟩
    · rename_i current hcur
      have hpid : currentPid procs = (procs.table current).pid := by
        unfold currentPid
        rw [hcur]
      have hkept := ipcGetQueue_kept (procs.table current).pid alloc s
      dsimp only at h
      generalize ipcGetQueue (procs.table current).pid alloc s = g at h hkept
      obtain ⟨ok, s1⟩ := g
      rw [hpid]
      split at h
      · split at h
        · cases h
          exact .inl ⟨nofun, hkept⟩
        · rename_i hcount
          obtain ⟨⟨reply, ipc'⟩, hr, heq⟩ := Option.map_eq_some_iff.mp h
          cases heq
          exact .inr ⟨s1, reply, by simpa using hbuf, hkept, hcount, rfl, hr⟩
      · cases h
        exact .inl ⟨fun _ hr => by cases hr; decide, hkept⟩

section Calls

variable {s s' : IpcSys} {e : IpcEvent}

theorem queueStep_send {procs : Procs} {alloc : Bool} {destPid : Nat} {msg : Option IpcMessage}
    (hc : s.call (.send procs alloc destPid msg) = some (e, s')) (d : Nat) :
    QueueStep d (s.ipc d) e (s'.ipc d) := by
  cases hc
  rcases ipcSend_cases (Prod.mk.eta (p := ipcSend procs alloc destPid msg s.ipc)).symm with
    ⟨hcode, hkept⟩ | ⟨m, s1, messages, rfl, hsize, hdest, hkept, hm, hroom, hcode, hipc⟩
  · -- refused, after the queue was created at most
    refine .none (hkept d) ?_ rfl
    cases msg with
    | none => rfl
    | some m => exact if_neg fun hx => hcode hx.2
  · rw [hcode, hipc]
    dsimp only
    rw [update_apply]
    by_cases hd : d = destPid
    · subst hd
      rw [if_pos rfl]
      exact .put (hkept d) hm hsize hdest hroom
    · rw [if_neg hd]
      exact .none (hkept d) (if_neg fun hx => hd hx.1.symm) rfl

theorem queueStep_receive {procs : Procs} {alloc : Bool} {src : Nat} {buf : Bool}
    (hc : s.call (.receive procs alloc src buf) = some (e, s')) (d : Nat) :
    QueueStep d (s.ipc d) e (s'.ipc d) := by
  rw [IpcSys.call] at hc
  split at hc
  · cases hc
  · cases h : ipcReceive procs alloc src buf s.ipc with
    | none =>
      rw [h] at hc
      cases hc
    | some r =>
      obtain ⟨reply, ipc⟩ := r
      rcases ipcReceive_cases h with ⟨hcode, hkept⟩ | ⟨s1, reply, hbuf, hkept, hcount, rfl, htake⟩
      · -- the caller waits, or got an error code
        cases reply with
        | none =>
          rw [h] at hc
          cases hc
          exact .none (hkept d) rfl rfl
        | some reply =>
          rw [h] at hc
          cases hc
          exact .none (hkept d) rfl (Reply.delivered_of_ne (hcode _ rfl))
      · rw [h] at hc
        cases hc
        refine ipcReceiveTake_queueStep hkept hcount htake ?_ (fun _ => rfl) (fun _ => rfl) d
        exact ⟨hbuf, rfl, rfl⟩

theorem queueStep_resume {pid : Nat} (hc : s.call (.resume pid) = some (e, s')) (d : Nat) :
    QueueStep d (s.ipc d) e (s'.ipc d) := by
  rw [IpcSys.call] at hc
  cases hw : s.waiting pid with
  | none =>
    rw [hw] at hc
    cases hc
  | some src =>
    rw [hw] at hc
    obtain ⟨⟨reply, ipc⟩, h, heq⟩ := Option.map_eq_some_iff.mp hc
    cases heq
    unfold ipcReceiveResume at h
    split at h
    · -- woken with nothing in the queue
      cases h
      exact .none .same rfl rfl
    · rename_i hcount
      refine ipcReceiveTake_queueStep (fun _ => .same) hcount h ?_ (fun _ => rfl) (fun _ => rfl) d
      exact ⟨rfl, rfl⟩

end Calls

/-- **Every step is a step of each queue.** -/
theorem IpcStep.queueStep {s s' : IpcSys} (h : IpcStep s e s') (d : Nat) :
    QueueStep d (s.ipc d) e (s'.ipc d) := by
  obtain ⟨c, hc⟩ := h
  cases c with
  | send procs alloc destPid msg => exact queueStep_send hc d
  | receive procs alloc src buf => exact queueStep_receive hc d
  | resume pid => exact queueStep_resume hc d

/-! ## Exactly once -/

/-- The queue of `d` is in use exactly when it has a ring, and then it is one that
`ipc_get_queue` finds. Its count is the number of messages there. -/
structure IpcQueue.Wf (d : Nat) (q : IpcQueue) : Prop where
  ring : q.messages = none ↔ q.ownerPid = 0
  reach : q.ownerPid ≠ 0 → d < ipcMaxQueues
  count : q.count = (undelivered q).length

theorem IpcQueue.Wf.undelivered_nil (h : q.Wf d) (h0 : q.ownerPid = 0) : undelivered q = [] := by
  unfold undelivered
  rw [h.ring.mpr h0]

/-- `ipc_get_queue` loses no message of a process other than idle. -/
theorem Kept.wf (hk : Kept d q q') (hd : d ≠ 0) (h : q.Wf d) :
    q'.Wf d ∧ undelivered q' = undelivered q := by
  cases hk with
  | same => exact ⟨h, rfl⟩
  | fresh h0 hmax =>
    have hnil : undelivered ⟨some fun _ => .zero, 0, 0, 0, d⟩ = [] := by
      exact contents_none
    refine ⟨⟨?_, fun _ => hmax, ?_⟩, ?_⟩
    · exact ⟨nofun, fun hx => absurd hx hd⟩
    · rw [hnil]
      rfl
    · rw [hnil, h.undelivered_nil h0]
  | refused h0 =>
    refine ⟨⟨?_, fun hx => absurd h0 hx, ?_⟩, ?_⟩
    · exact ⟨fun _ => h0, fun _ => rfl⟩
    · show q.count = 0
      rw [h.count, h.undelivered_nil h0]
      rfl
    · rw [h.undelivered_nil h0]
      rfl

/-- The slot at the head is empty. -/
def IpcQueue.HeadFree (q : IpcQueue) : Prop :=
  ∀ messages, q.messages = some messages → (messages q.head).senderPid = 0

/-- A send to `d` that will be accepted has a sender other than pid 0, and the slot it
is going to use is empty. -/
def IpcEvent.Fits (d : Nat) : IpcEvent → IpcQueue → Prop
  | .send procs _ destPid (some msg) _, q =>
    destPid = d → msg.size ≤ ipcMsgMaxSize → procGetByPid d procs ≠ none →
      q.count < ipcMsgMaxQueue → currentPid procs ≠ 0 ∧ q.HeadFree
  | _, _ => True

instance (q : IpcQueue) : Decidable q.HeadFree :=
  match hq : q.messages with
  | none => .isTrue fun _ h => nomatch hq.symm.trans h
  | some messages =>
    if h : (messages q.head).senderPid = 0 then
      .isTrue fun messages' h' => by rwa [← Option.some.inj (hq.symm.trans h')]
    else .isFalse fun h' => h (h' messages hq)

instance (d : Nat) (e : IpcEvent) (q : IpcQueue) : Decidable (e.Fits d q) :=
  match e with
  | .send procs _ destPid (some msg) _ =>
    inferInstanceAs (Decidable (destPid = d → msg.size ≤ ipcMsgMaxSize →
      procGetByPid d procs ≠ none → q.count < ipcMsgMaxQueue →
      currentPid procs ≠ 0 ∧ q.HeadFree))
  | .send _ _ _ none _ | .receive .. | .resume .. => .isTrue trivial

theorem Kept.headFree (hk : Kept d q q') (h : q.HeadFree) : q'.HeadFree := by
  cases hk with
  | same => exact h
  | fresh h0 hmax =>
    rintro _ ⟨⟩
    rfl
  | refused h0 => exact nofun

theorem IpcQueue.Wf.put (h : q.Wf d) (hq : q.messages = some messages) (hm : m.senderPid ≠ 0)
    (hfree : q.HeadFree) :
    (q.put messages m).Wf d ∧ (undelivered (q.put messages m)).Perm (m :: undelivered q) := by
  obtain ⟨A, B, hAB, hput, -⟩ := undelivered_put hq hm (hfree messages hq)
  have hperm : (undelivered (q.put messages m)).Perm (m :: undelivered q) := by
    rw [hput, hAB]
    exact perm_middle
  have howner : q.ownerPid ≠ 0 := fun h0 => nomatch (h.ring.mpr h0).symm.trans hq
  refine ⟨⟨⟨nofun, fun h0 => absurd h0 howner⟩, h.reach, ?_⟩, hperm⟩
  rw [hperm.length_eq, length_cons, ← h.count]
  rfl

theorem IpcQueue.Wf.take (h : q.Wf d)
    (hq : q.messages = some messages) {idx : RingIndex} (hidx : (messages idx).senderPid ≠ 0) :
    (q.take messages idx).Wf d ∧
      (undelivered q).Perm (messages idx :: undelivered (q.take messages idx)) := by
  obtain ⟨A, B, hAB, htake, -⟩ := undelivered_take hq hidx
  have hperm : (undelivered q).Perm (messages idx :: undelivered (q.take messages idx)) := by
    rw [htake, hAB]
    exact perm_middle
  have howner : q.ownerPid ≠ 0 := fun h0 => nomatch (h.ring.mpr h0).symm.trans hq
  refine ⟨⟨⟨nofun, fun h0 => absurd h0 howner⟩, h.reach, ?_⟩, hperm⟩
  show q.count - 1 = _
  rw [h.count, hperm.length_eq]
  rfl

theorem passes_sender (h : passes src m) : m.senderPid ≠ 0 := by
  unfold passes at h
  rw [Bool.and_eq_true] at h
  simpa using h.1

theorem acceptedFor_snoc (d : Nat) (es : List IpcEvent) (e : IpcEvent) :
    acceptedFor d (es ++ [e]) = acceptedFor d es ++ e.accepted d := by
  simp [acceptedFor]

theorem deliveredTo_snoc (d : Nat) (es : List IpcEvent) (e : IpcEvent) :
    deliveredTo d (es ++ [e]) = deliveredTo d es ++ e.delivered d := by
  simp [deliveredTo]

/-- The messages accepted for `d` are those delivered, to receives that they pass, and
those in its queue. -/
structure Conserved (d : Nat) (es : List IpcEvent) (q : IpcQueue) : Prop where
  wf : q.Wf d
  perm : (acceptedFor d es).Perm ((deliveredTo d es).map Prod.snd ++ undelivered q)
  filter : ∀ p ∈ deliveredTo d es, passes p.1 p.2

theorem conserved_init (d : Nat) : Conserved d [] (IpcSys.init.ipc d) where
  wf := ⟨⟨fun _ => rfl, fun _ => rfl⟩, fun h => absurd rfl h, rfl⟩
  perm := .nil
  filter := nofun

/-- A fitting step keeps the balance. -/
theorem Conserved.step (hd : d ≠ 0) {es : List IpcEvent}
    (h : Conserved d es q) (hfits : e.Fits d q) (hstep : QueueStep d q e q') :
    Conserved d (es ++ [e]) q' := by
  cases hstep with
  | none hk ha hdl =>
    obtain ⟨hwf, hund⟩ := hk.wf hd h.wf
    refine ⟨hwf, ?_, ?_⟩
    · rw [acceptedFor_snoc, deliveredTo_snoc, ha, hdl, append_nil, append_nil, hund]
      exact h.perm
    · rw [deliveredTo_snoc, hdl, append_nil]
      exact h.filter
  | @put procs alloc msg q1 messages hk hq hsize hdest hroom =>
    obtain ⟨hwf, hund⟩ := hk.wf hd h.wf
    have hroom' : q.count < ipcMsgMaxQueue := by
      rwa [h.wf.count, ← hund, ← hwf.count]
    obtain ⟨hsender, hfree⟩ := hfits rfl hsize hdest hroom'
    obtain ⟨hwf', hperm⟩ := hwf.put (m := stamp procs msg) hq hsender (hk.headFree hfree)
    have ha : IpcEvent.accepted d (.send procs alloc d (some msg) 0) = [stamp procs msg] :=
      if_pos ⟨rfl, rfl⟩
    have hdl : IpcEvent.delivered d (.send procs alloc d (some msg) 0) = [] := rfl
    refine ⟨hwf', ?_, ?_⟩
    · rw [acceptedFor_snoc, deliveredTo_snoc, ha, hdl, append_nil]
      calc acceptedFor d es ++ [stamp procs msg]
        _ |>.Perm (stamp procs msg :: acceptedFor d es) := perm_append_comm
        _ |>.Perm (stamp procs msg :: ((deliveredTo d es).map Prod.snd ++ undelivered q)) :=
          h.perm.cons _
        _ |>.Perm ((deliveredTo d es).map Prod.snd ++ stamp procs msg :: undelivered q) :=
          perm_middle.symm
        _ |>.Perm ((deliveredTo d es).map Prod.snd ++ undelivered (q1.put messages _)) := by
          rw [← hund]
          exact hperm.symm.append_left _
    · rw [deliveredTo_snoc, hdl, append_nil]
      exact h.filter
  | @take e src messages idx he hq hcount hscan ha hdl =>
    have hpass := (ipcReceiveScan_eq_some hscan).1
    obtain ⟨hwf', hperm⟩ := h.wf.take hq (passes_sender hpass)
    refine ⟨hwf', ?_, ?_⟩
    · rw [acceptedFor_snoc, deliveredTo_snoc, ha, hdl, append_nil, map_append,
        append_assoc]
      exact h.perm.trans (hperm.append_left _)
    · rw [deliveredTo_snoc, hdl]
      intro p hp
      rcases mem_append.mp hp with hp | hp
      · exact h.filter p hp
      · rw [mem_singleton.mp hp]
        exact hpass

/-- A step whose send, if it is one, fits. -/
def FittingStep (d : Nat) (s : IpcSys) (e : IpcEvent) (s' : IpcSys) : Prop :=
  e.Fits d (s.ipc d) ∧ IpcStep s e s'

/-- A receive of `d` with the filter `src`, made now or resumed now, returns one of the
messages in its queue. -/
structure Receivable (d src : Nat) (ipc : IpcQueues) : Prop where
  called : ∀ procs alloc, currentPid procs = d → ∃ m ipc',
    ipcReceive procs alloc src true ipc = some (some (0, some m), ipc') ∧
      m ∈ undelivered (ipc d) ∧ passes src m
  resumed : ∃ m ipc', ipcReceiveResume d src ipc = some ((0, some m), ipc') ∧
    m ∈ undelivered (ipc d) ∧ passes src m

/-- The loop of `ipc_receive` finds a message that passes. -/
theorem ipcReceiveTake_of_mem (hm : m ∈ undelivered (ipc d)) (hpass : passes src m) :
    ∃ m' ipc', ipcReceiveTake d src ipc = some ((0, some m'), ipc') ∧
      m' ∈ undelivered (ipc d) ∧ passes src m' := by
  cases hq : (ipc d).messages with
  | none =>
    unfold undelivered at hm
    rw [hq] at hm
    exact absurd hm not_mem_nil
  | some messages =>
    obtain ⟨i, rfl, -⟩ := (mem_undelivered hq).mp hm
    cases hscan : ipcReceiveScan src (ipc d).tail messages with
    | none => exact absurd hpass (ipcReceiveScan_eq_none hscan i)
    | some idx =>
      have hidx := (ipcReceiveScan_eq_some hscan).1
      refine ⟨messages idx, update ipc d ((ipc d).take messages idx), ?_,
        (mem_undelivered hq).mpr ⟨idx, rfl, passes_sender hidx⟩, hidx⟩
      unfold ipcReceiveTake
      simp only [hq, hscan]

theorem IpcQueue.Wf.receivable (hd : d ≠ 0) (h : (ipc d).Wf d)
    (hm : m ∈ undelivered (ipc d)) (hpass : passes src m) : Receivable d src ipc := by
  obtain ⟨m', ipc', htake, hm', hpass'⟩ := ipcReceiveTake_of_mem hm hpass
  have hcount : (ipc d).count ≠ 0 := by
    rw [h.count]
    exact (length_pos_of_mem hm).ne'
  have howner : (ipc d).ownerPid ≠ 0 := fun h0 => by
    rw [h.undelivered_nil h0] at hm
    exact not_mem_nil hm
  have hget : ∀ alloc, ipcGetQueue d alloc ipc = (true, ipc) := fun alloc => by
    unfold ipcGetQueue
    rw [if_neg (not_le.mpr (h.reach howner)), if_neg howner]
  obtain ⟨messages, hmessages⟩ := Option.ne_none_iff_exists'.mp (mt h.ring.mp howner)
  refine ⟨fun procs alloc hpid => ⟨m', ipc', ?_, hm', hpass'⟩, m', ipc', ?_, hm', hpass'⟩
  · unfold ipcReceive
    cases hcur : procs.currentProc with
    | none =>
      unfold currentPid at hpid
      rw [hcur] at hpid
      exact absurd hpid.symm hd
    | some current =>
      have hpid' : (procs.table current).pid = d := by
        unfold currentPid at hpid
        rwa [hcur] at hpid
      simp only [hpid', hget, hmessages, if_neg hcount, htake]
      rfl
  · exact (if_neg hcount).trans htake

/-- **Exactly once.** For a process `d` other than idle, in every run whose sends to `d`
fit: the accepted messages are those delivered, intact, and those in the queue; every
delivery passes the filter it was made with; the count is the number of messages in the
queue; and every one of them can be received. -/
theorem exactly_once {d : Nat} (hd : d ≠ 0) {es : List IpcEvent} {s : IpcSys}
    (h : Run (FittingStep d) IpcSys.init es s) :
    (acceptedFor d es).Perm ((deliveredTo d es).map Prod.snd ++ undelivered (s.ipc d)) ∧
      (∀ p ∈ deliveredTo d es, passes p.1 p.2) ∧
      (s.ipc d).count = (undelivered (s.ipc d)).length ∧
      ∀ m ∈ undelivered (s.ipc d), ∀ src, passes src m → Receivable d src s.ipc := by
  have hinv : Conserved d es (s.ipc d) := by
    refine Run.trace_invariant (I := fun es s => Conserved d es (s.ipc d)) ?_ h (conserved_init d)
    rintro es s e s' hs ⟨hfits, hstep⟩
    exact hs.step hd hfits (hstep.queueStep d)
  exact ⟨hinv.perm, hinv.filter, hinv.wf.count,
    fun m hm src hpass => hinv.wf.receivable hd hm hpass⟩

/-! ### Two runs -/

/-- Processes of all pids below 256, with `current` running. -/
def crowd (current : Slot) : Procs :=
  { Procs.bss with
    table := fun i => { Procs.bss.table i with pid := i, state := .ready }
    currentProc := some current }

/-- A message of a given type and no data. -/
def note (type : Nat) : IpcMessage := ⟨0, type, 0, fun _ => 0⟩

/-- Make a call whose event meets `ok`. -/
def IpcSys.callIf (ok : IpcEvent → IpcSys → Bool) (s : IpcSys) (c : IpcCall) :
    Option (IpcEvent × IpcSys) :=
  (s.call c).filter fun r => ok r.1 s

theorem IpcSys.callIf_eq_some {ok : IpcEvent → IpcSys → Bool} {s s' : IpcSys} {c : IpcCall}
    (h : s.callIf ok c = some (e, s')) : ok e s ∧ IpcStep s e s' := by
  obtain ⟨hcall, hok⟩ := Option.filter_eq_some_iff.mp h
  exact ⟨hok, c, hcall⟩

/-- Process 1 waits, 2 and 3 send, and 1 receives from 2 and then asks for one of 3. -/
theorem exactly_once_crowd :
    ∃ es s, Run (FittingStep 1) IpcSys.init es s ∧
      (deliveredTo 1 es).map (fun p => (p.1, p.2.type)) = [(0, 20), (3, 30)] ∧
      (acceptedFor 1 es).Perm ((deliveredTo 1 es).map Prod.snd ++ undelivered (s.ipc 1)) := by
  have heval : (Run.exec (IpcSys.callIf fun e s => decide (e.Fits 1 (s.ipc 1))) IpcSys.init
      [.receive (crowd 1) true 0 true, .send (crowd 2) true 1 (some (note 20)),
        .send (crowd 3) true 1 (some (note 30)), .resume 1, .receive (crowd 1) true 3 true]).map
      (fun r => (deliveredTo 1 r.1).map fun p => (p.1, p.2.type)) = some [(0, 20), (3, 30)] := by
    decide +kernel
  obtain ⟨⟨es, s⟩, hs, hdel⟩ := Option.map_eq_some_iff.mp heval
  have hrun : Run (FittingStep 1) IpcSys.init es s := by
    refine Run.of_exec (fun s c e s' h => ?_) hs
    obtain ⟨hok, hstep⟩ := IpcSys.callIf_eq_some h
    exact ⟨of_decide_eq_true hok, hstep⟩
  exact ⟨es, s, hrun, hdel, (exactly_once (by decide) hrun).1⟩

/-- Idle sends a message to process 1. It is accepted and counted, but its sender is the
mark of an empty slot: it is not in the queue, and receiving it fails. -/
theorem idle_message_unreceivable :
    ∃ es s, Run IpcStep IpcSys.init es s ∧ (acceptedFor 1 es).length = 1 ∧
      (deliveredTo 1 es).length = 0 ∧ (s.ipc 1).count = 1 ∧
      (undelivered (s.ipc 1)).length = 0 ∧
      (ipcReceive (crowd 1) true 0 true s.ipc).map (fun r => r.1.map Prod.fst) =
        some (some (-eagain)) := by
  have heval : (Run.exec IpcSys.call IpcSys.init [.send (crowd 0) true 1 (some (note 20))]).map
      (fun r => ([(acceptedFor 1 r.1).length, (deliveredTo 1 r.1).length, (r.2.ipc 1).count,
        (undelivered (r.2.ipc 1)).length],
        (ipcReceive (crowd 1) true 0 true r.2.ipc).map fun t => t.1.map Prod.fst)) =
      some ([1, 0, 1, 0], some (some (-eagain))) := by
    decide +kernel
  obtain ⟨⟨es, s⟩, hs, heq⟩ := Option.map_eq_some_iff.mp heval
  simp only [Prod.mk.injEq, List.cons.injEq, and_true] at heq
  obtain ⟨⟨hacc, hdel, hcount, hund⟩, hrecv⟩ := heq
  exact ⟨es, s, Run.of_exec (fun s c e s' h => ⟨c, h⟩) hs, hacc, hdel, hcount, hund, hrecv⟩

end GosKernel.Ipc
