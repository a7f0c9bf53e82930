import GosKernel.Ipc.Delivery

/-!
# The order of messages

While at most `IPC_MSG_MAX_QUEUE` messages have been accepted, slots are filled in the
order of acceptance and never again. `ipc_receive` starts its search just after the
last message it took, so a receive with a filter can leave messages behind it, and a
later one then prefers newer messages to those. **`sender_order`**: as long as no receive
does that to a sender, the messages of each sender are delivered in order.
`filtered_receive_reorders` is a run in which they are not.
-/

namespace GosKernel.Ipc

open Proc Slots List Function

/-- The messages of one sender. -/
def fromSender (p : Nat) (ms : List IpcMessage) : List IpcMessage := ms.filter (·.senderPid = p)

@[simp] theorem fromSender_append (p : Nat) (ms ms' : List IpcMessage) :
    fromSender p (ms ++ ms') = fromSender p ms ++ fromSender p ms' :=
  filter_append ..

/-- The first slot from the tail on that passes the filter does not belong to a sender
who also has a message before the tail. -/
def IpcQueue.Aligned (src : Nat) (q : IpcQueue) : Prop :=
  ∀ messages, q.messages = some messages → ∀ i j, j < q.tail → q.tail ≤ i →
    passes src (messages i) → (∀ k, q.tail ≤ k → k < i → ¬ passes src (messages k)) →
    (messages j).senderPid ≠ (messages i).senderPid

/-- A send to `d` is made by a process other than idle. -/
def IpcEvent.HasSender (d : Nat) : IpcEvent → Prop
  | .send procs _ destPid _ _ => destPid = d → currentPid procs ≠ 0
  | .receive .. | .resume .. => True

/-- A receive of `d` searches an aligned queue. -/
def IpcEvent.Aligned (d : Nat) : IpcEvent → IpcQueue → Prop
  | .receive procs _ src buf _, q => buf → currentPid procs = d → q.Aligned src
  | .resume pid src _, q => pid = d → q.Aligned src
  | .send .., _ => True

variable {d src : Nat} {e : IpcEvent} {es : List IpcEvent} {idx : RingIndex} {messages : Ring}
  {q : IpcQueue}

theorem IpcEvent.Aligned.of_receives
    (h : e.Aligned d q) (he : e.Receives d src) : q.Aligned src := by
  cases e with
  | send => exact he.elim
  | receive =>
    obtain ⟨hbuf, hpid, rfl⟩ := he
    exact h hbuf hpid
  | resume =>
    obtain ⟨hpid, rfl⟩ := he
    exact h hpid

instance (src : Nat) (q : IpcQueue) : Decidable (q.Aligned src) :=
  match hq : q.messages with
  | none => .isTrue fun _ h => nomatch hq.symm.trans h
  | some messages =>
    if h : ∀ i j, j < q.tail → q.tail ≤ i → passes src (messages i) →
        (∀ k, q.tail ≤ k → k < i → ¬ passes src (messages k)) →
        (messages j).senderPid ≠ (messages i).senderPid then
      .isTrue fun messages' h' => by rwa [← Option.some.inj (hq.symm.trans h')]
    else .isFalse fun h' => h (h' messages hq)

instance (d : Nat) (e : IpcEvent) (q : IpcQueue) : Decidable (e.Aligned d q) :=
  match e with
  | .receive procs _ src buf _ =>
    inferInstanceAs (Decidable (buf → currentPid procs = d → q.Aligned src))
  | .resume pid src _ => inferInstanceAs (Decidable (pid = d → q.Aligned src))
  | .send .. => .isTrue trivial

instance (d : Nat) (e : IpcEvent) : Decidable (e.HasSender d) :=
  match e with
  | .send procs _ destPid _ _ => inferInstanceAs (Decidable (destPid = d → currentPid procs ≠ 0))
  | .receive .. | .resume .. => .isTrue trivial

/-- A step of processes other than idle, in which `d` receives only while its queue is
aligned. -/
def AlignedStep (d : Nat) (s : IpcSys) (e : IpcEvent) (s' : IpcSys) : Prop :=
  e.HasSender d ∧ e.Aligned d (s.ipc d) ∧ IpcStep s e s'

/-- The messages of each sender that were accepted for `d` are those delivered, followed
by those in the queue; slots were filled in order. -/
structure InOrder (d : Nat) (es : List IpcEvent) (q : IpcQueue) : Prop where
  wf : q.Wf d
  unused : q.ownerPid = 0 → acceptedFor d es = []
  head : q.head.val = (acceptedFor d es).length % ipcMsgMaxQueue
  filled : ∀ messages, q.messages = some messages → ∀ i, (messages i).senderPid ≠ 0 →
    i.val < (acceptedFor d es).length
  order : ∀ p, fromSender p ((deliveredTo d es).map Prod.snd) ++ fromSender p (undelivered q) =
    fromSender p (acceptedFor d es)

/-- `ipc_get_queue` does not disturb the order. -/
theorem InOrder.kept (hd : d ≠ 0) {q' : IpcQueue}
    (h : InOrder d es q) (hk : Kept d q q') : InOrder d es q' := by
  obtain ⟨hwf, hund⟩ := hk.wf hd h.wf
  refine ⟨hwf, ?_, ?_, ?_, fun p => ?_⟩
  · cases hk with
    | same => exact h.unused
    | fresh h0 hmax => exact fun _ => h.unused h0
    | refused h0 => exact h.unused
  · cases hk with
    | same => exact h.head
    | fresh h0 hmax =>
      rw [h.unused h0]
      rfl
    | refused h0 => exact h.head
  · cases hk with
    | same => exact h.filled
    | fresh h0 hmax =>
      rintro _ ⟨⟩ i hi
      exact absurd rfl hi
    | refused h0 => exact nofun
  · rw [hund]
    exact h.order p

/-- While the ring has not wrapped, a message goes behind all others. -/
theorem InOrder.put (h : InOrder d es q)
    (hq : q.messages = some messages) {m : IpcMessage} (hm : m.senderPid ≠ 0)
    (hlen : (acceptedFor d es).length < ipcMsgMaxQueue) :
    q.HeadFree ∧ undelivered (q.put messages m) = undelivered q ++ [m] := by
  have hhead : q.head.val = (acceptedFor d es).length := by
    rw [h.head, Nat.mod_eq_of_lt hlen]
  have hfree : (messages q.head).senderPid = 0 := by
    by_contra hne
    exact absurd (h.filled messages hq q.head hne) (by rw [hhead]; exact lt_irrefl _)
  refine ⟨fun messages' hq' => ?_, ?_⟩
  · rw [← Option.some.inj (hq.symm.trans hq')]
    exact hfree
  · obtain ⟨A, B, hAB, hput, hB⟩ := undelivered_put hq hm hfree
    have hnil : B = [] := by
      refine eq_nil_iff_forall_not_mem.mpr fun a ha => ?_
      obtain ⟨j, hj, hja⟩ := hB a ha
      obtain ⟨rfl, hsender⟩ := Ring.slots_eq_some.mp hja
      exact absurd (h.filled messages hq j hsender)
        (by rw [← hhead]; exact not_lt.mpr (le_of_lt hj))
    rw [hput, hAB, hnil, append_nil]

/-- Positions after the tail are searched in order, and before those in front of it. -/
theorem ringDistance_lt {tail j : RingIndex} (hj : j < idx) (htail : tail ≤ j ∨ idx < tail) :
    j - tail < idx - tail := by
  rw [Fin.lt_def]
  simp only [Fin.lt_def, Fin.le_def] at hj htail
  simp only [ipcMsgMaxQueue] at *
  omega

/-- From an aligned queue the loop of `ipc_receive` takes the oldest message of a
sender. -/
theorem IpcQueue.Aligned.oldest (h : q.Aligned src) (hq : q.messages = some messages)
    (hscan : ipcReceiveScan src q.tail messages = some idx) {j : RingIndex} (hj : j < idx) :
    (messages j).senderPid ≠ (messages idx).senderPid := by
  obtain ⟨hpass, hbefore⟩ := ipcReceiveScan_eq_some hscan
  intro heq
  have hpass' : passes src (messages j) := by
    unfold passes at hpass ⊢
    rwa [heq]
  by_cases hwrap : q.tail ≤ j ∨ idx < q.tail
  · exact hbefore j (ringDistance_lt hj hwrap) hpass'
  · rw [not_or, not_le, not_lt] at hwrap
    refine h messages hq idx j hwrap.1 hwrap.2 hpass (fun k hk hki => ?_) heq
    exact hbefore k (ringDistance_lt hki (.inl hk))

theorem InOrder.accept {m : IpcMessage} (h : InOrder d es q) (hq : q.messages = some messages)
    (hm : m.senderPid ≠ 0) (hlen : (acceptedFor d es).length < ipcMsgMaxQueue)
    (ha : e.accepted d = [m]) (hdl : e.delivered d = []) :
    InOrder d (es ++ [e]) (q.put messages m) := by
  obtain ⟨hfree, hund⟩ := h.put hq hm hlen
  refine ⟨(h.wf.put hq hm hfree).1, ?_, ?_, ?_, fun p => ?_⟩
  all_goals rw [acceptedFor_snoc, ha]
  · intro h0
    exact nomatch (h.wf.ring.mpr h0).symm.trans hq
  · show (q.head + 1).val = _
    rw [Fin.val_add, h.head, length_append]
    exact Nat.mod_add_mod _ _ _
  · rintro _ ⟨⟩ i hi
    rw [length_append]
    by_cases hih : i = q.head
    · rw [hih, h.head, Nat.mod_eq_of_lt hlen]
      exact Nat.lt_succ_self _
    · rw [update_of_ne hih] at hi
      exact Nat.lt_succ_of_lt (h.filled messages hq i hi)
  · rw [deliveredTo_snoc, hdl, append_nil, hund, fromSender_append, fromSender_append,
      ← append_assoc, h.order p]

/-- From an aligned queue the message delivered is the first one of its sender. -/
theorem InOrder.deliver (h : InOrder d es q) (halign : q.Aligned src)
    (hq : q.messages = some messages) (hscan : ipcReceiveScan src q.tail messages = some idx)
    (ha : e.accepted d = []) (hdl : e.delivered d = [(src, messages idx)]) :
    InOrder d (es ++ [e]) (q.take messages idx) := by
  have hidx := (ipcReceiveScan_eq_some hscan).1
  obtain ⟨A, B, hAB, htake, hA⟩ := undelivered_take hq (passes_sender hidx)
  refine ⟨(h.wf.take hq (passes_sender hidx)).1, ?_, ?_, ?_, fun p => ?_⟩
  all_goals rw [acceptedFor_snoc, ha, append_nil]
  · exact h.unused
  · exact h.head
  · rintro _ ⟨⟩ i hi
    by_cases hii : i = idx
    · rw [hii, update_self] at hi
      exact absurd rfl hi
    · rw [update_of_ne hii] at hi
      exact h.filled messages hq i hi
  · rw [deliveredTo_snoc, hdl, htake, ← h.order p, hAB]
    -- nothing in front of it is from the same sender
    have hold : fromSender (messages idx).senderPid A = [] := by
      refine filter_eq_nil_iff.mpr fun a ha => ?_
      obtain ⟨j, hj, hja⟩ := hA a ha
      obtain ⟨rfl, -⟩ := Ring.slots_eq_some.mp hja
      simpa using halign.oldest hq hscan hj
    show _ = _ ++ fromSender p (A ++ ([messages idx] ++ B))
    simp only [fromSender_append]
    by_cases hp : p = (messages idx).senderPid
    · rw [hp, hold]
      simp
    · have hother : fromSender p [messages idx] = [] := by
        simp [fromSender, Ne.symm hp]
      simp [hother]

/-- A step of an aligned queue keeps the order, until the ring wraps. -/
theorem InOrder.step (hd : d ≠ 0) {q' : IpcQueue}
    (h : InOrder d es q) (hsender : e.HasSender d) (halign : e.Aligned d q)
    (hstep : QueueStep d q e q') (hlen : (acceptedFor d (es ++ [e])).length ≤ ipcMsgMaxQueue) :
    InOrder d (es ++ [e]) q' := by
  cases hstep with
  | none hk ha hdl =>
    have h' := h.kept hd hk
    refine ⟨h'.wf, ?_, ?_, ?_, fun p => ?_⟩
    all_goals rw [acceptedFor_snoc, ha, append_nil]
    · exact h'.unused
    · exact h'.head
    · exact h'.filled
    · rw [deliveredTo_snoc, hdl, append_nil]
      exact h'.order p
  | @put procs alloc msg q1 messages hk hq hsize hdest hroom =>
    have ha : IpcEvent.accepted d (.send procs alloc d (some msg) 0) = [stamp procs msg] :=
      if_pos ⟨rfl, rfl⟩
    have hlen' : (acceptedFor d es).length < ipcMsgMaxQueue := by
      rw [acceptedFor_snoc, ha, length_append] at hlen
      exact hlen
    exact (h.kept hd hk).accept hq (hsender rfl) hlen' ha rfl
  | take he hq hcount hscan ha hdl =>
    exact h.deliver (halign.of_receives he) hq hscan ha hdl

/-- **Order.** For a process `d` other than idle, in every run of sends by processes other
than idle and of receives from an aligned queue: while no more messages have been
accepted for `d` than the ring holds, the messages of each sender are delivered in the
order in which they were accepted. -/
theorem sender_order {d : Nat} (hd : d ≠ 0) {es : List IpcEvent} {s : IpcSys}
    (h : Run (AlignedStep d) IpcSys.init es s)
    (hlen : (acceptedFor d es).length ≤ ipcMsgMaxQueue) (p : Nat) :
    fromSender p ((deliveredTo d es).map Prod.snd) <+: fromSender p (acceptedFor d es) := by
  have hinv : (acceptedFor d es).length ≤ ipcMsgMaxQueue → InOrder d es (s.ipc d) := by
    refine Run.trace_invariant (I := fun es s => (acceptedFor d es).length ≤ ipcMsgMaxQueue →
      InOrder d es (s.ipc d)) ?_ h fun _ => ⟨(conserved_init d).wf, fun _ => rfl, rfl, nofun, fun _ => rfl⟩
    rintro es s e s' hs ⟨hsender, halign, hstep⟩ hlen
    have hlen' : (acceptedFor d es).length ≤ ipcMsgMaxQueue := by
      rw [acceptedFor_snoc, List.length_append] at hlen
      exact (Nat.le_add_right _ _).trans hlen
    exact (hs hlen').step hd hsender halign (hstep.queueStep d) hlen
  exact ⟨_, (hinv hlen).order p⟩

/-- Messages 20 and 22 of process 2 and 31 of process 3, received with and without a
filter. -/
theorem sender_order_crowd :
    ∃ es s, Run (AlignedStep 1) IpcSys.init es s ∧
      (deliveredTo 1 es).map (fun p => (p.1, p.2.type)) = [(0, 20), (2, 22), (0, 31)] ∧
      fromSender 2 ((deliveredTo 1 es).map Prod.snd) <+: fromSender 2 (acceptedFor 1 es) := by
  have heval : (Run.exec (IpcSys.callIf fun e s => decide (e.HasSender 1 ∧ e.Aligned 1 (s.ipc 1)))
      IpcSys.init
      [.send (crowd 2) true 1 (some (note 20)), .send (crowd 3) true 1 (some (note 31)),
        .send (crowd 2) true 1 (some (note 22)), .receive (crowd 1) true 0 true,
        .receive (crowd 1) true 2 true, .receive (crowd 1) true 0 true]).map
      (fun r => ((acceptedFor 1 r.1).length,
        (deliveredTo 1 r.1).map fun p => (p.1, p.2.type))) =
      some (3, [(0, 20), (2, 22), (0, 31)]) := by
    decide +kernel
  obtain ⟨⟨es, s⟩, hs, heq⟩ := Option.map_eq_some_iff.mp heval
  obtain ⟨hacc, hdel⟩ := Prod.mk.inj heq
  have hrun : Run (AlignedStep 1) IpcSys.init es s := by
    refine Run.of_exec (fun s c e s' h => ?_) hs
    obtain ⟨hok, hstep⟩ := IpcSys.callIf_eq_some h
    exact ⟨(of_decide_eq_true hok).1, (of_decide_eq_true hok).2, hstep⟩
  exact ⟨es, s, hrun, hdel, sender_order (by decide) hrun (by rw [hacc]; decide) 2⟩

/-- Process 2 sends messages 20 and 22, and 3 sends 31 between them. After a receive from
3 the search starts at the slot of 22, so that 22 is delivered before 20. -/
theorem filtered_receive_reorders :
    ∃ es s, Run IpcStep IpcSys.init es s ∧ (∀ e ∈ es, e.HasSender 1) ∧
      (fromSender 2 (acceptedFor 1 es)).map (·.type) = [20, 22] ∧
      (fromSender 2 ((deliveredTo 1 es).map Prod.snd)).map (·.type) = [22, 20] := by
  have heval : (Run.exec IpcSys.call IpcSys.init
      [.send (crowd 2) true 1 (some (note 20)), .send (crowd 3) true 1 (some (note 31)),
        .send (crowd 2) true 1 (some (note 22)), .receive (crowd 1) true 3 true,
        .receive (crowd 1) true 0 true, .receive (crowd 1) true 0 true]).map
      (fun r => (decide (∀ e ∈ r.1, e.HasSender 1),
        (fromSender 2 (acceptedFor 1 r.1)).map (·.type),
        (fromSender 2 ((deliveredTo 1 r.1).map Prod.snd)).map (·.type))) =
      some (true, [20, 22], [22, 20]) := by
    decide +kernel
  obtain ⟨⟨es, s⟩, hs, heq⟩ := Option.map_eq_some_iff.mp heval
  simp only [Prod.mk.injEq, decide_eq_true_eq] at heq
  exact ⟨es, s, Run.of_exec (fun s c e s' h => ⟨c, h⟩) hs, heq⟩

end GosKernel.Ipc
