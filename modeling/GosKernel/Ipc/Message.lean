import Mathlib.Algebra.Group.Fin.Basic
import GosKernel.Lib.Slots
import GosKernel.Proc.Process

/-!
# Messages between processes (`ipc/ipc.c`)

Every process has a ring of `IPC_MSG_MAX_QUEUE` message slots, allocated when it is
first used; a slot whose `sender_pid` is `0` is empty. `ipc_receive` may give up the
processor in the middle, so it is modelled in two parts: up to the call of
`proc_yield`, and from its return on. The process table is read only; it and the
answer of `kzalloc` are arguments.
-/

namespace GosKernel.Ipc

open Proc Slots List Function

/-! ## The data -/

def ipcMsgMaxSize : Nat := 4096

abbrev ipcMsgMaxQueue : Nat := 64

/-- `ipc_message_t`. -/
structure IpcMessage where
  senderPid : Nat
  type : Nat
  size : Nat
  data : Fin ipcMsgMaxSize → UInt8

/-- The zeroed message of `kzalloc`. -/
def IpcMessage.zero : IpcMessage := ⟨0, 0, 0, fun _ => 0⟩

/-- Positions in the ring. They are advanced modulo its length, as addition of `Fin`
does. -/
abbrev RingIndex := Fin ipcMsgMaxQueue

abbrev Ring := RingIndex → IpcMessage

/-- `ipc_queue_t`; `messages` is `none` for `NULL`. -/
structure IpcQueue where
  messages : Option Ring
  head : RingIndex
  tail : RingIndex
  count : Nat
  ownerPid : Nat

/-- `g_ipc_max_queues`, which `ipc_init` sets and nothing changes later. -/
def ipcMaxQueues : Nat := procMaxProcesses

/-- The array `g_ipc_queues`, by pid. -/
abbrev IpcQueues := Nat → IpcQueue

/-- `ipc_init` (ipc.c:23-36), when the array of queues can be allocated. -/
def ipcInit : IpcQueues := fun _ => ⟨none, 0, 0, 0, 0⟩

/-- The pid of `proc_get_current()`, `0` if there is none. -/
def currentPid (procs : Procs) : Nat :=
  match procs.currentProc with
  | some current => (procs.table current).pid
  | none => 0

/-! ## Sending -/

/-- `ipc_get_queue` (ipc.c:38-50): whether it returns a queue; `alloc` says whether
`kzalloc` succeeds. -/
def ipcGetQueue (pid : Nat) (alloc : Bool) (s : IpcQueues) : Bool × IpcQueues :=
  if ipcMaxQueues ≤ pid then (false, s)
  else if (s pid).ownerPid = 0 then
    if alloc then (true, update s pid ⟨some fun _ => .zero, 0, 0, 0, pid⟩)
    else (false, update s pid { s pid with messages := none })
  else (true, s)

/-- The message as `ipc_send` stores it: the sender is the current process. -/
def stamp (procs : Procs) (msg : IpcMessage) : IpcMessage :=
  { msg with senderPid := currentPid procs }

/-- Store a message at the head (ipc.c:61-66). -/
def IpcQueue.put (q : IpcQueue) (messages : Ring) (msg : IpcMessage) : IpcQueue :=
  { q with
    messages := some (update messages q.head msg)
    head := q.head + 1
    count := q.count + 1 }

/-- `ipc_send` (ipc.c:52-71). -/
def ipcSend (procs : Procs) (alloc : Bool) (destPid : Nat) (msg : Option IpcMessage) (s : IpcQueues) :
    Int × IpcQueues :=
  match msg with
  | none => (-einval, s)
  | some msg =>
    if ipcMsgMaxSize < msg.size then (-einval, s)
    else if procGetByPid destPid procs = none then (-esrch, s)
    else
      let (ok, s) := ipcGetQueue destPid alloc s
      let q := s destPid
      match ok, q.messages with
      | true, some messages =>
        if ipcMsgMaxQueue ≤ q.count then (-eagain, s)
        else (0, update s destPid (q.put messages (stamp procs msg)))
      | _, _ => (-enomem, s)

/-! ## Receiving -/

/-- Does a slot hold a message that the filter `src` lets through? -/
def passes (src : Nat) (m : IpcMessage) : Bool :=
  m.senderPid ≠ 0 && (src = 0 || m.senderPid = src)

/-- The slot the loop of `ipc_receive` stops at. -/
def ipcReceiveScan (src : Nat) (tail : RingIndex) (messages : Ring) : Option RingIndex :=
  ((List.finRange ipcMsgMaxQueue).find? fun i => passes src (messages (tail + i))).map (tail + ·)

/-- Clear the slot of a message that was copied out (ipc.c:98-100). -/
def IpcQueue.take (q : IpcQueue) (messages : Ring) (idx : RingIndex) : IpcQueue :=
  { q with
    messages := some (update messages idx { messages idx with senderPid := 0 })
    tail := idx + 1
    count := q.count - 1 }

/-- The code returned and the message copied out. -/
abbrev Reply := Int × Option IpcMessage

/-- `ipc_receive` after the wait (ipc.c:91-104). `none`: the loop reads through `NULL`. -/
def ipcReceiveTake (pid src : Nat) (s : IpcQueues) : Option (Reply × IpcQueues) :=
  let q := s pid
  match q.messages with
  | none => none
  | some messages =>
    match ipcReceiveScan src q.tail messages with
    | none => some ((-eagain, none), s)
    | some idx => some ((0, some (messages idx)), update s pid (q.take messages idx))

/-- `ipc_receive` from its start (ipc.c:73-83) to its end, or to the call of
`proc_yield`: `none`. `buf` says whether `msg` is not `NULL`. -/
def ipcReceive (procs : Procs) (alloc : Bool) (src : Nat) (buf : Bool) (s : IpcQueues) :
    Option (Option Reply × IpcQueues) :=
  if !buf then some (some (-einval, none), s)
  else
    match procs.currentProc with
    | none => some (some (-esrch, none), s)
    | some current =>
      let pid := (procs.table current).pid
      let (ok, s) := ipcGetQueue pid alloc s
      match ok, (s pid).messages with
      | true, some _ =>
        if (s pid).count = 0 then some (none, s)
        else (ipcReceiveTake pid src s).map fun r => (some r.1, r.2)
      | _, _ => some (some (-enomem, none), s)

/-- `ipc_receive` from the return of `proc_yield` on (ipc.c:85-104). -/
def ipcReceiveResume (pid src : Nat) (s : IpcQueues) : Option (Reply × IpcQueues) :=
  if (s pid).count = 0 then some ((-eagain, none), s) else ipcReceiveTake pid src s

/-! ## What is in a queue -/

/-- The slots of a ring; those without a sender are empty. -/
def Ring.slots (messages : Ring) (i : RingIndex) : Option IpcMessage :=
  if (messages i).senderPid = 0 then none else some (messages i)

/-- The messages in the ring, in the order of their slots. -/
def undelivered (q : IpcQueue) : List IpcMessage :=
  match q.messages with
  | none => []
  | some messages => contents messages.slots

variable {m : IpcMessage} {messages : Ring} {q : IpcQueue}

theorem Ring.slots_eq_some {i : RingIndex} :
    messages.slots i = some m ↔ messages i = m ∧ m.senderPid ≠ 0 := by
  unfold Ring.slots
  split
  · rename_i h
    refine ⟨nofun, ?_⟩
    rintro ⟨rfl, hm⟩
    exact absurd h hm
  · rename_i h
    rw [Option.some.injEq]
    refine ⟨?_, And.left⟩
    rintro rfl
    exact ⟨rfl, h⟩

theorem Ring.slots_update (messages : Ring) (i : RingIndex) (m : IpcMessage) :
    Ring.slots (update messages i m) =
      update messages.slots i (if m.senderPid = 0 then none else some m) := by
  funext j
  unfold Ring.slots
  by_cases hj : j = i
  · rw [hj, update_self, update_self]
  · rw [update_of_ne hj, update_of_ne hj]

/-- Where the loop of `ipc_receive` stops: nothing passes between the tail and there. -/
theorem ipcReceiveScan_eq_some {src : Nat} {tail idx : RingIndex}
    (h : ipcReceiveScan src tail messages = some idx) :
    passes src (messages idx) ∧ ∀ k, k - tail < idx - tail → ¬ passes src (messages k) := by
  obtain ⟨i, hi, rfl⟩ := Option.map_eq_some_iff.mp h
  rw [← Fin.find?_eq_find?_finRange, Fin.find?_eq_some_iff] at hi
  refine ⟨hi.1, fun k hk => ?_⟩
  rw [add_sub_cancel_left] at hk
  have hk' := hi.2 _ hk
  rw [add_sub_cancel] at hk'
  simp [hk']

theorem ipcReceiveScan_eq_none {src : Nat} {tail : RingIndex}
    (h : ipcReceiveScan src tail messages = none) (k : RingIndex) : ¬ passes src (messages k) := by
  have hk := find?_eq_none.mp (Option.map_eq_none_iff.mp h) (k - tail) (mem_finRange _)
  rwa [add_sub_cancel] at hk

theorem undelivered_put (hq : q.messages = some messages) (hm : m.senderPid ≠ 0)
    (hfree : (messages q.head).senderPid = 0) :
    ∃ A B, undelivered q = A ++ B ∧ undelivered (q.put messages m) = A ++ m :: B ∧
      ∀ a ∈ B, ∃ j, q.head < j ∧ messages.slots j = some a := by
  obtain ⟨A, B, hAB, -, hB⟩ := contents_update messages.slots q.head
  refine ⟨A, B, ?_, ?_, hB⟩
  · have hnone : messages.slots q.head = none := if_pos hfree
    have heq := hAB (messages.slots q.head)
    rw [update_eq_self, hnone] at heq
    unfold undelivered
    rw [hq]
    simpa using heq
  · show contents (Ring.slots (update messages q.head m)) = _
    rw [Ring.slots_update, if_neg hm, hAB]
    simp

theorem undelivered_take {idx : RingIndex}
    (hq : q.messages = some messages) (hidx : (messages idx).senderPid ≠ 0) :
    ∃ A B, undelivered q = A ++ messages idx :: B ∧
      undelivered (q.take messages idx) = A ++ B ∧
      ∀ a ∈ A, ∃ j, j < idx ∧ messages.slots j = some a := by
  obtain ⟨A, B, hAB, hA, -⟩ := contents_update messages.slots idx
  refine ⟨A, B, ?_, ?_, hA⟩
  · have hsome : messages.slots idx = some (messages idx) := if_neg hidx
    have heq := hAB (messages.slots idx)
    rw [update_eq_self, hsome] at heq
    unfold undelivered
    rw [hq]
    simpa using heq
  · show contents (Ring.slots (update messages idx _)) = _
    rw [Ring.slots_update, hAB]
    simp

theorem mem_undelivered (hq : q.messages = some messages) :
    m ∈ undelivered q ↔ ∃ i, messages i = m ∧ m.senderPid ≠ 0 := by
  unfold undelivered
  rw [hq]
  simp only [mem_contents, Ring.slots_eq_some]

end GosKernel.Ipc
