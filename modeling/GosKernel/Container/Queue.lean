import GosKernel.Defs
import GosKernel.Lib.Exec
import GosKernel.Lib.Linked
import GosKernel.Lib.Run
import Mathlib.Order.Interval.Finset.Nat

/-!
# The generic queue (`lib/queue.c`)

A singly linked list of nodes from `kmalloc`, with a pointer to its last node and a
count. `kmalloc` answers each request with `NULL` or any address at which no node is
allocated; accesses to nodes that are not allocated, and frees of them, stop.

- **`queue_refines_fifo`**: every sequence of calls returns what the FIFO returns, and
  frees the nodes in the order in which they were allocated.
-/

namespace GosKernel.Container

open Exec GosKernel.Linked List Function

/-! ## The code -/

/-- `queue_node_t` (queue.h:10-13). -/
structure QueueNode where
  data : Nat
  next : Nat
deriving DecidableEq

/-- `queue_t` (queue.h:15-19), the nodes that are allocated, and the frees so far. -/
structure QueueState where
  head : Nat
  tail : Nat
  count : Nat
  nodes : Nat → Option QueueNode
  freed : List Nat

/-- `*node`. -/
def getNode (node : Nat) : Exec QueueState QueueNode := fun s =>
  (s.nodes node).map fun n => (n, s)

/-- A store to a field of `*node`. -/
def setNode (node : Nat) (f : QueueNode → QueueNode) : Exec QueueState Unit := fun s =>
  (s.nodes node).map fun n => ((), { s with nodes := Function.update s.nodes node (some (f n)) })

/-- `kmalloc(sizeof(queue_node_t))`, when it returns `answer` and the memory there holds
`junk`. -/
def kmallocNode (answer : Nat) (junk : QueueNode) : Exec QueueState Nat := do
  if answer ≠ 0 then
    Exec.update fun s => { s with nodes := Function.update s.nodes answer (some junk) }
  pure answer

/-- `kfree(node)`. -/
def kfreeNode (node : Nat) : Exec QueueState Unit := fun s =>
  (s.nodes node).map fun _ =>
    ((), { s with nodes := Function.update s.nodes node none, freed := s.freed ++ [node] })

/-- `queue_init` (queue.c:6-10). -/
def queueInit : Exec QueueState Unit :=
  .update fun s => { s with head := 0, tail := 0, count := 0 }

/-- `queue_enqueue` (queue.c:12-25). -/
def queueEnqueue (answer : Nat) (junk : QueueNode) (data : Nat) : Exec QueueState Bool := do
  let node ← kmallocNode answer junk
  if node = 0 then pure false
  else do
    setNode node fun n => { n with data := data }
    setNode node fun n => { n with next := 0 }
    let tail ← Exec.read QueueState.tail
    if tail ≠ 0 then setNode tail fun n => { n with next := node }
    else Exec.update fun s => { s with head := node }
    Exec.update fun s => { s with tail := node }
    Exec.update fun s => { s with count := wrap64 (s.count + 1) }
    pure true

/-- `if (!q->head) q->tail = NULL`. -/
def clearTail : Exec QueueState Unit :=
  .update fun s => { s with tail := if s.head = 0 then 0 else s.tail }

/-- `queue_dequeue` (queue.c:27-36). -/
def queueDequeue : Exec QueueState Nat := do
  let node ← Exec.read QueueState.head
  if node = 0 then pure 0
  else do
    let data := (← getNode node).data
    let next := (← getNode node).next
    Exec.update fun s => { s with head := next }
    clearTail
    kfreeNode node
    Exec.update fun s => { s with count := sub64 s.count 1 }
    pure data

/-- `queue_empty` (queue.c:38-40). -/
def queueEmpty : Exec QueueState Bool := Exec.read fun s => decide (s.count = 0)

/-- `queue_size` (queue.c:42-44). -/
def queueSize : Exec QueueState Nat := Exec.read QueueState.count

/-- `queue_clear` (queue.c:46-50). -/
def queueClear : (fuel : Nat) → Exec QueueState Unit
  | 0 => .stop
  | fuel + 1 => do
    let empty ← queueEmpty
    if !empty then do
      let _ ← queueDequeue
      queueClear fuel
    else pure ()

/-! ## Nodes -/

/-- `node->next`. -/
def QueueState.next (s : QueueState) (node : Nat) : Nat := (s.nodes node).elim 0 QueueNode.next

/-- `node->data`. -/
def QueueState.data (s : QueueState) (node : Nat) : Nat := (s.nodes node).elim 0 QueueNode.data

/-- The queue is linked through the nodes `N`, and no other node is allocated. -/
structure Holds (s : QueueState) (N : List Nat) : Prop where
  nodup : N.Nodup
  range : ∀ p ∈ N, 0 < p ∧ p < 2 ^ 64
  owned : ∀ p, (s.nodes p).isSome = true ↔ p ∈ N
  links : SList id s.next s.head N 0
  tail : s.tail = lastOr id 0 N
  count : s.count = N.length

section

variable {s : QueueState} {N : List Nat}

theorem length_lt_of_range (hnodup : N.Nodup) (hrange : ∀ p ∈ N, 0 < p ∧ p < 2 ^ 64) :
    N.length < 2 ^ 64 := by
  have hsub : N.toFinset ⊆ Finset.Ioo 0 (2 ^ 64) := by
    intro p hp
    exact Finset.mem_Ioo.mpr (hrange p (mem_toFinset.mp hp))
  have hcard := Finset.card_le_card hsub
  rw [toFinset_card_of_nodup hnodup, Nat.card_Ioo] at hcard
  omega

variable {n : QueueNode} {p : Nat}

theorem Holds.node (h : Holds s N) (hp : p ∈ N) : s.nodes p = some ⟨s.data p, s.next p⟩ := by
  obtain ⟨n, hn⟩ := Option.isSome_iff_exists.mp ((h.owned p).mpr hp)
  rw [QueueState.data, QueueState.next, hn]
  rfl

/-- The ends of the queue are `NULL` exactly when it is empty. -/
theorem Holds.ends (h : Holds s N) : (s.head = 0 ↔ s.count = 0) ∧ (s.tail = 0 ↔ s.count = 0) := by
  rw [h.count, h.links.1, h.tail]
  cases N with
  | nil => simp
  | cons p N =>
    have hhead := h.range p mem_cons_self
    have htail : lastOr id 0 (p :: N) ≠ 0 := by
      have hmem := lastOr_mem p N
      exact Nat.ne_of_gt (h.range _ hmem).1
    exact ⟨iff_of_false (Nat.ne_of_gt hhead.1) nofun, iff_of_false htail nofun⟩

theorem queueInit_holds {s1 : QueueState} (hnone : ∀ p, s.nodes p = none)
    (hinit : Returns queueInit s () s1) : Holds s1 [] := by
  cases hinit
  refine ⟨nodup_nil, nofun, fun p => ?_, ⟨rfl, trivial⟩, rfl, rfl⟩
  simp [hnone p]

/-! ## Operations -/

theorem getNode_returns (hn : s.nodes p = some n) : Returns (getNode p) s n s := by
  rw [Returns, getNode, hn]
  rfl

theorem setNode_returns (hn : s.nodes p = some n) (f : QueueNode → QueueNode) :
    Returns (setNode p f) s () { s with nodes := Function.update s.nodes p (some (f n)) } := by
  rw [Returns, setNode, hn]
  rfl

theorem setNode_update (s : QueueState) (p : Nat) (n : QueueNode) (f : QueueNode → QueueNode) :
    Returns (setNode p f) { s with nodes := Function.update s.nodes p (some n) } ()
      { s with nodes := Function.update s.nodes p (some (f n)) } := by
  have hset := setNode_returns (s := { s with nodes := Function.update s.nodes p (some n) })
    (update_self p (some n) s.nodes) f
  rwa [update_idem] at hset

theorem kfreeNode_returns (hn : s.nodes p = some n) :
    Returns (kfreeNode p) s ()
      { s with nodes := Function.update s.nodes p none, freed := s.freed ++ [p] } := by
  rw [Returns, kfreeNode, hn]
  rfl

/-- What a successful `queue_enqueue` leaves: a new last node. -/
structure Appended (s : QueueState) (node data : Nat) (s' : QueueState) : Prop where
  head : s'.head = if s.tail = 0 then node else s.head
  tail : s'.tail = node
  count : s'.count = wrap64 (s.count + 1)
  nodes : ∀ p, s'.nodes p = if p = node then some ⟨data, 0⟩
    else if p = s.tail then (s.nodes p).map fun n => { n with next := node } else s.nodes p
  freed : s'.freed = s.freed

theorem queueEnqueue_returns (h : Holds s N) {node : Nat} (hnode : node ≠ 0)
    (hfresh : s.nodes node = none) (junk : QueueNode) (data : Nat) :
    ∃ s', Returns (queueEnqueue node junk data) s true s' ∧ Appended s node data s' := by
  have hnew : Returns (kmallocNode node junk) s node
      { s with nodes := Function.update s.nodes node (some junk) } := by
    rw [kmallocNode, if_pos hnode]
    rfl
  have htail : ∀ k : Nat → Exec QueueState Bool,
      (Exec.read QueueState.tail >>= k)
          { s with nodes := Function.update s.nodes node (some ⟨data, 0⟩) } =
        k s.tail { s with nodes := Function.update s.nodes node (some ⟨data, 0⟩) } := fun _ => rfl
  by_cases h0 : s.tail = 0
  · refine ⟨⟨node, node, wrap64 (s.count + 1),
      Function.update s.nodes node (some ⟨data, 0⟩), s.freed⟩, ?_,
      (if_pos h0).symm, rfl, rfl, fun p => ?_, rfl⟩
    · rw [Returns, queueEnqueue, hnew.bind_eq, if_neg hnode,
        (setNode_update s node junk _).bind_eq, (setNode_update s node _ _).bind_eq,
        htail, if_neg (not_not.mpr h0)]
      rfl
    · show Function.update s.nodes node (some ⟨data, 0⟩) p = _
      rw [Function.update_apply, h0]
      by_cases hp : p = 0
      · -- `NULL` is not the address of a node
        have hnull : s.nodes 0 = none := by
          rw [← Option.not_isSome_iff_eq_none, h.owned 0]
          exact fun hmem => lt_irrefl 0 (h.range 0 hmem).1
        rw [hp, hnull]
        rfl
      · rw [if_neg hp]
  · have hmem : s.tail ∈ N := by
      have hlast : s.tail ∈ 0 :: N := h.tail ▸ lastOr_mem 0 N
      exact (mem_cons.mp hlast).resolve_left h0
    have hne : s.tail ≠ node := by
      intro heq
      have hsome := (h.owned s.tail).mpr hmem
      rw [heq, hfresh] at hsome
      cases hsome
    have hlink := setNode_returns
      (s := { s with nodes := Function.update s.nodes node (some ⟨data, 0⟩) })
      ((update_of_ne hne _ _).trans (h.node hmem)) fun n => { n with next := node }
    refine ⟨⟨s.head, node, wrap64 (s.count + 1),
      Function.update (Function.update s.nodes node (some ⟨data, 0⟩)) s.tail
        (some ⟨s.data s.tail, node⟩), s.freed⟩, ?_,
      (if_neg h0).symm, rfl, rfl, fun p => ?_, rfl⟩
    · rw [Returns, queueEnqueue, hnew.bind_eq, if_neg hnode,
        (setNode_update s node junk _).bind_eq, (setNode_update s node _ _).bind_eq,
        htail, if_pos h0, hlink.bind_eq]
      rfl
    · show Function.update (Function.update s.nodes node _) s.tail _ p = _
      rw [Function.update_apply, Function.update_apply]
      by_cases hp : p = s.tail
      · rw [if_pos hp, if_neg (hp ▸ hne), if_pos hp, hp, h.node hmem]
        rfl
      · rw [if_neg hp, if_neg hp]

theorem Appended.next {node data : Nat} {s' : QueueState} (h : Appended s node data s')
    (hp : p ≠ node) (hsome : (s.nodes p).isSome) :
    s'.next p = if p = s.tail then node else s.next p := by
  obtain ⟨n, hn⟩ := Option.isSome_iff_exists.mp hsome
  rw [QueueState.next, h.nodes, if_neg hp, QueueState.next, hn]
  split <;> rfl

theorem Appended.data_eq {node data : Nat} {s' : QueueState} (h : Appended s node data s')
    (hp : p ≠ node) : s'.data p = s.data p := by
  rw [QueueState.data, h.nodes, if_neg hp, QueueState.data]
  split
  · cases s.nodes p <;> rfl
  · rfl

section Appended

variable {node data : Nat} {s' : QueueState}

theorem Appended.owned (happ : Appended s node data s') (h : Holds s N) (p : Nat) :
    (s'.nodes p).isSome = true ↔ p ∈ N ++ [node] := by
  rw [happ.nodes, mem_append]
  by_cases hp : p = node
  · simp [hp]
  · rw [if_neg hp, ← h.owned p]
    split <;> simp [hp]

theorem Appended.links (happ : Appended s node data s') (h : Holds s N)
    (hne : ∀ p ∈ N, p ≠ node) : SList id s'.next s'.head (N ++ [node]) 0 := by
  have hhead : s'.head = headOr id (N ++ [node]) 0 := by
    rw [happ.head]
    -- `tail` is `NULL` only in an empty queue
    cases N with
    | nil => exact if_pos h.tail
    | cons p N =>
      rw [if_neg, h.links.1]
      · rfl
      · exact fun h0 => absurd (h.ends.2.mp h0) (by simp [h.count])
  have hend : s'.next node = 0 := by
    rw [QueueState.next, happ.nodes, if_pos rfl]
    rfl
  refine ⟨hhead, sseg_append.mpr ⟨?_, hend, trivial⟩⟩
  refine h.links.2.setEnd (p := 0) injective_id h.nodup fun p hp => ?_
  rw [happ.next (hne p hp) ((h.owned p).mpr hp), h.tail]
  rfl

theorem Appended.items (happ : Appended s node data s') (hne : ∀ p ∈ N, p ≠ node) :
    (N ++ [node]).map s'.data = N.map s.data ++ [data] := by
  have hdata : s'.data node = data := by
    rw [QueueState.data, happ.nodes, if_pos rfl]
    rfl
  rw [map_append, map_singleton, hdata,
    map_congr_left fun p hp => happ.data_eq (hne p hp)]

end Appended

/-- **`queue_enqueue`** adds the data of its node at the end. -/
theorem Holds.enqueue (h : Holds s N) {node : Nat} (hnode : 0 < node) (hlt : node < 2 ^ 64)
    (hfresh : s.nodes node = none) (junk : QueueNode) (data : Nat) :
    ∃ s', Returns (queueEnqueue node junk data) s true s' ∧ Holds s' (N ++ [node]) ∧
      (N ++ [node]).map s'.data = N.map s.data ++ [data] ∧ s'.freed = s.freed := by
  obtain ⟨s', hret, happ⟩ := queueEnqueue_returns h (Nat.ne_of_gt hnode) hfresh junk data
  have hnot : node ∉ N := by
    rw [← h.owned node, hfresh]
    nofun
  have hne : ∀ p ∈ N, p ≠ node := fun p hp heq => hnot (heq ▸ hp)
  have hnodup : (N ++ [node]).Nodup := by
    refine nodup_append.mpr ⟨h.nodup, nodup_singleton _, fun p hp q hq => ?_⟩
    rw [mem_singleton.mp hq]
    exact hne p hp
  have hrange : ∀ p ∈ N ++ [node], 0 < p ∧ p < 2 ^ 64 := by
    intro p hp
    rcases mem_append.mp hp with hp | hp
    · exact h.range p hp
    · rw [mem_singleton.mp hp]
      exact ⟨hnode, hlt⟩
  -- `count` does not wrap, because the nodes have different addresses
  have hcount : s'.count = (N ++ [node]).length := by
    have hlen := length_lt_of_range hnodup hrange
    rw [length_append, length_singleton] at hlen ⊢
    rw [happ.count, h.count, wrap64_of_lt hlen]
  have htail : s'.tail = lastOr id 0 (N ++ [node]) := by
    rw [happ.tail, lastOr_append]
    rfl
  exact ⟨s', hret, ⟨hnodup, hrange, happ.owned h, happ.links h hne, htail, hcount⟩,
    happ.items hne, happ.freed⟩

theorem Holds.dequeue_nil (h : Holds s []) : Returns queueDequeue s 0 s := by
  have hhead : s.head = 0 := h.links.1
  rw [Returns, queueDequeue, read_bind, if_pos hhead]
  rfl

/-- **`queue_dequeue`** returns the data of the first node and frees the node. -/
theorem Holds.dequeue {node : Nat} (h : Holds s (node :: N)) :
    ∃ s', Returns queueDequeue s (s.data node) s' ∧ Holds s' N ∧
      N.map s'.data = N.map s.data ∧ s'.freed = s.freed ++ [node] := by
  have hmem : node ∈ node :: N := mem_cons_self
  have hnode := h.node hmem
  obtain ⟨hnot, hnodup⟩ := nodup_cons.mp h.nodup
  have hne : ∀ p ∈ N, p ≠ node := fun p hp heq => hnot (heq ▸ hp)
  have hhead : s.head = node := h.links.1
  have h0 : node ≠ 0 := Nat.ne_of_gt (h.range node hmem).1
  have hmove : Returns (Exec.update fun t : QueueState => { t with head := s.next node }) s ()
      { s with head := s.next node } := rfl
  -- the state when the node is freed
  have hunlink : Returns clearTail { s with head := s.next node } ()
      { s with head := s.next node, tail := if s.next node = 0 then 0 else s.tail } := rfl
  have hfree := kfreeNode_returns (s := { s with
    head := s.next node, tail := if s.next node = 0 then 0 else s.tail }) hnode
  refine ⟨⟨s.next node, if s.next node = 0 then 0 else s.tail, sub64 s.count 1,
    Function.update s.nodes node none, s.freed ++ [node]⟩, ?_, ?_, ?_, rfl⟩
  · rw [Returns, queueDequeue, read_bind, hhead, if_neg h0,
      (getNode_returns hnode).bind_eq, (getNode_returns hnode).bind_eq,
      hmove.bind_eq, hunlink.bind_eq, hfree.bind_eq]
    rfl
  · refine ⟨hnodup, fun p hp => h.range p (mem_cons_of_mem _ hp), fun p => ?_, ⟨?_, ?_⟩, ?_, ?_⟩
    · show (Function.update s.nodes node none p).isSome = true ↔ p ∈ N
      by_cases hp : p = node
      · simp [hp, hnot]
      · rw [update_of_ne hp, h.owned p, mem_cons, or_iff_right hp]
    · exact h.links.2.1
    · refine h.links.2.2.congr fun p hp => ?_
      show (Function.update s.nodes node none p).elim 0 _ = _
      rw [update_of_ne (hne p hp)]
      rfl
    · show (if s.next node = 0 then 0 else s.tail) = lastOr id 0 N
      rw [show s.next node = headOr id N 0 from h.links.2.1, h.tail]
      cases N with
      | nil => exact if_pos rfl
      | cons p N =>
        have hp := h.range p (mem_cons_of_mem _ mem_cons_self)
        exact if_neg (Nat.ne_of_gt hp.1)
    · show sub64 s.count 1 = N.length
      have hlen := length_lt_of_range h.nodup h.range
      rw [h.count, sub64_of_le (by rw [length_cons]; omega) hlen, length_cons]
      omega
  · refine map_congr_left fun p hp => ?_
    show (Function.update s.nodes node none p).elim 0 _ = _
    rw [update_of_ne (hne p hp)]
    rfl

/-- **`queue_clear`** ends, and frees every node. -/
theorem Holds.clear (h : Holds s N) : ∃ s', Converges queueClear s () s' ∧ Holds s' [] ∧
    s'.freed = s.freed ++ N := by
  -- every round takes the first node out
  induction N generalizing s with
  | nil =>
    refine ⟨s, ⟨1, fun fuel hfuel => ?_⟩, h, (append_nil _).symm⟩
    obtain ⟨fuel, rfl⟩ := fuel_succ hfuel
    show queueClear (fuel + 1) s = _
    rw [queueClear, queueEmpty, read_bind, decide_eq_true (show s.count = 0 from h.count)]
    rfl
  | cons node N ih =>
    obtain ⟨s1, hdeq, h1, -, hfreed⟩ := h.dequeue
    obtain ⟨s', ⟨n, hrest⟩, h', hfreed'⟩ := ih h1
    refine ⟨s', ⟨n + 1, fun fuel hfuel => ?_⟩, h', ?_⟩
    · obtain ⟨fuel, rfl⟩ := fuel_succ hfuel
      have hcount : s.count ≠ 0 := by
        rw [h.count]
        exact Nat.succ_ne_zero _
      show queueClear (fuel + 1) s = _
      rw [queueClear, queueEmpty, read_bind, decide_eq_false hcount, if_pos (by decide),
        hdeq.bind_eq]
      exact hrest fuel (by omega)
    · rw [hfreed', hfreed, append_assoc]
      rfl

end

/-! ## Calls -/

/-- The calls: `queue_enqueue` with the answer of `kmalloc` and what the memory there
holds, `queue_dequeue`, `queue_clear`. -/
inductive QueueOp
  | enqueue (answer : Nat) (junk : QueueNode) (data : Nat)
  | dequeue
  | clear

/-- What they return. -/
inductive QueueRet
  | ok (success : Bool)
  | item (data : Option Nat)
  | void
deriving DecidableEq

namespace QueueOp

/-- The code that a call runs. The pointer that `queue_dequeue` returns is an item unless
it is `NULL`. -/
def run : QueueOp → (fuel : Nat) → Exec QueueState QueueRet
  | enqueue answer junk data, _ => .ok <$> queueEnqueue answer junk data
  | dequeue, _ => do
    let data ← queueDequeue
    pure (.item (if data = 0 then none else some data))
  | clear, fuel => do
    queueClear fuel
    pure .void

/-- Data pointers are not `NULL`; `kmalloc` fails, or returns an address at which no node
is allocated. -/
def Allowed (s : QueueState) : QueueOp → Prop
  | enqueue answer _ data => data ≠ 0 ∧
      (answer = 0 ∨ 0 < answer ∧ answer < 2 ^ 64 ∧ s.nodes answer = none)
  | dequeue => True
  | clear => True

/-- The nodes that a call allocates. -/
def allocated : QueueOp → List Nat
  | enqueue answer _ _ => if answer = 0 then [] else [answer]
  | dequeue => []
  | clear => []

end QueueOp

/-- A FIFO: an `enqueue` for which there is no memory changes nothing. -/
def fifo : QueueOp → List Nat → QueueRet × List Nat
  | .enqueue answer _ data, items =>
    if answer = 0 then (.ok false, items) else (.ok true, items ++ [data])
  | .dequeue, items => (.item items.head?, items.tail)
  | .clear, _ => (.void, [])

/-- A call and what it returned. -/
structure QueueEvent where
  op : QueueOp
  ret : QueueRet

inductive QueueStep : QueueState → QueueEvent → QueueState → Prop
  | call {s s' : QueueState} {e : QueueEvent} (hallowed : e.op.Allowed s)
      (hrun : Converges e.op.run s e.ret s') : QueueStep s e s'

/-- The queue holds the nodes `N`, with data that is not `NULL`. -/
structure Represents (s : QueueState) (N : List Nat) : Prop extends Holds s N where
  data_ne : ∀ p ∈ N, s.data p ≠ 0

/-- **One call** does what the FIFO does, and the nodes that it frees are the first
ones. -/
theorem Represents.call {s : QueueState} {N : List Nat} (h : Represents s N) {op : QueueOp}
    (hallowed : op.Allowed s) :
    ∃ s' N' freed, Converges op.run s (fifo op (N.map s.data)).1 s' ∧ Represents s' N' ∧
      N'.map s'.data = (fifo op (N.map s.data)).2 ∧ s'.freed = s.freed ++ freed ∧
      N ++ op.allocated = freed ++ N' := by
  cases op with
  | enqueue answer junk data =>
    obtain ⟨hdata, hanswer⟩ := hallowed
    rcases hanswer with rfl | ⟨hpos, hlt, hfresh⟩
    · -- `kmalloc` returned `NULL`
      exact ⟨s, N, [], ⟨0, fun _ _ => rfl⟩, h, rfl, (append_nil _).symm, append_nil _⟩
    · have hne : answer ≠ 0 := Nat.ne_of_gt hpos
      obtain ⟨s', hret, h', hitems, hfreed⟩ := h.enqueue hpos hlt hfresh junk data
      refine ⟨s', N ++ [answer], [], ⟨0, fun _ _ => ?_⟩, ⟨h', ?_⟩, ?_, ?_, ?_⟩
      · show (QueueRet.ok <$> queueEnqueue answer junk data) s = _
        rw [fifo, if_neg hne, map_apply, show queueEnqueue answer junk data s = _ from hret]
        rfl
      · intro p hp
        have hmem : s'.data p ∈ N.map s.data ++ [data] := hitems ▸ mem_map_of_mem hp
        rcases mem_append.mp hmem with hmem | hmem
        · obtain ⟨q, hq, heq⟩ := mem_map.mp hmem
          rw [← heq]
          exact h.data_ne q hq
        · rwa [mem_singleton.mp hmem]
      · rw [fifo, if_neg hne]
        exact hitems
      · rw [hfreed, append_nil]
      · rw [QueueOp.allocated, if_neg hne]
        rfl
  | dequeue =>
    cases N with
    | nil =>
      refine ⟨s, [], [], ⟨0, fun _ _ => ?_⟩, h, rfl, (append_nil _).symm, rfl⟩
      exact h.dequeue_nil.bind_eq
    | cons node N =>
      obtain ⟨s', hret, h', hitems, hfreed⟩ := h.dequeue
      have hdata := h.data_ne node mem_cons_self
      refine ⟨s', N, [node], ⟨0, fun _ _ => ?_⟩, ⟨h', fun p hp => ?_⟩, hitems, hfreed,
        append_nil _⟩
      · show (queueDequeue >>= fun data =>
          pure (QueueRet.item (if data = 0 then none else some data))) s = _
        rw [hret.bind_eq, if_neg hdata]
        rfl
      · rw [map_inj_left.mp hitems p hp]
        exact h.data_ne p (mem_cons_of_mem _ hp)
  | clear =>
    obtain ⟨s', ⟨n, hclear⟩, h', hfreed⟩ := h.clear
    refine ⟨s', [], N, ⟨n, fun fuel hfuel => ?_⟩, ⟨h', nofun⟩, rfl, hfreed, rfl⟩
    exact (hclear fuel hfuel).bind_eq

theorem Represents.run {s s' : QueueState} {N : List Nat} (h : Represents s N)
    {es : List QueueEvent} (hrun : Run QueueStep s es s') :
    ∃ N' freed, Represents s' N' ∧
      results fifo (es.map QueueEvent.op) (N.map s.data) =
        (es.map QueueEvent.ret, N'.map s'.data) ∧
      s'.freed = s.freed ++ freed ∧ N ++ es.flatMap (·.op.allocated) = freed ++ N' := by
  induction hrun generalizing N with
  | nil s => exact ⟨N, [], h, rfl, (append_nil _).symm, append_nil _⟩
  | @cons s s1 s' e es hstep _ ih =>
    cases hstep with
    | call hallowed hconv =>
      obtain ⟨t, N1, freed1, hconv', h1, hitems, hfreed1, hnodes1⟩ := h.call hallowed
      -- the call of the run is the one that `call` describes
      obtain ⟨hret, rfl⟩ := hconv.unique hconv'
      obtain ⟨N', freed, h', hres, hfreed, hnodes⟩ := ih h1
      refine ⟨N', freed1 ++ freed, h', ?_, ?_, ?_⟩
      · rw [map_cons, map_cons, results, ← hitems, hres, hret]
      · rw [hfreed, hfreed1, append_assoc]
      · rw [flatMap_cons, ← append_assoc, hnodes1, append_assoc, hnodes,
          append_assoc]

/-- **The queue is a FIFO.** After `queue_init` and any calls, with `kmalloc` failing
wherever it likes:

- what the calls returned is what the FIFO returns, and the queue holds its items;
- `head` leads through the nodes to `tail`, both are `NULL` exactly if `count` is `0`, and
  `queue_size` and `queue_empty` are the FIFO's;
- the nodes allocated so far are those freed so far, in the same order, followed by those
  in the queue: every node is freed once, by the call that takes its data out;
- every further call returns, `queue_clear` among them. -/
theorem queue_refines_fifo {s0 s1 s : QueueState} (hnone : ∀ p, s0.nodes p = none)
    (hfreed : s0.freed = []) (hinit : Returns queueInit s0 () s1) {es : List QueueEvent}
    (hrun : Run QueueStep s1 es s) :
    ∃ N : List Nat,
      results fifo (es.map QueueEvent.op) [] = (es.map QueueEvent.ret, N.map s.data) ∧
      (SList id s.next s.head N 0 ∧ s.tail = lastOr id 0 N ∧ (s.head = 0 ↔ s.count = 0) ∧
        (s.tail = 0 ↔ s.count = 0)) ∧
      (Returns queueSize s N.length s ∧ Returns queueEmpty s (decide (N = [])) s) ∧
      (es.flatMap (·.op.allocated) = s.freed ++ N ∧ ∀ p, (s.nodes p).isSome = true ↔ p ∈ N) ∧
      ∀ op : QueueOp, op.Allowed s → ∃ ret s', QueueStep s ⟨op, ret⟩ s' := by
  have h1 : Represents s1 [] := ⟨queueInit_holds hnone hinit, nofun⟩
  obtain ⟨N, freed, h, hres, hfreed', hnodes⟩ := h1.run hrun
  have hstart : s1.freed = [] := by
    cases hinit
    exact hfreed
  rw [hstart] at hfreed'
  refine ⟨N, hres, ⟨h.links, h.tail, h.ends⟩, ⟨?_, ?_⟩, ⟨?_, h.owned⟩, fun op hallowed => ?_⟩
  · rw [← h.count]
    rfl
  · rw [Returns, queueEmpty, read_apply, h.count]
    simp [List.length_eq_zero_iff]
  · rw [hfreed']
    exact hnodes
  · obtain ⟨s', -, -, hconv, -⟩ := h.call hallowed
    exact ⟨_, s', .call hallowed hconv⟩

/-- One item goes through the queue; there is no memory for a second one. -/
theorem queue_refines_fifo_one :
    ∃ s1 s : QueueState, Run QueueStep s1 [⟨.enqueue 0x1000 ⟨0, 0⟩ 7, .ok true⟩,
        ⟨.enqueue 0 ⟨0, 0⟩ 8, .ok false⟩, ⟨.dequeue, .item (some 7)⟩] s ∧
      Returns queueSize s 0 s ∧ s.freed = [0x1000] := by
  have hinit : Returns queueInit ⟨1, 2, 3, fun _ => none, []⟩ () ⟨0, 0, 0, fun _ => none, []⟩ := rfl
  have hrun : ∃ s, Run QueueStep ⟨0, 0, 0, fun _ => none, []⟩
      [⟨.enqueue 0x1000 ⟨0, 0⟩ 7, .ok true⟩, ⟨.enqueue 0 ⟨0, 0⟩ 8, .ok false⟩,
        ⟨.dequeue, .item (some 7)⟩] s :=
    ⟨_, .cons (.call ⟨by decide, .inr ⟨by decide, by decide, rfl⟩⟩ ⟨0, fun _ _ => rfl⟩)
      (.cons (.call ⟨by decide, .inl rfl⟩ ⟨0, fun _ _ => rfl⟩)
        (.cons (.call trivial ⟨0, fun _ _ => rfl⟩) (.nil _)))⟩
  obtain ⟨s, hrun⟩ := hrun
  obtain ⟨N, hres, -, ⟨hsize, -⟩, ⟨hnodes, -⟩, -⟩ :=
    queue_refines_fifo (fun _ => rfl) rfl hinit hrun
  have hN : N = [] := List.map_eq_nil_iff.mp (congrArg Prod.snd hres).symm
  rw [hN, List.append_nil] at hnodes
  rw [hN] at hsize
  exact ⟨_, s, hrun, hsize, hnodes.symm⟩

end GosKernel.Container
