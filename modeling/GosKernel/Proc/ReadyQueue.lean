import Mathlib.Data.Fintype.Card
import GosKernel.Lib.Linked
import GosKernel.Lib.Run
import GosKernel.Proc.Process

/-!
# The ready queue

The queue is threaded through the process table. `Queue s L` says that its links hold
the list `L`; adding and removing a process do to `L` what they are for, as long as the
process added is off the queue and the process removed is on it
(`Queue.add`, `Queue.remove`).
-/

namespace GosKernel.Proc

open Exec Linked List Function

/-! ## Links -/

/-- The links of the queue hold the list `L`. -/
@[mk_iff]
structure Queue (s : Procs) (L : List Slot) : Prop where
  nodup : L.Nodup
  links : DSeg some (fun i => (s.table i).next) (fun i => (s.table i).prev) none L none
  head : s.readyQueueHead = headOr some L none
  tail : s.readyQueueTail = lastOr some none L
  unlinked : ∀ i, i ∉ L → (s.table i).next = none ∧ (s.table i).prev = none

instance (s : Procs) (L : List Slot) : Decidable (Queue s L) :=
  decidable_of_iff _ (queue_iff s L).symm

/-- From `s` to `s'` nothing but the links of the queue changed. -/
structure Relinked (s s' : Procs) : Prop where
  current : s'.currentProc = s.currentProc
  state : ∀ i, (s'.table i).state = (s.table i).state
  pid : ∀ i, (s'.table i).pid = (s.table i).pid
  wake : ∀ i, (s'.table i).wakeTime = (s.table i).wakeTime
  exit : ∀ i, (s'.table i).exitCode = (s.table i).exitCode
  ticks : s'.schedulerTicks = s.schedulerTicks

theorem Relinked.refl (s : Procs) : Relinked s s :=
  ⟨rfl, fun _ => rfl, fun _ => rfl, fun _ => rfl, fun _ => rfl, rfl⟩

variable {L : List Slot} {p : Slot} {s s' : Procs}

theorem Relinked.trans {s'' : Procs} (h : Relinked s s') (h' : Relinked s' s'') : Relinked s s'' :=
  ⟨h'.current.trans h.current, fun i => (h'.state i).trans (h.state i),
    fun i => (h'.pid i).trans (h.pid i), fun i => (h'.wake i).trans (h.wake i),
    fun i => (h'.exit i).trans (h.exit i), h'.ticks.trans h.ticks⟩

/-- Assembling `Relinked` from what the table holds. -/
theorem relinked_of_table (hcurrent : s'.currentProc = s.currentProc)
    (hticks : s'.schedulerTicks = s.schedulerTicks)
    (htable : ∀ i, ∃ n p, s'.table i = { s.table i with next := n, prev := p }) :
    Relinked s s' := by
  refine ⟨hcurrent, fun i => ?_, fun i => ?_, fun i => ?_, fun i => ?_, hticks⟩
  all_goals
    obtain ⟨n, p, h⟩ := htable i
    rw [h]

theorem set_table (s : Procs) (p : Slot) (f : Process → Process) (i : Slot) :
    (s.set p f).table i = if i = p then f (s.table p) else s.table i := by
  by_cases h : i = p
  · rw [if_pos h, h]
    exact update_self _ _ _
  · rw [if_neg h]
    exact update_of_ne h _ _

theorem set_set (s : Procs) (p : Slot) (f g : Process → Process) :
    (s.set p f).set p g = s.set p fun q => g (f q) := by
  unfold Procs.set
  dsimp only
  rw [update_self, update_idem]

theorem setNextOf_table (s : Procs) (p v : Option Slot) (i : Slot) :
    (s.setNextOf p v).table i = if p = some i then { s.table i with next := v } else s.table i := by
  cases p with
  | none => rfl
  | some p =>
    unfold Procs.setNextOf
    rw [set_table]
    by_cases h : i = p
    · rw [if_pos h, if_pos (by rw [h]), h]
    · rw [if_neg h, if_neg fun hx => h (Option.some.inj hx).symm]

theorem setPrevOf_table (s : Procs) (p v : Option Slot) (i : Slot) :
    (s.setPrevOf p v).table i = if p = some i then { s.table i with prev := v } else s.table i := by
  cases p with
  | none => rfl
  | some p =>
    unfold Procs.setPrevOf
    rw [set_table]
    by_cases h : i = p
    · rw [if_pos h, if_pos (by rw [h]), h]
    · rw [if_neg h, if_neg fun hx => h (Option.some.inj hx).symm]

/-- What `scheduler_add` writes, for a process that is not the tail. -/
theorem schedulerAdd_table (hready : (s.table p).state = .ready)
    (hp : s.readyQueueTail ≠ some p) (i : Slot) :
    (schedulerAdd s p).table i =
      if i = p then { s.table p with next := none, prev := s.readyQueueTail }
      else { s.table i with
        next := if s.readyQueueTail = some i then some p else (s.table i).next } := by
  unfold schedulerAdd
  rw [if_neg (not_not.mpr hready)]
  rw [setNextOf_table, set_table]
  show (if s.readyQueueTail = some i then _ else _) = _
  by_cases hip : i = p
  · rw [if_pos hip, if_neg (by rw [hip]; exact hp), if_pos hip]
  · rw [if_neg hip]
    split <;> rfl

/-- What `scheduler_remove` writes, for a process that is not its own neighbour. -/
theorem schedulerRemove_table (hnext : (s.table p).next ≠ some p)
    (hprev : (s.table p).prev ≠ some p) (i : Slot) :
    (schedulerRemove s p).table i =
      if i = p then { s.table p with next := none, prev := none }
      else { s.table i with
        next := if (s.table p).prev = some i then (s.table p).next else (s.table i).next
        prev := if (s.table p).next = some i then (s.table p).prev else (s.table i).prev } := by
  have hsame : (s.setNextOf (s.table p).prev (s.table p).next).table p = s.table p := by
    rw [setNextOf_table, if_neg hprev]
  unfold schedulerRemove
  rw [set_table, hsame]
  by_cases hip : i = p
  · rw [if_pos hip, if_pos hip, setPrevOf_table, if_neg hnext, hsame]
  · rw [if_neg hip, setPrevOf_table, setNextOf_table]
    split <;> split <;> rfl

theorem setNextOf_head (s : Procs) (p v : Option Slot) :
    (s.setNextOf p v).readyQueueHead = if p = none then v else s.readyQueueHead := by
  cases p <;> rfl

theorem setPrevOf_tail (s : Procs) (p v : Option Slot) :
    (s.setPrevOf p v).readyQueueTail = if p = none then v else s.readyQueueTail := by
  cases p <;> rfl

theorem setNextOf_rest (s : Procs) (p v : Option Slot) :
    (s.setNextOf p v).readyQueueTail = s.readyQueueTail ∧
      (s.setNextOf p v).currentProc = s.currentProc ∧
      (s.setNextOf p v).schedulerTicks = s.schedulerTicks := by
  cases p <;> exact ⟨rfl, rfl, rfl⟩

theorem setPrevOf_rest (s : Procs) (p v : Option Slot) :
    (s.setPrevOf p v).readyQueueHead = s.readyQueueHead ∧
      (s.setPrevOf p v).currentProc = s.currentProc ∧
      (s.setPrevOf p v).schedulerTicks = s.schedulerTicks := by
  cases p <;> exact ⟨rfl, rfl, rfl⟩

theorem schedulerAdd_head (hready : (s.table p).state = .ready) :
    (schedulerAdd s p).readyQueueHead =
      if s.readyQueueTail = none then some p else s.readyQueueHead := by
  unfold schedulerAdd
  rw [if_neg (not_not.mpr hready)]
  exact setNextOf_head _ _ _

theorem schedulerRemove_head (s : Procs) (p : Slot) :
    (schedulerRemove s p).readyQueueHead =
      if (s.table p).prev = none then (s.table p).next else s.readyQueueHead :=
  (setPrevOf_rest _ _ _).1.trans (setNextOf_head _ _ _)

theorem schedulerRemove_tail (hprev : (s.table p).prev ≠ some p) :
    (schedulerRemove s p).readyQueueTail =
      if (s.table p).next = none then (s.table p).prev else s.readyQueueTail := by
  have hsame : (s.setNextOf (s.table p).prev (s.table p).next).table p = s.table p := by
    rw [setNextOf_table, if_neg hprev]
  refine (setPrevOf_tail _ _ _).trans ?_
  rw [hsame, (setNextOf_rest _ _ _).1]

/-! ## Relinking

Whatever the links are, well formed or not, the functions on the queue write nothing
else. -/

theorem relinked_setNextOf (s : Procs) (p v : Option Slot) : Relinked s (s.setNextOf p v) := by
  refine relinked_of_table (setNextOf_rest s p v).2.1 (setNextOf_rest s p v).2.2 fun i => ?_
  rw [setNextOf_table]
  split <;> exact ⟨_, _, rfl⟩

theorem relinked_setPrevOf (s : Procs) (p v : Option Slot) : Relinked s (s.setPrevOf p v) := by
  refine relinked_of_table (setPrevOf_rest s p v).2.1 (setPrevOf_rest s p v).2.2 fun i => ?_
  rw [setPrevOf_table]
  split <;> exact ⟨_, _, rfl⟩

theorem relinked_set (s : Procs) (p : Slot) (n v : Option Slot) :
    Relinked s (s.set p fun q => { q with next := n, prev := v }) := by
  refine relinked_of_table rfl rfl fun i => ?_
  rw [set_table]
  by_cases hip : i = p
  · rw [if_pos hip, hip]
    exact ⟨_, _, rfl⟩
  · rw [if_neg hip]
    exact ⟨_, _, rfl⟩

theorem relinked_add (s : Procs) (p : Slot) : Relinked s (schedulerAdd s p) := by
  unfold schedulerAdd
  split
  · exact .refl s
  · have htail : ∀ s : Procs, Relinked s { s with readyQueueTail := some p } := fun _ =>
      ⟨rfl, fun _ => rfl, fun _ => rfl, fun _ => rfl, fun _ => rfl, rfl⟩
    exact ((relinked_set ..).trans (relinked_setNextOf ..)).trans (htail _)

theorem relinked_remove (s : Procs) (p : Slot) : Relinked s (schedulerRemove s p) :=
  ((relinked_setNextOf ..).trans (relinked_setPrevOf ..)).trans (relinked_set ..)

theorem relinked_yieldLoop {fuel : Nat} {p r : Option Slot}
    (h : schedulerYieldLoop fuel s p = some (s', r)) : Relinked s s' := by
  induction fuel generalizing s p with
  | zero => cases h
  | succ fuel ih =>
    cases p with
    | none =>
      cases h
      exact .refl _
    | some p =>
      unfold schedulerYieldLoop at h
      split at h
      · cases h
        exact .refl _
      · exact (relinked_remove s p).trans (ih h)

/-! ## Adding and removing -/

theorem headOr_ne_some (hp : p ∉ L) : headOr some L none ≠ some p := by
  refine (ne_headOr (x := some p) (by simp) fun a ha hx => hp ?_).symm
  rw [Option.some.inj hx]
  exact ha

theorem lastOr_ne_some (hp : p ∉ L) : lastOr some none L ≠ some p := by
  refine (ne_lastOr (x := some p) (by simp) fun a ha hx => hp ?_).symm
  rw [Option.some.inj hx]
  exact ha

theorem Queue.tail_ne (h : Queue s L) (hp : p ∉ L) : s.readyQueueTail ≠ some p := by
  rw [h.tail]
  exact lastOr_ne_some hp

theorem lastOr_some_ne_none (a : Slot) (L : List Slot) : lastOr some (some a) L ≠ none := by
  rcases @lastOr_eq_or _ _ some (some a) L with h | ⟨b, -, h⟩ <;> rw [h] <;> simp

/-- **`scheduler_add`** of a process off the queue appends it. -/
theorem Queue.add (h : Queue s L) (hp : p ∉ L) (hready : (s.table p).state = .ready) :
    Queue (schedulerAdd s p) (L ++ [p]) ∧ Relinked s (schedulerAdd s p) := by
  have htail := h.tail_ne hp
  have htable := schedulerAdd_table hready htail
  have hne : ∀ x ∈ L, x ≠ p := fun x hx heq => hp (heq ▸ hx)
  refine ⟨⟨?_, ?_, ?_, ?_, fun i hi => ?_⟩, relinked_add s p⟩
  · exact nodup_append.mpr ⟨h.nodup, nodup_singleton p, by simpa using hne⟩
  · refine DSeg.insert (Option.some_injective _) (by rw [append_nil]; exact h.links)
      (by rw [append_nil]; exact h.nodup) (by simp) (by simp) ?_ ?_ ?_ ?_
    · rw [htable, if_pos rfl]
      rfl
    · rw [htable, if_pos rfl]
      exact h.tail
    · intro x hx
      rw [append_nil] at hx
      rw [htable, if_neg (hne x hx), ← h.tail]
      simp only [eq_comm]
    · intro x hx
      rw [append_nil] at hx
      rw [htable, if_neg (hne x hx)]
      simp
  · rw [schedulerAdd_head hready, h.head, h.tail]
    cases L with
    | nil => rfl
    | cons a L => exact if_neg (lastOr_some_ne_none a L)
  · rw [lastOr_append]
    unfold schedulerAdd
    rw [if_neg (not_not.mpr hready)]
    rfl
  · rw [mem_append, mem_singleton, not_or] at hi
    rw [htable, if_neg hi.2, if_neg (h.tail_ne hi.1)]
    exact h.unlinked i hi.1

/-- **`scheduler_remove`** of a process on the queue takes it out. -/
theorem Queue.remove {L1 L2 : List Slot} (h : Queue s (L1 ++ p :: L2)) :
    Queue (schedulerRemove s p) (L1 ++ L2) ∧ Relinked s (schedulerRemove s p) := by
  obtain ⟨hnd1, hnd2, hdis⟩ := nodup_append.mp h.nodup
  obtain ⟨hp2, hnd2'⟩ := nodup_cons.mp hnd2
  have hp1 : p ∉ L1 := fun hx => hdis p hx p mem_cons_self rfl
  obtain ⟨hpv, hnx⟩ := h.links.links
  have hpv' : (s.table p).prev = lastOr some none L1 := hpv
  have hnx' : (s.table p).next = headOr some L2 none := hnx
  have hprev : (s.table p).prev ≠ some p := by
    rw [hpv']
    exact lastOr_ne_some hp1
  have hnext : (s.table p).next ≠ some p := by
    rw [hnx']
    exact headOr_ne_some hp2
  have htable := schedulerRemove_table hnext hprev
  have hnd : (L1 ++ L2).Nodup := nodup_append.mpr
    ⟨hnd1, hnd2', fun a ha b hb => hdis a ha b (mem_cons_of_mem _ hb)⟩
  have hne : ∀ x ∈ L1 ++ L2, x ≠ p := by
    rintro x hx rfl
    rcases mem_append.mp hx with hx | hx
    · exact hp1 hx
    · exact hp2 hx
  refine ⟨⟨hnd, ?_, ?_, ?_, fun i hi => ?_⟩, relinked_remove s p⟩
  · refine DSeg.remove (Option.some_injective _) h.links hnd (by simp) (by simp) ?_ ?_
    · intro x hx
      rw [htable, if_neg (hne x hx)]
      simp only [eq_comm]
    · intro x hx
      rw [htable, if_neg (hne x hx)]
      simp only [eq_comm]
  · rw [schedulerRemove_head, hpv', hnx', h.head]
    cases L1 with
    | nil => rfl
    | cons a L1 => exact if_neg (lastOr_some_ne_none a L1)
  · rw [schedulerRemove_tail hprev, hpv', hnx', lastOr_append, h.tail, lastOr_append]
    cases L2 with
    | nil => rfl
    | cons a L2 => exact if_neg (Option.some_ne_none a)
  · rw [htable]
    by_cases hip : i = p
    · rw [if_pos hip]
      exact ⟨rfl, rfl⟩
    · have hi' : i ∉ L1 ++ p :: L2 := by
        simpa [hip] using hi
      have hpi : (s.table p).prev ≠ some i := by
        rw [hpv']
        exact lastOr_ne_some fun hx => hi (mem_append_left _ hx)
      have hni : (s.table p).next ≠ some i := by
        rw [hnx']
        exact headOr_ne_some fun hx => hi (mem_append_right _ hx)
      rw [if_neg hip, if_neg hpi, if_neg hni]
      exact h.unlinked i hi'

/-! ## The queue as a list -/

/-- The processes met from `p` along `next`, at most `fuel` of them. -/
def readyQueueFrom (s : Procs) : (fuel : Nat) → (p : Option Slot) → List Slot
  | 0, _ => []
  | _ + 1, none => []
  | fuel + 1, some p => p :: readyQueueFrom s fuel (s.table p).next

/-- The processes met from `g_ready_queue_head` along `next`. -/
def readyQueue (s : Procs) : List Slot := readyQueueFrom s procMaxProcesses s.readyQueueHead

theorem readyQueueFrom_eq {fuel : Nat} {p : Option Slot}
    (h : DSeg some (fun i => (s.table i).next) (fun i => (s.table i).prev) p L none)
    (hfuel : L.length ≤ fuel) : readyQueueFrom s fuel (headOr some L none) = L := by
  induction L generalizing p fuel with
  | nil => cases fuel <;> rfl
  | cons a L ih =>
    cases fuel with
    | zero => exact absurd hfuel (Nat.not_succ_le_zero _)
    | succ fuel =>
      show a :: readyQueueFrom s fuel (s.table a).next = _
      rw [show (s.table a).next = headOr some L none from h.2.1,
        ih h.2.2 (Nat.le_of_succ_le_succ hfuel)]

theorem Queue.length_le (h : Queue s L) : L.length ≤ procMaxProcesses := by
  simpa using h.nodup.length_le_card

theorem Queue.readyQueue_eq (h : Queue s L) : readyQueue s = L := by
  unfold readyQueue
  rw [h.head]
  exact readyQueueFrom_eq h.links h.length_le

theorem Queue.congr (h : Queue s L)
    (hhead : s'.readyQueueHead = s.readyQueueHead) (htail : s'.readyQueueTail = s.readyQueueTail)
    (hlinks : ∀ i, (s'.table i).next = (s.table i).next ∧ (s'.table i).prev = (s.table i).prev) :
    Queue s' L where
  nodup := h.nodup
  links := h.links.congr (fun i _ => (hlinks i).1) fun i _ => (hlinks i).2
  head := hhead.trans h.head
  tail := htail.trans h.tail
  unlinked i hi := by
    rw [(hlinks i).1, (hlinks i).2]
    exact h.unlinked i hi

theorem Queue.set (h : Queue s L) {f : Process → Process}
    (hlinks : (f (s.table p)).next = (s.table p).next ∧ (f (s.table p)).prev = (s.table p).prev) :
    Queue (s.set p f) L := by
  refine h.congr rfl rfl fun i => ?_
  rw [set_table]
  by_cases hip : i = p
  · rw [if_pos hip, hip]
    exact hlinks
  · rw [if_neg hip]
    exact ⟨rfl, rfl⟩

/-- Removing any process from an empty queue leaves it empty. -/
theorem Queue.remove_of_nil (h : Queue s []) (p : Slot) :
    Queue (schedulerRemove s p) [] ∧ Relinked s (schedulerRemove s p) := by
  obtain ⟨hnext, hprev⟩ := h.unlinked p not_mem_nil
  have hsame : ∀ i, (schedulerRemove s p).table i = s.table i := by
    intro i
    rw [schedulerRemove_table (by simp [hnext]) (by simp [hprev]), hnext, hprev]
    by_cases hip : i = p
    · rw [if_pos hip]
      cases hp : s.table p
      simp_all only
    · rw [if_neg hip, if_neg (by simp), if_neg (by simp)]
  refine ⟨h.congr ?_ ?_ fun i => ?_, relinked_remove s p⟩
  · rw [schedulerRemove_head, if_pos hprev, hnext, h.head]
    rfl
  · rw [schedulerRemove_tail (by simp [hprev]), if_pos hnext, hprev, h.tail]
    rfl
  · rw [hsame]
    exact ⟨rfl, rfl⟩

theorem schedulerRequeue_of_not_running
    (h : ¬ ∃ c, s.currentProc = some c ∧ (s.table c).state = .running) :
    schedulerRequeue s = s := by
  unfold schedulerRequeue
  cases hc : s.currentProc with
  | none => rfl
  | some c => exact if_neg fun hrunning => h ⟨c, hc, hrunning⟩

/-- The first step of `scheduler_yield` moves a running process to the end of the queue. -/
theorem Queue.requeue {L1 L2 : List Slot} {c : Slot} (h : Queue s (L1 ++ c :: L2))
    (hcurrent : s.currentProc = some c) (hrunning : (s.table c).state = .running) :
    Queue (schedulerRequeue s) (L1 ++ L2 ++ [c]) ∧
      Relinked (s.set c fun p => { p with state := .ready }) (schedulerRequeue s) := by
  have hset : Queue (s.set c fun p => { p with state := .ready }) (L1 ++ c :: L2) :=
    h.set ⟨rfl, rfl⟩
  obtain ⟨hq, hre⟩ := hset.remove
  have hready : ((schedulerRemove (s.set c fun p => { p with state := .ready }) c).table c).state
      = .ready := by
    rw [hre.state, set_table, if_pos rfl]
  obtain ⟨hq', hre'⟩ := hq.add (nodup_middle.mp h.nodup).notMem hready
  unfold schedulerRequeue
  rw [hcurrent]
  dsimp only
  rw [if_pos hrunning]
  exact ⟨hq', hre.trans hre'⟩

/-- The loop of `scheduler_yield` stops at the first ready process of the queue. -/
theorem Queue.yieldLoop (h : Queue s L) :
    ∃ s' L', (∀ fuel, L.length < fuel →
        schedulerYieldLoop fuel s s.readyQueueHead = some (s', headOr some L' none)) ∧
      Queue s' L' ∧ Relinked s s' ∧ L' = L.dropWhile fun i => (s.table i).state ≠ .ready := by
  induction L generalizing s with
  | nil =>
    refine ⟨s, [], fun fuel hfuel => ?_, h, .refl s, rfl⟩
    obtain ⟨fuel, rfl⟩ := fuel_succ hfuel
    rw [h.head]
    rfl
  | cons a L ih =>
    by_cases ha : (s.table a).state = .ready
    · refine ⟨s, a :: L, fun fuel hfuel => ?_, h, .refl s, ?_⟩
      · obtain ⟨fuel, rfl⟩ := fuel_succ hfuel
        rw [h.head]
        exact if_pos ha
      · rw [dropWhile_cons_of_neg (by simpa using ha)]
    · -- the link that is followed was read before the removal
      have h' : Queue s ([] ++ a :: L) := h
      obtain ⟨hq, hre⟩ := h'.remove
      have hnext : (s.table a).next = (schedulerRemove s a).readyQueueHead := by
        rw [hq.head]
        exact h.links.2.1
      obtain ⟨s', L', hrun, hq', hre', hL'⟩ := ih hq
      refine ⟨s', L', fun fuel hfuel => ?_, hq', hre.trans hre', ?_⟩
      · obtain ⟨fuel, rfl⟩ := fuel_succ hfuel
        rw [h.head]
        refine (if_neg ha).trans ?_
        rw [hnext]
        exact hrun fuel (Nat.lt_of_succ_lt_succ hfuel)
      · rw [dropWhile_cons_of_pos (by simpa using ha), hL']
        simp only [hre.state]

end GosKernel.Proc
