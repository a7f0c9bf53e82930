import GosKernel.Defs
import GosKernel.Lib.Exec

/-!
# Processes and the round-robin scheduler (`src/proc/proc.c`, `src/proc/scheduler.c`)

The process table, whose entries also are the nodes of the ready queue, and the
globals of both files. A switch of contexts is the change of `g_current_proc`: it is
the last thing every caller does. The answers of `kmalloc` and of the timer are
arguments of the calls.
-/

namespace GosKernel.Proc

open Exec

/-! ## The data -/

def procMaxProcesses : Nat := 256

def procNameMax : Nat := 64

def procStackSize : Nat := 16 * 1024

/-- The `PROC_STATE_*` constants. -/
inductive ProcState
  | unused
  | ready
  | running
  | blocked
  | zombie
deriving DecidableEq, Repr

/-- Pointers into `g_process_table`. -/
abbrev Slot := Fin procMaxProcesses

instance : NeZero procMaxProcesses := ⟨by decide⟩

/-- `process_t`. -/
structure Process where
  pid : Nat
  ppid : Nat
  name : CString
  state : ProcState
  rsp : Nat
  rip : Nat
  cr3 : Nat
  stack : Nat
  wakeTime : Nat
  exitCode : Int
  next : Option Slot
  prev : Option Slot
deriving DecidableEq

/-- The globals of `proc.c` and `scheduler.c`. -/
structure Procs where
  table : Slot → Process
  currentProc : Option Slot
  nextPid : Nat
  readyQueueHead : Option Slot
  readyQueueTail : Option Slot
  schedulerTicks : Nat

/-- The zeroed entries and globals of `.bss`. -/
def Procs.bss : Procs where
  table _ := ⟨0, 0, .empty, .unused, 0, 0, 0, 0, 0, 0, none, none⟩
  currentProc := none
  nextPid := 1
  readyQueueHead := none
  readyQueueTail := none
  schedulerTicks := 0

/-- Change one entry of the table. -/
def Procs.set (s : Procs) (p : Slot) (f : Process → Process) : Procs :=
  { s with table := Function.update s.table p (f (s.table p)) }

/-! ## The scheduler -/

/-- `scheduler_init` (scheduler.c:16-21). -/
def schedulerInit (s : Procs) : Procs :=
  { s with readyQueueHead := none, readyQueueTail := none, schedulerTicks := 0 }

/-- `if (p) p->next = v; else g_ready_queue_head = v`. -/
def Procs.setNextOf (s : Procs) (p v : Option Slot) : Procs :=
  match p with
  | some p => s.set p fun q => { q with next := v }
  | none => { s with readyQueueHead := v }

/-- `if (p) p->prev = v; else g_ready_queue_tail = v`. -/
def Procs.setPrevOf (s : Procs) (p v : Option Slot) : Procs :=
  match p with
  | some p => s.set p fun q => { q with prev := v }
  | none => { s with readyQueueTail := v }

/-- `scheduler_add` (scheduler.c:23-33). -/
def schedulerAdd (s : Procs) (proc : Slot) : Procs :=
  if (s.table proc).state ≠ .ready then s
  else
    let s := s.set proc fun p => { p with next := none, prev := s.readyQueueTail }
    let s := s.setNextOf s.readyQueueTail (some proc)
    { s with readyQueueTail := some proc }

/-- `scheduler_remove` (scheduler.c:35-43). -/
def schedulerRemove (s : Procs) (proc : Slot) : Procs :=
  let s := s.setNextOf (s.table proc).prev (s.table proc).next
  let s := s.setPrevOf (s.table proc).next (s.table proc).prev
  s.set proc fun p => { p with next := none, prev := none }

/-- `scheduler_switch_to` (scheduler.c:99-117). -/
def schedulerSwitchTo (s : Procs) (next : Slot) : Procs :=
  if s.currentProc = some next then s else { s with currentProc := some next }

/-- The loop of `scheduler_yield`: drop processes that are not ready from the front of
the queue. -/
def schedulerYieldLoop : (fuel : Nat) → Procs → Option Slot → Option (Procs × Option Slot)
  | 0, _, _ => none
  | _ + 1, s, none => some (s, none)
  | fuel + 1, s, some next =>
    if (s.table next).state = .ready then some (s, some next)
    else schedulerYieldLoop fuel (schedulerRemove s next) (s.table next).next

/-- The first step of `scheduler_yield`: a process that is still running goes to the
tail. -/
def schedulerRequeue (s : Procs) : Procs :=
  match s.currentProc with
  | none => s
  | some current =>
    if (s.table current).state = .running then
      let s := s.set current fun p => { p with state := .ready }
      schedulerAdd (schedulerRemove s current) current
    else s

/-- The last step of `scheduler_yield`: run `next`, or idle if there is none. -/
def schedulerRun (s : Procs) (next : Option Slot) : Procs :=
  let next := next.getD 0
  let s := s.set next fun p => { p with state := .running }
  schedulerSwitchTo s next

/-- `scheduler_yield` (scheduler.c:65-94). -/
def schedulerYield (fuel : Nat) : Exec Procs Unit := fun s =>
  match s.readyQueueHead with
  | none => some ((), s)
  | some _ =>
    let s := schedulerRequeue s
    (schedulerYieldLoop fuel s s.readyQueueHead).map fun r => ((), schedulerRun r.1 r.2)

/-- Is it time to wake the process? -/
def wakes (p : Process) (ticks : Nat) : Bool :=
  p.state = .blocked && 0 < p.wakeTime && p.wakeTime ≤ ticks

/-- The body of the loop of `scheduler_tick`. -/
def schedulerWake (s : Procs) (i : Slot) : Procs :=
  if wakes (s.table i) s.schedulerTicks then
    schedulerAdd (s.set i fun p => { p with state := .ready, wakeTime := 0 }) i
  else s

/-- `scheduler_tick` (scheduler.c:45-63). -/
def schedulerTick (fuel : Nat) : Exec Procs Unit := fun s =>
  let s := { s with schedulerTicks := wrap64 (s.schedulerTicks + 1) }
  let s := ((List.finRange procMaxProcesses).drop 1).foldl schedulerWake s
  match s.readyQueueHead, s.currentProc with
  | some _, some current => if (s.table current).pid ≠ 0 then schedulerYield fuel s else some ((), s)
  | _, _ => some ((), s)

/-! ## Processes -/

/-- `proc_init` (proc.c:18-41). -/
def procInit (rsp cr3 : Nat) (s : Procs) : Procs :=
  let s : Procs := { s with table := fun i =>
    { s.table i with state := .unused, pid := 0, next := none, prev := none } }
  let s := s.set 0 fun idle =>
    { idle with
      pid := 0
      ppid := 0
      name := ⟨[105, 100, 108, 101], by decide⟩
      state := .ready
      rsp := rsp
      rip := 0
      cr3 := cr3
      stack := 0 }
  { s with currentProc := some 0 }

/-- The slot `proc_create` takes: the first unused one after idle's. -/
def procFreeSlot (s : Procs) : Option Slot :=
  ((List.finRange procMaxProcesses).drop 1).find? fun i => (s.table i).state = .unused

/-- `proc_create` (proc.c:43-92). `stack` is the answer of `kmalloc`, `0` if it fails. -/
def procCreate (name : CString) (entry stack cr3 : Nat) (s : Procs) : Option Slot × Procs :=
  match procFreeSlot s with
  | none => (none, s)
  | some slot =>
    let s := { s with nextPid := wrap32 (s.nextPid + 1) }.set slot fun p =>
      { p with pid := s.nextPid }
    let ppid := match s.currentProc with
      | some current => (s.table current).pid
      | none => 0
    let s := s.set slot fun p =>
      { p with
        ppid := ppid
        name := name.take (procNameMax - 1)
        state := .ready
        stack := stack }
    if stack = 0 then (none, s.set slot fun p => { p with state := .unused })
    else
      let s := s.set slot fun p =>
        { p with
          rsp := wrap64 (stack + procStackSize) - 8 * 15 - 8
          rip := entry
          cr3 := cr3
          wakeTime := 0
          exitCode := 0
          next := none
          prev := none }
      (some slot, schedulerAdd s slot)

/-- `proc_destroy` (proc.c:93-107). -/
def procDestroy (proc : Slot) (s : Procs) : Procs :=
  if (s.table proc).pid = 0 then s
  else
    (schedulerRemove s proc).set proc fun p =>
      { p with stack := 0, state := .unused, pid := 0 }

/-- `proc_yield`. -/
def procYield (fuel : Nat) : Exec Procs Unit := schedulerYield fuel

/-- `proc_get_by_pid` (proc.c:117-124). -/
def procGetByPid (pid : Nat) (s : Procs) : Option Slot :=
  (List.finRange procMaxProcesses).find? fun i =>
    (s.table i).pid = pid && (s.table i).state ≠ .unused

/-- `proc_exit` (proc.c:126-136). -/
def procExit (fuel : Nat) (code : Int) : Exec Procs Unit := fun s =>
  match s.currentProc with
  | none => some ((), s)
  | some proc =>
    if (s.table proc).pid = 0 then some ((), s)
    else schedulerYield fuel (s.set proc fun p => { p with exitCode := code, state := .zombie })

/-- `proc_sleep` (proc.c:138-146), with the values of `pit_get_ticks()` and `g_pit_hz`. -/
def procSleep (fuel ms pitTicks pitHz : Nat) : Exec Procs Unit := fun s =>
  match s.currentProc with
  | none => some ((), s)
  | some proc =>
    if (s.table proc).pid = 0 then some ((), s)
    else schedulerYield fuel (s.set proc fun p =>
      { p with
        wakeTime := wrap64 (pitTicks + wrap64 (ms * pitHz) / 1000)
        state := .blocked })

end GosKernel.Proc
