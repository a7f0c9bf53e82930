import GosKernel.Lib.ByteMem
import GosKernel.Lib.Run
import GosKernel.Proc.Process

/-!
# Switching contexts (`proc/context.c`, the frame of `proc/proc.c`)

`context_switch` is modelled instruction by instruction, over the registers it names and
a byte-addressed memory.

- **`context_switch_correct`**: a process that was switched out goes on as it was, in
  every run; but `proc_create` writes the entry where `rbp` is popped and a zero where
  `retq` takes its address, so that a new process is entered at address 0.
-/

namespace GosKernel.Proc

open ByteMem List Function

/-! ## The processor -/

inductive Reg
  | rsp | rbx | rbp | r12 | r13 | r14 | r15 | rdi | rsi
deriving DecidableEq

structure Cpu where
  reg : Reg → Nat
  rip : Nat
  mem : ByteMem

/-- The instructions of `context_switch`. -/
inductive Instr
  | pushq (r : Reg)
  | popq (r : Reg)
  /-- `movq %src, (%dst)`. -/
  | store (src dst : Reg)
  /-- `movq %src, %dst`. -/
  | movq (src dst : Reg)
  | retq

def Cpu.set (c : Cpu) (r : Reg) (v : Nat) : Cpu := { c with reg := update c.reg r v }

/-- Put a word on the stack, as `pushq` and `callq` do. -/
def Cpu.push (c : Cpu) (v : Nat) : Cpu :=
  let sp := sub64 (c.reg .rsp) 8
  { c.set .rsp sp with mem := c.mem.store64 sp v }

def Instr.exec : Instr → Cpu → Cpu
  | .pushq r, c => c.push (c.reg r)
  | .popq r, c =>
    let sp := c.reg .rsp
    (c.set .rsp (wrap64 (sp + 8))).set r (c.mem.load64 sp)
  | .store src dst, c => { c with mem := c.mem.store64 (c.reg dst) (c.reg src) }
  | .movq src dst, c => c.set dst (c.reg src)
  | .retq, c =>
    let sp := c.reg .rsp
    { c.set .rsp (wrap64 (sp + 8)) with rip := c.mem.load64 sp }

/-- `context_switch` up to the store of the stack pointer (context.c:25-31). -/
def saveCode : List Instr :=
  [.pushq .rbx, .pushq .r12, .pushq .r13, .pushq .r14, .pushq .r15, .pushq .rbp,
   .store .rsp .rdi]

/-- `context_switch` from the load of the new stack pointer (context.c:32-39). -/
def restoreCode : List Instr :=
  [.movq .rsi .rsp, .popq .rbp, .popq .r15, .popq .r14, .popq .r13, .popq .r12, .popq .rbx,
   .retq]

def execAll (is : List Instr) (c : Cpu) : Cpu := is.foldl (fun c i => i.exec c) c

/-- A call `context_switch(old_rsp, new_rsp)` that returns to `ret`. The comment of the
source promises a test of `old_rsp` that the code does not make: with `NULL` the stack
pointer is stored at address 0. -/
def contextSwitch (oldRsp newRsp ret : Nat) (c : Cpu) : Cpu :=
  execAll (saveCode ++ restoreCode) (((c.set .rdi oldRsp).set .rsi newRsp).push ret)

/-- The frame of `proc_create` (proc.c:71-79): 15 zeros below the end of the stack and
the entry below these. -/
def procFrame (entry stack : Nat) (m : ByteMem) : ByteMem :=
  let sp := stack + procStackSize - 8 * 15
  ((List.range 15).foldl (fun m i => m.store64 (sp + 8 * i) 0) m).store64 (sp - 8) entry

/-! ## What is saved and what is restored -/

/-- What a caller of `context_switch` finds again when the call returns: its stack
pointer before the call, the registers that a function keeps, and where it goes on. -/
@[ext]
structure Context where
  rsp : Nat
  rbx : Nat
  rbp : Nat
  r12 : Nat
  r13 : Nat
  r14 : Nat
  r15 : Nat
  ret : Nat
deriving DecidableEq

/-- The context of a caller that goes on at `ret`. -/
def Cpu.context (c : Cpu) (ret : Nat) : Context where
  rsp := c.reg .rsp
  rbx := c.reg .rbx
  rbp := c.reg .rbp
  r12 := c.reg .r12
  r13 := c.reg .r13
  r14 := c.reg .r14
  r15 := c.reg .r15
  ret := ret

/-- The context that `restoreCode` loads from the stack pointer `sp`. -/
def contextAt (m : ByteMem) (sp : Nat) : Context where
  rsp := sp + 56
  rbp := m.load64 sp
  r15 := m.load64 (sp + 8)
  r14 := m.load64 (sp + 16)
  r13 := m.load64 (sp + 24)
  r12 := m.load64 (sp + 32)
  rbx := m.load64 (sp + 40)
  ret := m.load64 (sp + 48)

/-- The words that a call leaves below the stack pointer, the last one first. -/
def Context.frame (x : Context) (m : ByteMem) : ByteMem :=
  ((((((m.store64 (x.rsp - 8) x.ret).store64 (x.rsp - 16) x.rbx).store64 (x.rsp - 24)
    x.r12).store64 (x.rsp - 32) x.r13).store64 (x.rsp - 40) x.r14).store64 (x.rsp - 48)
    x.r15).store64 (x.rsp - 56) x.rbp

variable {c : Cpu} {entry n stack : Nat} {m : ByteMem}

theorem contextAt_congr {m' : ByteMem} {sp : Nat} (h : Agree m m' sp 56) :
    contextAt m sp = contextAt m' sp := by
  have hword : ∀ i, i + 8 ≤ 56 → m.load64 (sp + i) = m'.load64 (sp + i) := by
    intro i hi
    exact load64_congr (h.mono (by omega) (by omega))
  have h0 := hword 0 (by omega)
  rw [Nat.add_zero] at h0
  simp only [contextAt, h0, hword 8 (by omega), hword 16 (by omega), hword 24 (by omega),
    hword 32 (by omega), hword 40 (by omega), hword 48 (by omega)]

/-- The save half: the frame is written below the stack pointer, whose new value is
stored at `old_rsp`. -/
theorem execAll_saveCode (oldRsp newRsp ret : Nat) (hroom : 56 ≤ c.reg .rsp)
    (hsp : c.reg .rsp < 2 ^ 64) :
    let c' := execAll saveCode (((c.set .rdi oldRsp).set .rsi newRsp).push ret)
    c'.reg .rsi = newRsp ∧
      c'.mem = ((c.context ret).frame c.mem).store64 oldRsp (c.reg .rsp - 56) := by
  have h1 : sub64 (c.reg .rsp) 8 = c.reg .rsp - 8 := sub64_of_le (by omega) hsp
  have h2 : sub64 (c.reg .rsp - 8) 8 = c.reg .rsp - 16 := sub64_of_le (by omega) (by omega)
  have h3 : sub64 (c.reg .rsp - 16) 8 = c.reg .rsp - 24 := sub64_of_le (by omega) (by omega)
  have h4 : sub64 (c.reg .rsp - 24) 8 = c.reg .rsp - 32 := sub64_of_le (by omega) (by omega)
  have h5 : sub64 (c.reg .rsp - 32) 8 = c.reg .rsp - 40 := sub64_of_le (by omega) (by omega)
  have h6 : sub64 (c.reg .rsp - 40) 8 = c.reg .rsp - 48 := sub64_of_le (by omega) (by omega)
  have h7 : sub64 (c.reg .rsp - 48) 8 = c.reg .rsp - 56 := sub64_of_le (by omega) (by omega)
  constructor
  · simp [execAll, saveCode, Instr.exec, Cpu.push, Cpu.set]
  · simp [execAll, saveCode, Instr.exec, Cpu.push, Cpu.set, Context.frame, Cpu.context,
      h1, h2, h3, h4, h5, h6, h7]

/-- The pops and `retq` write no memory. -/
theorem mem_restoreCode (c : Cpu) : (execAll restoreCode c).mem = c.mem := by
  simp [execAll, restoreCode, Instr.exec, Cpu.set]

/-- The restore half loads the context that stands at the new stack pointer. -/
theorem execAll_restoreCode (hsp : c.reg .rsi + 56 < 2 ^ 64) :
    let c' := execAll restoreCode c
    c'.context c'.rip = contextAt c.mem (c.reg .rsi) := by
  have hw : ∀ n, n ≤ 56 → wrap64 (c.reg .rsi + n) = c.reg .rsi + n := by
    intro n hn
    exact Nat.mod_eq_of_lt (by omega)
  simp [execAll, restoreCode, Instr.exec, Cpu.set, contextAt, Cpu.context, hw, Nat.add_assoc]

/-- The two halves of a call. -/
theorem contextSwitch_eq (oldRsp newRsp ret : Nat) (c : Cpu) :
    contextSwitch oldRsp newRsp ret c = execAll restoreCode
      (execAll saveCode (((c.set .rdi oldRsp).set .rsi newRsp).push ret)) :=
  foldl_append

/-- Whatever the new stack pointer is, the call writes the caller's frame and stack
pointer only. -/
theorem mem_contextSwitch (oldRsp newRsp ret : Nat) (hroom : 56 ≤ c.reg .rsp)
    (hsp : c.reg .rsp < 2 ^ 64) :
    (contextSwitch oldRsp newRsp ret c).mem =
      ((c.context ret).frame c.mem).store64 oldRsp (c.reg .rsp - 56) := by
  rw [contextSwitch_eq, mem_restoreCode]
  exact (execAll_saveCode oldRsp newRsp ret hroom hsp).2

/-- **`context_switch`** loads the context at `new_rsp` from the memory that results. -/
theorem contextSwitch_spec (oldRsp newRsp ret : Nat) (hroom : 56 ≤ c.reg .rsp)
    (hsp : c.reg .rsp < 2 ^ 64) (hnew : newRsp + 56 < 2 ^ 64) :
    let c' := contextSwitch oldRsp newRsp ret c
    c'.context c'.rip =
      contextAt (((c.context ret).frame c.mem).store64 oldRsp (c.reg .rsp - 56)) newRsp := by
  obtain ⟨hrsi, hmem⟩ := execAll_saveCode oldRsp newRsp ret hroom hsp
  have hrest := execAll_restoreCode (hrsi.symm ▸ hnew)
  rw [hrsi, hmem] at hrest
  rw [contextSwitch_eq]
  exact hrest

/-- The registers are 64 bits wide, and the stack has room for the frame. -/
structure Context.Fits (x : Context) : Prop where
  room : 56 ≤ x.rsp
  rsp : x.rsp < 2 ^ 64
  rbx : x.rbx < 2 ^ 64
  rbp : x.rbp < 2 ^ 64
  r12 : x.r12 < 2 ^ 64
  r13 : x.r13 < 2 ^ 64
  r14 : x.r14 < 2 ^ 64
  r15 : x.r15 < 2 ^ 64
  ret : x.ret < 2 ^ 64

/-- The frame occupies the 56 bytes below the stack pointer. -/
theorem Context.agree_frame {x : Context} {a : Nat} (hroom : 56 ≤ x.rsp)
    (h : x.rsp ≤ a ∨ a + n ≤ x.rsp - 56) : Agree (x.frame m) m a n := by
  have hstep : ∀ (m : ByteMem) (i v : Nat), 8 ≤ i → i ≤ 56 →
      Agree (m.store64 (x.rsp - i) v) m a n := by
    intro m i v h1 h2
    exact agree_store64 (by omega)
  exact (hstep _ 56 _ (by omega) (by omega)).trans <|
    (hstep _ 48 _ (by omega) (by omega)).trans <|
    (hstep _ 40 _ (by omega) (by omega)).trans <|
    (hstep _ 32 _ (by omega) (by omega)).trans <|
    (hstep _ 24 _ (by omega) (by omega)).trans <|
    (hstep _ 16 _ (by omega) (by omega)).trans (hstep _ 8 _ (by omega) (by omega))

/-- **What is popped is what was pushed.** -/
theorem Context.contextAt_frame {x : Context} (hx : x.Fits) (m : ByteMem) :
    contextAt (x.frame m) (x.rsp - 56) = x := by
  have hroom := hx.room
  have hpos : ∀ i, i ≤ 56 → x.rsp - 56 + i = x.rsp - (56 - i) := by
    omega
  -- a word is read through the stores made after it, all of them below it
  have hskip : ∀ (m : ByteMem) (i j v : Nat), i + 8 ≤ j → j ≤ 56 →
      (m.store64 (x.rsp - j) v).load64 (x.rsp - i) = m.load64 (x.rsp - i) := by
    intro m i j v h1 h2
    exact load64_store64_of_disjoint (by omega)
  simp only [contextAt, Context.frame]
  ext
  · show x.rsp - 56 + 56 = x.rsp
    omega
  · simp only [hpos 40 (by omega), hskip _ 16 56 _ (by omega) (by omega),
      hskip _ 16 48 _ (by omega) (by omega), hskip _ 16 40 _ (by omega) (by omega),
      hskip _ 16 32 _ (by omega) (by omega), hskip _ 16 24 _ (by omega) (by omega)]
    exact load64_store64_self hx.rbx
  · exact load64_store64_self hx.rbp
  · simp only [hpos 32 (by omega), hskip _ 24 56 _ (by omega) (by omega),
      hskip _ 24 48 _ (by omega) (by omega), hskip _ 24 40 _ (by omega) (by omega),
      hskip _ 24 32 _ (by omega) (by omega)]
    exact load64_store64_self hx.r12
  · simp only [hpos 24 (by omega), hskip _ 32 56 _ (by omega) (by omega),
      hskip _ 32 48 _ (by omega) (by omega), hskip _ 32 40 _ (by omega) (by omega)]
    exact load64_store64_self hx.r13
  · simp only [hpos 16 (by omega), hskip _ 40 56 _ (by omega) (by omega),
      hskip _ 40 48 _ (by omega) (by omega)]
    exact load64_store64_self hx.r14
  · simp only [hpos 8 (by omega), hskip _ 48 56 _ (by omega) (by omega)]
    exact load64_store64_self hx.r15
  · simp only [hpos 48 (by omega), hskip _ 8 56 _ (by omega) (by omega),
      hskip _ 8 48 _ (by omega) (by omega), hskip _ 8 40 _ (by omega) (by omega),
      hskip _ 8 32 _ (by omega) (by omega), hskip _ 8 24 _ (by omega) (by omega),
      hskip _ 8 16 _ (by omega) (by omega)]
    exact load64_store64_self hx.ret

/-! ## The first entry -/

/-- The loop of `proc_create` clears the words it has passed. -/
theorem load64_zeros (m : ByteMem) (sp : Nat) {i : Nat} (hi : i < n) :
    ((List.range n).foldl (fun m i => m.store64 (sp + 8 * i) 0) m).load64 (sp + 8 * i) = 0 := by
  induction n with
  | zero => exact absurd hi (Nat.not_lt_zero i)
  | succ n ih =>
    rw [range_succ, foldl_append, foldl_cons, foldl_nil]
    by_cases h : i = n
    · rw [h]
      exact load64_store64_self (by norm_num)
    · rw [load64_store64_of_disjoint (by omega)]
      exact ih (by omega)

/-- The seventh word of the frame, which `retq` takes, is one of the zeros; the entry is
the first word, which goes to `rbp`. -/
theorem contextAt_procFrame (hentry : entry < 2 ^ 64) (m : ByteMem) :
    (contextAt (procFrame entry stack m) (stack + procStackSize - 128)).ret = 0 ∧
      (contextAt (procFrame entry stack m) (stack + procStackSize - 128)).rbp = entry := by
  have hsize : procStackSize = 16384 := rfl
  constructor
  · have hpos : stack + procStackSize - 128 + 48 = stack + procStackSize - 8 * 15 + 8 * 5 := by
      omega
    show (procFrame entry stack m).load64 (stack + procStackSize - 128 + 48) = 0
    rw [hpos, procFrame, load64_store64_of_disjoint (by omega)]
    exact load64_zeros m _ (by omega)
  · have hpos : stack + procStackSize - 128 = stack + procStackSize - 8 * 15 - 8 := by omega
    rw [hpos]
    exact load64_store64_self hentry

theorem schedulerAdd_rsp (s : Procs) (p q : Slot) :
    ((schedulerAdd s p).table q).rsp = (s.table q).rsp := by
  have hset : ∀ (s : Procs) (p : Slot) (f : Process → Process), (∀ x, (f x).rsp = x.rsp) →
      ((s.set p f).table q).rsp = (s.table q).rsp := by
    intro s p f hf
    by_cases h : q = p
    · rw [h]
      simp [Procs.set, hf]
    · simp [Procs.set, h]
  unfold schedulerAdd
  split
  · rfl
  · show (((s.set p _).setNextOf _ _).table q).rsp = _
    unfold Procs.setNextOf
    split
    · refine (hset _ _ _ ?_).trans (hset _ _ _ ?_)
      · intro x
        rfl
      · intro x
        rfl
    · exact hset s p (fun x => { x with next := none, prev := s.readyQueueTail }) fun _ => rfl

theorem procCreate_rsp {name : CString} {cr3 : Nat} {s s' : Procs} {slot : Slot}
    (h : procCreate name entry stack cr3 s = (some slot, s'))
    (hstack : stack + procStackSize < 2 ^ 64) :
    (s'.table slot).rsp = stack + procStackSize - 128 := by
  unfold procCreate at h
  split at h
  · exact absurd (congrArg Prod.fst h) (by simp)
  · dsimp only at h
    split at h
    · exact absurd (congrArg Prod.fst h) (by simp)
    · obtain ⟨hslot, rfl⟩ := Prod.mk.inj h
      obtain rfl := Option.some.inj hslot
      rw [schedulerAdd_rsp]
      simp only [Procs.set, update_self, wrap64_of_lt hstack]
      omega

/-- A caller whose own frame and saved stack pointer lie off the new frame enters the
process at address 0. -/
theorem first_entry_rip {oldRsp ret : Nat}
    (hroom : 56 ≤ c.reg .rsp) (hsp : c.reg .rsp < 2 ^ 64) (hentry : entry < 2 ^ 64)
    (hstack : stack + procStackSize < 2 ^ 64) (hmem : c.mem = procFrame entry stack m)
    (hoff : c.reg .rsp ≤ stack ∨ stack + procStackSize ≤ c.reg .rsp - 56)
    (hold : oldRsp + 8 ≤ stack ∨ stack + procStackSize ≤ oldRsp) :
    (contextSwitch oldRsp (stack + procStackSize - 128) ret c).rip = 0 := by
  have hsize : procStackSize = 16384 := rfl
  have hctx := contextSwitch_spec oldRsp (stack + procStackSize - 128) ret hroom hsp
    (by omega)
  have hagree : Agree (((c.context ret).frame c.mem).store64 oldRsp (c.reg .rsp - 56))
      c.mem (stack + procStackSize - 128) 56 :=
    (agree_store64 (by omega)).trans (Context.agree_frame hroom (by
      show c.reg .rsp ≤ _ ∨ _ ≤ c.reg .rsp - 56
      omega))
  rw [contextAt_congr hagree, hmem] at hctx
  exact (congrArg Context.ret hctx).trans (contextAt_procFrame hentry m).1

/-! ## Many processes -/

/-- Where the processes have their stacks and the fields `rsp` of their table entries.
Nothing of this lies at address 0, where a switch without `old_rsp` stores. -/
structure Layout (ι : Type) where
  lo : ι → Nat
  hi : ι → Nat
  field : ι → Nat
  hi_lt : ∀ p, hi p < 2 ^ 64
  lo_pos : ∀ p, 8 ≤ lo p
  field_pos : ∀ p, 8 ≤ field p
  stackApart : ∀ p q, p ≠ q → hi p ≤ lo q ∨ hi q ≤ lo p
  fieldApart : ∀ p q, p ≠ q → field p + 8 ≤ field q ∨ field q + 8 ≤ field p
  apart : ∀ p q, field p + 8 ≤ lo q ∨ hi q ≤ field p

/-- The machine, the process that runs, and the contexts in which the others were
switched out. -/
structure Switching (ι : Type) where
  cpu : Cpu
  current : ι
  out : ι → Option Context

inductive SwitchEvent (ι : Type)
  | run
  | switch (next : ι)
  | leave (next : ι)

section Many

variable {ι : Type} (L : Layout ι)

/-- The caller's context when it calls `context_switch`, on its own stack. -/
def Calls (s : Switching ι) (ret : Nat) : Prop :=
  (s.cpu.context ret).Fits ∧ L.lo s.current + 56 ≤ s.cpu.reg .rsp ∧
    s.cpu.reg .rsp ≤ L.hi s.current

/-- One step: the running process computes, and leaves alone the stacks and fields of the
processes that are switched out (it may build the frame of a new one), or calls
`context_switch`, with its own field or, when its entry is not in use any more, with
`NULL`. -/
inductive SwitchStep [DecidableEq ι] : Switching ι → SwitchEvent ι → Switching ι → Prop
  | run {s : Switching ι} {cpu : Cpu}
      (hstacks : ∀ p, s.out p ≠ none → Agree cpu.mem s.cpu.mem (L.lo p) (L.hi p - L.lo p))
      (hfields : ∀ p, s.out p ≠ none → Agree cpu.mem s.cpu.mem (L.field p) 8) :
      SwitchStep s .run { s with cpu := cpu }
  | switch {s : Switching ι} {next : ι} {ret : Nat} (hne : next ≠ s.current)
      (hcall : Calls L s ret) :
      SwitchStep s (.switch next)
        { cpu := contextSwitch (L.field s.current) (s.cpu.mem.load64 (L.field next)) ret s.cpu
          current := next
          out := update (update s.out s.current
            (some (s.cpu.context ret))) next none }
  | leave {s : Switching ι} {next : ι} {ret : Nat} (hne : next ≠ s.current)
      (hcall : Calls L s ret) :
      SwitchStep s (.leave next)
        { cpu := contextSwitch 0 (s.cpu.mem.load64 (L.field next)) ret s.cpu
          current := next
          out := update (update s.out s.current none) next none }

/-- The memory holds the context of a process that was switched out. -/
structure Suspended (m : ByteMem) (p : ι) (x : Context) : Prop where
  fits : x.Fits
  low : L.lo p + 56 ≤ x.rsp
  high : x.rsp ≤ L.hi p
  field : m.load64 (L.field p) = x.rsp - 56
  frame : contextAt m (x.rsp - 56) = x

/-- Every context that was switched out is kept, and the running process has none. -/
def SwitchInv (s : Switching ι) : Prop :=
  s.out s.current = none ∧ ∀ p x, s.out p = some x → Suspended L s.cpu.mem p x

variable {L}

variable {oldRsp ret : Nat} {s : Switching ι} {x : Context}

/-- A suspended process does not notice writes off its stack and its field. -/
theorem Suspended.congr {m m' : ByteMem} {p : ι} (h : Suspended L m p x)
    (hstack : Agree m' m (x.rsp - 56) 56) (hfield : Agree m' m (L.field p) 8) :
    Suspended L m' p x where
  fits := h.fits
  low := h.low
  high := h.high
  field := (load64_congr hfield).trans h.field
  frame := (contextAt_congr hstack).trans h.frame

/-- What a call writes, on the caller's stack and at `old_rsp`, is off the stacks and
fields of the others. -/
theorem Calls.agree {a n : Nat} (hcall : Calls L s ret)
    (hstack : L.hi s.current ≤ a ∨ a + n ≤ L.lo s.current)
    (hold : oldRsp + 8 ≤ a ∨ a + n ≤ oldRsp) :
    Agree (((s.cpu.context ret).frame s.cpu.mem).store64 oldRsp (s.cpu.reg .rsp - 56))
      s.cpu.mem a n := by
  obtain ⟨hfits, hlow, hhigh⟩ := hcall
  refine (agree_store64 hold).trans (Context.agree_frame hfits.room ?_)
  show s.cpu.reg .rsp ≤ a ∨ a + n ≤ s.cpu.reg .rsp - 56
  omega

/-- The other processes stay suspended through a call. -/
theorem Suspended.call (hcall : Calls L s ret) {p : ι}
    (hp : p ≠ s.current) (h : Suspended L s.cpu.mem p x)
    (hold : oldRsp = L.field s.current ∨ oldRsp = 0) :
    Suspended L (((s.cpu.context ret).frame s.cpu.mem).store64 oldRsp
      (s.cpu.reg .rsp - 56)) p x := by
  have hlow := h.low
  have hhigh := h.high
  have hstacks := L.stackApart p s.current hp
  have hfields := L.fieldApart p s.current hp
  have hpos := L.lo_pos p
  have hfpos := L.field_pos p
  have h1 := L.apart p s.current
  have h2 := L.apart s.current p
  refine h.congr (hcall.agree (by omega) ?_) (hcall.agree (by omega) ?_)
  · rcases hold with rfl | rfl <;> omega
  · rcases hold with rfl | rfl <;> omega

theorem Calls.suspended (hcall : Calls L s ret) :
    Suspended L (((s.cpu.context ret).frame s.cpu.mem).store64 (L.field s.current)
      (s.cpu.reg .rsp - 56)) s.current (s.cpu.context ret) := by
  obtain ⟨hfits, hlow, hhigh⟩ := hcall
  have happart := L.apart s.current s.current
  have hsp := hfits.rsp
  exact {
    fits := hfits
    low := hlow
    high := hhigh
    field := load64_store64_self (by
      have : s.cpu.reg .rsp < 2 ^ 64 := hsp
      omega)
    frame := by
      refine (contextAt_congr (agree_store64 ?_)).trans (Context.contextAt_frame hfits _)
      show _ ≤ s.cpu.reg .rsp - 56 ∨ s.cpu.reg .rsp - 56 + 56 ≤ _
      omega }

theorem SwitchStep.inv [DecidableEq ι] {s' : Switching ι} {e : SwitchEvent ι}
    (hinv : SwitchInv L s) (h : SwitchStep L s e s') : SwitchInv L s' := by
  obtain ⟨hcur, hout⟩ := hinv
  cases h with
  | run hstacks hfields =>
    refine ⟨hcur, ?_⟩
    intro p x hx
    have hp : s.out p ≠ none := Option.ne_none_iff_exists'.mpr ⟨x, hx⟩
    have h := hout p x hx
    have hlow := h.low
    have hhigh := h.high
    exact h.congr ((hstacks p hp).mono (by omega) (by omega)) (hfields p hp)
  | @switch next ret hne hcall =>
    refine ⟨update_self .., ?_⟩
    intro p x hx
    dsimp only at hx
    by_cases hpn : p = next
    · rw [hpn] at hx
      exact absurd hx (by simp)
    rw [update_of_ne hpn] at hx
    rw [mem_contextSwitch _ _ _ hcall.1.room hcall.1.rsp]
    by_cases hpc : p = s.current
    · subst hpc
      rw [update_self] at hx
      obtain rfl := Option.some.inj hx
      exact hcall.suspended
    · rw [update_of_ne hpc] at hx
      exact (hout p x hx).call hcall hpc (.inl rfl)
  | @leave next ret hne hcall =>
    refine ⟨update_self .., ?_⟩
    intro p x hx
    dsimp only at hx
    by_cases hpn : p = next
    · rw [hpn] at hx
      exact absurd hx (by simp)
    rw [update_of_ne hpn] at hx
    by_cases hpc : p = s.current
    · rw [hpc] at hx
      exact absurd hx (by simp)
    rw [update_of_ne hpc] at hx
    rw [mem_contextSwitch _ _ _ hcall.1.room hcall.1.rsp]
    exact (hout p x hx).call hcall hpc (.inr rfl)

/-- A call that switches to a suspended process resumes it. -/
theorem Suspended.resume {next : ι}
    (hcall : Calls L s ret) (hne : next ≠ s.current) (h : Suspended L s.cpu.mem next x)
    (hold : oldRsp = L.field s.current ∨ oldRsp = 0) :
    let c := contextSwitch oldRsp (s.cpu.mem.load64 (L.field next)) ret s.cpu
    c.context c.rip = x := by
  have hsp : x.rsp < 2 ^ 64 := h.fits.rsp
  have hctx := contextSwitch_spec oldRsp (x.rsp - 56) ret hcall.1.room hcall.1.rsp
    (by omega)
  rw [h.field]
  exact hctx.trans (h.call hcall hne hold).frame

/-- The step by which a process is switched to. -/
def SwitchEvent.enters : SwitchEvent ι → ι → Prop
  | .run, _ => False
  | .switch next, p => next = p
  | .leave next, p => next = p

end Many

/-- **Context switches.** A process made by `proc_create` is entered at `e` only if
`e = 0`; but in every run from a state in which no process is switched out yet, a process
that was switched out and is switched to goes on after its own call, with the registers
and the stack pointer that it had there. -/
theorem context_switch_correct {ι : Type} [DecidableEq ι] (L : Layout ι) :
    (∀ (name : CString) (e stack cr3 oldRsp ret : Nat) (s s' : Procs) (slot : Slot)
        (c : Cpu) (m : ByteMem),
      procCreate name e stack cr3 s = (some slot, s') → e < 2 ^ 64 →
      stack + procStackSize < 2 ^ 64 → c.mem = procFrame e stack m →
      56 ≤ c.reg .rsp → c.reg .rsp < 2 ^ 64 →
      (c.reg .rsp ≤ stack ∨ stack + procStackSize ≤ c.reg .rsp - 56) →
      (oldRsp + 8 ≤ stack ∨ stack + procStackSize ≤ oldRsp) →
      ((contextSwitch oldRsp (s'.table slot).rsp ret c).rip = e ↔ e = 0)) ∧
    (∀ (s0 s : Switching ι) (es : List (SwitchEvent ι)),
      (∀ p, s0.out p = none) → Run (SwitchStep L) s0 es s →
      ∀ (p : ι) (x : Context) (e : SwitchEvent ι) (s' : Switching ι), s.out p = some x →
        e.enters p → SwitchStep L s e s' → s'.cpu.context s'.cpu.rip = x) := by
  constructor
  · intro name e stack cr3 oldRsp ret s s' slot c m hcreate he hstack hmem hroom hsp hoff hold
    rw [procCreate_rsp hcreate hstack, first_entry_rip hroom hsp he hstack hmem hoff hold]
    exact eq_comm
  · intro s0 s es hnone hrun p x e s' hx hent hstep
    have h0 : SwitchInv L s0 := by
      refine ⟨hnone _, ?_⟩
      intro q y hy
      exact absurd ((hnone q).symm.trans hy) (by simp)
    have hinv := hrun.invariant (I := SwitchInv L) (fun _ _ _ hs h => h.inv hs) h0
    have hsus := hinv.2 p x hx
    cases hstep with
    | run => exact hent.elim
    | switch hne hcall =>
      obtain rfl := hent
      exact hsus.resume hcall hne (.inl rfl)
    | leave hne hcall =>
      obtain rfl := hent
      exact hsus.resume hcall hne (.inr rfl)

/-- Two processes, with their fields below their stacks. -/
def twoStacks : Layout Bool where
  lo p := if p then 0x20000 else 0x10000
  hi p := if p then 0x24000 else 0x14000
  field p := if p then 0x1008 else 0x1000
  hi_lt := by decide
  lo_pos := by decide
  field_pos := by decide
  stackApart := by decide
  fieldApart := by decide
  apart := by decide

/-- A machine whose registers all hold `v`. -/
def uniform (v : Nat) (m : ByteMem) : Cpu := ⟨fun _ => v, 0, m⟩

theorem fits_uniform {v ret : Nat} (m : ByteMem) (hv : 56 ≤ v) (hlt : v < 2 ^ 64)
    (hret : ret < 2 ^ 64) : ((uniform v m).context ret).Fits :=
  ⟨hv, hlt, hlt, hlt, hlt, hlt, hlt, hlt, hret⟩

/-- A process of no name with the given entry, made on an empty table. -/
def firstProcess (entry : Nat) : Option Slot × Procs :=
  procCreate .empty entry 0x20000 0 Procs.bss

/-- One process switches to the other and back; and a process whose entry is 0 is
entered there. -/
theorem context_switch_correct_back :
    (∃ s s' : Switching Bool,
      Run (SwitchStep twoStacks) ⟨uniform 0x13000 fun _ => 0, false, fun _ => none⟩
        [.switch true, .run] s ∧
      SwitchStep twoStacks s (.switch false) s' ∧
      s'.cpu.context s'.cpu.rip = (uniform 0x13000 fun _ => 0).context 7) ∧
    (contextSwitch 0x1000 ((firstProcess 0).2.table 1).rsp 7
      (uniform 0x13000 (procFrame 0 0x20000 fun _ => 0))).rip = 0 := by
  have hlaw := context_switch_correct twoStacks
  constructor
  · obtain ⟨s1, hout, hcur, hx⟩ : ∃ s1, SwitchStep twoStacks
        ⟨uniform 0x13000 fun _ => 0, false, fun _ => none⟩ (.switch true) s1 ∧
        s1.current = true ∧ s1.out false = some ((uniform 0x13000 fun _ => 0).context 7) :=
      ⟨_, .switch (by decide) ⟨fits_uniform _ (by decide) (by decide) (by decide),
        by decide, by decide⟩, rfl, rfl⟩
    -- the other process runs on its own stack before it switches back
    obtain ⟨s2, hs2⟩ : ∃ s2 : Switching Bool,
        s2 = { s1 with cpu := uniform 0x23000 s1.cpu.mem } := ⟨_, rfl⟩
    have hrun : Run (SwitchStep twoStacks)
        ⟨uniform 0x13000 fun _ => 0, false, fun _ => none⟩ [.switch true, .run] s2 := by
      refine .cons hout (.cons ?_ (.nil _))
      rw [hs2]
      exact .run (fun _ _ => Agree.refl _ _ _) (fun _ _ => Agree.refl _ _ _)
    have hcall : Calls twoStacks s2 9 := by
      rw [hs2]
      refine ⟨fits_uniform _ (by decide) (by decide) (by decide), ?_, ?_⟩
      · show twoStacks.lo s1.current + 56 ≤ 0x23000
        rw [hcur]
        decide
      · show 0x23000 ≤ twoStacks.hi s1.current
        rw [hcur]
        decide
    have hne : false ≠ s2.current := by
      rw [hs2]
      rw [hcur]
      decide
    have hx2 : s2.out false = some ((uniform 0x13000 fun _ => 0).context 7) := by
      rw [hs2]
      exact hx
    have hback := SwitchStep.switch hne hcall
    exact ⟨_, _, hrun, hback, hlaw.2 _ _ _ (fun _ => rfl) hrun false _ (.switch false) _ hx2 rfl
      hback⟩
  · have hcreate : firstProcess 0 = (some 1, (firstProcess 0).2) :=
      Prod.ext (by decide +kernel) rfl
    exact (hlaw.1 _ 0 0x20000 0 0x1000 7 _ _ 1 _ _ hcreate (by decide) (by decide) rfl
      (by decide) (by decide) (.inl (by decide)) (.inl (by decide))).mpr rfl

/-- A process with entry `0x1000`: the switch to it goes to address 0, with the entry in
`rbp`. -/
theorem new_process_entered_at_zero :
    (firstProcess 0x1000).1 = some 1 ∧
      (contextSwitch 0x1000 ((firstProcess 0x1000).2.table 1).rsp 7
        (uniform 0x13000 (procFrame 0x1000 0x20000 fun _ => 0))).rip = 0 ∧
      (contextSwitch 0x1000 ((firstProcess 0x1000).2.table 1).rsp 7
        (uniform 0x13000 (procFrame 0x1000 0x20000 fun _ => 0))).reg .rbp = 0x1000 := by
  decide +kernel

end GosKernel.Proc
