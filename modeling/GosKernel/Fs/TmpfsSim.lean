import GosKernel.Fs.Tmpfs
import GosKernel.Mm.HeapSim

/-!
# Files over other machines

Like the heap, the calls on files do over one machine what they do over every other that answers in
the same way (`MachineSim`), and with more fuel too.
-/

namespace GosKernel.Fs

open Exec Mm

variable {σ τ : Type} {R : σ → τ → Prop}

/-- The files are the same, and the heaps are related. -/
structure FsRel (R : σ → τ → Prop) (s : FsState σ) (u : FsState τ) : Prop where
  openFiles : s.openFiles = u.openFiles
  nodes : s.nodes = u.nodes
  files : s.fs.nodes = u.fs.nodes
  heap : HeapRel R s.fs.heap u.fs.heap

theorem FsRel.eq {s u : FsState σ} (h : FsRel Eq s u) : s = u := by
  obtain ⟨files, nodes, ⟨tmpfs, heap⟩⟩ := s
  obtain ⟨files', nodes', ⟨tmpfs', heap'⟩⟩ := u
  obtain ⟨rfl, rfl, rfl, hheap⟩ := h
  rw [show heap = heap' from hheap.eq]

/-- What returns over one machine, returns over the other with all fuel from then on. -/
theorem FsRel.converges {α : Type} {c : Nat → Exec (FsState σ) α} {d : Nat → Exec (FsState τ) α}
    {s s' : FsState σ} {u : FsState τ} {a : α} {n : Nat} (hrel : FsRel R s u)
    (h : ∀ n, Sim (FsRel R) (c n) (d n)) (hmono : ∀ {n m : Nat}, n ≤ m → Sim (FsRel Eq) (d n) (d m))
    (hret : Returns (c n) s a s') : ∃ u', Converges d u a u' ∧ FsRel R s' u' := by
  refine Sim.converges h (fun hnm => ?_) hrel hret
  rintro s _ a s' rfl hret
  obtain ⟨t, hd, heq⟩ := hmono hnm s s a s' ⟨rfl, rfl, rfl, .refl _⟩ hret
  exact ⟨t, hd, heq.eq⟩

theorem sim_onHeap {α : Type} {c : Exec (HeapState σ) α} {d : Exec (HeapState τ) α}
    (h : Sim (HeapRel R) c d) : Sim (FsRel R) (onHeap c) (onHeap d) := by
  intro s u a s' hrel hret
  obtain ⟨r, hc, heq⟩ := Option.map_eq_some_iff.mp hret
  cases heq
  obtain ⟨g, hd, hrel'⟩ := h _ _ _ _ hrel.heap hc
  exact ⟨_, onHeap_returns hd, hrel.openFiles, hrel.nodes, hrel.files, hrel'⟩

theorem sim_setTmpfsNode (t : Nat) (f : TmpfsNode → TmpfsNode) :
    Sim (FsRel R) (setTmpfsNode t f) (setTmpfsNode t f) :=
  .update fun s u hrel => ⟨hrel.openFiles, hrel.nodes, by rw [hrel.files], hrel.heap⟩

theorem sim_tmpfsPrivate (node : Option Nat) :
    Sim (FsRel R) (tmpfsPrivate node) (tmpfsPrivate node) :=
  .read fun s u hrel => by rw [hrel.nodes]

theorem sim_tmpfsSetSize (node : Option Nat) (t last : Nat) :
    Sim (FsRel R) (tmpfsSetSize node t last) (tmpfsSetSize node t last) := by
  refine (sim_setTmpfsNode t _).bind fun _ => ?_
  cases node with
  | none => exact .pure ()
  | some n =>
    exact .update fun s u hrel => ⟨hrel.openFiles, by rw [hrel.nodes, hrel.files], hrel.files, hrel.heap⟩

end GosKernel.Fs

namespace GosKernel.Mm.MachineSim

open Exec Fs

variable {σ τ : Type} {R : σ → τ → Prop} {M : PagedMachine σ} {N : PagedMachine τ}
  (h : MachineSim M N R)

include h

theorem copyOut (src n i : Nat) : Sim (FsRel R) (Fs.copyOut M src n i) (Fs.copyOut N src n i) := by
  induction n generalizing i with
  | zero => exact .pure []
  | succ n ih =>
    exact (sim_onHeap (sim_onMach (h.load8 _))).bind fun byte => (ih (i + 1)).bind fun _ => .pure _

theorem copyIn (dest : Nat) (buf : Nat → UInt8) (n i : Nat) :
    Sim (FsRel R) (Fs.copyIn M dest buf n i) (Fs.copyIn N dest buf n i) := by
  induction n generalizing i with
  | zero => exact .pure ()
  | succ n ih => exact (sim_onHeap (sim_onMach (h.store8 _ _))).bind fun _ => ih (i + 1)

theorem tmpfsVfsRead (node : Option Nat) (offset count : Nat) :
    Sim (FsRel R) (Fs.tmpfsVfsRead M node offset count) (Fs.tmpfsVfsRead N node offset count) := by
  refine (sim_tmpfsPrivate node).bind fun data => ?_
  cases data with
  | none => exact .pure _
  | some t =>
    refine (Sim.read fun s u hrel => by rw [hrel.files]).bind fun tn => .ite (.pure _) ?_
    exact (h.copyOut _ _ _).bind fun _ => .pure _

theorem tmpfsGrow {n m : Nat} (hnm : n ≤ m) (t need : Nat) :
    Sim (FsRel R) (Fs.tmpfsGrow M n t need) (Fs.tmpfsGrow N m t need) := by
  refine (Sim.read fun s u hrel => by rw [hrel.files]).bind fun tn => .ite ?_ (.pure 0)
  cases hcap : tmpfsNewCap need n (tmpfsFirstCap tn.capacity) with
  | none => exact .stop _
  | some c =>
    rw [tmpfsNewCap_mono hcap hnm]
    refine .ite (.pure _) ((sim_onHeap (h.krealloc hnm _ _)).bind fun r => .ite (.pure _) ?_)
    exact (sim_setTmpfsNode t _).bind fun _ => .pure 0

theorem tmpfsVfsWrite {n m : Nat} (hnm : n ≤ m) (node : Option Nat) (offset : Nat)
    (buf : Nat → UInt8) (count : Nat) :
    Sim (FsRel R) (Fs.tmpfsVfsWrite M n node offset buf count)
      (Fs.tmpfsVfsWrite N m node offset buf count) := by
  refine (sim_tmpfsPrivate node).bind fun data => ?_
  cases data with
  | none => exact .pure _
  | some t =>
    refine (h.tmpfsGrow hnm t _).bind fun err => .ite (.pure _) ?_
    refine (Sim.read fun s u hrel => by rw [hrel.files]).bind fun tn => ?_
    exact (h.copyIn _ _ _ _).bind fun _ => (sim_tmpfsSetSize node t _).bind fun _ => .pure _

theorem write_converges {s s' : FsState σ} {u : FsState τ} {ret : Int} {n offset count : Nat}
    {node : Option Nat} {buf : Nat → UInt8} (hrel : FsRel R s u)
    (hret : Returns (Fs.tmpfsVfsWrite M n node offset buf count) s ret s') :
    ∃ u', Converges (fun fuel => Fs.tmpfsVfsWrite N fuel node offset buf count) u ret u' ∧
      FsRel R s' u' :=
  hrel.converges (fun _ => h.tmpfsVfsWrite le_rfl _ _ _ _)
    (fun hnm => (MachineSim.refl N).tmpfsVfsWrite hnm _ _ _ _) hret

end GosKernel.Mm.MachineSim
