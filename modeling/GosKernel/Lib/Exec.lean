import Mathlib.Init

/-!
# Computations that may stop

`Exec σ α` is a computation over the machine state `σ` that either returns a value
with the new state or stops: the processor halts, takes a fault no handler resumes
from, or the fuel of a loop runs out. The three are not told apart, because a
computation that stopped has no state to say anything about.

- `Exec.Returns c s a s'`: run from `s`, the computation `c` returns `a` in `s'`;
- `Exec.Returns.bind_eq`: symbolic execution of a sequence, one call at a time;
- `Exec.returns_bind`: the converse, peeling the first call off a run;
- `Exec.Converges c s a s'`: the same for a computation that takes fuel;
- `Exec.Sim R c d`: whatever `c` returns, `d` returns too, as far as `R` can tell; with
  `R` the equality, `d` may be `c` with more fuel;
- `Exec.Triple P c Q`: total correctness. From every state in `P`, `c` returns, with a
  result and a state in `Q`.
-/

namespace GosKernel

universe u

/-- State-passing computations that may stop. -/
abbrev Exec (σ : Type) (α : Type) := StateT σ Option α

theorem fuel_succ {n fuel : Nat} (h : n < fuel) : ∃ k, fuel = k + 1 :=
  Nat.exists_eq_add_one_of_ne_zero (Nat.ne_zero_of_lt h)

namespace Exec

variable {σ α β : Type}

/-- Stop here. -/
def stop : Exec σ α := fun _ => none

/-- Read one component of the state. -/
def read (f : σ → α) : Exec σ α := fun s => some (f s, s)

/-- Update the state. -/
def update (f : σ → σ) : Exec σ Unit := fun s => some ((), f s)

/-- Run from `s`, `c` returns `a` in state `s'`. -/
def Returns (c : Exec σ α) (s : σ) (a : α) (s' : σ) : Prop := c s = some (a, s')

@[simp] theorem pure_apply (a : α) (s : σ) : (pure a : Exec σ α) s = some (a, s) := rfl

@[simp] theorem bind_apply (c : Exec σ α) (f : α → Exec σ β) (s : σ) :
    (c >>= f) s = (c s).bind fun r => f r.1 r.2 := rfl

@[simp] theorem map_apply (c : Exec σ α) (f : α → β) (s : σ) :
    (f <$> c) s = (c s).map fun r => (f r.1, r.2) := by
  show (c s >>= fun r => pure (f r.1, r.2)) = _
  cases c s <;> rfl

@[simp] theorem stop_apply (s : σ) : (stop : Exec σ α) s = none := rfl

@[simp] theorem read_apply (f : σ → α) (s : σ) : read f s = some (f s, s) := rfl

theorem read_bind (f : σ → α) (g : α → Exec σ β) (s : σ) : (read f >>= g) s = g (f s) s := rfl

theorem update_bind (f : σ → σ) (g : Unit → Exec σ β) (s : σ) :
    (update f >>= g) s = g () (f s) := rfl

theorem read_id_bind (g : σ → Exec σ β) (s : σ) : (read id >>= g) s = g s s := rfl

@[simp] theorem update_apply (f : σ → σ) (s : σ) : update f s = some ((), f s) := rfl

@[simp] theorem ite_apply (p : Prop) [Decidable p] (c d : Exec σ α) (s : σ) :
    (if p then c else d) s = if p then c s else d s := by
  split <;> rfl

variable {a : α} {b : β} {c : Exec σ α} {f : α → Exec σ β} {s s' s1 s2 : σ}

/-- Execute the first call of a sequence. -/
theorem Returns.bind_eq (h : Returns c s a s') : (c >>= f) s = f a s' := by
  rw [bind_apply, show c s = some (a, s') from h]
  rfl

/-- A sequence stops where its first call stops. -/
theorem bind_of_stops (h : c s = none) : (c >>= f) s = none := by
  rw [bind_apply, h]
  rfl

/-- A sequence that returns went through its first call. -/
theorem returns_bind
    (h : Returns (c >>= f) s b s') : ∃ a s1, Returns c s a s1 ∧ Returns (f a) s1 b s' := by
  cases hc : c s with
  | none =>
    rw [Returns, bind_apply, hc] at h
    cases h
  | some r =>
    rw [Returns, bind_apply, hc] at h
    exact ⟨r.1, r.2, hc, h⟩

theorem returns_map {f : α → β}
    (h : Returns (f <$> c) s b s') : ∃ a, Returns c s a s' ∧ b = f a := by
  cases hc : c s with
  | none =>
    rw [Returns, map_apply, hc] at h
    cases h
  | some r =>
    rw [Returns, map_apply, hc] at h
    cases h
    exact ⟨r.1, hc, rfl⟩

/-- A computation returns at most one result. -/
theorem Returns.unique {b : α} (h1 : Returns c s a s1)
    (h2 : Returns c s b s2) : a = b ∧ s1 = s2 := by
  have h := h1.symm.trans h2
  simpa using h

/-! ## Fuel -/

/-- With any sufficient fuel, `c` run from `s` returns `a` in `s'`. -/
def Converges (c : Nat → Exec σ α) (s : σ) (a : α) (s' : σ) : Prop :=
  ∃ n, ∀ fuel, n ≤ fuel → Returns (c fuel) s a s'

theorem Converges.unique {c : Nat → Exec σ α} {b : α}
    (h1 : Converges c s a s1) (h2 : Converges c s b s2) : a = b ∧ s1 = s2 := by
  obtain ⟨n1, h1⟩ := h1
  obtain ⟨n2, h2⟩ := h2
  exact (h1 (n1 + n2) (by omega)).unique (h2 (n1 + n2) (by omega))

/-- The fuel of one round. -/
theorem converges_succ_iff {c d : Nat → Exec σ α} {n : Nat}
    (h : ∀ fuel, n ≤ fuel → c (fuel + 1) s = d fuel s) :
    Converges c s a s' ↔ Converges d s a s' := by
  constructor
  · rintro ⟨m, hm⟩
    exact ⟨n + m, fun fuel hfuel => (h fuel (by omega)).symm.trans (hm (fuel + 1) (by omega))⟩
  · rintro ⟨m, hm⟩
    refine ⟨n + m + 1, fun fuel hfuel => ?_⟩
    obtain ⟨k, rfl⟩ := fuel_succ hfuel
    exact (h k (by omega)).trans (hm k (by omega))

/-- A computation without fuel. -/
theorem Returns.converges (h : Returns c s a s') : Converges (fun _ => c) s a s' :=
  ⟨0, fun _ _ => h⟩

theorem Converges.bind {c : Nat → Exec σ α} {f : Nat → α → Exec σ β}
    (h : Converges c s a s1) (h' : Converges (fun fuel => f fuel a) s1 b s2) :
    Converges (fun fuel => c fuel >>= f fuel) s b s2 := by
  obtain ⟨n, h⟩ := h
  obtain ⟨m, h'⟩ := h'
  refine ⟨n + m, fun fuel hfuel => ?_⟩
  exact (h fuel (by omega)).bind_eq.trans (h' fuel (by omega))

/-! ## Simulation -/

section Sim

variable {τ : Type} {R : σ → τ → Prop}

/-- Whatever `c` returns, `d` returns from a related state, in a related state. -/
def Sim (R : σ → τ → Prop) (c : Exec σ α) (d : Exec τ α) : Prop :=
  ∀ s t a s', R s t → Returns c s a s' → ∃ t', Returns d t a t' ∧ R s' t'

namespace Sim

theorem refl (c : Exec σ α) : Sim Eq c c := by
  rintro s t a s' rfl h
  exact ⟨s', h, rfl⟩

/-- More fuel does not change what is returned. -/
theorem mono {c d : Exec σ α} (h : Sim Eq c d) {s s' : σ} {a : α} (hret : Returns c s a s') :
    Returns d s a s' := by
  obtain ⟨t, hd, rfl⟩ := h s s a s' rfl hret
  exact hd

theorem pure (a : α) : Sim R (Pure.pure a) (Pure.pure a) := by
  intro s t b s' hst h
  cases h
  exact ⟨t, rfl, hst⟩

theorem stop (d : Exec τ α) : Sim R Exec.stop d := by
  intro s t a s' _ h
  cases h

variable {c : Exec σ α} {d : Exec τ α}

theorem bind {f : α → Exec σ β} {g : α → Exec τ β}
    (h : Sim R c d) (hfg : ∀ a, Sim R (f a) (g a)) : Sim R (c >>= f) (d >>= g) := by
  intro s t b s' hst hret
  obtain ⟨a, s1, h1, h2⟩ := returns_bind hret
  obtain ⟨t1, hd, hR⟩ := h s t a s1 hst h1
  obtain ⟨t', hg, hR'⟩ := hfg a s1 t1 b s' hR h2
  exact ⟨t', hd.bind_eq.trans hg, hR'⟩

theorem ite {p : Prop} [Decidable p] {c' : Exec σ α} {d' : Exec τ α} (h : Sim R c d)
    (h' : Sim R c' d') : Sim R (if p then c else c') (if p then d else d') := by
  split
  · exact h
  · exact h'

theorem read {f : σ → α} {g : τ → α} (h : ∀ s t, R s t → f s = g t) :
    Sim R (Exec.read f) (Exec.read g) := by
  intro s t a s' hst hret
  cases hret
  exact ⟨t, congrArg (fun x => some (x, t)) (h _ t hst).symm, hst⟩

theorem update {f : σ → σ} {g : τ → τ} (h : ∀ s t, R s t → R (f s) (g t)) :
    Sim R (Exec.update f) (Exec.update g) := by
  intro s t a s' hst hret
  cases hret
  exact ⟨g t, rfl, h _ t hst⟩

theorem map (h : Sim R c d) (f : α → β) : Sim R (f <$> c) (f <$> d) :=
  h.bind fun a => .pure (f a)

/-- A computation with fuel, where more of it does not change what is returned. -/
theorem converges {c : Nat → Exec σ α} {d : Nat → Exec τ α} (h : ∀ n, Sim R (c n) (d n))
    (hmono : ∀ {n m : Nat}, n ≤ m → Sim Eq (d n) (d m)) {s s' : σ} {t : τ} {a : α} {n : Nat}
    (hst : R s t) (hret : Returns (c n) s a s') : ∃ t', Converges d t a t' ∧ R s' t' := by
  obtain ⟨t', ht, hR⟩ := h n s t a s' hst hret
  exact ⟨t', ⟨n, fun m hm => (hmono hm).mono ht⟩, hR⟩

end Sim

end Sim

/-! ## Total correctness -/

/-- From every state in `P` the computation returns, with a result and a state
in `Q`. -/
def Triple (P : σ → Prop) (c : Exec σ α) (Q : α → σ → Prop) : Prop :=
  ∀ s, P s → ∃ a s', Returns c s a s' ∧ Q a s'

variable {P P' R : σ → Prop} {Q : α → σ → Prop} {S : β → σ → Prop} {c : Exec σ α}
  {f : α → Exec σ β}

theorem Triple.pure (h : ∀ s, P s → Q a s) : Triple P (pure a) Q :=
  fun s hs => ⟨a, s, rfl, h s hs⟩

theorem Triple.bind (h : Triple P c Q) (hf : ∀ a, Triple (Q a) (f a) S) :
    Triple P (c >>= f) S := fun s hs => by
  obtain ⟨a, s1, hr, hq⟩ := h s hs
  obtain ⟨b, s2, hr', hs'⟩ := hf a s1 hq
  exact ⟨b, s2, hr.bind_eq.trans hr', hs'⟩

/-- Sequencing after a call whose result is known. -/
theorem Triple.bind_eq (h : Triple P c fun x s => x = a ∧ R s)
    (hf : Triple R (f a) S) : Triple P (c >>= f) S :=
  h.bind fun x s hs => by
    obtain ⟨rfl, hr⟩ := hs
    exact hf s hr

theorem Triple.seq {d : Exec σ β} (h : Triple P c fun _ s => R s) (hd : Triple R d S) :
    Triple P (c >>= fun _ => d) S :=
  h.bind fun _ => hd

theorem Triple.read {g : σ → α} (h : ∀ s, P s → g s = a) :
    Triple P (read g) fun x s => x = a ∧ P s :=
  fun s hs => ⟨g s, s, rfl, h s hs, hs⟩

theorem Triple.update {g : σ → σ} (h : ∀ s, P s → R (g s)) : Triple P (update g) fun _ s => R s :=
  fun s hs => ⟨(), g s, rfl, h s hs⟩

/-! ## Counted loops -/

/-- `for (i = a; i < a + n; i++) body`. -/
def forRange (a : Nat) : (n : Nat) → (body : Nat → Exec σ Unit) → Exec σ Unit
  | 0, _ => pure ()
  | n + 1, body => do
    body a
    forRange (a + 1) n body

/-- **Invariant rule of a counted loop.** -/
theorem Triple.forRange {I : Nat → σ → Prop} {body : Nat → Exec σ Unit} {a n : Nat}
    (h : ∀ i, a ≤ i → i < a + n → Triple (I i) (body i) fun _ => I (i + 1)) :
    Triple (I a) (forRange a n body) fun _ => I (a + n) := by
  induction n generalizing a with
  | zero => exact Triple.pure fun _ hs => hs
  | succ n ih =>
    have hrest := ih (a := a + 1) fun i hai hi => h i (by omega) (by omega)
    rw [show a + 1 + n = a + (n + 1) by omega] at hrest
    exact (h a (Nat.le_refl a) (by omega)).seq hrest

/-- Two nested loops over a grid, row by row. -/
theorem Triple.forGrid {I : Nat → σ → Prop} {body : Nat → Nat → Exec σ Unit} {a h w : Nat}
    (hbody : ∀ y x, a ≤ y → y < a + h → x < w →
      Triple (I (y * w + x)) (body y x) fun _ => I (y * w + x + 1)) :
    Triple (I (a * w)) (Exec.forRange a h fun y => Exec.forRange 0 w (body y))
      fun _ => I ((a + h) * w) := by
  refine Triple.forRange (I := fun y => I (y * w)) fun y hay hy => ?_
  have hrow := Triple.forRange (I := fun x => I (y * w + x)) (a := 0) (n := w)
    fun x _ hx => hbody y x hay hy (by omega)
  rw [Nat.zero_add] at hrow
  rw [Nat.succ_mul]
  exact hrow

end Exec

end GosKernel
