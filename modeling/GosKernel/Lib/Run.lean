import Mathlib.Init

/-!
# Runs of a labelled transition system

`Run step s es s'`: the events `es`, taken in order, lead from `s` to `s'`. Every
state of a run is the end of one of its prefixes, so a statement about the end of
every run is a statement about every state reached.

`results op ks s`: what a list of operations returns, one after the other.
-/

namespace GosKernel

universe u v w

variable {σ : Type u} {ε : Type v} {κ : Type w} {step : σ → ε → σ → Prop}

/-- Reachability along a list of events. -/
inductive Run (step : σ → ε → σ → Prop) : σ → List ε → σ → Prop
  | nil (s : σ) : Run step s [] s
  | cons {s s' s'' : σ} {e : ε} {es : List ε} (h : step s e s') (t : Run step s' es s'') :
      Run step s (e :: es) s''

namespace Run

variable {es : List ε} {s s' : σ}

theorem snoc {s'' : σ} {e : ε} (h : Run step s es s') (he : step s' e s'') :
    Run step s (es ++ [e]) s'' := by
  induction h with
  | nil s => exact .cons he (.nil _)
  | cons h _ ih => exact .cons h (ih he)

theorem append {s'' : σ} {es' : List ε} (h : Run step s es s')
    (h' : Run step s' es' s'') : Run step s (es ++ es') s'' := by
  induction h with
  | nil s => exact h'
  | cons h _ ih => exact .cons h (ih h')

/-- **Invariant rule**: what holds initially and is kept by every step holds in
every state of every run. -/
theorem invariant {I : σ → Prop} (hstep : ∀ s e s', I s → step s e s' → I s')
    (h : Run step s es s') (hs : I s) : I s' := by
  induction h with
  | nil s => exact hs
  | cons he _ ih => exact ih (hstep _ _ _ hs he)

theorem invariant_trace {I : List ε → σ → Prop}
    (hstep : ∀ es s e s', I es s → step s e s' → I (es ++ [e]) s') {es0 : List ε}
    (h : Run step s es s') (hs : I es0 s) : I (es0 ++ es) s' := by
  induction h generalizing es0 with
  | nil s => simpa using hs
  | cons he _ ih => simpa using ih (hstep _ _ _ _ hs he)

/-- The same for runs that nothing was before. -/
theorem trace_invariant {I : List ε → σ → Prop}
    (hstep : ∀ es s e s', I es s → step s e s' → I (es ++ [e]) s')
    (h : Run step s es s') (hs : I [] s) : I es s' :=
  h.invariant_trace hstep hs

/-- Make a list of calls, each of which gives an event and the next state. -/
def exec (call : σ → κ → Option (ε × σ)) : σ → List κ → Option (List ε × σ)
  | s, [] => some ([], s)
  | s, c :: cs => (call s c).bind fun r => (exec call r.2 cs).map fun t => (r.1 :: t.1, t.2)

/-- Calls that are steps make a run. -/
theorem of_exec {call : σ → κ → Option (ε × σ)}
    (hcall : ∀ s c e s', call s c = some (e, s') → step s e s') {cs : List κ}
    (h : exec call s cs = some (es, s')) : Run step s es s' := by
  induction cs generalizing s es with
  | nil =>
    cases h
    exact .nil _
  | cons c cs ih =>
    obtain ⟨⟨e, s1⟩, he, h⟩ := Option.bind_eq_some_iff.mp h
    obtain ⟨⟨es', s2⟩, hes, heq⟩ := Option.map_eq_some_iff.mp h
    cases heq
    exact .cons (hcall s c e s1 he) (ih hes)

end Run

/-! ## Results of a sequence of operations -/

section Results

variable {τ : Type u} {ρ : Type v}

/-- Do the operations in order; the results and the last state. -/
def results (op : κ → σ → ρ × σ) : List κ → σ → List ρ × σ
  | [], s => ([], s)
  | k :: ks, s => ((op k s).1 :: (results op ks (op k s).2).1, (results op ks (op k s).2).2)

/-- **Simulation rule**: operations that give the same results from related states, and
lead to related states, give the same results in every sequence. -/
theorem results_sim {R : σ → τ → Prop} {op : κ → σ → ρ × σ} {spec : κ → τ → ρ × τ}
    (hop : ∀ k s t, R s t → (op k s).1 = (spec k t).1 ∧ R (op k s).2 (spec k t).2)
    {s : σ} {t : τ} (h : R s t) (ks : List κ) :
    (results op ks s).1 = (results spec ks t).1 ∧ R (results op ks s).2 (results spec ks t).2 := by
  induction ks generalizing s t with
  | nil => exact ⟨rfl, h⟩
  | cons k ks ih =>
    obtain ⟨hres, hrel⟩ := hop k s t h
    obtain ⟨hrest, hend⟩ := ih hrel
    refine ⟨?_, hend⟩
    show (op k s).1 :: _ = (spec k t).1 :: _
    rw [hres, hrest]

end Results

end GosKernel
