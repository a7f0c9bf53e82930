import GosKernel.Lib.Exec

/-!
# Computations under watch

`Bounded σ α` is a computation with checks of its accesses: it is given up, with the state it
got to, at the first check that fails. That is told apart from stopping, as after a fault
there is nothing to say about the accesses that would have come.

- `Leaves c s`: run from `s`, a check of `c` fails;
- `Watches c d`: `c` is `d` with checks. Unless one of them fails it does what `d` does.
-/

namespace GosKernel

/-- Computations with checks. -/
abbrev Bounded (σ α : Type) := OptionT (Exec σ) α

namespace Bounded

open Exec

variable {σ α β : Type}

/-- Give up unless `p`. -/
def check (p : Prop) [Decidable p] : Bounded σ Unit :=
  if p then pure () else OptionT.mk (pure none)

/-- A computation without checks. -/
def lift (c : Exec σ α) : Bounded σ α := OptionT.lift c

/-- Run from `s`, a check of `c` fails. -/
def Leaves (c : Bounded σ α) (s : σ) : Prop := ∃ s', Returns c.run s none s'

/-- `c` is `d` with checks. -/
def Watches (c : Bounded σ α) (d : Exec σ α) : Prop :=
  ∀ s, Leaves c s ∨ c.run s = (d s).map fun r => (some r.1, r.2)

section

variable {c : Bounded σ α} {f : α → Bounded σ β} {s s' : σ} {a : α} {p : Prop} [Decidable p]

/-- A sequence goes on after a part that was not given up. -/
theorem bind_of_stays (h : Returns c.run s (some a) s') : (c >>= f).run s = (f a).run s' := by
  rw [OptionT.run_bind, Option.elimM, h.bind_eq]
  rfl

theorem check_of (hp : p) : Returns (check p : Bounded σ Unit).run s (some ()) s := by
  rw [check, if_pos hp]
  rfl

theorem lift_of {d : Exec σ α} (h : Returns d s a s') : Returns (lift d).run s (some a) s' := by
  exact h.bind_eq

theorem leaves_check (hp : ¬ p) : Leaves (check p : Bounded σ Unit) s := by
  rw [check, if_neg hp]
  exact ⟨s, rfl⟩

theorem Leaves.bind (h : Leaves c s) : Leaves (c >>= f) s := by
  obtain ⟨s', h⟩ := h
  refine ⟨s', ?_⟩
  rw [Returns, OptionT.run_bind, Option.elimM, h.bind_eq]
  rfl

theorem leaves_bind_iff (h : Returns c.run s (some a) s') :
    Leaves (c >>= f) s ↔ Leaves (f a) s' := by
  unfold Leaves Returns
  rw [bind_of_stays h]

theorem leaves_lift_bind_iff {d : Exec σ α} (h : Returns d s a s') :
    Leaves (lift d >>= f) s ↔ Leaves (f a) s' := leaves_bind_iff (lift_of h)

theorem leaves_read_bind_iff {g : σ → α} : Leaves (lift (read g) >>= f) s ↔ Leaves (f (g s)) s :=
  leaves_lift_bind_iff rfl

/-- If the rest has no checks that fail, those of the first part decide. -/
theorem leaves_bind_iff_left (hf : ∀ a s', ¬ Leaves (f a) s') : Leaves (c >>= f) s ↔ Leaves c s := by
  refine ⟨?_, Leaves.bind⟩
  rintro ⟨s', h⟩
  rw [OptionT.run_bind] at h
  obtain ⟨r, s1, hc, hrest⟩ := returns_bind h
  cases r with
  | none => exact ⟨s1, hc⟩
  | some a => exact absurd ⟨s', hrest⟩ (hf a s1)

theorem not_leaves_lift (d : Exec σ α) : ¬ Leaves (lift d) s := by
  rintro ⟨s', h⟩
  obtain ⟨a, s1, -, hpure⟩ := returns_bind (show Returns (d >>= fun a => pure (some a)) s none s' from h)
  cases hpure

/-- What stops is not given up. -/
theorem not_leaves_of_stops {d : Exec σ α} (h : d s = none) : ¬ Leaves (lift d >>= f) s := by
  rintro ⟨s', hret⟩
  have hstop : (lift d).run s = none := bind_of_stops h
  rw [Returns, OptionT.run_bind, Option.elimM, bind_of_stops hstop] at hret
  cases hret

theorem not_leaves_pure : ¬ Leaves (pure a : Bounded σ α) s := by
  rintro ⟨s', h⟩
  cases h

end

/-! ## Watching -/

namespace Watches

variable {c : Bounded σ α} {d : Exec σ α} {f : α → Bounded σ β} {g : α → Exec σ β} {s s' : σ} {a : α}

theorem pure (a : α) : Watches (Pure.pure a) (Pure.pure a : Exec σ α) := fun _ => .inr rfl

theorem lift (d : Exec σ α) : Watches (Bounded.lift d) d := by
  intro s
  refine .inr ?_
  show (d >>= fun a => Pure.pure (some a)) s = _
  rw [bind_apply]
  cases d s <;> rfl

theorem bind (h : Watches c d) (hf : ∀ a, Watches (f a) (g a)) : Watches (c >>= f) (d >>= g) := by
  intro s
  rcases h s with hleaves | hrun
  · exact .inl hleaves.bind
  · rw [bind_apply]
    cases hd : d s with
    | none =>
      rw [hd] at hrun
      refine .inr ?_
      rw [OptionT.run_bind, Option.elimM, bind_of_stops hrun]
      rfl
    | some r =>
      rw [hd] at hrun
      have hstays : Returns c.run s (some r.1) r.2 := hrun
      rw [leaves_bind_iff hstays, bind_of_stays hstays]
      exact hf r.1 r.2

theorem check {p : Prop} [Decidable p] (h : Watches c d) :
    Watches (Bounded.check p >>= fun _ => c) d := by
  intro s
  by_cases hp : p
  · rw [leaves_bind_iff (check_of hp), bind_of_stays (check_of hp)]
    exact h s
  · exact .inl (leaves_check hp).bind

theorem ite {p : Prop} [Decidable p] {c' : Bounded σ α} {d' : Exec σ α} (h : Watches c d)
    (h' : Watches c' d') : Watches (if p then c else c') (if p then d else d') := by
  by_cases hp : p
  · rw [if_pos hp, if_pos hp]
    exact h
  · rw [if_neg hp, if_neg hp]
    exact h'

end Watches

end Bounded

end GosKernel
