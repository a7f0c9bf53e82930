import Mathlib.Data.List.Nodup
import Mathlib.Data.Nat.ModEq

/-!
# Windows of a cyclic array

`window cap a n`: the `n` indices from `a` on in an array of `cap` cells that wraps
around, and `held cap f a n`, what the array `f` holds there.

A ring that keeps one cell free is described by its first index `a` and the number
`n < cap` of its elements; the index behind the last one is `(a + n) % cap`.

- `window_succ`, `window_cons`: one more index at the end, one less at the start;
- `held_push`, `held_pop`: the same for what the array holds;
- `end_eq_start_iff`, `next_end_eq_start_iff`: what comparing the two indices tells.
-/

namespace GosKernel.Cyclic

universe u

variable {β : Type u} {cap a n i : Nat} {f : Nat → β}

/-- The `n` indices from `a` on. -/
def window (cap a n : Nat) : List Nat := (List.range n).map fun i => (a + i) % cap

/-- What the array holds at the `n` indices from `a` on. -/
def held (cap : Nat) (f : Nat → β) (a n : Nat) : List β := (window cap a n).map f

/-! ## Indices -/

@[simp] theorem window_zero (cap a : Nat) : window cap a 0 = [] := rfl

@[simp] theorem length_window (cap a n : Nat) : (window cap a n).length = n := by
  simp [window]

theorem mem_window : i ∈ window cap a n ↔ ∃ k < n, (a + k) % cap = i := by
  simp [window]

theorem window_succ (cap a n : Nat) : window cap a (n + 1) = window cap a n ++ [(a + n) % cap] := by
  simp [window, List.range_succ]

theorem window_cons (ha : a < cap) (n : Nat) :
    window cap a (n + 1) = a :: window cap ((a + 1) % cap) n := by
  induction n with
  | zero =>
    rw [window_succ]
    simp [Nat.mod_eq_of_lt ha]
  | succ n ih =>
    have hlast : (a + (n + 1)) % cap = ((a + 1) % cap + n) % cap := by
      rw [Nat.mod_add_mod]
      congr 1
      omega
    rw [window_succ cap a (n + 1), ih, window_succ cap _ n, hlast]
    rfl

theorem add_mod_inj {k : Nat} (hi : i < cap) (hk : k < cap) (h : (a + i) % cap = (a + k) % cap) :
    i = k := by
  have hmod : i ≡ k [MOD cap] := Nat.ModEq.add_left_cancel' a h
  exact Nat.ModEq.eq_of_lt_of_lt hmod hi hk

theorem window_nodup (hn : n ≤ cap) : (window cap a n).Nodup := by
  refine List.Nodup.map_on (fun i hi k hk h => ?_) List.nodup_range
  have hi := List.mem_range.mp hi
  have hk := List.mem_range.mp hk
  exact add_mod_inj (by omega) (by omega) h

theorem end_not_mem_window (hn : n < cap) : (a + n) % cap ∉ window cap a n := by
  rw [mem_window]
  rintro ⟨k, hk, h⟩
  have := add_mod_inj (by omega) hn h
  omega

/-- The two ends meet in the empty window. -/
theorem end_eq_start_iff (ha : a < cap) (hn : n < cap) : (a + n) % cap = a ↔ n = 0 := by
  constructor
  · intro h
    refine add_mod_inj (a := a) hn (by omega) ?_
    rw [h, Nat.add_zero, Nat.mod_eq_of_lt ha]
  · rintro rfl
    rw [Nat.add_zero, Nat.mod_eq_of_lt ha]

/-- One index is left over in the full window. -/
theorem next_end_eq_start_iff (ha : a < cap) (hn : n < cap) :
    ((a + n) % cap + 1) % cap = a ↔ n + 1 = cap := by
  rw [Nat.mod_add_mod, Nat.add_assoc]
  constructor
  · intro h
    by_contra hne
    have hlt : n + 1 < cap := by omega
    exact absurd ((end_eq_start_iff ha hlt).mp h) (Nat.succ_ne_zero n)
  · rintro h
    rw [h, Nat.add_mod_right, Nat.mod_eq_of_lt ha]

/-! ## Contents -/

theorem held_succ (cap : Nat) (f : Nat → β) (a n : Nat) :
    held cap f a (n + 1) = held cap f a n ++ [f ((a + n) % cap)] := by
  rw [held, window_succ, List.map_append]
  rfl

theorem held_pop (ha : a < cap) (f : Nat → β) (n : Nat) :
    held cap f a (n + 1) = f a :: held cap f ((a + 1) % cap) n := by
  rw [held, window_cons ha]
  rfl

theorem held_congr {g : Nat → β} (h : ∀ i ∈ window cap a n, g i = f i) :
    held cap g a n = held cap f a n :=
  List.map_congr_left h

theorem held_update (hi : i ∉ window cap a n) (v : β) :
    held cap (Function.update f i v) a n = held cap f a n :=
  held_congr fun j hj => Function.update_of_ne (fun hji : j = i => hi (hji ▸ hj)) v f

/-- Writing behind the last element adds one. -/
theorem held_push (hn : n < cap) (v : β) :
    held cap (Function.update f ((a + n) % cap) v) a (n + 1) = held cap f a n ++ [v] := by
  rw [held_succ, held_update (end_not_mem_window hn), Function.update_self]

end GosKernel.Cyclic
