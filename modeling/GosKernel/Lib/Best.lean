import Mathlib.Data.List.MinMax

/-!
# Scans that keep the best so far

A loop goes through a list and keeps the element with the greatest score, with its score
beside it, `-1` before there is one. An element has to be better to replace the one kept, so
the scan ends with the first of the best: `List.argmax`.
-/

namespace GosKernel.Best

universe u

variable {α : Type u} (f : α → Nat)

/-- One round: keep the element if its score is above the best so far. -/
def keep (b : Option α × Int) (a : α) : Option α × Int :=
  if (f a : Int) > b.2 then (some a, f a) else b

/-- What is kept, with its score. -/
def scored : Option α → Option α × Int
  | none => (none, -1)
  | some a => (some a, f a)

@[simp] theorem scored_fst (o : Option α) : (scored f o).1 = o := by
  cases o <;> rfl

theorem keep_scored (o : Option α) (a : α) :
    keep f (scored f o) a = scored f (List.argAux (fun b c => f c < f b) o a) := by
  unfold keep
  cases o with
  | none => exact if_pos (show (-1 : Int) < f a by omega)
  | some c =>
    have hiff : (f a : Int) > (scored f (some c)).2 ↔ f c < f a := Int.ofNat_lt
    show _ = scored f (if f c < f a then some a else some c)
    by_cases h : f c < f a
    · rw [if_pos (hiff.mpr h), if_pos h]
      rfl
    · rw [if_neg (hiff.not.mpr h), if_neg h]

/-- **A scan** finds the first element of the greatest score. -/
theorem foldl_keep (l : List α) : (l.foldl (keep f) (none, -1)).1 = l.argmax f := by
  have hscan : ∀ o, l.foldl (keep f) (scored f o)
      = scored f (l.foldl (List.argAux fun b c => f c < f b) o) := by
    induction l with
    | nil => exact fun o => rfl
    | cons a l ih =>
      intro o
      rw [List.foldl_cons, keep_scored, ih, List.foldl_cons]
  show (l.foldl (keep f) (scored f none)).1 = _
  rw [hscan, scored_fst]
  rfl

end GosKernel.Best
