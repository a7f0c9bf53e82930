import Mathlib.Data.List.FinRange

/-!
# Arrays of slots

An array whose slots are empty or hold a value, and the list of the values it holds, in
the order of the slots. Writing one slot changes the list in one place
(`contents_update`).
-/

namespace GosKernel.Slots

open List Function

variable {n : Nat} {α : Type*}

/-- The values in the slots, lowest slot first. -/
def contents (f : Fin n → Option α) : List α := (List.finRange n).filterMap f

theorem mem_contents {f : Fin n → Option α} {a : α} : a ∈ contents f ↔ ∃ i, f i = some a := by
  simp [contents]

@[simp] theorem contents_none : contents (fun _ : Fin n => (none : Option α)) = [] := by
  simp [contents]

/-- **Writing a slot**: the values below and above it stay where they are. -/
theorem contents_update (f : Fin n → Option α) (i : Fin n) :
    ∃ A B, (∀ v, contents (update f i v) = A ++ v.toList ++ B) ∧
      (∀ a ∈ A, ∃ j, j < i ∧ f j = some a) ∧ ∀ a ∈ B, ∃ j, i < j ∧ f j = some a := by
  obtain ⟨l1, l2, hl⟩ := append_of_mem (mem_finRange i)
  have hsorted := pairwise_lt_finRange n
  rw [hl, pairwise_append, pairwise_cons] at hsorted
  obtain ⟨-, ⟨hgt, -⟩, hlt⟩ := hsorted
  have hlt' : ∀ j ∈ l1, j < i := fun j hj => hlt j hj i mem_cons_self
  refine ⟨l1.filterMap f, l2.filterMap f, fun v => ?_, ?_, ?_⟩
  · have h1 : l1.filterMap (update f i v) = l1.filterMap f :=
      filterMap_congr fun j hj => update_of_ne (hlt' j hj).ne _ _
    have h2 : l2.filterMap (update f i v) = l2.filterMap f :=
      filterMap_congr fun j hj => update_of_ne (hgt j hj).ne' _ _
    rw [contents, hl, filterMap_append, filterMap_cons, h1, h2]
    cases v <;> simp
  · intro a ha
    obtain ⟨j, hj, hja⟩ := mem_filterMap.mp ha
    exact ⟨j, hlt' j hj, hja⟩
  · intro a ha
    obtain ⟨j, hj, hja⟩ := mem_filterMap.mp ha
    exact ⟨j, hgt j hj, hja⟩

end GosKernel.Slots
