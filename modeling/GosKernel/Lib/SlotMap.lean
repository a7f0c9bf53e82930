import GosKernel.Lib.Slots

/-!
# Maps in an array of slots

A slot is empty or holds a key with its value. Looking a key up takes the lowest slot of the
key (`lookup`). When no key has two slots (`Unique`), writing a slot of the key, or an empty
one if the key has none, is an update of the map (`lookup_set`), and emptying its slot
removes the key (`lookup_clear`).

An array that is only filled from below holds the first entries of a list (`Filled`), and a
lookup finds the first one of its key (`Filled.lookup_eq`).
-/

namespace GosKernel.SlotMap

open Slots List Function

variable {n : Nat} {K V : Type}

/-! ## Searching -/

theorem find?_finRange {p : Fin n → Bool} {i : Fin n} :
    (List.finRange n).find? p = some i ↔ p i = true ∧ ∀ j < i, p j = false := by
  have hsorted := pairwise_lt_finRange n
  rw [find?_eq_some_iff_append]
  constructor
  · rintro ⟨hp, below, above, hsplit, hbelow⟩
    refine ⟨hp, fun j hj => ?_⟩
    -- what is not below the slot in the list is not below it at all
    have hmem : j ∈ below ++ i :: above := hsplit ▸ mem_finRange j
    rw [hsplit, pairwise_append, pairwise_cons] at hsorted
    rcases mem_append.mp hmem with hj' | hj'
    · simpa using hbelow j hj'
    · rcases mem_cons.mp hj' with rfl | hj'
      · exact absurd hj (lt_irrefl _)
      · exact absurd hj (lt_asymm (hsorted.2.1.1 j hj'))
  · rintro ⟨hp, hbelow⟩
    obtain ⟨below, above, hsplit⟩ := append_of_mem (mem_finRange i)
    refine ⟨hp, below, above, hsplit, fun j hj => ?_⟩
    rw [hsplit, pairwise_append] at hsorted
    rw [hbelow j (hsorted.2.2 j hj i mem_cons_self)]
    rfl

/-- The lowest empty slot. -/
def freeSlot (t : Fin n → Option (K × V)) : Option (Fin n) :=
  (List.finRange n).find? fun i => (t i).isNone

/-- Put an entry into the lowest empty slot, if there is one. -/
def fill (t : Fin n → Option (K × V)) (e : K × V) : Fin n → Option (K × V) :=
  match freeSlot t with
  | some i => update t i (some e)
  | none => t

variable {t : Fin n → Option (K × V)} {k : K} {v : V} {i : Fin n}

theorem freeSlot_some (h : freeSlot t = some i) : t i = none :=
  Option.isNone_iff_eq_none.mp (find?_finRange.mp h).1

theorem freeSlot_none : freeSlot t = none ↔ ∀ i, t i ≠ none := by
  unfold freeSlot
  rw [find?_eq_none]
  constructor
  · intro h i hi
    exact h i (mem_finRange i) (Option.isNone_iff_eq_none.mpr hi)
  · intro h i _ hi
    exact h i (Option.isNone_iff_eq_none.mp hi)

/-! ## One slot for each key -/

/-- No key has two slots. -/
def Unique (t : Fin n → Option (K × V)) : Prop :=
  ∀ i j k v w, t i = some (k, v) → t j = some (k, w) → i = j

theorem Unique.empty : Unique (fun _ : Fin n => (none : Option (K × V))) := by
  intro i j k v w hi
  cases hi

/-- Write a slot that is the key's already, or that is empty while the key has none. -/
theorem Unique.set (h : Unique t) (hkey : ∀ j w, t j = some (k, w) → j = i) (v : V) :
    Unique (update t i (some (k, v))) := by
  -- a slot other than `i` is what it was, and its key is not `k`
  have hother : ∀ {j : Fin n} {k' : K} {w : V}, j ≠ i →
      update t i (some (k, v)) j = some (k', w) → t j = some (k', w) ∧ k' ≠ k := by
    intro j k' w hji hj
    rw [update_of_ne hji] at hj
    refine ⟨hj, ?_⟩
    rintro rfl
    exact hji (hkey j w hj)
  have hself : ∀ {k' : K} {w : V},
      update t i (some (k, v)) i = some (k', w) → k' = k := by
    intro k' w hi
    rw [update_self] at hi
    cases hi
    rfl
  intro a b k' w w' ha hb
  by_cases hai : a = i
  · subst hai
    by_contra hab
    exact (hother (Ne.symm hab) hb).2 (hself ha)
  · by_cases hbi : b = i
    · subst hbi
      exact absurd (hself hb) (hother hai ha).2
    · exact h a b k' w w' (hother hai ha).1 (hother hbi hb).1

theorem Unique.clear (h : Unique t) (i : Fin n) : Unique (update t i none) := by
  have hother : ∀ {j : Fin n} {e : K × V}, update t i none j = some e → t j = some e := by
    intro j e hj
    by_cases hji : j = i
    · subst hji
      rw [update_self] at hj
      cases hj
    · rwa [update_of_ne hji] at hj
  intro a b k w w' ha hb
  exact h a b k w w' (hother ha) (hother hb)

/-! ## Filled from below -/

/-- The slots hold the first entries of the list. -/
def Filled (t : Fin n → Option (K × V)) (l : List (K × V)) : Prop := ∀ i, t i = l[i.val]?

theorem Filled.contents_eq {l : List (K × V)} (h : Filled t l) : contents t = l.take n := by
  obtain rfl : t = fun i => l[i.val]? := funext h
  clear h
  induction n with
  | zero => rfl
  | succ n ih =>
    rw [contents, finRange_succ_last, filterMap_append, filterMap_map,
      take_add_one]
    congr 1

/-- **Filling the lowest empty slot**, if there is one, appends to the list. -/
theorem Filled.snoc {l : List (K × V)} (h : Filled t l) (e : K × V) :
    Filled (fill t e) (l ++ [e]) := by
  unfold fill
  cases hfree : freeSlot t with
  | none =>
    -- the list is longer than the array
    intro i
    have hi : t i ≠ none := freeSlot_none.mp hfree i
    rw [h i] at hi
    rw [List.getElem?_append_left (by simpa using hi)]
    exact h i
  | some i =>
    have hi := find?_finRange.mp hfree
    have hend : l.length = i.val := by
      have hge : l.length ≤ i.val := by
        have hnone := hi.1
        rw [h i] at hnone
        simpa using hnone
      rcases Nat.eq_or_lt_of_le hge with heq | hlt
      · exact heq
      · have hbelow := hi.2 ⟨l.length, Nat.lt_trans hlt i.isLt⟩ hlt
        rw [h] at hbelow
        simp at hbelow
    intro j
    by_cases hji : j = i
    · subst hji
      show update t j (some e) j = _
      rw [update_self, ← hend, List.getElem?_concat_length]
    · show update t i (some e) j = _
      rw [update_of_ne hji, h j]
      rw [List.getElem?_append]
      split
      · rfl
      · rw [List.getElem?_eq_none (by omega), List.getElem?_eq_none (by simp; omega)]

/-! ## Lookups -/

section Lookup

variable [DecidableEq K]

/-- The lowest slot of the key. -/
def slotOf (t : Fin n → Option (K × V)) (k : K) : Option (Fin n) :=
  (List.finRange n).find? fun i => (t i).any fun e => e.1 = k

/-- The value of the key. -/
def lookup (t : Fin n → Option (K × V)) (k : K) : Option V :=
  ((contents t).find? fun e => e.1 = k).map Prod.snd

theorem lookup_eq_slotOf : lookup t k = (slotOf t k).bind fun i => (t i).map Prod.snd := by
  unfold lookup contents slotOf
  rw [find?_filterMap]
  cases (List.finRange n).find? _ with
  | none => rfl
  | some i => rfl

theorem slotOf_some (h : slotOf t k = some i) : ∃ v, t i = some (k, v) := by
  have hany : ((t i).any fun e => e.1 = k) = true := (find?_finRange.mp h).1
  obtain ⟨⟨k', v⟩, hi, hk⟩ := (Option.any_eq_true _ _).mp hany
  obtain rfl : k' = k := of_decide_eq_true hk
  exact ⟨v, hi⟩

theorem slotOf_none : slotOf t k = none ↔ ∀ i v, t i ≠ some (k, v) := by
  unfold slotOf
  rw [find?_eq_none]
  constructor
  · intro h i v hi
    exact h i (mem_finRange i) ((Option.any_eq_true _ _).mpr ⟨_, hi, decide_eq_true rfl⟩)
  · intro h i _ hany
    obtain ⟨⟨k', v⟩, hi, hk⟩ := (Option.any_eq_true _ _).mp hany
    obtain rfl : k' = k := of_decide_eq_true hk
    exact h i v hi

theorem lookup_none : lookup t k = none ↔ ∀ i v, t i ≠ some (k, v) := by
  rw [lookup_eq_slotOf, ← slotOf_none]
  constructor
  · intro h
    cases hslot : slotOf t k with
    | none => rfl
    | some i =>
      obtain ⟨v, hi⟩ := slotOf_some hslot
      rw [hslot, Option.bind_some, hi] at h
      cases h
  · intro h
    rw [h, Option.bind_none]

theorem Unique.lookup_some (h : Unique t) : lookup t k = some v ↔ ∃ i, t i = some (k, v) := by
  rw [lookup_eq_slotOf]
  constructor
  · intro hlookup
    obtain ⟨i, hslot, hi⟩ := Option.bind_eq_some_iff.mp hlookup
    obtain ⟨w, hw⟩ := slotOf_some hslot
    rw [hw] at hi
    obtain rfl : w = v := Option.some.inj hi
    exact ⟨i, hw⟩
  · rintro ⟨i, hi⟩
    cases hslot : slotOf t k with
    | none => exact absurd hi (slotOf_none.mp hslot i v)
    | some j =>
      obtain ⟨w, hj⟩ := slotOf_some hslot
      obtain rfl := h i j k v w hi hj
      rw [Option.bind_some, hi, Option.map_some]

/-- What is written to the only slot that may be the key's is what the key then has. -/
theorem Unique.lookup_update (h : Unique t) {o : Option (K × V)}
    (h' : Unique (update t i o)) (hkey : ∀ j w, t j = some (k, w) → j = i)
    (hslot : ∀ e, t i = some e → e.1 = k) (ho : ∀ e, o = some e → e.1 = k) :
    lookup (update t i o) = update (lookup t) k (o.map Prod.snd) := by
  funext k'
  apply Option.ext
  intro w
  rw [h'.lookup_some]
  by_cases hk : k' = k
  · subst hk
    rw [update_self, Option.map_eq_some_iff]
    constructor
    · rintro ⟨j, hj⟩
      by_cases hji : j = i
      · subst hji
        rw [update_self] at hj
        exact ⟨(k', w), hj, rfl⟩
      · rw [update_of_ne hji] at hj
        exact absurd (hkey j w hj) hji
    · rintro ⟨⟨k1, w⟩, he, rfl⟩
      obtain rfl : k1 = k' := ho _ he
      exact ⟨i, by rw [update_self, he]⟩
  · rw [update_of_ne hk, h.lookup_some]
    constructor
    · rintro ⟨j, hj⟩
      by_cases hji : j = i
      · subst hji
        rw [update_self] at hj
        exact absurd (ho _ hj) hk
      · rw [update_of_ne hji] at hj
        exact ⟨j, hj⟩
    · rintro ⟨j, hj⟩
      have hji : j ≠ i := by
        rintro rfl
        exact hk (hslot _ hj)
      exact ⟨j, by rwa [update_of_ne hji]⟩

/-- **Writing a slot** is an update of the map. -/
theorem Unique.lookup_set (h : Unique t) (hkey : ∀ j w, t j = some (k, w) → j = i)
    (hslot : ∀ e, t i = some e → e.1 = k) (v : V) :
    lookup (update t i (some (k, v))) = update (lookup t) k (some v) := by
  refine h.lookup_update (h.set hkey v) hkey hslot ?_
  rintro e ⟨⟩
  rfl

/-- **Emptying the slot of a key** removes it from the map. -/
theorem Unique.lookup_clear (h : Unique t) (hi : t i = some (k, v)) :
    lookup (update t i none) = update (lookup t) k none := by
  refine h.lookup_update (h.clear i) (fun j w hj => h j i k w v hj hi) ?_ ?_
  · intro e he
    rw [hi] at he
    cases he
    rfl
  · rintro e ⟨⟩

/-- **A lookup** finds the first entry of the key. -/
theorem Filled.lookup_eq {l : List (K × V)} (h : Filled t l) (k : K) :
    lookup t k = ((l.take n).find? fun e => e.1 = k).map Prod.snd := by
  rw [lookup, h.contents_eq]

end Lookup

end GosKernel.SlotMap
