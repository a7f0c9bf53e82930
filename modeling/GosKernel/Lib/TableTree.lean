import Mathlib.Order.Nat

/-!
# Trees of tables

A multi-level table is a tree of pages: `e p i` is entry `i` of page `p`, and
`child x` is the page an entry refers to, if it is present. Paths are lists of
indices with the deepest index first, so that `i :: path` is the child of `path` at
index `i`. Tables stand at paths of length at most `d`; the entries of those at
length `d` are the leaves.

`TableTree child own e root d` says that different paths lead to different pages,
all of them in `own`. Then a write to one entry is a change in one place:

- `TableTree.create`: hanging a fresh table into an absent entry adds one path;
- `TableTree.write_leaf`: writing a leaf changes no path and no other leaf;
- `TableTree.node_congr`: a write outside of the tables changes nothing.

`Links I` says that all entries that refer to tables satisfy `I`; both writes keep it.
-/

namespace GosKernel.TableTree

universe u v w

variable {π : Type u} {ι : Type v} {ε : Type w}

/-- The page at a path. -/
def node (child : ε → Option π) (e : π → ι → ε) (root : π) : List ι → Option π
  | [] => some root
  | i :: path => (node child e root path).bind fun p => child (e p i)

/-- Entry `i` of the table at a path. -/
def leaf (child : ε → Option π) (e : π → ι → ε) (root : π) (path : List ι) (i : ι) : Option ε :=
  (node child e root path).map fun p => e p i

/-- Every entry that refers to a table, and the table, satisfy `I`. -/
def Links (child : ε → Option π) (e : π → ι → ε) (root : π) (d : Nat) (I : π → ε → Prop) : Prop :=
  ∀ (path : List ι) (i : ι) (p n : π), path.length < d → node child e root path = some p →
    child (e p i) = some n → I n (e p i)

end TableTree

open TableTree

universe u v w

variable {π : Type u} {ι : Type v} {ε : Type w}

/-- Different paths of length at most `d` lead to different pages of `own`. -/
structure TableTree (child : ε → Option π) (own : π → Prop) (e : π → ι → ε) (root : π)
    (d : Nat) : Prop where
  inj : ∀ {path path' : List ι} {p : π}, path.length ≤ d → path'.length ≤ d →
    node child e root path = some p → node child e root path' = some p → path = path'
  own : ∀ {path : List ι} {p : π}, path.length ≤ d → node child e root path = some p → own p

namespace TableTree

variable {child : ε → Option π} {own own' : π → Prop} {e e' : π → ι → ε} {root : π} {d : Nat}

theorem mono (h : TableTree child own e root d) (hown : ∀ p, own p → own' p) :
    TableTree child own' e root d :=
  ⟨h.inj, fun hlen hp => hown _ (h.own hlen hp)⟩

/-- Only the entries of the tables matter. -/
theorem node_congr (he : ∀ path p, path.length ≤ d → node child e root path = some p →
    ∀ i, e' p i = e p i) {path : List ι} (hlen : path.length ≤ d) :
    node child e' root path = node child e root path := by
  induction path with
  | nil => rfl
  | cons i path ih =>
    have hlen' : path.length ≤ d := Nat.le_of_succ_le hlen
    show (node child e' root path).bind _ = (node child e root path).bind _
    rw [ih hlen']
    cases hp : node child e root path with
    | none => rfl
    | some p => exact congrArg child (he path p hlen' hp i)

/-- Below a root without children there is nothing. -/
theorem node_single (hroot : ∀ i, child (e root i) = none) (i : ι) (path : List ι) :
    node child e root (i :: path) = none := by
  induction path generalizing i with
  | nil => exact hroot i
  | cons j path ih =>
    show (node child e root (j :: path)).bind _ = none
    rw [ih j]
    rfl

theorem single (hown : own root) (hroot : ∀ i, child (e root i) = none) :
    TableTree child own e root d := by
  have hnil : ∀ {path : List ι} {p : π}, node child e root path = some p → path = [] :=
    fun {path p} hp => by
      cases path with
      | nil => rfl
      | cons i path =>
        rw [node_single hroot] at hp
        cases hp
  refine ⟨fun _ _ hp hp' => (hnil hp).trans (hnil hp').symm, fun _ hp => ?_⟩
  rw [hnil hp] at hp
  cases hp
  exact hown

theorem Links.single {I : π → ε → Prop} (hroot : ∀ i, child (e root i) = none) :
    Links child e root d I := by
  intro path i p n _ hp hn
  cases path with
  | nil =>
    cases hp
    rw [hroot i] at hn
    cases hn
  | cons j path =>
    rw [node_single hroot] at hp
    cases hp

section Write

variable [DecidableEq π] [DecidableEq ι] {i0 : ι} {path0 : List ι} {p0 n0 : π} {x : ε}
  {I : π → ε → Prop}

/-! Entry `i0` of the table at `path0` is written. -/

variable (h : TableTree child own e root d) (hp0 : node child e root path0 = some p0)
  (he : ∀ p, own p → ∀ i, e' p i = if p = p0 ∧ i = i0 then x else e p i)

section Leaf

variable (hlen0 : path0.length = d)
include h hp0 he

omit hlen0 in
/-- The table at another path stays as it is. -/
theorem entry_eq (hlen0 : path0.length ≤ d) {path : List ι} {p : π} (hlen : path.length ≤ d)
    (hp : node child e root path = some p) (hne : path ≠ path0) (i : ι) : e' p i = e p i := by
  rw [he p (h.own hlen hp) i, if_neg]
  rintro ⟨rfl, -⟩
  exact hne (h.inj hlen hlen0 hp hp0)

include hlen0

/-- Writing an entry of a table at depth `d` leaves all paths alone. -/
theorem node_write_leaf {path : List ι} (hlen : path.length ≤ d) :
    node child e' root path = node child e root path := by
  induction path with
  | nil => rfl
  | cons i path ih =>
    have hlen' : path.length < d := hlen
    show (node child e' root path).bind _ = (node child e root path).bind _
    rw [ih hlen'.le]
    cases hp : node child e root path with
    | none => rfl
    | some p =>
      -- the page written stands at depth `d`, this one does not
      have hne : path ≠ path0 := by
        rintro rfl
        omega
      exact congrArg child (h.entry_eq hp0 he hlen0.le hlen'.le hp hne i)

/-- Writing a leaf keeps the tree and changes this leaf only. -/
theorem write_leaf : TableTree child own e' root d ∧ ∀ path i, path.length = d →
    leaf child e' root path i =
      if path = path0 ∧ i = i0 then some x else leaf child e root path i := by
  have hnode : ∀ {path : List ι}, path.length ≤ d →
      node child e' root path = node child e root path := fun hlen =>
    h.node_write_leaf hp0 he hlen0 hlen
  refine ⟨⟨fun hlen hlen' hp hp' => ?_, fun hlen hp => ?_⟩, fun path i hlen => ?_⟩
  · exact h.inj hlen hlen' ((hnode hlen).symm.trans hp) ((hnode hlen').symm.trans hp')
  · exact h.own hlen ((hnode hlen).symm.trans hp)
  · unfold leaf
    rw [hnode hlen.le]
    by_cases hpath : path = path0
    · rw [hpath, hp0]
      show some (e' p0 i) = _
      rw [he p0 (h.own hlen0.le hp0) i]
      by_cases hi : i = i0 <;> simp [hi]
    · rw [if_neg fun hx => hpath hx.1]
      cases hp : node child e root path with
      | none => rfl
      | some p => exact congrArg some (h.entry_eq hp0 he hlen0.le hlen.le hp hpath i)

theorem links_write_leaf (hl : Links child e root d I) : Links child e' root d I := by
  intro path i p n hlen hp hn
  rw [h.node_write_leaf hp0 he hlen0 hlen.le] at hp
  have hne : path ≠ path0 := by
    rintro rfl
    omega
  rw [h.entry_eq hp0 he hlen0.le hlen.le hp hne i] at hn ⊢
  exact hl path i p n hlen hp hn

end Leaf

section Create

variable (hlen0 : path0.length < d) (habsent : child (e p0 i0) = none) (hx : child x = some n0)
  (hn0 : ∀ i, child (e' n0 i) = none)
include h hp0 he hlen0 habsent hx hn0

/-- The paths after the fresh table `n0` was hung into an absent entry. -/
theorem node_create {path : List ι} (hlen : path.length ≤ d) :
    node child e' root path =
      if path = i0 :: path0 then some n0 else node child e root path := by
  induction path with
  | nil => rfl
  | cons i path ih =>
    have hlen' : path.length < d := hlen
    show (node child e' root path).bind _ = _
    rw [ih hlen'.le]
    by_cases hpath : path = i0 :: path0
    · -- below the new table there is nothing, and there was nothing
      have hne : i :: path ≠ i0 :: path0 := fun heq => by
        have := congrArg List.length (List.cons.inj heq).2
        rw [hpath] at this
        simp at this
      rw [if_pos hpath, if_neg hne, hpath]
      show child (e' n0 i) = ((node child e root path0).bind fun p => child (e p i0)).bind _
      rw [hn0 i, hp0]
      show none = (child (e p0 i0)).bind _
      rw [habsent]
      rfl
    rw [if_neg hpath]
    by_cases hedge : path = path0
    · rw [hedge, hp0]
      show child (e' p0 i) = _
      rw [he p0 (h.own hlen0.le hp0) i]
      by_cases hi : i = i0
      · rw [if_pos ⟨rfl, hi⟩, if_pos (by rw [hi]), hx]
      · rw [if_neg fun hx => hi hx.2, if_neg fun hx => hi (List.cons.inj hx).1]
        show _ = (node child e root path0).bind _
        rw [hp0]
        rfl
    · rw [if_neg fun hx => hedge (List.cons.inj hx).2]
      show _ = (node child e root path).bind _
      cases hp : node child e root path with
      | none => rfl
      | some p => exact congrArg child (h.entry_eq hp0 he hlen0.le hlen'.le hp hedge i)

/-- Hanging a fresh table with no entries into an absent entry keeps the tree; leaves
change only from "no table" to "absent entry". -/
theorem create (hfresh : ¬ own n0) :
    TableTree child (fun p => own p ∨ p = n0) e' root d ∧
      ∀ path i, path.length = d → leaf child e' root path i =
        if path = i0 :: path0 then some (e' n0 i) else leaf child e root path i := by
  have hnode : ∀ {path : List ι}, path.length ≤ d → node child e' root path =
      if path = i0 :: path0 then some n0 else node child e root path := fun hlen =>
    h.node_create hp0 he hlen0 habsent hx hn0 hlen
  refine ⟨⟨fun {path path' p} hlen hlen' hp hp' => ?_, fun {path p} hlen hp => ?_⟩,
    fun path i hlen => ?_⟩
  · rw [hnode hlen] at hp
    rw [hnode hlen'] at hp'
    by_cases hpath : path = i0 :: path0 <;> by_cases hpath' : path' = i0 :: path0
    · rw [hpath, hpath']
    · rw [if_pos hpath] at hp
      rw [if_neg hpath'] at hp'
      cases hp
      exact absurd (h.own hlen' hp') hfresh
    · rw [if_neg hpath] at hp
      rw [if_pos hpath'] at hp'
      cases hp'
      exact absurd (h.own hlen hp) hfresh
    · rw [if_neg hpath] at hp
      rw [if_neg hpath'] at hp'
      exact h.inj hlen hlen' hp hp'
  · rw [hnode hlen] at hp
    split at hp
    · exact .inr (Option.some.inj hp).symm
    · exact .inl (h.own hlen hp)
  · unfold leaf
    rw [hnode hlen.le]
    split
    · rfl
    · cases hp : node child e root path with
      | none => rfl
      | some p =>
        have hne : path ≠ path0 := by
          rintro rfl
          omega
        exact congrArg some (h.entry_eq hp0 he hlen0.le hlen.le hp hne i)

theorem links_create (hl : Links child e root d I) (hI : I n0 x) : Links child e' root d I := by
  intro path i p n hlen hp hn
  rw [h.node_create hp0 he hlen0 habsent hx hn0 hlen.le] at hp
  split at hp
  · -- the new table refers to nothing
    cases hp
    rw [hn0 i] at hn
    cases hn
  · rw [he p (h.own hlen.le hp) i] at hn ⊢
    split at hn
    · rename_i hnew
      rw [if_pos hnew]
      rw [hx] at hn
      cases hn
      exact hI
    · rename_i hold
      rw [if_neg hold]
      exact hl path i p n hlen hp hn

end Create

end Write

end GosKernel.TableTree
