import Mathlib.Data.List.Nodup

/-!
# Linked list segments

Nodes have type `α`, pointers type `π`, and `ref : α → π` is the pointer to a
node. A list of nodes is threaded through link functions `nx pv : α → π`:

- `SSeg ref nx l q`: following `nx` from the head of `l` visits `l` and ends at
  the pointer `q`;
- `DSeg ref nx pv p l q`: the same, and every node's `pv` is the pointer to its
  predecessor, that of the first node being `p`.

A `NULL`-terminated list has `p = q = null`, a circular one has both equal to the
pointer to its header. Link updates are stated pointwise on the nodes of the list
(`DSeg.insert`, `DSeg.remove`, `DSeg.replace`), so they apply to any store the
link fields are read from: a client shows what each field of each node is
afterwards, and never unfolds a segment.
-/

namespace GosKernel.Linked

open List

universe u v

variable {α : Type u} {π : Type v} (ref : α → π)

/-- The pointer to the first node of `l`, or `q` when there is none. -/
def headOr : List α → π → π
  | [], q => q
  | a :: _, _ => ref a

/-- The pointer to the last node of `l`, or `p` when there is none. -/
def lastOr : π → List α → π
  | p, [] => p
  | _, a :: l => lastOr (ref a) l

/-- Singly linked segment: `l` in link order, ending at `q`. -/
def SSeg (nx : α → π) : List α → π → Prop
  | [], _ => True
  | a :: l, q => nx a = headOr ref l q ∧ SSeg nx l q

/-- Singly linked list: the segment `l`, entered at `head`. -/
def SList (nx : α → π) (head : π) (l : List α) (q : π) : Prop :=
  head = headOr ref l q ∧ SSeg ref nx l q

/-- Doubly linked segment: `l` in link order, entered from `p`, ending at `q`. -/
def DSeg (nx pv : α → π) : π → List α → π → Prop
  | _, [], _ => True
  | p, a :: l, q => pv a = p ∧ nx a = headOr ref l q ∧ DSeg nx pv (ref a) l q

instance DSeg.decidable [DecidableEq π] (nx pv : α → π) :
    (p : π) → (l : List α) → (q : π) → Decidable (DSeg ref nx pv p l q)
  | _, [], _ => .isTrue trivial
  | p, a :: l, q =>
    have := DSeg.decidable nx pv (ref a) l q
    inferInstanceAs (Decidable (pv a = p ∧ nx a = headOr ref l q ∧ DSeg ref nx pv (ref a) l q))

variable {ref}

/-! ## Ends -/

@[simp] theorem headOr_nil (q : π) : headOr ref [] q = q := rfl

@[simp] theorem headOr_cons (a : α) (l : List α) (q : π) : headOr ref (a :: l) q = ref a := rfl

@[simp] theorem lastOr_nil (p : π) : lastOr ref p [] = p := rfl

@[simp] theorem lastOr_cons (p : π) (a : α) (l : List α) :
    lastOr ref p (a :: l) = lastOr ref (ref a) l := rfl

theorem headOr_append (l1 l2 : List α) (q : π) :
    headOr ref (l1 ++ l2) q = headOr ref l1 (headOr ref l2 q) := by
  cases l1 <;> rfl

theorem lastOr_append (p : π) (l1 l2 : List α) :
    lastOr ref p (l1 ++ l2) = lastOr ref (lastOr ref p l1) l2 := by
  induction l1 generalizing p with
  | nil => rfl
  | cons a l1 ih => exact ih (ref a)

theorem headOr_eq_or (l : List α) (q : π) :
    headOr ref l q = q ∨ ∃ a ∈ l, headOr ref l q = ref a := by
  cases l with
  | nil => exact .inl rfl
  | cons a l => exact .inr ⟨a, mem_cons_self, rfl⟩

theorem lastOr_eq_or (p : π) (l : List α) :
    lastOr ref p l = p ∨ ∃ a ∈ l, lastOr ref p l = ref a := by
  induction l generalizing p with
  | nil => exact .inl rfl
  | cons a l ih =>
    rcases ih (ref a) with h | ⟨b, hb, h⟩
    · exact .inr ⟨a, mem_cons_self, h⟩
    · exact .inr ⟨b, mem_cons_of_mem _ hb, h⟩

/-- A pointer that differs from every node of `l` and from `q` is not the head. -/
theorem ne_headOr {x : π} {l : List α} {q : π} (hq : x ≠ q) (hl : ∀ a ∈ l, x ≠ ref a) :
    x ≠ headOr ref l q := by
  rcases @headOr_eq_or _ _ ref l q with h | ⟨a, ha, h⟩
  · rwa [h]
  · rw [h]
    exact hl a ha

/-- A pointer that differs from every node of `l` and from `p` is not the last. -/
theorem ne_lastOr {x : π} {l : List α} {p : π} (hp : x ≠ p) (hl : ∀ a ∈ l, x ≠ ref a) :
    x ≠ lastOr ref p l := by
  rcases @lastOr_eq_or _ _ ref p l with h | ⟨a, ha, h⟩
  · rwa [h]
  · rw [h]
    exact hl a ha

theorem headOr_mem (l : List α) (q : α) : headOr id l q ∈ q :: l := by
  cases l with
  | nil => exact mem_cons_self
  | cons a l => exact mem_cons_of_mem _ mem_cons_self

theorem lastOr_mem (p : α) (l : List α) : lastOr id p l ∈ p :: l := by
  rcases @lastOr_eq_or _ _ id p l with h | ⟨a, ha, h⟩
  · rw [h]
    exact mem_cons_self
  · rw [h]
    exact mem_cons_of_mem _ ha

/-! ## Singly linked segments -/

section Single

variable {nx nx' : α → π}

variable {a : α} {head p q : π} {l l1 l2 : List α}

theorem sseg_append :
    SSeg ref nx (l1 ++ l2) q ↔ SSeg ref nx l1 (headOr ref l2 q) ∧ SSeg ref nx l2 q := by
  induction l1 with
  | nil => exact ⟨fun h => ⟨trivial, h⟩, fun h => h.2⟩
  | cons a l1 ih =>
    show (nx a = headOr ref (l1 ++ l2) q ∧ SSeg ref nx (l1 ++ l2) q) ↔
      (nx a = headOr ref l1 (headOr ref l2 q) ∧ SSeg ref nx l1 (headOr ref l2 q)) ∧ _
    rw [headOr_append, ih, and_assoc]

/-- A segment depends only on the links of its own nodes. -/
theorem SSeg.congr (h : SSeg ref nx l q) (hn : ∀ x ∈ l, nx' x = nx x) : SSeg ref nx' l q := by
  induction l with
  | nil => trivial
  | cons a l ih =>
    exact ⟨(hn a mem_cons_self).trans h.1,
      ih h.2 fun x hx => hn x (mem_cons_of_mem _ hx)⟩

/-- The links determine the segment between two pointers. -/
theorem SSeg.unique (hinj : Function.Injective ref) {l' : List α}
    (h : SSeg ref nx l q) (h' : SSeg ref nx l' q) (hq : ∀ a ∈ l, ref a ≠ q)
    (hq' : ∀ a ∈ l', ref a ≠ q) (hhead : headOr ref l q = headOr ref l' q) : l = l' := by
  induction l generalizing l' with
  | nil =>
    cases l' with
    | nil => rfl
    | cons b l' => exact absurd hhead.symm (hq' b mem_cons_self)
  | cons a l ih =>
    cases l' with
    | nil => exact absurd hhead (hq a mem_cons_self)
    | cons b l' =>
      obtain rfl : a = b := hinj hhead
      rw [ih h.2 h'.2 (fun c hc => hq c (mem_cons_of_mem _ hc))
        (fun c hc => hq' c (mem_cons_of_mem _ hc)) (h.1.symm.trans h'.1)]

/-- Redirecting the last node of a segment moves its end from `q` to `q'`. -/
theorem SSeg.setEnd [DecidableEq π] (hinj : Function.Injective ref) {q' : π}
    (h : SSeg ref nx l q) (hnd : l.Nodup)
    (hn : ∀ x ∈ l, nx' x = if ref x = lastOr ref p l then q' else nx x) : SSeg ref nx' l q' := by
  induction l generalizing p with
  | nil => trivial
  | cons a l ih =>
    obtain ⟨ha, hl⟩ := nodup_cons.mp hnd
    refine ⟨?_, ih h.2 hl fun x hx => hn x (mem_cons_of_mem _ hx)⟩
    rw [hn a mem_cons_self]
    cases l with
    | nil => exact if_pos rfl
    | cons b l =>
      have hne : ref a ≠ lastOr ref (ref b) l := by
        refine ne_lastOr (fun hab => ha ?_) fun c hc hac => ha ?_
        · rw [hinj hab]
          exact mem_cons_self
        · rw [hinj hac]
          exact mem_cons_of_mem _ hc
      rw [lastOr_cons, lastOr_cons, if_neg hne]
      exact h.1

/-- Unlink the node `a` of a singly linked segment: its predecessor, if it has
one, takes over its link. -/
theorem SSeg.remove [DecidableEq π] (hinj : Function.Injective ref)
    (h : SSeg ref nx (l1 ++ a :: l2) q) (hnd : (l1 ++ a :: l2).Nodup) (hp : ∀ x ∈ l2, ref x ≠ p)
    (hn : ∀ x ∈ l1 ++ l2, nx' x = if ref x = lastOr ref p l1 then nx a else nx x) :
    SSeg ref nx' (l1 ++ l2) q := by
  obtain ⟨h1, ha, h2⟩ := sseg_append.mp h
  obtain ⟨hnd1, hnd2, hdis⟩ := nodup_append.mp hnd
  refine sseg_append.mpr ⟨?_, h2.congr fun x hx => ?_⟩
  · exact h1.setEnd hinj hnd1 fun x hx => by
      rw [hn x (mem_append_left _ hx), ha]
  · rw [hn x (mem_append_right _ hx)]
    refine if_neg (ne_lastOr (hp x hx) fun b hb hxb => ?_)
    exact hdis b hb x (mem_cons_of_mem _ hx) (hinj hxb).symm

theorem SList.congr (h : SList ref nx head l q)
    (hn : ∀ x ∈ l, nx' x = nx x) : SList ref nx' head l q :=
  ⟨h.1, h.2.congr hn⟩

theorem SList.pop (h : SList ref nx head (a :: l) q) :
    SList ref nx (nx a) l q := h.2

theorem SList.push (h : SList ref nx head l q)
    (ha : nx' a = head) (hn : ∀ x ∈ l, nx' x = nx x) : SList ref nx' (ref a) (a :: l) q :=
  ⟨rfl, ha.trans h.1, h.2.congr hn⟩

/-- Unlink the node `a` of a list. Where it is the first one, the head moves on. -/
theorem SList.remove [DecidableEq π] (hinj : Function.Injective ref)
    (h : SList ref nx head (l1 ++ a :: l2) q) (hnd : (l1 ++ a :: l2).Nodup)
    (hp : ∀ x ∈ l2, ref x ≠ p)
    (hn : ∀ x ∈ l1 ++ l2, nx' x = if ref x = lastOr ref p l1 then nx a else nx x) :
    SList ref nx' (match l1 with | [] => nx a | _ :: _ => head) (l1 ++ l2) q := by
  refine ⟨?_, h.2.remove hinj hnd hp hn⟩
  cases l1 with
  | nil => exact h.2.1
  | cons b l1 => exact h.1

end Single

/-! ## Doubly linked segments -/

section Double

variable {nx pv nx' pv' : α → π}

variable {a : α} {l l1 l2 : List α} {p q : π}

theorem dseg_append :
    DSeg ref nx pv p (l1 ++ l2) q ↔
      DSeg ref nx pv p l1 (headOr ref l2 q) ∧ DSeg ref nx pv (lastOr ref p l1) l2 q := by
  induction l1 generalizing p with
  | nil => exact ⟨fun h => ⟨trivial, h⟩, fun h => h.2⟩
  | cons a l1 ih =>
    show (pv a = p ∧ nx a = headOr ref (l1 ++ l2) q ∧ DSeg ref nx pv (ref a) (l1 ++ l2) q) ↔
      (pv a = p ∧ nx a = headOr ref l1 (headOr ref l2 q) ∧
        DSeg ref nx pv (ref a) l1 (headOr ref l2 q)) ∧ _
    rw [headOr_append, ih]
    tauto

/-- The links of a node in the middle of a segment. -/
theorem DSeg.links
    (h : DSeg ref nx pv p (l1 ++ a :: l2) q) : pv a = lastOr ref p l1 ∧ nx a = headOr ref l2 q :=
  ⟨(dseg_append.mp h).2.1, (dseg_append.mp h).2.2.1⟩

theorem DSeg.congr (h : DSeg ref nx pv p l q)
    (hn : ∀ x ∈ l, nx' x = nx x) (hp : ∀ x ∈ l, pv' x = pv x) : DSeg ref nx' pv' p l q := by
  induction l generalizing p with
  | nil => trivial
  | cons a l ih =>
    exact ⟨(hp a mem_cons_self).trans h.1, (hn a mem_cons_self).trans h.2.1,
      ih h.2.2 (fun x hx => hn x (mem_cons_of_mem _ hx))
        fun x hx => hp x (mem_cons_of_mem _ hx)⟩

theorem DSeg.sseg (h : DSeg ref nx pv p l q) : SSeg ref nx l q := by
  induction l generalizing p with
  | nil => trivial
  | cons a l ih => exact ⟨h.2.1, ih h.2.2⟩

theorem headOr_reverse (l : List α) (q : π) : headOr ref l.reverse q = lastOr ref q l := by
  induction l generalizing q with
  | nil => rfl
  | cons a l ih =>
    rw [reverse_cons, headOr_append, lastOr_cons, ← ih]
    rfl

theorem lastOr_reverse (l : List α) (p : π) : lastOr ref p l.reverse = headOr ref l p := by
  rw [← headOr_reverse, reverse_reverse]

/-- Read backwards, the two kinds of links change roles. -/
theorem DSeg.reverse (h : DSeg ref nx pv p l q) : DSeg ref pv nx q l.reverse p := by
  induction l generalizing p with
  | nil => trivial
  | cons a l ih =>
    rw [reverse_cons, dseg_append, lastOr_reverse]
    exact ⟨ih h.2.2, h.2.1, h.1, trivial⟩

variable [DecidableEq π] (hinj : Function.Injective ref)
include hinj

/-- Redirecting the last node of a segment moves its end from `q` to `q'`. -/
theorem DSeg.setEnd {p0 : π} {q' : π} (h : DSeg ref nx pv p l q)
    (hnd : l.Nodup) (hn : ∀ x ∈ l, nx' x = if ref x = lastOr ref p0 l then q' else nx x)
    (hp : ∀ x ∈ l, pv' x = pv x) : DSeg ref nx' pv' p l q' := by
  induction l generalizing p p0 with
  | nil => trivial
  | cons a l ih =>
    have hs : SSeg ref nx' (a :: l) q' := h.sseg.setEnd hinj hnd hn
    exact ⟨(hp a mem_cons_self).trans h.1, hs.1,
      ih h.2.2 (nodup_cons.mp hnd).2 (fun x hx => hn x (mem_cons_of_mem _ hx))
        fun x hx => hp x (mem_cons_of_mem _ hx)⟩

/-- Redirecting the first node of a segment moves its entry from `p` to `p'`. -/
theorem DSeg.setEntry {p' : π} {q0 : π} (h : DSeg ref nx pv p l q)
    (hnd : l.Nodup) (hn : ∀ x ∈ l, nx' x = nx x)
    (hp : ∀ x ∈ l, pv' x = if ref x = headOr ref l q0 then p' else pv x) :
    DSeg ref nx' pv' p' l q := by
  cases l with
  | nil => trivial
  | cons a l =>
    obtain ⟨ha, -⟩ := nodup_cons.mp hnd
    refine ⟨?_, (hn a mem_cons_self).trans h.2.1, h.2.2.congr
      (fun x hx => hn x (mem_cons_of_mem _ hx)) fun x hx => ?_⟩
    · rw [hp a mem_cons_self]
      exact if_pos rfl
    · rw [hp x (mem_cons_of_mem _ hx)]
      refine if_neg fun hxa => ha ?_
      rw [← hinj hxa]
      exact hx

/-- Two neighbouring segments whose inner ends are moved: the last node of `l1`
now points to `q'`, the first node of `l2` back to `p'`. -/
theorem DSeg.splice {p2 p' : π} {q1 q' : π}
    (h1 : DSeg ref nx pv p l1 q1) (h2 : DSeg ref nx pv p2 l2 q) (hnd : (l1 ++ l2).Nodup)
    (hpl : ∀ x ∈ l1 ++ l2, ref x ≠ p) (hql : ∀ x ∈ l1 ++ l2, ref x ≠ q)
    (hn : ∀ x ∈ l1 ++ l2, nx' x = if ref x = lastOr ref p l1 then q' else nx x)
    (hp : ∀ x ∈ l1 ++ l2, pv' x = if ref x = headOr ref l2 q then p' else pv x) :
    DSeg ref nx' pv' p l1 q' ∧ DSeg ref nx' pv' p' l2 q := by
  obtain ⟨hnd1, hnd2, hdis⟩ := nodup_append.mp hnd
  constructor
  · refine h1.setEnd hinj hnd1 (fun x hx => hn x (mem_append_left _ hx)) fun x hx => ?_
    rw [hp x (mem_append_left _ hx)]
    refine if_neg (ne_headOr (hql x (mem_append_left _ hx)) fun c hc hxc => ?_)
    exact hdis x hx c hc (hinj hxc)
  · refine h2.setEntry hinj hnd2 (fun x hx => ?_) fun x hx => hp x (mem_append_right _ hx)
    rw [hn x (mem_append_right _ hx)]
    refine if_neg (ne_lastOr (hpl x (mem_append_right _ hx)) fun c hc hxc => ?_)
    exact hdis c hc x hx (hinj hxc).symm

theorem DSeg.insert {b : α} (h : DSeg ref nx pv p (l1 ++ l2) q) (hnd : (l1 ++ l2).Nodup)
    (hpl : ∀ x ∈ l1 ++ l2, ref x ≠ p) (hql : ∀ x ∈ l1 ++ l2, ref x ≠ q)
    (hbn : nx' b = headOr ref l2 q) (hbp : pv' b = lastOr ref p l1)
    (hn : ∀ x ∈ l1 ++ l2, nx' x = if ref x = lastOr ref p l1 then ref b else nx x)
    (hp : ∀ x ∈ l1 ++ l2, pv' x = if ref x = headOr ref l2 q then ref b else pv x) :
    DSeg ref nx' pv' p (l1 ++ b :: l2) q := by
  obtain ⟨h1, h2⟩ := dseg_append.mp h
  obtain ⟨h1', h2'⟩ := h1.splice hinj h2 hnd hpl hql hn hp
  exact dseg_append.mpr ⟨h1', hbp, hbn, h2'⟩

/-- Unlink the node `a`: its neighbours, if it has them, take over its links. -/
theorem DSeg.remove (h : DSeg ref nx pv p (l1 ++ a :: l2) q) (hnd : (l1 ++ l2).Nodup)
    (hpl : ∀ x ∈ l1 ++ l2, ref x ≠ p) (hql : ∀ x ∈ l1 ++ l2, ref x ≠ q)
    (hn : ∀ x ∈ l1 ++ l2, nx' x = if ref x = pv a then nx a else nx x)
    (hp : ∀ x ∈ l1 ++ l2, pv' x = if ref x = nx a then pv a else pv x) :
    DSeg ref nx' pv' p (l1 ++ l2) q := by
  obtain ⟨h1, hap, han, h2⟩ := dseg_append.mp h
  rw [hap, han] at hn hp
  exact dseg_append.mpr (h1.splice hinj h2 hnd hpl hql hn hp)

/-- Put the node `b` in the place of `a`. -/
theorem DSeg.replace {b : α} (h : DSeg ref nx pv p (l1 ++ a :: l2) q) (hnd : (l1 ++ l2).Nodup)
    (hpl : ∀ x ∈ l1 ++ l2, ref x ≠ p) (hql : ∀ x ∈ l1 ++ l2, ref x ≠ q)
    (hbn : nx' b = nx a) (hbp : pv' b = pv a)
    (hn : ∀ x ∈ l1 ++ l2, nx' x = if ref x = pv a then ref b else nx x)
    (hp : ∀ x ∈ l1 ++ l2, pv' x = if ref x = nx a then ref b else pv x) :
    DSeg ref nx' pv' p (l1 ++ b :: l2) q := by
  obtain ⟨h1, hap, han, h2⟩ := dseg_append.mp h
  rw [han] at hbn hp
  rw [hap] at hbp hn
  obtain ⟨h1', h2'⟩ := h1.splice hinj h2 hnd hpl hql hn hp
  exact dseg_append.mpr ⟨h1', hbp, hbn, h2'⟩

end Double

end GosKernel.Linked
