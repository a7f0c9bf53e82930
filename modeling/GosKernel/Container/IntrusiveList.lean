import GosKernel.Lib.Linked
import GosKernel.Lib.Run
import Mathlib.Data.Set.Basic

/-!
# Intrusive lists (`src/include/gOS/list.h`)

Circular doubly linked lists through nodes that are parts of other structures. A list has a
head, which is a node without an element. The functions change up to four pointers, one
after the other; nodes may coincide (the list of a single node), so each function is
modelled statement by statement on the links of all nodes.

- **`list_refines`**: what holds after any sequence of operations.
-/

namespace GosKernel.Container

open GosKernel.Linked List Function

universe u

variable {ν : Type u}

/-! ## The code -/

/-- The members `next` and `prev` of all nodes. -/
structure Links (ν : Type u) where
  next : ν → ν
  prev : ν → ν

section Code

variable [DecidableEq ν]

/-- `node->next = v`. -/
def Links.setNext (s : Links ν) (node v : ν) : Links ν :=
  { s with next := update s.next node v }

/-- `node->prev = v`. -/
def Links.setPrev (s : Links ν) (node v : ν) : Links ν :=
  { s with prev := update s.prev node v }

/-- `list_empty` (list.h:24-26). -/
def listEmpty (head : ν) (s : Links ν) : Bool := s.next head = head

/-- `list_insert_after` (list.h:28-33). -/
def listInsertAfter (pos newNode : ν) (s : Links ν) : Links ν :=
  let s := s.setNext newNode (s.next pos)
  let s := s.setPrev newNode pos
  let s := s.setPrev (s.next pos) newNode
  s.setNext pos newNode

/-- `list_insert_before` (list.h:35-40). -/
def listInsertBefore (pos newNode : ν) (s : Links ν) : Links ν :=
  let s := s.setNext newNode pos
  let s := s.setPrev newNode (s.prev pos)
  let s := s.setNext (s.prev pos) newNode
  s.setPrev pos newNode

/-- `list_append` (list.h:42-44). -/
def listAppend (head newNode : ν) : Links ν → Links ν := listInsertBefore head newNode

/-- `list_prepend` (list.h:46-48). -/
def listPrepend (head newNode : ν) : Links ν → Links ν := listInsertAfter head newNode

/-- `list_remove` (list.h:50-55). -/
def listRemove (node : ν) (s : Links ν) : Links ν :=
  let s := s.setNext (s.prev node) (s.next node)
  let s := s.setPrev (s.next node) (s.prev node)
  let s := s.setNext node node
  s.setPrev node node

/-- `list_replace` (list.h:57-62). -/
def listReplace (oldNode newNode : ν) (s : Links ν) : Links ν :=
  let s := s.setNext newNode (s.next oldNode)
  let s := s.setPrev newNode (s.prev oldNode)
  let s := s.setNext (s.prev oldNode) newNode
  s.setPrev (s.next oldNode) newNode

/-- The nodes that `list_for_each` visits from `pos` on, following `step`. -/
def listForEach (step : ν → ν) (head : ν) : (fuel : Nat) → (pos : ν) → Option (List ν)
  | 0, _ => none
  | fuel + 1, pos =>
    if pos = head then some [] else (listForEach step head fuel (step pos)).map (pos :: ·)

end Code

/-- The links with the two directions exchanged. -/
def Links.swap (s : Links ν) : Links ν := ⟨s.prev, s.next⟩

/-! ## Rings -/

/-- The list with head `h` holds `l`. -/
structure Ring (s : Links ν) (h : ν) (l : List ν) : Prop where
  first : s.next h = headOr id l h
  last : s.prev h = lastOr id h l
  seg : DSeg id s.next s.prev h l h

section Rings

variable {s s' : Links ν} {h : ν} {l : List ν}

/-- The ring backwards. -/
theorem Ring.reverse (hr : Ring s h l) : Ring s.swap h l.reverse := by
  refine ⟨?_, ?_, hr.seg.reverse⟩
  · rw [headOr_reverse]
    exact hr.last
  · rw [lastOr_reverse]
    exact hr.first

theorem Ring.congr (hr : Ring s h l) (hn : ∀ x ∈ h :: l, s'.next x = s.next x)
    (hp : ∀ x ∈ h :: l, s'.prev x = s.prev x) : Ring s' h l where
  first := (hn h mem_cons_self).trans hr.first
  last := (hp h mem_cons_self).trans hr.last
  seg := hr.seg.congr (fun x hx => hn x (mem_cons_of_mem _ hx))
    fun x hx => hp x (mem_cons_of_mem _ hx)

end Rings

variable [DecidableEq ν]

/-- The nodes `p` and `q`, neighbours up to now, get `n` between them. -/
structure LinkedIn (s s' : Links ν) (p n q : ν) : Prop where
  next : ∀ x, s'.next x = if x = p then n else if x = n then q else s.next x
  prev : ∀ x, s'.prev x = if x = q then n else if x = n then p else s.prev x

/-- The nodes `p` and `q` become neighbours; `n`, which was between them, is left alone. -/
structure LinkedOut (s s' : Links ν) (p n q : ν) : Prop where
  next : ∀ x, s'.next x = if x = n then n else if x = p then q else s.next x
  prev : ∀ x, s'.prev x = if x = n then n else if x = q then p else s.prev x

section Links

variable {s : Links ν} {pos n h : ν} {l l1 l2 mid : List ν}

theorem listInsertAfter_links (hn : n ≠ pos) :
    LinkedIn s (listInsertAfter pos n s) pos n (s.next pos) := by
  have hpos : update s.next n (s.next pos) pos = s.next pos :=
    update_of_ne hn.symm ..
  refine ⟨fun x => ?_, fun x => ?_⟩
  · show update (update s.next n (s.next pos)) pos n x = _
    simp only [update_apply]
  · show update (update s.prev n pos)
      (update s.next n (s.next pos) pos) n x = _
    rw [hpos]
    simp only [update_apply]

/-- Inserting before is inserting after, with the directions exchanged. -/
theorem listInsertBefore_links (hn : n ≠ pos) :
    LinkedIn s (listInsertBefore pos n s) (s.prev pos) n pos := by
  have hswap := listInsertAfter_links (s := s.swap) hn
  exact ⟨hswap.prev, hswap.next⟩

theorem listRemove_links (hp : s.prev n ≠ n) :
    LinkedOut s (listRemove n s) (s.prev n) n (s.next n) := by
  have hnext : update s.next (s.prev n) (s.next n) n = s.next n :=
    update_of_ne hp.symm ..
  refine ⟨fun x => ?_, fun x => ?_⟩
  · show update (update s.next (s.prev n) (s.next n)) n n x = _
    simp only [update_apply]
  · show update (update s.prev
      (update s.next (s.prev n) (s.next n) n) (s.prev n)) n n x = _
    rw [hnext]
    simp only [update_apply]

/-- Of a node that is linked to itself: nothing happens. -/
theorem listRemove_self (hp : s.prev n = n) (hq : s.next n = n) : listRemove n s = s := by
  have hnext : s.setNext n n = s := by
    exact congrArg (Links.mk · s.prev) (update_eq_self_iff.mpr hq.symm)
  have hprev : s.setPrev n n = s := by
    exact congrArg (Links.mk s.next ·) (update_eq_self_iff.mpr hp.symm)
  rw [listRemove, hp, hq, hnext, hp, hq, hprev, hnext, hprev]

theorem listReplace_links {old : ν} (hn : n ≠ old) (hp : s.prev old ≠ old) :
    LinkedIn s (listReplace old n s) (s.prev old) n (s.next old) := by
  have hprev : update s.prev n (s.prev old) old = s.prev old :=
    update_of_ne hn.symm ..
  have hnext : update (update s.next n (s.next old)) (s.prev old) n old =
      s.next old := by
    rw [update_of_ne hp.symm, update_of_ne hn.symm]
  refine ⟨fun x => ?_, fun x => ?_⟩
  · show update (update s.next n (s.next old))
      (update s.prev n (s.prev old) old) n x = _
    rw [hprev]
    simp only [update_apply]
  · show update (update s.prev n (s.prev old))
      (update (update s.next n (s.next old))
        (update s.prev n (s.prev old) old) n old) n x = _
    rw [hprev, hnext]
    simp only [update_apply]

end Links

section Edits

variable {s s' : Links ν} {n h u w : ν} {l l1 l2 mid : List ν}

/-- `list_for_each` visits the sequence and ends. -/
theorem Ring.forEach (hr : Ring s h l) (hh : h ∉ l) {fuel : Nat} (hfuel : l.length < fuel) :
    listForEach s.next h fuel (s.next h) = some l := by
  have hwalk : ∀ {l : List ν} {fuel : Nat}, SSeg id s.next l h → h ∉ l → l.length < fuel →
      listForEach s.next h fuel (headOr id l h) = some l := by
    intro l
    induction l with
    | nil =>
      intro fuel _ _ hfuel
      obtain ⟨fuel, rfl⟩ := Nat.exists_eq_add_one_of_ne_zero (Nat.ne_zero_of_lt hfuel)
      rw [listForEach, headOr_nil, if_pos rfl]
    | cons a l ih =>
      intro fuel hl hh hfuel
      obtain ⟨fuel, rfl⟩ := Nat.exists_eq_add_one_of_ne_zero (Nat.ne_zero_of_lt hfuel)
      have hne : id a ≠ h := (ne_of_not_mem_cons hh).symm
      rw [listForEach, headOr_cons, if_neg hne, id, hl.1,
        ih hl.2 (not_mem_of_not_mem_cons hh) (Nat.lt_of_succ_lt_succ hfuel)]
      rfl
  rw [hr.first]
  exact hwalk hr.seg.sseg hh hfuel

theorem Ring.empty_iff (hr : Ring s h l) (hh : h ∉ l) : listEmpty h s = true ↔ l = [] := by
  rw [listEmpty, decide_eq_true_iff, hr.first]
  cases l with
  | nil => exact ⟨fun _ => rfl, fun _ => rfl⟩
  | cons a l =>
    refine ⟨fun ha => ?_, nofun⟩
    exact absurd ha (ne_of_not_mem_cons hh).symm

/-- The two parts of a ring when the links around `mid` are changed: the node before it
gets the successor `u`, the node behind it the predecessor `w`. -/
theorem Ring.splice (hr : Ring s h (l1 ++ mid ++ l2)) (hnd : (h :: (l1 ++ mid ++ l2)).Nodup)
    (hn : ∀ x ∈ h :: (l1 ++ l2), s'.next x = if x = lastOr id h l1 then u else s.next x)
    (hp : ∀ x ∈ h :: (l1 ++ l2), s'.prev x = if x = headOr id l2 h then w else s.prev x) :
    s'.next h = headOr id l1 u ∧ s'.prev h = lastOr id w l2 ∧
      DSeg id s'.next s'.prev h l1 u ∧ DSeg id s'.next s'.prev w l2 h := by
  have hsub : (l1 ++ l2).Sublist (l1 ++ mid ++ l2) :=
    (sublist_append_left l1 mid).append (List.Sublist.refl l2)
  obtain ⟨hh, hnd'⟩ := nodup_cons.mp (hnd.sublist (hsub.cons_cons h))
  have hne : ∀ x ∈ l1 ++ l2, id x ≠ h := fun x hx hxh => hh (hxh ▸ hx)
  obtain ⟨h1, h2⟩ := dseg_append.mp hr.seg
  obtain ⟨h1, -⟩ := dseg_append.mp h1
  obtain ⟨h1', h2'⟩ := h1.splice injective_id h2 hnd' hne hne
    (fun x hx => hn x (mem_cons_of_mem _ hx)) fun x hx => hp x (mem_cons_of_mem _ hx)
  refine ⟨?_, ?_, h1', h2'⟩
  · rw [hn h mem_cons_self]
    cases l1 with
    | nil => exact if_pos rfl
    | cons a l1 =>
      have hlast : h ≠ lastOr id (id a) l1 := by
        refine ne_lastOr (fun hha : h = a => hh ?_) fun c hc (hhc : h = c) => hh ?_
        · rw [hha]
          exact mem_cons_self
        · rw [hhc]
          exact mem_append_left _ (mem_cons_of_mem _ hc)
      rw [lastOr_cons, if_neg hlast, hr.first]
      rfl
  · rw [hp h mem_cons_self]
    cases l2 with
    | nil => exact if_pos rfl
    | cons b l2 =>
      have hfirst : h ≠ id b := fun hhb : h = b => hh (by
        rw [hhb]
        exact mem_append_right _ mem_cons_self)
      rw [headOr_cons, if_neg hfirst, hr.last, lastOr_append]
      rfl

/-- A node comes between two neighbours, or in the place of what is between them. -/
theorem Ring.linkIn (hr : Ring s h (l1 ++ mid ++ l2)) (hnd : (h :: (l1 ++ mid ++ l2)).Nodup)
    (hnew : n ∉ h :: (l1 ++ l2)) (hs : LinkedIn s s' (lastOr id h l1) n (headOr id l2 h)) :
    Ring s' h (l1 ++ n :: l2) := by
  have hne : ∀ x ∈ h :: (l1 ++ l2), x ≠ n := fun x hx hxn => hnew (hxn ▸ hx)
  obtain ⟨hfirst, hlast, h1, h2⟩ := hr.splice hnd
    (fun x hx => by rw [hs.next, if_neg (hne x hx)])
    (fun x hx => by rw [hs.prev, if_neg (hne x hx)])
  refine ⟨?_, ?_, dseg_append.mpr ⟨h1, ?_, ?_, h2⟩⟩
  · rw [headOr_append]
    exact hfirst
  · rw [lastOr_append]
    exact hlast
  · rw [hs.prev, if_neg, if_pos rfl]
    exact ne_headOr (hne h mem_cons_self).symm fun c hc =>
      (hne c (mem_cons_of_mem _ (mem_append_right _ hc))).symm
  · rw [hs.next, if_neg, if_pos rfl]
    exact ne_lastOr (hne h mem_cons_self).symm fun c hc =>
      (hne c (mem_cons_of_mem _ (mem_append_left _ hc))).symm

theorem Ring.linkOut (hr : Ring s h (l1 ++ [n] ++ l2)) (hnd : (h :: (l1 ++ [n] ++ l2)).Nodup)
    (hs : LinkedOut s s' (lastOr id h l1) n (headOr id l2 h)) : Ring s' h (l1 ++ l2) := by
  have hne : ∀ x ∈ h :: (l1 ++ l2), x ≠ n := by
    have hperm : (h :: (l1 ++ [n] ++ l2)).Perm (n :: h :: (l1 ++ l2)) := by
      rw [append_assoc]
      exact (perm_middle.cons h).trans (.swap n h _)
    rintro x hx rfl
    exact (nodup_cons.mp (hperm.nodup_iff.mp hnd)).1 hx
  obtain ⟨hfirst, hlast, h1, h2⟩ := hr.splice hnd
    (fun x hx => by rw [hs.next, if_neg (hne x hx)])
    (fun x hx => by rw [hs.prev, if_neg (hne x hx)])
  refine ⟨?_, ?_, dseg_append.mpr ⟨h1, h2⟩⟩
  · rw [headOr_append]
    exact hfirst
  · rw [lastOr_append]
    exact hlast

end Edits

/-! ## Families of lists -/

/-- The sequences of the lists, by their heads, and the nodes that `list_remove` took out
and that were not put in again. -/
structure Lists (ν : Type u) where
  seq : ν → List ν
  removed : List ν

/-- The node is a head or in a list. -/
def Lists.Linked (heads : Set ν) (F : Lists ν) (x : ν) : Prop := ∃ h ∈ heads, x ∈ h :: F.seq h

/-- Disjoint circular lists with the sequences `F`. -/
structure Family (s : Links ν) (heads : Set ν) (F : Lists ν) : Prop where
  ring : ∀ h ∈ heads, Ring s h (F.seq h)
  nodup : ∀ h ∈ heads, (h :: F.seq h).Nodup
  disjoint : ∀ h ∈ heads, ∀ h' ∈ heads, h ≠ h' → ∀ x ∈ h :: F.seq h, x ∉ h' :: F.seq h'
  removed : ∀ n ∈ F.removed, s.next n = n ∧ s.prev n = n ∧ ¬ F.Linked heads n

omit [DecidableEq ν] in
/-- The parts of a sequence around one of its nodes, and the node's neighbours. -/
theorem Family.split {s : Links ν} {heads : Set ν} {F : Lists ν} {h pos : ν}
    (hF : Family s heads F) (hh : h ∈ heads) (hpos : pos ∈ F.seq h) :
    ∃ l1 l2, F.seq h = l1 ++ pos :: l2 ∧ pos ∉ h :: l1 ∧ pos ∉ l2 ∧
      s.prev pos = lastOr id h l1 ∧ s.next pos = headOr id l2 h := by
  obtain ⟨l1, l2, hl⟩ := append_of_mem hpos
  have hseg := (hF.ring h hh).seg
  have hnd := hF.nodup h hh
  rw [hl] at hseg hnd
  have hperm : (h :: (l1 ++ pos :: l2)).Perm (pos :: (h :: l1 ++ l2)) :=
    (perm_middle.cons h).trans (.swap pos h _)
  have hout := (nodup_cons.mp (hperm.nodup_iff.mp hnd)).1
  rw [mem_append, not_or] at hout
  exact ⟨l1, l2, hl, hout.1, hout.2, hseg.links.1, hseg.links.2⟩

section Families

variable {s s' : Links ν} {heads : Set ν} {F F' : Lists ν} {h h' n p q : ν}
  {l1 l2 mid : List ν}

theorem LinkedIn.frame (hs : LinkedIn s s' p n q) {x : ν} (hp : x ≠ p) (hq : x ≠ q) (hn : x ≠ n) :
    s'.next x = s.next x ∧ s'.prev x = s.prev x := by
  rw [hs.next, hs.prev, if_neg hp, if_neg hn, if_neg hq, if_neg hn]
  exact ⟨rfl, rfl⟩

theorem LinkedOut.frame (hs : LinkedOut s s' p n q) {x : ν} (hp : x ≠ p) (hq : x ≠ q)
    (hn : x ≠ n) : s'.next x = s.next x ∧ s'.prev x = s.prev x := by
  rw [hs.next, hs.prev, if_neg hn, if_neg hp, if_neg hn, if_neg hq]
  exact ⟨rfl, rfl⟩

omit [DecidableEq ν] in
/-- The ends of the two parts of a sequence are in it, or are the head. -/
theorem Lists.ends_mem (hl : F.seq h = l1 ++ mid ++ l2) :
    lastOr id h l1 ∈ h :: F.seq h ∧ headOr id l2 h ∈ h :: F.seq h := by
  have hlast := lastOr_mem h l1
  have hhead := headOr_mem l2 h
  rw [hl]
  simp only [mem_cons, mem_append] at hlast hhead ⊢
  tauto

end Families

/-! ## Operations -/

inductive ListOp (ν : Type u)
  | append (head newNode : ν)
  | prepend (head newNode : ν)
  | insertAfter (pos newNode : ν)
  | insertBefore (pos newNode : ν)
  | remove (node : ν)
  | replace (oldNode newNode : ν)

def ListOp.run : ListOp ν → Links ν → Links ν
  | .append head n => listAppend head n
  | .prepend head n => listPrepend head n
  | .insertAfter pos n => listInsertAfter pos n
  | .insertBefore pos n => listInsertBefore pos n
  | .remove n => listRemove n
  | .replace old n => listReplace old n

/-- The node that says which list is meant. -/
def ListOp.anchor : ListOp ν → ν
  | .append head _ | .prepend head _ => head
  | .insertAfter pos _ | .insertBefore pos _ => pos
  | .remove n => n
  | .replace old _ => old

/-- Put `n` behind `pos`. -/
def insertAfter (pos n : ν) : List ν → List ν
  | [] => []
  | a :: l => if a = pos then a :: n :: l else a :: insertAfter pos n l

/-- Put `n` in front of `pos`. -/
def insertBefore (pos n : ν) : List ν → List ν
  | [] => []
  | a :: l => if a = pos then n :: a :: l else a :: insertBefore pos n l

/-- The operation on the sequences. Behind the head is the start of a sequence, and in front
of the head its end. -/
def ListOp.apply : ListOp ν → Lists ν → Lists ν
  | .append head n, F =>
    ⟨fun h => if h = head then F.seq h ++ [n] else F.seq h, F.removed.filter (· ≠ n)⟩
  | .prepend head n, F =>
    ⟨fun h => if h = head then n :: F.seq h else F.seq h, F.removed.filter (· ≠ n)⟩
  | .insertAfter pos n, F =>
    ⟨fun h => if h = pos then n :: F.seq h else Container.insertAfter pos n (F.seq h),
      F.removed.filter (· ≠ n)⟩
  | .insertBefore pos n, F =>
    ⟨fun h => if h = pos then F.seq h ++ [n] else Container.insertBefore pos n (F.seq h),
      F.removed.filter (· ≠ n)⟩
  | .remove n, F => ⟨fun h => (F.seq h).erase n, n :: F.removed⟩
  | .replace old n, F =>
    ⟨fun h => (F.seq h).map fun x => if x = old then n else x, F.removed.filter (· ≠ n)⟩

/-- Nodes to be put in are not linked; places are. A node is removed from the list it is in, or
once more after it was removed. -/
def ListOp.Allowed (heads : Set ν) : ListOp ν → Lists ν → Prop
  | .append head n, F | .prepend head n, F => head ∈ heads ∧ ¬ F.Linked heads n
  | .insertAfter pos n, F | .insertBefore pos n, F => F.Linked heads pos ∧ ¬ F.Linked heads n
  | .remove n, F => (∃ h ∈ heads, n ∈ F.seq h) ∨ n ∈ F.removed
  | .replace old n, F => (∃ h ∈ heads, old ∈ F.seq h) ∧ ¬ F.Linked heads n

section Sequences

variable {pos n : ν} {l1 l2 l : List ν}

theorem insertAfter_append (h : pos ∉ l1) :
    insertAfter pos n (l1 ++ pos :: l2) = l1 ++ pos :: n :: l2 := by
  induction l1 with
  | nil => exact if_pos rfl
  | cons a l1 ih =>
    rw [cons_append, insertAfter, if_neg (ne_of_not_mem_cons h).symm,
      ih (not_mem_of_not_mem_cons h)]
    rfl

theorem insertAfter_of_not_mem (h : pos ∉ l) : insertAfter pos n l = l := by
  induction l with
  | nil => rfl
  | cons a l ih =>
    rw [insertAfter, if_neg (ne_of_not_mem_cons h).symm, ih (not_mem_of_not_mem_cons h)]

theorem insertBefore_append (h : pos ∉ l1) :
    insertBefore pos n (l1 ++ pos :: l2) = l1 ++ n :: pos :: l2 := by
  induction l1 with
  | nil => exact if_pos rfl
  | cons a l1 ih =>
    rw [cons_append, insertBefore, if_neg (ne_of_not_mem_cons h).symm,
      ih (not_mem_of_not_mem_cons h)]
    rfl

theorem insertBefore_of_not_mem (h : pos ∉ l) : insertBefore pos n l = l := by
  induction l with
  | nil => rfl
  | cons a l ih =>
    rw [insertBefore, if_neg (ne_of_not_mem_cons h).symm,
      ih (not_mem_of_not_mem_cons h)]

theorem map_replace_of_not_mem (h : pos ∉ l) : (l.map fun x => if x = pos then n else x) = l := by
  refine (map_congr_left fun x hx => ?_).trans (map_id l)
  exact if_neg fun hxp : x = pos => h (hxp ▸ hx)

end Sequences

section Steps

variable {s : Links ν} {heads : Set ν} {F : Lists ν} {h pos n : ν} {l1 l2 mid : List ν}

/-- What an operation does: the lists become those of the sequences, and the links of lists
that it does not mean stay. -/
def StepOk (heads : Set ν) (F : Lists ν) (s : Links ν) (op : ListOp ν) : Prop :=
  Family (op.run s) heads (op.apply F) ∧
    ∀ h ∈ heads, op.anchor ∉ h :: F.seq h → (op.apply F).seq h = F.seq h ∧
      ∀ x ∈ h :: F.seq h, (op.run s).next x = s.next x ∧ (op.run s).prev x = s.prev x

section

variable (hF : Family s heads F)
include hF

/-- An edit of the list with head `h` that links or unlinks `n`: the other lists and the removed
nodes stay. -/
theorem Family.edit {op : ListOp ν} (hh : h ∈ heads) (hanchor : op.anchor ∈ h :: F.seq h)
    (hn : n ∈ F.seq h ∨ ¬ F.Linked heads n) (hring : Ring (op.run s) h ((op.apply F).seq h))
    (hnd : (h :: (op.apply F).seq h).Nodup) (hsub : ∀ x ∈ (op.apply F).seq h, x ∈ F.seq h ∨ x = n)
    (hseq : ∀ h' ∈ heads, op.anchor ∉ h' :: F.seq h' → (op.apply F).seq h' = F.seq h')
    (hframe : ∀ x, x ∉ h :: F.seq h → x ≠ n →
      (op.run s).next x = s.next x ∧ (op.run s).prev x = s.prev x)
    (hremoved : ∀ x ∈ (op.apply F).removed, x ∈ F.removed ∧ x ≠ n ∨ x = n ∧ n ∈ F.seq h ∧
      n ∉ (op.apply F).seq h ∧ (op.run s).next n = n ∧ (op.run s).prev n = n) :
    StepOk heads F s op := by
  -- a node of the edited list is in no other one
  have hother : ∀ h' ∈ heads, h' ≠ h → ∀ x, x ∈ h :: F.seq h ∨ x = n → x ∉ h' :: F.seq h' := by
    rintro h' hh' hne x hx hx'
    have hdisj : ∀ y ∈ h :: F.seq h, y ∉ h' :: F.seq h' := hF.disjoint h hh h' hh' hne.symm
    rcases hx with hx | rfl
    · exact hdisj x hx hx'
    · exact hn.elim (fun hmem => hdisj x (mem_cons_of_mem _ hmem) hx') fun h => h ⟨h', hh', hx'⟩
  have hsame : ∀ h' ∈ heads, h' ≠ h → (op.apply F).seq h' = F.seq h' := fun h' hh' hne =>
    hseq h' hh' (hother h' hh' hne _ (.inl hanchor))
  have hsub' : ∀ x ∈ h :: (op.apply F).seq h, x ∈ h :: F.seq h ∨ x = n := by
    intro x hx
    rcases mem_cons.mp hx with rfl | hx
    · exact .inl mem_cons_self
    · exact (hsub x hx).imp_left (mem_cons_of_mem _)
  have hout : ∀ h' ∈ heads, h' ≠ h → ∀ x ∈ h' :: F.seq h',
      (op.run s).next x = s.next x ∧ (op.run s).prev x = s.prev x := fun h' hh' hne x hx =>
    hframe x (fun hmem => hother h' hh' hne x (.inl hmem) hx)
      fun heq => hother h' hh' hne x (.inr heq) hx
  refine ⟨⟨fun h' hh' => ?_, fun h' hh' => ?_, fun a ha b hb hab x hxa hxb => ?_, fun x hx => ?_⟩,
    fun h' hh' hnot => ⟨hseq h' hh' hnot, hout h' hh' fun hne => hnot (hne ▸ hanchor)⟩⟩
  · by_cases hne : h' = h
    · rw [hne]
      exact hring
    · rw [hsame h' hh' hne]
      exact (hF.ring h' hh').congr (fun x hx => (hout h' hh' hne x hx).1)
        fun x hx => (hout h' hh' hne x hx).2
  · by_cases hne : h' = h
    · rw [hne]
      exact hnd
    · rw [hsame h' hh' hne]
      exact hF.nodup h' hh'
  · by_cases hah : a = h
    · subst hah
      rw [hsame b hb hab.symm] at hxb
      exact hother b hb hab.symm x (hsub' x hxa) hxb
    rw [hsame a ha hah] at hxa
    by_cases hbh : b = h
    · subst hbh
      exact hother a ha hab x (hsub' x hxb) hxa
    · rw [hsame b hb hbh] at hxb
      exact hF.disjoint a ha b hb hab x hxa hxb
  · rcases hremoved x hx with ⟨hxr, hxn⟩ | ⟨rfl, hmem, hgone, hself⟩
    · -- what was out stays out
      obtain ⟨hnext, hprev, hlinked⟩ := hF.removed x hxr
      obtain ⟨hnext', hprev'⟩ := hframe x (fun hmem => hlinked ⟨h, hh, hmem⟩) hxn
      refine ⟨hnext'.trans hnext, hprev'.trans hprev, ?_⟩
      rintro ⟨h', hh', hx'⟩
      by_cases hne : h' = h
      · subst hne
        exact hlinked ⟨h', hh, (hsub' x hx').resolve_right hxn⟩
      · rw [hsame h' hh' hne] at hx'
        exact hlinked ⟨h', hh', hx'⟩
    · refine ⟨hself.1, hself.2, ?_⟩
      rintro ⟨h', hh', hx'⟩
      by_cases hne : h' = h
      · subst hne
        rcases mem_cons.mp hx' with rfl | hx'
        · exact (nodup_cons.mp (hF.nodup x hh)).1 hmem
        · exact hgone hx'
      · rw [hsame h' hh' hne] at hx'
        exact hother h' hh' hne x (.inr rfl) hx'

theorem Family.linkIn {op : ListOp ν} (hh : h ∈ heads) (hl : F.seq h = l1 ++ mid ++ l2)
    (hn : ¬ F.Linked heads n) (hs : LinkedIn s (op.run s) (lastOr id h l1) n (headOr id l2 h))
    (hanchor : op.anchor ∈ h :: F.seq h) (hseqh : (op.apply F).seq h = l1 ++ n :: l2)
    (hseq : ∀ h' ∈ heads, op.anchor ∉ h' :: F.seq h' → (op.apply F).seq h' = F.seq h')
    (hremoved : (op.apply F).removed = F.removed.filter (· ≠ n)) : StepOk heads F s op := by
  have hring := hF.ring h hh
  have hnd := hF.nodup h hh
  have hnh : n ∉ h :: F.seq h := fun hmem => hn ⟨h, hh, hmem⟩
  obtain ⟨hp, hq⟩ := Lists.ends_mem hl
  rw [hl] at hring hnd hnh
  have hsub : (h :: (l1 ++ l2)).Sublist (h :: (l1 ++ mid ++ l2)) :=
    ((sublist_append_left l1 mid).append (List.Sublist.refl l2)).cons_cons h
  have hnew : n ∉ h :: (l1 ++ l2) := fun hmem => hnh (hsub.mem hmem)
  have hperm : (h :: (l1 ++ n :: l2)).Perm (n :: h :: (l1 ++ l2)) :=
    (perm_middle.cons h).trans (.swap n h _)
  refine hF.edit hh hanchor (.inr hn) (hseqh ▸ hring.linkIn hnd hnew hs) ?_ (fun x hx => ?_) hseq
    (fun x hx hxn => hs.frame (fun h => hx (h ▸ hp)) (fun h => hx (h ▸ hq)) hxn) fun x hx => .inl ?_
  · rw [hseqh]
    exact hperm.nodup_iff.mpr (nodup_cons.mpr ⟨hnew, hnd.sublist hsub⟩)
  · rw [hseqh] at hx
    rw [hl]
    simp only [mem_cons, mem_append] at hx ⊢
    tauto
  · rw [hremoved, mem_filter, decide_eq_true_iff] at hx
    exact hx

theorem Family.prepend (hh : h ∈ heads) (hn : ¬ F.Linked heads n) :
    StepOk heads F s (.prepend h n) := by
  have hne : n ≠ h := fun hnh => hn ⟨h, hh, hnh ▸ mem_cons_self⟩
  have hlinks := listInsertAfter_links (s := s) hne
  rw [(hF.ring h hh).first] at hlinks
  exact hF.linkIn hh (show F.seq h = [] ++ [] ++ F.seq h from rfl) hn hlinks mem_cons_self
    (if_pos rfl) (fun h' _ hout => if_neg (ne_of_not_mem_cons hout).symm) rfl

theorem Family.append (hh : h ∈ heads) (hn : ¬ F.Linked heads n) :
    StepOk heads F s (.append h n) := by
  have hne : n ≠ h := fun hnh => hn ⟨h, hh, hnh ▸ mem_cons_self⟩
  have hlinks := listInsertBefore_links (s := s) hne
  rw [(hF.ring h hh).last] at hlinks
  exact hF.linkIn hh (show F.seq h = F.seq h ++ [] ++ [] by simp) hn hlinks mem_cons_self
    (if_pos rfl) (fun h' _ hout => if_neg (ne_of_not_mem_cons hout).symm) rfl

theorem Family.insertAfter (hpos : F.Linked heads pos)
    (hn : ¬ F.Linked heads n) : StepOk heads F s (.insertAfter pos n) := by
  have hne : n ≠ pos := fun hnp => hn (hnp ▸ hpos)
  have hlinks := listInsertAfter_links (s := s) hne
  have hseq : ∀ h ∈ heads, pos ∉ h :: F.seq h →
      ((ListOp.insertAfter pos n).apply F).seq h = F.seq h := fun h _ hout =>
    (if_neg (ne_of_not_mem_cons hout).symm).trans
      (insertAfter_of_not_mem (not_mem_of_not_mem_cons hout))
  obtain ⟨h, hh, hmem⟩ := hpos
  rcases mem_cons.mp hmem with rfl | hin
  · rw [(hF.ring pos hh).first] at hlinks
    exact hF.linkIn hh (show F.seq pos = [] ++ [] ++ F.seq pos from rfl) hn hlinks hmem
      (if_pos rfl) hseq rfl
  · obtain ⟨l1, l2, hl, hout, -, -, hnext⟩ := hF.split hh hin
    have hlast : lastOr id h (l1 ++ [pos]) = pos := lastOr_append h l1 [pos]
    rw [hnext] at hlinks
    refine hF.linkIn hh (show F.seq h = (l1 ++ [pos]) ++ [] ++ l2 by simp [hl]) hn ?_ hmem ?_ hseq
      rfl
    · rw [hlast]
      exact hlinks
    · refine (if_neg (ne_of_not_mem_cons hout).symm).trans ?_
      rw [hl, insertAfter_append (not_mem_of_not_mem_cons hout), append_assoc]
      rfl

theorem Family.insertBefore (hpos : F.Linked heads pos)
    (hn : ¬ F.Linked heads n) : StepOk heads F s (.insertBefore pos n) := by
  have hne : n ≠ pos := fun hnp => hn (hnp ▸ hpos)
  have hlinks := listInsertBefore_links (s := s) hne
  have hseq : ∀ h ∈ heads, pos ∉ h :: F.seq h →
      ((ListOp.insertBefore pos n).apply F).seq h = F.seq h := fun h _ hout =>
    (if_neg (ne_of_not_mem_cons hout).symm).trans
      (insertBefore_of_not_mem (not_mem_of_not_mem_cons hout))
  obtain ⟨h, hh, hmem⟩ := hpos
  rcases mem_cons.mp hmem with rfl | hin
  · rw [(hF.ring pos hh).last] at hlinks
    exact hF.linkIn hh (show F.seq pos = F.seq pos ++ [] ++ [] by simp) hn hlinks hmem
      (if_pos rfl) hseq rfl
  · obtain ⟨l1, l2, hl, hout, -, hprev, -⟩ := hF.split hh hin
    rw [hprev] at hlinks
    refine hF.linkIn hh (show F.seq h = l1 ++ [] ++ pos :: l2 by simp [hl]) hn hlinks hmem ?_ hseq
      rfl
    refine (if_neg (ne_of_not_mem_cons hout).symm).trans ?_
    rw [hl, insertBefore_append (not_mem_of_not_mem_cons hout)]

theorem Family.remove (hh : h ∈ heads) (hn : n ∈ F.seq h) : StepOk heads F s (.remove n) := by
  obtain ⟨l1, l2, hl, hout, -, hprev, hnext⟩ := hF.split hh hn
  have hl : F.seq h = l1 ++ [n] ++ l2 := by simp [hl]
  have hlinks := listRemove_links (s := s) (n := n) fun heq => hout (heq ▸ hprev ▸ lastOr_mem h l1)
  rw [hprev, hnext] at hlinks
  have hseqh : ((ListOp.remove n).apply F).seq h = l1 ++ l2 := by
    show (F.seq h).erase n = _
    rw [hl, append_assoc, erase_append_right _ (not_mem_of_not_mem_cons hout)]
    exact congrArg (l1 ++ ·) (erase_cons_head ..)
  have hring := hF.ring h hh
  have hnd := hF.nodup h hh
  obtain ⟨hp, hq⟩ := Lists.ends_mem hl
  rw [hl] at hring hnd
  have hperm : (h :: (l1 ++ [n] ++ l2)).Perm (n :: h :: (l1 ++ l2)) := by
    rw [append_assoc]
    exact (perm_middle.cons h).trans (.swap n h _)
  obtain ⟨hgone, hnd'⟩ := nodup_cons.mp (hperm.nodup_iff.mp hnd)
  refine hF.edit hh (mem_cons_of_mem _ hn) (.inl hn) (hseqh ▸ hring.linkOut hnd hlinks)
    (hseqh ▸ hnd') (fun x hx => .inl (mem_of_mem_erase hx))
    (fun h' _ hout => erase_of_not_mem (not_mem_of_not_mem_cons hout))
    (fun x hx hxn => hlinks.frame (fun h => hx (h ▸ hp)) (fun h => hx (h ▸ hq)) hxn) fun x hx => ?_
  by_cases hxn : x = n
  · refine .inr ⟨hxn, hn, ?_, ?_, ?_⟩
    · rw [hseqh]
      exact not_mem_of_not_mem_cons hgone
    · exact (hlinks.next n).trans (if_pos rfl)
    · exact (hlinks.prev n).trans (if_pos rfl)
  · exact .inl ⟨(mem_cons.mp hx).resolve_left hxn, hxn⟩

theorem Family.replace {old : ν} (hh : h ∈ heads) (hold : old ∈ F.seq h)
    (hn : ¬ F.Linked heads n) : StepOk heads F s (.replace old n) := by
  obtain ⟨l1, l2, hl, hout, hout2, hprev, hnext⟩ := hF.split hh hold
  have hmem : old ∈ h :: F.seq h := mem_cons_of_mem _ hold
  have hlinks := listReplace_links (s := s) (n := n) (fun heq => hn ⟨h, hh, heq ▸ hmem⟩)
    fun heq => hout (heq ▸ hprev ▸ lastOr_mem h l1)
  rw [hprev, hnext] at hlinks
  refine hF.linkIn hh (show F.seq h = l1 ++ [old] ++ l2 by simp [hl]) hn hlinks hmem ?_
    (fun h' _ hout => map_replace_of_not_mem (not_mem_of_not_mem_cons hout)) rfl
  show (F.seq h).map (fun x => if x = old then n else x) = _
  rw [hl, map_append, map_cons, if_pos rfl, map_replace_of_not_mem hout2,
    map_replace_of_not_mem (not_mem_of_not_mem_cons hout)]

/-- A second `list_remove` does nothing. -/
theorem Family.removeAgain (hn : n ∈ F.removed) :
    listRemove n s = s ∧ StepOk heads F s (.remove n) := by
  obtain ⟨hnext, hprev, hlinked⟩ := hF.removed n hn
  have hsame : listRemove n s = s := listRemove_self hprev hnext
  have hseq : ∀ h ∈ heads, ((ListOp.remove n).apply F).seq h = F.seq h := fun h hh =>
    erase_of_not_mem fun hmem => hlinked ⟨h, hh, mem_cons_of_mem _ hmem⟩
  have hrun : (ListOp.remove n).run s = s := hsame
  refine ⟨hsame, ?_, fun h hh _ => ⟨hseq h hh, fun x _ => ?_⟩⟩
  · rw [hrun]
    refine ⟨fun h hh => ?_, fun h hh => ?_, fun h hh h' hh' hne x hx => ?_, fun x hx => ?_⟩
    · rw [hseq h hh]
      exact hF.ring h hh
    · rw [hseq h hh]
      exact hF.nodup h hh
    · rw [hseq h hh] at hx
      rw [hseq h' hh']
      exact hF.disjoint h hh h' hh' hne x hx
    · have hx : x ∈ F.removed := by
        rcases mem_cons.mp hx with rfl | hx
        · exact hn
        · exact hx
      obtain ⟨hnext, hprev, hlinked⟩ := hF.removed x hx
      refine ⟨hnext, hprev, fun ⟨h, hh, hx⟩ => hlinked ⟨h, hh, ?_⟩⟩
      rwa [hseq h hh] at hx
  · rw [hrun]
    exact ⟨rfl, rfl⟩

/-- Every operation on the links is the operation on the sequences. -/
theorem Family.step {op : ListOp ν} (hop : op.Allowed heads F) : StepOk heads F s op := by
  cases op with
  | append head n => exact hF.append hop.1 hop.2
  | prepend head n => exact hF.prepend hop.1 hop.2
  | insertAfter pos n => exact hF.insertAfter hop.1 hop.2
  | insertBefore pos n => exact hF.insertBefore hop.1 hop.2
  | remove n =>
    rcases hop with ⟨h, hh, hn⟩ | hn
    · exact hF.remove hh hn
    · exact (hF.removeAgain hn).2
  | replace old n =>
    obtain ⟨⟨h, hh, hold⟩, hn⟩ := hop
    exact hF.replace hh hold hn

end

end Steps

/-- An operation on the links, and on the sequences beside them. -/
def ListStep (heads : Set ν) (r : Links ν × Lists ν) (op : ListOp ν) (r' : Links ν × Lists ν) :
    Prop :=
  op.Allowed heads r.2 ∧ r' = (op.run r.1, op.apply r.2)

/-- **Intrusive lists refine sequences.** Start with disjoint circular lists and do any sequence
of operations. Following `next` from a head then visits the sequence of the list and comes
back, following `prev` its reverse, and `list_empty` says whether it is empty. The next
operation leaves the links of the other lists as they are, and removing a removed node
once more changes nothing. -/
theorem list_refines {heads : Set ν} {s0 s : Links ν} {F0 F : Lists ν} {ops : List (ListOp ν)}
    (hstart : Family s0 heads F0) (hrun : Run (ListStep heads) (s0, F0) ops (s, F)) :
    (∀ h ∈ heads,
      (∃ n, ∀ fuel, n ≤ fuel → listForEach s.next h fuel (s.next h) = some (F.seq h) ∧
        listForEach s.prev h fuel (s.prev h) = some (F.seq h).reverse) ∧
      (listEmpty h s = true ↔ F.seq h = [])) ∧
    (∀ op : ListOp ν, op.Allowed heads F → ∀ h ∈ heads, op.anchor ∉ h :: F.seq h →
      (op.apply F).seq h = F.seq h ∧
      ∀ x ∈ h :: F.seq h, (op.run s).next x = s.next x ∧ (op.run s).prev x = s.prev x) ∧
    (∀ n ∈ F.removed, listRemove n s = s) := by
  have hF : Family s heads F :=
    hrun.invariant (I := fun r => Family r.1 heads r.2)
      (fun _ _ _ hF ⟨hop, heq⟩ => heq ▸ (hF.step hop).1) hstart
  refine ⟨fun h hh => ⟨⟨(F.seq h).length + 1, fun fuel hfuel => ⟨?_, ?_⟩⟩, ?_⟩,
    fun op hop => (hF.step hop).2, fun n hn => (hF.removeAgain hn).1⟩
  · exact (hF.ring h hh).forEach (List.nodup_cons.mp (hF.nodup h hh)).1 hfuel
  · refine (hF.ring h hh).reverse.forEach (fun hmem => ?_) (by rwa [List.length_reverse])
    exact (List.nodup_cons.mp (hF.nodup h hh)).1 (List.mem_reverse.mp hmem)
  · exact (hF.ring h hh).empty_iff (List.nodup_cons.mp (hF.nodup h hh)).1

/-- Two nodes appended to an empty list, and the first one removed. -/
theorem list_refines_two : ∃ (s : Links Nat) (F : Lists Nat),
    Run (ListStep {0}) (⟨id, id⟩, ⟨fun _ => [], []⟩) [.append 0 1, .append 0 2, .remove 1] (s, F) ∧
      F.seq 0 = [2] ∧ (listEmpty 0 s = true ↔ F.seq 0 = []) := by
  have hstart : Family (⟨id, id⟩ : Links Nat) {0} ⟨fun _ => [], []⟩ := by
    refine ⟨fun h _ => ⟨rfl, rfl, trivial⟩, fun h _ => List.nodup_singleton h, ?_, nofun⟩
    rintro h rfl h' rfl hne
    exact absurd rfl hne
  have hfree : ∀ {F : Lists Nat} {n : Nat}, n ≠ 0 → n ∉ F.seq 0 → ¬ F.Linked {0} n := by
    rintro F n hn hseq ⟨h, rfl, hmem⟩
    rcases List.mem_cons.mp hmem with rfl | hmem
    · exact hn rfl
    · exact hseq hmem
  have hrun : Run (ListStep {0}) ((⟨id, id⟩ : Links Nat), (⟨fun _ => [], []⟩ : Lists Nat))
      [.append 0 1, .append 0 2, .remove 1] _ :=
    .cons ⟨⟨rfl, hfree (by decide) (by decide)⟩, rfl⟩
      (.cons ⟨⟨rfl, hfree (by decide) (by decide)⟩, rfl⟩
        (.cons ⟨.inl ⟨0, rfl, by decide⟩, rfl⟩ (.nil _)))
  exact ⟨_, _, hrun, by decide, ((list_refines hstart hrun).1 0 rfl).2⟩

end GosKernel.Container
