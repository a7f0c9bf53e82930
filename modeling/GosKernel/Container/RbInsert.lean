import GosKernel.Container.RbShape
import Mathlib.Order.Interval.Finset.Nat

/-!
# Insertion

`rb_insert` on the tree in memory: the new node comes to the leaf that the comparisons
lead to, as a red node, and the repair loop moves the one place where red may follow red
upwards until it is gone.

- **`rb_insert_tree`**: all insertions into a new tree.
-/

namespace GosKernel.Container

open RedBlack Exec List

/-! ## Looking around -/

section

variable {ν : Type} {s : RbTree ν} {ctx : List (Frame ν)} {t : RedBlack.Tree ν} {n : ν}
  {f g : Frame ν}

theorem Shows.parent_returns (h : Shows s (f :: ctx) t) (hn : t.root = some n) :
    Returns (readNode n (·.parent)) s (some f.key) s :=
  congrArg (fun p => some (p, s)) (h.tree.parent_eq hn)

theorem Shows.grandparent_returns (h : Shows s (f :: g :: ctx) t) (hn : t.root = some n) :
    Returns (grandparent n) s (some g.key) s := by
  rw [Returns, grandparent, (h.parent_returns hn).bind_eq]
  exact (shows_fill.mpr h).parent_returns (Tree.root_join ..)

theorem Shows.isRed_returns (h : Shows s ctx t) :
    Returns (rbIsRed t.root) s (decide (t.color = .red)) s := by
  cases t with
  | nil => rfl
  | node c l x r =>
    show some (decide ((s.node x).color = .red), s) = _
    rw [h.tree.1]
    rfl

/-- The keys of the frames and of the focus are different. -/
theorem Shows.root_ne (h : Shows s ctx t) (hn : t.root = some n) {z : ν} (hz : z ∈ keys ctx) :
    n ≠ z := (nodup_append.mp h.nodup).2.2 n (Tree.root_mem hn) z hz

theorem Shows.sibling_ne (h : Shows s (f :: ctx) t) (hn : t.root = some n) :
    f.sibling.root ≠ some n := fun hroot => h.root_ne hn (mem_append_left _
  (mem_cons_of_mem _ (Tree.root_mem hroot))) rfl

theorem Shows.uncle_returns (h : Shows s (f :: g :: ctx) t) :
    Returns (readNode g.key (·.child g.side.flip)) s g.sibling.root s ∧
      Returns (rbIsRed g.sibling.root) s (decide (g.sibling.color = .red)) s := by
  have hfill := shows_fill.mpr h
  refine ⟨?_, (shows_join_flip.mp (shows_fill.mpr hfill)).isRed_returns⟩
  rw [Returns, readNode, read_apply, hfill.frame_eq, RbNode.child_link_flip]

theorem rbDescend_returns {cmp : ν → ν → Int} (h : Shows s ctx t) {fuel : Nat}
    (hfuel : t.height < fuel) :
    Returns (rbDescend cmp n fuel (parentOf ctx) t.root) s
      (parentOf (descend (cmp n · < 0) t ctx)) s := by
  induction t generalizing ctx fuel with
  | nil =>
    obtain ⟨fuel, rfl⟩ := fuel_succ hfuel
    rfl
  | node c l x r ihl ihr =>
    obtain ⟨fuel, rfl⟩ := fuel_succ hfuel
    rw [RedBlack.Tree.height] at hfuel
    show rbDescend cmp n (fuel + 1) (parentOf ctx) (some x) s = _
    rw [rbDescend, readNode_bind, descend, h.tree.1]
    by_cases hlt : cmp n x < 0
    · rw [if_pos hlt, if_pos hlt]
      exact ihl (shows_join (d := .left).mp h) (by omega)
    · rw [if_neg hlt, if_neg hlt]
      exact ihr (shows_join (d := .right).mp h) (by omega)

/-! ## Order -/

/-- A comparator that is a total preorder: `cmp a b ≤ 0` is transitive, and exchanging the
arguments changes the sign. -/
structure TotalPreorder (cmp : ν → ν → Int) : Prop where
  lt_iff : ∀ a b, cmp a b < 0 ↔ 0 < cmp b a
  trans : ∀ a b c, cmp a b ≤ 0 → cmp b c ≤ 0 → cmp a c ≤ 0

/-- `a` comes before `b`: it is less, or it is equal and was inserted first. -/
def Precedes (cmp : ν → ν → Int) (inserted : List ν) (a b : ν) : Prop :=
  cmp a b < 0 ∨ cmp a b = 0 ∧ [a, b].Sublist inserted

/-- What is less than one node is less than all that come after it. -/
theorem TotalPreorder.lt_of_lt_of_precedes {cmp : ν → ν → Int} (hcmp : TotalPreorder cmp)
    {a b : ν} {inserted : List ν} (hn : cmp n a < 0) (hab : Precedes cmp inserted a b) :
    cmp n b < 0 := by
  have hle : cmp a b ≤ 0 := by
    rcases hab with hlt | ⟨heq, -⟩
    · exact hlt.le
    · exact heq.le
  by_contra hnb
  have hbn : cmp b n ≤ 0 := by
    by_contra hbn
    exact hnb ((hcmp.lt_iff n b).mpr (not_le.mp hbn))
  have han := hcmp.trans a b n hle hbn
  exact absurd ((hcmp.lt_iff n a).mp hn) (not_lt.mpr han)

end

section

variable {ν : Type} [DecidableEq ν] {s : RbTree ν} {ctx : List (Frame ν)} {t : RedBlack.Tree ν}
  {n : ν} {f g : Frame ν}

section

variable (h : Shows s (f :: g :: ctx) t)
include h

theorem Shows.parentSide_returns (hn : t.root = some n) : Returns (parentSide n) s g.side s := by
  have hg := (shows_fill.mpr h).frame_eq
  have hne := (shows_fill.mpr h).sibling_ne (Tree.root_join ..)
  rw [Frame.fill, Tree.root_join] at hg
  have hside : (if some f.key = (s.node g.key).left then Side.left else .right) = g.side := by
    have hfind := RbNode.side_of_child .left hg hne
    rw [← hfind]
    exact if_congr eq_comm rfl rfl
  rw [Returns, parentSide, (h.parent_returns hn).bind_eq,
    (h.grandparent_returns hn).bind_eq,
    deref_bind,
    readNode_bind, hside]
  rfl

/-! ## Repair -/

/-- The sibling of the parent is red: three nodes change color. -/
theorem Shows.recolor (hn : t.root = some n) (hred : g.sibling.color = .red) :
    ∃ s', Returns (rbRepair g.side n) s g.key s' ∧ s'.count = s.count ∧
      Shows s' ctx (.join g.side .red ((f.fill t).setColor .black) g.key
        (g.sibling.setColor .black)) := by
  have hfill := shows_fill.mpr h
  obtain ⟨hy, hisred⟩ := h.uncle_returns
  rw [decide_eq_true hred] at hisred
  -- the parent, its sibling, and the grandparent, with the focus on each
  have h1 := hfill.setColor .black
  rw [Frame.fill, Tree.root_join, Tree.setColor_join] at h1
  have h2 := shows_join_flip.mpr ((shows_join_flip.mp (shows_fill.mpr h1)).setColor .black)
  have h3 := h2.setColor .red
  rw [Tree.root_join, Tree.setColor_join] at h3
  have hn2 := shows_join.mp (shows_join.mp h2)
  have hn3 := shows_join.mp (shows_join.mp h3)
  rw [Frame.fill, Tree.setColor_join]
  refine ⟨((s.modify (some f.key) (·.setColor .black)).modify g.sibling.root
    (·.setColor .black)).modify (some g.key) (·.setColor .red), ?_, rfl, h3⟩
  rw [Returns, rbRepair, (h.grandparent_returns hn).bind_eq,
    deref_bind,
    hy.bind_eq, hisred.bind_eq, if_pos rfl,
    (h.parent_returns hn).bind_eq, rbSetBlack, (modifyIf_returns _ _ _).bind_eq,
    rbSetBlack, (modifyIf_returns _ _ _).bind_eq,
    (hn2.grandparent_returns hn).bind_eq, rbSetRed,
    (modifyIf_returns _ _ _).bind_eq, (hn3.grandparent_returns hn).bind_eq]
  rfl

variable {T : RedBlack.Tree ν} {inserted : List ν} {m : Nat}

/-- After `rbStraighten` the focus is on the same side as its parent. -/
theorem Shows.straighten (hn : t.root = some n)
    (hred : f.color = .red) (ht : Balanced t .red m) (hf : Balanced f.sibling .black m) :
    ∃ s' f' t' n', Returns (rbStraighten g.side n) s n' s' ∧ s'.count = s.count ∧
      Shows s' (f' :: g :: ctx) t' ∧ t'.root = some n' ∧ f'.side = g.side ∧ f'.color = .red ∧
      Balanced t' .red m ∧ Balanced f'.sibling .black m ∧
      (f'.fill t').inorder = (f.fill t).inorder := by
  have hchild : Returns (readNode f.key (·.child g.side.flip)) s
      ((s.node f.key).child g.side.flip) s := rfl
  have hstart : rbStraighten g.side n s = (if (s.node f.key).child g.side.flip = some n then do
      rbRotate g.side f.key
      pure f.key
    else pure n) s := by
    rw [rbStraighten, (h.parent_returns hn).bind_eq,
      deref_bind,
      hchild.bind_eq]
  obtain ⟨d, c, p, u⟩ := f
  cases hred
  rcases g.side.eq_or_eq_flip d with rfl | rfl
  · -- it is
    refine ⟨s, ⟨g.side, .red, p, u⟩, t, n, ?_, rfl, h, hn, rfl, rfl, ht, hf, rfl⟩
    rw [Returns, hstart, h.frame_eq, RbNode.child_link_flip, if_neg (h.sibling_ne hn)]
    rfl
  · cases t with
    | nil => cases hn
    | node c l x r =>
      cases hn
      cases ht with
      | red hl hr =>
        obtain ⟨a, b, hab⟩ := Tree.exists_join g.side .red l n r
        have htree : Balanced (.join g.side .red a n b) .red m := hab ▸ .red hl hr
        rw [hab] at h
        obtain ⟨ha, hb⟩ := htree.of_join_red
        have hfill : Shows s (g :: ctx) (.join g.side .red u p (.join g.side .red a n b)) := by
          have hfill := shows_fill.mpr h
          rwa [Frame.fill, Tree.join_flip] at hfill
        obtain ⟨s', hrot, hcount, h'⟩ := hfill.rotate
        refine ⟨s', ⟨g.side, .red, n, b⟩, .join g.side .red u p a, p, ?_, hcount,
          shows_join.mp h', Tree.root_join .., rfl, rfl, hf.join_red _ ha, hb, ?_⟩
        · have hpn : (s.node p).child g.side.flip = some n := by
            rw [hfill.node_eq, RbNode.child_link_flip, Tree.root_join]
          rw [Returns, hstart, if_pos hpn, hrot.bind_eq]
          rfl
        · rw [Frame.fill, Frame.fill, hab, Tree.join_flip]
          exact (Tree.inorder_rotate ..).symm

/-- The sibling of the parent is black: rotations bring the parent up, as a black node. -/
theorem Shows.turn (hn : t.root = some n)
    (hred : f.color = .red) (ht : Balanced t .red m) (hf : Balanced f.sibling .black m)
    (hblack : g.sibling.color ≠ .red) (hg : Balanced g.sibling .black m) :
    ∃ s' f' t' n', Returns (rbRepair g.side n) s n' s' ∧ s'.count = s.count ∧
      Shows s' (f' :: ctx) t' ∧ t'.root = some n' ∧ f'.color = .black ∧
      Balanced t' .red m ∧ Balanced f'.sibling .red m ∧
      (f'.fill t').inorder = (g.fill (f.fill t)).inorder := by
  obtain ⟨hy, hisred⟩ := h.uncle_returns
  rw [decide_eq_false hblack] at hisred
  obtain ⟨s0, ⟨d, c, p, u⟩, t', n', hstraight, hcount0, h0, hn', hd, hc, ht', hf', horder⟩ :=
    h.straighten hn hred ht hf
  cases hd
  cases hc
  -- the parent turns black, the grandparent red
  have h1 := (shows_fill.mpr h0).setColor .black
  rw [Frame.fill, Tree.root_join, Tree.setColor_join] at h1
  have h2 := (shows_fill.mpr h1).setColor .red
  rw [Frame.fill, Tree.root_join, Tree.setColor_join] at h2
  have hn1 := shows_join.mp h1
  have hn2 := shows_join.mp (shows_join.mp h2)
  -- seen from the other side, it is the rotation of the grandparent
  have hturn := h2
  rw [← Tree.join_flip g.side .red, ← Tree.join_flip g.side .black] at hturn
  obtain ⟨s', hrot, hcount, h'⟩ := hturn.rotate
  rw [Tree.join_flip, Tree.join_flip] at h'
  refine ⟨s', ⟨g.side, .black, p, .join g.side .red u g.key g.sibling⟩, t', n', ?_,
    hcount.trans hcount0, shows_join.mp h', hn', rfl, ht', hf'.join_red _ hg, ?_⟩
  · rw [Returns, rbRepair, (h.grandparent_returns hn).bind_eq,
      deref_bind,
      hy.bind_eq, hisred.bind_eq, if_neg (by decide), hstraight.bind_eq,
      (h0.parent_returns hn').bind_eq, rbSetBlack, (modifyIf_returns _ _ _).bind_eq,
      (hn1.grandparent_returns hn').bind_eq, rbSetRed,
      (modifyIf_returns _ _ _).bind_eq, (hn2.grandparent_returns hn').bind_eq,
      deref_bind, hrot.bind_eq]
    rfl
  · calc (Tree.join g.side .black t' p (.join g.side .red u g.key g.sibling)).inorder
        = (g.fill (.join g.side .red t' p u)).inorder := Tree.inorder_rotate ..
      _ = (g.fill (f.fill t)).inorder := plug_inorder_congr [g] horder

end

/-! ## The loop -/

/-- A red tree in a hole for a black one. -/
structure Pending (s : RbTree ν) (ctx : List (Frame ν)) (n : ν) (t : RedBlack.Tree ν) : Prop where
  shows : Shows s ctx t
  root : t.root = some n
  violation : ∃ m, Fits ctx .black m ∧ Balanced t .red m

/-- **One iteration.** Something is wrong only one level up or more, and the keys are in
the same order. -/
theorem Pending.repair (h : Pending s (f :: ctx) n t) (hred : f.color = .red) :
    ∃ s' d ctx' t' n', Returns (parentSide n) s d s ∧ Returns (rbRepair d n) s n' s' ∧
      s'.count = s.count ∧ Pending s' ctx' n' t' ∧ ctx'.length ≤ ctx.length ∧
      (plug ctx' t').inorder = (plug (f :: ctx) t).inorder := by
  obtain ⟨m, hfits, ht⟩ := h.violation
  obtain ⟨g, ctx, rfl, hgblack, hf, ⟨c, hg⟩, hfits'⟩ := hfits.black_above hred
  have hside := h.shows.parentSide_returns h.root
  by_cases hgred : g.sibling.color = .red
  · rw [hg.color_eq] at hgred
    subst hgred
    obtain ⟨s', hrun, hcount, h'⟩ := h.shows.recolor h.root hg.color_eq
    refine ⟨s', g.side, ctx, _, g.key, hside, hrun, hcount,
      ⟨h', Tree.root_join .., m + 1, hfits', balanced_recolored ht hf hg⟩, Nat.le_succ _, ?_⟩
    exact plug_inorder_congr ctx (Tree.join_inorder _ _ _ _ (Tree.inorder_setColor ..)
      (Tree.inorder_setColor ..))
  · have hc : c = .black := by
      rw [hg.color_eq] at hgred
      cases c with
      | red => exact absurd rfl hgred
      | black => rfl
    subst hc
    obtain ⟨s', f', t', n', hrun, hcount, h', hn', hf'black, ht', hf', horder⟩ :=
      h.shows.turn h.root hred ht hf hgred hg
    obtain ⟨d, c, x, u⟩ := f'
    cases hf'black
    exact ⟨s', g.side, _ :: ctx, t', n', hside, hrun, hcount,
      ⟨h', hn', m, .black hf' hfits', ht'⟩, le_rfl, plug_inorder_congr ctx horder⟩

theorem Pending.stop_returns (h : Pending s ctx n t) (hstop : ∀ f ∈ ctx.head?, f.color = .black)
    (fuel : Nat) : Returns (rbFixup (fuel + 1) n) s () s := by
  rw [Returns, rbFixup, read_bind]
  cases ctx with
  | nil =>
    have hroot : s.root = some n := h.shows.root.trans h.root
    obtain ⟨red, hred⟩ : ∃ red, Returns (rbIsRed (s.node n).parent) s red s := by
      rw [h.shows.tree.parent_eq h.root]
      exact ⟨false, rfl⟩
    rw [readNode_bind, hred.bind_eq, hroot,
      if_neg fun hne => hne.1 rfl]
    rfl
  | cons f ctx =>
    have hblack : Returns (rbIsRed (some f.key)) s false s := by
      have hred := (shows_fill.mpr h.shows).isRed_returns
      rw [Frame.fill, Tree.root_join, Tree.color_join, hstop f rfl] at hred
      exact hred
    rw [(h.shows.parent_returns h.root).bind_eq, hblack.bind_eq,
      if_neg fun hred => Bool.false_ne_true hred.2]
    rfl

theorem Pending.step_returns (h : Pending s (f :: ctx) n t) (hred : f.color = .red) (fuel : Nat) :
    rbFixup (fuel + 1) n s = (parentSide n >>= fun d => rbRepair d n >>= rbFixup fuel) s := by
  have hisred : Returns (rbIsRed (some f.key)) s true s := by
    have hisred := (shows_fill.mpr h.shows).isRed_returns
    rw [Frame.fill, Tree.root_join, Tree.color_join, hred] at hisred
    exact hisred
  have hne : some n ≠ s.root := by
    obtain ⟨k, hk, hroot⟩ := plug_root (cons_ne_nil f ctx)
    rw [h.shows.root, hroot]
    exact fun heq => h.shows.root_ne h.root hk (Option.some.inj heq)
  rw [rbFixup, read_bind,
    (h.shows.parent_returns h.root).bind_eq, hisred.bind_eq, if_pos ⟨hne, rfl⟩]

/-- **The loop** leaves a tree that is balanced once its root is black. -/
theorem Pending.fixup (h : Pending s ctx n t) :
    ∃ s' T, (∀ fuel, ctx.length < fuel → Returns (rbFixup fuel n) s () s') ∧
      s'.count = s.count ∧ Shows s' [] T ∧ T.inorder = (plug ctx t).inorder ∧
      ∃ m, Balanced (T.setColor .black) .black m := by
  -- the number of frames above the violation
  induction hk : ctx.length using Nat.strong_induction_on generalizing s ctx n t with
  | _ k ih =>
    by_cases hstop : ∀ f ∈ ctx.head?, f.color = .black
    · obtain ⟨m, hfits, ht⟩ := h.violation
      refine ⟨s, plug ctx t, fun fuel hfuel => ?_, rfl, shows_plug.mp h.shows, rfl,
        hfits.done ht hstop⟩
      obtain ⟨fuel, rfl⟩ := fuel_succ hfuel
      exact h.stop_returns hstop fuel
    · cases ctx with
      | nil => exact absurd (fun f hf => nomatch hf) hstop
      | cons f ctx =>
        have hred : f.color = .red := by
          cases hc : f.color with
          | red => rfl
          | black =>
            refine absurd (fun g hg => ?_) hstop
            cases hg
            exact hc
        obtain ⟨s1, d, ctx', t', n', hside, hrun, hcount, h1, hlen, horder⟩ := h.repair hred
        rw [length_cons] at hk
        obtain ⟨s', T, hloop, hcount', hshows, horder', hbal⟩ := ih ctx'.length (by omega) h1 rfl
        refine ⟨s', T, fun fuel hfuel => ?_, hcount'.trans hcount, hshows,
          horder'.trans horder, hbal⟩
        obtain ⟨fuel, rfl⟩ := fuel_succ hfuel
        rw [Returns, h.step_returns hred, hside.bind_eq, hrun.bind_eq]
        exact hloop fuel (by omega)

/-! ## The new leaf -/

variable {cmp : ν → ν → Int}

/-- A node that is not in the tree may be changed. -/
theorem Shows.modify_other (h : Shows s ctx t) (hn : n ∉ t.inorder ++ keys ctx)
    (upd : RbNode ν → RbNode ν) : Shows (s.modify (some n) upd) ctx t := by
  have hsame : ∀ z ∈ t.inorder ++ keys ctx, (s.modify (some n) upd).node z = s.node z := by
    intro z hz
    refine if_neg fun heq => hn ?_
    rw [Option.some.inj heq]
    exact hz
  exact ⟨h.root, h.around.congr fun z hz => hsame z (mem_append_right _ hz),
    h.tree.congr fun z hz => hsame z (mem_append_left _ hz), h.nodup⟩

/-- The new node is put into the hole. -/
theorem Shows.attach (h : Shows s ctx .nil) (hn : n ∉ keys ctx) {p : Option ν}
    (hnode : s.node n = ⟨p, none, none, .red⟩)
    (hside : ∀ f ∈ ctx, f.side = if cmp n f.key < 0 then .left else .right) :
    ∃ s', Returns (rbAttach cmp n (parentOf ctx)) s () s' ∧ s'.count = s.count ∧
      Shows s' ctx (.node .red .nil n .nil) := by
  have hnd : ([n] ++ keys ctx).Nodup := nodup_cons.mpr ⟨hn, h.nodup⟩
  have hset : (s.modify (some n) (·.setParent (parentOf ctx))).node n
      = ⟨parentOf ctx, none, none, .red⟩ := by
    show (if some n = some n then _ else _) = _
    rw [if_pos rfl, hnode]
    rfl
  have h1 := h.modify_other hn (·.setParent (parentOf ctx))
  cases ctx with
  | nil => exact ⟨_, rfl, rfl, rfl, trivial, ⟨hset, trivial, trivial⟩, hnd⟩
  | cons f ctx =>
    have hkey : f.key ∈ keys (f :: ctx) := mem_cons_self
    have hfn : some f.key ≠ some n := fun heq => hn (Option.some.inj heq ▸ hkey)
    obtain ⟨k, -, hk⟩ := plug_root (cons_ne_nil f ctx)
    refine ⟨(s.modify (some n) (·.setParent (some f.key))).modify (some f.key)
      (·.setChild (if cmp n f.key < 0 then .left else .right) (some n)), rfl, rfl, ?_, ?_,
      ⟨(if_neg hfn).trans hset, trivial, trivial⟩, hnd⟩
    · rw [hk, ← hk .nil]
      exact h.root
    · rw [← hside f mem_cons_self]
      refine h1.around.replace h.nodup (fun g hg => ?_) fun z _ hz => if_neg hz
      cases hg
      exact if_pos rfl

/-! ## One insertion -/

/-- **One insertion** into a balanced tree. The new node is where the comparisons with it
change, if they change once along the order. -/
theorem rbInsert_spec (h : Shows s [] T) (hbal : Balanced T .black m) (hn : n ∉ T.inorder) :
    ∃ s' T' m' l1 l2, Converges (rbInsert cmp · n) s () s' ∧ Shows s' [] T' ∧
      Balanced T' .black m' ∧ s'.count = wrap64 (s.count + 1) ∧
      T.inorder = l1 ++ l2 ∧ T'.inorder = l1 ++ n :: l2 ∧
      (T.inorder.Pairwise (fun a b => cmp n a < 0 → cmp n b < 0) →
        (∀ a ∈ l1, ¬ cmp n a < 0) ∧ ∀ b ∈ l2, cmp n b < 0) := by
  obtain ⟨ctx, hctx⟩ : ∃ ctx, ctx = descend (cmp n · < 0) T [] := ⟨_, rfl⟩
  have hplug : plug ctx .nil = T := by
    rw [hctx, plug_descend]
    rfl
  have hkeys : n ∉ keys ctx := by
    intro hmem
    have hperm := plug_perm ctx .nil
    rw [hplug] at hperm
    exact hn (hperm.mem_iff.mpr hmem)
  have hfits : Fits ctx .black 0 := hctx ▸ fits_descend hbal .root
  -- the fields of the new node
  obtain ⟨s1, hs1⟩ : ∃ s1, s1 = s.modify (some n) fun z =>
    { z with left := none, right := none, color := .red } := ⟨_, rfl⟩
  have hnode : s1.node n = ⟨(s.node n).parent, none, none, .red⟩ := by
    rw [hs1]
    exact if_pos rfl
  have h1 : Shows s1 [] T := hs1 ▸ h.modify_other (by simpa [RedBlack.keys] using hn) _
  have hleaf : Shows s1 ctx .nil := by
    rw [shows_plug, hplug]
    exact h1
  have hside : ∀ f ∈ ctx, f.side = if cmp n f.key < 0 then .left else .right :=
    hctx ▸ side_descend fun f hf => absurd hf not_mem_nil
  obtain ⟨s2, hattach, hcount2, h2⟩ := hleaf.attach hkeys hnode hside
  have hpending : Pending { s2 with count := wrap64 (s2.count + 1) } ctx n
      (.node .red .nil n .nil) :=
    ⟨⟨h2.root, h2.around, h2.tree, h2.nodup⟩, rfl, 0, hfits, .red .nil .nil⟩
  obtain ⟨s3, T', hloop, hcount3, h3, horder, m', hbal'⟩ := hpending.fixup
  refine ⟨s3.modify T'.root (·.setColor .black), T'.setColor .black, m', before ctx, after ctx,
    ⟨T.height + ctx.length + 1, fun fuel hfuel => ?_⟩, h3.setColor .black, hbal', ?_, ?_, ?_,
    fun hsorted => ?_⟩
  · have hdescend : Returns (rbDescend cmp n fuel none s.root) s1 (parentOf ctx) s1 := by
      have hroot : s.root = T.root := h.root
      rw [hctx, hroot]
      exact rbDescend_returns h1 (by omega)
    show rbInsert cmp fuel n s = _
    rw [rbInsert, read_bind,
      modifyNode_bind, ← hs1, hdescend.bind_eq,
      hattach.bind_eq, (show Returns (Exec.update _) s2 () _ from rfl).bind_eq,
      (hloop fuel (by omega)).bind_eq,
      read_bind, rbSetBlack,
      h3.root]
    exact modifyIf_returns _ _ _
  · show s3.count = _
    rw [hcount3]
    rw [hcount2, hs1]
    rfl
  · rw [← hplug, plug_inorder]
    simp [Tree.inorder]
  · rw [Tree.inorder_setColor, horder, plug_inorder]
    simp [Tree.inorder]
  · rw [hctx]
    exact before_after_descend hsorted (fun a ha => absurd ha not_mem_nil)
      fun a ha => absurd ha not_mem_nil

/-! ## All insertions -/

/-- One `rb_insert` for each node. -/
def rbInsertAll (cmp : ν → ν → Int) (fuel : Nat) : List ν → Exec (RbTree ν) Unit
  | [] => pure ()
  | n :: ns => do
    rbInsert cmp fuel n
    rbInsertAll cmp fuel ns

/-- What holds after the nodes of the list were inserted. -/
structure Inserted (cmp : ν → ν → Int) (s : RbTree ν) (inserted : List ν) (T : RedBlack.Tree ν) :
    Prop where
  shows : Shows s [] T
  balanced : ∃ m, Balanced T .black m
  perm : T.inorder.Perm inserted
  sorted : T.inorder.Pairwise (Precedes cmp inserted)
  count : s.count = inserted.length

theorem Inserted.insert (hcmp : TotalPreorder cmp)
    (h : Inserted cmp s inserted T) (hn : n ∉ inserted) (hlt : inserted.length + 1 < 2 ^ 64) :
    ∃ s' T', Converges (rbInsert cmp · n) s () s' ∧ Inserted cmp s' (inserted ++ [n]) T' := by
  obtain ⟨m, hbal⟩ := h.balanced
  obtain ⟨s', T', m', l1, l2, hrun, hshows, hbal', hcount, hold, hnew, hplace⟩ :=
    rbInsert_spec h.shows hbal fun hmem => hn (h.perm.mem_iff.mp hmem)
  obtain ⟨hleft, hright⟩ :=
    hplace (h.sorted.imp fun hab hna => hcmp.lt_of_lt_of_precedes hna hab)
  refine ⟨s', T', hrun, hshows, ⟨m', hbal'⟩, ?_, ?_, ?_⟩
  · rw [hnew]
    refine perm_middle.trans ?_
    rw [← hold]
    exact (h.perm.cons n).trans (perm_append_singleton n inserted).symm
  · have hmono : ∀ {a b}, Precedes cmp inserted a b → Precedes cmp (inserted ++ [n]) a b :=
      fun hab => hab.imp_right fun hab => ⟨hab.1, hab.2.trans (sublist_append_left _ _)⟩
    have hsorted := h.sorted.imp hmono
    rw [hold, pairwise_append] at hsorted
    obtain ⟨hl1, hl2, hl12⟩ := hsorted
    rw [hnew, pairwise_append]
    refine ⟨hl1, pairwise_cons.mpr ⟨fun b hb => .inl (hright b hb), hl2⟩, fun a ha b hb => ?_⟩
    rcases mem_cons.mp hb with rfl | hb
    · -- what was there before comes first
      have hle : cmp a b ≤ 0 := by
        by_contra hgt
        exact hleft a ha ((hcmp.lt_iff b a).mpr (not_le.mp hgt))
      rcases hle.lt_or_eq with hlt | heq
      · exact .inl hlt
      · have hmem : a ∈ inserted := h.perm.mem_iff.mp (hold ▸ mem_append_left _ ha)
        exact .inr ⟨heq, (singleton_sublist.mpr hmem).append (List.Sublist.refl [b])⟩
    · exact hl12 a ha b hb
  · rw [hcount, h.count, wrap64_of_lt hlt, length_append, length_singleton]

theorem Inserted.insertAll (hcmp : TotalPreorder cmp) {ns : List ν}
    (h : Inserted cmp s inserted T) (hnd : (inserted ++ ns).Nodup)
    (hlt : (inserted ++ ns).length < 2 ^ 64) :
    ∃ s' T', Converges (rbInsertAll cmp · ns) s () s' ∧ Inserted cmp s' (inserted ++ ns) T' := by
  induction ns generalizing s inserted T with
  | nil =>
    rw [append_nil]
    exact ⟨s, T, ⟨0, fun _ _ => rfl⟩, h⟩
  | cons n ns ih =>
    rw [append_cons] at hnd hlt ⊢
    have hfirst := (nodup_append.mp hnd).1
    have hn : n ∉ inserted := fun hmem =>
      (nodup_append.mp hfirst).2.2 n hmem n (mem_singleton_self n) rfl
    have hlen : inserted.length + 1 < 2 ^ 64 := by
      rw [length_append, length_append, length_singleton] at hlt
      omega
    obtain ⟨s1, T1, hrun, h1⟩ := h.insert hcmp hn hlen
    obtain ⟨s', T', hrest, h'⟩ := ih h1 hnd hlt
    exact ⟨s', T', hrun.bind hrest, h'⟩

end

/-- An address other than `NULL`. -/
abbrev NodePtr : Type := { a : Nat // 0 < a ∧ a < 2 ^ 64 }

theorem nodePtr_length_lt {ns : List NodePtr} (h : ns.Nodup) : ns.length < 2 ^ 64 := by
  have hmap : (ns.map Subtype.val).Nodup := h.map Subtype.val_injective
  have hsub : (ns.map Subtype.val).toFinset ⊆ Finset.Ico 1 (2 ^ 64) := by
    intro a ha
    obtain ⟨p, -, rfl⟩ := mem_map.mp (mem_toFinset.mp ha)
    exact Finset.mem_Ico.mpr p.2
  have hcard := Finset.card_le_card hsub
  rw [toFinset_card_of_nodup hmap, length_map, Nat.card_Ico] at hcard
  omega

theorem inserted_init {cmp : NodePtr → NodePtr → Int} (hcmp : TotalPreorder cmp)
    {ns : List NodePtr} (hnd : ns.Nodup) (s : RbTree NodePtr) :
    ∃ s' T, Converges (fun fuel => do rbTreeInit; rbInsertAll cmp fuel ns) s () s' ∧
      Inserted cmp s' ns T := by
  have hinit : Inserted cmp { s with root := none, count := 0 } [] .nil :=
    ⟨⟨rfl, trivial, trivial, List.nodup_nil⟩, ⟨0, .nil⟩, .nil, .nil, rfl⟩
  obtain ⟨s', T, hrun, h⟩ := hinit.insertAll hcmp (show ([] ++ ns).Nodup from hnd)
    (nodePtr_length_lt hnd)
  exact ⟨s', T, (Returns.converges (show Returns rbTreeInit s () _ from rfl)).bind hrun, h⟩

/-- **Insertion into a red-black tree.** After insertions of different nodes into a new
tree, with a comparator that is a total preorder: the links of the nodes are those of a
tree `T` without parent, whose order is that of the comparator with equal nodes in the
order of their insertion; its root is black, no red node has a red child, all paths have
equally many black nodes, `count` is the number of nodes, and the height is at most twice
its logarithm. -/
theorem rb_insert_tree {cmp : NodePtr → NodePtr → Int} (hcmp : TotalPreorder cmp)
    {ns : List NodePtr} (hnd : ns.Nodup) (s : RbTree NodePtr) :
    ∃ s' T, Converges (fun fuel => do rbTreeInit; rbInsertAll cmp fuel ns) s () s' ∧
      s'.root = T.root ∧ Linked s'.node none T ∧
      T.inorder.Perm ns ∧ T.inorder.Pairwise (Precedes cmp ns) ∧
      T.color = .black ∧ T.NoRedRed ∧ (∃ m, ∀ k ∈ T.blackCounts, k = m) ∧
      s'.count = ns.length ∧ T.height ≤ 2 * Nat.log 2 (s'.count + 1) := by
  obtain ⟨s', T, hrun, h⟩ := inserted_init hcmp hnd s
  obtain ⟨m, hbal⟩ := h.balanced
  refine ⟨s', T, hrun, h.shows.root, h.shows.tree, h.perm, h.sorted, hbal.color_eq, hbal.noRedRed,
    ⟨m, hbal.blackCounts⟩, h.count, ?_⟩
  have hlen : s'.count = T.inorder.length := h.count.trans h.perm.length_eq.symm
  rw [hlen]
  exact hbal.height_le_log

/-- Three nodes in decreasing order. -/
theorem rb_insert_tree_three :
    ∃ (s' : RbTree NodePtr) (T : RedBlack.Tree NodePtr),
      Converges (fun fuel => do
        rbTreeInit
        rbInsertAll (fun a b => (a.1 : Int) - b.1) fuel
          [⟨3, by decide⟩, ⟨2, by decide⟩, ⟨1, by decide⟩])
        ⟨none, 0, fun _ => ⟨none, none, none, .black⟩⟩ () s' ∧
      s'.count = 3 ∧ T.height ≤ 2 * Nat.log 2 4 := by
  have hcmp : TotalPreorder fun a b : NodePtr => (a.1 : Int) - b.1 :=
    ⟨fun a b => by omega, fun a b c => by omega⟩
  obtain ⟨s', T, hrun, -, -, -, -, -, -, -, hcount, hheight⟩ := rb_insert_tree hcmp
    (show [⟨3, by decide⟩, ⟨2, by decide⟩, (⟨1, by decide⟩ : NodePtr)].Nodup by decide)
    ⟨none, 0, fun _ => ⟨none, none, none, .black⟩⟩
  rw [hcount] at hheight
  exact ⟨s', T, hrun, hcount, hheight⟩

end GosKernel.Container
