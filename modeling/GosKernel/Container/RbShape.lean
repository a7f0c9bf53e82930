import GosKernel.Container.RbTree

/-!
# Trees in memory

`Shows s ctx t`: the nodes of `s` are linked as the tree `t` in the frames `ctx`, and all
are different. The focus may be moved (`shows_fill`), and the two operations that change
the tree are changes at the focus: `Shows.setColor` and `Shows.rotate`.
-/

namespace GosKernel.Container

open RedBlack Exec List

/-! ## Nodes -/

namespace RbNode

variable {ν : Type}

section

variable (d : Side)

@[simp] theorem parent_link (p a b : Option ν) (c : Color) : (link d p a b c).parent = p := by
  cases d <;> rfl

@[simp] theorem child_link (p a b : Option ν) (c : Color) : (link d p a b c).child d = a := by
  cases d <;> rfl

@[simp] theorem child_link_flip (p a b : Option ν) (c : Color) :
    (link d p a b c).child d.flip = b := by
  cases d <;> rfl

@[simp] theorem setChild_link (p a b q : Option ν) (c : Color) :
    (link d p a b c).setChild d q = link d p q b c := by
  cases d <;> rfl

@[simp] theorem setChild_link_flip (p a b q : Option ν) (c : Color) :
    (link d p a b c).setChild d.flip q = link d p a q c := by
  cases d <;> rfl

@[simp] theorem setParent_link (p a b q : Option ν) (c : Color) :
    (link d p a b c).setParent q = link d q a b c := by
  cases d <;> rfl

@[simp] theorem parent_setChild (n : RbNode ν) (d : Side) (p : Option ν) :
    (n.setChild d p).parent = n.parent := by
  cases d <;> rfl

/-- A search for a child finds its side. -/
theorem side_of_child [DecidableEq ν] {n : RbNode ν} {p q : Option ν} {x : ν} {c : Color}
    {e : Side} (hn : n = link e p (some x) q c) (hq : q ≠ some x) :
    (if n.child d = some x then d else d.flip) = e := by
  rcases d.eq_or_eq_flip e with rfl | rfl
  · rw [hn, child_link, if_pos rfl]
  · have hchild : (link d.flip p (some x) q c).child d = q := by cases d <;> rfl
    rw [hn, hchild, if_neg hq]

end

end RbNode

/-! ## Trees in memory -/

section Shows

variable {ν : Type}

/-- The nodes of `t` are linked as in the tree, below `parent`. -/
def Linked (node : ν → RbNode ν) : (parent : Option ν) → RedBlack.Tree ν → Prop
  | _, .nil => True
  | parent, .node c l x r => node x = ⟨parent, l.root, r.root, c⟩ ∧
      Linked node (some x) l ∧ Linked node (some x) r

/-- The pointer to the node of the innermost frame. -/
def parentOf : List (Frame ν) → Option ν
  | [] => none
  | f :: _ => some f.key

/-- The nodes of the frames are linked as they say, with `hole` in the hole. -/
def LinkedAround (node : ν → RbNode ν) : List (Frame ν) → (hole : Option ν) → Prop
  | [], _ => True
  | f :: ctx, hole =>
    node f.key = .link f.side (parentOf ctx) hole f.sibling.root f.color ∧
      Linked node (some f.key) f.sibling ∧ LinkedAround node ctx (some f.key)

/-- The tree in memory is `t` in the frames `ctx`. -/
structure Shows (s : RbTree ν) (ctx : List (Frame ν)) (t : RedBlack.Tree ν) : Prop where
  root : s.root = (plug ctx t).root
  around : LinkedAround s.node ctx t.root
  tree : Linked s.node (parentOf ctx) t
  nodup : (t.inorder ++ keys ctx).Nodup

variable {node node' : ν → RbNode ν} {p q : Option ν} {t : RedBlack.Tree ν} {ctx : List (Frame ν)}

variable {c : Color} {d : Side} {u : RedBlack.Tree ν} {x : ν}

theorem linked_join :
    Linked node p (.join d c t x u) ↔ node x = .link d p t.root u.root c ∧
      Linked node (some x) t ∧ Linked node (some x) u := by
  cases d with
  | left => rfl
  | right => exact and_congr_right fun _ => and_comm

/-- Nodes elsewhere do not matter. -/
theorem Linked.congr (h : Linked node p t) (heq : ∀ z ∈ t.inorder, node' z = node z) :
    Linked node' p t := by
  induction t generalizing p with
  | nil => trivial
  | node c l x r ihl ihr =>
    obtain ⟨hx, hl, hr⟩ := h
    refine ⟨?_, ihl hl fun z hz => heq z ?_, ihr hr fun z hz => heq z ?_⟩
    · rw [heq x (mem_append_right _ mem_cons_self), hx]
    · exact mem_append_left _ hz
    · exact mem_append_right _ (mem_cons_of_mem _ hz)

/-- The root of a tree gets another parent. -/
theorem Linked.reparent (h : Linked node p t) (hnd : t.inorder.Nodup)
    (hroot : ∀ z, t.root = some z → node' z = (node z).setParent q)
    (heq : ∀ z ∈ t.inorder, t.root ≠ some z → node' z = node z) : Linked node' q t := by
  cases t with
  | nil => trivial
  | node c l x r =>
    obtain ⟨hx, hl, hr⟩ := h
    obtain ⟨-, hxr, hdisj⟩ := nodup_append.mp hnd
    have hxl : ∀ z ∈ l.inorder, (RedBlack.Tree.node c l x r).root ≠ some z := fun z hz heq =>
      hdisj z hz x mem_cons_self (Option.some.inj heq).symm
    have hxr' : ∀ z ∈ r.inorder, (RedBlack.Tree.node c l x r).root ≠ some z := fun z hz heq =>
      (nodup_cons.mp hxr).1 (Option.some.inj heq ▸ hz)
    refine ⟨?_, hl.congr fun z hz => heq z ?_ (hxl z hz), hr.congr fun z hz => heq z ?_ (hxr' z hz)⟩
    · rw [hroot x rfl, hx]
      rfl
    · exact mem_append_left _ hz
    · exact mem_append_right _ (mem_cons_of_mem _ hz)

theorem LinkedAround.congr (h : LinkedAround node ctx p)
    (heq : ∀ z ∈ keys ctx, node' z = node z) : LinkedAround node' ctx p := by
  induction ctx generalizing p with
  | nil => trivial
  | cons f ctx ih =>
    obtain ⟨hf, hsib, hctx⟩ := h
    refine ⟨?_, hsib.congr fun z hz => heq z ?_, ih hctx fun z hz => heq z ?_⟩
    · rw [heq f.key mem_cons_self, hf]
    · exact mem_append_left _ (mem_cons_of_mem _ hz)
    · exact mem_append_right _ hz

/-- Something else is put into the hole. -/
theorem LinkedAround.replace (h : LinkedAround node ctx p) (hnd : (keys ctx).Nodup)
    (htop : ∀ f ∈ ctx.head?, node' f.key = (node f.key).setChild f.side q)
    (heq : ∀ z ∈ keys ctx, parentOf ctx ≠ some z → node' z = node z) :
    LinkedAround node' ctx q := by
  cases ctx with
  | nil => trivial
  | cons f ctx =>
    obtain ⟨hf, hsib, hctx⟩ := h
    have hne : ∀ z ∈ f.sibling.inorder ++ keys ctx, parentOf (f :: ctx) ≠ some z := by
      intro z hz heq
      exact (nodup_cons.mp hnd).1 (Option.some.inj heq ▸ hz)
    refine ⟨?_, hsib.congr fun z hz => heq z ?_ (hne z (mem_append_left _ hz)),
      hctx.congr fun z hz => heq z ?_ (hne z (mem_append_right _ hz))⟩
    · rw [htop f rfl, hf, RbNode.setChild_link]
    · exact mem_append_left _ (mem_cons_of_mem _ hz)
    · exact mem_append_right _ hz

variable {s : RbTree ν} {f : Frame ν}

/-- The focus moves up, and down again. -/
theorem shows_fill : Shows s ctx (f.fill t) ↔ Shows s (f :: ctx) t := by
  have hperm : ((f.fill t).inorder ++ keys ctx).Perm (t.inorder ++ keys (f :: ctx)) := by
    refine ((Tree.join_perm f.side f.color t f.key f.sibling).append_right (keys ctx)).trans ?_
    rw [cons_append, append_assoc]
    exact perm_middle.symm
  constructor
  · rintro ⟨hroot, haround, htree, hnd⟩
    obtain ⟨hf, ht, hsib⟩ := linked_join.mp htree
    rw [Frame.fill, Tree.root_join] at haround
    exact ⟨hroot, ⟨hf, hsib, haround⟩, ht, hperm.nodup_iff.mp hnd⟩
  · rintro ⟨hroot, ⟨hf, hsib, haround⟩, ht, hnd⟩
    refine ⟨hroot, ?_, linked_join.mpr ⟨hf, ht, hsib⟩, hperm.nodup_iff.mpr hnd⟩
    rw [Frame.fill, Tree.root_join]
    exact haround

theorem shows_plug : Shows s ctx t ↔ Shows s [] (plug ctx t) := by
  induction ctx generalizing t with
  | nil => rfl
  | cons f ctx ih => rw [← shows_fill, ih, plug]

/-- The focus moves to the child on side `d`. -/
theorem shows_join : Shows s ctx (.join d c t x u) ↔ Shows s (⟨d, c, x, u⟩ :: ctx) t :=
  shows_fill (f := ⟨d, c, x, u⟩)

theorem shows_join_flip : Shows s ctx (.join d c t x u) ↔ Shows s (⟨d.flip, c, x, t⟩ :: ctx) u := by
  rw [← shows_join, Tree.join_flip]

theorem Shows.node_eq
    (h : Shows s ctx (.join d c t x u)) : s.node x = .link d (parentOf ctx) t.root u.root c :=
  (linked_join.mp h.tree).1

theorem Shows.frame_eq (h : Shows s (f :: ctx) t) :
    s.node f.key = .link f.side (parentOf ctx) t.root f.sibling.root f.color :=
  h.around.1

theorem parentOf_mem {z : ν} (h : parentOf ctx = some z) : z ∈ keys ctx := by
  cases ctx with
  | nil => cases h
  | cons f ctx =>
    cases h
    exact mem_cons_self

theorem Linked.parent_eq {n : ν} (h : Linked node p t)
    (hn : t.root = some n) : (node n).parent = p := by
  cases t with
  | nil => cases hn
  | node c l x r =>
    cases hn
    rw [h.1]

end Shows

/-! ## Single steps -/

theorem deref_bind {ν α : Type} (x : ν) (g : ν → Exec (RbTree ν) α) (s : RbTree ν) :
    (deref (some x) >>= g) s = g x s := rfl

theorem readNode_bind {ν α β : Type} (x : ν) (f : RbNode ν → α) (g : α → Exec (RbTree ν) β)
    (s : RbTree ν) : (readNode x f >>= g) s = g (f (s.node x)) s := rfl

section

variable {ν : Type} [DecidableEq ν]

theorem modifyIf_returns (s : RbTree ν) (p : Option ν) (f : RbNode ν → RbNode ν) :
    Returns (modifyIf p f) s () (s.modify p f) := by
  cases p with
  | none => rfl
  | some x => rfl

theorem modifyNode_bind {α : Type} (x : ν) (f : RbNode ν → RbNode ν)
    (g : Unit → Exec (RbTree ν) α) (s : RbTree ν) :
    (modifyNode x f >>= g) s = g () (s.modify (some x) f) := rfl

/-- The state after `replaceChild`. -/
def RbTree.replaced (s : RbTree ν) (d : Side) (parent : Option ν) (x y : ν) : RbTree ν :=
  { s.modify parent fun n => n.setChild (if n.child d = some x then d else d.flip) (some y) with
    root := if parent = none then some y else s.root }

theorem replaceChild_returns (s : RbTree ν) (d : Side) (parent : Option ν) (x y : ν) :
    Returns (replaceChild d parent x y) s () (s.replaced d parent x y) := by
  cases parent with
  | none => rfl
  | some p =>
    refine congrArg (fun node => some ((), (⟨s.root, s.count, node⟩ : RbTree ν))) (funext fun z => ?_)
    by_cases hz : some p = some z
    · cases hz
      simp [RbTree.modify]
    · dsimp only [RbTree.modify]
      rw [if_neg hz, if_neg hz]

/-- The nodes after a rotation of `x`, whose child `y` comes up. -/
def rotatedNode (s : RbTree ν) (d : Side) (x y z : ν) : RbNode ν :=
  if z = x then ((s.node x).setChild d.flip ((s.node y).child d)).setParent (some y)
  else if z = y then ((s.node y).setParent (s.node x).parent).setChild d (some x)
  else if (s.node y).child d = some z then (s.node z).setParent (some x)
  else if (s.node x).parent = some z then
    (s.node z).setChild (if (s.node z).child d = some x then d else d.flip) (some y)
  else s.node z

variable {a b c : RedBlack.Tree ν} {c1 c2 : Color} {d : Side} {x y : ν}

theorem rbRotate_returns {s : RbTree ν}
    (hy : (s.node x).child d.flip = some y) (hxy : x ≠ y) (hx : (s.node y).child d ≠ some x)
    (hy' : (s.node y).child d ≠ some y) (hpx : (s.node x).parent ≠ some x)
    (hpy : (s.node x).parent ≠ some y)
    (hp : ∀ z, (s.node y).child d = some z → (s.node x).parent ≠ some z) :
    Returns (rbRotate d x) s ()
      { s with
        root := if (s.node x).parent = none then some y else s.root
        node := rotatedNode s d x y } := by
  have hparent : (((s.modify (some x) (·.setChild d.flip ((s.node y).child d))).modify
      ((s.node y).child d) (·.setParent (some x))).node x).parent = (s.node x).parent := by
    simp [RbTree.modify, hx]
  rw [Returns, rbRotate, readNode_bind, hy,
    deref_bind, readNode_bind, modifyNode_bind,
    (modifyIf_returns _ _ _).bind_eq, readNode_bind, hparent,
    modifyNode_bind, (replaceChild_returns _ d _ x y).bind_eq,
    modifyNode_bind]
  refine congrArg (fun node => some ((), (⟨_, s.count, node⟩ : RbTree ν))) (funext fun z => ?_)
  simp only [RbTree.modify, RbTree.replaced, rotatedNode]
  by_cases hzx : z = x
  · subst hzx
    simp [hx, hpx, hxy.symm]
  by_cases hzy : z = y
  · subst hzy
    simp [hy', hpy, hxy, hzx]
  by_cases hzb : (s.node y).child d = some z
  · simp [hzx, hzy, Ne.symm hzx, Ne.symm hzy, hp z hzb]
  · simp [hzx, hzy, Ne.symm hzx, Ne.symm hzy, hzb]

/-! ## What the operations do to the tree -/

variable {s : RbTree ν} {ctx : List (Frame ν)} {t : RedBlack.Tree ν}

theorem Shows.setColor (h : Shows s ctx t) (c : Color) :
    Shows (s.modify t.root (·.setColor c)) ctx (t.setColor c) := by
  have hout : ∀ z ∈ keys ctx, t.root ≠ some z := fun z hz hroot =>
    (nodup_append.mp h.nodup).2.2 z (Tree.root_mem hroot) z hz rfl
  refine ⟨?_, ?_, ?_, ?_⟩
  · rw [plug_root_congr ctx (Tree.root_setColor c t)]
    exact h.root
  · rw [Tree.root_setColor]
    exact h.around.congr fun z hz => if_neg (hout z hz)
  · cases t with
    | nil => trivial
    | node c0 l x r =>
      obtain ⟨hx, hl, hr⟩ := h.tree
      obtain ⟨-, hxr, hdisj⟩ := nodup_append.mp (nodup_append.mp h.nodup).1
      refine ⟨?_, hl.congr fun z hz => if_neg ?_, hr.congr fun z hz => if_neg ?_⟩
      · show (if some x = some x then _ else _) = _
        rw [if_pos rfl, hx]
        rfl
      · exact fun heq => hdisj z hz x mem_cons_self (Option.some.inj heq).symm
      · exact fun heq => (nodup_cons.mp hxr).1 (Option.some.inj heq ▸ hz)
  · rw [Tree.inorder_setColor]
    exact h.nodup

/-- The keys around a rotation are all different. -/
structure RotateKeys (ctx : List (Frame ν)) (a b c : RedBlack.Tree ν) (x y : ν) : Prop where
  xy : x ≠ y
  x_trees : x ∉ a.inorder ∧ x ∉ b.inorder ∧ x ∉ c.inorder
  y_trees : y ∉ a.inorder ∧ y ∉ b.inorder ∧ y ∉ c.inorder
  x_ctx : x ∉ keys ctx
  y_ctx : y ∉ keys ctx
  ab : ∀ z ∈ a.inorder, z ∉ b.inorder
  cb : ∀ z ∈ c.inorder, z ∉ b.inorder
  outside : ∀ z ∈ a.inorder ++ (b.inorder ++ c.inorder), z ∉ keys ctx
  b_nodup : b.inorder.Nodup
  ctx_nodup : (keys ctx).Nodup

section

variable (h : Shows s ctx (.join d c1 a x (.join d c2 b y c)))
include h

omit [DecidableEq ν] in
theorem Shows.rotateKeys : RotateKeys ctx a b c x y := by
  have hperm : (Tree.join d c1 a x (.join d c2 b y c)).inorder.Perm
      (x :: y :: (a.inorder ++ (b.inorder ++ c.inorder))) :=
    (Tree.join_perm _ _ _ _ _).trans
      (.cons x (((Tree.join_perm _ _ _ _ _).append_left _).trans perm_middle))
  have hnd : (x :: y :: (a.inorder ++ (b.inorder ++ c.inorder) ++ keys ctx)).Nodup :=
    (hperm.append_right _).nodup_iff.mp h.nodup
  obtain ⟨hxall, hnd1⟩ := nodup_cons.mp hnd
  obtain ⟨hyall, hnd2⟩ := nodup_cons.mp hnd1
  simp only [mem_cons, mem_append, not_or] at hxall hyall
  obtain ⟨hxy, hxtrees, hxctx⟩ := hxall
  obtain ⟨hytrees, hyctx⟩ := hyall
  obtain ⟨htrees, hctxnd, hsep⟩ := nodup_append.mp hnd2
  obtain ⟨-, hbcnd, hsepa⟩ := nodup_append.mp htrees
  obtain ⟨hbnd, -, hsepb⟩ := nodup_append.mp hbcnd
  exact {
    xy := hxy, x_trees := hxtrees, y_trees := hytrees, x_ctx := hxctx, y_ctx := hyctx
    ab := fun z hz hzb => hsepa z hz z (mem_append_left _ hzb) rfl
    cb := fun z hz hzb => hsepb z hzb z hz rfl
    outside := fun z hz hzc => hsep z hz z hzc rfl
    b_nodup := hbnd, ctx_nodup := hctxnd }

/-- The nodes that a rotation leaves as they were. -/
theorem Shows.rotatedNode_of_ne {z : ν} (hzx : z ≠ x) (hzy : z ≠ y)
    (hzb : b.root ≠ some z) (hzp : parentOf ctx ≠ some z) : rotatedNode s d x y z = s.node z := by
  have hx := h.node_eq
  have hy := (shows_join_flip.mp h).node_eq
  rw [rotatedNode, if_neg hzx, if_neg hzy, hy, RbNode.child_link, if_neg hzb, hx,
    RbNode.parent_link, if_neg hzp]

omit h in
/-- The node above a rotation leads to the other node. -/
theorem Shows.rotatedNode_parent
    {f : Frame ν} (h : Shows s (f :: ctx) (.join d c1 a x (.join d c2 b y c))) :
    rotatedNode s d x y f.key = (s.node f.key).setChild f.side (some y) := by
  have hx := h.node_eq
  have hy := (shows_join_flip.mp h).node_eq
  have hkeys := h.rotateKeys
  have hfkey : f.key ∈ keys (f :: ctx) := mem_cons_self
  have hsib : f.sibling.root ≠ some x := fun hroot => hkeys.x_ctx
    (mem_append_left _ (mem_cons_of_mem _ (Tree.root_mem hroot)))
  have hf := h.frame_eq
  rw [Tree.root_join] at hf
  have hfx : f.key ≠ x := fun heq => hkeys.x_ctx (heq ▸ hfkey)
  have hfy : f.key ≠ y := fun heq => hkeys.y_ctx (heq ▸ hfkey)
  have hfb : b.root ≠ some f.key := fun hroot => hkeys.outside _
    (mem_append_right _ (mem_append_left _ (Tree.root_mem hroot))) hfkey
  rw [rotatedNode, if_neg hfx, if_neg hfy, hy, RbNode.child_link, if_neg hfb, hx,
    RbNode.parent_link, parentOf, if_pos rfl, RbNode.side_of_child d hf hsib]

/-- **A rotation.** -/
theorem Shows.rotate :
    ∃ s', Returns (rbRotate d x) s () s' ∧ s'.count = s.count ∧
      Shows s' ctx (.join d c2 (.join d c1 a x b) y c) := by
  have hx := h.node_eq
  have hy := (shows_join_flip.mp h).node_eq
  obtain ⟨-, ha, hyt⟩ := linked_join.mp h.tree
  obtain ⟨-, hb, hc⟩ := linked_join.mp hyt
  rw [Tree.root_join] at hx
  have hkeys := h.rotateKeys
  have hbctx : ∀ z ∈ b.inorder, z ∉ keys ctx := fun z hz =>
    hkeys.outside z (mem_append_right _ (mem_append_left _ hz))
  have hrot := rbRotate_returns (s := s) (d := d) (x := x) (y := y)
    (by rw [hx, RbNode.child_link_flip]) hkeys.xy
    (by rw [hy, RbNode.child_link]; exact fun hroot => hkeys.x_trees.2.1 (Tree.root_mem hroot))
    (by rw [hy, RbNode.child_link]; exact fun hroot => hkeys.y_trees.2.1 (Tree.root_mem hroot))
    (by rw [hx, RbNode.parent_link]; exact fun hp => hkeys.x_ctx (parentOf_mem hp))
    (by rw [hx, RbNode.parent_link]; exact fun hp => hkeys.y_ctx (parentOf_mem hp))
    (by
      rw [hx, hy, RbNode.child_link, RbNode.parent_link]
      exact fun z hz hp => hbctx z (Tree.root_mem hz) (parentOf_mem hp))
  rw [hx, RbNode.parent_link] at hrot
  have hkept : ∀ {u : RedBlack.Tree ν} {p : Option ν}, Linked s.node p u →
      x ∉ u.inorder → y ∉ u.inorder →
      (∀ z ∈ u.inorder, z ∉ b.inorder) → (∀ z ∈ u.inorder, z ∉ keys ctx) →
      Linked (rotatedNode s d x y) p u := by
    intro u p hu hxu hyu hbu hctxu
    refine hu.congr fun z hz => h.rotatedNode_of_ne ?_ ?_ ?_ ?_
    · exact fun heq => hxu (heq ▸ hz)
    · exact fun heq => hyu (heq ▸ hz)
    · exact fun hroot => hbu z hz (Tree.root_mem hroot)
    · exact fun hp => hctxu z hz (parentOf_mem hp)
  refine ⟨_, hrot, rfl, ?_, ?_, linked_join.mpr ⟨?_, linked_join.mpr ⟨?_, ?_, ?_⟩, ?_⟩, ?_⟩
  · -- the root of the whole tree
    cases ctx with
    | nil => exact (Tree.root_join ..).symm
    | cons f ctx =>
      obtain ⟨k, -, hk⟩ := plug_root (cons_ne_nil f ctx)
      rw [if_neg (by simp [parentOf]), h.root, hk, hk]
  · -- the frames
    rw [Tree.root_join]
    refine h.around.replace hkeys.ctx_nodup (fun f hf => ?_) fun z hz hzp =>
      h.rotatedNode_of_ne ?_ ?_ ?_ hzp
    · cases ctx with
      | nil => cases hf
      | cons g ctx =>
        cases hf
        exact h.rotatedNode_parent
    · exact fun heq => hkeys.x_ctx (heq ▸ hz)
    · exact fun heq => hkeys.y_ctx (heq ▸ hz)
    · exact fun hroot => hbctx z (Tree.root_mem hroot) hz
  · show rotatedNode s d x y y = _
    rw [rotatedNode, if_neg (Ne.symm hkeys.xy), hx, hy]
    simp
  · show rotatedNode s d x y x = _
    rw [rotatedNode, hx, hy]
    simp
  · exact hkept ha hkeys.x_trees.1 hkeys.y_trees.1 hkeys.ab
      fun z hz => hkeys.outside z (mem_append_left _ hz)
  · refine hb.reparent hkeys.b_nodup (fun z hz => ?_) fun z hz hzb =>
      h.rotatedNode_of_ne ?_ ?_ hzb ?_
    · show rotatedNode s d x y z = _
      rw [rotatedNode, if_neg, if_neg, hy, RbNode.child_link, if_pos hz]
      · exact fun heq => hkeys.y_trees.2.1 (heq ▸ Tree.root_mem hz)
      · exact fun heq => hkeys.x_trees.2.1 (heq ▸ Tree.root_mem hz)
    · exact fun heq => hkeys.x_trees.2.1 (heq ▸ hz)
    · exact fun heq => hkeys.y_trees.2.1 (heq ▸ hz)
    · exact fun hp => hbctx z hz (parentOf_mem hp)
  · exact hkept hc hkeys.x_trees.2.2 hkeys.y_trees.2.2 hkeys.cb
      fun z hz => hkeys.outside z (mem_append_right _ (mem_append_right _ hz))
  · rw [← Tree.inorder_rotate d c1 c2]
    exact h.nodup

end

end

end GosKernel.Container
