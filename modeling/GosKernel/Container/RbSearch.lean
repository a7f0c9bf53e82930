import GosKernel.Container.RbInsert

/-!
# Searching a tree and walking through it

`rb_search` follows the comparisons down from the root. `rb_next` and `rb_prev` go down into a
subtree, or up until they come from the other side: the next node is the first one of what
is in the subtree and behind it (`Shows.step`).

- **`rb_search_complete`**: a node that compares equal is found, if there is one;
- **`rb_iteration`**: the walks from both ends, and that a step back undoes a step.
-/

namespace GosKernel.Container

open RedBlack Exec

section

variable {ν : Type} {s : RbTree ν} {ctx : List (Frame ν)} {t : RedBlack.Tree ν}
  {cmp : ν → ν → Int} {d : Side} {fuel : Nat} {l1 : List ν} {p : Option ν} {x : ν}

/-! ## Search -/

theorem rbSearchLoop_returns {key : ν} (h : Linked s.node p t) (hfuel : t.height < fuel) :
    Returns (rbSearchLoop cmp key fuel t.root) s (t.search (cmp key)) s := by
  induction t generalizing p fuel with
  | nil =>
    obtain ⟨fuel, rfl⟩ := fuel_succ hfuel
    rfl
  | node c l x r ihl ihr =>
    obtain ⟨fuel, rfl⟩ := fuel_succ hfuel
    rw [RedBlack.Tree.height] at hfuel
    show rbSearchLoop cmp key (fuel + 1) (some x) s = _
    rw [rbSearchLoop, Tree.search]
    by_cases hzero : cmp key x = 0
    · rw [if_pos hzero, if_pos hzero]
      rfl
    · rw [if_neg hzero, if_neg hzero, readNode_bind, h.1]
      by_cases hneg : cmp key x < 0
      · rw [if_pos hneg, if_pos hneg]
        exact ihl h.2.1 (by omega)
      · rw [if_neg hneg, if_neg hneg]
        exact ihr h.2.2 (by omega)

/-- Along the order of a tree, comparisons with a key only fall. -/
theorem TotalPreorder.falls (hcmp : TotalPreorder cmp) {inserted : List ν}
    (key : ν) {a b : ν} (hab : Precedes cmp inserted a b) :
    (cmp key a < 0 → cmp key b < 0) ∧ (0 < cmp key b → 0 < cmp key a) := by
  refine ⟨fun hlt => hcmp.lt_of_lt_of_precedes hlt hab, fun hgt => ?_⟩
  by_contra hle
  have hba : cmp a b ≤ 0 := hab.elim le_of_lt fun h => h.1.le
  exact absurd (hcmp.trans key a b (not_lt.mp hle) hba) (not_le.mpr hgt)

/-! ## Steps -/

theorem rbDown_returns (h : Linked s.node p t) (hx : t.root = some x) :
    ∃ y l, t.ordered d = y :: l ∧ ∀ fuel, t.height ≤ fuel → Returns (rbDown d fuel x) s y s := by
  induction t using Tree.join_induction d generalizing p x with
  | nil => cases hx
  | join c near z far ih _ =>
    obtain ⟨hnode, hnear, -⟩ := linked_join.mp h
    rw [Tree.root_join] at hx
    cases hx
    have hchild : (s.node z).child d = near.root := by
      rw [hnode, RbNode.child_link]
    rw [Tree.ordered_join, Tree.height_join]
    cases hroot : near.root with
    | none =>
      refine ⟨z, far.ordered d, ?_, fun fuel hfuel => ?_⟩
      · cases near with
        | nil => rw [Tree.ordered_nil, List.nil_append]
        | node => cases hroot
      · obtain ⟨fuel, rfl⟩ := fuel_succ hfuel
        rw [Returns, rbDown, readNode_bind, hchild, hroot]
        rfl
    | some x =>
      obtain ⟨y, l, hy, hrun⟩ := ih hnear hroot
      refine ⟨y, l ++ z :: far.ordered d, by rw [hy, List.cons_append], fun fuel hfuel => ?_⟩
      obtain ⟨fuel, rfl⟩ := fuel_succ hfuel
      rw [Returns, rbDown, readNode_bind, hchild, hroot]
      exact hrun fuel (by omega)

variable [DecidableEq ν]

/-- Upwards: the frames that the node is behind are passed. -/
theorem Shows.up (h : Shows s ctx t) (hx : t.root = some x) (hfuel : ctx.length < fuel) :
    Returns (rbUp d.flip fuel x (parentOf ctx)) s (behind d ctx).head? s := by
  induction ctx generalizing t x fuel with
  | nil =>
    obtain ⟨fuel, rfl⟩ := fuel_succ hfuel
    rfl
  | cons f ctx ih =>
    obtain ⟨fuel, rfl⟩ := fuel_succ hfuel
    show rbUp d.flip (fuel + 1) x (some f.key) s = _
    rw [rbUp, readNode_bind, h.frame_eq, behind]
    rcases d.eq_or_eq_flip f.side with hside | hside
    · rw [hside, RbNode.child_link_flip, if_neg (h.sibling_ne hx), if_pos rfl]
      rfl
    · rw [hside, RbNode.child_link, hx, if_pos rfl, if_neg d.flip_ne,
        readNode_bind, h.frame_eq, RbNode.parent_link]
      exact ih (shows_fill.mpr h) (Tree.root_join ..) (Nat.lt_of_succ_lt_succ hfuel)

/-- The next node is the first one of the far subtree, or else of what is behind. -/
theorem Shows.step_root {c : Color} {near far : RedBlack.Tree ν}
    (h : Shows s ctx (.join d c near x far)) :
    Converges (rbStep d · x) s (far.ordered d ++ behind d ctx).head? s := by
  have hchild : (s.node x).child d.flip = far.root := by
    rw [h.node_eq, RbNode.child_link_flip]
  cases hroot : far.root with
  | none =>
    refine ⟨ctx.length + 1, fun fuel hfuel => ?_⟩
    cases far with
    | node => cases hroot
    | nil =>
      rw [Tree.ordered_nil]
      show rbStep d fuel x s = _
      rw [rbStep, readNode_bind, hchild]
      show (readNode x (·.parent) >>= fun y => rbUp d.flip fuel x y) s = _
      rw [readNode_bind, h.node_eq, RbNode.parent_link]
      exact h.up (Tree.root_join ..) hfuel
  | some y =>
    obtain ⟨z, l, hz, hrun⟩ := rbDown_returns (d := d) (linked_join.mp h.tree).2.2 hroot
    refine ⟨far.height, fun fuel hfuel => ?_⟩
    rw [hz]
    show rbStep d fuel x s = _
    rw [rbStep, readNode_bind, hchild, hroot]
    exact (hrun fuel hfuel).bind_eq

/-- **One step** goes to the node behind `x`. -/
theorem Shows.step {l2 : List ν} (h : Shows s ctx t) (hx : t.ordered d = l1 ++ x :: l2) :
    Converges (rbStep d · x) s (l2 ++ behind d ctx).head? s := by
  induction t using Tree.join_induction d generalizing ctx l1 l2 with
  | nil =>
    exact absurd hx.symm (by simp)
  | join c near y far ihn ihf =>
    rw [Tree.ordered_join, List.append_eq_append_iff] at hx
    rcases hx with ⟨_ | ⟨y', l⟩, rfl, hl⟩ | ⟨_ | ⟨x', l⟩, hl, hl'⟩
    · -- the node itself, found from the left or from the right
      cases hl
      exact h.step_root
    · have hstep := ihf (shows_join_flip.mp h) (List.cons.inj hl).2
      rwa [behind, if_neg d.flip_ne] at hstep
    · cases hl'
      exact h.step_root
    · cases hl'
      have hstep := ihn (shows_join.mp h) hl
      rw [behind, if_pos rfl, ← List.append_assoc] at hstep
      exact hstep

/-! ## Walks -/

/-- The nodes that are visited from `x` on: `for (; x; x = next(x))`. -/
def rbWalk (next : Nat → ν → Exec (RbTree ν) (Option ν)) : (fuel : Nat) → (x : Option ν) →
    Exec (RbTree ν) (List ν)
  | 0, _ => .stop
  | _ + 1, none => pure []
  | fuel + 1, some x => do
    let y ← next fuel x
    let rest ← rbWalk next fuel y
    pure (x :: rest)

omit [DecidableEq ν] in
theorem Shows.first (h : Shows s [] t) (d : Side) :
    Converges (rbFirst d) s (t.ordered d).head? s := by
  cases hroot : t.root with
  | none =>
    cases t with
    | node => cases hroot
    | nil =>
      refine ⟨0, fun fuel _ => ?_⟩
      rw [Returns, rbFirst, read_bind, h.root, Tree.ordered_nil]
      rfl
  | some x =>
    obtain ⟨y, l, hy, hrun⟩ := rbDown_returns (d := d) h.tree hroot
    refine ⟨t.height, fun fuel hfuel => ?_⟩
    rw [Returns, rbFirst, read_bind, h.root.trans hroot, hy]
    exact (hrun fuel hfuel).bind_eq

theorem Shows.walk (h : Shows s [] t) {l : List ν} (hl : t.ordered d = l1 ++ l) :
    Converges (rbWalk (rbStep d) · l.head?) s l s := by
  induction l generalizing l1 with
  | nil =>
    refine ⟨1, fun fuel hfuel => ?_⟩
    obtain ⟨fuel, rfl⟩ := fuel_succ hfuel
    rfl
  | cons x l ih =>
    obtain ⟨n, hstep⟩ := h.step hl
    rw [behind, List.append_nil] at hstep
    obtain ⟨m, hrest⟩ := ih (hl.trans (List.append_cons l1 x l))
    refine ⟨n + m + 1, fun fuel hfuel => ?_⟩
    obtain ⟨fuel, rfl⟩ := fuel_succ hfuel
    show rbWalk (rbStep d) (fuel + 1) (some x) s = _
    rw [rbWalk, (hstep fuel (by omega)).bind_eq]
    exact (hrest fuel (by omega)).bind_eq

theorem Shows.walk_all (h : Shows s [] t) (d : Side) :
    Converges (fun fuel => do let x ← rbFirst d fuel; rbWalk (rbStep d) fuel x) s (t.ordered d) s :=
  (h.first d).bind (h.walk (List.nil_append _).symm)

/-- A step from the other side undoes a step. -/
theorem Shows.step_back (h : Shows s [] t) (d : Side) (hx : x ∈ t.inorder) :
    ∃ r, Converges (rbStep d · x) s r s ∧
      ∀ y, r = some y → Converges (rbStep d.flip · y) s (some x) s := by
  obtain ⟨l1, l2, hl⟩ := List.append_of_mem (Tree.mem_ordered.mpr hx)
  refine ⟨_, h.step hl, fun y hy => ?_⟩
  rw [behind, List.append_nil] at hy
  obtain ⟨l3, rfl⟩ := List.head?_eq_some_iff.mp hy
  have hback : t.ordered d.flip = l3.reverse ++ y :: x :: l1.reverse := by
    rw [Tree.ordered_flip, hl]
    simp
  exact h.step hback

/-! ## The tree after insertions -/

/-- One `rb_insert` for each node, with any comparator each time. -/
def rbInsertEach (fuel : Nat) : List ((ν → ν → Int) × ν) → Exec (RbTree ν) Unit
  | [] => pure ()
  | (cmp, n) :: cs => do
    rbInsert cmp fuel n
    rbInsertEach fuel cs

theorem Shows.insertEach {m : Nat} {cs : List ((ν → ν → Int) × ν)} (h : Shows s [] t)
    (hbal : Balanced t .black m) (hnd : (t.inorder ++ cs.map Prod.snd).Nodup) :
    ∃ s' T, Converges (rbInsertEach · cs) s () s' ∧ Shows s' [] T ∧
      T.inorder.Perm (t.inorder ++ cs.map Prod.snd) := by
  induction cs generalizing s t m with
  | nil => exact ⟨s, t, ⟨0, fun _ _ => rfl⟩, h, .of_eq (List.append_nil _).symm⟩
  | cons c cs ih =>
    have hn : c.2 ∉ t.inorder := fun hmem =>
      (List.nodup_append.mp hnd).2.2 c.2 hmem c.2 List.mem_cons_self rfl
    obtain ⟨s1, T1, m1, l1, l2, hrun, h1, hbal1, -, hold, hnew, -⟩ := rbInsert_spec h hbal hn
    have hperm : (T1.inorder ++ cs.map Prod.snd).Perm (t.inorder ++ (c :: cs).map Prod.snd) := by
      rw [hnew, hold]
      exact (List.perm_middle.append_right _).trans List.perm_middle.symm
    obtain ⟨s', T, hrest, h', hperm'⟩ := ih h1 hbal1 (hperm.nodup_iff.mpr hnd)
    exact ⟨s', T, hrun.bind hrest, h', hperm'.trans hperm⟩

/-- **Tree iteration.** After insertions of different nodes into a new tree, whatever the
comparators say: the walk from `rb_min` with `rb_next` visits the nodes in the order of the
tree and ends, the walk from `rb_max` with `rb_prev` visits them in the reverse order, and a
step to a node is undone by the step back. -/
theorem rb_iteration {cs : List ((ν → ν → Int) × ν)} (hnd : (cs.map Prod.snd).Nodup)
    (s : RbTree ν) :
    ∃ s' T, Converges (fun fuel => do rbTreeInit; rbInsertEach fuel cs) s () s' ∧
      s'.root = T.root ∧ Linked s'.node none T ∧ T.inorder.Perm (cs.map Prod.snd) ∧
      Converges (fun fuel => do let x ← rbMin fuel; rbWalk rbNext fuel x) s' T.inorder s' ∧
      Converges (fun fuel => do let x ← rbMax fuel; rbWalk rbPrev fuel x) s' T.inorder.reverse s' ∧
      ∀ x ∈ cs.map Prod.snd,
        (∃ r, Converges (rbNext · x) s' r s' ∧
          ∀ y, r = some y → Converges (rbPrev · y) s' (some x) s') ∧
        ∃ r, Converges (rbPrev · x) s' r s' ∧
          ∀ y, r = some y → Converges (rbNext · y) s' (some x) s' := by
  have hinit : Shows { s with root := none, count := 0 } [] RedBlack.Tree.nil :=
    ⟨rfl, trivial, trivial, List.nodup_nil⟩
  obtain ⟨s', T, hrun, h, hperm⟩ := hinit.insertEach .nil hnd
  refine ⟨s', T, (Returns.converges (show Returns rbTreeInit s () _ from rfl)).bind hrun, h.root,
    h.tree, hperm, h.walk_all .left, h.walk_all .right, fun x hx => ?_⟩
  have hx' : x ∈ T.inorder := hperm.mem_iff.mpr hx
  exact ⟨h.step_back .left hx', h.step_back .right hx'⟩

end

/-- Three nodes, inserted with comparators that contradict each other. -/
theorem rb_iteration_three :
    ∃ (s' : RbTree Nat) (l : List Nat),
      Converges (fun fuel => do
        rbTreeInit
        rbInsertEach fuel [(fun _ _ => 1, 7), (fun _ _ => -1, 9), (fun _ _ => 0, 8)])
        ⟨none, 0, fun _ => ⟨none, none, none, .black⟩⟩ () s' ∧ l.Perm [7, 9, 8] ∧
      Converges (fun fuel => do let x ← rbMin fuel; rbWalk rbNext fuel x) s' l s' := by
  obtain ⟨s', T, hrun, -, -, hperm, hwalk, -⟩ := rb_iteration
    (show ([(fun _ _ => 1, 7), (fun _ _ => -1, 9), (fun _ _ => 0, 8)].map
      (Prod.snd : (Nat → Nat → Int) × Nat → Nat)).Nodup by decide)
    ⟨none, 0, fun _ => ⟨none, none, none, .black⟩⟩
  exact ⟨s', T.inorder, hrun, hperm, hwalk⟩

/-- **Tree search is complete.** After insertions of different nodes into a new tree, with a
comparator that is a total preorder, `rb_search` returns, with a node that compares equal to
the key if there is one and with `NULL` if there is none. -/
theorem rb_search_complete {cmp : NodePtr → NodePtr → Int} (hcmp : TotalPreorder cmp)
    {ns : List NodePtr} (hnd : ns.Nodup) (s : RbTree NodePtr) (key : NodePtr) :
    ∃ s' r, Converges (fun fuel => do rbTreeInit; rbInsertAll cmp fuel ns) s () s' ∧
      Converges (rbSearch cmp key) s' r s' ∧
      ((∃ x ∈ ns, cmp key x = 0) → ∃ x ∈ ns, cmp key x = 0 ∧ r = some x) ∧
      ((∀ x ∈ ns, cmp key x ≠ 0) → r = none) := by
  obtain ⟨s', T, hrun, h⟩ := inserted_init hcmp hnd s
  have hsome : ∀ x, T.search (cmp key) = some x → x ∈ ns ∧ cmp key x = 0 := by
    intro x hr
    obtain ⟨hx, hzero⟩ := Tree.search_eq_some hr
    exact ⟨h.perm.mem_iff.mp hx, hzero⟩
  have hnone : T.search (cmp key) = none → ∀ x ∈ ns, cmp key x ≠ 0 := by
    intro hr x hx
    exact Tree.search_eq_none (h.sorted.imp (hcmp.falls key)) hr x (h.perm.mem_iff.mpr hx)
  refine ⟨s', T.search (cmp key), hrun, ⟨T.height + 1, fun fuel hfuel => ?_⟩, ?_, ?_⟩
  · rw [Returns, rbSearch, read_bind, h.shows.root]
    exact rbSearchLoop_returns h.shows.tree hfuel
  · rintro ⟨x, hx, hzero⟩
    cases hr : T.search (cmp key) with
    | none => exact absurd hzero (hnone hr x hx)
    | some y => exact ⟨y, (hsome y hr).1, (hsome y hr).2, rfl⟩
  · intro hall
    exact Option.eq_none_iff_forall_ne_some.mpr fun x hr => hall x (hsome x hr).1 (hsome x hr).2

/-- Two nodes are equal to the key, and one of them is found. -/
theorem rb_search_complete_equal :
    ∃ (s' : RbTree NodePtr) (x : NodePtr),
      Converges (fun fuel => do
        rbTreeInit
        rbInsertAll (fun a b => (a.1 / 10 : Int) - b.1 / 10) fuel
          [⟨11, by decide⟩, ⟨12, by decide⟩, ⟨25, by decide⟩])
        ⟨none, 0, fun _ => ⟨none, none, none, .black⟩⟩ () s' ∧
      Converges (rbSearch (fun a b => (a.1 / 10 : Int) - b.1 / 10) ⟨19, by decide⟩) s' (some x) s' ∧
      (19 / 10 : Int) - x.1 / 10 = 0 := by
  have hcmp : TotalPreorder fun a b : NodePtr => (a.1 / 10 : Int) - b.1 / 10 :=
    ⟨fun a b => by omega, fun a b c => by omega⟩
  obtain ⟨s', r, hrun, hsearch, hfound, -⟩ := rb_search_complete hcmp
    (show [⟨11, by decide⟩, ⟨12, by decide⟩, (⟨25, by decide⟩ : NodePtr)].Nodup by decide)
    ⟨none, 0, fun _ => ⟨none, none, none, .black⟩⟩ ⟨19, by decide⟩
  obtain ⟨x, -, hzero, rfl⟩ := hfound ⟨⟨11, by decide⟩, List.mem_cons_self, by decide⟩
  exact ⟨s', x, hrun, hsearch, hzero⟩

end GosKernel.Container
