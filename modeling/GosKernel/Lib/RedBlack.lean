import Mathlib.Data.List.Nodup
import Mathlib.Data.Nat.Log
import Mathlib.Tactic.Ring

/-!
# Red-black trees with a focus

Trees of arbitrary keys, and what is around a subtree: a list of frames, the innermost
first. A frame knows on which side its hole is, so that mirrored cases are one case
(`Tree.join d`).

- `Balanced t c n`: no red node has a red child, all paths have `n` black nodes, and the
  root has color `c`; leaves count as black;
- `Fits ctx c n`: the frames become a balanced tree with a black root when the hole is
  filled with a tree of color `c` and black height `n` (`Fits.balanced_plug`);
- `balanced_recolored`, `Fits.done`: after an insertion, a red tree in a hole for a black
  one moves up or may stay;
- `Tree.search c`: the search with the comparison `c` of a key, `behind d ctx`: what comes
  after a hole in the order from side `d`.
-/

namespace GosKernel.RedBlack

universe u

inductive Color
  | red
  | black
deriving DecidableEq

inductive Side
  | left
  | right
deriving DecidableEq

/-- The other side. -/
def Side.flip : Side → Side
  | .left => .right
  | .right => .left

theorem Side.flip_ne (d : Side) : d.flip ≠ d := by
  cases d <;> decide

theorem Side.eq_or_eq_flip (d e : Side) : e = d ∨ e = d.flip := by
  cases d <;> cases e <;> simp [flip]

inductive Tree (α : Type u)
  | nil
  | node (c : Color) (l : Tree α) (x : α) (r : Tree α)

variable {α : Type u}

namespace Tree

def inorder : Tree α → List α
  | nil => []
  | node _ l x r => l.inorder ++ x :: r.inorder

/-- The number of nodes on the longest path. -/
def height : Tree α → Nat
  | nil => 0
  | node _ l _ r => max l.height r.height + 1

def root : Tree α → Option α
  | nil => none
  | node _ _ x _ => some x

/-- Leaves are black. -/
def color : Tree α → Color
  | nil => .black
  | node c _ _ _ => c

def setColor (c : Color) : Tree α → Tree α
  | nil => nil
  | node _ l x r => node c l x r

/-- The node with the subtree `near` on side `d`. -/
def join (d : Side) (c : Color) (near : Tree α) (x : α) (far : Tree α) : Tree α :=
  match d with
  | .left => node c near x far
  | .right => node c far x near

section

variable (d : Side)

section

variable (c : Color)

section

variable (t : Tree α)

theorem join_flip (x : α) (u : Tree α) : join d.flip c t x u = join d c u x t := by
  cases d <;> rfl

@[simp] theorem root_join (x : α) (u : Tree α) : (join d c t x u).root = some x := by
  cases d <;> rfl

@[simp] theorem color_join (x : α) (u : Tree α) : (join d c t x u).color = c := by
  cases d <;> rfl

@[simp] theorem setColor_join (c c' : Color) (t : Tree α) (x : α) (u : Tree α) :
    (join d c t x u).setColor c' = join d c' t x u := by
  cases d <;> rfl

@[simp] theorem root_setColor : (t.setColor c).root = t.root := by
  cases t <;> rfl

@[simp] theorem inorder_setColor : (t.setColor c).inorder = t.inorder := by
  cases t <;> rfl

theorem height_join (x : α) (u : Tree α) : (join d c t x u).height = max t.height u.height + 1 := by
  cases d with
  | left => rfl
  | right => exact congrArg (· + 1) (Nat.max_comm ..)

/-- Induction over the nodes as they are seen from side `d`. -/
@[elab_as_elim] theorem join_induction {motive : Tree α → Prop} (nil : motive nil)
    (join : ∀ c t x u, motive t → motive u → motive (join d c t x u)) (t : Tree α) : motive t := by
  induction t with
  | nil => exact nil
  | node c l x r ihl ihr =>
    cases d with
    | left => exact join c l x r ihl ihr
    | right => exact join c r x l ihr ihl

/-- Every node can be seen from either side. -/
theorem exists_join (l : Tree α) (x : α) (r : Tree α) : ∃ t u, node c l x r = join d c t x u := by
  cases d with
  | left => exact ⟨l, r, rfl⟩
  | right => exact ⟨r, l, rfl⟩

theorem join_perm (x : α) (u : Tree α) :
    (join d c t x u).inorder.Perm (x :: (t.inorder ++ u.inorder)) := by
  cases d with
  | left => exact List.perm_middle
  | right => exact List.perm_middle.trans (List.perm_append_comm.cons x)

theorem root_mem {t : Tree α} {x : α} (h : t.root = some x) : x ∈ t.inorder := by
  cases t with
  | nil => cases h
  | node c l y r =>
    cases h
    exact List.mem_append_right _ List.mem_cons_self

theorem join_inorder (c c' : Color) {t t' u u' : Tree α} (x : α)
    (ht : t.inorder = t'.inorder) (hu : u.inorder = u'.inorder) :
    (join d c t x u).inorder = (join d c' t' x u').inorder := by
  cases d <;> simp [join, inorder, ht, hu]

/-- The keys, seen from side `d`. -/
def ordered (d : Side) (t : Tree α) : List α :=
  match d with
  | .left => t.inorder
  | .right => t.inorder.reverse

@[simp] theorem ordered_nil : (nil : Tree α).ordered d = [] := by
  cases d <;> rfl

theorem ordered_join (x : α) (u : Tree α) :
    (join d c t x u).ordered d = t.ordered d ++ x :: u.ordered d := by
  cases d with
  | left => rfl
  | right => simp [join, ordered, inorder]

end

end

theorem mem_ordered {d : Side} {t : Tree α} {x : α} : x ∈ t.ordered d ↔ x ∈ t.inorder := by
  cases d with
  | left => rfl
  | right => exact List.mem_reverse

theorem ordered_flip (t : Tree α) : t.ordered d.flip = (t.ordered d).reverse := by
  cases d <;> simp [ordered, Side.flip]

/-- The key that the signs of `c` lead to. -/
def search (c : α → Int) : Tree α → Option α
  | nil => none
  | node _ l x r => if c x = 0 then some x else if c x < 0 then l.search c else r.search c

theorem search_eq_some {c : α → Int} {t : Tree α} {x : α} (h : t.search c = some x) :
    x ∈ t.inorder ∧ c x = 0 := by
  induction t with
  | nil => cases h
  | node _ l y r ihl ihr =>
    rw [search] at h
    rw [inorder, List.mem_append, List.mem_cons]
    split_ifs at h with hzero hneg
    · cases h
      exact ⟨.inr (.inl rfl), hzero⟩
    · exact (ihl h).imp_left .inl
    · exact (ihr h).imp_left (.inr ∘ .inr)

/-- If the signs only fall along the order, no zero is missed. -/
theorem search_eq_none {c : α → Int} {t : Tree α}
    (hsorted : t.inorder.Pairwise fun a b => (c a < 0 → c b < 0) ∧ (0 < c b → 0 < c a))
    (h : t.search c = none) : ∀ x ∈ t.inorder, c x ≠ 0 := by
  induction t with
  | nil => exact fun x hx => absurd hx List.not_mem_nil
  | node _ l y r ihl ihr =>
    obtain ⟨hl, hyr, hly⟩ := List.pairwise_append.mp hsorted
    obtain ⟨hy, hr⟩ := List.pairwise_cons.mp hyr
    rw [search] at h
    intro x hx
    rw [inorder, List.mem_append, List.mem_cons] at hx
    split_ifs at h with hzero hneg
    · rcases hx with hx | rfl | hx
      · exact ihl hl h x hx
      · exact hzero
      · exact ((hy x hx).1 hneg).ne
    · have hpos : 0 < c y := lt_of_le_of_ne (not_lt.mp hneg) (Ne.symm hzero)
      rcases hx with hx | rfl | hx
      · exact ((hly x hx y List.mem_cons_self).2 hpos).ne'
      · exact hzero
      · exact ihr hr h x hx

/-- A rotation towards `d` keeps the order. -/
theorem inorder_rotate (c1 c2 c3 c4 : Color) (a b c : Tree α) (x y : α) :
    (join d c1 a x (join d c2 b y c)).inorder = (join d c3 (join d c4 a x b) y c).inorder := by
  cases d <;> simp [join, inorder]

end

end Tree

open RedBlack.Tree

/-! ## Frames -/

/-- A node with a hole on one side. -/
structure Frame (α : Type u) where
  side : Side
  color : Color
  key : α
  sibling : Tree α

def Frame.fill (f : Frame α) (t : Tree α) : Tree α := join f.side f.color t f.key f.sibling

/-- Fill the hole of all frames. -/
def plug : List (Frame α) → Tree α → Tree α
  | [], t => t
  | f :: ctx, t => plug ctx (f.fill t)

/-- The keys before the hole. -/
def before : List (Frame α) → List α
  | [] => []
  | f :: ctx => before ctx ++ match f.side with
    | .left => []
    | .right => f.sibling.inorder ++ [f.key]

/-- The keys after the hole. -/
def after : List (Frame α) → List α
  | [] => []
  | f :: ctx => (match f.side with
    | .left => f.key :: f.sibling.inorder
    | .right => []) ++ after ctx

/-- The keys after the hole, seen from side `d`. -/
def behind (d : Side) : List (Frame α) → List α
  | [] => []
  | f :: ctx => (if f.side = d then f.key :: f.sibling.ordered d else []) ++ behind d ctx

/-- All keys of the frames. -/
def keys : List (Frame α) → List α
  | [] => []
  | f :: ctx => f.key :: f.sibling.inorder ++ keys ctx

theorem plug_inorder (ctx : List (Frame α)) (t : Tree α) :
    (plug ctx t).inorder = before ctx ++ t.inorder ++ after ctx := by
  induction ctx generalizing t with
  | nil => simp [plug, before, after]
  | cons f ctx ih =>
    rw [plug, ih]
    obtain ⟨d, c, x, u⟩ := f
    cases d <;> simp [Frame.fill, join, inorder, before, after]

theorem plug_perm (ctx : List (Frame α)) (t : Tree α) :
    (plug ctx t).inorder.Perm (t.inorder ++ keys ctx) := by
  induction ctx generalizing t with
  | nil => simp [plug, keys]
  | cons f ctx ih =>
    refine (ih (f.fill t)).trans ?_
    refine ((join_perm f.side f.color t f.key f.sibling).append_right (keys ctx)).trans ?_
    rw [List.cons_append, List.append_assoc]
    exact List.perm_middle.symm

variable {c : Color} {ctx : List (Frame α)} {n : Nat} {t : Tree α}

/-- Only the order matters for what is around. -/
theorem plug_inorder_congr (ctx : List (Frame α)) {u : Tree α} (h : t.inorder = u.inorder) :
    (plug ctx t).inorder = (plug ctx u).inorder := by
  rw [plug_inorder, plug_inorder, h]

/-- The root of the whole tree is that of the outermost frame. -/
theorem plug_root (h : ctx ≠ []) : ∃ k ∈ keys ctx, ∀ t, (plug ctx t).root = some k := by
  induction ctx with
  | nil => exact absurd rfl h
  | cons f ctx ih =>
    by_cases hctx : ctx = []
    · refine ⟨f.key, List.mem_cons_self, fun t => ?_⟩
      rw [hctx]
      exact root_join ..
    · obtain ⟨k, hk, hroot⟩ := ih hctx
      exact ⟨k, List.mem_append_right _ hk, fun t => hroot (f.fill t)⟩

theorem plug_root_congr (ctx : List (Frame α)) {u : Tree α} (h : t.root = u.root) :
    (plug ctx t).root = (plug ctx u).root := by
  by_cases hctx : ctx = []
  · rw [hctx]
    exact h
  · obtain ⟨k, -, hk⟩ := plug_root hctx
    rw [hk, hk]

/-! ## Balance -/

/-- No red node has a red child, and all paths have `n` black nodes. -/
inductive Balanced : Tree α → Color → Nat → Prop
  | nil : Balanced .nil .black 0
  | red {l r : Tree α} {x : α} {n : Nat} (hl : Balanced l .black n) (hr : Balanced r .black n) :
      Balanced (node .red l x r) .red n
  | black {l r : Tree α} {x : α} {c c' : Color} {n : Nat} (hl : Balanced l c n)
      (hr : Balanced r c' n) : Balanced (node .black l x r) .black (n + 1)

/-- The frames make a balanced tree with a black root of one of color `c` and black
height `n`. -/
inductive Fits : List (Frame α) → Color → Nat → Prop
  | root {n : Nat} : Fits [] .black n
  | red {d : Side} {x : α} {u : Tree α} {ctx : List (Frame α)} {n : Nat}
      (hu : Balanced u .black n) (h : Fits ctx .red n) : Fits (⟨d, .red, x, u⟩ :: ctx) .black n
  | black {d : Side} {x : α} {u : Tree α} {ctx : List (Frame α)} {c c' : Color} {n : Nat}
      (hu : Balanced u c' n) (h : Fits ctx .black (n + 1)) : Fits (⟨d, .black, x, u⟩ :: ctx) c n

namespace Balanced

variable {t u : Tree α} {x : α} {c c' : Color} {n : Nat}

theorem join_red (d : Side) (ht : Balanced t .black n) (hu : Balanced u .black n) :
    Balanced (join d .red t x u) .red n := by
  cases d with
  | left => exact .red ht hu
  | right => exact .red hu ht

theorem join_black (d : Side) (ht : Balanced t c n) (hu : Balanced u c' n) :
    Balanced (join d .black t x u) .black (n + 1) := by
  cases d with
  | left => exact .black ht hu
  | right => exact .black hu ht

theorem of_join_red {d : Side} (h : Balanced (join d .red t x u) c n) :
    Balanced t .black n ∧ Balanced u .black n := by
  cases d with
  | left =>
    cases h with
    | red hl hr => exact ⟨hl, hr⟩
  | right =>
    cases h with
    | red hl hr => exact ⟨hr, hl⟩

theorem color_eq (h : Balanced t c n) : t.color = c := by
  cases h <;> rfl

theorem setColor_black (h : Balanced t c n) : ∃ m, Balanced (t.setColor .black) .black m := by
  cases h with
  | nil => exact ⟨0, .nil⟩
  | red hl hr => exact ⟨_, .black hl hr⟩
  | black hl hr => exact ⟨_, .black hl hr⟩

/-- A red root made black adds one to the black height. -/
theorem setColor_red (h : Balanced t .red n) : Balanced (t.setColor .black) .black (n + 1) := by
  cases h with
  | red hl hr => exact .black hl hr

/-- There are at least `2 ^ n - 1` keys. -/
theorem two_pow_le (h : Balanced t c n) : 2 ^ n ≤ t.inorder.length + 1 := by
  induction h with
  | nil => exact le_rfl
  | red hl hr ihl ihr =>
    rw [inorder, List.length_append]
    omega
  | black hl hr ihl ihr =>
    rw [inorder, List.length_append, List.length_cons]
    omega

/-- No path is more than twice as long as it has black nodes, but for a red root. -/
theorem height_le (h : Balanced t c n) : t.height ≤ 2 * n + if c = .red then 1 else 0 := by
  induction h with
  | nil => exact Nat.zero_le _
  | red hl hr ihl ihr =>
    rw [if_neg (by decide)] at ihl ihr
    rw [if_pos rfl, height]
    omega
  | @black l r x c c' n hl hr ihl ihr =>
    have hone : ∀ c : Color, (if c = .red then 1 else 0) ≤ 1 := fun c => by split <;> omega
    have h1 := hone c
    have h2 := hone c'
    rw [height]
    omega

/-- **Height.** With a black root, at most twice the logarithm of the size. -/
theorem height_le_log (h : Balanced t .black n) :
    t.height ≤ 2 * Nat.log 2 (t.inorder.length + 1) := by
  have hheight := h.height_le
  have hlog : n ≤ Nat.log 2 (t.inorder.length + 1) :=
    Nat.le_log_of_pow_le (by norm_num) h.two_pow_le
  rw [if_neg (by decide)] at hheight
  omega

end Balanced

theorem Fits.balanced_plug (h : Fits ctx c n)
    (ht : Balanced t c n) : ∃ m, Balanced (plug ctx t) .black m := by
  induction h generalizing t with
  | root => exact ⟨_, ht⟩
  | @red d x u ctx n hu h ih => exact ih (ht.join_red d hu)
  | @black d x u ctx c c' n hu h ih => exact ih (ht.join_black d hu)

/-! ## The two conditions in their own terms -/

namespace Tree

/-- No red node has a red child. -/
def NoRedRed : Tree α → Prop
  | nil => True
  | node c l _ r => (c = .red → l.color = .black ∧ r.color = .black) ∧ l.NoRedRed ∧ r.NoRedRed

/-- The numbers of black nodes on the paths from the root to the leaves. -/
def blackCounts : Tree α → List Nat
  | nil => [0]
  | node c l _ r => (l.blackCounts ++ r.blackCounts).map (· + if c = .black then 1 else 0)

end Tree

theorem Balanced.noRedRed (h : Balanced t c n) : t.NoRedRed := by
  induction h with
  | nil => trivial
  | red hl hr ihl ihr => exact ⟨fun _ => ⟨hl.color_eq, hr.color_eq⟩, ihl, ihr⟩
  | black hl hr ihl ihr => exact ⟨(nomatch ·), ihl, ihr⟩

theorem Balanced.blackCounts (h : Balanced t c n) : ∀ k ∈ t.blackCounts, k = n := by
  induction h with
  | nil => simp [Tree.blackCounts]
  | red hl hr ihl ihr =>
    intro k hk
    obtain ⟨j, hj, rfl⟩ := List.mem_map.mp hk
    exact (List.mem_append.mp hj).elim (ihl j) (ihr j)
  | black hl hr ihl ihr =>
    intro k hk
    obtain ⟨j, hj, rfl⟩ := List.mem_map.mp hk
    exact congrArg (· + 1) ((List.mem_append.mp hj).elim (ihl j) (ihr j))

/-! ## The way down -/

/-- The frames on the way from the root of `t` to a leaf, going left where `p` says so. -/
def descend (p : α → Prop) [DecidablePred p] : Tree α → List (Frame α) → List (Frame α)
  | nil, ctx => ctx
  | node c l x r, ctx =>
    if p x then descend p l (⟨.left, c, x, r⟩ :: ctx) else descend p r (⟨.right, c, x, l⟩ :: ctx)

section Descend

variable {p : α → Prop} [DecidablePred p]

theorem plug_descend (t : Tree α) (ctx : List (Frame α)) :
    plug (descend p t ctx) .nil = plug ctx t := by
  induction t generalizing ctx with
  | nil => rfl
  | node c l x r ihl ihr =>
    rw [descend]
    split
    · exact ihl _
    · exact ihr _

/-- The leaf is a hole for a leaf. -/
theorem fits_descend {t : Tree α} {ctx : List (Frame α)} {c : Color} {n : Nat}
    (ht : Balanced t c n) (h : Fits ctx c n) : Fits (descend p t ctx) .black 0 := by
  induction ht generalizing ctx with
  | nil => exact h
  | red hl hr ihl ihr =>
    rw [descend]
    split
    · exact ihl (.red hr h)
    · exact ihr (.red hl h)
  | black hl hr ihl ihr =>
    rw [descend]
    split
    · exact ihl (.black hr h)
    · exact ihr (.black hl h)

/-- Every frame went to the side that `p` says. -/
theorem side_descend {t : Tree α} {ctx : List (Frame α)}
    (h : ∀ f ∈ ctx, f.side = if p f.key then .left else .right) :
    ∀ f ∈ descend p t ctx, f.side = if p f.key then .left else .right := by
  induction t generalizing ctx with
  | nil => exact h
  | node c l x r ihl ihr =>
    rw [descend]
    by_cases hp : p x
    · rw [if_pos hp]
      refine ihl fun f hf => ?_
      rcases List.mem_cons.mp hf with rfl | hf
      · exact (if_pos hp).symm
      · exact h f hf
    · rw [if_neg hp]
      refine ihr fun f hf => ?_
      rcases List.mem_cons.mp hf with rfl | hf
      · exact (if_neg hp).symm
      · exact h f hf

/-- If `p` holds from some place on, the leaf is there. -/
theorem before_after_descend {t : Tree α} {ctx : List (Frame α)}
    (ht : t.inorder.Pairwise fun a b => p a → p b) (hbefore : ∀ a ∈ before ctx, ¬ p a)
    (hafter : ∀ a ∈ after ctx, p a) :
    (∀ a ∈ before (descend p t ctx), ¬ p a) ∧ ∀ a ∈ after (descend p t ctx), p a := by
  induction t generalizing ctx with
  | nil => exact ⟨hbefore, hafter⟩
  | node c l x r ihl ihr =>
    rw [inorder, List.pairwise_append] at ht
    obtain ⟨hl, hxr, hlx⟩ := ht
    obtain ⟨hx, hr⟩ := List.pairwise_cons.mp hxr
    rw [descend]
    by_cases hp : p x
    · rw [if_pos hp]
      refine ihl hl (fun a ha => hbefore a ?_) fun a ha => ?_
      · simpa [before] using ha
      · rcases List.mem_append.mp ha with ha | ha
        · rcases List.mem_cons.mp ha with rfl | ha
          · exact hp
          · exact hx a ha hp
        · exact hafter a ha
    · rw [if_neg hp]
      refine ihr hr (fun a ha => ?_) fun a ha => hafter a ha
      rcases List.mem_append.mp ha with ha | ha
      · exact hbefore a ha
      · rcases List.mem_append.mp ha with ha | ha
        · exact fun hpa => hp (hlx a ha x List.mem_cons_self hpa)
        · rw [List.mem_singleton.mp ha]
          exact hp

end Descend

/-! ## The way up -/

/-- Above a red frame there is a black one. -/
theorem Fits.black_above {f : Frame α} (h : Fits (f :: ctx) .black n) (hred : f.color = .red) :
    ∃ g ctx', ctx = g :: ctx' ∧ g.color = .black ∧ Balanced f.sibling .black n ∧
      (∃ c, Balanced g.sibling c n) ∧ Fits ctx' .black (n + 1) := by
  cases h with
  | black hu h => cases hred
  | red hu h =>
    cases h with
    | black hu' h' => exact ⟨_, _, rfl, rfl, hu, ⟨_, hu'⟩, h'⟩

/-- With a black frame, or none, around it a red tree is where it may be. -/
theorem Fits.done (h : Fits ctx .black n)
    (ht : Balanced t .red n) (hdone : ∀ f ∈ ctx.head?, f.color = .black) :
    ∃ m, Balanced ((plug ctx t).setColor .black) .black m := by
  cases h with
  | root => exact ht.setColor_black
  | red hu h => exact nomatch hdone _ rfl
  | @black d x u ctx c c' n hu h =>
    obtain ⟨m, hm⟩ := h.balanced_plug (ht.join_black (x := x) d hu)
    exact hm.setColor_black

/-- Recoloring, when the sibling of the parent is red: the violation moves up. -/
theorem balanced_recolored {f g : Frame α} (ht : Balanced t .red n)
    (hf : Balanced f.sibling .black n) (hg : Balanced g.sibling .red n) :
    Balanced (join g.side .red ((f.fill t).setColor .black) g.key (g.sibling.setColor .black)) .red
      (n + 1) := by
  rw [Frame.fill, setColor_join]
  exact (ht.join_black f.side hf).join_red g.side hg.setColor_red

end GosKernel.RedBlack
