import GosKernel.Defs
import GosKernel.Lib.Exec
import GosKernel.Lib.RedBlack

/-!
# Red-black trees (`src/lib/rbtree.c`)

Nodes belong to the caller and are linked both ways. `ν` are the addresses of nodes, a
pointer is an `Option ν`, and following `NULL` stops the machine. The mirrored halves of
the code are one definition each, with the side as a parameter.
-/

namespace GosKernel.Container

open RedBlack

/-- `rb_node_t`. -/
structure RbNode (ν : Type) where
  parent : Option ν
  left : Option ν
  right : Option ν
  color : Color

namespace RbNode

variable {ν : Type}

def child (n : RbNode ν) : Side → Option ν
  | .left => n.left
  | .right => n.right

def setChild (n : RbNode ν) (d : Side) (p : Option ν) : RbNode ν :=
  match d with
  | .left => { n with left := p }
  | .right => { n with right := p }

def setParent (n : RbNode ν) (p : Option ν) : RbNode ν := { n with parent := p }

def setColor (n : RbNode ν) (c : Color) : RbNode ν := { n with color := c }

/-- The node with child `near` on side `d`. -/
def link (d : Side) (parent near far : Option ν) (c : Color) : RbNode ν :=
  match d with
  | .left => ⟨parent, near, far, c⟩
  | .right => ⟨parent, far, near, c⟩

end RbNode

/-- `rb_tree_t`, and the memory of the nodes. -/
structure RbTree (ν : Type) where
  root : Option ν
  count : Nat
  node : ν → RbNode ν

/-- A change of the node that `p` leads to. -/
def RbTree.modify {ν : Type} [DecidableEq ν] (s : RbTree ν) (p : Option ν)
    (f : RbNode ν → RbNode ν) : RbTree ν :=
  { s with node := fun z => if p = some z then f (s.node z) else s.node z }

/-! ## The code -/

section Code

variable {ν α : Type} [DecidableEq ν]

/-- Follow a pointer. -/
def deref : Option ν → Exec (RbTree ν) ν
  | none => .stop
  | some x => pure x

def readNode (x : ν) (f : RbNode ν → α) : Exec (RbTree ν) α := .read fun s => f (s.node x)

def modifyNode (x : ν) (f : RbNode ν → RbNode ν) : Exec (RbTree ν) Unit :=
  .update (·.modify (some x) f)

/-- A change of the node a pointer leads to, unless it is `NULL`. -/
def modifyIf (p : Option ν) (f : RbNode ν → RbNode ν) : Exec (RbTree ν) Unit :=
  match p with
  | none => pure ()
  | some x => modifyNode x f

/-- `rb_is_red`. -/
def rbIsRed (p : Option ν) : Exec (RbTree ν) Bool :=
  match p with
  | none => pure false
  | some x => readNode x fun n => n.color = .red

/-- `rb_set_red`. -/
def rbSetRed (p : Option ν) : Exec (RbTree ν) Unit := modifyIf p (·.setColor .red)

/-- `rb_set_black`. -/
def rbSetBlack (p : Option ν) : Exec (RbTree ν) Unit := modifyIf p (·.setColor .black)

/-- The pointer to `x`, in its parent or in the tree, becomes one to `y`. The child on
side `d` is tried first. -/
def replaceChild (d : Side) (parent : Option ν) (x y : ν) : Exec (RbTree ν) Unit :=
  match parent with
  | none => .update fun s => { s with root := some y }
  | some p => do
    let child ← readNode p (·.child d)
    modifyNode p (·.setChild (if child = some x then d else d.flip) (some y))

/-- The rotation of `x` towards side `d` (rbtree.c:21-51). -/
def rbRotate (d : Side) (x : ν) : Exec (RbTree ν) Unit := do
  let child ← readNode x (·.child d.flip)
  let y ← deref child
  let inner ← readNode y (·.child d)
  modifyNode x (·.setChild d.flip inner)
  modifyIf inner (·.setParent (some x))
  let parent ← readNode x (·.parent)
  modifyNode y (·.setParent parent)
  replaceChild d parent x y
  modifyNode y (·.setChild d (some x))
  modifyNode x (·.setParent (some y))

/-- `rb_rotate_left`. -/
def rbRotateLeft (x : ν) : Exec (RbTree ν) Unit := rbRotate .left x

/-- `rb_rotate_right`. -/
def rbRotateRight (y : ν) : Exec (RbTree ν) Unit := rbRotate .right y

/-- `rb_tree_init` (rbtree.c:53-56). -/
def rbTreeInit : Exec (RbTree ν) Unit := .update fun s => { s with root := none, count := 0 }

/-- The search for the place of `node` (rbtree.c:66-73): the last node that is visited. -/
def rbDescend (cmp : ν → ν → Int) (node : ν) : (fuel : Nat) → (y x : Option ν) →
    Exec (RbTree ν) (Option ν)
  | 0, _, _ => .stop
  | _ + 1, y, none => pure y
  | fuel + 1, _, some x => do
    let next ← readNode x (·.child (if cmp node x < 0 then .left else .right))
    rbDescend cmp node fuel (some x) next

/-- `node` becomes a child of `y`, or the root (rbtree.c:75-82). -/
def rbAttach (cmp : ν → ν → Int) (node : ν) (y : Option ν) : Exec (RbTree ν) Unit := do
  modifyNode node (·.setParent y)
  match y with
  | none => .update fun s => { s with root := some node }
  | some y => modifyNode y (·.setChild (if cmp node y < 0 then .left else .right) (some node))

/-- `node->parent->parent`. -/
def grandparent (node : ν) : Exec (RbTree ν) (Option ν) := do
  let parent ← readNode node (·.parent)
  let p ← deref parent
  readNode p (·.parent)

/-- An inner grandchild first comes to the outer side (rbtree.c:96-99, 111-114). -/
def rbStraighten (d : Side) (node : ν) : Exec (RbTree ν) ν := do
  let parent ← readNode node (·.parent)
  let p ← deref parent
  let child ← readNode p (·.child d.flip)
  if child = some node then do
    rbRotate d p
    pure p
  else pure node

/-- One iteration of the repair, for a parent on side `d` of its own (rbtree.c:88-103,
104-118). The result is the new `node`. -/
def rbRepair (d : Side) (node : ν) : Exec (RbTree ν) ν := do
  let g ← grandparent node
  let g ← deref g
  let y ← readNode g (·.child d.flip)
  let red ← rbIsRed y
  if red then do
    let parent ← readNode node (·.parent)
    rbSetBlack parent
    rbSetBlack y
    let g ← grandparent node
    rbSetRed g
    let g ← grandparent node
    deref g
  else do
    let node ← rbStraighten d node
    let parent ← readNode node (·.parent)
    rbSetBlack parent
    let g ← grandparent node
    rbSetRed g
    let g ← grandparent node
    let g ← deref g
    rbRotate d.flip g
    pure node

/-- The side the parent of `node` is on. -/
def parentSide (node : ν) : Exec (RbTree ν) Side := do
  let parent ← readNode node (·.parent)
  let g ← grandparent node
  let g ← deref g
  let left ← readNode g (·.left)
  pure (if parent = left then .left else .right)

/-- The repair loop (rbtree.c:87-119). -/
def rbFixup : (fuel : Nat) → (node : ν) → Exec (RbTree ν) Unit
  | 0, _ => .stop
  | fuel + 1, node => do
    let root ← Exec.read RbTree.root
    let parent ← readNode node (·.parent)
    let red ← rbIsRed parent
    if some node ≠ root ∧ red then do
      let d ← parentSide node
      let node ← rbRepair d node
      rbFixup fuel node
    else pure ()

/-- `rb_insert` (rbtree.c:58-123). -/
def rbInsert (cmp : ν → ν → Int) (fuel : Nat) (node : ν) : Exec (RbTree ν) Unit := do
  let x ← Exec.read RbTree.root
  modifyNode node fun n => { n with left := none, right := none, color := .red }
  let y ← rbDescend cmp node fuel none x
  rbAttach cmp node y
  Exec.update fun s => { s with count := wrap64 (s.count + 1) }
  rbFixup fuel node
  let root ← Exec.read RbTree.root
  rbSetBlack root

/-- The loop of `rb_search`. -/
def rbSearchLoop (cmp : ν → ν → Int) (key : ν) : (fuel : Nat) → (x : Option ν) →
    Exec (RbTree ν) (Option ν)
  | 0, _ => .stop
  | _ + 1, none => pure none
  | fuel + 1, some x =>
    if cmp key x = 0 then pure (some x)
    else do
      let next ← readNode x (·.child (if cmp key x < 0 then .left else .right))
      rbSearchLoop cmp key fuel next

/-- `rb_search` (rbtree.c:131-139). -/
def rbSearch (cmp : ν → ν → Int) (key : ν) (fuel : Nat) : Exec (RbTree ν) (Option ν) := do
  let x ← Exec.read RbTree.root
  rbSearchLoop cmp key fuel x

/-- From `x` to child `d`, as long as there is one. -/
def rbDown (d : Side) : (fuel : Nat) → (x : ν) → Exec (RbTree ν) ν
  | 0, _ => .stop
  | fuel + 1, x => do
    match ← readNode x (·.child d) with
    | none => pure x
    | some y => rbDown d fuel y

/-- From `x`, with the parent `y`, to the parent, as long as `x` is child `d` of it. -/
def rbUp (d : Side) : (fuel : Nat) → (x : ν) → (y : Option ν) → Exec (RbTree ν) (Option ν)
  | 0, _, _ => .stop
  | _ + 1, _, none => pure none
  | fuel + 1, x, some y => do
    let child ← readNode y (·.child d)
    if child = some x then do
      let parent ← readNode y (·.parent)
      rbUp d fuel y parent
    else pure (some y)

/-- The first node, seen from side `d`. -/
def rbFirst (d : Side) (fuel : Nat) : Exec (RbTree ν) (Option ν) := do
  match ← Exec.read RbTree.root with
  | none => pure none
  | some x => do
    let y ← rbDown d fuel x
    pure (some y)

/-- The node after `x`, seen from side `d`. -/
def rbStep (d : Side) (fuel : Nat) (x : ν) : Exec (RbTree ν) (Option ν) := do
  match ← readNode x (·.child d.flip) with
  | some y => do
    let y ← rbDown d fuel y
    pure (some y)
  | none => do
    let y ← readNode x (·.parent)
    rbUp d.flip fuel x y

/-- `rb_min` (rbtree.c:141-145). -/
def rbMin (fuel : Nat) : Exec (RbTree ν) (Option ν) := rbFirst .left fuel

/-- `rb_max` (rbtree.c:147-151). -/
def rbMax (fuel : Nat) : Exec (RbTree ν) (Option ν) := rbFirst .right fuel

/-- `rb_next` (rbtree.c:153-165). -/
def rbNext (fuel : Nat) (x : ν) : Exec (RbTree ν) (Option ν) := rbStep .left fuel x

/-- `rb_prev` (rbtree.c:167-179). -/
def rbPrev (fuel : Nat) (x : ν) : Exec (RbTree ν) (Option ν) := rbStep .right fuel x

end Code

end GosKernel.Container
