import Wish.Heap
import Mathlib.Order.Defs.LinearOrder

/-!
# The red-black tree of `practice/rbtree.h`

The functions of the source over a heap of `Node`s; the global variable is `root`. A `while`
loop is a `loop` over the variables it changes. `left_revolve` and `right_revolve`, and the
two halves of `erase_fixup`, are one definition for both directions; the halves of
`insert_fixup` differ in the source and are kept apart.
-/

namespace Wish.RBTree

open Prog Heap

inductive ColorType where
  | Red
  | Black
  deriving DecidableEq, Repr

/-- `struct RBTree`. -/
structure Node (T : Type) where
  parent : Ptr
  left : Ptr
  right : Ptr
  color : ColorType
  value : T
  deriving DecidableEq, Repr

inductive Dir where
  | left
  | right
  deriving DecidableEq, Repr

def Dir.flip : Dir → Dir
  | .left => .right
  | .right => .left

@[simp] theorem Dir.flip_left : Dir.left.flip = .right := rfl

@[simp] theorem Dir.flip_right : Dir.right.flip = .left := rfl

@[simp] theorem Dir.flip_flip (d : Dir) : d.flip.flip = d := by cases d <;> rfl

def Node.child {T : Type} (n : Node T) : Dir → Ptr
  | .left => n.left
  | .right => n.right

def Node.setChild {T : Type} (n : Node T) (d : Dir) (q : Ptr) : Node T :=
  match d with
  | .left => { n with left := q }
  | .right => { n with right := q }

/-- Programs on nodes and the variable `root`. -/
abbrev RBProg (T α : Type) := Prog Fault (Mem Ptr (Node T)) α

variable {T : Type}

/-! ## The members of a node -/

def getRoot : RBProg T Ptr := do return (← get).globals

def setRoot (q : Ptr) : RBProg T PUnit := modify fun s => { s with globals := q }

def parent (p : Ptr) : RBProg T Ptr := do return (← deref p).parent

def child (d : Dir) (p : Ptr) : RBProg T Ptr := do return (← deref p).child d

def left (p : Ptr) : RBProg T Ptr := child .left p

def right (p : Ptr) : RBProg T Ptr := child .right p

def color (p : Ptr) : RBProg T ColorType := do return (← deref p).color

def value (p : Ptr) : RBProg T T := do return (← deref p).value

def isRed (p : Ptr) : RBProg T Bool := do return (← color p) = .Red

def isBlack (p : Ptr) : RBProg T Bool := do return (← color p) = .Black

/-- `p && p->is_red()` -/
def redNode (p : Ptr) : RBProg T Bool := if p = none then pure false else isRed p

def setParent (p q : Ptr) : RBProg T PUnit := modifyCell p fun n => { n with parent := q }

def setChild (d : Dir) (p q : Ptr) : RBProg T PUnit := modifyCell p fun n => n.setChild d q

def setLeft (p q : Ptr) : RBProg T PUnit := setChild .left p q

def setRight (p q : Ptr) : RBProg T PUnit := setChild .right p q

def setColor (p : Ptr) (c : ColorType) : RBProg T PUnit :=
  modifyCell p fun n => { n with color := c }

def setRed (p : Ptr) : RBProg T PUnit := setColor p .Red

def setBlack (p : Ptr) : RBProg T PUnit := setColor p .Black

def setValue (p : Ptr) (t : T) : RBProg T PUnit := modifyCell p fun n => { n with value := t }

/-! ## Traversals -/

/-- `foreach_back`; `acc` is what the callback has captured by reference. -/
def foreachBack {β : Type} (cb : β → Ptr → RBProg T β) : Nat → β → Ptr → RBProg T β
  | _, acc, none => pure acc
  | 0, _, some _ => throw .stuck
  | fuel + 1, acc, some a => do
    let acc ← foreachBack cb fuel acc (← left (some a))
    let acc ← foreachBack cb fuel acc (← right (some a))
    cb acc (some a)

def intMax : Nat := 2 ^ 31 - 1

/-- The callback of `size`; the counter is an `int`. -/
def countNode (cnt : Nat) (_ : Ptr) : RBProg T Nat :=
  if cnt = intMax then throw .overflow else pure (cnt + 1)

def size (fuel : Nat) (root : Ptr) : RBProg T Nat := foreachBack countNode fuel 0 root

def find [LinearOrder T] : Nat → Ptr → T → RBProg T Ptr
  | _, none, _ => pure none
  | 0, some _, _ => throw .stuck
  | fuel + 1, some a, t => do
    if (← value (some a)) = t then pure (some a)
    else do
      if (← value (some a)) > t then do
        find fuel (← left (some a)) t
      else do
        find fuel (← right (some a)) t

/-! ## Rotations -/

/-- `if (p != nullptr) p->parent = q` -/
def reparent (p q : Ptr) : RBProg T PUnit := if p ≠ none then setParent p q else pure ⟨⟩

/-- The pointer to `x` in its parent, or `root`, becomes `y`. -/
def relink (x y : Ptr) : RBProg T PUnit := do
  if (← parent x) = none then setRoot y
  else do
    if x = (← left (← parent x)) then do
      setLeft (← parent x) y
    else do
      if x = (← right (← parent x)) then do
        setRight (← parent x) y
      else pure ⟨⟩

/-- `left_revolve` for `d = .left`. -/
def revolve (d : Dir) (x : Ptr) : RBProg T PUnit := do
  let y ← child d.flip x
  setChild d.flip x (← child d y)
  reparent (← child d y) x
  setParent y (← parent x)
  relink x y
  setChild d y x
  setParent x y

def leftRevolve (x : Ptr) : RBProg T PUnit := revolve .left x

def rightRevolve (y : Ptr) : RBProg T PUnit := revolve .right y

/-! ## Insertion -/

/-- `if (p == g->left)`: after case 2 the test of case 3 fails, and the next round does it. -/
def insertFixupLeft (node p g : Ptr) : RBProg T (Ptr ⊕ PUnit) := do
  let u ← right g
  if ← redNode u then do
    setBlack u
    setBlack p
    setRed g
    pure (.inl g)
  else do
    let pr ← right p
    let node ← (if pr = node then (do leftRevolve p; pure p) else pure node)
    let pl ← left p
    (if pl = node then (do setBlack p; setRed g; rightRevolve g) else pure ⟨⟩)
    pure (.inl node)

/-- The other branch: case 2 swaps `p` and `node` and goes on with case 3. -/
def insertFixupRight (node p g : Ptr) : RBProg T (Ptr ⊕ PUnit) := do
  let u ← left g
  if ← redNode u then do
    setBlack u
    setBlack p
    setRed g
    pure (.inl g)
  else do
    let pl ← left p
    let (p, node) ← (if pl = node then (do rightRevolve p; pure (node, p)) else pure (p, node))
    setBlack p
    setRed g
    leftRevolve g
    pure (.inl node)

def insertFixupBody (node : Ptr) : RBProg T (Ptr ⊕ PUnit) := do
  let p ← parent node
  if ← redNode p then do
    let g ← parent p
    if p = (← left g) then insertFixupLeft node p g else insertFixupRight node p g
  else pure (.inr ⟨⟩)

def insertFixup (fuel : Nat) (node : Ptr) : RBProg T PUnit := do
  loop .stuck insertFixupBody fuel node
  setBlack (← getRoot)

/-- One round of the descent, with `x` and `y`. -/
def descend [LinearOrder T] (node : Ptr) (xy : Ptr × Ptr) : RBProg T ((Ptr × Ptr) ⊕ Ptr) := do
  if xy.1 = none then pure (.inr xy.2)
  else do
    if (← value node) < (← value xy.1) then do
      pure (.inl (← left xy.1, xy.1))
    else do
      pure (.inl (← right xy.1, xy.1))

def insertNode [LinearOrder T] (fuel : Nat) (node : Ptr) : RBProg T PUnit := do
  let y ← loop .stuck (descend node) fuel (← getRoot, none)
  setParent node y
  (if y ≠ none then (do
    if (← value node) < (← value y) then setLeft y node else setRight y node)
  else setRoot node)
  setRed node
  insertFixup fuel node

/-- `insert(root, t)`, with `new` giving the address `a`. -/
def insert [LinearOrder T] [Inhabited T] (fuel : Nat) (a : Addr) (t : T) : RBProg T PUnit := do
  let node ← new a ⟨none, none, none, .Red, default⟩
  setValue node t
  insertNode fuel node

/-! ## Deletion -/

/-- Cases 3 and 4: the sibling `s` has a red child. -/
def eraseFixupNephew (d : Dir) (node par s : Ptr) : RBProg T ((Ptr × Ptr) ⊕ Ptr) := do
  if (← redNode (← child d s)) && !(← redNode (← child d.flip s)) then do
    setBlack (← child d s)
    setRed s
    revolve d.flip s
    pure (.inl (node, par))
  else do
    if ← redNode (← child d.flip s) then do
      setColor s (← color par)
      setBlack par
      setBlack (← child d.flip s)
      revolve d par
      pure (.inr node)
    else pure (.inl (node, par))

/-- The loop of `erase_fixup` where `node` is the `d` child of `parent`. -/
def eraseFixupSide (d : Dir) (node par : Ptr) : RBProg T ((Ptr × Ptr) ⊕ Ptr) := do
  let s ← child d.flip par
  if ← isRed s then do
    setBlack s
    setRed par
    revolve d par
    pure (.inl (node, par))
  else do
    if !(← redNode (← left s)) && !(← redNode (← right s)) then do
      setRed s
      pure (.inl (par, ← parent par))
    else eraseFixupNephew d node par s

def eraseFixupBody (np : Ptr × Ptr) : RBProg T ((Ptr × Ptr) ⊕ Ptr) := do
  -- `node != root && (!node || node->is_black())`
  if np.1 ≠ (← getRoot) && !(← redNode np.1) then do
    if np.1 = (← left np.2) then eraseFixupSide .left np.1 np.2
    else eraseFixupSide .right np.1 np.2
  else pure (.inr np.1)

def eraseFixup (fuel : Nat) (node par : Ptr) : RBProg T PUnit := do
  let node ← loop .stuck eraseFixupBody fuel (node, par)
  if node ≠ none then setBlack node else pure ⟨⟩

/-- `if (node->parent->left == node) ... = q; else ... = q;` -/
def replaceChild (node q : Ptr) : RBProg T PUnit := do
  if (← left (← parent node)) = node then do
    setLeft (← parent node) q
  else do
    setRight (← parent node) q

/-- `if (node->parent == nullptr) root = q; else ...` -/
def replaceNode (node q : Ptr) : RBProg T PUnit := do
  if (← parent node) = none then setRoot q else replaceChild node q

/-- Without children. -/
def eraseLeaf (fuel : Nat) (node : Ptr) : RBProg T PUnit := do
  if (← parent node) = none then do
    delete (← getRoot)
    setRoot none
  else do
    replaceChild node none
    (if ← isBlack node then (do eraseFixup fuel none (← parent node)) else pure ⟨⟩)
    delete node

/-- With one child. -/
def eraseOneChild (fuel : Nat) (node : Ptr) : RBProg T PUnit := do
  let l ← left node
  let c ← (if l ≠ none then left node else right node)
  replaceNode node c
  setParent c (← parent node)
  (if ← isBlack node then (do eraseFixup fuel c (← parent node)) else pure ⟨⟩)
  delete node

/-- One round of the search for the smallest node on the right. -/
def leftmost (replace : Ptr) : RBProg T (Ptr ⊕ Ptr) := do
  let l ← left replace
  if l ≠ none then pure (.inl l) else pure (.inr replace)

/-- `replace` is further down: its right child takes its place, and `node`'s right child
becomes its own. -/
def takeOut (node replace : Ptr) : RBProg T PUnit := do
  reparent (← right replace) (← parent replace)
  setLeft (← parent replace) (← right replace)
  setRight replace (← right node)
  setParent (← right node) replace

/-- `replace` takes the place of `node`, with its left child and its colour. -/
def putIn (node replace : Ptr) : RBProg T PUnit := do
  setLeft replace (← left node)
  setParent (← left node) replace
  replaceNode node replace
  setParent replace (← parent node)
  setColor replace (← color node)

/-- With two children. -/
def eraseTwoChildren (fuel : Nat) (node : Ptr) : RBProg T PUnit := do
  let replace ← loop .stuck leftmost fuel (← right node)
  let c ← right replace
  let par ← parent replace
  let removed ← color replace
  let par ← (if par = node then pure replace else (do takeOut node replace; pure par))
  putIn node replace
  (if removed = .Black then eraseFixup fuel c par else pure ⟨⟩)
  delete node

def eraseNode (fuel : Nat) (node : Ptr) : RBProg T PUnit := do
  if (← left node) = none && (← right node) = none then eraseLeaf fuel node
  else do
    if (← left node) = none || (← right node) = none then eraseOneChild fuel node
    else eraseTwoChildren fuel node

/-- `erase(root, t)`. -/
def erase [LinearOrder T] (fuel : Nat) (t : T) : RBProg T PUnit := do
  let node ← find fuel (← getRoot) t
  if node ≠ none then eraseNode fuel node else pure ⟨⟩

end Wish.RBTree
